import LuaMachine.Proofs.Table.Update

namespace LuaMachine.Table

/-- The operations that change a table. -/
inductive Op
  | set (key value : Value)
  | setInt (i : Int64) (value : Value)
  | setStr (s : String) (value : Value)
  | remove (key : Value)
  | append (value : Value)
  | prune
  | setMode (mode : WeakMode)
deriving DecidableEq

namespace Op

/-- The table after an operation; a refused key leaves it as it was. -/
def apply (ctx : Context) (t : Table) : Op → Table
  | set key value => (t.set ctx key value).toOption.getD t
  | setInt i value => t.setInt ctx i value
  | setStr s value => t.setStr ctx s value
  | remove key => (t.remove ctx key).1
  | append value => t.append ctx value
  | prune => t.prune ctx
  | setMode mode => t.setMode ctx mode

/-- The entry that an operation asks the table to store: a key in stored form, and its value. -/
def write? (ctx : Context) (t : Table) : Op → Option (Value × Value)
  | set key value => (normalizeKey key).toOption.map (·, value)
  | setInt i value => some (.int i, value)
  | setStr s value => some (.str s, value)
  | remove key => (normalizeKey key).toOption.map (·, .nil)
  | append value => some (.int (Int64.ofNat (t.length ctx + 1)), value)
  | prune | setMode _ => none

/-- The moments at which an operation drops or passes over what has vanished. -/
def moments (ctx : Context) (t : Table) : Op → List Context
  | set key value => ((normalizeKey key).toOption.map fun stored => t.storeMoments ctx stored value).getD []
  | setInt i value => t.storeMoments ctx (.int i) value
  | setStr s value => t.storeMoments ctx (.str s) value
  | remove key =>
    ctx :: if (t.get ctx key).isNil then []
      else ((normalizeKey key).toOption.map fun stored =>
        t.storeMoments (ctx.take [t.get ctx key]) stored .nil).getD []
  | append value => t.storeMoments ctx (.int (Int64.ofNat (t.length ctx + 1))) value
  | prune => t.part.drainMoments ctx
  | setMode mode => if mode = t.mode then [] else t.part.drainMoments ctx

/-- An operation stores under keys in stored form only. -/
theorem isStored_of_write? {ctx : Context} {t : Table} {op : Op} {w : Value × Value}
    (h : op.write? ctx t = some w) : IsStored w.1 := by
  have hnormal {key value : Value}
      (h : (normalizeKey key).toOption.map (fun stored => (stored, value)) = some w) : IsStored w.1 := by
    cases hkey : normalizeKey key with
    | error e => simp [hkey, Except.toOption] at h
    | ok stored =>
      simp only [hkey, Except.toOption, Option.map_some, Option.some.injEq] at h
      rw [← h]
      exact normalizeKey_idem hkey
  cases op with
  | set key value | remove key => exact hnormal h
  | setInt | setStr | append =>
    cases h
    rfl
  | prune | setMode => cases h

/-- What an operation comes to. -/
inductive Does (ctx : Context) (t : Table) (op : Op) : Prop
  /-- A key is refused, or the table has the mode already. -/
  | nothing (hwrite : op.write? ctx t = none) (happly : op.apply ctx t = t)
  /-- There is nothing to remove. -/
  | removesNothing {key : Value} (hwrite : op.write? ctx t = some (key, .nil)) (hnil : (t.get ctx key).isNil = true)
      (happly : op.apply ctx t = t) (hmoment : ctx ∈ op.moments ctx t)
  /-- A value is stored, while the operation holds what it has taken out. -/
  | stores {key value : Value} {taken : Values} (hwrite : op.write? ctx t = some (key, value))
      (happly : op.apply ctx t = t.setNormal (ctx.take taken) key value)
      (hmoments : ∀ c ∈ t.storeMoments (ctx.take taken) key value, c ∈ op.moments ctx t)
  /-- The table is rebuilt, for a mode. -/
  | rebuilds {mode : WeakMode} (hwrite : op.write? ctx t = none)
      (happly : op.apply ctx t = rehash ctx { t with mode } none)
      (hmoments : ∀ c ∈ t.part.drainMoments ctx, c ∈ op.moments ctx t)

end Op

section Cases

variable {ctx : Context} {t : Table} {key stored : Value}

theorem remove_of_isNil (hnil : (t.get ctx key).isNil = true) :
    t.remove ctx key = (t, t.get ctx key) := by
  rw [remove, if_pos hnil]

theorem remove_of_normalizeKey (hnil : (t.get ctx key).isNil = false)
    (h : normalizeKey key = .ok stored) :
    t.remove ctx key = (t.setNormal (ctx.take [t.get ctx key]) stored .nil, t.get ctx key) := by
  simp [remove, hnil, set, h, Except.map]

theorem Op.does_set (ctx : Context) (t : Table) (key value : Value) : (Op.set key value).Does ctx t := by
  cases hkey : normalizeKey key with
  | error e =>
    refine .nothing (by simp [write?, hkey, Except.toOption]) ?_
    simp only [apply, Table.set, hkey]
    rfl
  | ok stored =>
    refine @Does.stores _ _ _ stored value [] (by simp [write?, hkey, Except.toOption]) ?_ fun c hc => ?_
    · simp only [apply, Table.set, hkey]
      rfl
    · simpa [moments, hkey, Except.toOption] using hc

theorem Op.does_remove (ctx : Context) (t : Table) (key : Value) : (Op.remove key).Does ctx t := by
  cases hkey : normalizeKey key with
  | error e =>
    have hnil : (t.get ctx key).isNil = true := by rw [get_of_normalizeKey_error ctx t hkey]; rfl
    exact .nothing (by simp [write?, hkey, Except.toOption]) (by rw [apply, remove_of_isNil hnil])
  | ok stored =>
    have hwrite : (Op.remove key).write? ctx t = some (stored, .nil) := by simp [write?, hkey, Except.toOption]
    cases hnil : (t.get ctx key).isNil with
    | true =>
      refine .removesNothing hwrite ?_ (by rw [apply, remove_of_isNil hnil]) (by simp [moments])
      rwa [← get_of_normalizeKey ctx t hkey]
    | false =>
      refine .stores hwrite (by rw [apply, remove_of_normalizeKey hnil hkey]) fun c hc => ?_
      simp only [moments, hnil, hkey, Except.toOption]
      exact List.mem_cons_of_mem _ hc

/-- Every operation comes to one of these. -/
theorem Op.does (ctx : Context) (t : Table) (op : Op) : op.Does ctx t := by
  cases op with
  | set key value => exact does_set ctx t key value
  | setInt | setStr | append => exact @Does.stores _ _ _ _ _ [] rfl rfl fun _ => id
  | remove key => exact does_remove ctx t key
  | prune => exact .rebuilds rfl rfl fun _ => id
  | setMode mode =>
    by_cases hsame : mode = t.mode
    · exact .nothing rfl (by rw [apply, Table.setMode, if_pos hsame])
    · exact .rebuilds rfl (by rw [apply, Table.setMode, if_neg hsame]) (by simp [moments, hsame])

end Cases

section Reading

variable {ctx : Context} {K : Set Value} {t : Table} {key : Value}

/-- While nothing vanishes, a key reads as a value exactly if there is such an entry. -/
theorem Sound.mem_pairs_iff (ht : t.Sound ctx.hash K) (hkey : Alone ctx.hash K key)
    (hlasting : ctx.Everlasting) {v : Value} : (key, v) ∈ t.pairs ↔ t.get ctx key = v ∧ v.isNil = false := by
  rw [← entries_of_everlasting hlasting]
  exact ht.mem_entries_iff hkey

/-- While nothing vanishes, what is read does not depend on what is under way. -/
theorem Sound.get_eq_get {other : Context} (ht : t.Sound ctx.hash K) (hkey : Alone ctx.hash K key)
    (hlasting : ctx.Everlasting) (hhash : other.hash = ctx.hash) (hother : other.Everlasting) :
    t.get other key = t.get ctx key := by
  have hsound : t.Sound other.hash K := hhash ▸ ht
  have hentry (v : Value) : (t.get other key = v ∧ v.isNil = false) ↔ (t.get ctx key = v ∧ v.isNil = false) := by
    rw [← ht.mem_pairs_iff hkey hlasting, ← hsound.mem_pairs_iff (hhash ▸ hkey) hother]
  cases hnil : (t.get ctx key).isNil with
  | false => exact ((hentry _).mpr ⟨rfl, hnil⟩).1
  | true =>
    cases hnew : (t.get other key).isNil with
    | false => exact ((hentry _).mp ⟨rfl, hnew⟩).1.symm
    | true => rw [Value.isNil_iff.mp hnil, Value.isNil_iff.mp hnew]

/-- Tables with the same entries for a key read the same there. -/
theorem Sound.get_congr_pairs {u : Table} (ht : t.Sound ctx.hash K) (hu : u.Sound ctx.hash K)
    (hkey : Alone ctx.hash K key) (hlasting : ctx.Everlasting)
    (h : ∀ v, (key, v) ∈ u.pairs ↔ (key, v) ∈ t.pairs) : u.get ctx key = t.get ctx key := by
  apply hu.get_congr ht hkey
  simpa only [entries_of_everlasting hlasting] using h

/-- While nothing vanishes, storing changes what is read under its key and nothing else. -/
theorem WellFormed.get_setNormal (ht : t.WellFormed ctx.hash K) (hstored : IsStored key) (hkey : key ∈ K)
    (hlasting : ctx.Everlasting) (value : Value) {other : Value} (halone : Alone ctx.hash K other) :
    (t.setNormal ctx key value).get ctx other = if other = key then value else t.get ctx other := by
  have hnext := (ht.setNormal hstored hkey value).toSound
  have hpairs (v : Value) :=
    ht.mem_pairs_setNormal_of_everlasting hstored hkey hlasting value (e := (other, v)) halone
  split
  · rename_i heq
    subst heq
    cases hnil : value.isNil with
    | false => exact ((hnext.mem_pairs_iff halone hlasting).mp ((hpairs value).mpr (Or.inr ⟨hnil, rfl⟩))).1
    | true =>
      by_contra hne
      have hlive : ((t.setNormal ctx other value).get ctx other).isNil = false := by
        rw [Value.isNil_iff] at hnil
        rw [← Bool.not_eq_true, Value.isNil_iff]
        exact fun h => hne (h.trans hnil.symm)
      rcases (hpairs _).mp ((hnext.mem_pairs_iff halone hlasting).mpr ⟨rfl, hlive⟩) with ⟨-, hself⟩ | ⟨hfalse, -⟩
      · exact hself rfl
      · rw [hnil] at hfalse
        cases hfalse
  · rename_i hne
    apply ht.toSound.get_congr_pairs hnext halone hlasting
    intro v
    rw [hpairs]
    simp [hne]

end Reading

section Apply

variable {ctx : Context} {K : Set Value} {t : Table}

/-- Rebuilding reads back the same while nothing vanishes, also under another mode. -/
theorem Sound.get_rehash (ht : t.Sound ctx.hash K) (hK : Separated ctx.hash K) (hlasting : ctx.Everlasting)
    (extra : Option Value) {key : Value} (hkey : key ∈ K) : (t.rehash ctx extra).get ctx key = t.get ctx key := by
  apply ht.get_congr_pairs (ht.rehash extra).toSound (hK.alone hkey) hlasting
  intro v
  rw [ht.mem_pairs_rehash hK, HashPart.mem_drain_of_everlasting hlasting, mem_pairs]

/-- Whether a table is sound does not depend on its mode. -/
theorem Sound.withMode {hash : Value → UInt64} (ht : t.Sound hash K) (mode : WeakMode) :
    Sound hash K { t with mode } :=
  ⟨ht.part, fun k hk => (arrayIndex?_congr rfl k).trans (ht.outside k hk), ht.live, ht.places⟩

/-- An operation keeps a table well formed, whatever vanishes meanwhile. -/
theorem WellFormed.apply (ht : t.WellFormed ctx.hash K) (op : Op)
    (hknown : ∀ w, op.write? ctx t = some w → w.1 ∈ K) : (op.apply ctx t).WellFormed ctx.hash K := by
  cases op.does ctx t with
  | nothing _ happly | removesNothing _ _ happly _ => rwa [happly]
  | @stores key value taken hwrite happly _ =>
    have htaken : t.WellFormed (ctx.take taken).hash K := by simpa using ht
    rw [happly]
    simpa using htaken.setNormal (Op.isStored_of_write? hwrite) (hknown _ hwrite) value
  | rebuilds _ happly _ =>
    rw [happly]
    exact (ht.toSound.withMode _).rehash none

/-- While nothing vanishes, an operation changes what is read under the key it stores and nothing else. -/
theorem WellFormed.get_apply (ht : t.WellFormed ctx.hash K) (hK : Distinguished K) (hlasting : ctx.Everlasting)
    (op : Op) (hknown : ∀ w, op.write? ctx t = some w → w.1 ∈ K) {other : Value} (hother : other ∈ K) :
    (op.apply ctx t).get ctx other =
      (((op.write? ctx t).toList.find? fun w => w.1 = other).map (·.2)).getD (t.get ctx other) := by
  have halone : Alone ctx.hash K other := (hK.separated _).alone hother
  cases op.does ctx t with
  | nothing hwrite happly => simp [hwrite, happly]
  | @removesNothing key hwrite hnil happly =>
    rw [hwrite, happly]
    by_cases heq : key = other
    · subst heq
      simp [Value.isNil_iff.mp hnil]
    · simp [heq]
  | @stores key value taken hwrite happly =>
    have hstored : IsStored key := Op.isStored_of_write? hwrite
    have hkey : key ∈ K := hknown _ hwrite
    have hhash : (ctx.take taken).hash = ctx.hash := Context.take_hash ctx taken
    have hafter := hlasting.take taken
    have ht' : t.WellFormed (ctx.take taken).hash K := hhash ▸ ht
    rw [happly, hwrite,
      (ht'.setNormal hstored hkey value).toSound.get_eq_get (hhash ▸ halone) hafter hhash.symm hlasting,
      ht'.get_setNormal hstored hkey hafter value (hhash ▸ halone), ht.toSound.get_eq_get halone hlasting hhash hafter]
    by_cases heq : other = key
    · simp [heq]
    · simp [heq, Ne.symm heq]
  | rebuilds hwrite happly =>
    rw [happly, hwrite]
    exact (ht.toSound.withMode _).get_rehash (hK.separated _) hlasting none hother

end Apply

section Metatable

variable (ctx : Context) (t : Table) (key : Value)

@[simp] theorem metatable_insertNew (value : Value) : (t.insertNew ctx key value).metatable = t.metatable := by
  have hgrown : (grown ctx t key).metatable = t.metatable := by
    unfold grown
    split <;> rfl
  rw [insertNew_eq]
  split <;> exact hgrown

@[simp] theorem metatable_setNormal (value : Value) : (t.setNormal ctx key value).metatable = t.metatable := by
  cases hplace : t.arrayIndex? key with
  | some i => rw [setNormal_of_place hplace]
  | none =>
    rw [setNormal_of_no_place ctx value hplace]
    dsimp only
    split
    · rfl
    · rw [metatable_insertNew]

@[simp] theorem metatable_setMode (mode : WeakMode) : (t.setMode ctx mode).metatable = t.metatable := by
  rw [setMode]
  split <;> rfl

/-- No operation touches the metatable. -/
@[simp] theorem metatable_apply (op : Op) : (op.apply ctx t).metatable = t.metatable := by
  cases op.does ctx t with
  | nothing _ happly | removesNothing _ _ happly _ => rw [happly]
  | stores _ happly _ => rw [happly, metatable_setNormal]
  | rebuilds _ happly _ =>
    rw [happly]
    rfl

end Metatable

end LuaMachine.Table
