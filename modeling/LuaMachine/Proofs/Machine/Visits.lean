import LuaMachine.Proofs.Machine.Exchanging

namespace LuaMachine

open Table

namespace Value

variable {source target v w : Value}

/-- What is not equal to itself is equal to nothing. -/
theorem rawEqual_self_of_rawEqual (h : v.rawEqual w = true) : v.rawEqual v = true := by
  cases v with
  | float x =>
    cases hnan : x.value.isNaN with
    | false => exact Number.beq_self_of_not_isNaN hnan
    | true =>
      cases w with
      | float y => exact absurd h (Bool.eq_false_iff.mp (Number.beq_eq_false_of_isNaN hnan y.value))
      | int i => exact absurd h (Bool.eq_false_iff.mp (Number.beq_eq_false_of_isNaN_right hnan _))
      | nil | bool | str | table | closure | native | userdata | thread => cases h
  | nil => rfl
  | bool | int | str | table | closure | native | userdata | thread => simp [rawEqual]

/-- What is not equal to itself is the double that is not a number. -/
theorem rawEqual_self_eq_false_iff : v.rawEqual v = false ↔ ∃ x, v = float x ∧ x.value.isNaN = true := by
  constructor
  · intro h
    cases v with
    | float x =>
      refine ⟨x, rfl, ?_⟩
      by_contra hnan
      rw [Bool.not_eq_true] at hnan
      exact absurd (Number.beq_self_of_not_isNaN hnan) (Bool.eq_false_iff.mp h)
    | nil => cases h
    | bool | int | str | table | closure | native | userdata | thread => simp [rawEqual] at h
  · rintro ⟨x, rfl, hnan⟩
    exact Number.beq_eq_false_of_isNaN hnan x.value

/-- An object is equal to nothing but itself. -/
theorem rawEqual_iff_of_isObject_left (h : v.isObject = true) : v.rawEqual w = true ↔ v = w := by
  cases v <;> cases w <;> simp_all [rawEqual, isObject, ref?]

/-- Nothing that is taken for `source` is taken for `target`. -/
def Apart (source target : Value) : Prop := ∀ v : Value, v.rawEqual source = true → target.rawEqual v = false

/-- Objects are apart from all that they differ from. Numbers need not be: two integers that differ may be equal to the
same double. -/
theorem apart_iff_of_isObject (hsource : source.isObject = true) :
    Apart source target ↔ source.rawEqual target = false := by
  constructor
  · intro hapart
    refine Bool.eq_false_iff.mpr fun heq => ?_
    obtain rfl := (rawEqual_iff_of_isObject_left hsource).mp heq
    exact absurd heq (Bool.eq_false_iff.mp (hapart source heq))
  · intro hne v hv
    obtain rfl := (rawEqual_iff_of_isObject hsource).mp hv
    refine Bool.eq_false_iff.mpr fun heq => ?_
    obtain rfl := (rawEqual_iff_of_isObject hsource).mp heq
    exact absurd hv (Bool.eq_false_iff.mp hne)

/-- Whether a key or a value is counted as replaced: what stands in its place differs from it. -/
def isCounted (source target v : Value) : Bool := !(if v.rawEqual source then target else v).rawEqual v

theorem isCounted_eq (hapart : Apart source target) (v : Value) :
    isCounted source target v = (v.rawEqual source || !v.rawEqual v) := by
  cases hv : v.rawEqual source with
  | true => simp [isCounted, hv, hapart v hv]
  | false => simp [isCounted, hv]

/-- Two kinds of values are counted, and none is of both. -/
theorem countP_isCounted (hapart : Apart source target) (vs : Values) :
    vs.countP (isCounted source target) = vs.countP (·.rawEqual source) + vs.countP fun v => !v.rawEqual v := by
  induction vs with
  | nil => rfl
  | cons v vs ih =>
    simp only [List.countP_cons, ih, isCounted_eq hapart]
    cases hv : v.rawEqual source with
    | true =>
      simp [rawEqual_self_of_rawEqual hv]
      omega
    | false =>
      cases v.rawEqual v <;> simp
      omega

end Value

open Value

namespace Machine

variable {m m' m'' : Machine} {id : TableId} {source target key value : Value}

section Refilling

/-- One machine follows from another one by a change of the entries of one table. -/
structure Refills (m m' : Machine) (id : TableId) : Prop extends m.ChangesOnly m' id where
  metatable : (m'.table id).metatable = (m.table id).metatable
  mode : (m'.table id).mode = (m.table id).mode

theorem Refills.refl (m : Machine) (id : TableId) : m.Refills m id := ⟨.refl m id, rfl, rfl⟩

theorem Refills.trans (h : m.Refills m' id) (h' : m'.Refills m'' id) : m.Refills m'' id :=
  ⟨h.toChangesOnly.trans h'.toChangesOnly, h'.metatable.trans h.metatable, h'.mode.trans h.mode⟩

theorem mode_modifyTable (f : Table → Table) (hf : ∀ t, (f t).mode = t.mode) :
    ((m.modifyTable id f).table id).mode = (m.table id).mode := by
  by_cases hin : id.index < m.tables.size
  · rw [table_modifyTable hin, hf]
  · rw [modifyTable_of_le (Nat.not_lt.mp hin)]

theorem refills_modifyTable (m : Machine) (id : TableId) (f : Table → Table)
    (hmeta : ∀ t, (f t).metatable = t.metatable) (hmode : ∀ t, (f t).mode = t.mode) :
    m.Refills (m.modifyTable id f) id :=
  ⟨changesOnly_modifyTable m id f, metatable_modifyTable f hmeta, mode_modifyTable f hmode⟩

@[simp] theorem mode_remove (ctx : Context) (t : Table) (key : Value) : (t.remove ctx key).1.mode = t.mode := by
  cases hnil : (t.get ctx key).isNil with
  | true => rw [remove_of_isNil hnil]
  | false =>
    cases hkey : normalizeKey key with
    | error e =>
      rw [get_of_normalizeKey_error ctx t hkey] at hnil
      cases hnil
    | ok stored => rw [remove_of_normalizeKey hnil hkey, mode_setNormal]

theorem refills_remove (m : Machine) (id : TableId) (key : Value) (inUse : Values) :
    m.Refills (m.operateOn id (.remove key) inUse) id :=
  refills_modifyTable m id _ (fun t => metatable_apply _ t (.remove key)) (fun t => mode_remove _ t key)

theorem refills_storeKey (m : Machine) (id : TableId) (key value : Value) (inUse : Values) :
    m.Refills (m.storeKey id key value inUse) id :=
  refills_modifyTable m id _ (fun t => by simp) (fun t => by simp)

variable (m id source target)

theorem refills_substituteEntry (key value : Value) (inUse : Values) :
    m.Refills (m.substituteEntry id source target key value inUse).1 id := by
  unfold substituteEntry
  dsimp only
  generalize (if key.rawEqual source then target else key) = newKey
  generalize (if value.rawEqual source then target else value) = newValue
  have hdropped : m.Refills (if (!newKey.rawEqual key) = true then
      m.operateOn id (.remove key) (inHand source target key value inUse) else m) id := by
    split
    · exact refills_remove ..
    · exact .refl m id
  simp only [operateOn, Op.apply, inHand] at hdropped
  generalize (if (!newKey.rawEqual key) = true then _ else m) = dropped at hdropped ⊢
  refine hdropped.trans ?_
  split
  · split
    · exact refills_storeKey ..
    · exact .refl _ id
  · exact .refl _ id

theorem refills_substituteEntries (held : Values) (pending : List TableId) (entries : List (Value × Value)) :
    m.Refills (substituteEntries id source target held m 0 pending entries).1 id := by
  induction entries generalizing m pending with
  | nil => exact .refl m id
  | cons e rest ih =>
    rw [substituteEntries_cons]
    exact (refills_substituteEntry m id source target e.1 e.2 _).trans (ih _ _)

/-- A metatable is all that changes besides the entries, and only where it is taken for `source`. -/
theorem refills_substituteMetatable (pending : List TableId)
    (hkept : ∀ old ∈ (m.table id).metatable, (Value.table old).rawEqual source = false) :
    m.Refills (m.substituteMetatable id source target pending).1 id := by
  unfold substituteMetatable
  cases hmeta : (m.table id).metatable with
  | none => exact .refl m id
  | some old =>
    rw [hmeta] at hkept
    dsimp only
    rw [hkept old rfl]
    exact .refl m id

end Refilling

section Counting

variable (m id source target)

theorem count_substituteEntry (key value : Value) (inUse : Values) :
    (m.substituteEntry id source target key value inUse).2.1 = [key, value].countP (isCounted source target) := by
  have hone (b : Bool) : b.toNat = if b = true then 1 else 0 := by cases b <;> rfl
  simp only [substituteEntry, List.countP_cons, List.countP_nil, isCounted, hone, Nat.zero_add]
  exact Nat.add_comm ..

theorem count_substituteEntries (held : Values) (pending : List TableId) (entries : List (Value × Value)) :
    (substituteEntries id source target held m 0 pending entries).2.1 =
      (entries.flatMap fun (k, v) => [k, v]).countP (isCounted source target) := by
  induction entries generalizing m pending with
  | nil => rfl
  | cons e rest ih =>
    rw [substituteEntries_cons, List.flatMap_cons, List.countP_append, ← ih, ← count_substituteEntry m id]

/-- A metatable is counted whenever it is taken for `source`. -/
theorem count_substituteMetatable (pending : List TableId) :
    (m.substituteMetatable id source target pending).2.1 =
      ((m.table id).metatable.toList.map Value.table).countP (·.rawEqual source) := by
  unfold substituteMetatable
  cases hmeta : (m.table id).metatable with
  | none => rfl
  | some old =>
    dsimp only
    split <;> simp_all

end Counting

/-- A table that has its turn: the machine before it and the tables that wait behind. -/
structure Visit where
  machine : Machine
  id : TableId
  pending : List TableId

namespace Visit

variable (v : Visit) (source target : Value)

/-- The entries that are worked on. -/
def entries : List (Value × Value) :=
  v.machine.entries v.id (v.machine.listing v.id source target v.pending)

/-- The keys and values of the entries and the metatable. -/
def contents : Values :=
  ((v.entries source target).flatMap fun (k, w) => [k, w]) ++ (v.machine.table v.id).metatable.toList.map .table

/-- The machine after the turn. -/
def after : Machine := (v.machine.turn v.id source target v.pending).1

/-- The looks at the table. -/
def looks : List Look := v.machine.turnLooks v.id source target v.pending

/-- What a turn counts. -/
def count : Nat := (v.machine.turn v.id source target v.pending).2.1

/-- How often `source` occurs. -/
def occurrences : Nat := (v.contents source target).countP (·.rawEqual source)

/-- How many values are not equal to themselves. -/
def oddities : Nat := (v.contents source target).countP fun w => !w.rawEqual w

/-- A turn counts the occurrences and what is not equal to itself. -/
theorem count_eq (hapart : Apart source target) :
    v.count source target = v.occurrences source target + v.oddities source target := by
  have hmeta := (refills_substituteEntries v.machine v.id source target (v.machine.heldBy v.id source target) v.pending
    (v.entries source target)).metatable
  have hself : ((v.machine.table v.id).metatable.toList.map Value.table).countP (fun w => !w.rawEqual w) = 0 :=
    List.countP_eq_zero.mpr (by simp [rawEqual])
  rw [count, turn, ← entries]
  dsimp only
  rw [count_substituteMetatable, count_substituteEntries, hmeta, countP_isCounted hapart, occurrences, oddities,
    contents, List.countP_append, List.countP_append, hself]
  omega

end Visit

section Visits

variable (source target : Value)

/-- A table that waits has its turn unless it was seen. -/
theorem substituteFrom_cons (fuel : Nat) (m : Machine) (id : TableId) (pending seen : List TableId) (count : Nat) :
    substituteFrom source target (fuel + 1) m (id :: pending) seen count =
      if id ∈ seen then substituteFrom source target fuel m pending seen count
      else
        let r := m.turn id source target pending
        substituteFrom source target fuel r.1 r.2.2 (id :: seen) (count + r.2.1) := by
  rw [substituteFrom]
  simp only [List.contains_iff_mem]
  refine if_congr Iff.rfl rfl ?_
  rw [substituteEntries_count]
  simp only [Nat.add_assoc]
  rfl

/-- The turns while tables are worked through. -/
def visitsFrom : Nat → Machine → List TableId → List TableId → List Visit
  | 0, _, _, _ => []
  | _, _, [], _ => []
  | fuel + 1, m, id :: pending, seen =>
    if id ∈ seen then visitsFrom fuel m pending seen
    else
      let r := m.turn id source target pending
      ⟨m, id, pending⟩ :: visitsFrom fuel r.1 r.2.2 (id :: seen)

/-- The turns during a substitution. -/
def visits (m : Machine) (root : TableId) : List Visit := visitsFrom source target m.substitutionBound m [root] []

variable (m id)

theorem changesOnly_substituteMetatable (pending : List TableId) :
    m.ChangesOnly (m.substituteMetatable id source target pending).1 id := by
  unfold substituteMetatable
  split
  · exact .refl m id
  · split
    · exact changesOnly_installMetatable ..
    · exact .refl m id

theorem changesOnly_turn (pending : List TableId) : m.ChangesOnly (m.turn id source target pending).1 id := by
  have hentries := refills_substituteEntries m id source target (m.heldBy id source target) pending
    (m.entries id (m.listing id source target pending))
  exact hentries.toChangesOnly.trans (changesOnly_substituteMetatable _ id source target _)

variable {source target m id}

theorem visitsFrom_cons (fuel : Nat) (pending seen : List TableId) :
    visitsFrom source target (fuel + 1) m (id :: pending) seen =
      if id ∈ seen then visitsFrom source target fuel m pending seen
      else
        let r := m.turn id source target pending
        ⟨m, id, pending⟩ :: visitsFrom source target fuel r.1 r.2.2 (id :: seen) :=
  rfl

/-- What is counted is the sum over the turns. -/
theorem count_substituteFrom (fuel : Nat) (m : Machine) (pending seen : List TableId) (count : Nat) :
    (substituteFrom source target fuel m pending seen count).2 =
      count + ((visitsFrom source target fuel m pending seen).map (·.count source target)).sum := by
  induction fuel generalizing m pending seen count with
  | zero => rfl
  | succ fuel ih =>
    cases pending with
    | nil => rfl
    | cons id pending =>
      rw [substituteFrom_cons, visitsFrom_cons]
      split
      · exact ih m pending seen count
      · rw [List.map_cons, List.sum_cons, ih, Visit.count, Nat.add_assoc]

/-- The table of a turn was not seen before. It comes to its turn as it was. -/
theorem of_mem_visitsFrom {fuel : Nat} {pending seen : List TableId} {v : Visit}
    (hv : v ∈ visitsFrom source target fuel m pending seen) :
    v.id ∉ seen ∧ v.machine.table v.id = m.table v.id := by
  induction fuel generalizing m pending seen with
  | zero => cases hv
  | succ fuel ih =>
    cases pending with
    | nil => cases hv
    | cons id pending =>
      rw [visitsFrom_cons] at hv
      split at hv
      · exact ih hv
      · rename_i hnew
        obtain rfl | hv := List.mem_cons.mp hv
        · exact ⟨hnew, rfl⟩
        · obtain ⟨hseen, hsame⟩ := ih hv
          rw [List.mem_cons, not_or] at hseen
          exact ⟨hseen.2, hsame.trans ((changesOnly_turn m id source target pending).others _ hseen.1)⟩

theorem nodup_visitsFrom (fuel : Nat) (m : Machine) (pending seen : List TableId) :
    ((visitsFrom source target fuel m pending seen).map (·.id)).Nodup := by
  induction fuel generalizing m pending seen with
  | zero => exact List.nodup_nil
  | succ fuel ih =>
    cases pending with
    | nil => exact List.nodup_nil
    | cons id pending =>
      rw [visitsFrom_cons]
      split
      · exact ih m pending seen
      · refine List.nodup_cons.mpr ⟨fun hmem => ?_, ih _ _ _⟩
        obtain ⟨v, hv, heq⟩ := List.mem_map.mp hmem
        exact (of_mem_visitsFrom hv).1 (heq ▸ List.mem_cons_self)

/-- A table without a turn is not touched. -/
theorem table_substituteFrom_of_not_mem {fuel : Nat} {pending seen : List TableId} (count : Nat)
    (hnot : id ∉ (visitsFrom source target fuel m pending seen).map (·.id)) :
    (substituteFrom source target fuel m pending seen count).1.table id = m.table id := by
  induction fuel generalizing m pending seen count with
  | zero => rfl
  | succ fuel ih =>
    cases pending with
    | nil => rfl
    | cons next pending =>
      rw [visitsFrom_cons] at hnot
      rw [substituteFrom_cons]
      split
      · rename_i hseen
        rw [if_pos hseen] at hnot
        exact ih count hnot
      · rename_i hnew
        rw [if_neg hnew, List.map_cons, List.mem_cons, not_or] at hnot
        exact (ih _ hnot.2).trans ((changesOnly_turn m next source target pending).others id hnot.1)

/-- A table stays as its turn leaves it. -/
theorem table_substituteFrom_of_mem {fuel : Nat} {pending seen : List TableId} (count : Nat) {v : Visit}
    (hv : v ∈ visitsFrom source target fuel m pending seen) :
    (substituteFrom source target fuel m pending seen count).1.table v.id = (v.after source target).table v.id := by
  induction fuel generalizing m pending seen count with
  | zero => cases hv
  | succ fuel ih =>
    cases pending with
    | nil => cases hv
    | cons id pending =>
      rw [visitsFrom_cons] at hv
      rw [substituteFrom_cons]
      split
      · rename_i hseen
        rw [if_pos hseen] at hv
        exact ih count hv
      · rename_i hnew
        rw [if_neg hnew] at hv
        obtain rfl | hv := List.mem_cons.mp hv
        · refine table_substituteFrom_of_not_mem _ fun hmem => ?_
          obtain ⟨w, hw, heq⟩ := List.mem_map.mp hmem
          exact (of_mem_visitsFrom hw).1 (heq ▸ List.mem_cons_self)
        · exact ih _ hv

end Visits

section Result

variable {root : TableId}

/-- **What a substitution counts.** It is the sum, over the tables that have a turn, of the occurrences of the value to
replace among their keys, values and metatables, and of the values that are not equal to themselves: the latter are
counted although nothing was replaced. No table has two turns, and each comes to its turn as it was. -/
theorem count_substitute (hapart : Apart source target) (m : Machine) (root : TableId) :
    let turns := visits source target m root
    (m.substitute root source target).2 =
        (turns.map (·.occurrences source target)).sum + (turns.map (·.oddities source target)).sum ∧
      (turns.map (·.id)).Nodup ∧ ∀ v ∈ turns, v.machine.table v.id = m.table v.id := by
  intro turns
  refine ⟨?_, nodup_visitsFrom .., fun v hv => (of_mem_visitsFrom hv).2⟩
  rw [← List.sum_map_add, substitute, count_substituteFrom, Nat.zero_add]
  exact congrArg List.sum (List.map_congr_left fun v _ => v.count_eq source target hapart)

/-- The count is exact if and only if no table that has a turn holds a value that is not a number. -/
theorem count_substitute_eq_occurrences_iff (hapart : Apart source target) :
    (m.substitute root source target).2 = ((visits source target m root).map (·.occurrences source target)).sum ↔
      ∀ v ∈ visits source target m root, ∀ w ∈ v.contents source target, ∀ x, w = .float x → x.value.isNaN = false := by
  obtain ⟨hcount, -, -⟩ := count_substitute hapart m root
  rw [hcount, Nat.add_eq_left, List.sum_eq_zero_iff, List.forall_mem_map]
  refine forall₂_congr fun v _ => ?_
  rw [Visit.oddities, List.countP_eq_zero]
  refine forall₂_congr fun w _ => ?_
  rw [Bool.not_eq_true', rawEqual_self_eq_false_iff]
  simp only [not_exists, not_and, Bool.not_eq_true]

/-- The last table holds what is not a number, and that is counted. -/
example : (({ tables := #[Table.new 0 0, Table.new 0 0, (Table.new 0 1).changed
      [(.strong Value.hashCode, .operate (.setStr "x" (.float (.ofFloat (0.0 / 0.0)))))]] } : Machine).substitute
    ⟨2⟩ (.table ⟨0⟩) (.table ⟨1⟩)).2 = 1 := by decide +kernel

end Result

end Machine

end LuaMachine
