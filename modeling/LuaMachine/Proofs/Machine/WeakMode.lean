import LuaMachine.Proofs.Machine.Visits

namespace LuaMachine

open Table Value

namespace Table

/-- The same texts stand under the same texts. -/
def SameTexts (t u : Table) : Prop :=
  ∀ k s : String, (Value.str k, Value.str s) ∈ u.pairs ↔ (Value.str k, Value.str s) ∈ t.pairs

variable {ctx ctx' : Context} {K : Set Value} {t u w : Table}

theorem SameTexts.refl (t : Table) : t.SameTexts t := fun _ _ => Iff.rfl

theorem SameTexts.trans (h : t.SameTexts u) (h' : u.SameTexts w) : t.SameTexts w := fun k s => (h' k s).trans (h k s)

/-- Texts never vanish. -/
theorem keeps_text (ctx : Context) (k s : String) : ctx.Keeps (.str k, .str s) := ⟨rfl, rfl⟩

/-- An operation leaves the texts alone if it stores no text and replaces none. -/
theorem WellFormed.sameTexts_apply (ht : t.WellFormed ctx.hash {key | IsStored key}) (op : Op)
    (hforeign : ∀ k v, op.write? ctx t = some (.str k, v) →
      (∀ s, v ≠ .str s) ∧ ∀ s, (Value.str k, Value.str s) ∉ t.pairs) : t.SameTexts (op.apply ctx t) := by
  intro k s
  have halone : Alone ctx.hash {key | IsStored key} (.str k) := alone_of_not_number rfl rfl rfl
  rw [ht.mem_pairs_apply op (fun w hw => op.isStored_of_write? hw) halone fun _ c _ => keeps_text c k s]
  constructor
  · rintro (⟨hold, -⟩ | ⟨hwrite, -⟩)
    · exact hold
    · exact absurd rfl ((hforeign k _ hwrite).1 s)
  · refine fun hold => .inl ⟨hold, ?_⟩
    rintro ⟨key, v⟩ hwrite rfl
    exact (hforeign k v hwrite).2 s hold

/-- A text is read exactly where it stands. -/
theorem Sound.getStr_eq_str_iff (ht : t.Sound ctx.hash K) {k : String} (hkey : Value.str k ∈ K) {s : String} :
    t.getStr ctx k = .str s ↔ (Value.str k, Value.str s) ∈ t.pairs := by
  have hread : (Value.str k, Value.str s) ∈ t.entries ctx ↔ t.getStr ctx k = .str s :=
    (ht.mem_entries_iff (alone_of_not_number hkey rfl rfl)).trans (and_iff_left rfl)
  rw [← hread]
  exact ⟨mem_pairs_of_mem_entries, fun hmem => mem_entries_of_keeps hmem (keeps_text ctx k s)⟩

theorem requestedMode_of_ne_str (h : ∀ s, t.getStr ctx "__mode" ≠ .str s) : t.requestedMode ctx = .strong := by
  unfold requestedMode
  split
  · rename_i s hs
    exact absurd hs (h s)
  · rfl

/-- Tables with the same texts ask for the same mode, whatever has vanished. -/
theorem SameTexts.requestedMode_eq (h : t.SameTexts u) (ht : t.Sound ctx.hash K) (hu : u.Sound ctx'.hash K)
    (hkey : Value.str "__mode" ∈ K) :
    u.requestedMode ctx' = t.requestedMode ctx := by
  have hread (s : String) : u.getStr ctx' "__mode" = .str s ↔ t.getStr ctx "__mode" = .str s := by
    rw [hu.getStr_eq_str_iff hkey, ht.getStr_eq_str_iff hkey]
    exact h _ s
  by_cases htext : ∃ s, t.getStr ctx "__mode" = .str s
  · obtain ⟨s, hs⟩ := htext
    rw [requestedMode, requestedMode, hs, (hread s).mpr hs]
  · rw [not_exists] at htext
    rw [requestedMode_of_ne_str htext, requestedMode_of_ne_str fun s hs => htext s ((hread s).mp hs)]

end Table

namespace Machine

variable {m m' : Machine} {K : TableId → Set Value} {id : TableId} {source target key value : Value}

section Texts

/-- A table keeps its texts if it is changed by what keeps them. -/
theorem sameTexts_modifyTable (f : Table → Table)
    (hf : (m.table id).SameTexts (f (m.table id))) : (m.table id).SameTexts ((m.modifyTable id f).table id) := by
  by_cases hin : id.index < m.tables.size
  · rwa [table_modifyTable hin]
  · rw [modifyTable_of_le (Nat.not_lt.mp hin)]
    exact .refl _

/-- An operation leaves the texts of its table alone if it stores no text and replaces none. -/
theorem Tidy.sameTexts_operateOn (hm : m.Tidy K) (op : Op) (inUse : Values)
    (hforeign : ∀ k v, m.write? id op inUse = some (.str k, v) →
      (∀ s, v ≠ .str s) ∧ ∀ s, (Value.str k, Value.str s) ∉ (m.table id).pairs) :
    (m.table id).SameTexts ((m.operateOn id op inUse).table id) := by
  refine sameTexts_modifyTable _ ?_
  have ht := hm.mono.wellFormed id
  rw [← context_hash m id inUse] at ht
  exact ht.sameTexts_apply op hforeign

theorem Tidy.sameTexts_storeKey (hm : m.Tidy K) (hkey : IsStored key)
    (hforeign : ∀ k, key = .str k → (∀ s, value ≠ .str s) ∧ ∀ s, (Value.str k, Value.str s) ∉ (m.table id).pairs)
    (inUse : Values) : (m.table id).SameTexts ((m.storeKey id key value inUse).table id) := by
  rw [storeKey_eq_operateOn hkey]
  refine hm.sameTexts_operateOn _ _ fun k v hwrite => ?_
  rw [write?_set hkey] at hwrite
  cases hwrite
  exact hforeign k rfl

theorem Tidy.sameTexts_remove (hm : m.Tidy K) (hkey : IsStored key) (hforeign : ∀ k, key ≠ .str k) (inUse : Values) :
    (m.table id).SameTexts ((m.operateOn id (.remove key) inUse).table id) := by
  refine hm.sameTexts_operateOn _ _ fun k v hwrite => ?_
  rw [write?_remove hkey] at hwrite
  cases hwrite
  exact absurd rfl (hforeign k)

theorem Tidy.sameTexts_installMetatable (hm : m.Tidy K) (metatable : Option TableId) (mode : WeakMode)
    (inUse : Values) : (m.table id).SameTexts ((m.installMetatable id metatable mode inUse).table id) := by
  have hkept : (m.table id).SameTexts ((m.modifyTable id fun t => { t with metatable }).table id) :=
    sameTexts_modifyTable _ (.refl _)
  rw [installMetatable_eq_operateOn]
  exact hkept.trans ((hm.withMetatable id metatable).sameTexts_operateOn _ _ (by simp))

/-- An object is no text. -/
theorem ne_str_of_isObject {v : Value} (h : v.isObject = true) (s : String) : v ≠ .str s := by
  rintro rfl
  cases h

variable (h : Exchangeable source target)
include h

/-- An object in the place of another one in an entry leaves the texts alone, if the entry is the one under its key. -/
theorem sameTexts_substituteEntry (hm : m.Tidy K) (hkey : IsStored key) (hknown : key ∈ K id)
    (hown : ∀ k, key = .str k → (∀ s, value ≠ .str s) → ∀ s, (Value.str k, Value.str s) ∉ (m.table id).pairs)
    (inUse : Values) :
    (m.table id).SameTexts ((m.substituteEntry id source target key value inUse).1.table id) := by
  rw [substituteEntry_eq m id key value inUse h hkey]
  dsimp only
  split
  · rename_i hsource
    have hold (k : String) : key ≠ .str k := hsource ▸ ne_str_of_isObject h.isObject_source k
    have hnew (k : String) : exchange source target key ≠ .str k := by
      rw [hsource, exchange_self]
      exact ne_str_of_isObject h.isObject_target k
    exact (hm.sameTexts_remove hkey hold _).trans ((hm.remove hkey hknown _).sameTexts_storeKey
      (h.isStored_exchange hkey) (fun k hk => absurd hk (hnew k)) _)
  · rename_i hsource
    split
    · exact .refl _
    · rename_i hchanged
      have hvalue (s : String) : value ≠ .str s := by
        rintro rfl
        rw [exchange_of_ne fun heq => ne_str_of_isObject h.isObject_source s heq.symm] at hchanged
        exact hchanged (IsStored.rawEqual_self rfl)
      have hnew (s : String) : exchange source target value ≠ .str s :=
        exchange_ne (hvalue s) fun heq => ne_str_of_isObject h.isObject_target s heq.symm
      refine hm.sameTexts_storeKey (h.isStored_exchange hkey) (fun k hk => ⟨hnew, hown k ?_ hvalue⟩) _
      rwa [exchange_of_ne hsource] at hk

theorem sameTexts_substituteEntries (hm : m.Tidy K) (htarget : target ∈ K id) (held : Values)
    (pending : List TableId) {entries : List (Value × Value)} (hkeys : ∀ e ∈ entries, e.1 ∈ K id)
    (hown : ∀ e ∈ entries, ∀ k, e.1 = .str k → (∀ s, e.2 ≠ .str s) →
      ∀ s, (Value.str k, Value.str s) ∉ (m.table id).pairs) :
    (m.table id).SameTexts ((substituteEntries id source target held m 0 pending entries).1.table id) := by
  induction entries generalizing m pending with
  | nil => exact .refl _
  | cons e rest ih =>
    rw [List.forall_mem_cons] at hkeys hown
    rw [substituteEntries_cons]
    dsimp only
    generalize m.besides id held pending rest = inUse
    have hkey := hm.stored id e.1 hkeys.1
    have hfirst := sameTexts_substituteEntry h hm hkey hkeys.1 hown.1 inUse
    have hm' := hm.substituteEntry id e.1 e.2 inUse h hkey hkeys.1 (exchange_mem htarget hkeys.1)
    refine hfirst.trans (ih hm' _ hkeys.2 ?_)
    exact fun f hf k hk htext s hmem => hown.2 f hf k hk htext s ((hfirst k s).mp hmem)

/-- No table loses or gains a text in a turn. -/
theorem sameTexts_turn (hm : m.Tidy K) (htarget : target ∈ K id) (pending : List TableId) (other : TableId) :
    (m.table other).SameTexts ((m.turn id source target pending).1.table other) := by
  by_cases hother : other = id
  · subst hother
    have hkeys : ∀ e ∈ m.entries other (m.listing other source target pending), e.1 ∈ K other :=
      fun e he => (hm.of_mem_pairs (mem_pairs_of_mem_entries he)).1
    have hown : ∀ e ∈ m.entries other (m.listing other source target pending), ∀ k, e.1 = .str k →
        (∀ s, e.2 ≠ .str s) → ∀ s, (Value.str k, Value.str s) ∉ (m.table other).pairs := by
      rintro ⟨key, value⟩ he k rfl htext s hmem
      have halone : Alone m.hash (K other) (.str k) := alone_of_not_number (hkeys _ he) rfl rfl
      exact htext s (congrArg Prod.snd (hm.eq_of_mem_pairs halone hmem (mem_pairs_of_mem_entries he) rfl))
    rw [turn]
    generalize m.entries other (m.listing other source target pending) = entries at hkeys hown ⊢
    have hfirst := sameTexts_substituteEntries h hm htarget (m.heldBy other source target) pending hkeys hown
    obtain ⟨-, hm', -, -⟩ := substituteEntries_frame other (m.heldBy other source target) h htarget hm pending hkeys
    dsimp only
    generalize substituteEntries other source target (m.heldBy other source target) m 0 pending entries = r at *
    refine hfirst.trans ?_
    unfold substituteMetatable
    split
    · exact .refl _
    · split
      · exact hm'.sameTexts_installMetatable _ _ _
      · exact .refl _
  · rw [(changesOnly_turn m id source target pending).others other hother]
    exact .refl _

end Texts

section Work

variable {pending seen : List TableId}

/-- What every turn keeps holds at every turn and in the end. -/
theorem substituteFrom_keeps {P : Machine → Prop}
    (hturn : ∀ m id pending, P m → P (m.turn id source target pending).1) (hm : P m) (fuel : Nat)
    (pending seen : List TableId) (count : Nat) :
    (∀ v ∈ visitsFrom source target fuel m pending seen, P v.machine) ∧
      P (substituteFrom source target fuel m pending seen count).1 := by
  induction fuel generalizing m pending seen count with
  | zero => exact ⟨nofun, hm⟩
  | succ fuel ih =>
    cases pending with
    | nil => exact ⟨nofun, hm⟩
    | cons id pending =>
      rw [visitsFrom_cons, substituteFrom_cons]
      split
      · exact ih hm pending seen count
      · rw [List.forall_mem_cons, and_assoc]
        exact ⟨hm, ih (hturn m id pending hm) _ _ _⟩

/-- All tables are well formed and ask for what they asked for before. -/
structure AsksAlike (before m : Machine) : Prop where
  hash : m.hash = before.hash
  tidy : m.Tidy fun _ => {key | IsStored key}
  texts : ∀ id, (before.table id).SameTexts (m.table id)

theorem AsksAlike.requestedMode {before : Machine} (h : before.AsksAlike m) (hbefore : before.Tidy K) {ctx : Context}
    (hhash : ctx.hash = m.hash) (id : TableId) :
    (m.table id).requestedMode ctx = (before.table id).requestedMode (.strong before.hash) := by
  have hsound : (before.table id).Sound (Context.strong before.hash).hash {key | IsStored key} :=
    (hbefore.mono.wellFormed id).toSound
  exact (h.texts id).requestedMode_eq hsound (hhash ▸ (h.tidy.wellFormed id).toSound) rfl

theorem AsksAlike.turn {before : Machine} (h : Exchangeable source target) (hm : before.AsksAlike m) (id : TableId)
    (pending : List TableId) : before.AsksAlike (m.turn id source target pending).1 := by
  have htarget : target ∈ (fun _ => {key | IsStored key} : TableId → Set Value) id :=
    isStored_of_isObject h.isObject_target
  obtain ⟨hchanges, htidy, -⟩ := turn_frame h htarget hm.tidy pending
  exact ⟨hchanges.hash_eq.trans hm.hash, htidy,
    fun other => (hm.texts other).trans (sameTexts_turn h hm.tidy htarget pending other)⟩

end Work

section Metatable

variable {old d : TableId} (pending : List TableId)

/-- A table whose metatable is not the value to replace keeps it and its mode in its turn. -/
theorem refills_turn (hkept : ∀ old ∈ (m.table id).metatable, (Value.table old).rawEqual source = false) :
    m.Refills (m.turn id source target pending).1 id := by
  have hentries := refills_substituteEntries m id source target (m.heldBy id source target) pending
    (m.entries id (m.listing id source target pending))
  rw [turn]
  exact hentries.trans (refills_substituteMetatable _ id source target _ (by rwa [hentries.metatable]))

theorem mode_installMetatable (hin : id.index < m.tables.size) (metatable : Option TableId) (mode : WeakMode)
    (inUse : Values) : ((m.installMetatable id metatable mode inUse).table id).mode = mode := by
  have hout : id.index < (m.modifyTable id fun t => { t with metatable }).tables.size := by
    rwa [(changesOnly_modifyTable m id _).size]
  rw [installMetatable, table_modifyTable hout, mode_setMode]

theorem index_lt_of_metatable (hmeta : (m.table id).metatable = some old) : id.index < m.tables.size := by
  by_contra hout
  rw [table_of_le (Nat.not_lt.mp hout)] at hmeta
  cases hmeta

/-- A replaced metatable decides the mode in the turn of its table, unless it is this table or there is none. -/
theorem turn_of_metatable (target : Value) (hmeta : (m.table id).metatable = some old)
    (hsource : (Value.table old).rawEqual source = true) :
    let t := (m.turn id source target pending).1.table id
    t.metatable = (tablesAmong [target]).head? ∧
      ∃ ctx : Context, ctx.hash = m.hash ∧ t.mode = match t.metatable with
        | some d => if d = id then (m.table id).mode else (m.table d).requestedMode ctx
        | none => (m.table id).mode := by
  have hentries := refills_substituteEntries m id source target (m.heldBy id source target) pending
    (m.entries id (m.listing id source target pending))
  rw [turn]
  generalize m.entries id (m.listing id source target pending) = entries at hentries ⊢
  dsimp only
  generalize substituteEntries id source target (m.heldBy id source target) m 0 pending entries = r at hentries ⊢
  have hin : id.index < r.1.tables.size := hentries.size ▸ index_lt_of_metatable hmeta
  have hold : (r.1.table id).metatable = some old := hentries.metatable.trans hmeta
  simp only [substituteMetatable, hold, hsource, if_true, metatable_installMetatable hin, mode_installMetatable hin,
    true_and]
  cases hhead : (tablesAmong [target]).head? with
  | none => exact ⟨.strong m.hash, rfl, hentries.mode⟩
  | some d =>
    refine ⟨r.1.context d (.table old :: source :: target :: r.2.2.map .table),
      (context_hash ..).trans hentries.hash_eq, ?_⟩
    dsimp only
    split
    · exact hentries.mode
    · rename_i hother
      rw [hentries.others d hother]

end Metatable

section Result

variable {root : TableId}

/-- The weak mode that a metatable asks for; strong without one. -/
def askedMode (m : Machine) (metatable : Option TableId) : WeakMode :=
  match metatable with
  | some d => (m.table d).requestedMode (.strong m.hash)
  | none => .strong

/-- The table has the weak mode that its metatable asks for. -/
def HasAskedMode (m : Machine) (id : TableId) : Prop := (m.table id).mode = m.askedMode (m.table id).metatable

/-- A table keeps its metatable and its mode, unless it has a turn and its metatable is the value to replace. -/
theorem table_substitute_of_metatable (m : Machine) (root : TableId) (source target : Value) (id : TableId)
    (hkept : id ∈ (visits source target m root).map (·.id) →
      ∀ old ∈ (m.table id).metatable, (Value.table old).rawEqual source = false) :
    let after := (m.substitute root source target).1
    (after.table id).metatable = (m.table id).metatable ∧ (after.table id).mode = (m.table id).mode := by
  intro after
  by_cases hturn : id ∈ (visits source target m root).map (·.id)
  · obtain ⟨v, hv, rfl⟩ := List.mem_map.mp hturn
    have hafter : after.table v.id = (v.after source target).table v.id := table_substituteFrom_of_mem 0 hv
    have hsame : v.machine.table v.id = m.table v.id := (of_mem_visitsFrom hv).2
    have hrefills : v.machine.Refills (v.after source target) v.id := refills_turn v.pending (by
      rw [hsame]
      exact hkept hturn)
    rw [hafter, hrefills.metatable, hrefills.mode, hsame]
    exact ⟨rfl, rfl⟩
  · have hafter : after.table id = m.table id := table_substituteFrom_of_not_mem 0 hturn
    rw [hafter]
    exact ⟨rfl, rfl⟩

/-- With one object in the place of another, every table asks in the end and at every turn for the mode that it asked
for before. -/
theorem asksAlike_substitute (hm : m.Tidy K) (h : Exchangeable source target) (root : TableId) :
    (∀ v ∈ visits source target m root, m.AsksAlike v.machine) ∧ m.AsksAlike (m.substitute root source target).1 :=
  substituteFrom_keeps (fun _ id pending hkeeps => hkeeps.turn h id pending) ⟨rfl, hm.mono, fun _ => .refl _⟩ ..

/-- **What a substitution makes of the weak mode of a table whose metatable it replaces.** Another table as the new
metatable decides the mode. A table that becomes its own metatable keeps the mode that it had, and so does one that
loses its metatable. -/
theorem mode_substitute (hm : m.Tidy K) {old : TableId} (hne : target ≠ .table old)
    (hturn : id ∈ (visits (.table old) target m root).map (·.id)) (hmeta : (m.table id).metatable = some old) :
    let after := (m.substitute root (.table old) target).1
    (after.table id).metatable = (tablesAmong [target]).head? ∧
      (after.table id).mode = match (after.table id).metatable with
        | some d => if d = id then (m.table id).mode else (after.table d).requestedMode (.strong m.hash)
        | none => (m.table id).mode := by
  intro after
  obtain ⟨v, hv, rfl⟩ := List.mem_map.mp hturn
  have hafter : after.table v.id = (v.after (.table old) target).table v.id := table_substituteFrom_of_mem 0 hv
  have hsame : v.machine.table v.id = m.table v.id := (of_mem_visitsFrom hv).2
  have hequal : (Value.table old).rawEqual (.table old) = true := (rawEqual_iff_of_isObject rfl).mpr rfl
  have hturned := turn_of_metatable v.pending target (hsame ▸ hmeta) hequal
  rw [← Visit.after] at hturned
  dsimp only at hturned
  obtain ⟨hnew, ctx, hhash, hmode⟩ := hturned
  rw [hafter, hmode, hsame]
  refine ⟨hnew, ?_⟩
  cases hhead : ((v.after (.table old) target).table v.id).metatable with
  | none => rfl
  | some d =>
    have htarget : target = .table d := by
      have hmem : d ∈ tablesAmong [target] := List.mem_of_mem_head? (hnew.symm.trans hhead)
      simpa [eq_comm] using mem_tablesAmong.mp hmem
    have h : Exchangeable (.table old) target := ⟨rfl, htarget ▸ rfl, hne.symm⟩
    obtain ⟨hturns, hend⟩ := asksAlike_substitute hm h root
    dsimp only
    rw [(hturns v hv).requestedMode hm hhash, hend.requestedMode hm hend.hash.symm]

/-- The second table loses its metatable and stays weak. -/
example : let m : Machine := { tables :=
      #[(Table.new 0 1).changed [(.strong Value.hashCode, .operate (.setStr "__mode" (.str "v")))],
        (Table.new 0 0).changed [(.strong Value.hashCode, .setMetatable (some ⟨0⟩) ⟨false, true⟩)]] }
    let t := (m.substitute ⟨1⟩ (.table ⟨0⟩) .nil).1.table ⟨1⟩
    t.metatable = none ∧ t.mode = ⟨false, true⟩ := by decide +kernel

/-- **The weak mode follows the metatable when another table takes the place of a metatable.** If every table has the
mode that its metatable asks for, then so it is after one table takes the place of another one everywhere, except for
the former itself if it becomes its own metatable: it may ask for another mode than it has. -/
theorem hasAskedMode_substitute (hm : m.Tidy K) {old new : TableId} (hne : old ≠ new) (hall : ∀ id, m.HasAskedMode id)
    (root : TableId) (hother : id = new → (m.table id).metatable ≠ some old) :
    (m.substitute root (.table old) (.table new)).1.HasAskedMode id := by
  have h : Exchangeable (.table old) (.table new) := ⟨rfl, rfl, by simpa using hne⟩
  have hend := (asksAlike_substitute hm h root).2
  have hasked (d : TableId) : ((m.substitute root (.table old) (.table new)).1.table d).requestedMode
      (.strong (m.substitute root (.table old) (.table new)).1.hash) = (m.table d).requestedMode (.strong m.hash) :=
    hend.requestedMode hm rfl d
  by_cases hreplaced : id ∈ (visits (.table old) (.table new) m root).map (·.id) ∧ (m.table id).metatable = some old
  · obtain ⟨hnew, hmode⟩ := mode_substitute hm h.ne.symm hreplaced.1 hreplaced.2
    have hhead : (tablesAmong [Value.table new]).head? = some new := rfl
    have hne : new ≠ id := fun heq => hother heq.symm hreplaced.2
    rw [HasAskedMode, hmode, hnew, hhead, askedMode, hend.hash]
    exact if_neg hne
  · obtain ⟨hmeta, hmode⟩ := table_substitute_of_metatable m root (.table old) (.table new) id fun hturn t ht => by
      refine Bool.eq_false_iff.mpr fun heq => hreplaced ⟨hturn, ?_⟩
      rw [Value.table.inj ((rawEqual_iff_of_isObject rfl).mp heq)] at ht
      exact ht
    rw [HasAskedMode, hmeta, hmode, hall id]
    unfold askedMode
    split
    · exact (hasked _).symm
    · rfl

end Result

end Machine

end LuaMachine
