import LuaMachine.Proofs.Json.RoundTrip
import LuaMachine.Proofs.Machine.Canonical

namespace LuaMachine

open Machine Table Value

/-- A machine has more tables, and the numbers in the new ones are canonical. -/
structure Machine.GrowsCanonical (m m' : Machine) : Prop where
  grows : m.Grows m'
  fresh : ∀ id : TableId, m.tables.size ≤ id.index → (m'.table id).All Value.IsCanonical

namespace Machine.GrowsCanonical

variable {m m' m'' : Machine}

theorem refl (m : Machine) : m.GrowsCanonical m := by
  refine ⟨.refl m, fun id hid => ?_⟩
  rw [Machine.table, Array.getElem?_eq_none hid]
  exact Table.all_new isCanonical_nil 0 0

theorem trans (h : m.GrowsCanonical m') (h' : m'.GrowsCanonical m'') : m.GrowsCanonical m'' := by
  refine ⟨h.grows.trans h'.grows, fun id hid => ?_⟩
  by_cases hold : id.index < m'.tables.size
  · rw [h'.grows.table_eq hold]
    exact h.fresh id hid
  · exact h'.fresh id (Nat.le_of_not_lt hold)

theorem addTable (m : Machine) {t : Table} (ht : t.All Value.IsCanonical) : m.GrowsCanonical (m.addTable t).1 := by
  refine ⟨grows_addTable m t, fun id hid => ?_⟩
  rw [Machine.table, Machine.addTable, Array.getElem?_push]
  split
  · exact ht
  · rw [Array.getElem?_eq_none hid]
    exact Table.all_new isCanonical_nil 0 0

theorem isCanonical (h : m.GrowsCanonical m') (hm : m.IsCanonical) : m'.IsCanonical := by
  obtain ⟨new, rfl⟩ := h.grows
  refine { hm with tables := fun t ht => ?_ }
  obtain ht | ht := Array.mem_append.mp ht
  · exact hm.tables t ht
  · obtain ⟨i, hi⟩ := Array.mem_iff_getElem?.mp ht
    have hfresh := h.fresh ⟨m.tables.size + i⟩ (Nat.le_add_right _ _)
    rwa [Machine.table, Array.getElem?_append_right (Nat.le_add_right _ _), Nat.add_sub_cancel_left, hi] at hfresh

end Machine.GrowsCanonical

/-- What has a name is an object. -/
theorem ExternalNames.Paired.isCanonical {names : ExternalNames} (h : names.Paired) {name : String} {v : Value}
    (hname : names.resolve? name = some v) : v.IsCanonical := by
  obtain ⟨r, hr, -⟩ := (h.agree name v).mp hname
  rw [Value.ref?_eq_some_iff.mp hr]
  exact isCanonical_ofRef r

namespace Json

variable {names? : Option ExternalNames} {m m' : Machine} {t t' : Table}

/-- Whatever some data is read as is canonical. -/
def ReadsCanonical (names? : Option ExternalNames) (j : Json) : Prop :=
  ∀ m m' v, toValue names? m j = .ok (m', v) → m.GrowsCanonical m' ∧ v.IsCanonical

/-- What storing values under their keys gives is canonical if reading each of them is. -/
theorem fill_canonical {entries : List (Value × Json)} (hkeys : ∀ e ∈ entries, e.1.IsCanonical)
    (hread : ∀ e ∈ entries, ReadsCanonical names? e.2)
    (ht : t.All Value.IsCanonical) (hfill : fill names? m t entries = .ok (m', t')) :
    m.GrowsCanonical m' ∧ t'.All Value.IsCanonical := by
  induction entries generalizing m t with
  | nil =>
    cases hfill
    exact ⟨.refl _, ht⟩
  | cons e rest ih =>
    obtain ⟨key, item⟩ := e
    rw [List.forall_mem_cons] at hkeys hread
    rw [fill] at hfill
    cases hitem : toValue names? m item with
    | error e =>
      rw [hitem] at hfill
      cases hfill
    | ok made =>
      obtain ⟨next, v⟩ := made
      rw [hitem] at hfill
      obtain ⟨hgrows, hv⟩ := hread.1 _ _ _ hitem
      obtain ⟨hmore, ht'⟩ :=
        ih hkeys.2 hread.2 (ht.setNormal isCanonical_nil isCanonical_int hkeys.1 hv) hfill
      exact ⟨hgrows.trans hmore, ht'⟩

/-- A container is read by filling a new table. -/
theorem readsCanonical_of_fill {j : Json} (entries : List (Value × Json)) (hkeys : ∀ e ∈ entries, e.1.IsCanonical)
    (hentries : ∀ e ∈ entries, ReadsCanonical names? e.2) (arraySize hashSize : Nat)
    (hj : ∀ m, toValue names? m j = do
      let (m, t) ← fill names? m (Table.new arraySize hashSize) entries
      return ((m.addTable t).1, .table (m.addTable t).2)) : ReadsCanonical names? j := by
  intro m m' v hread
  rw [hj] at hread
  cases hfill : fill names? m (Table.new arraySize hashSize) entries with
  | error e =>
    rw [hfill] at hread
    cases hread
  | ok made =>
    obtain ⟨next, t⟩ := made
    rw [hfill] at hread
    cases hread
    obtain ⟨hgrows, ht⟩ := fill_canonical hkeys hentries (Table.all_new isCanonical_nil _ _) hfill
    exact ⟨hgrows.trans (.addTable next ht), isCanonical_table _⟩

/-- Reading JSON data gives canonical numbers only. -/
theorem readsCanonical (hnames : ∀ names ∈ names?, names.Paired) : (j : Json) → ReadsCanonical names? j
  | .null => by
    rintro m m' v ⟨⟩
    exact ⟨.refl m, isCanonical_nil⟩
  | .bool b => by
    rintro m m' v ⟨⟩
    exact ⟨.refl m, isCanonical_bool b⟩
  | .int i => by
    intro m m' v hread
    rw [toValue] at hread
    split at hread
    · cases hread
      exact ⟨.refl m, isCanonical_int _⟩
    · cases hread
      exact ⟨.refl m, isCanonical_number _⟩
  | .float x => by
    rintro m m' v ⟨⟩
    exact ⟨.refl m, isCanonical_number x⟩
  | .str s => by
    rintro m m' v ⟨⟩
    exact ⟨.refl m, isCanonical_str s⟩
  | .arr items => by
    refine readsCanonical_of_fill (items.mapIdx fun k item => (placeKey (0 + k), item)) ?_ ?_ items.length 0
      fun m => ?_
    · intro e he
      obtain ⟨k, hk, rfl⟩ := List.mem_mapIdx.mp he
      exact isCanonical_int _
    · intro e he
      obtain ⟨k, hk, rfl⟩ := List.mem_mapIdx.mp he
      have hsize := List.sizeOf_lt_of_mem (List.getElem_mem hk)
      exact readsCanonical hnames items[k]
    · rw [← fillItems_eq, toValue]
  | .obj members => by
    by_cases hnamed : ∃ names name, names? = some names ∧ marker? members = some name
    · obtain ⟨names, name, rfl, hmarker⟩ := hnamed
      intro m m' v hread
      simp only [toValue, hmarker] at hread
      split at hread
      · rename_i hfound
        cases hread
        exact ⟨.refl _, (hnames names rfl).isCanonical hfound⟩
      · cases hread
    · refine readsCanonical_of_fill (members.map fun member => (.str member.1, member.2)) ?_ ?_ 0
        members.length fun m => ?_
      · intro e he
        obtain ⟨member, -, rfl⟩ := List.mem_map.mp he
        exact isCanonical_str _
      · intro e he
        obtain ⟨⟨name, item⟩, hmember, rfl⟩ := List.mem_map.mp he
        have hsize : sizeOf item < sizeOf members := by
          have hin := List.sizeOf_lt_of_mem hmember
          rw [Prod.mk.sizeOf_spec] at hin
          omega
        exact readsCanonical hnames item
      · rw [← fillMembers_eq, toValue]
        exact fun names name hsome hmarker => hnamed ⟨names, name, hsome, hmarker⟩
termination_by j => sizeOf j

end Json

end LuaMachine
