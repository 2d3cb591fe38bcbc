import LuaMachine.Proofs.External
import LuaMachine.Proofs.Json.Plain
import LuaMachine.Proofs.Prototype.Constant
import LuaMachine.Proofs.Table.Layout

namespace LuaMachine

open Table

/-- The value with numbers in their one form. -/
def Value.canonical : Value → Value
  | .float x => .number x.value
  | v => v

namespace Machine

/-- A value of one machine and its copy in another: the same value if it is no table, and otherwise a table that holds
strongly, and under every canonical key the copy of what the first one has there. -/
inductive Copied (m other : Machine) : Value → Value → Prop
  | scalar {v : Value} (hscalar : ∀ id, v ≠ .table id) : Copied m other v v.canonical
  | table {id copy : TableId} (hrange : copy.index < other.tables.size) (hmode : (other.table copy).mode = .strong)
    (hentries : ∀ key, key.IsCanonical → Copied m other (m.rawGet id key []) (other.rawGet copy key [])) :
    Copied m other (.table id) (.table copy)

/-- A machine with more tables. -/
def Grows (m m' : Machine) : Prop := ∃ new, m' = { m with tables := m.tables ++ new }

theorem Grows.refl (m : Machine) : m.Grows m := ⟨#[], by simp⟩

theorem Grows.trans {m m' m'' : Machine} (h : m.Grows m') (h' : m'.Grows m'') : m.Grows m'' := by
  obtain ⟨new, rfl⟩ := h
  obtain ⟨more, rfl⟩ := h'
  exact ⟨new ++ more, by simp [Array.append_assoc]⟩

theorem Grows.hash_eq {m m' : Machine} (h : m.Grows m') : m'.hash = m.hash := by
  obtain ⟨new, rfl⟩ := h
  rfl

theorem grows_addTable (m : Machine) (t : Table) : m.Grows (m.addTable t).1 :=
  ⟨#[t], by rw [addTable, Array.push_eq_append]⟩

theorem Grows.size_le {m m' : Machine} (h : m.Grows m') : m.tables.size ≤ m'.tables.size := by
  obtain ⟨new, rfl⟩ := h
  simp

theorem Grows.table_eq {m m' : Machine} (h : m.Grows m') {id : TableId} (hin : id.index < m.tables.size) :
    m'.table id = m.table id := by
  obtain ⟨new, rfl⟩ := h
  simp [table, Array.getElem?_append_left hin]

/-- Reading a table that holds nothing weakly does not depend on what exists. -/
theorem rawGet_of_strong {m : Machine} {id : TableId} (hmode : (m.table id).mode = .strong) (key : Value) :
    m.rawGet id key [] = (m.table id).get (.strong m.hash) key := by
  have hcontext : m.context id [] = .strong m.hash := by simp [context, hmode, WeakMode.isWeak, WeakMode.strong]
  rw [rawGet, hcontext]

end Machine

namespace Json

open Machine

/-- A value of one machine and what stands for it in another. What has a name stands for itself; any other table has a
copy among the tables from `first` on, which holds strongly and has under every canonical key what stands for the
entry of the first one; all else is the same. -/
inductive Restored (names? : Option ExternalNames) (m other : Machine) (first : Nat) : Value → Value → Prop
  | named {v : Value} {name : String} (hname : nameIn? names? v = some name) : Restored names? m other first v v
  | scalar {v : Value} (hname : nameIn? names? v = none) (hscalar : ∀ id, v ≠ .table id) :
    Restored names? m other first v v.canonical
  | table {id copy : TableId} (hname : nameIn? names? (.table id) = none) (hnew : first ≤ copy.index)
    (hrange : copy.index < other.tables.size) (hmode : (other.table copy).mode = .strong)
    (hentries : ∀ key, key.IsCanonical →
      Restored names? m other first (m.rawGet id key []) (other.rawGet copy key [])) :
    Restored names? m other first (.table id) (.table copy)

section Restored

variable {names? : Option ExternalNames} {m other more : Machine} {first : Nat} {v w : Value}

theorem Restored.nil (names? : Option ExternalNames) (m other : Machine) (first : Nat) :
    Restored names? m other first .nil .nil :=
  .scalar (v := .nil) (by cases names? <;> rfl) (by rintro id ⟨⟩)

/-- What stands for a value goes on to do so while more tables are made. -/
theorem Restored.grow (h : Restored names? m other first v w) (hgrow : other.Grows more) :
    Restored names? m more first v w := by
  induction h with
  | named hname => exact .named hname
  | scalar hname hscalar => exact .scalar hname hscalar
  | table hname hnew hrange hmode _ ih =>
    have htable := hgrow.table_eq hrange
    have hmode' := htable.symm ▸ hmode
    refine .table hname hnew (hrange.trans_le hgrow.size_le) hmode' fun key hkey => ?_
    have hread := ih key hkey
    rwa [rawGet_of_strong hmode, ← htable, ← hgrow.hash_eq, ← rawGet_of_strong hmode'] at hread

theorem Restored.mono {earlier : Nat} (h : Restored names? m other first v w) (hle : earlier ≤ first) :
    Restored names? m other earlier v w := by
  induction h with
  | named hname => exact .named hname
  | scalar hname hscalar => exact .scalar hname hscalar
  | table hname hnew hrange hmode _ ih => exact .table hname (hle.trans hnew) hrange hmode ih

/-- Without names every table is copied. -/
theorem Restored.copied (h : Restored none m other first v w) : Copied m other v w := by
  induction h with
  | named hname => cases hname
  | scalar _ hscalar => exact .scalar hscalar
  | table _ _ hrange hmode _ ih => exact .table hrange hmode ih

end Restored

/-- Reading the data gives, in any machine, what stands for the value, copies being new tables, and changes nothing
that was there. -/
def Returns (names? : Option ExternalNames) (m : Machine) (v : Value) (j : Json) : Prop :=
  ∀ other : Machine, ∃ more w, toValue names? other j = .ok (more, w) ∧ other.Grows more ∧
    Restored names? m more other.tables.size v w

/-- Stores what some data is read as under its keys, one after the other. -/
def fill (names? : Option ExternalNames) (m : Machine) (t : Table) :
    List (Value × Json) → Except BridgeError (Machine × Table)
  | [] => .ok (m, t)
  | (key, item) :: rest => do
    let (m, v) ← toValue names? m item
    fill names? m (t.setNormal (.strong m.hash) key v) rest

variable {names? : Option ExternalNames}

theorem fillItems_eq (m : Machine) (t : Table) (i : Nat) (items : List Json) :
    fillItems names? m t (i + 1) items = fill names? m t (items.mapIdx fun k item => (placeKey (i + k), item)) := by
  induction items generalizing m t i with
  | nil => rfl
  | cons item rest ih =>
    have hshift : (fun (k : Nat) (item : Json) => (placeKey (i + (k + 1)), item)) =
        fun k item => (placeKey (i + 1 + k), item) := by
      funext k item
      rw [Nat.add_assoc i 1 k, Nat.add_comm 1 k]
    rw [fillItems, List.mapIdx_cons, fill, hshift]
    simp only [ih]
    rfl

theorem fillMembers_eq (m : Machine) (t : Table) (members : List (String × Json)) :
    fillMembers names? m t members = fill names? m t (members.map fun member => (.str member.1, member.2)) := by
  induction members generalizing m t with
  | nil => rfl
  | cons member rest ih =>
    rw [fillMembers, List.map_cons, fill]
    simp only [ih]
    rfl

variable {m : Machine} {id : TableId}

/-- Filling a table with what the entries of another one were written as makes copies of them and nothing else. -/
theorem fill_spec {entries : List (Value × Json)} (hreturns : ∀ e ∈ entries, Returns names? m (m.rawGet id e.1 []) e.2)
    (hnodup : (entries.map (·.1)).Nodup) (other : Machine)
    (halone : ∀ e ∈ entries, Alone other.hash canonicalKeys e.1) {t : Table}
    (ht : t.WellFormed other.hash canonicalKeys) (hmode : t.mode = .strong) :
    ∃ more u, fill names? other t entries = .ok (more, u) ∧ other.Grows more ∧
      u.WellFormed other.hash canonicalKeys ∧ u.mode = .strong ∧
      (∀ e ∈ entries,
        Restored names? m more other.tables.size (m.rawGet id e.1 []) (u.get (.strong other.hash) e.1)) ∧
      (∀ e ∈ u.pairs, e ∈ t.pairs ∨ e.1 ∈ entries.map (·.1)) ∧
      ∀ key, Alone other.hash canonicalKeys key → key ∉ entries.map (·.1) →
        u.get (.strong other.hash) key = t.get (.strong other.hash) key := by
  induction entries generalizing other t with
  | nil => exact ⟨other, t, rfl, .refl other, ht, hmode, by simp, fun _ => .inl, fun _ _ _ => rfl⟩
  | cons e rest ih =>
    obtain ⟨key, item⟩ := e
    rw [List.forall_mem_cons] at hreturns halone
    rw [List.map_cons, List.nodup_cons] at hnodup
    obtain ⟨hkey, hothers⟩ := halone
    obtain ⟨next, w, hread, hnext, hcopy⟩ := hreturns.1 other
    have hhash := hnext.hash_eq
    have hget {k : Value} (hk : Alone other.hash canonicalKeys k) :
        (t.setNormal (.strong other.hash) key w).get (.strong other.hash) k =
          if k = key then w else t.get (.strong other.hash) k :=
      ht.get_setNormal hkey.stored hkey.mem (Context.everlasting_strong other.hash) w hk
    have ht : t.WellFormed (Context.strong other.hash).hash canonicalKeys := ht
    have hset := ht.setNormal hkey.stored hkey.mem w
    obtain ⟨more, u, hfill, hmore, hu, humode, hcopies, hpairs, hrest⟩ :=
      ih hreturns.2 hnodup.2 next (hhash.symm ▸ hothers) (hhash.symm ▸ hset) (by rw [mode_setNormal, hmode])
    rw [hhash] at hu hcopies hpairs hrest
    have hlater := fun f hf => (hcopies f hf).mono hnext.size_le
    refine ⟨more, u, ?_, hnext.trans hmore, hu, humode, List.forall_mem_cons.mpr ⟨?_, hlater⟩, fun f hf => ?_,
      fun k hk hnot => ?_⟩
    · rw [fill, hread]
      simpa only [bind, Except.bind, hhash] using hfill
    · rw [hrest key hkey hnodup.1, hget hkey, if_pos rfl]
      exact hcopy.grow hmore
    · rw [List.map_cons, List.mem_cons]
      rcases hpairs f hf with hold | hlisted
      · rcases ht.of_mem_pairs_setNormal hkey hold with ⟨hkept, -⟩ | ⟨-, rfl⟩
        · exact .inl hkept
        · exact .inr (.inl rfl)
      · exact .inr (.inr hlisted)
    · rw [List.map_cons, List.mem_cons, not_or] at hnot
      rw [hrest k hk hnot.2, hget hk, if_neg hnot.1]

/-- A table without a name is copied by filling a new one with what its entries were written as. -/
theorem returns_table (hm : m.Settled) (hkeyed : (∃ n, m.IsArray id n) ∨ m.IsRecord id)
    (hname : nameIn? names? (.table id) = none) (entries : List (Value × Json))
    (hreturns : ∀ e ∈ entries, Returns names? m (m.rawGet id e.1 []) e.2) (hnodup : (entries.map (·.1)).Nodup)
    (hsame : ∀ key, key ∈ entries.map (·.1) ↔ ∃ w, (key, w) ∈ m.entries id []) (arraySize hashSize : Nat) {j : Json}
    (hread : ∀ other more u, fill names? other (Table.new arraySize hashSize) entries = .ok (more, u) →
      toValue names? other j = .ok ((more.addTable u).1, .table (more.addTable u).2)) :
    Returns names? m (.table id) j := by
  intro other
  have halone (key : Value) (hkey : key ∈ entries.map (·.1)) : Alone other.hash canonicalKeys key := by
    obtain ⟨w, he⟩ := (hsame key).mp hkey
    exact hm.alone hkeyed other.hash _ he
  obtain ⟨more, u, hfill, hmore, hu, hmode, hcopies, hpairs, -⟩ :=
    fill_spec hreturns hnodup other (fun e he => halone e.1 (List.mem_map_of_mem he))
      (wellFormed_new _ _ arraySize hashSize) rfl
  have hlisted : ∀ e ∈ u.entries (.strong other.hash), e.1 ∈ entries.map (·.1) := by
    intro e he
    have hpair := hpairs e (mem_pairs_of_mem_entries he)
    rwa [pairs_new, List.mem_nil_iff, false_or] at hpair
  refine ⟨(more.addTable u).1, .table (more.addTable u).2, hread other more u hfill,
    hmore.trans (grows_addTable more u), ?_⟩
  have hnew : (more.addTable u).1.table (more.addTable u).2 = u := by simp [addTable, Machine.table]
  have hhash : (more.addTable u).1.hash = other.hash := (hmore.trans (grows_addTable more u)).hash_eq
  have hmode' : ((more.addTable u).1.table (more.addTable u).2).mode = .strong := by rw [hnew, hmode]
  refine .table hname hmore.size_le (by simp [addTable]) hmode' fun key hcanonical => ?_
  rw [rawGet_of_strong hmode', hnew, hhash]
  cases hkey : normalizeKey key with
  | error e =>
    rw [rawGet, get_of_normalizeKey_error _ _ hkey, get_of_normalizeKey_error _ _ hkey]
    exact .nil names? m _ _
  | ok stored =>
    have hform := normalizeKey_idem hkey
    have hknown : stored ∈ canonicalKeys := ⟨hform, hcanonical.normalizeKey hkey⟩
    rw [rawGet, get_of_normalizeKey _ _ hkey, get_of_normalizeKey _ _ hkey, ← rawGet]
    by_cases hkey : stored ∈ entries.map (·.1)
    · obtain ⟨e, he, rfl⟩ := List.mem_map.mp hkey
      exact (hcopies e he).grow (grows_addTable more u)
    · have hnone : m.rawGet id stored [] = .nil := by
        refine (hm.tidy.sound id []).get_of_not_mem_entries ?_ hknown hform fun w hw => ?_
        · rw [context_hash]
          exact hm.alone hkeyed m.hash
        · exact hkey ((hsame stored).mpr ⟨w, hw⟩)
      have hempty : u.get (.strong other.hash) stored = .nil :=
        Sound.get_of_not_mem_entries hu.toSound (fun e he => halone e.1 (hlisted e he)) hknown hform
          fun w hw => hkey (hlisted (stored, w) hw)
      rw [hnone, hempty]
      exact .nil names? m _ _

/-- Members with names of their own are only put in order. -/
theorem sortMembers_perm {members : List (String × Json)} (hnodup : (members.map (·.1)).Nodup) :
    (sortMembers members).Perm members := by
  have hfold {members : List (String × Json)} (hnodup : (members.map (·.1)).Nodup) :
      members.foldr consMember [] = members := by
    induction members with
    | nil => rfl
    | cons member rest ih =>
      rw [List.map_cons, List.nodup_cons] at hnodup
      rw [List.foldr_cons, ih hnodup.2]
      cases rest with
      | nil => rfl
      | cons next rest =>
        have hne : member.1 ≠ next.1 := fun heq => hnodup.1 (by simp [heq])
        rw [consMember, if_neg hne]
  have hsort := List.mergeSort_perm members fun a b => !(b.1 < a.1)
  rw [sortMembers, hfold ((hsort.map (·.1)).nodup_iff.mpr hnodup)]
  exact hsort

/-- What has a name is found by it. -/
theorem returns_of_named (hnames : ∀ names ∈ names?, names.Paired) {v : Value} {name : String}
    (hname : nameIn? names? v = some name) : Returns names? m v (.obj [(markerKey, .str name)]) := by
  intro other
  obtain ⟨names, rfl, hbound⟩ := Option.bind_eq_some_iff.mp hname
  have hfound : names.resolve? name = some v := ((hnames names rfl).resolve?_eq_some_iff).mpr hbound
  refine ⟨other, v, ?_, .refl other, .named hname⟩
  simp [toValue, marker?, hfound]

/-- A value that is no table is read as it was written. -/
theorem returns_of_scalar {fuel : Nat} {path : List TableId} {v : Value} {j : Json} (hname : nameIn? names? v = none)
    (hscalar : ∀ id, v ≠ .table id) (hok : ofValueWithin m names? fuel path v = .ok j) : Returns names? m v j := by
  intro other
  suffices hread : toValue names? other j = .ok (other, v.canonical) from
    ⟨other, _, hread, .refl other, .scalar hname hscalar⟩
  rw [nameIn?] at hname
  unfold ofValueWithin at hok
  rw [hname] at hok
  cases v with
  | table id => exact absurd rfl (hscalar id)
  | float x =>
    dsimp only at hok
    split at hok
    · cases hok
      rfl
    · cases hok
  | int i =>
    cases hok
    rw [toValue, Number.int64?_toInt]
    rfl
  | nil | bool | str =>
    cases hok
    rfl
  | closure | native | userdata | thread => cases hok

/-- Only a text is written as a text. -/
theorem eq_str_of_ofValueWithin {fuel : Nat} {path : List TableId} {v : Value} {s : String}
    (hok : ofValueWithin m names? fuel path v = .ok (.str s)) : v = .str s := by
  unfold ofValueWithin at hok
  split at hok
  · cases hok
  · split at hok
    case h_5 => cases hok; rfl
    case h_4 => split at hok <;> cases hok
    case h_6 =>
      split at hok
      · cases hok
      · dsimp only at hok
        split at hok
        · cases hok
        · split at hok
          · obtain ⟨_, -, hitems⟩ := map_eq_ok.mp hok
            cases hitems
          · obtain ⟨_, -, hmembers⟩ := map_eq_ok.mp hok
            cases hmembers
    all_goals cases hok

/-- An array reads as a copy if its items do. -/
theorem returns_array (hm : m.Settled) {n : Nat} (h : m.IsArray id n) (hname : nameIn? names? (.table id) = none)
    {items : List Json}
    (hitems : List.Forall₂ (fun i item => Returns names? m (m.rawGet id (placeKey i) []) item) (List.range n) items) :
    Returns names? m (.table id) (.arr items) := by
  have hlength : items.length = n := by simpa using hitems.length_eq.symm
  have hkeys : (items.mapIdx fun k item => (placeKey (0 + k), item)).map (·.1) = (List.range n).map placeKey :=
    List.ext_getElem (by simp [hlength]) (by simp)
  refine returns_table hm (.inl ⟨n, h⟩) hname (items.mapIdx fun k item => (placeKey (0 + k), item)) ?_ ?_ ?_
    items.length 0 fun other more u hfill => ?_
  · intro e he
    obtain ⟨i, hi, rfl⟩ := List.mem_mapIdx.mp he
    have hreturns := (List.forall₂_iff_get.mp hitems).2 i (by simpa [hlength] using hi) hi
    simpa using hreturns
  · rw [hkeys]
    exact nodup_map_placeKey ((h.lt_maxExact hm).le.trans maxExact_le)
  · intro key
    rw [hkeys, h.mem_keys_iff hm]
    simp [eq_comm]
  · rw [← fillItems_eq] at hfill
    rw [toValue, hfill]
    rfl

/-- Pairs that agree in their names two by two have the same names. -/
theorem map_fst_eq {α β : Type} {P : String × α → String × β → Prop} {xs : List (String × α)} {ys : List (String × β)}
    (h : List.Forall₂ (fun x y => x.1 = y.1 ∧ P x y) xs ys) : xs.map (·.1) = ys.map (·.1) := by
  rw [← List.forall₂_eq_eq_eq, List.forall₂_map_left_iff, List.forall₂_map_right_iff]
  exact h.imp fun _ _ => And.left

/-- The members of a record have names of their own. -/
theorem nodup_namedEntries (hm : m.Settled) (h : m.IsRecord id) : ((namedEntries m id).map (·.1)).Nodup := by
  have hkeys : (m.entries id []).map (·.1) = ((namedEntries m id).map (·.1)).map .str := by
    rw [entries_of_record h, List.map_map, List.map_map]
    rfl
  exact List.Nodup.of_map Value.str (hkeys ▸ hm.nodup_entries (.inr h))

/-- A record reads as a copy if its members do and it does not look like a marker. -/
theorem returns_record (hm : m.Settled) (h : m.IsRecord id) (hname : nameIn? names? (.table id) = none)
    {members : List (String × Json)}
    (hmembers : List.Forall₂ (fun (named : String × Value) member =>
      named.1 = member.1 ∧ Returns names? m named.2 member.2) (namedEntries m id) members)
    (hunmarked : names?.isSome → marker? (sortMembers members) = none) :
    Returns names? m (.table id) (ofMembers members) := by
  have hnames := map_fst_eq hmembers
  have hkeys : (m.entries id []).map (·.1) = (members.map (·.1)).map .str := by
    rw [entries_of_record h, ← hnames, List.map_map, List.map_map]
    rfl
  have hnodup : (members.map (·.1)).Nodup := hnames ▸ nodup_namedEntries hm h
  have hperm := sortMembers_perm hnodup
  have hsorted := (hperm.map (·.1)).map Value.str
  have hlisted : (((sortMembers members).map fun member => (Value.str member.1, member.2)).map (·.1)) =
      ((sortMembers members).map (·.1)).map .str := by
    rw [List.map_map, List.map_map]
    rfl
  refine returns_table hm (.inr h) hname ((sortMembers members).map fun member => (.str member.1, member.2)) ?_ ?_ ?_
    0 (sortMembers members).length fun other more u hfill => ?_
  · intro e he
    obtain ⟨member, hmember, rfl⟩ := List.mem_map.mp he
    obtain ⟨i, hi, rfl⟩ := List.getElem_of_mem (hperm.subset hmember)
    obtain ⟨hlength, hget⟩ := List.forall₂_iff_get.mp hmembers
    obtain ⟨hname, hreturns⟩ := hget i (by omega) hi
    have hentry : (Value.str members[i].1, (namedEntries m id)[i].2) ∈ m.entries id [] := by
      rw [entries_of_record h, ← show (namedEntries m id)[i].1 = members[i].1 from hname]
      exact List.mem_map.mpr ⟨(namedEntries m id)[i], List.getElem_mem _, rfl⟩
    rw [((hm.mem_entries_iff (.inr h) (str_mem_canonicalKeys _)).mp hentry).1]
    exact hreturns
  · rw [hlisted, hsorted.nodup_iff]
    exact hnodup.map fun _ _ => Value.str.inj
  · intro key
    rw [hlisted, hsorted.mem_iff, ← hkeys]
    simp
  · rw [← fillMembers_eq] at hfill
    rw [ofMembers, toValue, hfill]
    · rfl
    · intro names name hsome hmarker
      rw [hunmarked (by simp [hsome])] at hmarker
      cases hmarker

/-- A table with one entry, a text under the key of markers, looks like a marker. -/
def LooksNamed (m : Machine) (id : TableId) : Prop := ∃ s, m.entries id [] = [(.str markerKey, .str s)]

/-- The members of a record look like a marker only if the record does. -/
theorem looksNamed_of_marker? (hm : m.Settled) (h : m.IsRecord id) {fuel : Nat} {path : List TableId}
    {members : List (String × Json)} (hmembers : List.Forall₂ (fun (named : String × Value) member =>
      named.1 = member.1 ∧ ofValueWithin m names? fuel path named.2 = .ok member.2) (namedEntries m id) members)
    {name : String} (hmarker : marker? (sortMembers members) = some name) : LooksNamed m id := by
  have hnames := map_fst_eq hmembers
  have hsorted : sortMembers members = [(markerKey, .str name)] := by
    unfold marker? at hmarker
    split at hmarker
    · split at hmarker
      · cases hmarker
        simp_all
      · cases hmarker
    · cases hmarker
  have hone : members = [(markerKey, .str name)] :=
    List.perm_singleton.mp (hsorted ▸ (sortMembers_perm (hnames ▸ nodup_namedEntries hm h)).symm)
  obtain ⟨⟨key, v⟩, rest, ⟨hkey, hv⟩, hrest, hentries⟩ := List.forall₂_cons_right_iff.mp (hone ▸ hmembers)
  cases List.forall₂_nil_right_iff.mp hrest
  cases hkey
  cases eq_str_of_ofValueWithin hv
  refine ⟨name, ?_⟩
  rw [entries_of_record h, hentries]
  rfl

/-- No table that is reached without passing a name looks like a marker. -/
def UnmarkedUpTo (names? : Option ExternalNames) (m : Machine) (v : Value) : Prop :=
  ∀ id, Relation.ReflTransGen (Shows names? m) v (.table id) → nameIn? names? (.table id) = none → ¬LooksNamed m id

theorem UnmarkedUpTo.of_shows {v w : Value} (h : UnmarkedUpTo names? m v) (hshows : Shows names? m v w) :
    UnmarkedUpTo names? m w := fun id hid => h id (.head hshows hid)

section Written

variable {fuel : Nat} {path : List TableId} {j : Json}

/-- An array that was written reads as a copy, if what it holds does. -/
theorem returns_of_array (hm : m.Settled) {n : Nat} (h : m.IsArray id n) (hname : nameIn? names? (.table id) = none)
    (hseen : id ∉ path) (hchild : ∀ w item, m.Contains (.table id) w →
      ofValueWithin m names? fuel (id :: path) w = .ok item → Returns names? m w item)
    (hok : ofValueWithin m names? (fuel + 1) path (.table id) = .ok j) : Returns names? m (.table id) j := by
  rw [ofValueWithin_array hm h hname fuel hseen] at hok
  obtain ⟨items, hitems, rfl⟩ := map_eq_ok.mp hok
  have hitems := mapM_eq_ok.mp hitems
  refine returns_array hm h hname (List.forall₂_iff_get.mpr ⟨hitems.length_eq, fun i hi hi' => ?_⟩)
  have hcontains := (contains_array hm h).mpr ⟨_, List.mem_range.mp (List.get_mem _ ⟨i, hi⟩), rfl⟩
  exact hchild _ _ hcontains ((List.forall₂_iff_get.mp hitems).2 i hi hi')

/-- A record that was written reads as a copy, if what it holds does and it does not look like a marker. -/
theorem returns_of_record (hm : m.Settled) (h : m.IsRecord id) (hsome : m.entries id [] ≠ [])
    (hname : nameIn? names? (.table id) = none) (hseen : id ∉ path)
    (hchild : ∀ w item, m.Contains (.table id) w →
      ofValueWithin m names? fuel (id :: path) w = .ok item → Returns names? m w item)
    (hunmarked : names?.isSome → ¬LooksNamed m id)
    (hok : ofValueWithin m names? (fuel + 1) path (.table id) = .ok j) : Returns names? m (.table id) j := by
  rw [ofValueWithin_record h hsome hname fuel hseen] at hok
  obtain ⟨members, hwritten, rfl⟩ := map_eq_ok.mp hok
  have hmembers : List.Forall₂ (fun (named : String × Value) member => named.1 = member.1 ∧
      ofValueWithin m names? fuel (id :: path) named.2 = .ok member.2) (namedEntries m id) members := by
    refine (mapM_eq_ok.mp hwritten).imp fun named member hmember => ?_
    obtain ⟨item, hitem, rfl⟩ := map_eq_ok.mp hmember
    exact ⟨rfl, hitem⟩
  refine returns_record hm h hname ?_ fun hsome => ?_
  · refine List.forall₂_iff_get.mpr ⟨hmembers.length_eq, fun i hi hi' => ?_⟩
    obtain ⟨hsame, hitem⟩ := (List.forall₂_iff_get.mp hmembers).2 i hi hi'
    exact ⟨hsame, hchild _ _ ((contains_record h).mpr ⟨_, List.get_mem _ ⟨i, hi⟩, rfl⟩) hitem⟩
  · by_contra hmarker
    obtain ⟨name, hmarker⟩ := Option.ne_none_iff_exists'.mp hmarker
    exact hunmarked hsome (looksNamed_of_marker? hm h hmembers hmarker)

end Written

/-- What was written is read as something that stands for the value, if no table that has no name could be taken for
a marker. -/
theorem returns_of_ok (hm : m.Settled) (hnames : ∀ names ∈ names?, names.Paired) {fuel : Nat} {path : List TableId}
    {v : Value} {j : Json} (hkeyed : KeyedUpTo names? m v) (hunmarked : names?.isSome → UnmarkedUpTo names? m v)
    (hok : ofValueWithin m names? fuel path v = .ok j) : Returns names? m v j := by
  induction fuel generalizing path v j with
  | zero =>
    cases hname : nameIn? names? v with
    | some name =>
      rw [ofValueWithin_named hname] at hok
      cases hok
      exact returns_of_named hnames hname
    | none =>
      refine returns_of_scalar hname ?_ hok
      rintro id rfl
      rw [ofValueWithin_zero hname] at hok
      cases hok
  | succ fuel ih =>
    cases hname : nameIn? names? v with
    | some name =>
      rw [ofValueWithin_named hname] at hok
      cases hok
      exact returns_of_named hnames hname
    | none =>
      by_cases htable : ∃ id, v = .table id
      · obtain ⟨id, rfl⟩ := htable
        by_cases hseen : id ∈ path
        · rw [ofValueWithin_circular hname _ hseen] at hok
          cases hok
        · have hchild (w : Value) (item : Json) (hw : m.Contains (.table id) w)
              (hitem : ofValueWithin m names? fuel (id :: path) w = .ok item) : Returns names? m w item :=
            ih (hkeyed.of_shows ⟨hname, hw⟩) (fun hsome => (hunmarked hsome).of_shows ⟨hname, hw⟩) hitem
          rcases array_or_record (hkeyed id .refl hname) with ⟨n, h⟩ | ⟨h, hsome⟩
          · exact returns_of_array hm h hname hseen hchild hok
          · exact returns_of_record hm h hsome hname hseen hchild (fun hsome => hunmarked hsome id .refl hname) hok
      · exact returns_of_scalar hname (fun id h => htable ⟨id, h⟩) hok

/-- In a heap of arrays and records what was written reads as a copy. -/
theorem copied_of_ok (hm : m.DataHeap) {v : Value} {j : Json} (hok : ofValue m none v = .ok j) (other : Machine) :
    ∃ more w, toValue none other j = .ok (more, w) ∧ other.Grows more ∧ Copied m more v w := by
  obtain ⟨more, w, hread, hgrow, hrestored⟩ :=
    returns_of_ok hm.toSettled (by simp) (fun id _ _ => hm.keyed id) (by simp) hok other
  exact ⟨more, w, hread, hgrow, hrestored.copied⟩

/-- In a heap of arrays and records writing a value always ends: from one level of nesting for each table on, allowing
more changes nothing. It succeeds exactly for plain data, and what was written reads as a copy, in any machine. -/
theorem roundTrip {m : Machine} (hm : m.DataHeap) (v : Value) :
    (∀ fuel, m.tables.size < fuel → ofValueWithin m none fuel [] v = ofValue m none v) ∧
      ((∃ j, ofValue m none v = .ok j) ↔ m.Plain v) ∧
      ∀ j, ofValue m none v = .ok j → ∀ other : Machine, ∃ more w,
        toValue none other j = .ok (more, w) ∧ other.Grows more ∧ Copied m more v w :=
  ⟨fun _ hfuel => ofValueWithin_eq_ofValue m hfuel v, exists_ofValue_iff hm v, fun _ hok => copied_of_ok hm hok⟩

section Sharing

/-- An array that holds an integer and twice the same record. -/
def sharing : Machine :=
  let ctx := Context.strong Value.hashCode
  let record := (Table.new 0 1).setStr ctx "x" (.bool true)
  let array := Table.new 3 0
  let array := array.setInt ctx 1 (.int 7)
  let array := array.setInt ctx 2 (.table ⟨1⟩)
  let array := array.setInt ctx 3 (.table ⟨1⟩)
  { tables := #[array, record] }

theorem entries_sharing_array : sharing.entries ⟨0⟩ [] =
    [(.int 1, .int 7), (.int 2, .table ⟨1⟩), (.int 3, .table ⟨1⟩)] := by
  decide +kernel

theorem entries_sharing_record : sharing.entries ⟨1⟩ [] = [(.str "x", .bool true)] := by
  decide +kernel

theorem settled_sharing : sharing.Settled where
  tidy := by
    refine tidy_of_forall (fun key hkey => hkey.1) ?_
    simp only [sharing, List.mem_toArray, List.forall_mem_cons, List.not_mem_nil, false_implies, implies_true, and_true]
    have hnew (a h : Nat) := wellFormed_new Value.hashCode canonicalKeys a h
    exact ⟨(((hnew 3 0).setInt 1 _).setInt 2 _).setInt 3 _, (hnew 0 1).setStr "x" _⟩
  memory := by
    refine forall_table (m := sharing) (fun id hout => ?_) (by decide +kernel)
    rw [table_of_le hout]
    decide

theorem dataHeap_sharing : sharing.DataHeap where
  toSettled := settled_sharing
  keyed := by
    refine forall_table (m := sharing) (fun id hout => .inr ?_) fun i => ?_
    · simp [IsRecord, (empty_of_le hout).1]
    · match i with
      | ⟨0, _⟩ => exact .inl ⟨3, isArray_of_keys (by decide) (by rw [entries_sharing_array]; rfl)⟩
      | ⟨1, _⟩ => exact .inr (by simp [IsRecord, entries_sharing_record])

theorem ofValue_sharing : ofValue sharing none (.table ⟨0⟩) =
    .ok (.arr [.int 7, .obj [("x", .bool true)], .obj [("x", .bool true)]]) := by
  cbv

theorem roundTrip_sharing : sharing.DataHeap ∧ sharing.Plain (.table ⟨0⟩) ∧
    ∃ more w, toValue none sharing (.arr [.int 7, .obj [("x", .bool true)], .obj [("x", .bool true)]]) = .ok (more, w) ∧
      Copied sharing more (.table ⟨0⟩) w := by
  obtain ⟨-, hplain, hread⟩ := roundTrip dataHeap_sharing (.table ⟨0⟩)
  obtain ⟨more, w, hread, -, hcopy⟩ := hread _ ofValue_sharing sharing
  exact ⟨dataHeap_sharing, hplain.mp ⟨_, ofValue_sharing⟩, more, w, hread, hcopy⟩

end Sharing

end Json

end LuaMachine
