import LuaMachine.Json.Bridge
import LuaMachine.Proofs.Machine.Heap
import LuaMachine.Proofs.Number.Double
import LuaMachine.Proofs.Table.Alone
import LuaMachine.Proofs.Table.Border

namespace LuaMachine

open Table

section Storing

variable {hash : Value → UInt64} {t : Table}

/-- Storing under an integer or a text keeps a table well formed. -/
theorem Table.WellFormed.setInt (ht : t.WellFormed hash canonicalKeys) (i : Int64) (value : Value) :
    (t.setInt (.strong hash) i value).WellFormed hash canonicalKeys := by
  have ht : t.WellFormed (Context.strong hash).hash canonicalKeys := ht
  exact ht.setNormal (isStored_int i) (int_mem_canonicalKeys i) value

theorem Table.WellFormed.setStr (ht : t.WellFormed hash canonicalKeys) (s : String) (value : Value) :
    (t.setStr (.strong hash) s value).WellFormed hash canonicalKeys := by
  have ht : t.WellFormed (Context.strong hash).hash canonicalKeys := ht
  exact ht.setNormal (isStored_str s) (str_mem_canonicalKeys s) value

end Storing

namespace Machine

/-- A table and the value of one of its entries. -/
def Contains (m : Machine) (v w : Value) : Prop := ∃ id key, v = .table id ∧ (key, w) ∈ m.entries id []

/-- What JSON can say about a value alone. -/
def Expressible : Value → Prop
  | .nil | .bool _ | .int _ | .str _ | .table _ => True
  | .float x => x.value.isNaN = false ∧ x.value.isInf = false
  | .closure _ | .native _ | .userdata _ | .thread _ => False

/-- Data from which only what JSON can express is reached, and no table that contains itself. Tables may be
shared. -/
def Plain (m : Machine) (v : Value) : Prop :=
  ∀ w, Relation.ReflTransGen m.Contains v w → Expressible w ∧ ¬Relation.TransGen m.Contains w w

/-- The keys of a table are exactly `1 .. n`. -/
def IsArray (m : Machine) (id : TableId) (n : Nat) : Prop :=
  ∀ key, (∃ w, (key, w) ∈ m.entries id []) ↔ ∃ i : Int64, key = .int i ∧ 1 ≤ i.toInt ∧ i.toInt ≤ n

/-- All keys of a table are texts. -/
def IsRecord (m : Machine) (id : TableId) : Prop := ∀ e ∈ m.entries id [], ∃ s, e.1 = .str s

/-- All tables are well formed, with canonical keys, and have fewer than `2 ^ 53` places and nodes, as every table in
memory has. -/
structure Settled (m : Machine) : Prop where
  tidy : m.Tidy fun _ => canonicalKeys
  memory : ∀ id, (m.table id).array.size + (m.table id).part.nodes < maxExact

/-- A heap of tables each of which is an array or a record. -/
structure DataHeap (m : Machine) : Prop extends Settled m where
  keyed : ∀ id, (∃ n, m.IsArray id n) ∨ m.IsRecord id

variable {m : Machine} {id : TableId}

theorem contains_table {w : Value} : m.Contains (.table id) w ↔ ∃ key, (key, w) ∈ m.entries id [] := by
  constructor
  · rintro ⟨_, key, ⟨⟩, h⟩
    exact ⟨key, h⟩
  · rintro ⟨key, h⟩
    exact ⟨id, key, rfl, h⟩

/-- The integers from one to `n` are the keys of the first `n` places. -/
theorem exists_int_iff_placeKey {n : Nat} (hn : n ≤ maxPlaces) {key : Value} :
    (∃ i : Int64, key = .int i ∧ 1 ≤ i.toInt ∧ i.toInt ≤ n) ↔ ∃ i < n, key = placeKey i := by
  constructor
  · rintro ⟨i, rfl, hlow, hhigh⟩
    refine ⟨i.toInt.toNat - 1, by omega, ?_⟩
    simp only [placeKey, Value.int.injEq]
    apply Int64.toInt_inj.mp
    rw [toInt_placeKey (by omega)]
    omega
  · rintro ⟨i, hi, rfl⟩
    have hint := toInt_placeKey (i := i) (by omega)
    exact ⟨_, rfl, by omega, by omega⟩

/-- An array has no more places than its table has room. -/
theorem IsArray.lt_maxExact {n : Nat} (hm : m.Settled) (h : m.IsArray id n) : n < maxExact := by
  have hsubset : (List.range (min n maxPlaces)).map placeKey ⊆ (m.entries id []).map (·.1) := by
    intro key hkey
    obtain ⟨i, hi, rfl⟩ := List.mem_map.mp hkey
    have hplace : ∃ j : Int64, placeKey i = .int j ∧ 1 ≤ j.toInt ∧ j.toInt ≤ n := by
      obtain ⟨j, heq, hlow, hhigh⟩ := (exists_int_iff_placeKey (Nat.min_le_right n maxPlaces)).mpr
        ⟨i, List.mem_range.mp hi, rfl⟩
      exact ⟨j, heq, hlow, by omega⟩
    obtain ⟨w, he⟩ := (h (placeKey i)).mpr hplace
    exact List.mem_map_of_mem he
  have hcount := (List.subperm_of_subset (nodup_map_placeKey (Nat.min_le_right n maxPlaces)) hsubset).length_le
  have hroom : (m.entries id []).length ≤ _ := (hm.tidy.wellFormed id).length_entries_le _
  have hmemory := hm.memory id
  simp only [List.length_map, List.length_range, maxExact, maxPlaces] at *
  omega

theorem maxExact_le : maxExact ≤ maxPlaces := by decide

/-- The keys of an array are those of its places. -/
theorem IsArray.mem_keys_iff {n : Nat} (hm : m.Settled) (h : m.IsArray id n) {key : Value} :
    (∃ w, (key, w) ∈ m.entries id []) ↔ ∃ i < n, key = placeKey i :=
  (h key).trans (exists_int_iff_placeKey ((h.lt_maxExact hm).le.trans maxExact_le))

/-- No other key is taken for those of arrays and records. -/
theorem Settled.alone (hm : m.Settled) (hkeyed : (∃ n, m.IsArray id n) ∨ m.IsRecord id) (hash : Value → UInt64) :
    ∀ e ∈ m.entries id [], Alone hash canonicalKeys e.1 := by
  rintro ⟨key, w⟩ he
  rcases hkeyed with ⟨n, h⟩ | h
  · obtain ⟨i, rfl, -, hhigh⟩ := (h key).mp ⟨w, he⟩
    have hn := h.lt_maxExact hm
    simp only [maxExact] at hn
    exact alone_int hash (by omega)
  · obtain ⟨s, rfl⟩ := h _ he
    exact alone_of_not_number (str_mem_canonicalKeys s) (isStored_str s) rfl

/-- Reading a canonical key of an array or a record gives the value of its entry. -/
theorem Settled.mem_entries_iff (hm : m.Settled) (hkeyed : (∃ n, m.IsArray id n) ∨ m.IsRecord id) {key w : Value}
    (hkey : key ∈ canonicalKeys) : (key, w) ∈ m.entries id [] ↔ m.rawGet id key [] = w ∧ w.isNil = false :=
  hm.tidy.mem_entries_iff_of_alone (hm.alone hkeyed m.hash) hkey

/-- Every key of an array or a record has one entry. -/
theorem Settled.nodup_entries (hm : m.Settled) (hkeyed : (∃ n, m.IsArray id n) ∨ m.IsRecord id) :
    ((m.entries id []).map (·.1)).Nodup :=
  (hm.tidy.wellFormed id).toSound.nodup_entries (hm.alone hkeyed m.hash)

/-- A table is an array if its keys are listed as those of the first places. -/
theorem isArray_of_keys {n : Nat} (hn : n ≤ maxPlaces)
    (h : (m.entries id []).map (·.1) = (List.range n).map placeKey) : m.IsArray id n := by
  intro key
  have hlisted : key ∈ (m.entries id []).map (·.1) ↔ key ∈ (List.range n).map placeKey := by rw [h]
  rw [exists_int_iff_placeKey hn]
  simpa [eq_comm] using hlisted

end Machine

namespace Json

open Machine

/-- The name that a value is written as, if there are names and it has one. -/
def nameIn? (names? : Option ExternalNames) (v : Value) : Option String := names?.bind fun names => names.nameOf? v

@[simp] theorem nameIn?_none (v : Value) : nameIn? none v = none := rfl

/-- A table without a name and what it contains. -/
def Shows (names? : Option ExternalNames) (m : Machine) (v w : Value) : Prop := nameIn? names? v = none ∧ m.Contains v w

/-- Data as `Plain` has it, up to what has a name. -/
def PlainUpTo (names? : Option ExternalNames) (m : Machine) (v : Value) : Prop :=
  ∀ w, Relation.ReflTransGen (Shows names? m) v w →
    (nameIn? names? w = none → Expressible w) ∧ ¬Relation.TransGen (Shows names? m) w w

/-- The tables that are reached without passing a name are arrays or records. -/
def KeyedUpTo (names? : Option ExternalNames) (m : Machine) (v : Value) : Prop :=
  ∀ id, Relation.ReflTransGen (Shows names? m) v (.table id) → nameIn? names? (.table id) = none →
    (∃ n, m.IsArray id n) ∨ m.IsRecord id

theorem shows_none (m : Machine) : Shows none m = m.Contains := by
  funext v w
  simp [Shows]

theorem plainUpTo_none {m : Machine} {v : Value} : PlainUpTo none m v ↔ m.Plain v := by
  simp [PlainUpTo, Plain, shows_none]

/-- What is plain contains plain data only, what has arrays and records contains such tables only. -/
theorem PlainUpTo.of_shows {names? : Option ExternalNames} {m : Machine} {v w : Value} (h : PlainUpTo names? m v)
    (hshows : Shows names? m v w) : PlainUpTo names? m w := fun u hu => h u (.head hshows hu)

theorem KeyedUpTo.of_shows {names? : Option ExternalNames} {m : Machine} {v w : Value} (h : KeyedUpTo names? m v)
    (hshows : Shows names? m v w) : KeyedUpTo names? m w := fun id hid => h id (.head hshows hid)

/-- A double has a JSON form unless it is NaN or infinite. -/
theorem isFinite_iff (x : Float) : isFinite x = true ↔ x.isNaN = false ∧ x.isInf = false := by
  have hnan : x.isNaN = x.toModel.unpack.isNaN := rfl
  have hinf : x.isInf = x.toModel.unpack.isInf := rfl
  rw [isFinite, Binary.ofFloat_eq_ofUnpacked, hnan, hinf]
  cases x.toModel.unpack <;>
    simp [Binary.ofUnpacked, Float.Model.UnpackedFloat.isNaN, Float.Model.UnpackedFloat.isInf]

section Lists

variable {α β ε : Type} {f g : α → Except ε β}

theorem mapM_eq_ok {xs : List α} {ys : List β} :
    xs.mapM f = .ok ys ↔ List.Forall₂ (fun x y => f x = .ok y) xs ys := by
  induction xs generalizing ys with
  | nil =>
    rw [List.mapM_nil, List.forall₂_nil_left_iff]
    exact ⟨fun h => (Except.ok.inj h).symm, fun h => h ▸ rfl⟩
  | cons x xs ih =>
    rw [List.mapM_cons, List.forall₂_cons_left_iff]
    cases hx : f x with
    | error e =>
      constructor
      · intro h
        cases h
      · rintro ⟨y, rest, h, -⟩
        cases h
    | ok y =>
      cases hxs : xs.mapM f with
      | error e =>
        constructor
        · intro h
          simp only [bind, Except.bind] at h
          cases h
        · rintro ⟨y', rest, -, hrest, -⟩
          rw [← ih, hxs] at hrest
          cases hrest
      | ok rest =>
        constructor
        · intro h
          simp only [bind, Except.bind] at h
          cases h
          exact ⟨y, rest, rfl, ih.mp hxs, rfl⟩
        · rintro ⟨y', rest', h, hrest, rfl⟩
          cases h
          rw [← ih, hxs] at hrest
          cases hrest
          rfl

/-- Mapping gives a result exactly if every item has one. -/
theorem exists_mapM_eq_ok {xs : List α} : (∃ ys, xs.mapM f = .ok ys) ↔ ∀ x ∈ xs, ∃ y, f x = .ok y := by
  simp only [mapM_eq_ok]
  induction xs with
  | nil => simp
  | cons x xs ih =>
    simp only [List.forall₂_cons_left_iff, List.forall_mem_cons, ← ih]
    constructor
    · rintro ⟨_, y, rest, hx, hrest, rfl⟩
      exact ⟨⟨y, hx⟩, rest, hrest⟩
    · rintro ⟨⟨y, hx⟩, rest, hrest⟩
      exact ⟨_, y, rest, hx, hrest, rfl⟩

theorem map_eq_ok {γ : Type} {h : β → γ} {r : Except ε β} {z : γ} :
    r.map h = .ok z ↔ ∃ y, r = .ok y ∧ h y = z := by
  cases r <;> simp [Except.map]

theorem exists_map_eq_ok {γ : Type} {h : β → γ} {r : Except ε β} : (∃ z, r.map h = .ok z) ↔ ∃ y, r = .ok y := by
  simp [map_eq_ok]

end Lists

variable {names? : Option ExternalNames} {m : Machine} {id : TableId} {n : Nat}

/-- What has a name is written as a marker. -/
theorem ofValueWithin_named {v : Value} {name : String} (hname : nameIn? names? v = some name) (fuel : Nat)
    (path : List TableId) : ofValueWithin m names? fuel path v = .ok (.obj [(markerKey, .str name)]) := by
  rw [nameIn?] at hname
  unfold ofValueWithin
  rw [hname]

/-- The members that the entries of a table become. -/
def namedEntries (m : Machine) (id : TableId) : List (String × Value) :=
  (m.entries id []).filterMap fun (key, v) => (memberName? key).map fun name => (name, v)

/-- What a table is written as, inside the tables in `path`, if it is not one of them and has no name. -/
theorem ofValueWithin_table (hname : nameIn? names? (.table id) = none) (fuel : Nat) {path : List TableId}
    (hfresh : id ∉ path) :
    ofValueWithin m names? (fuel + 1) path (.table id) =
      if isSequence (m.entries id []) ((m.table id).length (m.context id [])) then
        ((List.range ((m.table id).length (m.context id []))).mapM fun i =>
          ofValueWithin m names? fuel (id :: path) (m.rawGet id (placeKey i) [])).map .arr
      else
        ((namedEntries m id).mapM fun member : String × Value =>
          (ofValueWithin m names? fuel (id :: path) member.2).map fun j => (member.1, j)).map ofMembers := by
  rw [nameIn?] at hname
  rw [ofValueWithin, hname]
  simp only [List.contains_iff_mem, hfresh, if_false]
  exact if_congr Iff.rfl rfl rfl

/-- A table that is being written is not written again. -/
theorem ofValueWithin_circular (hname : nameIn? names? (.table id) = none) (fuel : Nat) {path : List TableId}
    (hseen : id ∈ path) : ofValueWithin m names? fuel path (.table id) = .error .circular := by
  rw [nameIn?] at hname
  unfold ofValueWithin
  rw [hname]
  cases fuel with
  | zero => rfl
  | succ fuel => simp only [List.contains_iff_mem, hseen, if_true]

/-- Without a level of nesting left no table can be written. -/
theorem ofValueWithin_zero (hname : nameIn? names? (.table id) = none) (path : List TableId) :
    ofValueWithin m names? 0 path (.table id) = .error .circular := by
  rw [nameIn?] at hname
  unfold ofValueWithin
  rw [hname]

/-- The entries of an array are those of its places, in some order. -/
theorem keys_perm_of_array (hm : m.Settled) (h : m.IsArray id n) :
    ((m.entries id []).map (·.1)).Perm ((List.range n).map placeKey) := by
  have hplaces := nodup_map_placeKey ((h.lt_maxExact hm).le.trans maxExact_le)
  refine (List.perm_ext_iff_of_nodup (hm.nodup_entries (.inl ⟨n, h⟩)) hplaces).mpr fun key => ?_
  have hkey : (∃ w, (key, w) ∈ m.entries id []) ↔ _ := h.mem_keys_iff hm
  simpa [eq_comm] using hkey

/-- The length of an array is the number of its places, and so many entries it has. -/
theorem isSequence_of_array (hm : m.Settled) (h : m.IsArray id n) :
    (m.table id).length (m.context id []) = n ∧ isSequence (m.entries id []) n = true := by
  have hn := h.lt_maxExact hm
  have hrow : ∀ i < maxPlaces, (m.table id).hasNat (m.context id []) (i + 1) = true ↔ i < n := by
    intro i hi
    have hread : (m.table id).hasNat (m.context id []) (i + 1) = !(m.rawGet id (placeKey i) []).isNil := rfl
    have hentry : (∃ w, (placeKey i, w) ∈ m.entries id []) ↔ (m.rawGet id (placeKey i) []).isNil = false := by
      simp only [hm.mem_entries_iff (.inl ⟨n, h⟩) (placeKey_mem_canonicalKeys i)]
      exact ⟨fun ⟨w, hw, hlive⟩ => hw ▸ hlive, fun hlive => ⟨_, rfl, hlive⟩⟩
    rw [hread, Bool.not_eq_true', ← hentry, h.mem_keys_iff hm]
    constructor
    · rintro ⟨j, hj, heq⟩
      exact placeKey_injective hi (hj.trans_le (hn.le.trans maxExact_le)) heq ▸ hj
    · exact fun hlt => ⟨i, hlt, rfl⟩
  refine ⟨(hm.tidy.sound id []).length_eq (hm.memory id) hrow, ?_⟩
  have hlength : (m.entries id []).length = n := by simpa using (keys_perm_of_array hm h).length_eq
  rw [isSequence, Bool.and_eq_true, List.all_eq_true]
  refine ⟨?_, by simpa using hlength⟩
  rintro ⟨key, w⟩ he
  obtain ⟨i, rfl, hlow, -⟩ := (h key).mp ⟨w, he⟩
  have hle : (1 : Int64) ≤ i := Int64.le_iff_toInt_le.mpr hlow
  simpa using hle

/-- A record that is not empty is not taken for an array. -/
theorem isSequence_of_record (h : m.IsRecord id) (hsome : m.entries id [] ≠ []) (border : Nat) :
    isSequence (m.entries id []) border = false := by
  obtain ⟨e, rest, hentries⟩ := List.exists_cons_of_ne_nil hsome
  obtain ⟨s, hs⟩ := h e (hentries ▸ List.mem_cons_self)
  obtain ⟨key, v⟩ := e
  cases hs
  simp [isSequence, hentries]

/-- An array is written place by place. -/
theorem ofValueWithin_array (hm : m.Settled) (h : m.IsArray id n) (hname : nameIn? names? (.table id) = none)
    (fuel : Nat) {path : List TableId} (hfresh : id ∉ path) :
    ofValueWithin m names? (fuel + 1) path (.table id) =
      ((List.range n).mapM fun i =>
        ofValueWithin m names? fuel (id :: path) (m.rawGet id (placeKey i) [])).map .arr := by
  obtain ⟨hlength, hsequence⟩ := isSequence_of_array hm h
  rw [ofValueWithin_table hname fuel hfresh, hlength, if_pos hsequence]

/-- A record that is not empty is written member by member. -/
theorem ofValueWithin_record (h : m.IsRecord id) (hsome : m.entries id [] ≠ [])
    (hname : nameIn? names? (.table id) = none) (fuel : Nat) {path : List TableId} (hfresh : id ∉ path) :
    ofValueWithin m names? (fuel + 1) path (.table id) =
      ((namedEntries m id).mapM fun member : String × Value =>
        (ofValueWithin m names? fuel (id :: path) member.2).map fun j => (member.1, j)).map ofMembers := by
  rw [ofValueWithin_table hname fuel hfresh, isSequence_of_record h hsome, if_neg Bool.false_ne_true]

/-- The members of a record are its entries. -/
theorem entries_of_record (h : m.IsRecord id) :
    m.entries id [] = (namedEntries m id).map fun member => (.str member.1, member.2) := by
  rw [namedEntries]
  unfold IsRecord at h
  generalize m.entries id [] = entries at h ⊢
  induction entries with
  | nil => rfl
  | cons e rest ih =>
    obtain ⟨key, v⟩ := e
    obtain ⟨s, rfl⟩ := h _ List.mem_cons_self
    have hrest := ih fun e he => h e (List.mem_cons_of_mem _ he)
    rw [List.filterMap_cons]
    exact congrArg (_ :: ·) hrest

/-- A table contains what its places hold if it is an array. -/
theorem contains_array (hm : m.Settled) (h : m.IsArray id n) {w : Value} :
    m.Contains (.table id) w ↔ ∃ i < n, m.rawGet id (placeKey i) [] = w := by
  have hread {i : Nat} {w : Value} := hm.mem_entries_iff (.inl ⟨n, h⟩) (w := w) (placeKey_mem_canonicalKeys i)
  rw [contains_table]
  constructor
  · rintro ⟨key, he⟩
    obtain ⟨i, hi, rfl⟩ := (h.mem_keys_iff hm).mp ⟨w, he⟩
    exact ⟨i, hi, (hread.mp he).1⟩
  · rintro ⟨i, hi, rfl⟩
    obtain ⟨w, he⟩ := (h.mem_keys_iff hm).mpr ⟨i, hi, rfl⟩
    exact ⟨_, (hread.mp he).1.symm ▸ he⟩

/-- A table contains the values of its members if it is a record. -/
theorem contains_record (h : m.IsRecord id) {w : Value} :
    m.Contains (.table id) w ↔ ∃ member ∈ namedEntries m id, member.2 = w := by
  rw [contains_table, entries_of_record h]
  simp

/-- An array or a record is an array or a record with members; an empty table is an array without places. -/
theorem array_or_record (hkeyed : (∃ n, m.IsArray id n) ∨ m.IsRecord id) :
    (∃ n, m.IsArray id n) ∨ (m.IsRecord id ∧ m.entries id [] ≠ []) := by
  rcases hkeyed with h | h
  · exact .inl h
  · by_cases hnone : m.entries id [] = []
    · refine .inl ⟨0, fun key => ?_⟩
      simp only [hnone, List.not_mem_nil, exists_false, false_iff, not_exists]
      omega
    · exact .inr ⟨h, hnone⟩

/-- A table without a name can be written exactly if it is not being written and all that it contains can. -/
theorem exists_ofValueWithin_table (hm : m.Settled) (hkeyed : (∃ n, m.IsArray id n) ∨ m.IsRecord id)
    (hname : nameIn? names? (.table id) = none) (fuel : Nat) {path : List TableId} :
    (∃ j, ofValueWithin m names? (fuel + 1) path (.table id) = .ok j) ↔
      id ∉ path ∧ ∀ w, m.Contains (.table id) w → ∃ j, ofValueWithin m names? fuel (id :: path) w = .ok j := by
  by_cases hseen : id ∈ path
  · simp [ofValueWithin_circular hname, hseen]
  · simp only [hseen, not_false_eq_true, true_and]
    rcases array_or_record hkeyed with ⟨n, h⟩ | ⟨h, hsome⟩
    · simp only [ofValueWithin_array hm h hname fuel hseen, exists_map_eq_ok, exists_mapM_eq_ok, List.mem_range,
        contains_array hm h]
      exact ⟨fun hall w ⟨i, hi, hw⟩ => hw ▸ hall i hi, fun hall i hi => hall _ ⟨i, hi, rfl⟩⟩
    · simp only [ofValueWithin_record h hsome hname fuel hseen, exists_map_eq_ok, exists_mapM_eq_ok, contains_record h]
      exact ⟨fun hall w ⟨member, hmem, hw⟩ => hw ▸ hall member hmem, fun hall member hmem => hall _ ⟨member, hmem, rfl⟩⟩

/-- A value that is no table and has no name can be written if JSON can express it. -/
theorem exists_ofValueWithin_of_scalar {v : Value} (hname : nameIn? names? v = none) (hscalar : ∀ id, v ≠ .table id)
    (fuel : Nat) (path : List TableId) : (∃ j, ofValueWithin m names? fuel path v = .ok j) ↔ Expressible v := by
  rw [nameIn?] at hname
  unfold ofValueWithin
  rw [hname]
  cases v with
  | table id => exact absurd rfl (hscalar id)
  | float x =>
    rw [Expressible, ← isFinite_iff]
    by_cases hfinite : isFinite x.value = true <;> simp [hfinite]
  | nil | bool | int | str | closure | native | userdata | thread => simp [Expressible]

/-- Only tables contain anything. -/
theorem not_contains_of_scalar {v : Value} (hscalar : ∀ id, v ≠ .table id) (w : Value) : ¬m.Contains v w := by
  rintro ⟨id, -, rfl, -⟩
  exact hscalar id rfl

theorem reached_of_scalar_ok {fuel : Nat} {path : List TableId} {v w : Value} (hscalar : ∀ id, v ≠ .table id)
    (hok : ∃ j, ofValueWithin m none fuel path v = .ok j) (hreach : Relation.ReflTransGen m.Contains v w) :
    Expressible w ∧ ¬Relation.TransGen m.Contains w w ∧ ∀ id ∈ path, w ≠ .table id := by
  rcases Relation.ReflTransGen.cases_head hreach with rfl | ⟨child, hchild, -⟩
  · refine ⟨(exists_ofValueWithin_of_scalar (nameIn?_none v) hscalar fuel path).mp hok, fun hloop => ?_,
      fun id _ => hscalar id⟩
    obtain ⟨child, hchild, -⟩ := Relation.TransGen.head'_iff.mp hloop
    exact not_contains_of_scalar hscalar child hchild
  · exact absurd hchild (not_contains_of_scalar hscalar child)

/-- What can be written within some tables reaches none of them and nothing that JSON cannot express, and no table
that contains itself. -/
theorem reached_of_ok (hm : m.DataHeap) {fuel : Nat} {path : List TableId} {v w : Value}
    (hok : ∃ j, ofValueWithin m none fuel path v = .ok j) (hreach : Relation.ReflTransGen m.Contains v w) :
    Expressible w ∧ ¬Relation.TransGen m.Contains w w ∧ ∀ id ∈ path, w ≠ .table id := by
  induction fuel generalizing path v with
  | zero =>
    have hscalar : ∀ id, v ≠ .table id := by
      rintro id rfl
      obtain ⟨j, hj⟩ := hok
      cases hj
    exact reached_of_scalar_ok hscalar hok hreach
  | succ fuel ih =>
    by_cases htable : ∃ id, v = .table id
    · obtain ⟨id, rfl⟩ := htable
      obtain ⟨hfresh, hall⟩ :=
        (exists_ofValueWithin_table hm.toSettled (hm.keyed id) (nameIn?_none (.table id)) fuel).mp hok
      rcases Relation.ReflTransGen.cases_head hreach with rfl | ⟨child, hchild, hrest⟩
      · refine ⟨trivial, fun hloop => ?_, fun other hother heq => ?_⟩
        · obtain ⟨child, hchild, hback⟩ := Relation.TransGen.head'_iff.mp hloop
          exact (ih (hall child hchild) hback).2.2 id List.mem_cons_self rfl
        · cases heq
          exact hfresh hother
      · obtain ⟨hform, hloop, hpath⟩ := ih (hall child hchild) hrest
        exact ⟨hform, hloop, fun other hother => hpath other (List.mem_cons_of_mem _ hother)⟩
    · exact reached_of_scalar_ok (fun id h => htable ⟨id, h⟩) hok hreach

/-- A table without a place among the machine's is empty. -/
theorem empty_of_le (hout : m.tables.size ≤ id.index) :
    m.entries id [] = [] ∧ (m.table id).length (m.context id []) = 0 := by
  refine ⟨entries_of_le hout [], ?_⟩
  simp [table_of_le hout, Table.length, Table.new, HashPart.empty]

theorem index_lt_of_contains {w : Value} (h : m.Contains (.table id) w) : id.index < m.tables.size := by
  obtain ⟨key, he⟩ := contains_table.mp h
  by_contra hout
  simp [(empty_of_le (Nat.not_lt.mp hout)).1] at he

/-- Different tables of the machine are no more than it has. -/
theorem length_path_le {path : List TableId} (hnodup : path.Nodup) (hrange : ∀ id ∈ path, id.index < m.tables.size) :
    path.length ≤ m.tables.size := by
  have hindices : (path.map TableId.index).Nodup :=
    hnodup.map fun a b h => by cases a; cases b; cases h; rfl
  have hsubset : path.map TableId.index ⊆ List.range m.tables.size := by
    intro i hi
    obtain ⟨id, hid, rfl⟩ := List.mem_map.mp hi
    exact List.mem_range.mpr (hrange id hid)
  simpa using (List.subperm_of_subset hindices hsubset).length_le

/-- Plain data can be written wherever it is not inside itself, with steps for the tables that are left. -/
theorem ok_of_plain (hm : m.Settled) {fuel : Nat} {path : List TableId} {v : Value} (hplain : PlainUpTo names? m v)
    (hkeyed : KeyedUpTo names? m v) (hnodup : path.Nodup) (hrange : ∀ id ∈ path, id.index < m.tables.size)
    (houter : ∀ id ∈ path, Relation.TransGen (Shows names? m) (.table id) v)
    (hfuel : m.tables.size < fuel + path.length) : ∃ j, ofValueWithin m names? fuel path v = .ok j := by
  induction fuel generalizing path v with
  | zero =>
    have := length_path_le hnodup hrange
    omega
  | succ fuel ih =>
    cases hname : nameIn? names? v with
    | some name => exact ⟨_, ofValueWithin_named hname (fuel + 1) path⟩
    | none =>
      by_cases htable : ∃ id, v = .table id
      · obtain ⟨id, rfl⟩ := htable
        have hfresh : id ∉ path := fun hseen => (hplain _ .refl).2 (houter id hseen)
        refine (exists_ofValueWithin_table hm (hkeyed id .refl hname) hname fuel).mpr ⟨hfresh, fun child hchild => ?_⟩
        have hshows : Shows names? m (.table id) child := ⟨hname, hchild⟩
        refine ih (hplain.of_shows hshows) (hkeyed.of_shows hshows) ?_ ?_ ?_ ?_
        · exact List.nodup_cons.mpr ⟨hfresh, hnodup⟩
        · exact List.forall_mem_cons.mpr ⟨index_lt_of_contains hchild, hrange⟩
        · exact List.forall_mem_cons.mpr ⟨.single hshows, fun other hother => (houter other hother).tail hshows⟩
        · rw [List.length_cons]
          omega
      · exact (exists_ofValueWithin_of_scalar hname (fun id h => htable ⟨id, h⟩) _ path).mpr ((hplain v .refl).1 hname)

/-- A value can be written exactly if it is plain data. -/
theorem exists_ofValue_iff (hm : m.DataHeap) (v : Value) : (∃ j, ofValue m none v = .ok j) ↔ m.Plain v := by
  constructor
  · intro hok w hreach
    obtain ⟨hform, hloop, -⟩ := reached_of_ok hm hok hreach
    exact ⟨hform, hloop⟩
  · intro hplain
    exact ok_of_plain hm.toSettled (plainUpTo_none.mpr hplain) (fun id _ _ => hm.keyed id) List.nodup_nil (by simp)
      (by simp) (by simp)

/-- Enough nesting for the tables that are left is as good as any more. -/
theorem ofValueWithin_eq_of_le {fuel more : Nat} {path : List TableId} (v : Value) (hle : fuel ≤ more)
    (hnodup : path.Nodup) (hrange : ∀ id ∈ path, id.index < m.tables.size)
    (hfuel : m.tables.size < fuel + path.length) :
    ofValueWithin m none more path v = ofValueWithin m none fuel path v := by
  induction fuel generalizing more path v with
  | zero =>
    have := length_path_le hnodup hrange
    omega
  | succ fuel ih =>
    obtain ⟨more, rfl⟩ : ∃ k, more = k + 1 := ⟨more - 1, by omega⟩
    by_cases htable : ∃ id, v = .table id
    · obtain ⟨id, rfl⟩ := htable
      by_cases hseen : id ∈ path
      · rw [ofValueWithin_circular (nameIn?_none _) _ hseen, ofValueWithin_circular (nameIn?_none _) _ hseen]
      · rw [ofValueWithin_table (nameIn?_none _) _ hseen, ofValueWithin_table (nameIn?_none _) _ hseen]
        by_cases hin : id.index < m.tables.size
        · have hinner (w : Value) :
              ofValueWithin m none more (id :: path) w = ofValueWithin m none fuel (id :: path) w :=
            ih w (by omega) (List.nodup_cons.mpr ⟨hseen, hnodup⟩) (List.forall_mem_cons.mpr ⟨hin, hrange⟩)
              (by rw [List.length_cons]; omega)
          simp only [hinner]
        · obtain ⟨hentries, hlength⟩ := empty_of_le (Nat.not_lt.mp hin)
          simp [hlength, namedEntries, hentries]
    · unfold ofValueWithin
      cases v with
      | table id => exact absurd ⟨id, rfl⟩ htable
      | nil | bool | int | float | str | closure | native | userdata | thread => rfl

/-- Writing ends by itself: however deep it may nest, from one level for each table on, it gives the same. -/
theorem ofValueWithin_eq_ofValue (m : Machine) {fuel : Nat} (hfuel : m.tables.size < fuel) (v : Value) :
    ofValueWithin m none fuel [] v = ofValue m none v :=
  ofValueWithin_eq_of_le v hfuel List.nodup_nil (by simp) (by simp)

end Json

end LuaMachine
