import LuaMachine.Proofs.Json.Plain

namespace LuaMachine

open Table

namespace Json

open Machine

/-- The keys of a table. -/
def keys (m : Machine) (id : TableId) : Finset Value := ((m.entries id []).map (·.1)).toFinset

/-- The keys of the first `n` places. -/
def places (n : Nat) : Finset Value := (Finset.range n).image placeKey

/-- What the length of a table is when it is written. -/
def lengthOf (m : Machine) (id : TableId) : Nat := (m.table id).length (m.context id [])

variable {names? : Option ExternalNames} {m : Machine} {id : TableId} {n : Nat} {key : Value}

theorem mem_keys_iff : key ∈ keys m id ↔ ∃ w, (key, w) ∈ m.entries id [] := by
  simp [keys]

theorem mem_places_iff : key ∈ places n ↔ ∃ i < n, key = placeKey i := by
  simp [places, eq_comm]

theorem card_keys (hnodup : ((m.entries id []).map (·.1)).Nodup) : (keys m id).card = (m.entries id []).length := by
  rw [keys, List.toFinset_card_of_nodup hnodup, List.length_map]

theorem card_places (hn : n ≤ maxPlaces) : (places n).card = n := by
  have hinj : Set.InjOn placeKey (Finset.range n) := fun i hi j hj heq =>
    placeKey_injective ((Finset.mem_range.mp hi).trans_le hn) ((Finset.mem_range.mp hj).trans_le hn) heq
  rw [places, Finset.card_image_of_injOn hinj, Finset.card_range]

theorem isArray_iff (hn : n ≤ maxPlaces) : m.IsArray id n ↔ keys m id = places n := by
  simp only [Finset.ext_iff, mem_keys_iff, mem_places_iff, ← exists_int_iff_placeKey hn]
  rfl

/-- The length is in range. -/
theorem lengthOf_le (hm : m.Settled) (id : TableId) : lengthOf m id ≤ maxPlaces :=
  ((hm.tidy.sound id []).length_border (hm.memory id)).2.le

/-- A table is taken for an array if its keys are positive integers, and those beyond its length as many as the places
below it that are no keys. -/
theorem isSequence_iff (hm : m.Settled) (hnodup : ((m.entries id []).map (·.1)).Nodup) :
    isSequence (m.entries id []) (lengthOf m id) = true ↔
      (∀ key ∈ keys m id, ∃ i : Int64, key = .int i ∧ 1 ≤ i) ∧
        (keys m id \ places (lengthOf m id)).card = (places (lengthOf m id) \ keys m id).card := by
  rw [isSequence, Bool.and_eq_true, List.all_eq_true, decide_eq_true_eq]
  refine (and_congr_left fun _ => ?_).trans (and_congr_right fun hpositive => ?_)
  · constructor
    · intro h key hkey
      obtain ⟨w, he⟩ := mem_keys_iff.mp hkey
      have hform := h _ he
      cases key with
      | int i => exact ⟨i, rfl, by simpa using hform⟩
      | nil | bool | float | str | table | closure | native | userdata | thread => cases hform
    · rintro h ⟨key, w⟩ he
      obtain ⟨i, rfl, hlow⟩ := h key (mem_keys_iff.mpr ⟨w, he⟩)
      simpa using hlow
  · rw [Finset.card_sdiff_eq_card_sdiff_iff, card_keys hnodup, card_places (lengthOf_le hm id)]

/-- Without keys beyond its length, a table is taken for an array exactly if it is one. -/
theorem isSequence_iff_isArray (hm : m.Settled) (hnodup : ((m.entries id []).map (·.1)).Nodup)
    (hbeyond : keys m id ⊆ places (lengthOf m id)) :
    isSequence (m.entries id []) (lengthOf m id) = true ↔ ∃ n, m.IsArray id n := by
  constructor
  · intro h
    obtain ⟨-, hcount⟩ := (isSequence_iff hm hnodup).mp h
    rw [Finset.sdiff_eq_empty_iff_subset.mpr hbeyond, Finset.card_empty, eq_comm, Finset.card_eq_zero,
      Finset.sdiff_eq_empty_iff_subset] at hcount
    exact ⟨_, (isArray_iff (lengthOf_le hm id)).mpr (hbeyond.antisymm hcount)⟩
  · rintro ⟨n, h⟩
    obtain ⟨hlength, hsequence⟩ := isSequence_of_array hm h
    rw [lengthOf, hlength]
    exact hsequence

/-- **A table becomes an array if its keys are positive integers, as many beyond its length as are missing below it.**
The array has the places up to the length, so what is beyond it is left out. No key may have two entries, as some of
the last integers may if their hash is that of the double above them. -/
theorem arr_iff (hm : m.Settled) (hnodup : ((m.entries id []).map (·.1)).Nodup)
    (hname : nameIn? names? (.table id) = none) {fuel : Nat} {path : List TableId} {j : Json}
    (hok : ofValueWithin m names? fuel path (.table id) = .ok j) :
    (∃ items, j = .arr items ∧ items.length = lengthOf m id) ↔
      (∀ key ∈ keys m id, ∃ i : Int64, key = .int i ∧ 1 ≤ i) ∧
        (keys m id \ places (lengthOf m id)).card = (places (lengthOf m id) \ keys m id).card := by
  rw [← isSequence_iff hm hnodup]
  cases fuel with
  | zero =>
    rw [ofValueWithin_zero hname] at hok
    cases hok
  | succ fuel =>
    by_cases hseen : id ∈ path
    · rw [ofValueWithin_circular hname _ hseen] at hok
      cases hok
    · rw [ofValueWithin_table hname fuel hseen] at hok
      by_cases hsequence : isSequence (m.entries id []) (lengthOf m id) = true
      · rw [lengthOf] at hsequence ⊢
        rw [if_pos hsequence] at hok
        obtain ⟨items, hitems, rfl⟩ := map_eq_ok.mp hok
        exact iff_of_true ⟨items, rfl, by simpa using (mapM_eq_ok.mp hitems).length_eq.symm⟩ hsequence
      · refine iff_of_false ?_ hsequence
        rw [lengthOf] at hsequence
        rw [if_neg hsequence] at hok
        obtain ⟨members, -, rfl⟩ := map_eq_ok.mp hok
        rintro ⟨items, heq, -⟩
        cases heq

/-- With room for five places, the keys 2 and 4 have the length 2, and so 4 is lost. -/
example :
    let ctx := Context.strong Value.hashCode
    let t := ((Table.new 5 0).setInt ctx 2 (.str "b")).setInt ctx 4 (.str "d")
    ofValue { tables := #[t] } none (.table ⟨0⟩) = .ok (.arr [.null, .str "b"]) := by
  cbv

end Json

end LuaMachine
