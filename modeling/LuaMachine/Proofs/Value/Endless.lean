import LuaMachine.Proofs.Value.Overflow

namespace LuaMachine.Arithmetic

open Binary (nearestInt nearestInt_neg nearestInt_nearestInt nearestInt_error natAbs_nearestInt_le nearestInt_of_lt
  nearestInt_of_close nearestInt_of_below two_pow_le_nearestInt_iff)

variable {init limit step index : Int}

/-- A loop over integers is left some time after an index. -/
inductive Ends (limit step : Int) : Int → Prop
  | stops {index : Int} (h : ¬GoesOn limit step index) : Ends limit step index
  | next {index : Int} (h : Ends limit step (nextIndex step index)) : Ends limit step index

theorem ends_iff : Ends limit step index ↔ (GoesOn limit step index → Ends limit step (nextIndex step index)) := by
  constructor
  · intro h hgoes
    cases h with
    | stops hstops => exact absurd hgoes hstops
    | next h => exact h
  · intro h
    by_cases hgoes : GoesOn limit step index
    · exact .next (h hgoes)
    · exact .stops hgoes

/-- An index that does not move never ends a loop. -/
theorem not_ends_of_stuck (hgoes : GoesOn limit step index) (hnext : nextIndex step index = index) :
    ¬Ends limit step index := by
  intro h
  induction h with
  | stops hstops => exact hstops hgoes
  | next _ ih =>
    rw [hnext] at ih
    exact ih hgoes hnext

/-- An index that rises as long as the loop goes on, but not beyond a bound, ends it. -/
theorem Ends.of_rising (f : Int → Int) (bound : Int) (stays : Int → Prop)
    (h : ∀ {index}, stays index → GoesOn limit step index →
      stays (nextIndex step index) ∧ f index < f (nextIndex step index) ∧ f (nextIndex step index) ≤ bound)
    (hstays : stays index) : Ends limit step index := by
  obtain ⟨room, hroom⟩ : ∃ room, room = (bound - f index).toNat := ⟨_, rfl⟩
  induction room using Nat.strong_induction_on generalizing index with
  | _ room ih =>
    refine ends_iff.mpr fun hgoes => ?_
    obtain ⟨hstays', hrises, hbound⟩ := h hstays hgoes
    exact ih _ (by omega) hstays' rfl

section Large

/-- The double of the next index is a step further, except for at most 1024. -/
theorem nearestInt_nextIndex (index step : Int) (hsum : (nearestInt index + nearestInt step).natAbs ≤ 2 ^ 64) :
    ∃ way, (way = step ∨ way = nearestInt step) ∧ nearestInt index + way - 1024 ≤ nearestInt (nextIndex step index) ∧
      nearestInt (nextIndex step index) ≤ nearestInt index + way + 1024 := by
  rw [nextIndex]
  split
  · rename_i hrange
    obtain ⟨⟨hlow, hhigh⟩, hlow', hhigh'⟩ := hrange
    have herror := nearestInt_error (i := index) 10 (by omega)
    have herror' := nearestInt_error (i := index + step) 10 (by omega)
    exact ⟨step, .inl rfl, by omega, by omega⟩
  · have herror := nearestInt_error 11 hsum
    rw [nearestInt_nearestInt]
    exact ⟨nearestInt step, .inr rfl, by omega, by omega⟩

theorem nearestInt_pos_iff (step : Int) : 0 < nearestInt step ↔ 0 < step := by
  constructor
  · intro h
    by_contra hnot
    have hneg := Binary.le_nearestInt (i := -step) 0 le_rfl (by norm_num) (by omega)
    rw [nearestInt_neg] at hneg
    omega
  · exact fun h => Binary.le_nearestInt 1 (by norm_num) (by norm_num) h

theorem within_nearestInt : Within limit (nearestInt step) index ↔ Within limit step index := by
  simp only [Within, nearestInt_pos_iff]

theorem within_self : Within index step index := by
  rw [Within]
  split <;> rfl

/-- No next index of a loop that goes on is far beyond the integers of 64 bits. -/
theorem GoesOn.exists_bound (hlimit : InRange limit) (hgoes : GoesOn limit step index) :
    ∃ bound : Int, bound.natAbs ≤ 2 ^ 63 ∧ Within bound step (nearestInt (nextIndex step index)) := by
  rw [GoesOn] at hgoes
  split at hgoes
  · rename_i hrange
    obtain ⟨hlow, hhigh⟩ := hrange.2
    rw [nextIndex, if_pos hrange]
    exact ⟨nearestInt (index + step), natAbs_nearestInt_le 10 (by omega), within_self⟩
  · rename_i hrange
    obtain ⟨hlow, hhigh⟩ := hlimit
    rw [nextIndex, if_neg hrange, within_nearestInt] at hgoes
    rw [nextIndex, if_neg hrange, nearestInt_nearestInt]
    exact ⟨nearestInt limit, natAbs_nearestInt_le 10 (by omega), hgoes⟩

/-- The indices that a loop comes to, as doubles: from a step before the integers of 64 bits to just beyond them. -/
def Stays (step index : Int) : Prop :=
  if 0 < step then -2 ^ 64 ≤ nearestInt index ∧ nearestInt index ≤ 2 ^ 63
  else -2 ^ 63 ≤ nearestInt index ∧ nearestInt index ≤ 2 ^ 64

theorem Stays.natAbs_le (h : Stays step index) : (nearestInt index).natAbs ≤ 2 ^ 64 := by
  rw [Stays] at h
  split at h <;> omega

/-- Rounding keeps a number of a loop between the bounds of its indices. -/
theorem stays_of_bounds (h : if 0 < step then -2 ^ 64 ≤ index ∧ index ≤ 2 ^ 63 else -2 ^ 63 ≤ index ∧ index ≤ 2 ^ 64) :
    Stays step index := by
  have hlarge (h : index.natAbs ≤ 2 ^ 64) := natAbs_nearestInt_le (i := index) 11 h
  have hsmall (h : index.natAbs ≤ 2 ^ 63) := natAbs_nearestInt_le (i := index) 10 h
  have hpositive := nearestInt_pos_iff index
  have hnegative := nearestInt_pos_iff (-index)
  rw [nearestInt_neg] at hnegative
  rw [Stays]
  split at h <;> rename_i hsign
  · rw [if_pos hsign]
    omega
  · rw [if_neg hsign]
    omega

theorem stays_nearestInt : Stays step (nearestInt index) ↔ Stays step index := by
  simp only [Stays, nearestInt_nearestInt]

/-- A loop starts on the side of its first index that its step comes from. -/
theorem stays_startIndex (hinit : InRange init) (hstep : InRange step) : Stays step (startIndex init step) := by
  obtain ⟨hinitLow, hinitHigh⟩ := hinit
  obtain ⟨hstepLow, hstepHigh⟩ := hstep
  rw [startIndex]
  by_cases hrange : InRange (init - step)
  · have hlow := hrange.1
    have hhigh := hrange.2
    rw [if_pos hrange]
    exact stays_of_bounds (by split <;> omega)
  · have hboundI := natAbs_nearestInt_le (i := init) 10 (by omega)
    have hboundS := natAbs_nearestInt_le (i := step) 10 (by omega)
    have hsign := nearestInt_pos_iff step
    rw [if_neg hrange, stays_nearestInt]
    exact stays_of_bounds (by split <;> omega)

/-- A loop that goes on stays between its bounds. -/
theorem Stays.next (h : Stays step index) (hlimit : InRange limit) (hstep : InRange step)
    (hgoes : GoesOn limit step index) : Stays step (nextIndex step index) := by
  obtain ⟨hlow, hhigh⟩ := hstep
  by_cases hrange : InRange index ∧ InRange (index + step)
  · obtain ⟨hnextLow, hnextHigh⟩ := hrange.2
    rw [nextIndex, if_pos hrange]
    exact stays_of_bounds (by split <;> omega)
  · obtain ⟨bound, hbound, hwithin⟩ := hgoes.exists_bound hlimit
    have hboundS := natAbs_nearestInt_le (i := step) 10 (by omega)
    have hsign := nearestInt_pos_iff step
    rw [nextIndex, if_neg hrange] at hwithin ⊢
    generalize hsum : nearestInt index + nearestInt step = sum at hwithin ⊢
    have hlarge (h : sum.natAbs ≤ 2 ^ 64) := natAbs_nearestInt_le (i := sum) 11 h
    have hpositive := nearestInt_pos_iff sum
    have hnegative := nearestInt_pos_iff (-sum)
    rw [nearestInt_neg] at hnegative
    -- the limit keeps it on the side that the step leads to
    rw [nearestInt_nearestInt, Within] at hwithin
    rw [stays_nearestInt]
    rw [Stays] at h ⊢
    split at h <;> rename_i hup
    · rw [if_pos hup] at hwithin ⊢
      omega
    · rw [if_neg hup] at hwithin ⊢
      omega

/-- A loop ends whose step is too large to be lost in rounding. -/
theorem ends_of_large (hlimit : InRange limit) (hstep : InRange step) (hlarge : 1024 < step ∨ step < -1024)
    (hstays : Stays step index) : Ends limit step index := by
  have hlow := hstep.1
  have hhigh := hstep.2
  have hway := natAbs_nearestInt_le (i := step) 10 (by omega)
  obtain hlarge | hlarge := hlarge
  · have hup := Binary.le_nearestInt 1025 (by norm_num) (by norm_num) hlarge
    refine Ends.of_rising nearestInt (2 ^ 63) (Stays step)
      (fun {index} hstays hgoes => ⟨hstays.next hlimit hstep hgoes, ?_⟩) hstays
    have hnext := hstays.next hlimit hstep hgoes
    rw [Stays, if_pos (by omega)] at hstays hnext
    obtain ⟨way, hway, hle, -⟩ := nearestInt_nextIndex index step (by omega)
    omega
  · have hdown := Binary.le_nearestInt (i := -step) 1025 (by norm_num) (by norm_num) (by omega)
    rw [nearestInt_neg] at hdown
    refine Ends.of_rising (-nearestInt ·) (2 ^ 63) (Stays step)
      (fun {index} hstays hgoes => ⟨hstays.next hlimit hstep hgoes, ?_⟩) hstays
    have hnext := hstays.next hlimit hstep hgoes
    rw [Stays, if_neg (by omega)] at hstays hnext
    obtain ⟨way, hway, -, hle⟩ := nearestInt_nextIndex index step (by omega)
    omega

end Large

section Edges

/-- In range, a loop goes on until its index is beyond the limit. -/
theorem ends_iff_of_inRange (hindex : InRange index) (hnext : InRange (index + step)) :
    Ends limit step index ↔ (Within limit step (index + step) → Ends limit step (index + step)) := by
  rw [ends_iff, GoesOn, if_pos ⟨hindex, hnext⟩, nextIndex, if_pos ⟨hindex, hnext⟩]

/-- Out of range, it goes on in doubles. -/
theorem ends_iff_of_double (hdouble : ¬(InRange index ∧ InRange (index + step))) {next : Int}
    (hnext : nearestInt (nearestInt index + nearestInt step) = next) :
    Ends limit step index ↔ (Within (nearestInt limit) step next → Ends limit step next) := by
  rw [ends_iff, GoesOn, if_neg hdouble, nextIndex, if_neg hdouble, within_nearestInt, hnext]

/-- A small step from one of the last integers leads to the double just beyond them, -/
theorem nearestInt_top (step index : Int) (hpositive : 0 < step) (hsmall : step ≤ 1024) (hindex : index ≤ 2 ^ 63)
    (hbeyond : 2 ^ 63 ≤ index + step) : nearestInt (nearestInt index + nearestInt step) = 2 ^ 63 := by
  rw [nearestInt_of_lt (i := step) (by omega)]
  by_cases hclose : 2 ^ 63 - 512 ≤ index
  · rw [nearestInt_of_close hclose (by omega), nearestInt_of_close (by omega) (by omega)]
  · rw [nearestInt_of_below (i := index) (by omega) (by omega), nearestInt_of_close (by omega) (by omega)]

/-- and one from the first integers to the first one. -/
theorem nearestInt_bottom (step index : Int) (hnegative : step < 0) (hsmall : -1024 ≤ step) (hindex : -2 ^ 63 ≤ index)
    (hbeyond : index + step ≤ -2 ^ 63) : nearestInt (nearestInt index + nearestInt step) = -2 ^ 63 := by
  have htop := nearestInt_top (-step) (-index) (by omega) (by omega) (by omega) (by omega)
  rw [nearestInt_neg, nearestInt_neg, ← Int.neg_add, nearestInt_neg] at htop
  omega

/-- There a loop ends only if its limit is not taken for that double. -/
theorem ends_iff_at_top (hpositive : 0 < step) (hsmall : step ≤ 1024) (hlimit : InRange limit) (hindex : index ≤ 2 ^ 63)
    (hbeyond : 2 ^ 63 ≤ index + step) : Ends limit step index ↔ ¬2 ^ 63 - 512 ≤ limit := by
  have hreaches : Within (nearestInt limit) step (2 ^ 63) ↔ 2 ^ 63 - 512 ≤ limit := by
    rw [within_of_pos hpositive, two_pow_le_nearestInt_iff hlimit.2.le]
  have hdouble {p : Int} (h : 2 ^ 63 ≤ p + step) : ¬(InRange p ∧ InRange (p + step)) := fun hrange => by
    have := hrange.2.2
    omega
  rw [ends_iff_of_double (hdouble hbeyond) (nearestInt_top _ _ hpositive hsmall hindex hbeyond), hreaches]
  refine ⟨fun h hedge => ?_, fun h hedge => absurd hedge h⟩
  have hstays := nearestInt_top step (2 ^ 63) hpositive hsmall le_rfl (by omega)
  refine not_ends_of_stuck ?_ ?_ (h hedge)
  · rwa [GoesOn, if_neg (hdouble (by omega)), within_nearestInt, nextIndex, if_neg (hdouble (by omega)), hstays,
      hreaches]
  · rwa [nextIndex, if_neg (hdouble (by omega))]

/-- The same at the first integer. -/
theorem ends_iff_at_bottom (hnegative : step < 0) (hsmall : -1024 ≤ step) (hlimit : InRange limit)
    (hindex : -2 ^ 63 ≤ index) (hbeyond : index + step < -2 ^ 63) :
    Ends limit step index ↔ ¬limit ≤ -2 ^ 63 + 512 := by
  have hreaches : Within (nearestInt limit) step (-2 ^ 63) ↔ limit ≤ -2 ^ 63 + 512 := by
    have hlow := hlimit.1
    have htop := two_pow_le_nearestInt_iff (i := -limit) (by omega)
    rw [nearestInt_neg] at htop
    rw [within_of_neg hnegative]
    omega
  have hdouble {p : Int} (h : p + step < -2 ^ 63) : ¬(InRange p ∧ InRange (p + step)) := fun hrange => by
    have := hrange.2.1
    omega
  rw [ends_iff_of_double (hdouble hbeyond) (nearestInt_bottom _ _ hnegative hsmall hindex hbeyond.le), hreaches]
  refine ⟨fun h hedge => ?_, fun h hedge => absurd hedge h⟩
  have hstays := nearestInt_bottom step (-2 ^ 63) hnegative hsmall le_rfl (by omega)
  refine not_ends_of_stuck ?_ ?_ (h hedge)
  · rwa [GoesOn, if_neg (hdouble (by omega)), within_nearestInt, nextIndex, if_neg (hdouble (by omega)), hstays,
      hreaches]
  · rwa [nextIndex, if_neg (hdouble (by omega))]

end Edges

section Climbing

variable {top : Int} {edge : Prop}

/-- What comes of an index that rises in steps to a limit, if there is an edge in its way. -/
theorem ends_iff_of_climbing (ends : Int → Prop) (bottom : Int) (hpositive : 0 < step)
    (hinside : ∀ u, bottom ≤ u → u + step ≤ top → (ends u ↔ (u + step ≤ limit → ends (u + step))))
    (hedge : ∀ u, u ≤ top → top < u + step → (ends u ↔ ¬edge)) {u : Int} (hlow : bottom ≤ u) (hhigh : u ≤ top)
    (hbelow : u ≤ limit ∨ u + step ≤ top) : ends u ↔ ¬(edge ∧ top - limit ≤ (top - u) % step) := by
  obtain ⟨room, hroom⟩ : ∃ room, room = (top - u).toNat := ⟨_, rfl⟩
  induction room using Nat.strong_induction_on generalizing u with
  | _ room ih =>
    by_cases hfits : u + step ≤ top
    · have hrest : (top - u) % step = (top - (u + step)) % step := by
        rw [← Int.sub_sub, Int.sub_emod_right]
      rw [hinside u hlow hfits, hrest]
      by_cases hwithin : u + step ≤ limit
      · rw [← ih _ (by omega) (by omega) hfits (.inl hwithin) rfl]
        exact ⟨fun h => h hwithin, fun h _ => h⟩
      · have hle : (top - (u + step)) % step ≤ top - (u + step) := by
          have hquotient := Int.ediv_nonneg (show 0 ≤ top - (u + step) by omega) hpositive.le
          have hsplit := Int.mul_ediv_add_emod (top - (u + step)) step
          have := Int.mul_nonneg hpositive.le hquotient
          omega
        refine iff_of_true (fun h => absurd h hwithin) fun h => ?_
        omega
    · rw [hedge u hhigh (by omega), Int.emod_eq_of_lt (by omega) (by omega)]
      have hlimit := hbelow.resolve_right hfits
      exact not_congr ⟨fun h => ⟨h, by omega⟩, fun h => h.1⟩

/-- A loop with a small step up. -/
theorem ends_iff_of_up (hpositive : 0 < step) (hsmall : step ≤ 1024) (hlimit : InRange limit) (hindex : InRange index)
    (hbelow : index ≤ limit ∨ index + step < 2 ^ 63) :
    Ends limit step index ↔ ¬(2 ^ 63 - 512 ≤ limit ∧ 2 ^ 63 - 1 - limit ≤ (2 ^ 63 - 1 - index) % step) := by
  refine ends_iff_of_climbing _ (-2 ^ 63) hpositive (fun u hlow hfits => ?_) (fun u hhigh hbeyond => ?_)
    hindex.1 (by have := hindex.2; omega) (by omega)
  · rw [ends_iff_of_inRange ⟨hlow, by omega⟩ ⟨by omega, by omega⟩, within_of_pos hpositive]
  · exact ends_iff_at_top hpositive hsmall hlimit (by omega) (by omega)

/-- A loop with a small step down. -/
theorem ends_iff_of_down (hnegative : step < 0) (hsmall : -1024 ≤ step) (hlimit : InRange limit)
    (hindex : InRange index) (hbelow : limit ≤ index ∨ -2 ^ 63 ≤ index + step) :
    Ends limit step index ↔ ¬(limit ≤ -2 ^ 63 + 512 ∧ 2 ^ 63 + limit ≤ (2 ^ 63 + index) % -step) := by
  obtain ⟨hlow, hhigh⟩ := hindex
  -- the indices climb with their signs changed
  have hclimbs : Ends limit step (- -index) ↔
      ¬(limit ≤ -2 ^ 63 + 512 ∧ 2 ^ 63 - -limit ≤ (2 ^ 63 - -index) % -step) := by
    refine ends_iff_of_climbing (fun u => Ends limit step (-u)) (-2 ^ 63 + 1) (by omega) (fun u hlow hfits => ?_)
      (fun u hhigh hbeyond => ?_) (by omega) (by omega) (by omega)
    · have hnext : -(u + -step) = -u + step := by omega
      rw [hnext, ends_iff_of_inRange ⟨by omega, by omega⟩ ⟨by omega, by omega⟩, within_of_neg hnegative]
      exact imp_congr ⟨fun h => by omega, fun h => by omega⟩ Iff.rfl
    · exact ends_iff_at_bottom hnegative hsmall hlimit (by omega) (by omega)
  rwa [Int.neg_neg, Int.sub_neg, Int.sub_neg] at hclimbs

end Climbing

/-- A loop over integers never ends: with a small step its index comes to the end of the integers of 64 bits, and to a
limit that is as near to it, and rounding keeps it there. One with a step down may start from beyond the last integer
and stay there at once. -/
def Spins (init limit step : Int) : Prop :=
  if 0 < step then
    step ≤ 1024 ∧ 2 ^ 63 - 512 ≤ limit ∧ 2 ^ 63 - 1 - limit ≤ (2 ^ 63 - 1 - max (init - step) (-2 ^ 63)) % step
  else
    -512 ≤ step ∧ 2 ^ 63 ≤ init - step ∨
    -1024 ≤ step ∧ limit ≤ -2 ^ 63 + 512 ∧
      2 ^ 63 + limit ≤ (2 ^ 63 + if init - step < 2 ^ 63 then init - step else 2 ^ 63 - 1024) % -step

section Starting

variable (hinit : InRange init) (hlimit : InRange limit)

include hinit in
theorem startIndex_of_up (hpositive : 0 < step) (hsmall : step ≤ 1024) :
    startIndex init step = max (init - step) (-2 ^ 63) := by
  obtain ⟨hlow, hhigh⟩ := hinit
  rw [startIndex]
  split
  · rename_i hrange
    exact (max_eq_left hrange.1).symm
  · rename_i hrange
    have hbelow : init - step < -2 ^ 63 := by
      by_contra hnot
      exact hrange ⟨by omega, by omega⟩
    have hbottom := nearestInt_bottom (-step) init (by omega) (by omega) hlow (by omega)
    rw [nearestInt_neg, ← Int.sub_eq_add_neg] at hbottom
    rw [hbottom, max_eq_right hbelow.le]

include hinit in
theorem startIndex_of_down (hnegative : step < 0) (hsmall : -1024 ≤ step) :
    startIndex init step = if init - step < 2 ^ 63 then init - step else 2 ^ 63 := by
  obtain ⟨hlow, hhigh⟩ := hinit
  rw [startIndex]
  by_cases hbelow : init - step < 2 ^ 63
  · rw [if_pos ⟨by omega, hbelow⟩, if_pos hbelow]
  · have htop := nearestInt_top (-step) init (by omega) (by omega) (by omega) (by omega)
    rw [nearestInt_neg, ← Int.sub_eq_add_neg] at htop
    rw [if_neg fun hrange => hbelow hrange.2, if_neg hbelow, htop]

include hlimit in
/-- From the double beyond the last integer a step down of at most 512 leads nowhere. -/
theorem ends_iff_from_top (hnegative : step < 0) (hsmall : -1024 ≤ step) :
    Ends limit step (2 ^ 63) ↔ ¬(-512 ≤ step ∨ limit ≤ -2 ^ 63 + 512 ∧
      2 ^ 63 + limit ≤ (2 ^ 63 + (2 ^ 63 - 1024)) % -step) := by
  have hlimitLow := hlimit.1
  have hlimitHigh := hlimit.2
  have hdouble : ¬(InRange (2 ^ 63) ∧ InRange (2 ^ 63 + step)) := fun hrange => by
    have := hrange.1.2
    omega
  have hbound := natAbs_nearestInt_le (i := limit) 10 (by omega)
  have hsum : nearestInt (nearestInt (2 ^ 63) + nearestInt step) = nearestInt (2 ^ 63 + step) := by
    rw [nearestInt_of_close (i := 2 ^ 63) (by omega) (by omega), nearestInt_of_lt (i := step) (by omega)]
  by_cases hstuck : -512 ≤ step
  · rw [nearestInt_of_close (i := 2 ^ 63 + step) (by omega) (by omega)] at hsum
    refine iff_of_false (not_ends_of_stuck ?_ ?_) fun h => h (.inl hstuck)
    · rw [GoesOn, if_neg hdouble, within_nearestInt, nextIndex, if_neg hdouble, hsum, within_of_neg hnegative]
      omega
    · rwa [nextIndex, if_neg hdouble]
  · rw [nearestInt_of_below (i := 2 ^ 63 + step) (by omega) (by omega)] at hsum
    have herror := nearestInt_error (i := limit) 10 (by omega)
    rw [ends_iff_of_double hdouble hsum, within_of_neg hnegative,
      ends_iff_of_down hnegative hsmall hlimit ⟨by omega, by omega⟩ (.inr (by omega))]
    omega

end Starting

instance (init limit step : Int) : Decidable (Spins init limit step) := by
  unfold Spins
  infer_instance

/-- Which loops over integers end. -/
theorem ends_startIndex_iff (hinit : InRange init) (hlimit : InRange limit) (hstep : InRange step) (hzero : step ≠ 0) :
    Ends limit step (startIndex init step) ↔ ¬Spins init limit step := by
  obtain hnegative | hpositive := Int.lt_or_gt_of_ne hzero
  · rw [Spins, if_neg hnegative.not_gt]
    by_cases hsmall : -1024 ≤ step
    · rw [startIndex_of_down hinit hnegative hsmall]
      have hinitLow := hinit.1
      by_cases hbelow : init - step < 2 ^ 63
      · rw [if_pos hbelow, if_pos hbelow, ends_iff_of_down hnegative hsmall hlimit ⟨by omega, hbelow⟩ (.inr (by omega))]
        omega
      · rw [if_neg hbelow, if_neg hbelow, ends_iff_from_top hlimit hnegative hsmall]
        omega
    · exact iff_of_true (ends_of_large hlimit hstep (.inr (by omega)) (stays_startIndex hinit hstep)) (by omega)
  · rw [Spins, if_pos hpositive]
    by_cases hsmall : step ≤ 1024
    · have hinitHigh := hinit.2
      rw [startIndex_of_up hinit hpositive hsmall,
        ends_iff_of_up hpositive hsmall hlimit ⟨le_max_right .., by omega⟩ (.inr (by omega))]
      omega
    · exact iff_of_true (ends_of_large hlimit hstep (.inl (by omega)) (stays_startIndex hinit hstep)) (by omega)

example : Spins (2 ^ 63 - 1) (2 ^ 63 - 1) 1 ∧ ¬Spins (2 ^ 63 - 101) (2 ^ 63 - 2) 1 := by decide

end LuaMachine.Arithmetic
