import LuaMachine.Proofs.Number.Rounded
import LuaMachine.Value.Basic

namespace LuaMachine

namespace Decimal

/-- A plain decimal: the whole part and, unless the number is whole, a point and a fraction that does not end with
zero. -/
inductive IsDecimal : ℚ → List Char → Prop
  | whole (n : ℕ) : IsDecimal n (Nat.toDigits 10 n)
  | pointed (n : ℕ) {fs : List Char} {c : Char} (hdigits : ∀ d ∈ fs ++ [c], d.isDigit) (hlast : c ≠ '0') :
      IsDecimal (n + Nat.ofDigitChars 10 (fs ++ [c]) 0 / 10 ^ (fs ++ [c]).length)
        (Nat.toDigits 10 n ++ '.' :: (fs ++ [c]))

/-- The text of a positive number that has at most fourteen digits: a plain decimal from `10 ^ -4` on and below
`10 ^ 14`, and elsewhere a plain decimal with one digit before the point and an exponent of at least two digits. -/
inductive Shows (r : ℚ) : List Char → Prop
  | positional {cs : List Char} (hlow : 10 ^ (-4 : ℤ) ≤ r) (hhigh : r < 10 ^ 14) (hcs : IsDecimal r cs) : Shows r cs
  | scientific {e : ℤ} {q : ℚ} {cs : List Char} (hfar : r < 10 ^ (-4 : ℤ) ∨ 10 ^ 14 ≤ r) (hone : 1 ≤ q) (hten : q < 10)
      (hr : r = q * 10 ^ e) (hcs : IsDecimal q cs) :
      Shows r (cs ++ 'e' :: (if e < 0 then '-' else '+') :: (Nat.toDigits 10 e.natAbs).leftpad 2 '0')

section Digits

variable {ds es : List Char}

/-- Digits put together count each by its place. -/
theorem ofDigitChars_append (ds es : List Char) :
    Nat.ofDigitChars 10 (ds ++ es) 0 = Nat.ofDigitChars 10 ds 0 * 10 ^ es.length + Nat.ofDigitChars 10 es 0 := by
  rw [Nat.ofDigitChars_append, Nat.ofDigitChars_eq_ofDigitChars_zero, Nat.mul_comm]

theorem digit_lt {c : Char} (hc : c.isDigit) : c.toNat - '0'.toNat < 10 := by
  simp only [Char.isDigit, Bool.and_eq_true, decide_eq_true_eq] at hc
  have hhigh : c.toNat ≤ 57 := hc.2
  have hzero : '0'.toNat = 48 := rfl
  omega

theorem digit_injective {c d : Char} (hc : c.isDigit) (hd : d.isDigit)
    (h : c.toNat - '0'.toNat = d.toNat - '0'.toNat) : c = d := by
  simp only [Char.isDigit, Bool.and_eq_true, decide_eq_true_eq] at hc hd
  have hlow : 48 ≤ c.toNat := hc.1
  have hlow' : 48 ≤ d.toNat := hd.1
  have hzero : '0'.toNat = 48 := rfl
  exact Char.toNat_inj.mp (by omega)

theorem ofDigitChars_lt (hds : ∀ c ∈ ds, c.isDigit) : Nat.ofDigitChars 10 ds 0 < 10 ^ ds.length := by
  induction ds with
  | nil => simp
  | cons c ds ih =>
    rw [List.forall_mem_cons] at hds
    have hc := digit_lt hds.1
    have hrest := ih hds.2
    rw [Nat.ofDigitChars_cons, Nat.ofDigitChars_eq_ofDigitChars_zero, List.length_cons, Nat.pow_succ]
    nlinarith

/-- As many digits of the same number are the same. -/
theorem eq_of_ofDigitChars (hds : ∀ c ∈ ds, c.isDigit) (hes : ∀ c ∈ es, c.isDigit) (hlength : ds.length = es.length)
    (h : Nat.ofDigitChars 10 ds 0 = Nat.ofDigitChars 10 es 0) : ds = es := by
  induction ds generalizing es with
  | nil => exact (List.length_eq_zero_iff.mp hlength.symm).symm
  | cons c ds ih =>
    cases es with
    | nil => cases hlength
    | cons d es =>
    rw [List.forall_mem_cons] at hds hes
    have hsame : ds.length = es.length := Nat.succ_injective hlength
    have hrest := ofDigitChars_lt hds.2
    have hrest' := ofDigitChars_lt hes.2
    rw [Nat.ofDigitChars_cons, Nat.ofDigitChars_eq_ofDigitChars_zero, Nat.ofDigitChars_cons,
      Nat.ofDigitChars_eq_ofDigitChars_zero (l := es), hsame, Nat.mul_zero, Nat.zero_add, Nat.zero_add] at h
    rw [hsame] at hrest
    have hdiv (a b : ℕ) (hb : b < 10 ^ es.length) : (10 ^ es.length * a + b) / 10 ^ es.length = a := by
      rw [Nat.mul_add_div (Nat.pow_pos (by decide)), Nat.div_eq_of_lt hb, Nat.add_zero]
    have hfirst := congrArg (· / 10 ^ es.length) h
    simp only [hdiv _ _ hrest, hdiv _ _ hrest'] at hfirst
    rw [hfirst] at h
    rw [digit_injective hds.1 hes.1 hfirst, ih hds.2 hes.2 hsame (Nat.add_left_cancel h)]

/-- A row of digits that does not end with zero is not a multiple of ten. -/
theorem ofDigitChars_mod_ten {fs : List Char} {c : Char} (hdigits : ∀ d ∈ fs ++ [c], d.isDigit) (hlast : c ≠ '0') :
    Nat.ofDigitChars 10 (fs ++ [c]) 0 % 10 ≠ 0 := by
  have hc : c.isDigit := hdigits c (by simp)
  have hlt := digit_lt hc
  have hne : c.toNat - '0'.toNat ≠ 0 := fun h => hlast (digit_injective hc (by decide) h)
  rw [ofDigitChars_append]
  simp only [List.length_singleton, Nat.pow_one, Nat.ofDigitChars_cons, Nat.ofDigitChars_nil, Nat.mul_zero,
    Nat.zero_add]
  omega

/-- The digits of a number without the last ones are those of a quotient. -/
theorem take_toDigits {n m : ℕ} (h : 10 ^ m ≤ n) :
    (Nat.toDigits 10 n).take ((Nat.toDigits 10 n).length - m) = Nat.toDigits 10 (n / 10 ^ m) := by
  induction m generalizing n with
  | zero => simp
  | succ m ih =>
    have hpow := Nat.pow_pos (n := m) (show 0 < 10 by decide)
    rw [Nat.pow_succ] at h
    have hquotient : 10 ^ m ≤ n / 10 := (Nat.le_div_iff_mul_le (by decide)).mpr h
    have hsplit : Nat.toDigits 10 n = Nat.toDigits 10 (n / 10) ++ [(n % 10).digitChar] := by
      rw [Nat.toDigits_eq_if (by decide), if_neg (by omega)]
    rw [hsplit, List.length_append, List.length_singleton, Nat.add_sub_add_right,
      List.take_append_of_le_length (Nat.sub_le ..), ih hquotient, Nat.div_div_eq_div_mul, Nat.pow_succ, Nat.mul_comm]

/-- The last digits of a number are those of a remainder. -/
theorem ofDigitChars_drop_toDigits {n m : ℕ} (h : 10 ^ m ≤ n) :
    ((Nat.toDigits 10 n).drop ((Nat.toDigits 10 n).length - m)).length = m ∧
      Nat.ofDigitChars 10 ((Nat.toDigits 10 n).drop ((Nat.toDigits 10 n).length - m)) 0 = n % 10 ^ m := by
  have hlong : m < (Nat.toDigits 10 n).length := by
    by_contra hshort
    rcases Nat.eq_zero_or_pos m with rfl | hm
    · exact hshort Nat.length_toDigits_pos
    · have := (Nat.length_toDigits_le_iff (by decide) hm).mp (Nat.not_lt.mp hshort)
      omega
  have hlength : ((Nat.toDigits 10 n).drop ((Nat.toDigits 10 n).length - m)).length = m := by
    rw [List.length_drop]
    omega
  refine ⟨hlength, ?_⟩
  have hwhole : Nat.ofDigitChars 10 (Nat.toDigits 10 n) 0 = n := Nat.ofDigitChars_toDigits (by decide) (by decide)
  have hparts := ofDigitChars_append ((Nat.toDigits 10 n).take ((Nat.toDigits 10 n).length - m))
    ((Nat.toDigits 10 n).drop ((Nat.toDigits 10 n).length - m))
  rw [List.take_append_drop, hwhole, hlength, take_toDigits h, Nat.ofDigitChars_toDigits (by decide) (by decide)]
    at hparts
  have := Nat.div_add_mod' n (10 ^ m)
  omega

/-- What goes with the zeros at the end of a row, which then does not end with zero. -/
theorem exists_eq_append_zeros (ds : List Char) :
    ∃ zeros, ds = dropTrailingZeros ds ++ List.replicate zeros '0' ∧ (dropTrailingZeros ds).getLast? ≠ some '0' := by
  have hsplit := List.takeWhile_append_dropWhile (p := (· == '0')) (l := ds.reverse)
  refine ⟨(ds.reverse.takeWhile (· == '0')).length, ?_, ?_⟩
  · have hzeros : ds.reverse.takeWhile (· == '0') = List.replicate (ds.reverse.takeWhile (· == '0')).length '0' :=
      List.eq_replicate_iff.mpr ⟨rfl, fun c hc => by simpa using List.mem_takeWhile_imp hc⟩
    rw [dropTrailingZeros, ← List.reverse_replicate, ← hzeros, ← List.reverse_append, hsplit, List.reverse_reverse]
  · rw [dropTrailingZeros, List.getLast?_reverse]
    intro hhead
    have hkept := List.head?_dropWhile_not (· == '0') ds.reverse
    rw [hhead] at hkept
    cases hkept

/-- The whole part and the fraction without the zeros at its end are the plain decimal. -/
theorem isDecimal_withFraction (n : ℕ) (hds : ∀ c ∈ ds, c.isDigit) :
    IsDecimal (n + Nat.ofDigitChars 10 ds 0 / 10 ^ ds.length)
      (Number.withFraction (Nat.toDigits 10 n) (dropTrailingZeros ds)) := by
  obtain ⟨zeros, hsplit, hlast⟩ := exists_eq_append_zeros ds
  generalize dropTrailingZeros ds = kept at hsplit hlast ⊢
  subst hsplit
  have hvalue : (Nat.ofDigitChars 10 (kept ++ List.replicate zeros '0') 0 : ℚ) /
      10 ^ (kept ++ List.replicate zeros '0').length = Nat.ofDigitChars 10 kept 0 / 10 ^ kept.length := by
    rw [ofDigitChars_append, Nat.ofDigitChars_replicate_zero, List.length_append, List.length_replicate, pow_add]
    push_cast
    field_simp
    simp
  have hkept : ∀ c ∈ kept, c.isDigit := fun c hc => hds c (List.mem_append_left _ hc)
  rw [hvalue]
  rcases List.eq_nil_or_concat kept with rfl | ⟨fs, c, rfl⟩
  · simpa [Number.withFraction] using IsDecimal.whole n
  · rw [List.concat_eq_append] at hlast hkept ⊢
    have hc : c ≠ '0' := by simpa using hlast
    simpa [Number.withFraction] using IsDecimal.pointed n hkept hc

end Digits

section Layout

variable {n : ℕ} {e : ℤ}

theorem length_toDigits {k : ℕ} (hlow : 10 ^ k ≤ n) (hhigh : n < 10 ^ (k + 1)) :
    (Nat.toDigits 10 n).length = k + 1 := by
  have hle := (Nat.length_toDigits_le_iff (by decide) k.succ_pos).mpr hhigh
  have hpos : 0 < (Nat.toDigits 10 n).length := Nat.length_toDigits_pos
  by_contra hne
  have hk : 0 < k := by omega
  have := (Nat.length_toDigits_le_iff (by decide) hk).mp (show (Nat.toDigits 10 n).length ≤ k by omega)
  omega

/-- A point before the last digits of a number divides it. -/
theorem isDecimal_take_drop {i m : ℕ} (hlength : (Nat.toDigits 10 n).length = i + m) (h : 10 ^ m ≤ n) :
    IsDecimal (n / 10 ^ m)
      (Number.withFraction ((Nat.toDigits 10 n).take i) (dropTrailingZeros ((Nat.toDigits 10 n).drop i))) := by
  obtain ⟨hfraction, hvalue⟩ := ofDigitChars_drop_toDigits h
  have hwhole := take_toDigits h
  rw [hlength, Nat.add_sub_cancel] at hfraction hvalue hwhole
  have hdigits : ∀ c ∈ (Nat.toDigits 10 n).drop i, c.isDigit := fun c hc =>
    Nat.isDigit_of_mem_toDigits (by decide) (by decide) (List.mem_of_mem_drop hc)
  have hsum : (n : ℚ) / 10 ^ m = (n / 10 ^ m : ℕ) + (n % 10 ^ m : ℕ) / 10 ^ m := by
    have hdiv : (n : ℚ) = 10 ^ m * (n / 10 ^ m : ℕ) + (n % 10 ^ m : ℕ) := by
      exact_mod_cast (Nat.div_add_mod n (10 ^ m)).symm
    field_simp
    exact hdiv
  have hdecimal := isDecimal_withFraction (n / 10 ^ m) hdigits
  rwa [hfraction, hvalue, ← hsum, ← hwhole] at hdecimal

theorem exponentText_eq (e : ℤ) :
    Number.exponentText e = (if e < 0 then '-' else '+') :: (Nat.toDigits 10 e.natAbs).leftpad 2 '0' := by
  have hpos : 0 < (Nat.toDigits 10 e.natAbs).length := Nat.length_toDigits_pos
  refine congrArg (_ :: ·) ?_
  rw [List.leftpad]
  split_ifs with hshort
  · have hone : (Nat.toDigits 10 e.natAbs).length = 1 := by omega
    rw [hone]
    rfl
  · rw [Nat.sub_eq_zero_of_le (Nat.not_lt.mp hshort)]
    rfl

/-- The first of fourteen digits counts the largest power of ten that their number reaches. -/
theorem pow_le_and_lt_pow (hlow : 10 ^ 13 ≤ n) (hhigh : n < 10 ^ 14) (e : ℤ) :
    (10 : ℚ) ^ e ≤ n * 10 ^ (e - 13) ∧ (n : ℚ) * 10 ^ (e - 13) < 10 ^ (e + 1) := by
  have hpos : (0 : ℚ) < 10 ^ (e - 13) := zpow_pos (by norm_num) _
  have hsplit (k : ℕ) : (10 : ℚ) ^ (e - 13 + k) = 10 ^ k * 10 ^ (e - 13) := by
    rw [zpow_add₀ (by norm_num), zpow_natCast, mul_comm]
  constructor
  · rw [show e = e - 13 + (13 : ℕ) by omega, hsplit, Nat.cast_ofNat, add_sub_cancel_right]
    exact mul_le_mul_of_nonneg_right (by exact_mod_cast hlow) hpos.le
  · rw [show e + 1 = e - 13 + (14 : ℕ) by omega, hsplit]
    exact mul_lt_mul_of_pos_right (by exact_mod_cast hhigh) hpos

theorem mul_zpow_eq_div (n : ℕ) {k : ℕ} (h : e - 13 = -k) : (n : ℚ) * 10 ^ (e - 13) = n / 10 ^ k := by
  rw [h, zpow_neg, zpow_natCast, div_eq_mul_inv]

/-- A number behind a point and some zeros. -/
theorem isDecimal_zeros (zeros n : ℕ) :
    IsDecimal (n / 10 ^ (zeros + (Nat.toDigits 10 n).length))
      (Number.withFraction ['0'] (dropTrailingZeros (List.replicate zeros '0' ++ Nat.toDigits 10 n))) := by
  have hdigits : ∀ c ∈ List.replicate zeros '0' ++ Nat.toDigits 10 n, c.isDigit := by
    intro c hc
    rcases List.mem_append.mp hc with hc | hc
    · rw [List.eq_of_mem_replicate hc]
      rfl
    · exact Nat.isDigit_of_mem_toDigits (by decide) (by decide) hc
  have hdecimal := isDecimal_withFraction 0 hdigits
  rw [ofDigitChars_append, Nat.ofDigitChars_replicate_zero, Nat.ofDigitChars_toDigits (by decide) (by decide),
    List.length_append, List.length_replicate] at hdecimal
  simpa using hdecimal

/-- A point behind the first of fourteen digits leaves a number from one to ten. -/
theorem scientific_bounds (hlow : 10 ^ 13 ≤ n) (hhigh : n < 10 ^ 14) :
    (1 : ℚ) ≤ n / 10 ^ 13 ∧ (n : ℚ) / 10 ^ 13 < 10 := by
  have hlow : (10 : ℚ) ^ 13 ≤ n := by exact_mod_cast hlow
  have hhigh : (n : ℚ) < 10 ^ 14 := by exact_mod_cast hhigh
  rw [le_div_iff₀ (by norm_num), div_lt_iff₀ (by norm_num)]
  constructor <;> linarith

/-- Fourteen digits, the first of which counts `10 ^ e`, are laid out as the text of their number. -/
theorem shows_general (hlow : 10 ^ 13 ≤ n) (hhigh : n < 10 ^ 14) :
    Shows (n * 10 ^ (e - 13)) (Number.general (Nat.toDigits 10 n) e) := by
  have hlength := length_toDigits hlow hhigh
  have hmono {k l : ℤ} (h : k ≤ l) : (10 : ℚ) ^ k ≤ 10 ^ l := zpow_le_zpow_right₀ (by norm_num) h
  obtain ⟨hfirst, hnext⟩ := pow_le_and_lt_pow hlow hhigh e
  rw [Number.general, Number.precision]
  split_ifs with hfar hsmall
  · obtain ⟨hone, hten⟩ := scientific_bounds hlow hhigh
    rw [exponentText_eq]
    refine .scientific (hfar.imp (fun h => hnext.trans_le (hmono (by omega))) fun h => ?_) hone hten ?_
      (isDecimal_take_drop (i := 1) (m := 13) hlength hlow)
    · exact (by exact_mod_cast hmono h : (10 : ℚ) ^ 14 ≤ 10 ^ e).trans hfirst
    · rw [zpow_sub₀ (by norm_num)]
      norm_num
      ring
  · refine .positional ((hmono (by omega)).trans hfirst) (hnext.trans_le ?_) ?_
    · exact_mod_cast hmono (show e + 1 ≤ (14 : ℕ) by omega)
    · rw [mul_zpow_eq_div n (k := e.natAbs - 1 + (Nat.toDigits 10 n).length) (by omega)]
      exact isDecimal_zeros (e.natAbs - 1) n
  · refine .positional ((hmono (by omega)).trans hfirst) (hnext.trans_le ?_) ?_
    · exact_mod_cast hmono (show e + 1 ≤ (14 : ℕ) by omega)
    · have hplaces : (Nat.toDigits 10 n).length = e.natAbs + 1 + (13 - e.natAbs) := by omega
      rw [mul_zpow_eq_div n (k := 13 - e.natAbs) (by omega)]
      exact isDecimal_take_drop hplaces ((Nat.pow_le_pow_right (by decide) (Nat.sub_le ..)).trans hlow)

end Layout

section Uniqueness

/-- A row of digits behind a point is less than one. -/
theorem fraction_lt_one {ds : List Char} (hds : ∀ c ∈ ds, c.isDigit) :
    (Nat.ofDigitChars 10 ds 0 : ℚ) / 10 ^ ds.length < 1 := by
  rw [div_lt_one (by positivity)]
  exact_mod_cast ofDigitChars_lt hds

/-- A number has one whole part. -/
theorem whole_unique {n n' : ℕ} {a a' : ℚ} (ha : 0 ≤ a) (ha' : a < 1) (hb : 0 ≤ a') (hb' : a' < 1)
    (h : n + a = n' + a') : n = n' ∧ a = a' := by
  have hle : (n : ℚ) < n' + 1 := by linarith
  have hle' : (n' : ℚ) < n + 1 := by linarith
  have hle : n < n' + 1 := by exact_mod_cast hle
  have hle' : n' < n + 1 := by exact_mod_cast hle'
  obtain rfl : n = n' := by omega
  exact ⟨rfl, by linarith⟩

/-- A fraction that does not end with zero is written in one way. -/
theorem fraction_unique {fs gs : List Char} {c d : Char} (hfs : ∀ e ∈ fs ++ [c], e.isDigit) (hc : c ≠ '0')
    (hgs : ∀ e ∈ gs ++ [d], e.isDigit) (hd : d ≠ '0')
    (h : (Nat.ofDigitChars 10 (fs ++ [c]) 0 : ℚ) / 10 ^ (fs ++ [c]).length =
      Nat.ofDigitChars 10 (gs ++ [d]) 0 / 10 ^ (gs ++ [d]).length) : fs ++ [c] = gs ++ [d] := by
  have hmod := ofDigitChars_mod_ten hfs hc
  have hmod' := ofDigitChars_mod_ten hgs hd
  rw [div_eq_div_iff (by positivity) (by positivity)] at h
  have h : Nat.ofDigitChars 10 (fs ++ [c]) 0 * 10 ^ (gs ++ [d]).length =
      Nat.ofDigitChars 10 (gs ++ [d]) 0 * 10 ^ (fs ++ [c]).length := by exact_mod_cast h
  generalize fs ++ [c] = ds at *
  generalize gs ++ [d] = es at *
  -- the one that is longer would end with zero
  have hshort {a b k l : ℕ} (hmod : b % 10 ≠ 0) (h : a * 10 ^ l = b * 10 ^ k) : l ≤ k := by
    by_contra hlt
    obtain ⟨j, rfl⟩ : ∃ j, l = k + (j + 1) := ⟨l - k - 1, by omega⟩
    rw [pow_add, Nat.mul_left_comm, Nat.mul_comm b, Nat.pow_succ] at h
    have := Nat.eq_of_mul_eq_mul_left (Nat.pow_pos (by decide)) h
    rw [← this, ← Nat.mul_assoc, Nat.mul_mod_left] at hmod
    exact hmod rfl
  have hlength : ds.length = es.length := le_antisymm (hshort hmod h.symm) (hshort hmod' h)
  rw [hlength] at h
  exact eq_of_ofDigitChars hfs hgs hlength (Nat.eq_of_mul_eq_mul_right (Nat.pow_pos (by decide)) h)

/-- A number has one plain decimal. -/
theorem IsDecimal.unique {a b : ℚ} {cs ds : List Char} (hcs : IsDecimal a cs) (hds : IsDecimal b ds) (hab : a = b) :
    cs = ds := by
  have hpositive {fs : List Char} {c : Char} (hfs : ∀ e ∈ fs ++ [c], e.isDigit) (hc : c ≠ '0') :
      (0 : ℚ) < Nat.ofDigitChars 10 (fs ++ [c]) 0 / 10 ^ (fs ++ [c]).length := by
    have hne : Nat.ofDigitChars 10 (fs ++ [c]) 0 ≠ 0 := fun h => ofDigitChars_mod_ten hfs hc (by rw [h])
    positivity
  cases hcs with
  | whole n =>
    cases hds with
    | whole n' => rw [Nat.cast_inj.mp hab]
    | pointed n' hgs hd =>
      have hsplit := whole_unique le_rfl one_pos (hpositive hgs hd).le (fraction_lt_one hgs) ((add_zero _).trans hab)
      exact absurd hsplit.2 (hpositive hgs hd).ne
  | pointed n hfs hc =>
    cases hds with
    | whole n' =>
      have hsplit :=
        whole_unique (hpositive hfs hc).le (fraction_lt_one hfs) le_rfl one_pos (hab.trans (add_zero _).symm)
      exact absurd hsplit.2.symm (hpositive hfs hc).ne
    | pointed n' hgs hd =>
      obtain ⟨rfl, hfraction⟩ := whole_unique (hpositive hfs hc).le (fraction_lt_one hfs) (hpositive hgs hd).le
        (fraction_lt_one hgs) hab
      rw [fraction_unique hfs hc hgs hd hfraction]

/-- A number has one text. -/
theorem Shows.unique {r : ℚ} {cs ds : List Char} (hcs : Shows r cs) (hds : Shows r ds) : cs = ds := by
  cases hcs with
  | positional hlow hhigh hdecimal =>
    cases hds with
    | positional _ _ hdecimal' => exact hdecimal.unique hdecimal' rfl
    | scientific hfar => exact absurd hfar (not_or.mpr ⟨hlow.not_gt, hhigh.not_ge⟩)
  | @scientific e q cs hfar hone hten hr hdecimal =>
    cases hds with
    | positional hlow hhigh => exact absurd hfar (not_or.mpr ⟨hlow.not_gt, hhigh.not_ge⟩)
    | @scientific e' q' ds _ hone' hten' hr' hdecimal' =>
      have hle {e e' : ℤ} {q q' : ℚ} (hone : 1 ≤ q) (hten' : q' < 10) (h : q * 10 ^ e = q' * 10 ^ e') : e ≤ e' := by
        have hlow : (10 : ℚ) ^ e ≤ q * 10 ^ e := le_mul_of_one_le_left (zpow_pos (by norm_num) e).le hone
        have hhigh : q' * 10 ^ e' < 10 ^ (e' + 1) := by
          rw [zpow_add_one₀ (by norm_num), mul_comm]
          exact mul_lt_mul_of_pos_left hten' (zpow_pos (by norm_num) e')
        exact Int.lt_add_one_iff.mp ((zpow_lt_zpow_iff_right₀ (by norm_num)).mp (hlow.trans_lt (h.trans_lt hhigh)))
      have hsame := hr.symm.trans hr'
      obtain rfl : e = e' := le_antisymm (hle hone hten' hsame) (hle hone' hten hsame.symm)
      have hq : q = q' := mul_right_cancel₀ (zpow_pos (by norm_num : (0 : ℚ) < 10) e).ne' hsame
      rw [hdecimal.unique hdecimal' hq]

end Uniqueness

end Decimal

namespace Value

/-- The text of a text or a number. Integers are written in decimal; doubles are rounded to fourteen significant digits,
and what is no number or not finite is named, with its sign. -/
inductive Spells : Value → String → Prop
  | str (s : String) : Spells (.str s) s
  | int (i : Int64) : Spells (.int i) (toString i.toInt)
  | nan {x : Double} (hx : Binary.ofFloat x = .nan) : Spells (.float x) (if x.isNegativeNaN then "-nan" else "nan")
  | infinite {x : Double} {negative : Bool} (hx : Binary.ofFloat x = .infinite negative) :
      Spells (.float x) (if negative then "-inf" else "inf")
  | zero {x : Double} {negative : Bool} {exponent : ℤ} (hx : Binary.ofFloat x = .finite negative 0 exponent) :
      Spells (.float x) (if negative then "-0" else "0")
  | finite {x : Double} {negative : Bool} {mantissa : ℕ} {exponent : ℤ} {r : ℚ} {cs : List Char}
      (hx : Binary.ofFloat x = .finite negative mantissa exponent) (hpos : 0 < mantissa)
      (hr : Decimal.RoundsTo (mantissa * 2 ^ exponent) r) (hcs : Decimal.Shows r cs) :
      Spells (.float x) (String.ofList (if negative then '-' :: cs else cs))

/-- The text of an integer is its decimal. -/
theorem intText_eq (i : ℤ) : Number.intText i = toString i := by
  have hrepr : toString i = i.repr := rfl
  rw [hrepr, Number.intText]
  cases i with
  | ofNat n =>
    rw [if_neg (by simp), Int.repr, Nat.repr_eq_ofList_toDigits]
    rfl
  | negSucc n =>
    rw [if_pos (Int.negSucc_lt_zero n), Int.repr, Nat.repr_eq_ofList_toDigits, String.ofList_cons]
    rfl

/-- The text of a double is what it should be. -/
theorem spells_floatText (x : Double) : Spells (.float x) (Number.floatText x) := by
  rw [Number.floatText]
  cases hx : Binary.ofFloat x with
  | nan => exact .nan hx
  | infinite negative => exact .infinite hx
  | finite negative mantissa exponent =>
    dsimp only
    by_cases hzero : mantissa = 0
    · subst hzero
      rw [if_pos rfl]
      cases negative <;> exact .zero hx
    · obtain ⟨hlow, hhigh, hrounds⟩ := Decimal.rounded_spec (Nat.pos_of_ne_zero hzero) exponent
      have hshows := Decimal.shows_general hlow hhigh (e := (Decimal.rounded 14 mantissa exponent).exponent + 13)
      rw [add_sub_cancel_right] at hshows
      rw [if_neg hzero]
      exact .finite hx (Nat.pos_of_ne_zero hzero) hrounds hshows

/-- A value has at most one text. -/
theorem Spells.unique {v : Value} {s s' : String} (h : v.Spells s) (h' : v.Spells s') : s = s' := by
  cases h with
  | str | int =>
    cases h'
    rfl
  | nan hx | infinite hx =>
    cases h' with
    | nan hx' | infinite hx' | zero hx' | finite hx' =>
      cases hx.symm.trans hx'
      try rfl
  | zero hx =>
    cases h' with
    | nan hx' | infinite hx' | zero hx' =>
      cases hx.symm.trans hx'
      try rfl
    | finite hx' hpos' =>
      cases hx.symm.trans hx'
      exact absurd hpos' (Nat.lt_irrefl 0)
  | finite hx hpos hr hcs =>
    cases h' with
    | nan hx' | infinite hx' => cases hx.symm.trans hx'
    | zero hx' =>
      cases hx.symm.trans hx'
      exact absurd hpos (Nat.lt_irrefl 0)
    | finite hx' _ hr' hcs' =>
      cases hx.symm.trans hx'
      obtain rfl := hr.unique hr'
      rw [hcs.unique hcs']

/-- Texts and numbers have one text, the one with which they are joined, and nothing else has one. -/
theorem spells_iff {v : Value} {s : String} : v.Spells s ↔ v.toText? = some s := by
  have hspells {s : String} (h : v.toText? = some s) : v.Spells s := by
    cases v with
    | str =>
      cases h
      exact .str s
    | int i =>
      cases h
      rw [intText_eq]
      exact .int i
    | float x =>
      cases h
      exact spells_floatText x
    | nil | bool | table | closure | native | userdata | thread => cases h
  refine ⟨fun h => ?_, hspells⟩
  cases htext : v.toText? with
  | none => cases h <;> cases htext
  | some s' => rw [h.unique (hspells htext)]

/-- The texts that values have are those with which they are joined. -/
theorem filterMap_toText? {values : List Value} {texts : List String} (h : List.Forall₂ Spells values texts) :
    values.filterMap toText? = texts ∧ ∀ v ∈ values, v.toText?.isSome = true := by
  induction h with
  | nil => simp
  | cons hfirst _ ih =>
    have htext := spells_iff.mp hfirst
    rw [List.filterMap_cons, htext, ih.1, List.forall_mem_cons, htext]
    exact ⟨rfl, rfl, ih.2⟩

/-- All texts and numbers have texts. -/
theorem exists_spells {values : List Value} (h : ∀ v ∈ values, v.kind = .string ∨ v.kind = .number) :
    ∃ texts, List.Forall₂ Spells values texts := by
  induction values with
  | nil => exact ⟨[], .nil⟩
  | cons v values ih =>
    rw [List.forall_mem_cons] at h
    obtain ⟨hv, hvalues⟩ := h
    obtain ⟨texts, htexts⟩ := ih hvalues
    obtain ⟨s, hs⟩ : ∃ s, v.toText? = some s := by
      cases v with
      | int | float | str => exact ⟨_, rfl⟩
      | nil | bool | table | closure | native | userdata | thread => rcases hv with hv | hv <;> cases hv
    exact ⟨s :: texts, .cons (spells_iff.mpr hs) htexts⟩

end Value

end LuaMachine
