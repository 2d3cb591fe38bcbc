import Mathlib
import LuaMachine.Value.Basic

namespace LuaMachine.Numeral

/-- A hexadecimal digit. -/
def isHexDigit (c : Char) : Bool := c.isDigit || ['a', 'b', 'c', 'd', 'e', 'f', 'A', 'B', 'C', 'D', 'E', 'F'].contains c

/-- One character of a kind or more. -/
def IsRow (kind : Char → Bool) (cs : List Char) : Prop := cs ≠ [] ∧ ∀ c ∈ cs, kind c

/-- An optional sign. -/
inductive IsSign : List Char → Prop
  | absent : IsSign []
  | minus : IsSign ['-']
  | plus : IsSign ['+']

/-- Digits, and a point among them or around them that has at least one digit beside it. -/
inductive IsMantissa : List Char → Prop
  | whole {ds : List Char} : IsRow Char.isDigit ds → IsMantissa ds
  | pointed {ds fs : List Char} : IsRow Char.isDigit ds → (∀ c ∈ fs, c.isDigit) → IsMantissa (ds ++ '.' :: fs)
  | fraction {fs : List Char} : IsRow Char.isDigit fs → IsMantissa ('.' :: fs)

/-- An optional exponent: a mark, an optional sign and digits. -/
inductive IsExponent : List Char → Prop
  | absent : IsExponent []
  | present {mark : Char} {sign ds : List Char} : mark = 'e' ∨ mark = 'E' → IsSign sign → IsRow Char.isDigit ds →
      IsExponent (mark :: (sign ++ ds))

/-- A numeral without its sign. -/
inductive IsUnsigned : List Char → Prop
  | hexadecimal {mark : Char} {ds : List Char} : mark = 'x' ∨ mark = 'X' → IsRow isHexDigit ds →
      IsUnsigned ('0' :: mark :: ds)
  | decimal {mantissa exponent : List Char} : IsMantissa mantissa → IsExponent exponent →
      IsUnsigned (mantissa ++ exponent)

/-- A numeral without the blanks around it. -/
inductive IsBare : List Char → Prop
  | signed {sign body : List Char} : IsSign sign → IsUnsigned body → IsBare (sign ++ body)

/-- A text that is a numeral once the blanks at both ends are gone. -/
def IsNumeral (s : String) : Prop :=
  ∃ front bare back : List Char, s.toList = front ++ bare ++ back ∧
    (∀ c ∈ front ++ back, c ∈ [' ', '\t', '\n', '\r', Char.ofNat 0x0c]) ∧ IsBare bare

theorem isDecimalChar_of_isDigit {c : Char} (h : c.isDigit) : isDecimalChar c := by
  simp [isDecimalChar, h]

theorem isHexDigit_of_isDigit {c : Char} (h : c.isDigit) : isHexDigit c := by
  simp [isHexDigit, h]

theorem IsSign.all_isDecimalChar {cs : List Char} (h : IsSign cs) : ∀ c ∈ cs, isDecimalChar c := by
  cases h <;> simp [isDecimalChar]

theorem IsMantissa.all_isDecimalChar {cs : List Char} (h : IsMantissa cs) : ∀ c ∈ cs, isDecimalChar c := by
  cases h with
  | whole hds => exact fun c hc => isDecimalChar_of_isDigit (hds.2 c hc)
  | pointed hds hfs =>
    simp only [List.mem_append, List.mem_cons]
    rintro c (hc | rfl | hc)
    · exact isDecimalChar_of_isDigit (hds.2 c hc)
    · decide
    · exact isDecimalChar_of_isDigit (hfs c hc)
  | fraction hfs =>
    simp only [List.mem_cons]
    rintro c (rfl | hc)
    · decide
    · exact isDecimalChar_of_isDigit (hfs.2 c hc)

theorem IsExponent.all_isDecimalChar {cs : List Char} (h : IsExponent cs) : ∀ c ∈ cs, isDecimalChar c := by
  cases h with
  | absent => simp
  | present hmark hsign hds =>
    simp only [List.mem_cons, List.mem_append]
    rintro c (rfl | hc | hc)
    · rcases hmark with rfl | rfl <;> decide
    · exact hsign.all_isDecimalChar c hc
    · exact isDecimalChar_of_isDigit (hds.2 c hc)

/-- An exponent does not go on with the digits before it. -/
theorem IsExponent.isDigit_head {cs : List Char} (h : IsExponent cs) : ∀ c ∈ cs.head?, c.isDigit = false := by
  cases h with
  | absent => simp
  | present hmark =>
    rcases hmark with rfl | rfl <;> simp [Char.isDigit]

theorem isDigit_iff (c : Char) : c.isDigit = true ↔ 48 ≤ c.toNat ∧ c.toNat ≤ 57 := by
  simp [Char.isDigit, UInt32.le_iff_toNat_le]

theorem isHexDigit_iff (c : Char) :
    isHexDigit c = true ↔
      48 ≤ c.toNat ∧ c.toNat ≤ 57 ∨ 97 ≤ c.toNat ∧ c.toNat ≤ 102 ∨ 65 ≤ c.toNat ∧ c.toNat ≤ 70 := by
  simp only [isHexDigit, Bool.or_eq_true, isDigit_iff, List.contains_iff_mem, List.mem_cons, List.not_mem_nil,
    or_false, ← Char.toNat_inj]
  simp
  omega

theorem isBlank_iff (c : Char) : isBlank c = true ↔ c ∈ [' ', '\t', '\n', '\r', Char.ofNat 0x0c] := by
  simp [isBlank, ← Char.toNat_inj, or_assoc]

theorem isBlank_eq_false_of_isHexDigit {c : Char} (h : isHexDigit c) : isBlank c = false := by
  rw [isHexDigit_iff] at h
  simp [isBlank, ← Char.toNat_inj]
  omega

theorem isBlank_eq_false_of_isDecimalChar {c : Char} (h : isDecimalChar c) : isBlank c = false := by
  simp only [isDecimalChar, Bool.or_eq_true, List.contains_iff_mem, List.mem_cons, List.not_mem_nil, or_false] at h
  rcases h with h | rfl | rfl | rfl | rfl | rfl
  · exact isBlank_eq_false_of_isHexDigit (isHexDigit_of_isDigit h)
  all_goals decide

theorem isSome_digit? (c : Char) : (digit? 16 c).isSome = isHexDigit c := by
  rw [Bool.eq_iff_iff, isHexDigit_iff]
  simp only [digit?]
  split_ifs <;> simp <;> omega

/-- Digits in front of something else are the digits that the reader takes. -/
theorem takeWhile_digits {ds rest : List Char} (hds : ∀ c ∈ ds, c.isDigit)
    (hrest : ∀ c ∈ rest.head?, c.isDigit = false) : (ds ++ rest).takeWhile Char.isDigit = ds := by
  rw [List.takeWhile_append_of_pos hds]
  cases rest with
  | nil => simp
  | cons c rest => rw [List.takeWhile_cons_of_neg (by simp [hrest c rfl]), List.append_nil]

theorem dropWhile_digits {ds rest : List Char} (hds : ∀ c ∈ ds, c.isDigit)
    (hrest : ∀ c ∈ rest.head?, c.isDigit = false) : (ds ++ rest).dropWhile Char.isDigit = rest := by
  rw [List.dropWhile_append_of_pos hds]
  cases rest with
  | nil => rfl
  | cons c rest => rw [List.dropWhile_cons_of_neg (by simp [hrest c rfl])]

/-- Splitting off a sign gives it back, in front of a row that has none. -/
theorem splitSign_append {sign body : List Char} (hsign : IsSign sign)
    (hbody : ∀ c ∈ body.head?, c ≠ '-' ∧ c ≠ '+') : splitSign (sign ++ body) = (sign == ['-'], body) := by
  cases hsign with
  | minus | plus => rfl
  | absent =>
    unfold splitSign
    split <;> simp_all

theorem exists_splitSign (cs : List Char) : ∃ sign, IsSign sign ∧ cs = sign ++ (splitSign cs).2 := by
  unfold splitSign
  split
  · exact ⟨['-'], .minus, rfl⟩
  · exact ⟨['+'], .plus, rfl⟩
  · exact ⟨[], .absent, rfl⟩

theorem ne_sign_of_isDigit {c : Char} (h : c.isDigit) : c ≠ '-' ∧ c ≠ '+' := by
  constructor <;> rintro rfl <;> simp [Char.isDigit] at h

/-- A row of digits has no sign in front. -/
theorem IsRow.head_ne {ds : List Char} (h : IsRow Char.isDigit ds) : ∀ c ∈ ds.head?, c ≠ '-' ∧ c ≠ '+' :=
  fun c hc => ne_sign_of_isDigit (h.2 c (List.mem_of_mem_head? hc))

/-- A numeral without its sign starts with a digit or a point. -/
theorem IsUnsigned.exists_head {cs : List Char} (h : IsUnsigned cs) :
    ∃ c rest, cs = c :: rest ∧ (c.isDigit ∨ c = '.') := by
  have hrow {ds : List Char} (hds : IsRow Char.isDigit ds) (rest : List Char) :
      ∃ c rest', ds ++ rest = c :: rest' ∧ (c.isDigit ∨ c = '.') := by
    obtain ⟨c, ds, rfl⟩ := List.exists_cons_of_ne_nil hds.1
    exact ⟨c, ds ++ rest, rfl, .inl (hds.2 c (by simp))⟩
  cases h with
  | hexadecimal => exact ⟨'0', _, rfl, .inl rfl⟩
  | decimal hmantissa =>
    cases hmantissa with
    | whole hds => exact hrow hds _
    | pointed hds => simpa using hrow hds _
    | fraction => exact ⟨'.', _, rfl, .inr rfl⟩

theorem IsUnsigned.head_ne {cs : List Char} (h : IsUnsigned cs) : ∀ c ∈ cs.head?, c ≠ '-' ∧ c ≠ '+' := by
  obtain ⟨c, rest, rfl, hc⟩ := h.exists_head
  rw [List.head?_cons]
  rintro _ ⟨⟩
  rcases hc with hc | rfl
  · exact ne_sign_of_isDigit hc
  · decide

theorem isSome_exponent?_cons (mark : Char) (rest : List Char) :
    (exponent? (mark :: rest)).isSome = true ↔ (mark = 'e' ∨ mark = 'E') ∧ IsRow Char.isDigit (splitSign rest).2 := by
  have hexponent : exponent? (mark :: rest) =
      if mark = 'e' ∨ mark = 'E' then
        if !(splitSign rest).2.isEmpty && (splitSign rest).2.all Char.isDigit then
          some (Binary.signed (splitSign rest).1 (exponentOf (splitSign rest).2))
        else none
      else none := rfl
  rw [hexponent]
  split_ifs with hmark hrow <;> simp_all [IsRow]

theorem isSome_exponent? (cs : List Char) : (exponent? cs).isSome = true ↔ IsExponent cs := by
  cases cs with
  | nil => simp [exponent?, IsExponent.absent]
  | cons mark rest =>
    rw [isSome_exponent?_cons]
    constructor
    · rintro ⟨hmark, hrow⟩
      obtain ⟨sign, hsign, hrest⟩ := exists_splitSign rest
      rw [hrest]
      exact .present hmark hsign hrow
    · rintro (_ | ⟨hmark, hsign, hds⟩)
      rw [splitSign_append hsign hds.head_ne]
      exact ⟨hmark, hds⟩

/-- What stands behind the digits in front: the digits after a point, if one comes next, and the rest. -/
def splitPoint : List Char → List Char × List Char
  | '.' :: rest => (rest.takeWhile Char.isDigit, rest.dropWhile Char.isDigit)
  | rest => ([], rest)

theorem splitPoint_of_isExponent {cs : List Char} (h : IsExponent cs) : splitPoint cs = ([], cs) := by
  rcases h with _ | ⟨rfl | rfl⟩ <;> rfl

theorem splitPoint_append {fs e : List Char} (hfs : ∀ c ∈ fs, c.isDigit) (he : IsExponent e) :
    splitPoint ('.' :: (fs ++ e)) = (fs, e) := by
  rw [splitPoint, takeWhile_digits hfs he.isDigit_head, dropWhile_digits hfs he.isDigit_head]

theorem isSome_decimal?_iff (cs : List Char) :
    (decimal? cs).isSome = true ↔
      (cs.takeWhile Char.isDigit ≠ [] ∨ (splitPoint (cs.dropWhile Char.isDigit)).1 ≠ []) ∧
        IsExponent (splitPoint (cs.dropWhile Char.isDigit)).2 := by
  have hdecimal : decimal? cs =
      if (cs.takeWhile Char.isDigit).isEmpty && (splitPoint (cs.dropWhile Char.isDigit)).1.isEmpty then none
      else (exponent? (splitPoint (cs.dropWhile Char.isDigit)).2).map fun e =>
        scientific (cs.takeWhile Char.isDigit ++ (splitPoint (cs.dropWhile Char.isDigit)).1)
          (e - (splitPoint (cs.dropWhile Char.isDigit)).1.length) := rfl
  rw [hdecimal, ← isSome_exponent?]
  split_ifs with h <;> simp_all [imp_iff_not_or]

theorem splitPoint_cases (cs : List Char) :
    (∃ fs rest, cs = '.' :: (fs ++ rest) ∧ (∀ c ∈ fs, c.isDigit) ∧ splitPoint cs = (fs, rest)) ∨
      splitPoint cs = ([], cs) := by
  unfold splitPoint
  split
  next rest =>
    exact .inl ⟨_, _, by rw [List.takeWhile_append_dropWhile], fun c => List.mem_takeWhile_imp, rfl⟩
  next => exact .inr rfl

/-- What is in front of the exponent is a mantissa, if it has a digit. -/
theorem exists_isMantissa {cs : List Char}
    (h : cs.takeWhile Char.isDigit ≠ [] ∨ (splitPoint (cs.dropWhile Char.isDigit)).1 ≠ []) :
    ∃ mantissa, IsMantissa mantissa ∧ cs = mantissa ++ (splitPoint (cs.dropWhile Char.isDigit)).2 := by
  have hcs := List.takeWhile_append_dropWhile (p := Char.isDigit) (l := cs)
  have hds : ∀ c ∈ cs.takeWhile Char.isDigit, c.isDigit := fun c => List.mem_takeWhile_imp
  generalize cs.takeWhile Char.isDigit = ds at h hcs hds
  generalize cs.dropWhile Char.isDigit = rest at h hcs
  subst hcs
  rcases splitPoint_cases rest with ⟨fs, rest, rfl, hfs, hsplit⟩ | hsplit
  · rw [hsplit] at h ⊢
    cases ds with
    | nil => exact ⟨'.' :: fs, .fraction ⟨by simpa using h, hfs⟩, by simp⟩
    | cons d ds => exact ⟨(d :: ds) ++ '.' :: fs, .pointed ⟨by simp, hds⟩ hfs, by simp⟩
  · rw [hsplit] at h ⊢
    exact ⟨ds, .whole ⟨by simpa using h, hds⟩, rfl⟩

theorem isSome_decimal? (cs : List Char) :
    (decimal? cs).isSome = true ↔
      ∃ mantissa exponent, cs = mantissa ++ exponent ∧ IsMantissa mantissa ∧ IsExponent exponent := by
  rw [isSome_decimal?_iff]
  constructor
  -- no character tells which parts are there: each part ends where the next one starts
  · rintro ⟨hsome, hexponent⟩
    obtain ⟨mantissa, hmantissa, hcs⟩ := exists_isMantissa hsome
    exact ⟨mantissa, _, hcs, hmantissa, hexponent⟩
  · rintro ⟨mantissa, exponent, rfl, hmantissa, hexponent⟩
    cases hmantissa with
    | whole hds =>
      rw [takeWhile_digits hds.2 hexponent.isDigit_head, dropWhile_digits hds.2 hexponent.isDigit_head,
        splitPoint_of_isExponent hexponent]
      exact ⟨.inl hds.1, hexponent⟩
    | pointed hds hfs =>
      rw [List.append_assoc, List.cons_append, takeWhile_digits hds.2 (by simp [Char.isDigit]),
        dropWhile_digits hds.2 (by simp [Char.isDigit]), splitPoint_append hfs hexponent]
      exact ⟨.inl hds.1, hexponent⟩
    | fraction hfs =>
      have hpoint : ('.' : Char).isDigit = false := rfl
      rw [List.cons_append, List.dropWhile_cons_of_neg (by simp [hpoint]), splitPoint_append hfs.2 hexponent]
      exact ⟨.inr hfs.1, hexponent⟩

theorem isSome_accumulate (x : Float) (cs : List Char) :
    (accumulate 16 x cs).isSome = true ↔ ∀ c ∈ cs, isHexDigit c := by
  induction cs generalizing x with
  | nil => simp [accumulate]
  | cons c cs ih =>
    rw [List.forall_mem_cons, ← isSome_digit?]
    cases h : digit? 16 c with
    | none => simp [accumulate, h]
    | some worth => simp [accumulate, h, ih]

/-- A hexadecimal mark is no character of a decimal. -/
theorem hexBody?_decimal {cs : List Char} (h : ∀ c ∈ cs, isDecimalChar c) : hexBody? cs = none := by
  unfold hexBody?
  split
  · exact absurd (h 'x' (by simp)) (by decide)
  · exact absurd (h 'X' (by simp)) (by decide)
  · rfl

theorem hexBody?_eq_some {cs digits : List Char} (h : hexBody? cs = some digits) :
    ∃ mark, (mark = 'x' ∨ mark = 'X') ∧ cs = '0' :: mark :: digits := by
  unfold hexBody? at h
  split at h
  · exact ⟨'x', .inl rfl, by simp_all⟩
  · exact ⟨'X', .inr rfl, by simp_all⟩
  · simp at h

theorem isDecimalChar_of_decimal {mantissa exponent : List Char} (hmantissa : IsMantissa mantissa)
    (hexponent : IsExponent exponent) : ∀ c ∈ mantissa ++ exponent, isDecimalChar c := by
  simp only [List.mem_append]
  rintro c (hc | hc)
  · exact hmantissa.all_isDecimalChar c hc
  · exact hexponent.all_isDecimalChar c hc

/-- Digits that read as an integer are a decimal. -/
theorem isMantissa_of_integer? {negative : Bool} {cs : List Char} {i : Int64} (h : integer? negative cs = some i) :
    IsMantissa cs := by
  unfold integer? at h
  split_ifs at h with hrow
  simp only [Bool.and_eq_true] at hrow
  exact .whole (by simpa [IsRow] using hrow.1.1)

/-- Reads what is left of a numeral when the blanks and the sign are gone. -/
def unsigned? (negative : Bool) (body : List Char) : Option Reading :=
  match hexBody? body with
  | some digits =>
    if digits.isEmpty then none
    else (accumulate 16 0.0 digits).map fun x => .float (withSign negative x)
  | none =>
    if !startsDecimal body then none
    else if !body.all isDecimalChar then none
    else match integer? negative body with
      | some i => some (.int i)
      | none => (decimal? body).map fun x => .float (withSign negative x)

theorem parse?_eq (s : String) :
    parse? s = unsigned? (splitSign (trim s.toList)).1 (splitSign (trim s.toList)).2 := rfl

/-- A decimal begins like one and has no other characters. -/
theorem passes_of_decimal {mantissa exponent : List Char} (hmantissa : IsMantissa mantissa)
    (hexponent : IsExponent exponent) :
    startsDecimal (mantissa ++ exponent) = true ∧ (mantissa ++ exponent).all isDecimalChar = true := by
  refine ⟨?_, List.all_eq_true.mpr (isDecimalChar_of_decimal hmantissa hexponent)⟩
  obtain ⟨c, rest, hcs, hc⟩ := (IsUnsigned.decimal hmantissa hexponent).exists_head
  rw [hcs, startsDecimal]
  simpa using hc

theorem isSome_unsigned? (negative : Bool) (body : List Char) :
    (unsigned? negative body).isSome = true ↔ IsUnsigned body := by
  unfold unsigned?
  split
  next digits hhex =>
    have hrow : (if digits.isEmpty then none
        else (accumulate 16 0.0 digits).map fun x => Reading.float (withSign negative x)).isSome = true ↔
          IsRow isHexDigit digits := by
      split_ifs with hempty <;> simp_all [IsRow, isSome_accumulate]
    rw [hrow]
    obtain ⟨mark, hmark, hbody⟩ := hexBody?_eq_some hhex
    constructor
    · rw [hbody]
      exact .hexadecimal hmark
    · intro h
      cases h with
      | hexadecimal _ hds =>
        cases hbody
        exact hds
      | decimal hmantissa hexponent =>
        simp [hexBody?_decimal (isDecimalChar_of_decimal hmantissa hexponent)] at hhex
  next hhex =>
    have hdecimal : (match integer? negative body with
        | some i => some (Reading.int i)
        | none => (decimal? body).map fun x => .float (withSign negative x)).isSome = true ↔
          ∃ mantissa exponent, body = mantissa ++ exponent ∧ IsMantissa mantissa ∧ IsExponent exponent := by
      split
      next i hi =>
        exact iff_of_true rfl ⟨body, [], (List.append_nil body).symm, isMantissa_of_integer? hi, .absent⟩
      next => rw [Option.isSome_map, isSome_decimal?]
    constructor
    · intro h
      split_ifs at h with hstart hall
      · cases h
      · cases h
      · obtain ⟨mantissa, exponent, rfl, hmantissa, hexponent⟩ := hdecimal.mp h
        exact .decimal hmantissa hexponent
    · intro h
      cases h with
      | hexadecimal hmark => rcases hmark with rfl | rfl <;> simp [hexBody?] at hhex
      | decimal hmantissa hexponent =>
        obtain ⟨hstart, hall⟩ := passes_of_decimal hmantissa hexponent
        rw [hstart, hall]
        exact hdecimal.mpr ⟨_, _, rfl, hmantissa, hexponent⟩

theorem IsUnsigned.isBlank_eq_false {cs : List Char} (h : IsUnsigned cs) : ∀ c ∈ cs, isBlank c = false := by
  cases h with
  | hexadecimal hmark hds =>
    simp only [List.mem_cons]
    rintro c (rfl | rfl | hc)
    · rfl
    · rcases hmark with rfl | rfl <;> rfl
    · exact isBlank_eq_false_of_isHexDigit (hds.2 c hc)
  | decimal hmantissa hexponent =>
    exact fun c hc => isBlank_eq_false_of_isDecimalChar (isDecimalChar_of_decimal hmantissa hexponent c hc)

theorem IsBare.isBlank_eq_false {cs : List Char} (h : IsBare cs) : ∀ c ∈ cs, isBlank c = false := by
  obtain ⟨hsign, hbody⟩ := h
  simp only [List.mem_append]
  rintro c (hc | hc)
  · exact isBlank_eq_false_of_isDecimalChar (hsign.all_isDecimalChar c hc)
  · exact hbody.isBlank_eq_false c hc

theorem IsBare.ne_nil {cs : List Char} (h : IsBare cs) : cs ≠ [] := by
  obtain ⟨-, hbody⟩ := h
  obtain ⟨c, rest, rfl, -⟩ := hbody.exists_head
  simp

theorem dropWhile_isBlank {front cs : List Char} (hfront : ∀ c ∈ front, isBlank c)
    (hcs : ∀ c ∈ cs.head?, isBlank c = false) : (front ++ cs).dropWhile isBlank = cs := by
  rw [List.dropWhile_append_of_pos hfront]
  cases cs with
  | nil => rfl
  | cons c cs => rw [List.dropWhile_cons_of_neg (by simp [hcs c rfl])]

/-- Trimming takes exactly the blanks around a row that has none. -/
theorem trim_append {front cs back : List Char} (hne : cs ≠ []) (hcs : ∀ c ∈ cs, isBlank c = false)
    (hfront : ∀ c ∈ front, isBlank c) (hback : ∀ c ∈ back, isBlank c) : trim (front ++ cs ++ back) = cs := by
  have hhead : ∀ c ∈ (cs ++ back).head?, isBlank c = false := by
    rw [List.head?_append_of_ne_nil _ hne]
    exact fun c hc => hcs c (List.mem_of_mem_head? hc)
  have hlast : ∀ c ∈ cs.reverse.head?, isBlank c = false :=
    fun c hc => hcs c (List.mem_reverse.mp (List.mem_of_mem_head? hc))
  rw [trim, List.append_assoc, dropWhile_isBlank hfront hhead, List.reverse_append,
    dropWhile_isBlank (fun c hc => hback c (List.mem_reverse.mp hc)) hlast, List.reverse_reverse]

theorem exists_trim (cs : List Char) :
    ∃ front back, cs = front ++ trim cs ++ back ∧ ∀ c ∈ front ++ back, isBlank c := by
  have hfront := List.takeWhile_append_dropWhile (p := isBlank) (l := cs)
  have hback := List.takeWhile_append_dropWhile (p := isBlank) (l := (cs.dropWhile isBlank).reverse)
  refine ⟨cs.takeWhile isBlank, ((cs.dropWhile isBlank).reverse.takeWhile isBlank).reverse, ?_, ?_⟩
  · rw [trim, List.append_assoc, ← List.reverse_append, hback, List.reverse_reverse, hfront]
  · simp only [List.mem_append, List.mem_reverse]
    rintro c (hc | hc) <;> exact List.mem_takeWhile_imp hc

theorem isNumeral_iff (s : String) : IsNumeral s ↔ IsBare (trim s.toList) := by
  simp only [IsNumeral, ← isBlank_iff]
  constructor
  · rintro ⟨front, bare, back, hs, hblank, hbare⟩
    have htrim : trim s.toList = bare := by
      rw [hs]
      exact trim_append hbare.ne_nil hbare.isBlank_eq_false (fun c hc => hblank c (by simp [hc]))
        fun c hc => hblank c (by simp [hc])
    rwa [htrim]
  · intro hbare
    obtain ⟨front, back, hs, hblank⟩ := exists_trim s.toList
    exact ⟨front, trim s.toList, back, hs, hblank, hbare⟩

theorem isBare_iff (cs : List Char) : IsBare cs ↔ IsUnsigned (splitSign cs).2 := by
  constructor
  · rintro ⟨hsign, hbody⟩
    rwa [splitSign_append hsign hbody.head_ne]
  · intro hbody
    obtain ⟨sign, hsign, hcs⟩ := exists_splitSign cs
    rw [hcs]
    exact .signed hsign hbody

theorem isSome_parse? (s : String) : (parse? s).isSome = true ↔ IsNumeral s := by
  rw [parse?_eq, isSome_unsigned?, isNumeral_iff, isBare_iff]

theorem isRow_toDigits (n : Nat) : IsRow Char.isDigit (Nat.toDigits 10 n) :=
  ⟨Nat.toDigits_ne_nil, fun _ => Nat.isDigit_of_mem_toDigits (by decide) (by decide)⟩

theorem natural_toDigits (n : Nat) : natural (Nat.toDigits 10 n) = n := by
  have hnatural (cs : List Char) : natural cs = Nat.ofDigitChars 10 cs 0 := by
    simp only [natural, Nat.ofDigitChars, Nat.mul_comm]
    rfl
  rw [hnatural, Nat.ofDigitChars_toDigits (by decide) (by decide)]

theorem integer?_toDigits (negative : Bool) {n : Nat} (hn : n < 2 ^ 63) :
    integer? negative (Nat.toDigits 10 n) = some (Int64.ofInt (Binary.signed negative n)) := by
  obtain ⟨hne, hdigits⟩ := isRow_toDigits n
  have hlength : (significant (Nat.toDigits 10 n)).length ≤ 19 :=
    (List.dropWhile_suffix _).length_le.trans ((Nat.length_toDigits_le_iff (by decide) (by decide)).mpr (by omega))
  rw [integer?, if_pos, natural_toDigits]
  simp only [Bool.and_eq_true, Bool.not_eq_true', List.isEmpty_eq_false_iff, List.all_eq_true, decide_eq_true_eq]
  exact ⟨⟨⟨hne, hdigits⟩, hlength⟩, by rw [natural_toDigits]; omega⟩

/-- An optional sign and the digits of a number below `2 ^ 63` read as an integer. -/
theorem parse?_toDigits {sign : List Char} (hsign : IsSign sign) {n : Nat} (hn : n < 2 ^ 63) :
    parse? (String.ofList (sign ++ Nat.toDigits 10 n)) =
      some (.int (Int64.ofInt (Binary.signed (sign == ['-']) n))) := by
  have hrow := isRow_toDigits n
  have hdecimal : ∀ c ∈ Nat.toDigits 10 n, isDecimalChar c := fun c hc => isDecimalChar_of_isDigit (hrow.2 c hc)
  have hbare : IsBare (sign ++ Nat.toDigits 10 n) := by
    simpa using IsBare.signed hsign (.decimal (.whole hrow) .absent)
  have htrim : trim (sign ++ Nat.toDigits 10 n) = sign ++ Nat.toDigits 10 n := by
    simpa using @trim_append [] _ [] hbare.ne_nil hbare.isBlank_eq_false (by simp) (by simp)
  obtain ⟨hstart, hall⟩ := passes_of_decimal (.whole hrow) .absent
  rw [List.append_nil] at hstart hall
  rw [parse?_eq, String.toList_ofList, htrim, splitSign_append hsign hrow.head_ne, unsigned?,
    hexBody?_decimal hdecimal, integer?_toDigits _ hn, hstart, hall]
  rfl

theorem parse?_intText {i : Int64} (hi : i ≠ Int64.minValue) : parse? (Number.intText i.toInt) = some (.int i) := by
  have hlow : -2 ^ 63 < i.toInt :=
    lt_of_le_of_ne i.le_toInt fun h => hi (Int64.toInt_inj.mp h.symm)
  have hhigh := i.toInt_lt
  have hsmall : i.toInt.natAbs < 2 ^ 63 := by omega
  have hread (sign : List Char) (hsign : IsSign sign) (h : Binary.signed (sign == ['-']) i.toInt.natAbs = i.toInt) :
      parse? (String.ofList (sign ++ Nat.toDigits 10 i.toInt.natAbs)) = some (.int i) := by
    rw [parse?_toDigits hsign hsmall, h, Int64.ofInt_toInt]
  unfold Number.intText
  split_ifs with hneg
  · refine hread ['-'] .minus ?_
    simp only [Binary.signed, BEq.rfl, if_true]
    omega
  · refine hread [] .absent ?_
    exact Int.natAbs_of_nonneg (Int.not_lt.mp hneg)

/-- The least integer has a magnitude that no integer has: its text is read as a double. -/
theorem parseNumber?_minValue :
    Value.parseNumber? (Number.intText Int64.minValue.toInt) = some (.int Int64.minValue) := by
  decide +kernel

/-- Reading accepts exactly the texts of the grammar, and reads the text of an integer as that integer. -/
theorem numerals_are_read :
    (∀ s : String, (Value.parseNumber? s).isSome = true ↔ IsNumeral s) ∧
      ∀ i : Int64, (Value.int i).toText?.bind Value.parseNumber? = some (.int i) := by
  constructor
  · intro s
    rw [Value.parseNumber?, Option.isSome_map, isSome_parse?]
  · intro i
    rw [Value.toText?, Option.bind_some]
    by_cases hi : i = Int64.minValue
    · rw [hi, parseNumber?_minValue]
    · rw [Value.parseNumber?, parse?_intText hi]
      rfl

/-- Blanks, a sign, a point and an exponent are read where the grammar has them, and only there. -/
theorem numerals_are_read_samples :
    (Value.parseNumber? "\t-.5E+3 ").isSome = true ∧
      (∀ s ∈ ["", "-", ".", "1e", "--1", "0x", "inf", "nan"], ¬IsNumeral s) ∧
      (Value.int Int64.minValue).toText?.bind Value.parseNumber? = some (.int Int64.minValue) := by
  obtain ⟨hgrammar, hinteger⟩ := numerals_are_read
  have hmantissa : IsMantissa ['.', '5'] := .fraction ⟨List.cons_ne_nil _ _, by simp⟩
  have hexponent : IsExponent ['E', '+', '3'] := .present (.inr rfl) .plus ⟨List.cons_ne_nil '3' [], by simp⟩
  have hbare : IsBare ['-', '.', '5', 'E', '+', '3'] := .signed .minus (.decimal hmantissa hexponent)
  refine ⟨(hgrammar _).mpr ⟨['\t'], _, [' '], rfl, by simp, hbare⟩, fun s hs hnumeral => ?_, hinteger _⟩
  have hread := (hgrammar s).mpr hnumeral
  fin_cases hs <;> revert hread <;> decide

end LuaMachine.Numeral
