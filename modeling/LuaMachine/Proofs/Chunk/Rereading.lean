import LuaMachine.Proofs.Chunk.RoundTrip

namespace LuaMachine

namespace Text

theorem length_decodeFrom_le (started : Option Partial) (bytes : List UInt8) :
    (decodeFrom started bytes).length ≤ bytes.length + if started.isSome then 1 else 0 := by
  fun_induction decodeFrom started bytes <;> simp_all <;> omega

/-- Decoding makes at most one character of each byte. -/
theorem length_encode_decode_le (bytes : List UInt8) : (encode (decode bytes)).length ≤ 4 * bytes.length := by
  have hchars : (decode bytes).toList.length ≤ bytes.length := by
    rw [decode, String.toList_ofList]
    exact length_decodeFrom_le none bytes
  have hbytes (cs : List Char) : (cs.flatMap String.utf8EncodeChar).length ≤ 4 * cs.length := by
    induction cs with
    | nil => exact Nat.le_refl 0
    | cons c cs ih =>
      have hchar : (String.utf8EncodeChar c).length ≤ 4 := by
        rw [String.length_utf8EncodeChar]
        exact c.utf8Size_le_four
      rw [List.flatMap_cons, List.length_append, List.length_cons]
      omega
  rw [encode_eq_flatMap]
  exact (hbytes _).trans (Nat.mul_le_mul_left 4 hchars)

end Text

/-- What reading makes of a constant: a double that equals no integer, an integer that equals a double if numbers are
doubles, and a text that is not much longer than the bytes were many. -/
structure Constant.IsLoaded (integral : Bool) (n : Nat) (c : Constant) : Prop where
  float : ∀ bits, c = .float bits → number bits = .float bits
  int : integral = false → ∀ i, c = .int i → ∃ x : Float, (Binary.ofFloat x).integer? = some i.toInt
  text : ∀ s, c = .str s → (Text.encode s).length ≤ 4 * n

/-- What reading makes of a function, apart from those inside it, from `n` bytes. -/
structure Prototype.IsLoaded (integral : Bool) (n : Nat) (p : Prototype) : Prop where
  code : ∀ i ∈ p.code, i.opcode?.isSome
  constants : ∀ c ∈ p.constants, c.IsLoaded integral n
  source : (Text.encode p.source).length ≤ 4 * n
  localNames : ∀ v ∈ p.locals, (Text.encode v.name).length ≤ 4 * n
  upvalueNames : ∀ name ∈ p.upvalueNames, (Text.encode name).length ≤ 4 * n
  codeSize : p.code.size ≤ n
  constantsSize : p.constants.size ≤ n
  childCount : p.children.length ≤ n
  linesSize : p.lines.size ≤ n
  localCount : p.locals.length ≤ n
  upvalueNameCount : p.upvalueNames.length ≤ n

/-- The number constant of a double is an integer only if that equals the double. -/
theorem Constant.isLoaded_number (integral : Bool) (n : Nat) (bits : UInt64) : (number bits).IsLoaded integral n := by
  have hstands := number_standsFor bits
  refine ⟨fun canonical heq => ?_, fun _ i heq => ?_, fun s heq => ?_⟩
  · rw [heq] at hstands
    cases hstands with
    | float hcanonical => exact hcanonical
  · rw [heq] at hstands
    cases hstands with
    | int hvalue => exact ⟨Float.ofBits bits, by rw [Binary.ofFloat_ofBits, hvalue]⟩
  · rw [heq] at hstands
    cases hstands

/-- A constant comes back as it is if it is no integer, or an integer that equals a double. -/
theorem Constant.reloaded_eq_self_iff {c : Constant} :
    c.reloaded = c ↔ ∀ i, c = .int i → ∃ x : Float, (Binary.ofFloat x).integer? = some i.toInt := by
  constructor
  · rintro hsame i rfl
    have hstands := number_standsFor (Number.ofInt64 i).toBits
    rw [show number (Number.ofInt64 i).toBits = .int i from hsame] at hstands
    cases hstands with
    | int hvalue => exact ⟨Number.ofInt64 i, by rw [Binary.ofFloat_eq_ofBits, hvalue]⟩
  · intro hint
    cases c with
    | int i =>
      obtain ⟨x, hx⟩ := hint i rfl
      exact number_ofInt64 hx
    | nil | bool | float | str => rfl

namespace Prototype

/-- What a chunk can count of a function, apart from those inside it: lists and texts of a length that can be
written. -/
structure IsCountable (p : Prototype) : Prop where
  source : (Text.encode p.source).length + 1 < 2 ^ 64
  strings : ∀ s, .str s ∈ p.constants → (Text.encode s).length + 1 < 2 ^ 64
  localNames : ∀ v ∈ p.locals, (Text.encode v.name).length + 1 < 2 ^ 64
  upvalueNames : ∀ name ∈ p.upvalueNames, (Text.encode name).length + 1 < 2 ^ 64
  codeSize : p.code.size < 2 ^ 31
  constantsSize : p.constants.size < 2 ^ 31
  childCount : p.children.length < 2 ^ 31
  linesSize : p.lines.size < 2 ^ 31
  localCount : p.locals.length < 2 ^ 31
  upvalueNameCount : p.upvalueNames.length < 2 ^ 31

theorem IsCountable.isWritable {p : Prototype} (h : p.IsCountable) (hcode : ∀ i ∈ p.code, i.opcode?.isSome)
    (hfloats : ∀ bits, .float bits ∈ p.constants → Constant.number bits = .float bits) : p.IsWritable :=
  ⟨hcode, hfloats, h.source, h.strings, h.localNames, h.upvalueNames, h.codeSize, h.constantsSize, h.childCount,
    h.linesSize, h.localCount, h.upvalueNameCount⟩

/-- What was read from fewer bytes than a count can count can be counted. -/
theorem IsLoaded.isCountable {integral : Bool} {n : Nat} {p : Prototype} (h : p.IsLoaded integral n)
    (hn : n < 2 ^ 31) : p.IsCountable := by
  have htext {length : Nat} (hlength : length ≤ 4 * n) : length + 1 < 2 ^ 64 := by omega
  exact ⟨htext h.source, fun s hs => htext ((h.constants _ hs).text s rfl), fun v hv => htext (h.localNames v hv),
    fun name hname => htext (h.upvalueNames name hname), h.codeSize.trans_lt hn, h.constantsSize.trans_lt hn,
    h.childCount.trans_lt hn, h.linesSize.trans_lt hn, h.localCount.trans_lt hn, h.upvalueNameCount.trans_lt hn⟩

theorem sizeOf_lt_of_mem_children {p c : Prototype} (hc : c ∈ p.children) : sizeOf c < sizeOf p := by
  cases p
  have := List.sizeOf_lt_of_mem hc
  simp only [Prototype.mk.sizeOf_spec]
  dsimp only at this
  omega

/-- What holds of a function if it holds of the functions right inside it holds of all functions. -/
theorem child_induction {motive : Prototype → Prop} (step : ∀ p, (∀ c ∈ p.children, motive c) → motive p)
    (p : Prototype) : motive p :=
  step p fun c hc =>
    have := sizeOf_lt_of_mem_children hc
    child_induction step c
termination_by sizeOf p

/-- A function comes back as it is if all constants in it do. -/
theorem reloaded_eq_self_iff {p : Prototype} :
    p.reloaded false = p ↔ ∀ q, p.Contains q → ∀ c ∈ q.constants, c.reloaded = c := by
  induction p using child_induction with
  | step p ih =>
    have hparts : p.reloaded false = p ↔ p.constants.map Constant.reloaded = p.constants.map id ∧
        p.children.map (reloaded false) = p.children.map id := by
      rw [reloaded_eq, Array.map_id, List.map_id]
      cases p
      simp [reloadedHead]
    rw [hparts, Array.map_inj_left, List.map_inj_left]
    constructor
    · rintro ⟨hconstants, hchildren⟩ q hq
      cases hq with
      | self => exact hconstants
      | child hc hq => exact (ih _ hc).mp (hchildren _ hc) q hq
    · exact fun hall => ⟨hall p (.self p), fun c hc => (ih c hc).mpr fun q hq => hall q (.child hc hq)⟩

end Prototype

namespace Chunk

namespace Reader

variable {α β : Type} {n : Nat} {r : Reader α} {P P' : α → Prop} {Q : β → Prop}

/-- From at most `n` bytes a reader gives only such results, and it leaves no more bytes. -/
def Gives (n : Nat) (r : Reader α) (P : α → Prop) : Prop :=
  ∀ ⦃bytes x rest⦄, bytes.length ≤ n → r bytes = .ok (x, rest) → P x ∧ rest.length ≤ n

namespace Gives

theorem pure {x : α} (hx : P x) : Gives n (Pure.pure x) P := by
  rintro bytes _ _ hbytes ⟨⟩
  exact ⟨hx, hbytes⟩

theorem fail (e : Error) : Gives n (Reader.fail e) P := nofun

theorem bind {next : α → Reader β} (hr : Gives n r P) (hnext : ∀ x, P x → Gives n (next x) Q) :
    Gives n (r >>= next) Q := by
  intro bytes y rest hbytes hy
  cases hread : r bytes with
  | error e =>
    rw [bind_of_error hread] at hy
    cases hy
  | ok read =>
    rw [bind_of_ok hread] at hy
    obtain ⟨hx, hleft⟩ := hr hbytes hread
    exact hnext _ hx hleft hy

theorem imp (h : Gives n r P) (himp : ∀ x, P x → P' x) : Gives n r P' :=
  fun _ _ _ hbytes hx => (h hbytes hx).imp_left (himp _)

theorem byte : Gives n Reader.byte fun _ => True := by
  intro bytes b rest hbytes hread
  cases bytes with
  | nil => cases hread
  | cons b bytes =>
    cases hread
    exact ⟨trivial, Nat.le_of_succ_le hbytes⟩

theorem take (count : Nat) : Gives n (Reader.take count) fun taken => taken.length ≤ n := by
  intro bytes taken rest hbytes hread
  rw [Reader.take] at hread
  split at hread
  · cases hread
    exact ⟨(List.length_take_le' count bytes).trans hbytes, (List.drop_sublist count bytes).length_le.trans hbytes⟩
  · cases hread

theorem many (hr : Gives n r P) (count : Nat) :
    Gives n (Reader.many r count) fun xs => xs.length = count ∧ ∀ x ∈ xs, P x := by
  induction count with
  | zero => exact pure ⟨rfl, nofun⟩
  | succ count ih =>
    exact hr.bind fun x hx => ih.bind fun xs hxs =>
      pure ⟨congrArg Nat.succ hxs.1, List.forall_mem_cons.mpr ⟨hx, hxs.2⟩⟩

end Gives

end Reader

namespace Layout

open Reader (Gives)

variable {l : Layout} {n : Nat}

theorem gives_unsigned (width : Nat) : Gives n (l.unsigned width) fun _ => True :=
  (Gives.take width).bind fun _ _ => .pure trivial

theorem gives_int : Gives n l.int fun _ => True := (gives_unsigned _).bind fun _ _ => .pure trivial

theorem gives_word : Gives n l.word fun _ => True := gives_int.bind fun _ _ => .pure trivial

/-- A count is no more than the bytes that are left. -/
theorem gives_count : Gives n l.count fun count => count ≤ n := by
  have hleft : Gives n Reader.remaining fun left => left ≤ n := by
    rintro bytes _ _ hbytes ⟨⟩
    exact ⟨hbytes, hbytes⟩
  refine gives_int.bind fun count _ => hleft.bind fun left hle => ?_
  split
  · exact .fail _
  · exact .pure (by omega)

theorem gives_list {α : Type} {item : Reader α} {P : α → Prop} (hitem : Gives n item P) :
    Gives n (l.list item) fun xs => xs.length ≤ n ∧ ∀ x ∈ xs, P x :=
  gives_count.bind fun count hcount => (hitem.many count).imp fun _ hxs => ⟨hxs.1 ▸ hcount, hxs.2⟩

theorem gives_string? : Gives n l.string? fun text? => ∀ s ∈ text?, (Text.encode s).length ≤ 4 * n := by
  refine (gives_unsigned _).bind fun length _ => ?_
  split
  · exact .pure nofun
  · refine (Gives.take length).bind fun bytes hbytes => .pure ?_
    rintro _ ⟨⟩
    refine (Text.length_encode_decode_le _).trans ?_
    rw [List.length_dropLast]
    omega

theorem gives_string : Gives n l.string fun s => (Text.encode s).length ≤ 4 * n := by
  refine gives_string?.bind fun text? htext => .pure ?_
  cases text? with
  | none =>
    rw [Option.getD_none, Text.encode_eq_flatMap]
    exact Nat.zero_le _
  | some s => exact htext s rfl

theorem gives_instruction : Gives n l.instruction fun i => i.opcode?.isSome := by
  refine (gives_unsigned 4).bind fun word _ => ?_
  dsimp only
  split
  · exact .fail _
  · rename_i hsome
    exact .pure (Option.isSome_iff_ne_none.mpr (by simpa using hsome))

theorem gives_constant : Gives n l.constant fun c => c.IsLoaded l.integral n := by
  have hplain {c : Constant} (hc : c = .nil ∨ ∃ b, c = .bool b) : c.IsLoaded l.integral n := by
    obtain rfl | ⟨b, rfl⟩ := hc <;> exact ⟨nofun, nofun, nofun⟩
  refine Gives.byte.bind fun tag _ => ?_
  split
  · exact .pure (hplain (.inl rfl))
  split
  · exact Gives.byte.bind fun b _ => .pure (hplain (.inr ⟨_, rfl⟩))
  split
  · refine (gives_unsigned _).bind fun raw _ => ?_
    split
    · rename_i hintegral
      exact .pure ⟨nofun, fun hnot => absurd (hintegral.symm.trans hnot) nofun, nofun⟩
    · split <;> exact .pure (Constant.isLoaded_number _ _ _)
  split
  · exact gives_string.bind fun s hs => .pure ⟨nofun, nofun, fun _ heq => Constant.str.inj heq ▸ hs⟩
  · exact .fail _

theorem gives_localVariable : Gives n l.localVariable fun v => (Text.encode v.name).length ≤ 4 * n :=
  gives_string.bind fun _ hname => gives_word.bind fun _ _ => gives_word.bind fun _ _ => .pure hname

theorem gives_function (depth : Nat) {outerSource : String} (houter : (Text.encode outerSource).length ≤ 4 * n) :
    Gives n (l.function depth outerSource) fun p => ∀ q, p.Contains q → q.IsLoaded l.integral n := by
  induction depth generalizing outerSource with
  | zero => exact .fail _
  | succ depth ih =>
    rw [function]
    refine gives_string?.bind fun text? htext => ?_
    have hsource : (Text.encode (text?.getD outerSource)).length ≤ 4 * n := by
      cases text? with
      | none => exact houter
      | some s => exact htext s rfl
    refine gives_word.bind fun _ _ => gives_word.bind fun _ _ => Gives.byte.bind fun _ _ => Gives.byte.bind fun _ _ =>
      Gives.byte.bind fun _ _ => Gives.byte.bind fun _ _ => (gives_list gives_instruction).bind fun code hcode =>
      (gives_list gives_constant).bind fun constants hconstants =>
      (gives_list (ih hsource)).bind fun children hchildren => (gives_list gives_word).bind fun lines hlines =>
      (gives_list gives_localVariable).bind fun locals hlocals =>
      (gives_list gives_string).bind fun upvalueNames hupvalueNames => .pure fun q hq => ?_
    cases hq with
    | self =>
      exact ⟨fun i hi => hcode.2 i (List.mem_toArray.mp hi), fun c hc => hconstants.2 c (List.mem_toArray.mp hc),
        hsource, hlocals.2, hupvalueNames.2, by simpa using hcode.1, by simpa using hconstants.1, hchildren.1,
        by simpa using hlines.1, hlocals.1, hupvalueNames.1⟩
    | child hc hq => exact hchildren.2 _ hc q hq

end Layout

theorem gives_header {n : Nat} : Reader.Gives n header fun _ => True := by
  refine (Reader.Gives.take 12).bind fun taken _ => ?_
  split
  · split
    · exact .fail _
    split
    · exact .fail _
    split
    · exact .fail _
    dsimp only
    split
    · exact .pure trivial
    · exact .fail _
  · exact .fail _

/-- What reading a chunk gives, by the layout that its header announces. -/
theorem isLoaded_of_read {bytes : List UInt8} {p : Prototype} (hread : read bytes = .ok p) :
    ∃ l rest, header bytes = .ok (l, rest) ∧ ∀ q, p.Contains q → q.IsLoaded l.integral bytes.length := by
  unfold read at hread
  cases hheader : header bytes with
  | error e =>
    rw [hheader] at hread
    cases hread
  | ok announced =>
    obtain ⟨l, rest⟩ := announced
    rw [hheader] at hread
    have hlong : 12 ≤ bytes.length := by
      by_contra hshort
      rw [header, Reader.bind_of_error (if_neg hshort)] at hheader
      cases hheader
    have hsource : (Text.encode unnamedSource).length ≤ 4 * bytes.length := by
      have htwo : (Text.encode unnamedSource).length = 2 := by
        rw [Text.encode_eq_flatMap]
        decide
      omega
    refine ⟨l, rest, rfl, ?_⟩
    dsimp only at hread
    cases hfunction : l.function (rest.length + 1) unnamedSource rest with
    | error e =>
      rw [hfunction] at hread
      cases hread
    | ok result =>
      rw [hfunction] at hread
      cases hread
      exact (Layout.gives_function _ hsource (gives_header (Nat.le_refl _) hheader).2 hfunction).1

/-- A chunk of less than two gigabytes is read as something that can be counted. -/
theorem isCountable_of_read {bytes : List UInt8} {p : Prototype} (hread : read bytes = .ok p)
    (hbytes : bytes.length < 2 ^ 31) : ∀ q, p.Contains q → q.IsCountable := by
  obtain ⟨l, rest, -, hloaded⟩ := isLoaded_of_read hread
  exact fun q hq => (hloaded q hq).isCountable hbytes

/-- What was read can be written, if it can be counted. -/
theorem isWritable_of_read {bytes : List UInt8} {p : Prototype} (hread : read bytes = .ok p)
    (hcountable : ∀ q, p.Contains q → q.IsCountable) : ∀ q, p.Contains q → q.IsWritable := by
  obtain ⟨l, rest, -, hloaded⟩ := isLoaded_of_read hread
  exact fun q hq => (hcountable q hq).isWritable (hloaded q hq).code
    fun bits hbits => ((hloaded q hq).constants _ hbits).float bits rfl

/-- **What was read can be written and read again.** If it can be counted, it comes back as it is, but for its integers
that equal no double, which come back as the numbers of the nearest doubles; and a chunk whose layout has doubles for
numbers gives no such integers. -/
theorem read_write_read {bytes : List UInt8} {p : Prototype} (hread : read bytes = .ok p)
    (hcountable : ∀ q, p.Contains q → q.IsCountable) :
    read (write p false) = .ok (p.reloaded false) ∧
      (p.reloaded false = p ↔ ∀ q, p.Contains q → ∀ i, .int i ∈ q.constants →
        ∃ x : Float, (Binary.ofFloat x).integer? = some i.toInt) ∧
      (∀ i : Int64, (Constant.int i).reloaded.value = Value.number (Number.ofInt64 i)) ∧
      ∀ l rest, header bytes = .ok (l, rest) → l.integral = false → p.reloaded false = p := by
  have hsame : p.reloaded false = p ↔ ∀ q, p.Contains q → ∀ i, .int i ∈ q.constants →
      ∃ x : Float, (Binary.ofFloat x).integer? = some i.toInt := by
    simp only [Prototype.reloaded_eq_self_iff, Constant.reloaded_eq_self_iff]
    exact ⟨fun h q hq i hi => h q hq _ hi i rfl, fun h q hq c hc i heq => h q hq i (heq ▸ hc)⟩
  refine ⟨read_write_reloaded (isWritable_of_read hread hcountable) false, hsame, fun _ => Constant.value_number _, ?_⟩
  intro l rest hheader hfloating
  obtain ⟨l', rest', hheader', hloaded⟩ := isLoaded_of_read hread
  obtain ⟨rfl, -⟩ := Prod.mk.inj (Except.ok.inj (hheader.symm.trans hheader'))
  exact hsame.mpr fun q hq i hi => ((hloaded q hq).constants _ hi).int hfloating i rfl

/-- A big-endian chunk with integers of three bytes comes back as it is. -/
theorem read_write_read_bigEndian :
    let bytes := signature ++ [version, format, 0, 2, 1, 4, 3, 1] ++ [0, 1, 0x2c, 0, 0, 0, 0, 0, 2] ++
      [0, 1, 0, 0, 0, 30] ++ [0, 1, numberTag, 0xff, 0xff, 0xfb] ++ [0, 0, 0, 0, 0, 0, 0, 0]
    let p : Prototype := { source := unnamedSource, lineDefined := 300, stackSize := 2, code := #[⟨30⟩],
                           constants := #[.int (-5)] }
    read bytes = .ok p ∧ (∀ q, p.Contains q → q.IsCountable) ∧ read (write p false) = .ok p := by
  intro bytes p
  have hread : read bytes = .ok p := rfl
  have hcountable := isCountable_of_read hread (by decide)
  obtain ⟨hagain, hsame, -, -⟩ := read_write_read hread hcountable
  refine ⟨hread, hcountable, hagain.trans (congrArg _ (hsame.mpr fun q hq i hi => ?_))⟩
  cases hq with
  | self =>
    obtain rfl : i = -5 := by simpa [p] using hi
    exact ⟨Float.ofBits 0xc014000000000000, rfl⟩
  | child hc _ => cases hc

/-- A chunk with integers of eight bytes, one of which no double equals, comes back otherwise. -/
theorem read_write_rounded :
    let bytes := signature ++ [version, format, 1, 1, 1, 4, 8, 1] ++ [0, 0, 0, 0, 0, 0, 2] ++ [1, 30, 0, 0, 0] ++
      [1, numberTag, 1, 0, 0, 0, 0, 0, 0x20, 0] ++ [0, 0, 0, 0]
    let p : Prototype := { source := unnamedSource, stackSize := 2, code := #[⟨30⟩],
                           constants := #[.int 9007199254740993] }
    read bytes = .ok p ∧ read (write p false) ≠ .ok p := by
  intro bytes p
  have hread : read bytes = .ok p := rfl
  refine ⟨hread, fun hsame => ?_⟩
  have hwritable := isWritable_of_read hread (isCountable_of_read hread (by decide))
  rw [read_write_reloaded hwritable false] at hsame
  have hconstants : (p.reloaded false).constants = p.constants := by rw [Except.ok.inj hsame]
  exact absurd hconstants (by decide +kernel)

end Chunk

end LuaMachine
