import LuaMachine.Proofs.Chunk.Encoding
import LuaMachine.Proofs.Chunk.Takes
import LuaMachine.Proofs.Text.Utf8

namespace LuaMachine.Chunk

open Reader (Takes Extends)

theorem length_littleEndianBytes (width n : Nat) : (littleEndianBytes width n).length = width := by
  induction width generalizing n with
  | zero => rfl
  | succ width ih => rw [littleEndianBytes, List.length_cons, ih]

theorem natOfBytes_littleEndianBytes {width n : Nat} (hn : n < 256 ^ width) :
    natOfBytes (littleEndianBytes width n) = n := by
  induction width generalizing n with
  | zero =>
    rw [Nat.pow_zero] at hn
    show 0 = n
    omega
  | succ width ih =>
    have hrest : n / 256 < 256 ^ width := Nat.div_lt_of_lt_mul (by rwa [Nat.pow_succ'] at hn)
    show (UInt8.ofNat n).toNat + 256 * natOfBytes (littleEndianBytes width (n / 256)) = n
    rw [ih hrest, UInt8.toNat_ofNat']
    omega

/-- A number below the sign bit is read as it is. -/
theorem signExtend_of_lt {width n : Nat} (hn : n < 2 ^ (8 * width - 1)) : signExtend width n = n := if_pos hn

/-- The two's complement of an integer is read as that integer. -/
theorem signExtend_emod {width n : Nat} {i : Int} (hwidth : 1 ≤ width) (hlow : -2 ^ (8 * width - 1) ≤ i)
    (hhigh : i < 2 ^ (8 * width - 1)) (hn : (n : Int) = i % 2 ^ (8 * width)) : signExtend width n = i := by
  have hdouble : (2 : Int) ^ (8 * width) = 2 * 2 ^ (8 * width - 1) := by
    rw [← pow_succ', Nat.sub_add_cancel (by omega)]
  unfold signExtend
  show (if n < 2 ^ (8 * width - 1) then (n : Int) else (n : Int) - ((2 ^ (8 * width) : Nat) : Int)) = i
  have hcast : ((2 ^ (8 * width - 1) : Nat) : Int) = 2 ^ (8 * width - 1) := by push_cast; rfl
  have hcast' : ((2 ^ (8 * width) : Nat) : Int) = 2 * 2 ^ (8 * width - 1) := by push_cast; exact hdouble
  rw [hdouble] at hn
  rw [hcast']
  generalize (2 : Int) ^ (8 * width - 1) = half at hlow hhigh hn hcast
  by_cases hsign : 0 ≤ i
  · rw [Int.emod_eq_of_lt hsign (by omega)] at hn
    rw [if_pos (by omega), hn]
  · rw [← Int.add_mul_emod_self_left i (2 * half) 1, Int.emod_eq_of_lt (by omega) (by omega)] at hn
    rw [if_neg (by omega)]
    omega

theorem ofInt_of_emod {i : Int} {w : UInt32} (hi : i % 2 ^ 32 = w.toNat) : UInt32.ofInt i = w := by
  rw [UInt32.ofInt, hi, Int.toNat_natCast, UInt32.ofNat_toNat]

namespace Layout

variable {l : Layout}

theorem length_bytesOf (width n : Nat) : (l.bytesOf width n).length = width := by
  unfold bytesOf
  split
  · exact length_littleEndianBytes width n
  · rw [List.length_reverse, length_littleEndianBytes]

theorem takes_unsigned {width n : Nat} (hn : n < 256 ^ width) :
    Takes (l.unsigned width) (l.bytesOf width n) n := by
  have htake := Takes.take (l.bytesOf width n)
  rw [length_bytesOf] at htake
  refine htake.finish (congrArg Pure.pure ?_)
  have hspelled : (if l.littleEndian then l.bytesOf width n else (l.bytesOf width n).reverse) =
      littleEndianBytes width n := by
    unfold bytesOf
    split
    · rfl
    · rw [List.reverse_reverse]
  rw [hspelled, natOfBytes_littleEndianBytes hn]

theorem two_pow_lt {width n : Nat} (hwidth : 1 ≤ width) (hn : n < 2 ^ (8 * width - 1)) : n < 256 ^ width := by
  have hpow : 2 ^ (8 * width - 1) ≤ 2 ^ (8 * width) := Nat.pow_le_pow_right (by norm_num) (by omega)
  rw [Nat.pow_mul] at hpow
  exact lt_of_lt_of_le hn hpow

/-- The widths of a layout that can be read. -/
structure Readable (l : Layout) : Prop where
  intWidth_pos : 1 ≤ l.intWidth
  intWidth_le : l.intWidth ≤ 8
  sizeWidth_pos : 1 ≤ l.sizeWidth
  sizeWidth_le : l.sizeWidth ≤ 8
  numberWidth_pos : 1 ≤ l.numberWidth
  numberWidth_le : l.numberWidth ≤ 8
  float_width : l.integral = false → l.numberWidth = 4 ∨ l.numberWidth = 8

theorem readable_of_isReadable (hl : l.isReadable) : l.Readable := by
  unfold isReadable at hl
  simp only [Bool.and_eq_true, decide_eq_true_eq] at hl
  obtain ⟨⟨⟨⟨hint, hint'⟩, hsize⟩, hsize'⟩, hnumber⟩ := hl
  split at hnumber
  · rename_i hintegral
    simp only [Bool.and_eq_true, decide_eq_true_eq] at hnumber
    exact ⟨hint, hint', hsize, hsize', hnumber.1, hnumber.2, by simp [hintegral]⟩
  · simp only [Bool.or_eq_true, decide_eq_true_eq] at hnumber
    exact ⟨hint, hint', hsize, hsize', by omega, by omega, fun _ => hnumber⟩

theorem takes_text? {text? : Option String} (hfits : ∀ text ∈ text?, l.FitsText text) :
    Takes l.string? (l.textBytes text?) text? := by
  cases text? with
  | none =>
    refine (takes_unsigned (Nat.pow_pos (by norm_num))).finish ?_
    rw [if_pos rfl]
  | some text =>
    refine (takes_unsigned (hfits text rfl)).bind ?_
    rw [if_neg (Nat.succ_ne_zero _)]
    have htake := Takes.take (Text.encode text ++ [0])
    rw [List.length_append, List.length_singleton] at htake
    exact htake.finish (by rw [List.dropLast_concat, Text.decode_encode])

theorem takes_text {default s : String} {bytes : List UInt8} (hs : l.EncodesText default s bytes) :
    Takes (do return (← l.string?).getD default) bytes s := by
  obtain ⟨text?, rfl, hfits, rfl⟩ := hs
  exact (takes_text? hfits).finish rfl

theorem takes_instruction {i : Instruction} {bytes : List UInt8} (hi : l.EncodesInstruction i bytes) :
    Takes l.instruction bytes i := by
  obtain ⟨hopcode, rfl⟩ := hi
  have hlt := i.word.toNat_lt
  refine (takes_unsigned (by omega)).finish ?_
  have hnone : ¬i.opcode?.isNone := by rwa [Option.isNone_iff_eq_none, ← ne_eq, ← Option.isSome_iff_ne_none]
  simp only [UInt32.ofNat_toNat]
  rw [if_neg hnone]

/-- Nothing is no number of at least one byte. -/
theorem unsigned_nil {width : Nat} (hwidth : 1 ≤ width) : l.unsigned width [] = .error .unexpectedEnd :=
  Reader.bind_of_error (if_neg (by rw [List.length_nil]; omega))

/-- A count is given back only if as many bytes are left. -/
theorem count_eq {bytes rest : List UInt8} {n : Nat} (hint : l.int bytes = .ok ((n : Int), rest)) :
    l.count bytes = if rest.length < n then .error .badInteger else .ok (n, rest) := by
  rw [count, Reader.bind_of_ok hint]
  show (if (n : Int) < 0 ∨ (rest.length : Int) < n then Reader.fail .badInteger else pure (n : Int).toNat : Reader Nat)
    rest = _
  by_cases hshort : rest.length < n
  · rw [if_pos (Or.inr (by omega)), if_pos hshort]
    rfl
  · rw [if_neg (by omega), if_neg hshort]
    rfl

/-- Items that are not read off nothing are no more than their bytes. -/
theorem length_le_flatten {α : Type} {item : Reader α} {xs : List α} {chunks : List (List UInt8)}
    (hitems : List.Forall₂ (fun x chunk => Takes item chunk x) xs chunks) (hempty : ∃ e, item [] = .error e) :
    xs.length ≤ chunks.flatten.length := by
  induction hitems with
  | nil => exact Nat.le_refl 0
  | @cons x chunk xs chunks hitem _ ih =>
    have hsome : chunk ≠ [] := by
      rintro rfl
      obtain ⟨e, he⟩ := hempty
      have hread := hitem.whole []
      rw [List.append_nil, he] at hread
      cases hread
    have := List.length_pos_iff.mpr hsome
    rw [List.flatten_cons, List.length_append, List.length_cons]
    omega

section Reading

variable (hl : l.Readable)
include hl

theorem takes_int {n : Nat} (hn : l.FitsInt n) : Takes l.int (l.intBytes n) (n : Int) :=
  (takes_unsigned (two_pow_lt hl.intWidth_pos hn)).finish (by rw [signExtend_of_lt hn])

theorem takes_word {w : UInt32} {bytes : List UInt8} (hw : l.EncodesWord w bytes) : Takes l.word bytes w := by
  have hlt := w.toNat_lt
  obtain ⟨hfits | hfour, rfl⟩ := hw
  · exact (takes_int hl hfits).finish (congrArg Pure.pure (ofInt_of_emod (by omega)))
  · have hraw : Takes l.int (l.intBytes w.toNat) (signExtend l.intWidth w.toNat) :=
      (takes_unsigned (by rw [hfour]; omega)).finish rfl
    refine hraw.finish (congrArg Pure.pure (ofInt_of_emod ?_))
    -- what four bytes read as negative is the same modulo 2 ^ 32
    rw [hfour, signExtend]
    norm_num
    split <;> omega

theorem takes_number {raw : Nat} {c : Constant} (hraw : l.Denotes raw c) :
    Takes l.number (l.bytesOf l.numberWidth raw) c := by
  unfold Denotes at hraw
  split at hraw
  · rename_i hintegral
    obtain ⟨i, rfl, hlow, hhigh, hmod⟩ := hraw
    have hlt : raw < 256 ^ l.numberWidth := by
      have hpow : (256 ^ l.numberWidth : Int) = 2 ^ (8 * l.numberWidth) := by rw [pow_mul]; norm_num
      have : (raw : Int) < 256 ^ l.numberWidth := by
        rw [hmod, hpow]
        exact Int.emod_lt_of_pos _ (by positivity)
      exact_mod_cast this
    refine (takes_unsigned hlt).finish ?_
    rw [if_pos hintegral, signExtend_emod hl.numberWidth_pos hlow hhigh hmod, Int64.ofInt_toInt]
  · rename_i hfloat
    split at hraw
    · rename_i hfour
      obtain ⟨bits, rfl, hc, hnan⟩ := hraw
      have hlt := bits.toNat_lt
      refine (takes_unsigned (by rw [hfour]; omega)).finish ?_
      rw [if_neg hfloat, if_pos hfour, UInt32.ofNat_toNat, hc.number_eq (Binary.ofSingle_equals_widen bits) hnan]
    · rename_i hfour
      obtain ⟨bits, rfl, hc, hnan⟩ := hraw
      have hlt := bits.toNat_lt
      have height : l.numberWidth = 8 := (hl.float_width (by simpa using hfloat)).resolve_left hfour
      refine (takes_unsigned (by rw [height]; omega)).finish ?_
      rw [if_neg hfloat, if_neg hfour, UInt64.ofNat_toNat, hc.number_eq (Binary.Equals.refl _) hnan]

theorem takes_constant {c : Constant} {bytes : List UInt8} (hc : l.EncodesConstant c bytes) :
    Takes l.constant bytes c := by
  cases hc with
  | nil => exact (Takes.byte nilTag).finish rfl
  | bool b =>
    have hrest : Takes (do return .bool ((← Reader.byte) != 0)) [b] (Constant.bool (b != 0)) :=
      (Takes.byte b).finish rfl
    exact (Takes.byte booleanTag).bind hrest
  | number hraw => exact (Takes.byte numberTag).bind (takes_number hl hraw)
  | str hs => exact (Takes.byte stringTag).bind ((takes_text hs).finish rfl)

theorem takes_localVariable {v : LocalVariable} {bytes : List UInt8} (hv : l.EncodesLocal v bytes) :
    Takes l.localVariable bytes v := by
  obtain ⟨name, start, stop, hname, hstart, hstop, rfl⟩ := hv
  exact (takes_text hname).bind ((takes_word hl hstart).bind ((takes_word hl hstop).finish rfl))

/-- A count is taken only if as many bytes are left, and each item takes at least one. -/
theorem takes_list {α : Type} {item : Reader α} {xs : List α} {chunks : List (List UInt8)}
    (hitems : List.Forall₂ (fun x chunk => Takes item chunk x) xs chunks) (hempty : ∃ e, item [] = .error e)
    (hcount : l.FitsInt xs.length) :
    Takes (l.list item) (l.intBytes xs.length ++ chunks.flatten) xs := by
  have hint := takes_int hl hcount
  have hmany := Takes.many hitems
  constructor
  · intro rest
    have hroom := length_le_flatten hitems hempty
    have hread := count_eq (List.append_assoc _ _ rest ▸ hint.whole (chunks.flatten ++ rest))
    rw [if_neg (by rw [List.length_append]; omega)] at hread
    rw [list, Reader.bind_of_ok hread, hmany.whole]
  · intro start hstart hproper
    rcases Reader.proper_prefix_append hstart hproper with ⟨hfirst, hne⟩ | ⟨tail, rfl, hsecond, hne⟩
    · obtain ⟨e, he⟩ := hint.short start hfirst hne
      exact ⟨e, Reader.bind_of_error (Reader.bind_of_error he)⟩
    · have hread := count_eq (hint.whole tail)
      split at hread
      · exact ⟨_, Reader.bind_of_error hread⟩
      · rw [list, Reader.bind_of_ok hread]
        exact hmany.short tail hsecond hne

omit hl in
theorem instruction_nil : ∃ e, l.instruction [] = .error e := ⟨_, Reader.bind_of_error (unsigned_nil (by norm_num))⟩

omit hl in
theorem constant_nil : ∃ e, l.constant [] = .error e := ⟨_, rfl⟩

theorem takes_encodesList {α : Type} {item : Reader α} {encodes : α → List UInt8 → Prop} {xs : List α}
    {bytes : List UInt8} (hitem : ∀ {x chunk}, encodes x chunk → Takes item chunk x) (hempty : ∃ e, item [] = .error e)
    (hxs : l.EncodesList encodes xs bytes) : Takes (l.list item) bytes xs := by
  obtain ⟨chunks, hchunks, hcount, rfl⟩ := hxs
  exact takes_list hl (hchunks.imp fun _ _ => hitem) hempty hcount

theorem string?_nil : l.string? [] = .error .unexpectedEnd := Reader.bind_of_error (unsigned_nil hl.sizeWidth_pos)

theorem string_nil : ∃ e, l.string [] = .error e := ⟨_, Reader.bind_of_error (string?_nil hl)⟩

theorem int_nil : l.int [] = .error .unexpectedEnd := Reader.bind_of_error (unsigned_nil hl.intWidth_pos)

theorem word_nil : ∃ e, l.word [] = .error e := ⟨_, Reader.bind_of_error (int_nil hl)⟩

theorem function_nil (depth : Nat) (outerSource : String) : ∃ e, l.function depth outerSource [] = .error e := by
  cases depth with
  | zero => exact ⟨_, rfl⟩
  | succ depth => exact ⟨_, Reader.bind_of_error (string?_nil hl)⟩

theorem localVariable_nil : ∃ e, l.localVariable [] = .error e :=
  ⟨_, Reader.bind_of_error (Reader.bind_of_error (string?_nil hl))⟩

/-- A function is taken if the reader may nest as deep as the bytes are many. -/
theorem takes_function {outerSource : String} {p : Prototype} {bytes : List UInt8}
    (hp : l.EncodesFunction outerSource p bytes) (depth : Nat) (hdepth : bytes.length < depth) :
    Takes (l.function depth outerSource) bytes p := by
  induction hp using EncodesFunction.rec
    (motive_2 := fun source ps chunks _ => ∀ depth, (∀ chunk ∈ chunks, chunk.length < depth) →
      List.Forall₂ (fun p chunk => Takes (l.function depth source) chunk p) ps chunks) generalizing depth with
  | @mk outerSource p source lineDefined lastLine code constants lines locals upvalueNames children
      hsource hlineDefined hlastLine hcode hconstants _ hcount hlines hlocals hupvalueNames ih =>
    obtain ⟨depth, rfl⟩ := Nat.exists_eq_succ_of_ne_zero (Nat.ne_of_gt (Nat.zero_lt_of_lt hdepth))
    have hshorter : ∀ chunk ∈ children, chunk.length < depth := by
      intro chunk hchunk
      have hflatten := (List.sublist_flatten_of_mem hchunk).length_le
      simp only [List.length_append, List.length_singleton] at hdepth
      omega
    obtain ⟨text?, hs, hfits, rfl⟩ := hsource
    rw [function]
    refine (takes_text? hfits).bind ?_
    rw [hs]
    exact (takes_word hl hlineDefined).bind <| (takes_word hl hlastLine).bind <| (Takes.byte _).bind <|
      (Takes.byte _).bind <| (Takes.byte _).bind <| (Takes.byte _).bind <|
      (takes_encodesList hl takes_instruction instruction_nil hcode).bind <|
      (takes_encodesList hl (takes_constant hl) constant_nil hconstants).bind <|
      (takes_list hl (ih depth hshorter) (function_nil hl _ _) hcount).bind <|
      (takes_encodesList hl (takes_word hl) (word_nil hl) hlines).bind <|
      (takes_encodesList hl (takes_localVariable hl) (localVariable_nil hl) hlocals).bind <|
      (takes_encodesList hl takes_text (string_nil hl) hupvalueNames).finish (by cases p; rfl)
  | nil => exact .nil
  | cons _ _ ih ihs =>
    rename_i hchunks
    exact .cons (ih _ (hchunks _ List.mem_cons_self))
      (ihs _ fun chunk hchunk => hchunks _ (List.mem_cons_of_mem _ hchunk))

end Reading

/-- A reader that may nest deeper gives every result that it gave before. -/
theorem function_extends {depth depth' : Nat} (hdepth : depth ≤ depth') (outerSource : String) :
    (l.function depth' outerSource).Extends (l.function depth outerSource) := by
  induction depth generalizing depth' outerSource with
  | zero => exact Extends.fail _ _
  | succ depth ih =>
    obtain ⟨depth', rfl⟩ := Nat.exists_eq_succ_of_ne_zero (Nat.ne_of_gt (Nat.zero_lt_of_lt hdepth))
    rw [function, function]
    refine (Extends.refl _).bind fun _ => (Extends.refl _).bind fun _ => (Extends.refl _).bind fun _ =>
      (Extends.refl _).bind fun _ => (Extends.refl _).bind fun _ => (Extends.refl _).bind fun _ =>
      (Extends.refl _).bind fun _ => (Extends.refl _).bind fun _ => (Extends.refl _).bind fun _ => ?_
    refine Extends.bind ((Extends.refl _).bind fun n => (ih (by omega) _).many n) fun _ => Extends.refl _

section Existence

theorem exists_encodesText (default : String) {s : String} (hs : l.FitsText s) :
    ∃ bytes, l.EncodesText default s bytes :=
  ⟨_, some s, rfl, fun _ hmem => Option.some.inj hmem ▸ hs, rfl⟩

theorem exists_encodesWord {w : UInt32} (hw : l.FitsInt w.toNat) : ∃ bytes, l.EncodesWord w bytes :=
  ⟨_, Or.inl hw, rfl⟩

theorem exists_encodesConstant {c : Constant} (hc : l.FitsConstant c) : ∃ bytes, l.EncodesConstant c bytes := by
  cases c with
  | nil => exact ⟨_, .nil⟩
  | bool b =>
    cases b
    · exact ⟨_, .bool 0⟩
    · exact ⟨_, .bool 1⟩
  | int i => exact ⟨_, .number hc.choose_spec⟩
  | float bits => exact ⟨_, .number hc.choose_spec⟩
  | str s => exact ⟨_, .str (exists_encodesText "" hc).choose_spec⟩

theorem exists_encodesLocal {v : LocalVariable}
    (hv : l.FitsText v.name ∧ l.FitsInt v.start.toNat ∧ l.FitsInt v.stop.toNat) : ∃ bytes, l.EncodesLocal v bytes := by
  obtain ⟨hname, hstart, hstop⟩ := hv
  obtain ⟨name, hname⟩ := exists_encodesText "" hname
  obtain ⟨start, hstart⟩ := exists_encodesWord hstart
  obtain ⟨stop, hstop⟩ := exists_encodesWord hstop
  exact ⟨_, name, start, stop, hname, hstart, hstop, rfl⟩

theorem exists_forall₂ {α : Type} {encodes : α → List UInt8 → Prop} (xs : List α)
    (hxs : ∀ x ∈ xs, ∃ bytes, encodes x bytes) : ∃ chunks, List.Forall₂ encodes xs chunks := by
  induction xs with
  | nil => exact ⟨[], .nil⟩
  | cons x xs ih =>
    obtain ⟨bytes, hbytes⟩ := hxs x List.mem_cons_self
    obtain ⟨chunks, hchunks⟩ := ih fun y hy => hxs y (List.mem_cons_of_mem x hy)
    exact ⟨bytes :: chunks, .cons hbytes hchunks⟩

theorem exists_encodesList {α : Type} {encodes : α → List UInt8 → Prop} (xs : List α) (hcount : l.FitsInt xs.length)
    (hxs : ∀ x ∈ xs, ∃ bytes, encodes x bytes) : ∃ bytes, l.EncodesList encodes xs bytes := by
  obtain ⟨chunks, hchunks⟩ := exists_forall₂ xs hxs
  exact ⟨_, chunks, hchunks, hcount, rfl⟩

theorem encodesFunctions_iff {source : String} {ps : List Prototype} {chunks : List (List UInt8)} :
    l.EncodesFunctions source ps chunks ↔ List.Forall₂ (l.EncodesFunction source) ps chunks := by
  constructor
  · intro hps
    induction ps generalizing chunks with
    | nil =>
      cases hps
      exact .nil
    | cons p ps ih =>
      cases hps with
      | cons hp hps => exact .cons hp (ih hps)
  · intro hps
    induction hps with
    | nil => exact .nil
    | cons hp _ ih => exact .cons hp ih

/-- A function that fits a layout has an encoding. -/
theorem exists_encodesFunction {p : Prototype} (outerSource : String) (hp : l.Fits p) :
    ∃ bytes, l.EncodesFunction outerSource p bytes := by
  have hself := hp p (.self p)
  obtain ⟨source, hsource⟩ := exists_encodesText outerSource hself.source
  obtain ⟨lineDefined, hlineDefined⟩ := exists_encodesWord hself.lineDefined
  obtain ⟨lastLine, hlastLine⟩ := exists_encodesWord hself.lastLine
  obtain ⟨code, hcode⟩ : ∃ bytes, l.EncodesList l.EncodesInstruction p.code.toList bytes :=
    exists_encodesList _ hself.codeSize fun i hi => ⟨_, hself.code i (Array.mem_toList_iff.mp hi), rfl⟩
  obtain ⟨constants, hconstants⟩ := exists_encodesList p.constants.toList hself.constantsSize
    fun c hc => exists_encodesConstant (hself.constants c (Array.mem_toList_iff.mp hc))
  obtain ⟨children, hchildren⟩ : ∃ chunks, List.Forall₂ (l.EncodesFunction p.source) p.children chunks :=
    exists_forall₂ _ fun c hc => exists_encodesFunction p.source fun q hq => hp q (.child hc hq)
  obtain ⟨lines, hlines⟩ := exists_encodesList p.lines.toList hself.linesSize
    fun line hline => exists_encodesWord (hself.lines line (Array.mem_toList_iff.mp hline))
  obtain ⟨locals, hlocals⟩ := exists_encodesList p.locals hself.localCount
    fun v hv => exists_encodesLocal (hself.locals v hv)
  obtain ⟨upvalueNames, hupvalueNames⟩ := exists_encodesList p.upvalueNames hself.upvalueNameCount
    fun name hname => exists_encodesText "" (hself.upvalueNames name hname)
  exact ⟨_, .mk hsource hlineDefined hlastLine hcode hconstants (encodesFunctions_iff.mpr hchildren) hself.childCount
    hlines hlocals hupvalueNames⟩
termination_by sizeOf p
decreasing_by
  cases p
  have := List.sizeOf_lt_of_mem hc
  simp only [Prototype.mk.sizeOf_spec]
  dsimp only at this
  omega

end Existence

end Layout

/-- The header is taken for the layout that it announces. -/
theorem takes_header {l : Layout} {integral : UInt8} (hl : l.isReadable) (hintegral : (integral != 0) = l.integral) :
    Takes header (l.announcement integral) l := by
  have hwidths := Layout.readable_of_isReadable hl
  have htoNat : ∀ width ≤ 8, (UInt8.ofNat width).toNat = width := by
    intro width hwidth
    rw [UInt8.toNat_ofNat']
    omega
  have horder : (if l.littleEndian then 1 else 0 : UInt8) = 0 ∨ (if l.littleEndian then 1 else 0 : UInt8) = 1 := by
    split <;> simp
  have hlittle : decide ((if l.littleEndian then 1 else 0 : UInt8) = 1) = l.littleEndian := by
    cases l.littleEndian <;> rfl
  refine (Takes.take (l.announcement integral)).finish ?_
  simp only [Layout.announcement, signature, List.cons_append, List.nil_append]
  rw [if_neg (by simp), if_neg (by simp), if_neg (by tauto)]
  simp only [htoNat _ hwidths.intWidth_le, htoNat _ hwidths.sizeWidth_le, htoNat _ hwidths.numberWidth_le, hintegral,
    hlittle]
  rw [if_pos ⟨trivial, hl⟩]

section Announced

variable {l : Layout} {p : Prototype} {integral : UInt8} {bytes : List UInt8} (hl : l.isReadable)
  (hintegral : (integral != 0) = l.integral) (hp : l.EncodesFunction unnamedSource p bytes)
include hl hintegral hp

/-- A function behind the header of its layout is read, whatever follows. -/
theorem read_announced (rest : List UInt8) : read (l.announcement integral ++ bytes ++ rest) = .ok p := by
  have hfunction := Layout.takes_function (Layout.readable_of_isReadable hl) hp ((bytes ++ rest).length + 1)
    (by rw [List.length_append]; omega)
  rw [read, List.append_assoc, (takes_header hl hintegral).whole]
  dsimp only
  rw [hfunction.whole]
  rfl

/-- A chunk that ends early is refused. -/
theorem read_short {start : List UInt8} (hstart : start <+: l.announcement integral ++ bytes)
    (hproper : start ≠ l.announcement integral ++ bytes) : ∃ e, read start = .error e := by
  have hheader := takes_header hl hintegral
  rcases Reader.proper_prefix_append hstart hproper with ⟨hfirst, hne⟩ | ⟨tail, rfl, hsecond, hne⟩
  · obtain ⟨e, he⟩ := hheader.short start hfirst hne
    exact ⟨e, by rw [read, he]⟩
  · have hfunction := Layout.takes_function (Layout.readable_of_isReadable hl) hp (bytes.length + 1)
      (Nat.lt_succ_self _)
    obtain ⟨e, he⟩ := hfunction.short tail hsecond hne
    rw [read, hheader.whole]
    dsimp only
    cases hread : l.function (tail.length + 1) unnamedSource tail with
    | error e => exact ⟨e, rfl⟩
    | ok result =>
      -- a reader that may nest as deep as for the whole chunk gives the same, but refuses what ends early
      have := Layout.function_extends (Nat.succ_le_succ hsecond.length_le) unnamedSource hread
      rw [he] at this
      cases this

end Announced

/-- A chunk is read back in every layout: a function that fits the layout has an encoding, each of its encodings is
read as that function whatever follows, and a chunk that ends early is refused. -/
theorem read_encoded {l : Layout} {p : Prototype} {integral : UInt8} (hl : l.isReadable)
    (hintegral : (integral != 0) = l.integral) (hp : l.Fits p) :
    (∃ bytes, l.EncodesFunction unnamedSource p bytes) ∧
      ∀ bytes, l.EncodesFunction unnamedSource p bytes →
        (∀ rest, read (l.announcement integral ++ bytes ++ rest) = .ok p) ∧
          ∀ start, start <+: l.announcement integral ++ bytes → start ≠ l.announcement integral ++ bytes →
            ∃ e, read start = .error e :=
  ⟨Layout.exists_encodesFunction _ hp, fun _ hbytes =>
    ⟨read_announced hl hintegral hbytes, fun _ => read_short hl hintegral hbytes⟩⟩

/-- Big-endian, with two bytes for counts, one for lengths and three for numbers, which are integers. -/
theorem read_encoded_bigEndian :
    ∃ bytes, read (Layout.announcement ⟨false, 2, 1, 3, true⟩ 7 ++ bytes ++ [9]) =
      .ok { source := "@a", lineDefined := 300, code := #[⟨30⟩], constants := #[.int (-5), .str "hi"]
            children := [{ source := "@a" }] } := by
  have htext : ∀ s ∈ ["@a", "hi"], Layout.FitsText ⟨false, 2, 1, 3, true⟩ s := by
    simp only [Layout.FitsText, Text.encode_eq_flatMap]
    decide
  have hinner : Layout.FitsFunction ⟨false, 2, 1, 3, true⟩ { source := "@a" } := by
    constructor
    case source => exact htext _ (by decide)
    all_goals simp [Layout.FitsInt]
  have houter : Layout.FitsFunction ⟨false, 2, 1, 3, true⟩
      { source := "@a", lineDefined := 300, code := #[⟨30⟩], constants := #[.int (-5), .str "hi"]
        children := [{ source := "@a" }] } := by
    constructor
    case source => exact htext _ (by decide)
    case constants =>
      intro c hc
      simp only [List.mem_toArray, List.mem_cons, List.not_mem_nil, or_false] at hc
      rcases hc with rfl | rfl
      · exact ⟨0xfffffb, -5, rfl, by decide, by decide, by decide⟩
      · exact htext _ (by decide)
    case code =>
      intro i hi
      obtain rfl : i = ⟨30⟩ := by simpa using hi
      rfl
    all_goals simp [Layout.FitsInt]
  have hfits : Layout.Fits ⟨false, 2, 1, 3, true⟩
      { source := "@a", lineDefined := 300, code := #[⟨30⟩], constants := #[.int (-5), .str "hi"]
        children := [{ source := "@a" }] } := by
    intro q hq
    cases hq with
    | self => exact houter
    | child hc hq =>
      obtain rfl := List.mem_singleton.mp hc
      cases hq with
      | self => exact hinner
      | child hc _ => cases hc
  have hintegral : (7 != (0 : UInt8)) = (Layout.integral ⟨false, 2, 1, 3, true⟩) := rfl
  obtain ⟨⟨bytes, hbytes⟩, hread⟩ := read_encoded rfl hintegral hfits
  exact ⟨bytes, (hread bytes hbytes).1 [9]⟩

end LuaMachine.Chunk
