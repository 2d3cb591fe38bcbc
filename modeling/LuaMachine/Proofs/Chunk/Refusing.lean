import LuaMachine.Proofs.Chunk.Rereading

namespace LuaMachine

/-- Some function in another one has a word that names no operation. -/
def Prototype.IsGarbled (p : Prototype) : Prop := ∃ q, p.Contains q ∧ ∃ i ∈ q.code, i.opcode? = none

theorem Prototype.isGarbled_iff {p : Prototype} :
    p.IsGarbled ↔ (∃ i ∈ p.code.toList, i.opcode? = none) ∨ ∃ c ∈ p.children, c.IsGarbled := by
  constructor
  · rintro ⟨q, hq, i, hi, hnone⟩
    cases hq with
    | self => exact .inl ⟨i, Array.mem_toList_iff.mpr hi, hnone⟩
    | child hc hq => exact .inr ⟨_, hc, q, hq, i, hi, hnone⟩
  · rintro (⟨i, hi, hnone⟩ | ⟨c, hc, q, hq, hbad⟩)
    · exact ⟨p, .self p, i, Array.mem_toList_iff.mp hi, hnone⟩
    · exact ⟨q, .child hc hq, hbad⟩

namespace Chunk

open Reader (Takes)

namespace Reader

variable {α β : Type} {r : Reader α} {next : α → Reader β} {bytes : List UInt8} {e : Error}

/-- The reader refuses these bytes for one reason, whatever follows. -/
def Refuses (r : Reader α) (bytes : List UInt8) (e : Error) : Prop := ∀ rest, r (bytes ++ rest) = .error e

theorem Refuses.append (h : Refuses r bytes e) (more : List UInt8) : Refuses r (bytes ++ more) e := fun rest => by
  rw [List.append_assoc]
  exact h _

theorem Refuses.bind (h : Refuses r bytes e) : Refuses (r >>= next) bytes e := fun rest => bind_of_error (h rest)

theorem Takes.bind_refuses {first second : List UInt8} {x : α} (hr : Takes r first x)
    (hnext : Refuses (next x) second e) : Refuses (r >>= next) (first ++ second) e := fun rest => by
  rw [List.append_assoc, bind_of_ok (hr.whole _), hnext]

/-- Items in a row are refused with the first one that is. -/
theorem refuses_many {item : Reader α} {xs : List α} {chunks : List (List UInt8)}
    (hitems : List.Forall₂ (fun x chunk => Takes item chunk x) xs chunks) (hbad : Refuses item bytes e) {count : Nat}
    (hcount : xs.length < count) : Refuses (Reader.many item count) (chunks.flatten ++ bytes) e := by
  induction hitems generalizing count with
  | nil =>
    obtain ⟨count, rfl⟩ := Nat.exists_eq_succ_of_ne_zero (Nat.ne_of_gt hcount)
    exact hbad.bind
  | cons hitem _ ih =>
    obtain ⟨count, rfl⟩ := Nat.exists_eq_succ_of_ne_zero (Nat.ne_of_gt (Nat.zero_lt_of_lt hcount))
    rw [List.flatten_cons, List.append_assoc]
    exact hitem.bind_refuses (ih (Nat.lt_of_succ_lt_succ hcount)).bind

end Reader

open Reader (Refuses)

/-- The first element of a kind in a list. -/
theorem exists_first {α : Type} {P : α → Prop} {xs : List α} (h : ∃ x ∈ xs, P x) :
    ∃ before x later, xs = before ++ x :: later ∧ P x ∧ ∀ y ∈ before, ¬P y := by
  induction xs with
  | nil =>
    obtain ⟨x, hx, -⟩ := h
    cases hx
  | cons y xs ih =>
    by_cases hy : P y
    · exact ⟨[], y, xs, rfl, hy, nofun⟩
    · obtain ⟨x, hx, hP⟩ := h
      have hlater := (List.mem_cons.mp hx).resolve_left fun heq => hy (heq ▸ hP)
      obtain ⟨before, x, later, rfl, hx, hbefore⟩ := ih ⟨x, hlater, hP⟩
      exact ⟨y :: before, x, later, rfl, hx, List.forall_mem_cons.mpr ⟨hy, hbefore⟩⟩

/-- Items that are each written in some bytes are no more than their bytes. -/
theorem length_le_flatMap {α : Type} {item : α → List UInt8} {xs : List α} (hitem : ∀ x ∈ xs, item x ≠ []) :
    xs.length ≤ (xs.flatMap item).length := by
  induction xs with
  | nil => exact Nat.le_refl 0
  | cons x xs ih =>
    have hfirst := List.length_pos_iff.mpr (hitem x List.mem_cons_self)
    have hrest := ih fun y hy => hitem y (List.mem_cons_of_mem x hy)
    rw [List.flatMap_cons, List.length_append, List.length_cons]
    omega

/-- A list is refused with the first of its items that is. -/
theorem refuses_listBytes {α β : Type} {item : Reader β} {written : α → List UInt8} {e : Error} {P : α → Prop}
    {xs : List α} (read : α → β) (hgood : ∀ x ∈ xs, ¬P x → Takes item (written x) (read x))
    (hbad : ∀ x ∈ xs, P x → Refuses item (written x) e) (hsome : ∃ x ∈ xs, P x) (hwritten : ∀ x ∈ xs, written x ≠ [])
    (hcount : xs.length < 2 ^ 31) : Refuses (Layout.written.list item) (listBytes written xs) e := by
  have hint := Layout.takes_int (Layout.readable_of_isReadable (l := Layout.written) rfl) hcount
  have hmany : Refuses (Reader.many item xs.length) (xs.flatMap written) e := by
    obtain ⟨before, x, later, rfl, hx, hbefore⟩ := exists_first hsome
    have hitems : List.Forall₂ (fun y chunk => Takes item chunk y) (before.map read) (before.map written) := by
      rw [List.forall₂_map_left_iff, List.forall₂_map_right_iff]
      exact List.forall₂_same.mpr fun y hy => hgood y (List.mem_append_left _ hy) (hbefore y hy)
    have hlength : (before.map read).length < (before ++ x :: later).length := by
      rw [List.length_map, List.length_append, List.length_cons]
      omega
    have hx' := hbad x (List.mem_append_right _ List.mem_cons_self) hx
    rw [List.flatMap_append, List.flatMap_cons, ← List.append_assoc, List.flatMap_def]
    exact (Reader.refuses_many hitems hx' hlength).append _
  intro rest
  have hroom := length_le_flatMap hwritten
  have hread := Layout.count_eq (List.append_assoc _ _ rest ▸ hint.whole (xs.flatMap written ++ rest))
  rw [if_neg (by rw [List.length_append]; omega)] at hread
  exact (Reader.bind_of_ok hread).trans (hmany rest)

/-- A word that names no operation is refused. -/
theorem refuses_instruction {i : Instruction} (hi : i.opcode? = none) :
    Refuses Layout.written.instruction (littleEndianBytes 4 i.word.toNat) .badCode := by
  have hlt := i.word.toNat_lt
  have hword : Takes (Layout.written.unsigned 4) (littleEndianBytes 4 i.word.toNat) i.word.toNat :=
    Layout.takes_unsigned (by omega)
  intro rest
  rw [Layout.instruction, Reader.bind_of_ok (hword.whole rest), UInt32.ofNat_toNat,
    if_pos (Option.isNone_iff_eq_none.mpr hi)]
  rfl

theorem refuses_code {code : Array Instruction} (hsize : code.size < 2 ^ 31)
    (hbad : ∃ i ∈ code.toList, i.opcode? = none) : Refuses (Layout.written.list Layout.written.instruction)
      (listBytes (fun i => littleEndianBytes 4 i.word.toNat) code.toList) .badCode :=
  refuses_listBytes id
    (fun _ _ hi => Layout.takes_instruction ⟨Option.isSome_iff_ne_none.mpr hi, rfl⟩)
    (fun _ _ hi => refuses_instruction hi) hbad (fun _ _ => List.cons_ne_nil _ _) hsize

section Written

variable {strip : Bool} {outerSource? : Option String} {default : String} {p : Prototype}

theorem functionBytes_ne_nil : functionBytes strip outerSource? p ≠ [] := by
  rw [functionBytes_eq, functionHead]
  simp

/-- A function with a word that names no operation is refused at that word, wherever it is. -/
theorem refuses_function (hp : ∀ q, p.Contains q → q.IsCountable ∧
      ∀ bits, .float bits ∈ q.constants → Constant.number bits = .float bits) (hbad : p.IsGarbled)
    (hdefault : if strip then default = unnamedSource else ∀ outer ∈ outerSource?, default = outer) {depth : Nat}
    (hdepth : (functionBytes strip outerSource? p).length < depth) :
    Refuses (Layout.written.function depth default) (functionBytes strip outerSource? p) .badCode := by
  induction p using Prototype.child_induction generalizing outerSource? default depth with
  | step p ih =>
    obtain ⟨depth, rfl⟩ := Nat.exists_eq_succ_of_ne_zero (Nat.ne_of_gt (Nat.zero_lt_of_lt hdepth))
    obtain ⟨hcountable, hfloats⟩ := hp p (.self p)
    have hl := Layout.readable_of_isReadable (l := Layout.written) rfl
    obtain ⟨text?, hsource, hfits, hspelled⟩ := encodesText_source hcountable.source hdefault
    have hbytes : functionBytes strip outerSource? p =
        Layout.written.textBytes text? ++ (Chunk.intBytes p.lineDefined.toNat ++ (Chunk.intBytes p.lastLine.toNat ++
          ([p.upvalueCount] ++ ([p.paramCount] ++ ([p.varargFlags] ++ ([p.stackSize] ++
            (listBytes (fun i => littleEndianBytes 4 i.word.toNat) p.code.toList ++
              (listBytes constantBytes p.constants.toList ++
                (listBytes (functionBytes strip (some p.source)) p.children ++ debugBytes strip p))))))))) := by
      rw [functionBytes_eq, functionHead, hspelled, listBytes, listBytes, listBytes, List.flatMap_def (l := p.children)]
      simp only [List.append_assoc, List.cons_append, List.nil_append]
    rw [hbytes] at hdepth ⊢
    rw [Layout.function]
    refine (Layout.takes_text? hfits).bind_refuses <| (Layout.takes_word hl (encodesWord_written _)).bind_refuses <|
      (Layout.takes_word hl (encodesWord_written _)).bind_refuses <| (Takes.byte _).bind_refuses <|
      (Takes.byte _).bind_refuses <| (Takes.byte _).bind_refuses <| (Takes.byte _).bind_refuses ?_
    by_cases hown : ∃ i ∈ p.code.toList, i.opcode? = none
    · exact (refuses_code hcountable.codeSize hown).bind.append _
    · have hcode : Layout.written.EncodesList Layout.written.EncodesInstruction p.code.toList
          (listBytes (fun i => littleEndianBytes 4 i.word.toNat) p.code.toList) :=
        encodesList_written hcountable.codeSize fun i hi =>
          ⟨Option.isSome_iff_ne_none.mpr fun hnone => hown ⟨i, hi, hnone⟩, rfl⟩
      have hconstants := encodesConstants_written hcountable.constantsSize hfloats hcountable.strings
      refine (Layout.takes_encodesList hl Layout.takes_instruction Layout.instruction_nil hcode).bind_refuses <|
        (Layout.takes_encodesList hl (Layout.takes_constant hl) Layout.constant_nil hconstants).bind_refuses ?_
      have hinner : if strip then text?.getD default = unnamedSource else
          ∀ outer ∈ some p.source, text?.getD default = outer := by
        rw [hsource]
        cases strip with
        | true => rfl
        | false => exact fun outer houter => Option.some.inj houter
      have hshorter {c : Prototype} (hc : c ∈ p.children) : (functionBytes strip (some p.source) c).length < depth := by
        have hflatten := (List.sublist_flatten_of_mem
          (List.mem_map_of_mem (f := functionBytes strip (some p.source)) hc)).length_le
        rw [← List.flatMap_def] at hflatten
        simp only [List.length_append, List.length_singleton, listBytes] at hdepth
        omega
      have hsome := (Prototype.isGarbled_iff.mp hbad).resolve_left hown
      refine (refuses_listBytes (P := Prototype.IsGarbled) (Prototype.reloaded strip) (fun c hc hgood => ?_)
        (fun c hc hgarbled => ih c hc (fun q hq => hp q (.child hc hq)) hgarbled hinner (hshorter hc))
        hsome (fun _ _ => functionBytes_ne_nil) hcountable.childCount).bind.append _
      refine Layout.takes_function hl (encodesFunction_written (fun q hq => ?_) hinner) depth (hshorter hc)
      obtain ⟨hcountable', hfloats'⟩ := hp q (.child hc hq)
      exact hcountable'.isWritable (fun i hi => Option.isSome_iff_ne_none.mpr fun hnone => hgood ⟨q, hq, i, hi, hnone⟩)
        hfloats'

/-- **A written function is read if every word in it names an operation, and refused for its code if one does not.**
This includes the words that the interpreter takes for operands. -/
theorem read_write_cases (hp : ∀ q, p.Contains q → q.IsCountable ∧
      ∀ bits, .float bits ∈ q.constants → Constant.number bits = .float bits) (strip : Bool) :
    (¬p.IsGarbled → read (write p strip) = .ok (p.reloaded strip)) ∧
      (p.IsGarbled → read (write p strip) = .error .badCode) := by
  constructor
  · intro hgood
    refine read_write_reloaded (fun q hq => (hp q hq).1.isWritable (fun i hi => ?_) (hp q hq).2) strip
    exact Option.isSome_iff_ne_none.mpr fun hnone => hgood ⟨q, hq, i, hi, hnone⟩
  · intro hbad
    have hdefault : if strip then unnamedSource = unnamedSource else
        ∀ outer ∈ (none : Option String), unnamedSource = outer := by
      cases strip with
      | true => rfl
      | false => exact nofun
    have hrefused := refuses_function hp hbad hdefault (Nat.lt_succ_self _) []
    have htakes : Takes header (Layout.written.announcement 0) Layout.written := takes_header rfl rfl
    have hheader := htakes.whole (functionBytes strip none p)
    rw [List.append_nil] at hrefused
    rw [read, write, ← announcement_written, hheader]
    dsimp only
    rw [hrefused]
    rfl

/-- A list is stored as block 550, a number that stands in the word after the instruction. -/
example : read (write { code := #[⟨10⟩, ⟨65⟩, ⟨8388642⟩, ⟨550⟩, ⟨8388638⟩], constants := #[.int 7] } true) =
    .error .badCode := rfl

end Written

end Chunk

end LuaMachine
