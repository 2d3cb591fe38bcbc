import LuaMachine.Proofs.Chunk.Reading

namespace LuaMachine

/-- The constant that is loaded when one was written: an integer was written as the nearest double. -/
def Constant.reloaded : Constant → Constant
  | .int i => number (Number.ofInt64 i).toBits
  | c => c

namespace Prototype

/-- A function, apart from those inside it, as it is loaded when it was written. -/
def reloadedHead (strip : Bool) (p : Prototype) : Prototype :=
  { p with
    source := if strip then Chunk.unnamedSource else p.source
    constants := p.constants.map Constant.reloaded
    lines := if strip then #[] else p.lines
    locals := if strip then [] else p.locals
    upvalueNames := if strip then [] else p.upvalueNames }

mutual
/-- A function and the functions inside it as they are loaded when they were written. -/
def reloaded (strip : Bool) : Prototype → Prototype
  | ⟨source, lineDefined, lastLine, upvalueCount, paramCount, varargFlags, stackSize, code, constants, children, lines,
      locals, upvalueNames⟩ =>
    reloadedHead strip ⟨source, lineDefined, lastLine, upvalueCount, paramCount, varargFlags, stackSize, code,
      constants, reloadedAll strip children, lines, locals, upvalueNames⟩

/-- The functions inside one as they are loaded when they were written. -/
def reloadedAll (strip : Bool) : List Prototype → List Prototype
  | [] => []
  | p :: rest => reloaded strip p :: reloadedAll strip rest
end

theorem reloadedAll_eq_map (strip : Bool) (ps : List Prototype) : reloadedAll strip ps = ps.map (reloaded strip) := by
  induction ps with
  | nil => rfl
  | cons p ps ih => rw [reloadedAll, ih, List.map_cons]

theorem reloaded_eq (strip : Bool) (p : Prototype) :
    p.reloaded strip = reloadedHead strip { p with children := p.children.map (reloaded strip) } := by
  cases p
  rw [reloaded, reloadedAll_eq_map]

/-- What a chunk can hold of a function, apart from those inside it: operations that there are, doubles that equal no
integer, and lists and texts of a length that can be written. -/
structure IsWritable (p : Prototype) : Prop where
  code : ∀ i ∈ p.code, i.opcode?.isSome
  floats : ∀ bits, .float bits ∈ p.constants → Constant.number bits = .float bits
  source : (Text.encode p.source).length + 1 < 2 ^ 64
  strings : ∀ s, .str s ∈ p.constants → (Text.encode s).length + 1 < 2 ^ 64
  localNames : ∀ v ∈ p.locals, (Text.encode v.name).length + 1 < 2 ^ 64
  upvalueNames : ∀ name ∈ p.upvalueNames, (Text.encode name).length + 1 < 2 ^ 64
  codeSize : p.code.size < 2 ^ 31
  constantsSize : p.constants.size < 2 ^ 31
  childCount : p.children.length < 2 ^ 31
  linesSize : p.lines.size < 2 ^ 31
  localCount : p.locals.length < 2 ^ 31
  upvalueNameCount : p.upvalueNames.length < 2 ^ 31

end Prototype

namespace Chunk

open Layout

theorem announcement_written : Layout.written.announcement 0 = headerBytes := rfl

theorem textBytes_written (text? : Option String) : Layout.written.textBytes text? = stringBytes text? := by
  cases text? with
  | none => rfl
  | some s => exact (List.append_assoc _ _ _).symm

theorem encodesText_written (default : String) {s : String} (hs : (Text.encode s).length + 1 < 2 ^ 64) :
    Layout.written.EncodesText default s (stringBytes (some s)) :=
  ⟨some s, rfl, fun _ hmem => Option.some.inj hmem ▸ hs, (textBytes_written _).symm⟩

theorem encodesWord_written (w : UInt32) : Layout.written.EncodesWord w (Chunk.intBytes w.toNat) := ⟨Or.inr rfl, rfl⟩

theorem encodesList_map {α β : Type} {encodes : β → List UInt8 → Prop} {item : α → List UInt8} {loaded : α → β}
    {xs : List α} (hcount : xs.length < 2 ^ 31) (hxs : ∀ x ∈ xs, encodes (loaded x) (item x)) :
    Layout.written.EncodesList encodes (xs.map loaded) (listBytes item xs) := by
  have hitems : List.Forall₂ encodes (xs.map loaded) (xs.map item) := by
    rw [List.forall₂_map_left_iff, List.forall₂_map_right_iff]
    exact List.forall₂_same.mpr hxs
  refine ⟨xs.map item, hitems, by rwa [List.length_map], ?_⟩
  rw [listBytes, List.flatMap_def, List.length_map]
  rfl

theorem encodesList_written {α : Type} {encodes : α → List UInt8 → Prop} {item : α → List UInt8} {xs : List α}
    (hcount : xs.length < 2 ^ 31) (hxs : ∀ x ∈ xs, encodes x (item x)) :
    Layout.written.EncodesList encodes xs (listBytes item xs) := by
  have h : Layout.written.EncodesList encodes (xs.map id) (listBytes item xs) := encodesList_map hcount hxs
  rwa [List.map_id] at h

/-- A double is read as the constant that it stands for. -/
theorem encodesConstant_number (bits : UInt64) :
    Layout.written.EncodesConstant (Constant.number bits) (numberTag :: littleEndianBytes 8 bits.toNat) := by
  have hraw : Layout.written.Denotes bits.toNat (Constant.number bits) := by
    refine ⟨bits, rfl, Constant.number_standsFor bits, fun hnan => ?_⟩
    rw [Constant.number_eq, hnan]
    rfl
  exact .number hraw

theorem encodesConstant_written {c : Constant} (hfloat : ∀ bits, c = .float bits → Constant.number bits = .float bits)
    (hstring : ∀ s, c = .str s → (Text.encode s).length + 1 < 2 ^ 64) :
    Layout.written.EncodesConstant c.reloaded (constantBytes c) := by
  cases c with
  | nil => exact .nil
  | bool b =>
    cases b
    · exact EncodesConstant.bool 0
    · exact EncodesConstant.bool 1
  | int i => exact encodesConstant_number _
  | float bits =>
    have h := encodesConstant_number bits
    rwa [hfloat bits rfl] at h
  | str s => exact .str (encodesText_written "" (hstring s rfl))

theorem encodesConstants_written {constants : Array Constant} (hsize : constants.size < 2 ^ 31)
    (hfloats : ∀ bits, .float bits ∈ constants → Constant.number bits = .float bits)
    (hstrings : ∀ s, .str s ∈ constants → (Text.encode s).length + 1 < 2 ^ 64) :
    Layout.written.EncodesList Layout.written.EncodesConstant (constants.map Constant.reloaded).toList
      (listBytes constantBytes constants.toList) := by
  rw [Array.toList_map]
  refine encodesList_map hsize fun c hc => encodesConstant_written ?_ ?_
  · rintro bits rfl
    exact hfloats bits (Array.mem_toList_iff.mp hc)
  · rintro s rfl
    exact hstrings s (Array.mem_toList_iff.mp hc)

theorem encodesLocal_written {v : LocalVariable} (hname : (Text.encode v.name).length + 1 < 2 ^ 64) :
    Layout.written.EncodesLocal v (localBytes v) :=
  ⟨_, _, _, encodesText_written "" hname, encodesWord_written v.start, encodesWord_written v.stop,
    List.append_assoc _ _ _⟩

/-- A source that is left out is the one that the reader takes instead. -/
theorem encodesText_source {strip : Bool} {outerSource? : Option String} {default source : String}
    (hsource : (Text.encode source).length + 1 < 2 ^ 64)
    (hdefault : if strip then default = unnamedSource else ∀ outer ∈ outerSource?, default = outer) :
    Layout.written.EncodesText default (if strip then unnamedSource else source)
      (stringBytes (if strip || outerSource? == some source then none else some source)) := by
  have hleftOut : Layout.written.EncodesText default default (stringBytes none) :=
    ⟨none, rfl, nofun, (textBytes_written _).symm⟩
  cases strip with
  | true => exact hdefault ▸ hleftOut
  | false =>
    by_cases houter : outerSource? = some source
    · obtain rfl : default = source := hdefault source houter
      simpa [houter] using hleftOut
    · simpa [houter] using encodesText_written default hsource

theorem childrenBytes_eq (strip : Bool) (source : String) (ps : List Prototype) :
    childrenBytes strip source ps = (ps.map (functionBytes strip (some source))).flatten := by
  induction ps with
  | nil => rfl
  | cons p ps ih => rw [childrenBytes, ih, List.map_cons, List.flatten_cons]

/-- Stripped debug information is that of a function that has none. -/
theorem debugBytes_eq (strip : Bool) (p : Prototype) :
    debugBytes strip p =
      listBytes (fun line => Chunk.intBytes line.toNat) (p.reloadedHead strip).lines.toList ++
        (listBytes localBytes (p.reloadedHead strip).locals ++
          listBytes (fun name => stringBytes (some name)) (p.reloadedHead strip).upvalueNames) := by
  cases strip with
  | true => rfl
  | false => exact List.append_assoc _ _ _

theorem functionBytes_eq (strip : Bool) (outerSource? : Option String) (p : Prototype) :
    functionBytes strip outerSource? p =
      functionHead strip outerSource? p ++ Chunk.intBytes p.children.length ++
        (p.children.map (functionBytes strip (some p.source))).flatten ++ debugBytes strip p := by
  cases p
  rw [functionBytes, childrenBytes_eq]
  rfl

/-- What is written of a function encodes what is loaded of it. -/
theorem encodesFunction_written {strip : Bool} {outerSource? : Option String} {default : String} {p : Prototype}
    (hp : ∀ q, p.Contains q → q.IsWritable)
    (hdefault : if strip then default = unnamedSource else ∀ outer ∈ outerSource?, default = outer) :
    Layout.written.EncodesFunction default (p.reloaded strip) (functionBytes strip outerSource? p) := by
  have hself := hp p (.self p)
  have hchildren : Layout.written.EncodesFunctions (if strip then unnamedSource else p.source)
      (p.children.map (Prototype.reloaded strip)) (p.children.map (functionBytes strip (some p.source))) := by
    rw [encodesFunctions_iff, List.forall₂_map_left_iff, List.forall₂_map_right_iff, List.forall₂_same]
    intro c hc
    refine encodesFunction_written (fun q hq => hp q (.child hc hq)) ?_
    cases strip with
    | true => rfl
    | false => exact fun outer houter => Option.some.inj houter
  have hcode : Layout.written.EncodesList Layout.written.EncodesInstruction p.code.toList
      (listBytes (fun i => littleEndianBytes 4 i.word.toNat) p.code.toList) :=
    encodesList_written hself.codeSize fun i hi => ⟨hself.code i (Array.mem_toList_iff.mp hi), rfl⟩
  have hconstants := encodesConstants_written hself.constantsSize hself.floats hself.strings
  have hlines : Layout.written.EncodesList Layout.written.EncodesWord (p.reloadedHead strip).lines.toList
      (listBytes (fun line => Chunk.intBytes line.toNat) (p.reloadedHead strip).lines.toList) := by
    refine encodesList_written ?_ fun line _ => encodesWord_written line
    cases strip with
    | true => exact Nat.two_pow_pos 31
    | false => exact hself.linesSize
  have hlocals : Layout.written.EncodesList Layout.written.EncodesLocal (p.reloadedHead strip).locals
      (listBytes localBytes (p.reloadedHead strip).locals) := by
    cases strip with
    | true => exact encodesList_written (Nat.two_pow_pos 31) nofun
    | false => exact encodesList_written hself.localCount fun v hv => encodesLocal_written (hself.localNames v hv)
  have hupvalueNames : Layout.written.EncodesList (Layout.written.EncodesText "") (p.reloadedHead strip).upvalueNames
      (listBytes (fun name => stringBytes (some name)) (p.reloadedHead strip).upvalueNames) := by
    cases strip with
    | true => exact encodesList_written (Nat.two_pow_pos 31) nofun
    | false =>
      exact encodesList_written hself.upvalueNameCount fun name hname =>
        encodesText_written "" (hself.upvalueNames name hname)
  have hcount : Layout.written.FitsInt (p.children.map (Prototype.reloaded strip)).length := by
    rw [List.length_map]
    exact hself.childCount
  rw [Prototype.reloaded_eq]
  convert EncodesFunction.mk
    (p := Prototype.reloadedHead strip { p with children := p.children.map (Prototype.reloaded strip) })
    (encodesText_source hself.source hdefault) (encodesWord_written p.lineDefined) (encodesWord_written p.lastLine)
    hcode hconstants hchildren hcount hlines hlocals hupvalueNames using 1
  rw [functionBytes_eq, functionHead, debugBytes_eq]
  simp only [Prototype.reloadedHead, List.length_map, List.append_assoc, List.cons_append, List.nil_append]
  rfl
termination_by sizeOf p
decreasing_by
  cases p
  have := List.sizeOf_lt_of_mem hc
  simp only [Prototype.mk.sizeOf_spec]
  dsimp only at this
  omega

theorem read_write_reloaded {p : Prototype} (hp : ∀ q, p.Contains q → q.IsWritable) (strip : Bool) :
    read (write p strip) = .ok (p.reloaded strip) := by
  have hfunction : Layout.written.EncodesFunction unnamedSource (p.reloaded strip) (functionBytes strip none p) := by
    refine encodesFunction_written hp ?_
    cases strip with
    | true => rfl
    | false => exact nofun
  have hread : read (Layout.written.announcement 0 ++ functionBytes strip none p ++ []) = .ok (p.reloaded strip) :=
    read_announced rfl rfl hfunction []
  rwa [List.append_nil] at hread

/-- A chunk that was written is read as the function that was written: the same all over when its integers are
doubles, and stripped without its source, lines and names. An integer is loaded as the number of its double, and
as itself if that is the same number. -/
theorem read_write {p : Prototype} (hp : ∀ q, p.Contains q → q.IsWritable) :
    (∀ strip, read (write p strip) = .ok (p.reloaded strip)) ∧
      (∀ i : Int64, (Constant.int i).reloaded.value = Value.number (Number.ofInt64 i)) ∧
      ∀ (i : Int64) (x : Float), (Binary.ofFloat x).integer? = some i.toInt → (Constant.int i).reloaded = .int i :=
  ⟨read_write_reloaded hp, fun _ => Constant.value_number _, fun _ _ => Constant.number_ofInt64⟩

theorem read_write_stripped :
    read (write { source := "@a", code := #[⟨30⟩], constants := #[.int 7, .str "b"]
                  children := [{ source := "@a", lines := #[3] }] } true) =
      .ok { source := unnamedSource, code := #[⟨30⟩], constants := #[.int 7, .str "b"]
            children := [{ source := unnamedSource }] } := by
  have htext : ∀ s ∈ ["@a", "b"], (Text.encode s).length + 1 < 2 ^ 64 := by
    simp only [Text.encode_eq_flatMap]
    decide
  have hinner : Prototype.IsWritable { source := "@a", lines := #[3] } := by
    constructor
    case source => exact htext _ (by decide)
    all_goals simp
  have houter : Prototype.IsWritable
      { source := "@a", code := #[⟨30⟩], constants := #[.int 7, .str "b"]
        children := [{ source := "@a", lines := #[3] }] } := by
    constructor
    case source => exact htext _ (by decide)
    case strings =>
      intro s hs
      obtain rfl : s = "b" := by simpa using hs
      exact htext _ (by decide)
    case code =>
      intro i hi
      obtain rfl : i = ⟨30⟩ := by simpa using hi
      rfl
    all_goals simp
  obtain ⟨hread, -, hint⟩ := read_write
    (p := { source := "@a", code := #[⟨30⟩], constants := #[.int 7, .str "b"]
            children := [{ source := "@a", lines := #[3] }] }) (by
      intro q hq
      cases hq with
      | self => exact houter
      | child hc hq =>
        obtain rfl := List.mem_singleton.mp hc
        cases hq with
        | self => exact hinner
        | child hc _ => cases hc)
  have hseven : Constant.number (Number.ofInt64 7).toBits = .int 7 := hint 7 (Float.ofBits 0x401c000000000000) rfl
  rw [hread true]
  simp [Prototype.reloaded, Prototype.reloadedAll, Prototype.reloadedHead, hseven, Constant.reloaded]

end Chunk

end LuaMachine
