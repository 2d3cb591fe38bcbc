import LuaMachine.Number.Binary

namespace LuaMachine

/-- A double as programs see it. The type of floats has a single NaN, but the text of a NaN shows its sign. -/
structure Double where
  value : Float
  isNegativeNaN : Bool
  isNaN_of_sign : isNegativeNaN = true → value.isNaN = true
deriving DecidableEq

namespace Double

/-- A float as a double; its NaN is the positive one. -/
def ofFloat (x : Float) : Double := ⟨x, false, nofun⟩

instance : CoeTail Float Double := ⟨ofFloat⟩

instance : CoeOut Double Float := ⟨value⟩

instance : OfScientific Double :=
  ⟨fun significand negative exponent => ofFloat (.ofScientific significand negative exponent)⟩

instance : Inhabited Double := ⟨0.0⟩

@[simp] theorem value_ofFloat (x : Float) : (ofFloat x).value = x := rfl

/-- The double with some bits. -/
def ofBits (bits : UInt64) : Double :=
  let value := Float.ofBits bits
  ⟨value, value.isNaN && 0x8000000000000000 ≤ bits, fun h => (Bool.and_eq_true_iff.mp h).1⟩

/-- The double with the other sign, which a NaN has as well. -/
def neg (x : Double) : Double :=
  if h : x.value.isNaN then ⟨x.value, !x.isNegativeNaN, fun _ => h⟩ else ofFloat (-x.value)

instance : Neg Double := ⟨neg⟩

end Double

end LuaMachine
