import LuaMachine.Value.Basic

namespace LuaMachine

/-- Which names stand for which objects, and which objects have which names. -/
structure ExternalNames where
  byName : List (String × Value) := []
  byRef : List (Ref × String) := []

namespace ExternalNames

/-- Removes a name from both directions. -/
def unregister (x : ExternalNames) (name : String) : ExternalNames × Option Value :=
  match x.byName.lookup name with
  | none => (x, none)
  | some v =>
    ({ byName := x.byName.filter (·.1 != name)
       byRef := match v.ref? with
         | some r => x.byRef.filter (·.1 != r)
         | none => x.byRef }, some v)

/-- Names an object, in place of what the name stood for and of the object's old name. Refuses values that
are not objects. -/
def register (x : ExternalNames) (name : String) (v : Value) : ExternalNames × Bool :=
  match v.ref? with
  | none => (x, false)
  | some r =>
    let x := (x.unregister name).1
    let byName := match x.byRef.lookup r with
      | some old => x.byName.filter (·.1 != old)
      | none => x.byName
    ({ byName := (name, v) :: byName
       byRef := (r, name) :: x.byRef.filter (·.1 != r) }, true)

/-- The name of an object. -/
def nameOf? (x : ExternalNames) (v : Value) : Option String := v.ref?.bind fun r => x.byRef.lookup r

/-- The object with a name. -/
def resolve? (x : ExternalNames) (name : String) : Option Value := x.byName.lookup name

/-- How many objects have names. -/
def size (x : ExternalNames) : Nat := x.byName.length

end ExternalNames

end LuaMachine
