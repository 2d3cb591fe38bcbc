import LuaMachine.Proofs.Machine.Activity

namespace LuaMachine

variable {scope : Scope}

/-- An error that a program can raise and catch. -/
def Error.IsRaised : Error → Prop
  | .raised _ => True
  | .yield => False
  | .fatal _ => False

theorem Error.IsRaised.ordinary {e : Error} (h : e.IsRaised) : e.Ordinary scope := by
  cases e with
  | raised => trivial
  | yield | fatal => cases h

/-- An attempt fails, if it does, with an error that a program can raise itself. -/
def Attempt.Regular : Attempt → Prop
  | .fail e => e.IsRaised
  | _ => True

/-- A check fails, if it does, with an error that a program can raise itself, and its result is as wanted. -/
def Checked {α : Type} (P : α → Prop) : Except Error α → Prop
  | .ok a => P a
  | .error e => e.IsRaised

theorem Checked.bind {α β : Type} {P : α → Prop} {Q : β → Prop} {x : Except Error α} {f : α → Except Error β}
    (hx : Checked P x) (hf : ∀ a, P a → Checked Q (f a)) : Checked Q (x >>= f) := by
  cases x with
  | ok a => exact hf a hx
  | error e => exact hx

theorem Checked.imp {α : Type} {P Q : α → Prop} {x : Except Error α} (hx : Checked P x) (h : ∀ a, P a → Q a) :
    Checked Q x := by
  cases x with
  | ok a => exact h a hx
  | error e => exact hx

namespace Machine

variable (m : Machine) (t : ThreadId)

theorem isRaised_errorHere (message : String) : (m.errorHere t message).IsRaised := trivial

theorem isRaised_typeError (v : Value) (action : String) : (m.typeError t v action).IsRaised := by
  unfold typeError
  split <;> exact isRaised_errorHere m t _

theorem regular_index (obj key : Value) : (m.index t obj key).Regular := by
  have hfrom (fuel : Nat) (current : Value) : (m.indexFrom t obj key fuel current).Regular := by
    induction fuel generalizing current with
    | zero => trivial
    | succ fuel ih =>
      unfold indexFrom
      extract_lets own handler
      split
      · trivial
      · split
        · trivial
        · split
          · exact ih _
          · split
            · trivial
            · exact isRaised_typeError m t current _
  exact hfrom _ obj

theorem regular_setIndex (obj key value : Value) : (m.setIndex t obj key value).2.Regular := by
  have hfrom (fuel : Nat) (current : Value) : (m.setIndexFrom t obj key value fuel current).2.Regular := by
    induction fuel generalizing current with
    | zero => trivial
    | succ fuel ih =>
      unfold setIndexFrom
      extract_lets inUse found handler
      split
      · trivial
      · split
        · exact ih _
        · split
          · split
            · trivial
            · trivial
          · exact isRaised_typeError m t _ _
  exact hfrom _ obj

theorem regular_arith (op : ArithOp) (a b : Value) : (m.arith t op a b).Regular := by
  unfold arith
  split
  · trivial
  · extract_lets first handler
    split
    · exact isRaised_typeError m t _ _
    · trivial

theorem regular_lengthOf (v : Value) : (m.lengthOf t v).Regular := by
  unfold lengthOf
  split
  · trivial
  · trivial
  · dsimp only
    split
    · exact isRaised_typeError m t _ _
    · trivial

theorem regular_equal (a b : Value) : (m.equal a b).Regular := by
  unfold equal
  extract_lets no comparable
  split
  · trivial
  · split
    · trivial
    · split
      · trivial
      · extract_lets handler agreed
        split
        · trivial
        · split <;> trivial

theorem regular_lessThan (a b : Value) : (m.lessThan t a b).Regular := by
  unfold lessThan
  split
  · trivial
  · split
    · split <;> trivial
    · trivial

theorem regular_lessEqual (a b : Value) : (m.lessEqual t a b).Regular := by
  unfold lessEqual
  split
  · trivial
  · split
    · split
      · trivial
      · split <;> trivial
    · trivial

theorem regular_toText (v : Value) (inUse : Values) : (m.toText v inUse).Regular := by
  unfold toText
  dsimp only
  split <;> trivial

/-- A concatenation fails, if it does, with an error that a program can raise itself. -/
theorem isRaised_of_join {reversed inUse : Values} {e : Error} (h : m.join t reversed inUse = .fail e) :
    e.IsRaised := by
  have hfrom (fuel : Nat) (vs : Values) (hfail : m.joinFrom t inUse fuel vs = .fail e) : e.IsRaised := by
    induction fuel generalizing vs with
    | zero =>
      match vs with
      | [] | [_] | _ :: _ :: _ => simp [joinFrom] at hfail
    | succ fuel ih =>
      match vs with
      | [] | [_] => simp [joinFrom] at hfail
      | b :: a :: rest =>
        rw [joinFrom] at hfail
        split at hfail
        · exact ih _ hfail
        · extract_lets held first handler at hfail
          split at hfail
          · cases hfail
            exact isRaised_typeError m t _ _
          · cases hfail
  exact hfrom _ _ h

section Arguments

variable (args : Values) (i : Nat) (name : String)

theorem checked_requireArg : Checked (fun _ => True) (m.requireArg t args i name) := by
  unfold requireArg
  split <;> trivial

theorem checked_optionalInteger (fallback : Int64) :
    Checked (fun _ => True) (m.optionalInteger t args i name fallback) := by
  unfold optionalInteger
  dsimp only
  split
  · trivial
  · split
    · trivial
    · split <;> trivial

theorem checked_requireTable : Checked (fun _ => True) (m.requireTable t args i name) := by
  unfold requireTable
  split <;> trivial

theorem checked_requireThread : Checked (fun _ => True) (m.requireThread t args i name) := by
  unfold requireThread
  split <;> trivial

theorem checked_requireFunction : Checked (fun _ => True) (m.requireFunction t args name) := by
  refine (m.checked_requireArg t args 1 name).bind fun f _ => ?_
  split <;> trivial

end Arguments

end Machine

end LuaMachine
