import LuaMachine.Proofs.Machine.Ending

namespace LuaMachine.Machine

variable {scope : Scope} {m m' : Machine} {s s' : Signal}

theorem step_nil (hstack : m.stack = []) (hinvoke : ∀ u id args, s ≠ .invoke u id args) : m.step s = (m, s) := by
  cases m
  dsimp only at hstack
  subst hstack
  cases s with
  | invoke u id args => exact absurd rfl (hinvoke u id args)
  | go | values | yielded | frameLimit | sleeping | error => rfl

theorem step_cons {a : Activation} {rest : List Activation} (hstack : m.stack = a :: rest)
    (hinvoke : ∀ u id args, s ≠ .invoke u id args) : m.step s = { m with inUse := [] }.resumeWork a rest s := by
  cases m
  dsimp only at hstack
  subst hstack
  cases s with
  | invoke u id args => exact absurd rfl (hinvoke u id args)
  | go | values | yielded | frameLimit | sleeping | error => rfl

/-- A regular function is invoked by the thread at work. -/
theorem step_invoke_sound {u : ThreadId} {id : NativeId} {args : Values} (h : m.outline.Sound scope (.invoke u id args))
    (hregular : (m.native id).body.IsRegular) :
    (m.step (.invoke u id args)).1.outline.Sound scope (m.step (.invoke u id args)).2 := by
  cases h with
  | atRest _ _ _ hs => cases hs
  | back _ _ _ hs => cases hs
  | working hstack hsetting hstatus hready =>
    cases hready with
    | invoke hacts htakes => exact invoke_sound ⟨hstack, hsetting, hstatus, hacts⟩ htakes hregular args
    | pause hs => obtain hnot | ⟨vs, hnot⟩ := hs <;> cases hnot

/-- One step keeps the bookkeeping of calls in order, unless the machine is back at the work that was in progress before
or invokes a function that is not regular. -/
theorem step_sound_above (h : m.outline.Sound scope s)
    (hworks : m.stack ≠ scope.base ∨ ∃ u id args, s = .invoke u id args)
    (hregular : ∀ u id args, s = .invoke u id args → (m.native id).body.IsRegular) :
    (m.step s).1.outline.Sound scope (m.step s).2 := by
  by_cases hinvoke : ∃ u id args, s = .invoke u id args
  · obtain ⟨u, id, args, rfl⟩ := hinvoke
    exact step_invoke_sound h (hregular u id args rfl)
  · have hnot (u : ThreadId) (id : NativeId) (args : Values) : s ≠ .invoke u id args :=
      fun heq => hinvoke ⟨u, id, args, heq⟩
    cases h with
    | atRest _ hstack => exact absurd hstack (hworks.resolve_right hinvoke)
    | working hstack hsetting hstatus hready =>
      obtain ⟨a, acts, rfl⟩ := List.exists_cons_of_ne_nil hready.ne_nil
      rw [step_cons hstack hnot]
      exact resumeWork_sound (m := { m with inUse := [] }) hstack hsetting hstatus hready hnot
    | back hstack hsetting hacts hs =>
      rw [step_cons hstack hnot]
      exact stepResumed_sound (m := { m with inUse := [], stack := _ }) rfl (hsetting.withStack _) hacts hs _

theorem regular_of_sound (hscope : scope.Whole) (h : m.outline.Sound scope s) : ∀ n ∈ m.natives, n.body.IsRegular := by
  cases h with
  | atRest hregular => exact hregular hscope.regular
  | working _ hsetting | back _ hsetting => exact hsetting.regular hscope.regular

/-- One step keeps the bookkeeping of calls in order. -/
theorem step_sound (hscope : scope.Whole) (h : m.outline.Sound scope s) :
    (m.step s).1.outline.Sound scope (m.step s).2 := by
  by_cases hworks : m.stack ≠ scope.base ∨ ∃ u id args, s = .invoke u id args
  · exact step_sound_above h hworks fun _ id _ _ => isRegular_native (regular_of_sound hscope h) id
  · rw [not_or, Classical.not_not] at hworks
    rw [step_nil (hworks.1.trans hscope.base) fun u id args hs => hworks.2 ⟨u, id, args, hs⟩]
    exact h

/-- A run keeps the bookkeeping of calls in order. -/
theorem run_sound {fuel : Nat} (hscope : scope.Whole) (h : m.outline.Sound scope s)
    (hrun : run fuel m s = some (m', s')) : m'.outline.Sound scope s' := by
  induction fuel generalizing m s with
  | zero =>
    rw [run] at hrun
    split at hrun
    · cases hrun
    · cases hrun
      exact h
  | succ fuel ih =>
    rw [run] at hrun
    split at hrun
    · exact ih (step_sound hscope h) hrun
    · cases hrun
      exact h

end LuaMachine.Machine
