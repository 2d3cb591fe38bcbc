import LuaMachine.Proofs.Machine.Unwinding
import LuaMachine.Proofs.Number.Text
import Mathlib.Data.List.TakeWhile

namespace LuaMachine

/-- A call of a handler. -/
structure HandlerCall where
  function : Value
  args : Values
deriving DecidableEq

/-- The call that settles an operation. -/
def Handler.call (h : Handler) : HandlerCall := ⟨h.function, h.args⟩

/-- What the call of a handler may come to while the values given are still to be joined: the machine and the signal
after it. A handler that does not come back can be told by any signal other than values. -/
abbrev Behaviour := Machine → Handler → Values → Machine → Signal → Prop

/-- How some work may go: the handlers that it calls in order, and the machine and the signal that it ends with. -/
abbrev Course := List HandlerCall → Machine → Signal → Prop

/-- Work that is done, with a value. -/
def Course.gives (m : Machine) (v : Value) : Course := fun calls m' s => calls = [] ∧ m' = m ∧ s = .values [v]

/-- Work that goes on with the first value that its first part gives; with any other signal it ends there. -/
inductive Course.Then (first : Course) (next : Machine → Value → Course) : Course
  | on {calls later : List HandlerCall} {m m' : Machine} {vs : Values} {s : Signal}
      (hfirst : first calls m (.values vs)) (hnext : next m vs.first later m' s) :
      Then first next (calls ++ later) m' s
  | stop {calls : List HandlerCall} {m : Machine} {s : Signal} (hfirst : first calls m s) (hs : ∀ vs, s ≠ .values vs) :
      Then first next calls m s

theorem Course.gives_then (m : Machine) (v : Value) (next : Machine → Value → Course) :
    (gives m v).Then next = next m v := by
  funext calls m' s
  refine propext ⟨fun h => ?_, fun h => ?_⟩
  · cases h with
    | on hfirst hnext =>
      obtain ⟨rfl, rfl, hs⟩ := hfirst
      cases hs
      exact hnext
    | stop hfirst hs => exact absurd hfirst.2.2 (hs _)
  · have hfirst : gives m v [] m (.values [v]) := ⟨rfl, rfl, rfl⟩
    exact .on hfirst h

theorem Course.then_gives {first : Course}
    (hsingle : ∀ {calls m vs}, first calls m (.values vs) → vs = [vs.first]) : first.Then gives = first := by
  funext calls m s
  refine propext ⟨fun h => ?_, fun h => ?_⟩
  · cases h with
    | on hfirst hnext =>
      obtain ⟨rfl, rfl, rfl⟩ := hnext
      rw [List.append_nil, ← hsingle hfirst]
      exact hfirst
    | stop hfirst => exact hfirst
  · by_cases hs : ∃ vs, s = .values vs
    · obtain ⟨vs, rfl⟩ := hs
      rw [← List.append_nil calls]
      exact .on h ⟨rfl, rfl, congrArg _ (hsingle h)⟩
    · exact .stop h fun vs heq => hs ⟨vs, heq⟩

/-- It does not matter which two of three parts are put together first. -/
theorem Course.then_assoc (first : Course) (next last : Machine → Value → Course) :
    (first.Then next).Then last = first.Then fun m v => (next m v).Then last := by
  funext calls m s
  refine propext ⟨fun h => ?_, fun h => ?_⟩
  · cases h with
    | on hboth hlast =>
      cases hboth with
      | on hfirst hnext =>
        rw [List.append_assoc]
        exact .on hfirst (.on hnext hlast)
      | stop _ hs => exact absurd rfl (hs _)
    | stop hboth hs =>
      cases hboth with
      | on hfirst hnext => exact .on hfirst (.stop hnext hs)
      | stop hfirst => exact .stop hfirst hs
  · cases h with
    | on hfirst hrest =>
      cases hrest with
      | on hnext hlast =>
        rw [← List.append_assoc]
        exact .on (.on hfirst hnext) hlast
      | stop hnext hs => exact .stop (.on hfirst hnext) hs
    | stop hfirst hs => exact .stop (.stop hfirst hs) hs

namespace Machine

/-- The handler of `a .. b`, nil if there is none: the one of the first operand wins over that of the second. -/
def concatHandler (m : Machine) (a b : Value) (inUse : Values) : Value :=
  let handler := m.metamethod a "__concat" inUse
  if handler.isNil then m.metamethod b "__concat" inUse else handler

/-- `a .. b`, where `left` are the values still to be joined, the last one first, and those in `inUse` exist meanwhile:
two texts or numbers are joined, and anything else is left to a handler. -/
def joinTwo (m : Machine) (t : ThreadId) (a b : Value) (left inUse : Values) : Attempt :=
  match a.toText?, b.toText? with
  | some x, some y => .done [.str (x ++ y)]
  | first, _ =>
    let held := b :: a :: left
    let handler := m.concatHandler a b (held ++ inUse)
    if handler.isNil then .fail (m.typeError t (if first.isSome then b else a) "concatenate")
    else .handler ⟨handler, [a, b], .first, held⟩

/-- Joins the values `left` to `b`, the last one first and two at a time, up to the first handler. -/
def joinPairs (m : Machine) (t : ThreadId) (inUse : Values) (b : Value) : Values → Joining
  | [] => .done b
  | a :: left =>
    match m.joinTwo t a b left inUse with
    | .done vs => joinPairs m t inUse vs.first left
    | .fail e => .fail e
    | .handler h => .handler h left

section Courses

variable (t : ThreadId) (held : Values) (behaves : Behaviour)

/-- How `a .. b` may go while the values `left` are still to be joined. -/
inductive Joins (m : Machine) (a b : Value) (left : Values) : Course
  | done {vs : Values} (hjoin : m.joinTwo t a b left held = .done vs) : Joins m a b left [] m (.values vs)
  | failed {e : Error} (hjoin : m.joinTwo t a b left held = .fail e) : Joins m a b left [] m (.error e)
  | returned {h : Handler} {m' : Machine} {vs : Values} (hjoin : m.joinTwo t a b left held = .handler h)
      (hcall : behaves m h left m' (.values vs)) : Joins m a b left [h.call] m' (.values [vs.first])
  | ended {h : Handler} {m' : Machine} {s : Signal} (hjoin : m.joinTwo t a b left held = .handler h)
      (hcall : behaves m h left m' s) (hs : ∀ vs, s ≠ .values vs) : Joins m a b left [h.call] m' s

/-- How `v₁ .. (v₂ .. (⋯ .. vₙ))` may go by binary concatenations: all values after the first are evaluated before
it is joined to what they give. The values `left` are still to be joined, the last one first. -/
def Evaluates (left : Values) : Values → Machine → Course
  | [], _ => fun _ _ _ => False
  | [v], m => Course.gives m v
  | v :: w :: vs, m => (Evaluates (v :: left) (w :: vs) m).Then fun n b => Joins t held behaves n v b left

/-- How a concatenation of values, the last one first, may go: as many as can be are joined in one go, and a handler's
result is joined to the values left. -/
inductive Concatenates : Machine → Values → Course
  | done {m : Machine} {reversed : Values} {v : Value} (hjoin : m.join t reversed held = .done v) :
      Concatenates m reversed [] m (.values [v])
  | failed {m : Machine} {reversed : Values} {e : Error} (hjoin : m.join t reversed held = .fail e) :
      Concatenates m reversed [] m (.error e)
  | returned {m n m' : Machine} {reversed left vs : Values} {h : Handler} {calls : List HandlerCall} {s : Signal}
      (hjoin : m.join t reversed held = .handler h left) (hcall : behaves m h left n (.values vs))
      (hrest : Concatenates n (vs.first :: left) calls m' s) : Concatenates m reversed (h.call :: calls) m' s
  | ended {m m' : Machine} {reversed left : Values} {h : Handler} {s : Signal}
      (hjoin : m.join t reversed held = .handler h left) (hcall : behaves m h left m' s) (hs : ∀ vs, s ≠ .values vs) :
      Concatenates m reversed [h.call] m' s

/-- The behaviour of the handlers that a machine calls above the work `base`: such a call runs until only the
concatenation waits for it, which is then taken off. -/
def answers (base : List Activation) : Behaviour := fun m h left m' s =>
  ∃ fuel n, runAbove (.concat t left held :: base) fuel ((m.push (.concat t left held)).callHandler t h held).1
    ((m.push (.concat t left held)).callHandler t h held).2 = some (n, s) ∧ m' = { n with inUse := [], stack := base }

end Courses

variable {m m' : Machine} {t : ThreadId} {held inUse left vs : Values} {behaves : Behaviour} {base : List Activation}
  {s s' : Signal} {fuel : Nat}

section Pairs

variable {a b : Value}

theorem exists_texts (h : ¬(a.toText? = none ∨ b.toText? = none)) :
    ∃ x y, a.toText? = some x ∧ b.toText? = some y := by
  rw [not_or] at h
  obtain ⟨x, ha⟩ := Option.ne_none_iff_exists'.mp h.1
  obtain ⟨y, hb⟩ := Option.ne_none_iff_exists'.mp h.2
  exact ⟨x, y, ha, hb⟩

theorem joinTwo_texts {x y : String} (ha : a.toText? = some x) (hb : b.toText? = some y) :
    m.joinTwo t a b left inUse = .done [.str (x ++ y)] := by
  rw [joinTwo, ha, hb]

theorem joinTwo_of_none (h : a.toText? = none ∨ b.toText? = none) :
    m.joinTwo t a b left inUse =
      if (m.concatHandler a b (b :: a :: left ++ inUse)).isNil then
        .fail (m.typeError t (if a.toText?.isSome then b else a) "concatenate")
      else .handler ⟨m.concatHandler a b (b :: a :: left ++ inUse), [a, b], .first, b :: a :: left⟩ := by
  obtain ha | hb := h
  · rw [joinTwo, ha]
  · cases ha : a.toText? <;> rw [joinTwo, ha, hb]

theorem joinFrom_of_none (h : a.toText? = none ∨ b.toText? = none) :
    m.joinFrom t inUse (fuel + 1) (b :: a :: left) =
      if (m.concatHandler a b (b :: a :: left ++ inUse)).isNil then
        .fail (m.typeError t (if a.toText?.isSome then b else a) "concatenate")
      else .handler ⟨m.concatHandler a b (b :: a :: left ++ inUse), [a, b], .first, b :: a :: left⟩ left := by
  obtain ha | hb := h
  · rw [joinFrom, ha]
    rfl
  · cases ha : a.toText? <;> rw [joinFrom, ha, hb] <;> rfl

/-- Joining two values without a handler gives one value. -/
theorem eq_of_joinTwo_done (hjoin : m.joinTwo t a b left inUse = .done vs) : vs = [vs.first] := by
  by_cases h : a.toText? = none ∨ b.toText? = none
  · rw [joinTwo_of_none h] at hjoin
    split at hjoin <;> cases hjoin
  · obtain ⟨x, y, ha, hb⟩ := exists_texts h
    rw [joinTwo_texts ha hb] at hjoin
    cases hjoin
    rfl

/-- A run of texts and numbers before a text is joined to it in one go. -/
theorem joinPairs_run (y : String) (left : Values) :
    m.joinPairs t inUse (.str y) left = m.joinPairs t inUse
      (.str (String.join ((left.takeWhile fun v => v.toText?.isSome).reverse.filterMap Value.toText?) ++ y))
      (left.dropWhile fun v => v.toText?.isSome) := by
  induction left generalizing y with
  | nil => simp
  | cons a left ih =>
    cases ha : a.toText? with
    | none => simp [ha]
    | some x =>
      rw [joinPairs, joinTwo_texts ha rfl]
      simp only [Values.first, List.headD_cons]
      rw [ih]
      simp [ha, String.join_append, String.append_assoc]

theorem drop_length_takeWhile (p : Value → Bool) (l : Values) : l.drop (l.takeWhile p).length = l.dropWhile p := by
  have hsplit : (l.takeWhile p ++ l.dropWhile p).drop (l.takeWhile p).length = l.dropWhile p := List.drop_left
  rwa [List.takeWhile_append_dropWhile] at hsplit

/-- Joining whole runs comes to what joining two values at a time does. -/
theorem joinFrom_cons (b : Value) (left : Values) (hfuel : left.length ≤ fuel) :
    m.joinFrom t inUse fuel (b :: left) = m.joinPairs t inUse b left := by
  induction fuel generalizing b left with
  | zero =>
    obtain rfl := List.length_eq_zero_iff.mp (Nat.le_zero.mp hfuel)
    rfl
  | succ fuel ih =>
    cases left with
    | nil => rfl
    | cons a left =>
      by_cases h : a.toText? = none ∨ b.toText? = none
      · rw [joinFrom_of_none h, joinPairs, joinTwo_of_none h]
        split <;> rfl
      · obtain ⟨x, y, ha, hb⟩ := exists_texts h
        have hdrop : (b :: a :: left).drop ((b :: a :: left).takeWhile fun v => v.toText?.isSome).length =
            left.dropWhile fun v => v.toText?.isSome := by
          rw [drop_length_takeWhile]
          simp [ha, hb]
        have htext : String.join (((b :: a :: left).takeWhile fun v => v.toText?.isSome).reverse.filterMap
            Value.toText?) =
            String.join ((left.takeWhile fun v => v.toText?.isSome).reverse.filterMap Value.toText?) ++ (x ++ y) := by
          simp [ha, hb, String.join_append]
        have hshorter : (left.dropWhile fun v => v.toText?.isSome).length ≤ fuel :=
          Nat.le_trans (List.dropWhile_suffix _).length_le (Nat.le_of_succ_le_succ hfuel)
        rw [joinFrom, ha, hb, joinPairs, joinTwo_texts ha hb]
        dsimp only
        rw [hdrop, htext, ih _ _ hshorter]
        exact (joinPairs_run (x ++ y) left).symm

theorem join_cons (b : Value) (left : Values) :
    m.join t (b :: left) inUse = m.joinPairs t inUse b left :=
  joinFrom_cons b left (Nat.le_succ _)

/-- Joining goes on like the binary concatenation of the last two values. -/
theorem join_cons_cons (a b : Value) (left inUse : Values) : m.join t (b :: a :: left) inUse =
    match m.joinTwo t a b left inUse with
    | .done vs => m.join t (vs.first :: left) inUse
    | .fail e => .fail e
    | .handler h => .handler h left := by
  rw [join_cons, joinPairs]
  split
  · exact (join_cons _ left).symm
  · rfl
  · rfl

/-- The program's own concatenation of two values, while the values `left` are kept as well, is the binary one. -/
theorem join_pair (a b : Value) (left inUse : Values) : m.join t [b, a] (left ++ inUse) =
    match m.joinTwo t a b left inUse with
    | .done vs => .done vs.first
    | .fail e => .fail e
    | .handler h => .handler { h with held := [b, a] } [] := by
  have hheld : [b, a] ++ (left ++ inUse) = b :: a :: left ++ inUse := rfl
  by_cases h : a.toText? = none ∨ b.toText? = none
  · show m.joinFrom t (left ++ inUse) 2 [b, a] = _
    rw [joinFrom_of_none h, joinTwo_of_none h, hheld]
    split <;> rfl
  · obtain ⟨x, y, ha, hb⟩ := exists_texts h
    rw [join_cons, joinPairs, joinTwo_texts ha hb, joinTwo_texts ha hb]
    rfl

/-- Texts and numbers alone are joined without a handler, to the text that theirs make up. -/
theorem join_texts {values : Values} {texts : List String} (hlength : 2 ≤ values.length)
    (hspells : List.Forall₂ Value.Spells values texts) :
    m.join t values.reverse inUse = .done (.str (String.join texts)) := by
  obtain ⟨rfl, htexts⟩ := Value.filterMap_toText? hspells
  obtain ⟨b, a, left, hreversed⟩ : ∃ b a left, values.reverse = b :: a :: left := by
    rw [← List.length_reverse] at hlength
    match values.reverse, hlength with
    | b :: a :: left, _ => exact ⟨b, a, left, rfl⟩
  have htexts : ∀ v ∈ b :: a :: left, v.toText?.isSome = true := by
    rw [← hreversed]
    exact fun v hv => htexts v (List.mem_reverse.mp hv)
  have hvalues : values = left.reverse ++ [a, b] := by
    rw [← List.reverse_reverse values, hreversed]
    simp
  obtain ⟨x, ha⟩ := Option.isSome_iff_exists.mp (htexts a (by simp))
  obtain ⟨y, hb⟩ := Option.isSome_iff_exists.mp (htexts b (by simp))
  have hleft : ∀ v ∈ left, v.toText?.isSome = true := fun v hv => htexts v (by simp [hv])
  rw [hreversed, join_cons, joinPairs, joinTwo_texts ha hb]
  show m.joinPairs t inUse (.str (x ++ y)) left = _
  rw [joinPairs_run, List.takeWhile_eq_self_iff.mpr hleft, List.dropWhile_eq_nil_iff.mpr hleft, hvalues]
  simp [joinPairs, ha, hb, String.join_append]

end Pairs

section Concatenations

theorem concatenates_single (v : Value) : Concatenates t held behaves m [v] = Course.gives m v := by
  funext calls m' s
  refine propext ⟨fun h => ?_, ?_⟩
  · cases h with
    | done hjoin =>
      cases hjoin
      exact ⟨rfl, rfl, rfl⟩
    | failed hjoin | returned hjoin | ended hjoin => cases hjoin
  · rintro ⟨rfl, rfl, rfl⟩
    exact .done rfl

theorem Concatenates.congr {reversed other : Values} {calls : List HandlerCall}
    (h : Concatenates t held behaves m reversed calls m' s)
    (hsame : m.join t reversed held = m.join t other held) : Concatenates t held behaves m other calls m' s := by
  cases h with
  | done hjoin => exact .done (hsame ▸ hjoin)
  | failed hjoin => exact .failed (hsame ▸ hjoin)
  | returned hjoin hcall hrest => exact .returned (hsame ▸ hjoin) hcall hrest
  | ended hjoin hcall hs => exact .ended (hsame ▸ hjoin) hcall hs

/-- A concatenation goes on like the binary one of the last two values. -/
theorem concatenates_pair (a b : Value) (left : Values) : Concatenates t held behaves m (b :: a :: left) =
    (Joins t held behaves m a b left).Then fun n c => Concatenates t held behaves n (c :: left) := by
  have hpairs := join_cons_cons (m := m) (t := t) a b left held
  funext calls m' s
  refine propext ⟨fun h => ?_, fun h => ?_⟩
  · cases hattempt : m.joinTwo t a b left held with
    | done vs =>
      rw [hattempt] at hpairs
      exact Course.Then.on (Joins.done hattempt) (h.congr hpairs)
    | fail e =>
      rw [hattempt] at hpairs
      cases h with
      | failed hjoin =>
        cases hpairs.symm.trans hjoin
        exact .stop (.failed hattempt) (by rintro _ ⟨⟩)
      | done hjoin | returned hjoin | ended hjoin => cases hpairs.symm.trans hjoin
    | handler h' =>
      rw [hattempt] at hpairs
      cases h with
      | returned hjoin hcall hrest =>
        cases hpairs.symm.trans hjoin
        exact Course.Then.on (Joins.returned hattempt hcall) hrest
      | ended hjoin hcall hs =>
        cases hpairs.symm.trans hjoin
        exact .stop (.ended hattempt hcall hs) hs
      | done hjoin | failed hjoin => cases hpairs.symm.trans hjoin
  · cases h with
    | on hfirst hrest =>
      cases hfirst with
      | done hattempt =>
        rw [hattempt] at hpairs
        exact hrest.congr hpairs.symm
      | returned hattempt hcall =>
        rw [hattempt] at hpairs
        exact .returned hpairs hcall hrest
      | ended _ _ hs => exact absurd rfl (hs _)
    | stop hfirst hs =>
      cases hfirst with
      | done | returned => exact absurd rfl (hs _)
      | failed hattempt =>
        rw [hattempt] at hpairs
        exact .failed hpairs
      | ended hattempt hcall _ =>
        rw [hattempt] at hpairs
        exact .ended hpairs hcall hs

/-- A binary concatenation that succeeds gives one value. -/
theorem Joins.eq_of_values {calls : List HandlerCall} (h : Joins t held behaves m a b left calls m' (.values vs)) :
    vs = [vs.first] := by
  cases h with
  | done hjoin => exact eq_of_joinTwo_done hjoin
  | returned => rfl
  | ended _ _ hs => exact absurd rfl (hs _)

theorem evaluates_cons (v : Value) (hvs : vs ≠ []) : Evaluates t held behaves left (v :: vs) m =
    (Evaluates t held behaves (v :: left) vs m).Then fun n b => Joins t held behaves n v b left := by
  cases vs with
  | nil => exact absurd rfl hvs
  | cons w vs => rfl

/-- The binary concatenation of the last two values comes first. -/
theorem evaluates_append_pair (vs : Values) (a b : Value) (left : Values) :
    Evaluates t held behaves left (vs ++ [a, b]) m =
      (Joins t held behaves m a b (vs.reverse ++ left)).Then fun n c =>
        Evaluates t held behaves left (vs ++ [c]) n := by
  induction vs generalizing left with
  | nil =>
    calc Evaluates t held behaves left [a, b] m
      _ = (Course.gives m b).Then fun n c => Joins t held behaves n a c left := rfl
      _ = Joins t held behaves m a b left := Course.gives_then m b _
      _ = (Joins t held behaves m a b left).Then Course.gives := (Course.then_gives Joins.eq_of_values).symm
  | cons v vs ih =>
    calc Evaluates t held behaves left (v :: (vs ++ [a, b])) m
      _ = (Evaluates t held behaves (v :: left) (vs ++ [a, b]) m).Then fun n b => Joins t held behaves n v b left :=
        evaluates_cons v (by simp)
      _ = (Joins t held behaves m a b (vs.reverse ++ v :: left)).Then fun n c =>
          (Evaluates t held behaves (v :: left) (vs ++ [c]) n).Then fun n b => Joins t held behaves n v b left := by
        rw [ih, Course.then_assoc]
      _ = (Joins t held behaves m a b ((v :: vs).reverse ++ left)).Then fun n c =>
          Evaluates t held behaves left (v :: (vs ++ [c])) n := by
        rw [List.reverse_cons, List.append_assoc, List.singleton_append]
        have hcons (n : Machine) (c : Value) : Evaluates t held behaves left (v :: (vs ++ [c])) n =
            (Evaluates t held behaves (v :: left) (vs ++ [c]) n).Then fun n b => Joins t held behaves n v b left :=
          evaluates_cons v (by simp)
        simp only [hcons]

/-- A concatenation goes like binary ones from the right. -/
theorem concatenates_eq_evaluates (m : Machine) (b : Value) (left : Values) :
    Concatenates t held behaves m (b :: left) = Evaluates t held behaves [] (left.reverse ++ [b]) m := by
  induction left generalizing m b with
  | nil => exact concatenates_single b
  | cons a left ih =>
    calc Concatenates t held behaves m (b :: a :: left)
      _ = (Joins t held behaves m a b left).Then fun n c => Concatenates t held behaves n (c :: left) :=
        concatenates_pair a b left
      _ = (Joins t held behaves m a b left).Then fun n c => Evaluates t held behaves [] (left.reverse ++ [c]) n := by
        simp only [ih]
      _ = Evaluates t held behaves [] (left.reverse ++ [a, b]) m := by
        rw [evaluates_append_pair, List.reverse_reverse, List.append_nil]
      _ = Evaluates t held behaves [] ((a :: left).reverse ++ [b]) m := by
        rw [List.reverse_cons, List.append_assoc, List.singleton_append]

end Concatenations

section Runs

variable {h : Handler} {reversed : Values} {n : Machine} {u : Signal}

/-- When a handler is back, the concatenation alone waits for it. -/
theorem waits_of_callHandler (hstack : m.stack = base)
    (hcall : runAbove (.concat t left held :: base) fuel ((m.push (.concat t left held)).callHandler t h held).1
      ((m.push (.concat t left held)).callHandler t h held).2 = some (n, u)) :
    n.stack = .concat t left held :: base ∧ ∀ v id args, u ≠ .invoke v id args := by
  refine stack_runAbove ?_ hcall
  rw [← hstack]
  exact suffix_callHandler (m.push _) t h held

/-- The result of a handler is joined to the values left. -/
theorem step_concat_values (hstack : n.stack = .concat t left held :: base) (vs : Values) :
    n.step (.values vs) = ({ n with inUse := [], stack := base } : Machine).continueJoin t (vs.first :: left) held :=
  step_cons hstack (by rintro _ _ _ ⟨⟩)

/-- Anything else ends the concatenation. -/
theorem step_concat_of_ne (hstack : n.stack = .concat t left held :: base)
    (hinvoke : ∀ v id args, u ≠ .invoke v id args) (hs : ∀ vs, u ≠ .values vs) :
    n.step u = ({ n with inUse := [], stack := base }, u) := by
  rw [step_cons hstack hinvoke]
  cases u with
  | values vs => exact absurd rfl (hs vs)
  | go | invoke | yielded | frameLimit | sleeping | error => rfl

/-- What comes of a concatenation once its handler is back comes of the handler's call. -/
theorem exists_runAbove_of_answer {r : Machine × Signal} {k : Nat} (hstack : m.stack = base)
    (hcall : runAbove (.concat t left held :: base) fuel ((m.push (.concat t left held)).callHandler t h held).1
      ((m.push (.concat t left held)).callHandler t h held).2 = some (n, u))
    (hrest : runAbove base k (n.step u).1 (n.step u).2 = some r) :
    ∃ fuel, runAbove base fuel ((m.push (.concat t left held)).callHandler t h held).1
      ((m.push (.concat t left held)).callHandler t h held).2 = some r := by
  obtain ⟨hwaits, -⟩ := waits_of_callHandler hstack hcall
  have hback : runAbove base (k + 1) n u = some r := by
    rw [runAbove, if_pos (isWorkingAbove_of_cons hwaits u)]
    exact hrest
  exact exists_runAbove (Nat.le_succ _) hcall hback

/-- A concatenation that a machine runs to the end goes with the machine's own handlers. -/
theorem exists_concatenates (hstack : m.stack = base)
    (hrun : runAbove base fuel (m.continueJoin t reversed held).1 (m.continueJoin t reversed held).2 = some (m', s)) :
    ∃ calls, Concatenates t held (answers t held base) m reversed calls m' s := by
  induction fuel using Nat.strong_induction_on generalizing m reversed with
  | _ fuel ih =>
    cases hjoin : m.join t reversed held with
    | done v =>
      rw [continueJoin, hjoin] at hrun
      cases eq_of_runAbove hrun hstack (by rintro _ _ _ ⟨⟩)
      exact ⟨[], .done hjoin⟩
    | fail e =>
      rw [continueJoin, hjoin] at hrun
      cases eq_of_runAbove hrun hstack (by rintro _ _ _ ⟨⟩)
      exact ⟨[], .failed hjoin⟩
    | handler h left =>
      rw [continueJoin, hjoin] at hrun
      have hlength : base.length ≤ (Activation.concat t left held :: base).length := Nat.le_succ _
      obtain ⟨k, l, n, u, hl, hcall, -, hrest⟩ := runAbove_split hlength hrun
      obtain ⟨hwaits, hinvoke⟩ := waits_of_callHandler hstack hcall
      obtain ⟨j, rfl, hlast⟩ := runAbove_of_working (isWorkingAbove_of_cons hwaits u) hrest
      have hanswers : answers t held base m h left { n with inUse := [], stack := base } u := ⟨k, n, hcall, rfl⟩
      by_cases hvalues : ∃ vs, u = .values vs
      · obtain ⟨vs, rfl⟩ := hvalues
        rw [step_concat_values hwaits] at hlast
        obtain ⟨calls, hconcatenates⟩ := ih j hl rfl hlast
        exact ⟨h.call :: calls, .returned hjoin hanswers hconcatenates⟩
      · have hs : ∀ vs, u ≠ .values vs := fun vs heq => hvalues ⟨vs, heq⟩
        rw [step_concat_of_ne hwaits hinvoke hs] at hlast
        cases eq_of_runAbove hlast rfl hinvoke
        exact ⟨[h.call], .ended hjoin hanswers hs⟩

/-- A concatenation that goes with the machine's own handlers is one that it runs to the end. -/
theorem Concatenates.exists_run {calls : List HandlerCall} (hstack : m.stack = base)
    (h : Concatenates t held (answers t held base) m reversed calls m' s) :
    ∃ fuel, runAbove base fuel (m.continueJoin t reversed held).1 (m.continueJoin t reversed held).2 =
      some (m', s) := by
  induction h with
  | done hjoin =>
    rw [continueJoin, hjoin]
    exact exists_runAbove_of_done hstack (by rintro _ _ _ ⟨⟩)
  | failed hjoin =>
    rw [continueJoin, hjoin]
    exact exists_runAbove_of_done hstack (by rintro _ _ _ ⟨⟩)
  | returned hjoin hcall _ ih =>
    obtain ⟨fuel, n, hcall, rfl⟩ := hcall
    obtain ⟨hwaits, -⟩ := waits_of_callHandler hstack hcall
    obtain ⟨k, hrest⟩ := ih rfl
    rw [← step_concat_values hwaits] at hrest
    rw [continueJoin, hjoin]
    exact exists_runAbove_of_answer hstack hcall hrest
  | ended hjoin hcall hs =>
    obtain ⟨fuel, n, hcall, rfl⟩ := hcall
    obtain ⟨hwaits, hinvoke⟩ := waits_of_callHandler hstack hcall
    have hended := step_concat_of_ne hwaits hinvoke hs
    obtain ⟨k, hrest⟩ := exists_runAbove_of_done (m := (n.step _).1) (congrArg (fun r => r.1.stack) hended) hinvoke
    rw [continueJoin, hjoin]
    refine exists_runAbove_of_answer hstack hcall (k := k) ?_
    rw [hended] at hrest ⊢
    exact hrest

/-- A machine runs a concatenation to the end as it goes with the machine's own handlers. -/
theorem exists_run_iff (m : Machine) (t : ThreadId) (reversed held : Values) (m' : Machine) (s : Signal) :
    (∃ fuel, runAbove m.stack fuel (m.continueJoin t reversed held).1 (m.continueJoin t reversed held).2 =
        some (m', s)) ↔
      ∃ calls, Concatenates t held (answers t held m.stack) m reversed calls m' s :=
  ⟨fun ⟨_, hrun⟩ => exists_concatenates rfl hrun, fun ⟨_, h⟩ => h.exists_run rfl⟩

end Runs

/-- A concatenation of values makes the same handler calls, and gives the same value or error, as binary ones from the
right, whatever the handlers do; a machine runs it to the end exactly if the binary ones come to an end; and texts and
numbers, at least two, are joined to the text that theirs make up, where integers are written in decimal and doubles
with fourteen significant digits. -/
theorem concatenation_goes_by_pairs (m : Machine) (t : ThreadId) (values held : Values) (hvalues : values ≠ []) :
    (∀ behaves calls m' s, Concatenates t held behaves m values.reverse calls m' s ↔
      Evaluates t held behaves [] values m calls m' s) ∧
    (∀ m' s, (∃ fuel, runAbove m.stack fuel (m.continueJoin t values.reverse held).1
        (m.continueJoin t values.reverse held).2 = some (m', s)) ↔
      ∃ calls, Evaluates t held (answers t held m.stack) [] values m calls m' s) ∧
    (2 ≤ values.length → (∀ v ∈ values, v.kind = .string ∨ v.kind = .number) →
      ∃ texts, List.Forall₂ Value.Spells values texts ∧
        m.continueJoin t values.reverse held = (m, .values [.str (String.join texts)])) := by
  have hsame (behaves : Behaviour) :
      Concatenates t held behaves m values.reverse = Evaluates t held behaves [] values m := by
    cases hreversed : values.reverse with
    | nil => exact absurd (List.reverse_eq_nil_iff.mp hreversed) hvalues
    | cons b left =>
      rw [concatenates_eq_evaluates, ← List.reverse_cons, ← hreversed, List.reverse_reverse]
  refine ⟨fun behaves calls m' s => by rw [hsame], fun m' s => ?_, fun hlength hkinds => ?_⟩
  · rw [exists_run_iff, hsame]
  · obtain ⟨texts, hspells⟩ := Value.exists_spells hkinds
    refine ⟨texts, hspells, ?_⟩
    rw [continueJoin, join_texts hlength hspells]

section Sample

/-- A machine with a table whose concatenations are left to a function that gives its arguments back. -/
def echoing : Machine :=
  ({ tables := #[{ Table.new 0 0 with metatable := some ⟨1⟩ }, Table.new 0 0], natives := #[⟨"echo", .host .echo⟩]
     threads := #[{ number := 1 }] } : Machine).storeKey ⟨1⟩ (.str "__concat") (.native ⟨0⟩) []

/-- The function gets the last two texts as one, and what it gives is joined in turn. Integers, doubles of any size
and a NaN with a sign are joined by their texts. -/
theorem concatenation_goes_by_pairs_echoing :
    Evaluates ⟨0⟩ [] (fun m h _ m' s => m' = m ∧ s = .values h.args) [] [.str "a", .table ⟨0⟩, .str "x", .str "y"]
      echoing [⟨.native ⟨0⟩, [.table ⟨0⟩, .str "xy"]⟩, ⟨.native ⟨0⟩, [.str "a", .table ⟨0⟩]⟩] echoing
      (.values [.str "a"]) ∧
    (∃ m' calls, Evaluates ⟨0⟩ [] (answers ⟨0⟩ [] echoing.stack) [] [.str "a", .table ⟨0⟩, .str "x", .str "y"] echoing
      calls m' (.values [.str "a"])) ∧
    echoing.continueJoin ⟨0⟩
      [.str "z", .float (Double.ofBits 0xfff8000000000000), .float 1e300, .float (-0.1), .int (-7), .str "y"] [] =
        (echoing, .values [.str "y-7-0.11e+300-nanz"]) := by
  obtain ⟨hcalls, hruns, -⟩ := concatenation_goes_by_pairs echoing ⟨0⟩ [.str "a", .table ⟨0⟩, .str "x", .str "y"] []
    (List.cons_ne_nil _ _)
  have hrun {m' : Machine} (hrun : runAbove echoing.stack 12
      (echoing.continueJoin ⟨0⟩ [.str "y", .str "x", .table ⟨0⟩, .str "a"] []).1
      (echoing.continueJoin ⟨0⟩ [.str "y", .str "x", .table ⟨0⟩, .str "a"] []).2 = some (m', .values [.str "a"])) :
      ∃ m' calls, Evaluates ⟨0⟩ [] (answers ⟨0⟩ [] echoing.stack) [] [.str "a", .table ⟨0⟩, .str "x", .str "y"] echoing
        calls m' (.values [.str "a"]) :=
    ⟨m', (hruns m' _).mp ⟨12, hrun⟩⟩
  have hlast : echoing.join ⟨0⟩ [.str "y", .str "x", .table ⟨0⟩, .str "a"] [] =
      .handler ⟨.native ⟨0⟩, [.table ⟨0⟩, .str "xy"], .first, [.str "xy", .table ⟨0⟩, .str "a"]⟩ [.str "a"] := rfl
  have hfirst : echoing.join ⟨0⟩ [.table ⟨0⟩, .str "a"] [] =
      .handler ⟨.native ⟨0⟩, [.str "a", .table ⟨0⟩], .first, [.table ⟨0⟩, .str "a"]⟩ [] := rfl
  refine ⟨(hcalls _ _ _ _).mp ?_, hrun rfl, ?_⟩
  · exact .returned hlast ⟨rfl, rfl⟩ (.returned hfirst ⟨rfl, rfl⟩ (.done rfl))
  · obtain ⟨texts, hspells, hjoin⟩ := (concatenation_goes_by_pairs echoing ⟨0⟩ [.str "y", .int (-7), .float (-0.1),
      .float 1e300, .float (Double.ofBits 0xfff8000000000000), .str "z"] [] (List.cons_ne_nil _ _)).2.2 (by decide)
      (by decide)
    have htexts : ["y", "-7", "-0.1", "1e+300", "-nan", "z"] = texts := by
      rw [← (Value.filterMap_toText? hspells).1]
      decide +kernel
    rw [← htexts] at hjoin
    exact hjoin

end Sample

end Machine

end LuaMachine
