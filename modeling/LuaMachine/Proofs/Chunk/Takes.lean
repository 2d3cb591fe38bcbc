import Mathlib
import LuaMachine.Chunk.Reader

namespace LuaMachine.Chunk.Reader

variable {α β : Type}

/-- The reader takes these bytes for this result, whatever follows, and refuses when bytes are missing at the end. -/
structure Takes (r : Reader α) (bytes : List UInt8) (x : α) : Prop where
  whole (rest : List UInt8) : r (bytes ++ rest) = .ok (x, rest)
  short (start : List UInt8) (hstart : start <+: bytes) (hproper : start ≠ bytes) : ∃ e, r start = .error e

theorem bind_of_ok {r : Reader α} {next : α → Reader β} {bytes rest : List UInt8} {x : α}
    (h : r bytes = .ok (x, rest)) : (r >>= next) bytes = next x rest := by
  show Reader.bind r next bytes = _
  rw [Reader.bind, h]

theorem bind_of_error {r : Reader α} {next : α → Reader β} {bytes : List UInt8} {e : Error}
    (h : r bytes = .error e) : (r >>= next) bytes = .error e := by
  show Reader.bind r next bytes = _
  rw [Reader.bind, h]

/-- A proper prefix of two parts ends in the first or in the second. -/
theorem proper_prefix_append {start first second : List UInt8} (hstart : start <+: first ++ second)
    (hproper : start ≠ first ++ second) :
    (start <+: first ∧ start ≠ first) ∨ ∃ tail, start = first ++ tail ∧ tail <+: second ∧ tail ≠ second := by
  obtain ⟨missing, hmissing⟩ := hstart
  rcases List.append_eq_append_iff.mp hmissing with ⟨left, rfl, -⟩ | ⟨tail, rfl, hsecond⟩
  · by_cases hleft : left = []
    · subst hleft
      exact Or.inr ⟨[], by simp, List.nil_prefix, fun heq => hproper (by simp [← heq])⟩
    · exact Or.inl ⟨List.prefix_append _ _, by simpa using hleft⟩
  · exact Or.inr ⟨tail, rfl, ⟨missing, hsecond.symm⟩, fun heq => hproper (by rw [heq])⟩

namespace Takes

theorem pure (x : α) : Takes (Pure.pure x : Reader α) [] x where
  whole _ := rfl
  short _ hstart hproper := absurd (List.prefix_nil.mp hstart) hproper

theorem bind {r : Reader α} {next : α → Reader β} {first second : List UInt8} {x : α} {y : β}
    (hr : Takes r first x) (hnext : Takes (next x) second y) : Takes (r >>= next) (first ++ second) y where
  whole rest := by rw [List.append_assoc, bind_of_ok (hr.whole _), hnext.whole]
  short start hstart hproper := by
    rcases proper_prefix_append hstart hproper with ⟨hfirst, hne⟩ | ⟨tail, rfl, hsecond, hne⟩
    · obtain ⟨e, he⟩ := hr.short start hfirst hne
      exact ⟨e, bind_of_error he⟩
    · rw [bind_of_ok (hr.whole tail)]
      exact hnext.short tail hsecond hne

/-- A reader that goes on without reading more. -/
theorem finish {r : Reader α} {next : α → Reader β} {bytes : List UInt8} {x : α} {y : β}
    (hr : Takes r bytes x) (hnext : next x = Pure.pure y) : Takes (r >>= next) bytes y := by
  have h : Takes (r >>= next) (bytes ++ []) y := hr.bind (hnext ▸ pure y)
  rwa [List.append_nil] at h

theorem byte (b : UInt8) : Takes Reader.byte [b] b where
  whole _ := rfl
  short start hstart hproper := by
    obtain rfl : start = [] := by
      rcases List.prefix_cons_iff.mp hstart with rfl | ⟨tail, rfl, htail⟩
      · rfl
      · exact absurd (by rw [List.prefix_nil.mp htail]) hproper
    exact ⟨_, rfl⟩

theorem take (bytes : List UInt8) : Takes (Reader.take bytes.length) bytes bytes where
  whole rest := by
    rw [Reader.take, if_pos (by simp), List.take_left, List.drop_left]
  short start hstart hproper := by
    have hlt : start.length < bytes.length :=
      lt_of_le_of_ne hstart.length_le fun heq => hproper (hstart.eq_of_length heq)
    exact ⟨_, if_neg (by omega)⟩

/-- Items in a row, each behind the bytes of the one before. -/
theorem many {item : Reader α} {xs : List α} {chunks : List (List UInt8)}
    (hitems : List.Forall₂ (fun x chunk => Takes item chunk x) xs chunks) :
    Takes (Reader.many item xs.length) chunks.flatten xs := by
  induction hitems with
  | nil => exact pure []
  | cons hitem _ ih =>
    rw [List.flatten_cons]
    exact hitem.bind (ih.finish rfl)

end Takes

/-- A reader that gives every result of another one, and maybe more. -/
def Extends (r' r : Reader α) : Prop := ∀ ⦃bytes y⦄, r bytes = .ok y → r' bytes = .ok y

namespace Extends

theorem refl (r : Reader α) : r.Extends r := fun _ _ h => h

theorem fail (r : Reader α) (e : Error) : r.Extends (Reader.fail e) := nofun

theorem bind {r r' : Reader α} {next next' : α → Reader β} (hr : r'.Extends r)
    (hnext : ∀ x, (next' x).Extends (next x)) : (r' >>= next').Extends (r >>= next) := by
  intro bytes y hy
  cases hread : r bytes with
  | error e =>
    rw [bind_of_error hread] at hy
    cases hy
  | ok read =>
    rw [bind_of_ok hread] at hy
    rw [bind_of_ok (hr hread)]
    exact hnext _ hy

theorem many {r r' : Reader α} (hr : r'.Extends r) (n : Nat) : (Reader.many r' n).Extends (Reader.many r n) := by
  induction n with
  | zero => exact refl _
  | succ n ih => exact hr.bind fun _ => ih.bind fun _ => refl _

end Extends

end LuaMachine.Chunk.Reader
