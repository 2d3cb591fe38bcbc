import LuaMachine.Arithmetic
import LuaMachine.Proofs.Prototype.Constant
import LuaMachine.Table.Basic

namespace LuaMachine

namespace Value

section Kinds

theorem isCanonical_of_ne_float {v : Value} (h : ∀ x, v ≠ float x) : v.IsCanonical := fun x hv => absurd hv (h x)

@[simp] theorem isCanonical_nil : nil.IsCanonical := isCanonical_of_ne_float nofun

@[simp] theorem isCanonical_bool (b : Bool) : (bool b).IsCanonical := isCanonical_of_ne_float nofun

@[simp] theorem isCanonical_int (i : Int64) : (int i).IsCanonical := isCanonical_of_ne_float nofun

@[simp] theorem isCanonical_str (s : String) : (str s).IsCanonical := isCanonical_of_ne_float nofun

@[simp] theorem isCanonical_table (id : TableId) : (table id).IsCanonical := isCanonical_of_ne_float nofun

@[simp] theorem isCanonical_closure (id : ClosureId) : (closure id).IsCanonical := isCanonical_of_ne_float nofun

@[simp] theorem isCanonical_native (id : NativeId) : (native id).IsCanonical := isCanonical_of_ne_float nofun

@[simp] theorem isCanonical_thread (id : ThreadId) : (thread id).IsCanonical := isCanonical_of_ne_float nofun

theorem isCanonical_ofRef (r : Ref) : (ofRef r).IsCanonical := by cases r <;> exact isCanonical_of_ne_float nofun

end Kinds

/-- The number of a double is that double or an integer. -/
theorem number_eq_or (x : Double) : number x = float x ∨ ∃ i, number x = int i := by
  unfold number
  dsimp only
  split
  · split
    · exact Or.inl rfl
    · exact Or.inr ⟨_, rfl⟩
  · exact Or.inl rfl

@[simp] theorem isCanonical_number (x : Double) : (number x).IsCanonical := by
  intro y hy
  obtain h | ⟨i, h⟩ := number_eq_or x
  · rw [h, float.injEq] at hy
    exact hy ▸ h
  · rw [h] at hy
    cases hy

/-- A double is its own number unless a 64-bit integer equals it that is not negative zero. -/
theorem number_eq_float_iff (x : Double) :
    number x = float x ↔
      ∀ i : Int64, (Binary.ofFloat x).integer? = some i.toInt → i = 0 ∧ (Binary.ofFloat x).isNegative = true := by
  unfold number
  dsimp only
  cases hinteger : (Binary.ofFloat x).integer?.bind Number.int64? with
  | none =>
    refine iff_of_true rfl fun i hi => ?_
    rw [hi, Option.bind_some, Number.int64?_toInt] at hinteger
    cases hinteger
  | some i =>
    obtain ⟨n, hn, hi⟩ := Option.bind_eq_some_iff.mp hinteger
    have hvalue : n = i.toInt := (Number.toInt_of_int64? hi).symm
    subst hvalue
    dsimp only
    constructor
    · intro h j hj
      have hij : i = j := by
        rw [hn] at hj
        exact Int64.toInt_inj.mp (Option.some.inj hj)
      subst hij
      by_contra hzero
      rw [if_neg hzero] at h
      cases h
    · intro h
      rw [if_pos (h i hn)]

/-- A value is canonical unless it is a double that a 64-bit integer equals and that is not negative zero. -/
theorem isCanonical_iff (v : Value) :
    v.IsCanonical ↔ ∀ x, v = float x → ∀ i : Int64, (Binary.ofFloat x).integer? = some i.toInt →
      i = 0 ∧ (Binary.ofFloat x).isNegative = true :=
  forall_congr' fun x => imp_congr_right fun _ => number_eq_float_iff x

theorem isCanonical_negativeZero : (float (-0.0)).IsCanonical := by
  have hbits : Binary.ofFloat (-0.0 : Double).value = .finite true 0 (-1074) := by decide
  intro x hx
  cases hx
  refine (number_eq_float_iff _).mpr fun i hi => ⟨?_, by rw [hbits]; rfl⟩
  rw [hbits] at hi
  simp only [Binary.integer?, Nat.zero_mod, Nat.zero_div] at hi
  exact Int64.toInt_inj.mp (Option.some.inj hi).symm

section Texts

theorem isCanonical_ofReading (r : Numeral.Reading) : (ofReading r).IsCanonical := by
  cases r with
  | int i => exact isCanonical_int i
  | float x => exact isCanonical_number x

theorem isCanonical_of_parseNumber {s : String} {v : Value} (h : parseNumber? s = some v) : v.IsCanonical := by
  obtain ⟨r, -, rfl⟩ := Option.map_eq_some_iff.mp h
  exact isCanonical_ofReading r

theorem isCanonical_of_parseRadix {base : Nat} {s : String} {v : Value} (h : parseRadix? base s = some v) :
    v.IsCanonical := by
  obtain ⟨r, -, rfl⟩ := Option.map_eq_some_iff.mp h
  exact isCanonical_ofReading r

theorem IsCanonical.toNumber {v w : Value} (h : v.IsCanonical) (hw : v.toNumber? = some w) : w.IsCanonical := by
  cases v with
  | int | float =>
    cases hw
    exact h
  | str s => exact isCanonical_of_parseNumber hw
  | nil | bool | table | closure | native | userdata | thread => cases hw

end Texts

end Value

/-- A key is stored as it is, or as zero. -/
theorem Value.IsCanonical.normalizeKey {key stored : Value} (h : key.IsCanonical)
    (hstored : Table.normalizeKey key = .ok stored) : stored.IsCanonical := by
  unfold Table.normalizeKey at hstored
  split at hstored
  · cases hstored
  · split at hstored
    · cases hstored
    · split at hstored
      · cases hstored
        exact isCanonical_int 0
      · cases hstored
        exact h
  · cases hstored
    exact h

namespace Arithmetic

open Value

theorem isCanonical_fitted (exact : Int) (rounded : Float) : (fitted exact rounded).IsCanonical := by
  unfold fitted
  split <;> simp

theorem isCanonical_onInts (op : ArithOp) (x y : Int64) : (onInts op x y).IsCanonical := by
  cases op with
  | add | sub | mul => exact isCanonical_fitted _ _
  | div | pow => exact isCanonical_number _
  | mod =>
    unfold onInts
    dsimp only
    split <;> simp
  | unm =>
    unfold onInts
    dsimp only
    split
    · exact isCanonical_negativeZero
    · exact isCanonical_fitted _ _

/-- Arithmetic gives canonical numbers, whatever its operands are. -/
theorem isCanonical_of_raw {op : ArithOp} {a b v : Value} (h : raw? op a b = some v) : v.IsCanonical := by
  unfold raw? at h
  split at h
  · cases h
    exact isCanonical_onInts _ _ _
  · split at h
    · cases h
      exact isCanonical_number _
    · cases h
  · cases h

/-- The index that a loop starts from is canonical, whatever the numbers are. -/
theorem isCanonical_firstIndex (start step : Value) : ((raw? .sub start step).getD .nil).IsCanonical := by
  cases h : raw? .sub start step with
  | none => exact isCanonical_nil
  | some v => exact isCanonical_of_raw h

/-- The index of a loop is canonical, whatever it was before. -/
theorem isCanonical_forStep (index limit step : Value) : (forStep index limit step).1.IsCanonical := by
  unfold forStep
  split
  · split
    · exact isCanonical_int _
    · exact isCanonical_number _
  · exact isCanonical_number _

end Arithmetic

/-- All values of a list are canonical. -/
def Values.AreCanonical (vs : Values) : Prop := ∀ v ∈ vs, v.IsCanonical

namespace Values.AreCanonical

open Value

variable {vs ws : Values}

theorem nil : AreCanonical [] := nofun

theorem cons {v : Value} (hv : v.IsCanonical) (h : vs.AreCanonical) : AreCanonical (v :: vs) :=
  List.forall_mem_cons.mpr ⟨hv, h⟩

theorem single {v : Value} (hv : v.IsCanonical) : AreCanonical [v] := cons hv nil

theorem append (h : vs.AreCanonical) (h' : ws.AreCanonical) : AreCanonical (vs ++ ws) := fun v hv =>
  (List.mem_append.mp hv).elim (h v) (h' v)

theorem of_subset (h : vs.AreCanonical) (hsubset : ws ⊆ vs) : AreCanonical ws := fun v hv => h v (hsubset hv)

theorem drop (h : vs.AreCanonical) (n : Nat) : AreCanonical (vs.drop n) := h.of_subset (List.drop_subset n vs)

theorem reverse (h : vs.AreCanonical) : AreCanonical vs.reverse := h.of_subset fun _ => List.mem_reverse.mp

theorem arg (h : vs.AreCanonical) (i : Nat) : (Values.arg vs i).IsCanonical := by
  unfold Values.arg
  cases hget : vs[i]? with
  | none => exact isCanonical_nil
  | some v => exact h v (List.mem_of_getElem? hget)

theorem first (h : vs.AreCanonical) : vs.first.IsCanonical := by
  cases vs with
  | nil => exact isCanonical_nil
  | cons v rest => exact h v (List.mem_cons_self ..)

theorem adjust (h : vs.AreCanonical) (count : Nat) : (vs.adjust count).AreCanonical := by
  refine append (h.of_subset (List.take_subset count vs)) fun v hv => ?_
  rw [List.eq_of_mem_replicate hv]
  exact isCanonical_nil

end Values.AreCanonical

end LuaMachine
