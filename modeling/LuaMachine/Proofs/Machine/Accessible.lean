import LuaMachine.Machine.Teardown
import LuaMachine.Proofs.External
import LuaMachine.Proofs.Machine.Heap
import LuaMachine.Proofs.Machine.Outline

namespace LuaMachine.Machine

/-- An object refers to another one. -/
def RefersTo (m : Machine) (r s : Ref) : Prop := .ofRef s ∈ m.references (.ofRef r)

/-- An object can be reached from one of some values. -/
def Accessible (m : Machine) (starts : Values) (r : Ref) : Prop :=
  ∃ s, .ofRef s ∈ starts ∧ Relation.ReflTransGen m.RefersTo s r

variable {m : Machine} {starts pending : Values} {seen : List Ref} {r s : Ref} {v : Value}

theorem Accessible.tail (h : m.Accessible starts r) (hlink : m.RefersTo r s) : m.Accessible starts s := by
  obtain ⟨start, hstart, hreach⟩ := h
  exact ⟨start, hstart, hreach.tail hlink⟩

theorem accessible_of_mem (h : .ofRef r ∈ starts) : m.Accessible starts r := ⟨r, h, .refl⟩

/-- What can be reached is among some objects that include the start, if no reference leads out of them. -/
theorem Accessible.mem (h : m.Accessible starts r) (within : List Ref) (hstarts : ∀ v ∈ starts, v ∈ within.map .ofRef)
    (hclosed : ∀ r ∈ within, ∀ v ∈ m.references (.ofRef r), v ∈ within.map .ofRef) : r ∈ within := by
  have hmem {r : Ref} (hr : .ofRef r ∈ within.map Value.ofRef) : r ∈ within :=
    (List.mem_map_of_injective fun _ _ => Value.ofRef_inj.mp).mp hr
  obtain ⟨start, hstart, hreach⟩ := h
  induction hreach with
  | refl => exact hmem (hstarts _ hstart)
  | tail _ hlink ih => exact hmem (hclosed _ ih _ hlink)

section Bound

/-- All objects of a machine that may refer to others. -/
def objects (m : Machine) : List Ref :=
  (List.range m.tables.size).map (fun i => Ref.table ⟨i⟩) ++
    (List.range m.closures.size).map (fun i => Ref.closure ⟨i⟩) ++
    (List.range m.userdata.size).map (fun i => Ref.userdata ⟨i⟩) ++
    (List.range m.threads.size).map (fun i => Ref.thread ⟨i⟩)

theorem mem_objects_iff : r ∈ m.objects ↔ match r with
    | .table id => id.index < m.tables.size
    | .closure id => id.index < m.closures.size
    | .native _ => False
    | .userdata id => id.index < m.userdata.size
    | .thread id => id.index < m.threads.size := by
  have hnames {α : Type} {n : Nat} (index : α → Nat) {name : Nat → α} (hname : ∀ i, index (name i) = i)
      (hindex : ∀ a, name (index a) = a) (a : α) : (∃ i < n, name i = a) ↔ index a < n :=
    ⟨fun ⟨i, hi, h⟩ => h ▸ (hname i).symm ▸ hi, fun h => ⟨index a, h, hindex a⟩⟩
  cases r with
  | table id => simpa [objects] using hnames TableId.index (fun _ => rfl) (fun _ => rfl) id
  | closure id => simpa [objects] using hnames ClosureId.index (fun _ => rfl) (fun _ => rfl) id
  | native id => simp [objects]
  | userdata id => simpa [objects] using hnames UserdataId.index (fun _ => rfl) (fun _ => rfl) id
  | thread id => simpa [objects] using hnames ThreadId.index (fun _ => rfl) (fun _ => rfl) id

/-- What is not there refers to nothing, a closure apart, which would have an environment. -/
theorem references_of_not_mem (h : r ∉ m.objects) (hclosure : ∀ id, r = .closure id → id.index < m.closures.size) :
    m.references (.ofRef r) = [] := by
  rw [mem_objects_iff] at h
  cases r with
  | table id =>
    have hout := Nat.not_lt.mp h
    rw [Value.ofRef, references, tableReferences, entries_of_le hout, table_of_le hout]
    rfl
  | closure id => exact absurd (hclosure id rfl) h
  | native id => rfl
  | userdata id =>
    rw [Value.ofRef, references, userdatum, Array.getElem?_eq_none (Nat.not_lt.mp h)]
    rfl
  | thread id =>
    rw [Value.ofRef, references, threadReferences, thread_of_le (Nat.not_lt.mp h)]
    split <;> rfl

/-- How many references there are of objects that were not found. -/
def referencesLeft (m : Machine) (seen : List Ref) : Nat :=
  ((m.objects.filter (· ∉ seen)).map fun r => (m.references (.ofRef r)).length).sum

theorem referencesLeft_nil (m : Machine) : m.referencesLeft [] = m.referenceCount := by
  have hfold (vs : Values) (n : Nat) : vs.foldl (fun n v => n + (m.references v).length) n =
      n + (vs.map fun v => (m.references v).length).sum := by
    induction vs generalizing n with
    | nil => rfl
    | cons v vs ih => rw [List.foldl_cons, ih, List.map_cons, List.sum_cons, Nat.add_assoc]
  have hall : m.objects.filter (· ∉ ([] : List Ref)) = m.objects := List.filter_eq_self.mpr fun _ _ => by simp
  rw [referencesLeft, hall, referenceCount, hfold, Nat.zero_add]
  simp only [objects, List.map_append, List.map_map]
  rfl

theorem sum_map_filter_ne_add_le {objects : List Ref} (f : Ref → Nat) (hr : r ∈ objects) :
    ((objects.filter (· ≠ r)).map f).sum + f r ≤ (objects.map f).sum := by
  have hrest (objects : List Ref) : ((objects.filter (· ≠ r)).map f).sum ≤ (objects.map f).sum :=
    (List.filter_sublist.map f).sum_le_sum fun _ _ => Nat.zero_le _
  induction objects with
  | nil => cases hr
  | cons s objects ih =>
    rw [List.map_cons, List.sum_cons]
    by_cases hsame : s = r
    · have := hrest objects
      rw [List.filter_cons_of_neg (by simpa using hsame), hsame]
      omega
    · have := ih ((List.mem_cons.mp hr).resolve_left (Ne.symm hsame))
      rw [List.filter_cons_of_pos (by simpa using hsame), List.map_cons, List.sum_cons]
      omega

/-- Looking up what an object refers to uses up its references. -/
theorem referencesLeft_cons (hnew : r ∉ seen) (hclosure : ∀ id, r = .closure id → id.index < m.closures.size) :
    m.referencesLeft (r :: seen) + (m.references (.ofRef r)).length ≤ m.referencesLeft seen := by
  have hfilter : m.objects.filter (· ∉ r :: seen) = (m.objects.filter (· ∉ seen)).filter (· ≠ r) := by
    rw [List.filter_filter]
    exact List.filter_congr fun s _ => by simp
  rw [referencesLeft, hfilter]
  by_cases hr : r ∈ m.objects
  · exact sum_map_filter_ne_add_le (fun r => (m.references (.ofRef r)).length)
      (List.mem_filter.mpr ⟨hr, decide_eq_true hnew⟩)
  · rw [references_of_not_mem hr hclosure, List.filter_eq_self.mpr fun s hs => ?_]
    · exact Nat.le_refl _
    · refine decide_eq_true fun heq => hr ?_
      rw [← heq]
      exact (List.mem_filter.mp hs).1

end Bound

/-- A moment of a search: what was found or waits can be reached, and covers what it starts from and all that a found
object refers to. -/
structure Searched (m : Machine) (starts pending : Values) (seen : List Ref) : Prop where
  found : ∀ r, r ∈ seen ∨ .ofRef r ∈ pending → m.Accessible starts r
  covered : ∀ r ∈ seen, ∀ s, m.RefersTo r s → s ∈ seen ∨ .ofRef s ∈ pending
  starts_covered : ∀ r, .ofRef r ∈ starts → r ∈ seen ∨ .ofRef r ∈ pending

namespace Searched

theorem start (m : Machine) (starts : Values) : m.Searched starts starts [] where
  found := fun _ hr => accessible_of_mem (hr.resolve_left List.not_mem_nil)
  covered := fun _ hr => absurd hr List.not_mem_nil
  starts_covered := fun _ => .inr

/-- What is no object or was found need not wait. -/
theorem skip (h : m.Searched starts (v :: pending) seen) (hskip : ∀ r, v = .ofRef r → r ∈ seen) :
    m.Searched starts pending seen := by
  have hcovered {r : Ref} (hr : r ∈ seen ∨ .ofRef r ∈ v :: pending) : r ∈ seen ∨ .ofRef r ∈ pending := by
    rcases hr with hr | hr
    · exact .inl hr
    · exact (List.mem_cons.mp hr).imp (fun heq => hskip r heq.symm) id
  exact ⟨fun r hr => h.found r (hr.imp_right (List.mem_cons_of_mem v)),
    fun r hr s hlink => hcovered (h.covered r hr s hlink),
    fun r hr => hcovered (h.starts_covered r hr)⟩

/-- An object is found, and what it refers to waits. -/
theorem turn (h : m.Searched starts (.ofRef r :: pending) seen) :
    m.Searched starts (m.references (.ofRef r) ++ pending) (r :: seen) := by
  have hself := h.found r (.inr List.mem_cons_self)
  have hcovered {s : Ref} (hs : s ∈ seen ∨ .ofRef s ∈ .ofRef r :: pending) :
      s ∈ r :: seen ∨ .ofRef s ∈ m.references (.ofRef r) ++ pending := by
    rcases hs with hs | hs
    · exact .inl (List.mem_cons_of_mem r hs)
    · rcases List.mem_cons.mp hs with heq | hs
      · exact .inl (Value.ofRef_inj.mp heq ▸ List.mem_cons_self)
      · exact .inr (List.mem_append_right _ hs)
  refine ⟨fun s hs => ?_, fun s hs next hlink => ?_, fun s hs => hcovered (h.starts_covered s hs)⟩
  · rcases hs with hs | hs
    · rcases List.mem_cons.mp hs with rfl | hs
      · exact hself
      · exact h.found s (.inl hs)
    · rcases List.mem_append.mp hs with hlink | hs
      · exact hself.tail hlink
      · exact h.found s (.inr (List.mem_cons_of_mem _ hs))
  · rcases List.mem_cons.mp hs with rfl | hs
    · exact .inr (List.mem_append_left _ hlink)
    · exact hcovered (h.covered s hs next hlink)

/-- What can be reached is what was found once nothing waits. -/
theorem mem_iff (h : m.Searched starts [] seen) : r ∈ seen ↔ m.Accessible starts r := by
  constructor
  · exact fun hr => h.found r (.inl hr)
  · rintro ⟨start, hstart, hreach⟩
    induction hreach with
    | refl => exact (h.starts_covered start hstart).resolve_right List.not_mem_nil
    | tail _ hlink ih => exact (h.covered _ ih _ hlink).resolve_right List.not_mem_nil

end Searched

section Search

variable {fuel : Nat}

theorem reachable_skip (hskip : ∀ r, v = .ofRef r → r ∈ seen) :
    m.reachable (fuel + 1) (v :: pending) seen = m.reachable fuel pending seen := by
  rw [reachable]
  split
  · rfl
  · rename_i r hr
    rw [if_pos (List.contains_iff_mem.mpr (hskip r (Value.ref?_eq_some_iff.mp hr)))]

theorem reachable_turn (hnew : r ∉ seen) : m.reachable (fuel + 1) (.ofRef r :: pending) seen =
    m.reachable fuel (m.references (.ofRef r) ++ pending) (r :: seen) := by
  rw [reachable, Value.ref?_eq_some_iff.mpr rfl]
  exact if_neg (mt List.contains_iff_mem.mp hnew)

/-- The search ends with some objects found, and more steps find no more. It looks up what an object refers to when it
comes across the object first, so there are no more steps than references. -/
theorem exists_searched (hclosures : ∀ id, m.Accessible starts (.closure id) → id.index < m.closures.size)
    (h : m.Searched starts pending seen) (hfuel : m.referencesLeft seen + pending.length ≤ fuel) :
    ∃ all, m.Searched starts [] all ∧ ∀ more, fuel ≤ more → m.reachable more pending seen = all := by
  induction fuel generalizing pending seen with
  | zero =>
    obtain rfl : pending = [] := List.eq_nil_of_length_eq_zero (by omega)
    exact ⟨seen, h, fun more _ => by cases more <;> rfl⟩
  | succ fuel ih =>
    cases pending with
    | nil => exact ⟨seen, h, fun more _ => by cases more <;> rfl⟩
    | cons v pending =>
      rw [List.length_cons] at hfuel
      -- one more step leads to a moment from which `fuel` steps are enough
      suffices hstep : ∃ waiting found, m.Searched starts waiting found ∧
          m.referencesLeft found + waiting.length ≤ fuel ∧
          ∀ more, m.reachable (more + 1) (v :: pending) seen = m.reachable more waiting found by
        obtain ⟨waiting, found, hsearched, hroom, hequal⟩ := hstep
        obtain ⟨all, hall, hends⟩ := ih hsearched hroom
        refine ⟨all, hall, fun more hle => ?_⟩
        obtain ⟨more, rfl⟩ : ∃ k, more = k + 1 := ⟨more - 1, by omega⟩
        rw [hequal, hends more (by omega)]
      by_cases hskip : ∀ r, v = .ofRef r → r ∈ seen
      · exact ⟨pending, seen, h.skip hskip, by omega, fun _ => reachable_skip hskip⟩
      · obtain ⟨r, hr⟩ := not_forall.mp hskip
        obtain ⟨rfl, hnew⟩ := Classical.not_imp.mp hr
        have hleft := referencesLeft_cons hnew fun id heq =>
          hclosures id (heq ▸ h.found r (.inr List.mem_cons_self))
        refine ⟨_, _, h.turn, ?_, fun _ => reachable_turn hnew⟩
        rw [List.length_append]
        omega

end Search

end LuaMachine.Machine
