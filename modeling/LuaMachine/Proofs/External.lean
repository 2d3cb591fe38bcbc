import LuaMachine.External
import Mathlib

namespace LuaMachine

theorem Value.ref?_eq_some_iff {v : Value} {r : Ref} : v.ref? = some r ↔ v = ofRef r := by
  cases v <;> cases r <;> simp [ref?, ofRef]

theorem Value.ofRef_inj {r s : Ref} : ofRef r = ofRef s ↔ r = s := by
  cases r <;> cases s <;> simp [ofRef]

namespace ExternalNames

section Lookup

variable {α β : Type}

theorem nodup_keys_filter {xs : List (α × β)} (h : (xs.map (·.1)).Nodup) (p : α × β → Bool) :
    ((xs.filter p).map (·.1)).Nodup :=
  h.sublist (List.filter_sublist.map _)

variable [DecidableEq α]

theorem lookup_cons_eq (k l : α) (v : β) (xs : List (α × β)) :
    ((l, v) :: xs).lookup k = if k = l then some v else xs.lookup k := by
  rw [List.lookup_cons]
  by_cases hk : k = l
  · simp [hk]
  · rw [show (k == l) = false by simpa using hk, if_neg hk]

/-- Filtering a key out of an association list leaves the others as they were. -/
theorem lookup_filter_ne (key k : α) (xs : List (α × β)) :
    (xs.filter (·.1 != key)).lookup k = if k = key then none else xs.lookup k := by
  induction xs with
  | nil => simp
  | cons x rest ih =>
    obtain ⟨l, v⟩ := x
    rw [List.filter_cons, lookup_cons_eq]
    by_cases hl : l = key
    · subst hl
      rw [if_neg (by simp), ih]
      split <;> rfl
    · by_cases hk : k = l
      · subst hk
        simp [hl]
      · simp [ih, hl, hk, lookup_cons_eq]

theorem filter_ne_of_lookup_eq_none {key : α} {xs : List (α × β)} (h : xs.lookup key = none) :
    xs.filter (·.1 != key) = xs := by
  refine List.filter_eq_self.mpr fun x hx => ?_
  simpa [bne_comm] using List.lookup_eq_none_iff.mp h x hx

/-- With one entry for each key, looking a key up finds exactly its entry. -/
theorem mem_iff_lookup {xs : List (α × β)} (h : (xs.map (·.1)).Nodup) {k : α} {v : β} :
    (k, v) ∈ xs ↔ xs.lookup k = some v := by
  induction xs with
  | nil => simp
  | cons x rest ih =>
    obtain ⟨l, w⟩ := x
    rw [List.map_cons, List.nodup_cons] at h
    rw [List.mem_cons, lookup_cons_eq, ih h.2]
    by_cases hk : k = l
    · subst hk
      have hnone : rest.lookup k ≠ some v := fun hsome =>
        h.1 (List.mem_map.mpr ⟨(k, v), (ih h.2).mpr hsome, rfl⟩)
      simp [hnone, eq_comm]
    · simp [hk]

end Lookup

/-- The two directions of a registry agree, and each has one entry for each name or object. -/
structure Paired (x : ExternalNames) : Prop where
  agree : ∀ name v, x.byName.lookup name = some v ↔ ∃ r, v.ref? = some r ∧ x.byRef.lookup r = some name
  names : (x.byName.map (·.1)).Nodup
  refs : (x.byRef.map (·.1)).Nodup

variable {x : ExternalNames}

theorem paired_empty : Paired {} := ⟨by simp, List.nodup_nil, List.nodup_nil⟩

theorem nameOf?_eq_some_iff {v : Value} {name : String} :
    x.nameOf? v = some name ↔ ∃ r, v.ref? = some r ∧ x.byRef.lookup r = some name :=
  Option.bind_eq_some_iff

/-- A name stands for an object exactly if it is the object's name. -/
theorem Paired.resolve?_eq_some_iff (h : x.Paired) {name : String} {v : Value} :
    x.resolve? name = some v ↔ x.nameOf? v = some name :=
  (h.agree name v).trans nameOf?_eq_some_iff.symm

section Unregister

variable (name : String)

theorem unregister_of_none (h : x.byName.lookup name = none) : x.unregister name = (x, none) := by
  rw [unregister, h]

theorem unregister_of_some {v : Value} {r : Ref} (h : x.byName.lookup name = some v) (hr : v.ref? = some r) :
    x.unregister name =
      ({ byName := x.byName.filter (·.1 != name), byRef := x.byRef.filter (·.1 != r) }, some v) := by
  rw [unregister, h]
  simp [hr]

theorem lookup_byName_unregister (n : String) :
    (x.unregister name).1.byName.lookup n = if n = name then none else x.byName.lookup n := by
  unfold unregister
  split
  · rename_i hnone
    split
    · rename_i heq
      rw [heq, hnone]
    · rfl
  · exact lookup_filter_ne name n x.byName

/-- Removing a name removes it from its object as well. -/
theorem Paired.lookup_byRef_unregister (h : x.Paired) (r : Ref) :
    (x.unregister name).1.byRef.lookup r =
      if x.byRef.lookup r = some name then none else x.byRef.lookup r := by
  cases hname : x.byName.lookup name with
  | none =>
    rw [unregister_of_none name hname, if_neg]
    intro hr
    have hbound := (h.agree name (.ofRef r)).mpr ⟨r, Value.ref?_eq_some_iff.mpr rfl, hr⟩
    rw [hname] at hbound
    cases hbound
  | some v =>
    obtain ⟨s, hs, hbound⟩ := (h.agree name v).mp hname
    rw [unregister_of_some name hname hs, lookup_filter_ne]
    refine if_congr ⟨fun hr => hr ▸ hbound, fun hr => ?_⟩ rfl rfl
    -- both objects have the name, so they are one
    have hsame := (h.agree name (.ofRef r)).mpr ⟨r, Value.ref?_eq_some_iff.mpr rfl, hr⟩
    rw [hname] at hsame
    cases hsame
    rw [Value.ref?_eq_some_iff.mpr rfl] at hs
    exact Option.some.inj hs

theorem Paired.unregister (h : x.Paired) : (x.unregister name).1.Paired := by
  refine ⟨fun n v => ?_, ?_, ?_⟩
  · simp only [lookup_byName_unregister, h.lookup_byRef_unregister name]
    by_cases hn : n = name
    · subst hn
      simp only [if_true, reduceCtorEq, false_iff, not_exists, not_and]
      intro r _ hr
      split at hr
      · cases hr
      · contradiction
    · rw [if_neg hn, h.agree]
      refine exists_congr fun r => and_congr_right fun _ => ⟨fun hr => ?_, fun hr => ?_⟩
      · rw [if_neg (by rw [hr]; simpa using hn), hr]
      · split at hr
        · cases hr
        · exact hr
  all_goals
    unfold ExternalNames.unregister
    split
  · exact h.names
  · exact nodup_keys_filter h.names _
  · exact h.refs
  · rename_i v hv
    obtain ⟨r, hr, -⟩ := (h.agree name v).mp hv
    rw [hr]
    exact nodup_keys_filter h.refs _

/-- What is removed is what the name stood for. -/
theorem unregister_snd : (x.unregister name).2 = x.resolve? name := by
  unfold ExternalNames.unregister
  split <;> simp [resolve?, *]

end Unregister

section Register

variable {v : Value} {r : Ref} (name : String)

theorem register_of_not_object (h : v.ref? = none) : x.register name v = (x, false) := by
  rw [register, h]

/-- The registry without a name and without the name that an object has otherwise. -/
def cleared (x : ExternalNames) (name : String) (r : Ref) : ExternalNames :=
  let x := (x.unregister name).1
  match x.byRef.lookup r with
  | some old => (x.unregister old).1
  | none => x

/-- Naming an object clears what stands in the way and adds the pair to both directions. -/
theorem Paired.register_eq (h : x.Paired) (hr : v.ref? = some r) :
    x.register name v =
      ({ byName := (name, v) :: (x.cleared name r).byName, byRef := (r, name) :: (x.cleared name r).byRef }, true) := by
  have hfirst := h.unregister name
  rw [register, hr]
  unfold cleared
  dsimp only
  generalize (x.unregister name).1 = y at hfirst ⊢
  cases hold : y.byRef.lookup r with
  | none => simp [filter_ne_of_lookup_eq_none hold]
  | some old =>
    have hbound := (hfirst.agree old v).mpr ⟨r, hr, hold⟩
    simp [unregister_of_some old hbound hr]

theorem Paired.cleared (h : x.Paired) (r : Ref) : (x.cleared name r).Paired := by
  unfold ExternalNames.cleared
  dsimp only
  split
  · exact (h.unregister name).unregister _
  · exact h.unregister name

/-- What a name stands for once another one and an object's own are cleared. -/
theorem Paired.lookup_byName_cleared (h : x.Paired) (r : Ref) (n : String) :
    (x.cleared name r).byName.lookup n =
      if n = name ∨ x.byRef.lookup r = some n then none else x.byName.lookup n := by
  have hrest := h.lookup_byRef_unregister name r
  unfold ExternalNames.cleared
  dsimp only
  split
  · rename_i old hold
    rw [hrest] at hold
    split at hold
    · cases hold
    · rw [lookup_byName_unregister, lookup_byName_unregister, hold]
      by_cases hn : n = name <;> by_cases hm : n = old <;> simp [hn, hm, eq_comm]
  · rename_i hnone
    rw [lookup_byName_unregister]
    rw [hrest] at hnone
    refine if_congr ⟨Or.inl, ?_⟩ rfl rfl
    rintro (hn | hn)
    · exact hn
    · rw [hn] at hnone
      split at hnone
      · rename_i hsame
        exact Option.some.inj hsame
      · cases hnone

theorem Paired.lookup_byRef_cleared (h : x.Paired) (r : Ref) : (x.cleared name r).byRef.lookup r = none := by
  unfold ExternalNames.cleared
  dsimp only
  split
  · rename_i old hold
    rw [(h.unregister name).lookup_byRef_unregister, if_pos hold]
  · assumption

/-- A new pair keeps the two directions in agreement if neither its name nor its object was in use. -/
theorem Paired.add (h : x.Paired) (hr : v.ref? = some r) (hname : x.byName.lookup name = none)
    (href : x.byRef.lookup r = none) :
    Paired { byName := (name, v) :: x.byName, byRef := (r, name) :: x.byRef } := by
  refine ⟨fun n w => ?_, ?_, ?_⟩
  · simp only [lookup_cons_eq]
    by_cases hn : n = name
    · subst hn
      simp only [if_true, Option.some.injEq]
      constructor
      · rintro rfl
        exact ⟨r, hr, by simp⟩
      · rintro ⟨s, hs, hbound⟩
        split at hbound
        · rename_i heq
          rw [heq, Value.ref?_eq_some_iff] at hs
          rw [hs, ← Value.ref?_eq_some_iff.mp hr]
        · have hold := (h.agree n w).mpr ⟨s, hs, hbound⟩
          rw [hname] at hold
          cases hold
    · rw [if_neg hn, h.agree]
      refine exists_congr fun s => and_congr_right fun _ => ?_
      by_cases hs : s = r
      · subst hs
        simp [href, Ne.symm hn]
      · rw [if_neg hs]
  · rw [List.map_cons, List.nodup_cons]
    refine ⟨fun hmem => ?_, h.names⟩
    obtain ⟨e, he, rfl⟩ := List.mem_map.mp hmem
    rw [(mem_iff_lookup h.names).mp he] at hname
    cases hname
  · rw [List.map_cons, List.nodup_cons]
    refine ⟨fun hmem => ?_, h.refs⟩
    obtain ⟨e, he, rfl⟩ := List.mem_map.mp hmem
    rw [(mem_iff_lookup h.refs).mp he] at href
    cases href

theorem Paired.register (h : x.Paired) (v : Value) : (x.register name v).1.Paired := by
  cases hr : v.ref? with
  | none => rwa [register_of_not_object name hr]
  | some r =>
    rw [h.register_eq name hr]
    exact (h.cleared name r).add name hr (by simp [h.lookup_byName_cleared]) (h.lookup_byRef_cleared name r)

/-- Only objects can be named. -/
theorem register_snd (v : Value) : (x.register name v).2 = v.isObject := by
  unfold ExternalNames.register
  split <;> simp [Value.isObject, *]

/-- After naming an object, its new name stands for it, its old one for nothing and every other one for what it
did. -/
theorem Paired.resolve?_register (h : x.Paired) (v : Value) (n : String) :
    (x.register name v).1.resolve? n =
      if v.isObject ∧ n = name then some v
      else if v.isObject ∧ x.nameOf? v = some n then none
      else x.resolve? n := by
  cases hr : v.ref? with
  | none => simp [register_of_not_object name hr, Value.isObject, hr]
  | some r =>
    rw [h.register_eq name hr]
    simp only [resolve?, nameOf?, Value.isObject, hr, Option.isSome_some, true_and, Option.bind_some,
      lookup_cons_eq, h.lookup_byName_cleared]
    by_cases hn : n = name <;> simp [hn]

end Register

/-- The number of names is the number of objects that have one. -/
theorem Paired.size_eq (h : x.Paired) : x.size = {v | (x.nameOf? v).isSome = true}.ncard := by
  have hobjects : {v | (x.nameOf? v).isSome = true} = ((x.byName.map (·.2)).toFinset : Set Value) := by
    ext v
    simp only [Set.mem_ofPred_eq, Option.isSome_iff_exists, List.coe_toFinset, List.mem_map, Prod.exists,
      exists_eq_right, mem_iff_lookup h.names, ← h.resolve?_eq_some_iff]
    rfl
  have hnodup : (x.byName.map (·.2)).Nodup := by
    refine (List.Nodup.of_map _ h.names).map_on ?_
    rintro ⟨n, v⟩ hn ⟨m, w⟩ hm (rfl : v = w)
    have hname := h.resolve?_eq_some_iff.mp ((mem_iff_lookup h.names).mp hn)
    rw [h.resolve?_eq_some_iff.mp ((mem_iff_lookup h.names).mp hm)] at hname
    rw [Option.some.inj hname]
  rw [hobjects, Set.ncard_coe_finset, List.toFinset_card_of_nodup hnodup, List.length_map, size]

/-- What is done to a registry. -/
inductive Op
  | register (name : String) (v : Value)
  | unregister (name : String)

/-- The registry after an operation. -/
def Op.apply (x : ExternalNames) : Op → ExternalNames
  | register name v => (x.register name v).1
  | unregister name => (x.unregister name).1

/-- A registry that was empty first, after some operations. -/
def ofOps (ops : List Op) : ExternalNames := ops.foldl Op.apply {}

theorem Paired.apply (h : x.Paired) (op : Op) : (op.apply x).Paired := by
  cases op with
  | register name v => exact h.register name v
  | unregister name => exact h.unregister name

/-- Operations keep the two directions in agreement. -/
theorem paired_ofOps (ops : List Op) : (ofOps ops).Paired := by
  have hrun (x : ExternalNames) (h : x.Paired) : (ops.foldl Op.apply x).Paired := by
    induction ops generalizing x with
    | nil => exact h
    | cons op ops ih => exact ih (op.apply x) (h.apply op)
  exact hrun {} paired_empty

/-- **A registry is a bijection.** After any operations a name is bound to an object in one direction exactly if the
object is bound to it in the other, so a name resolves to an object exactly if it is the object's name, and the names
are as many as the objects that have one. Naming an object takes the name from what had it and the object's old name
from the object, and nothing else; what is no object is refused. -/
theorem bijection_ofOps (ops : List Op) :
    let x := ofOps ops
    (∀ name v, x.byName.lookup name = some v ↔ ∃ r, v.ref? = some r ∧ x.byRef.lookup r = some name) ∧
    (∀ name v, x.resolve? name = some v ↔ x.nameOf? v = some name) ∧
    x.size = {v | (x.nameOf? v).isSome = true}.ncard ∧
    (∀ name v, (x.register name v).2 = v.isObject ∧ ∀ n, (x.register name v).1.resolve? n =
      if v.isObject ∧ n = name then some v
      else if v.isObject ∧ x.nameOf? v = some n then none
      else x.resolve? n) ∧
    ∀ name, (x.unregister name).2 = x.resolve? name ∧ ∀ n, (x.unregister name).1.resolve? n =
      if n = name then none else x.resolve? n := by
  intro x
  have h : x.Paired := paired_ofOps ops
  refine ⟨h.agree, fun _ _ => h.resolve?_eq_some_iff, h.size_eq, fun name v => ?_, fun name => ?_⟩
  · exact ⟨register_snd name v, h.resolve?_register name v⟩
  · exact ⟨unregister_snd name, lookup_byName_unregister name⟩

/-- A name moves to another object, which then takes another name: that one is left, and can be released. -/
theorem bijection_ofOps_moving :
    let ops : List Op := [.register "player" (.table ⟨1⟩), .register "player" (.table ⟨2⟩),
      .register "world" (.table ⟨2⟩)]
    (ofOps ops).resolve? "world" = some (.table ⟨2⟩) ∧ (ofOps ops).resolve? "player" = none ∧
      {v | ((ofOps ops).nameOf? v).isSome = true}.ncard = 1 ∧
      ((ofOps ops).unregister "world").1.resolve? "world" = none := by
  intro ops
  obtain ⟨-, hresolve, hsize, -, hunregister⟩ := bijection_ofOps ops
  have hworld : (ofOps ops).resolve? "world" = some (.table ⟨2⟩) := (hresolve _ _).mpr (by decide)
  have hplayer : (ofOps ops).resolve? "player" = none := by decide
  refine ⟨hworld, hplayer, hsize.symm.trans (by decide), ?_⟩
  rw [(hunregister "world").2, if_pos rfl]

end ExternalNames

end LuaMachine
