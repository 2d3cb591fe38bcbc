import LuaMachine.Proofs.Json.RoundTrip

namespace LuaMachine

open Table

namespace Json

open Machine

variable {names : ExternalNames} {m : Machine} {v : Value}

/-- Data that is plain through and through is plain up to names. -/
theorem plainUpTo_of_plain {names? : Option ExternalNames} (h : m.Plain v) : PlainUpTo names? m v := by
  have hsub (u w : Value) (huw : Shows names? m u w) : m.Contains u w := huw.2
  intro w hw
  obtain ⟨hform, hloop⟩ := h w (Relation.ReflTransGen.mono hsub _ _ hw)
  exact ⟨fun _ => hform, fun hcycle => hloop (Relation.TransGen.mono hsub _ _ hcycle)⟩

/-- A table without a name that looks like a marker is written as the marker. -/
theorem ofValueWithin_of_looksNamed {id : TableId} {s : String} (hname : nameIn? (some names) (.table id) = none)
    (hentries : m.entries id [] = [(.str markerKey, .str s)]) (fuel : Nat) {path : List TableId} (hfresh : id ∉ path) :
    ofValueWithin m (some names) (fuel + 1) path (.table id) = .ok (.obj [(markerKey, .str s)]) := by
  have hrecord : m.IsRecord id := by
    intro e he
    rw [hentries, List.mem_singleton] at he
    exact ⟨markerKey, he ▸ rfl⟩
  have htext : ofValueWithin m (some names) fuel (id :: path) (.str s) = .ok (.str s) := by
    unfold ofValueWithin
    rfl
  rw [ofValueWithin_record hrecord (by simp [hentries]) hname fuel hfresh]
  simp only [namedEntries, hentries, List.filterMap_cons, memberName?, Option.map_some, List.filterMap_nil,
    List.mapM_cons, List.mapM_nil, htext]
  simp [Except.map, pure, Except.pure, bind, Except.bind, ofMembers, sortMembers, consMember]

/-- A table without a name that looks like a marker is lost: what is read in its place is the object with the name that
it holds, or nothing. -/
theorem read_of_looksNamed {id : TableId} (hname : nameIn? (some names) (.table id) = none) (h : LooksNamed m id) :
    ∃ j, ofValue m (some names) (.table id) = .ok j ∧ ∃ s, ∀ other : Machine,
      toValue (some names) other j =
        match names.resolve? s with
        | some w => .ok (other, w)
        | none => .error (.unknownExternal s) := by
  obtain ⟨s, hentries⟩ := h
  refine ⟨_, ofValueWithin_of_looksNamed hname hentries _ List.not_mem_nil, s, fun other => ?_⟩
  cases hfound : names.resolve? s <;> simp [toValue, marker?, hfound]

/-- **Named objects come back as themselves, all else as a copy.** Data of arrays and records that contains itself
nowhere, up to what has a name, can be written, and what was written can be read in any machine: objects that have a
name stand for themselves, and every other table has a new table in its place with the same under every key. In none of
the tables that are copied may a text under the key of markers be all there is. -/
theorem restored_ofValue (ops : List ExternalNames.Op) (hm : m.Settled)
    (hplain : PlainUpTo (some (.ofOps ops)) m v) (hkeyed : KeyedUpTo (some (.ofOps ops)) m v)
    (hunmarked : UnmarkedUpTo (some (.ofOps ops)) m v) :
    ∃ j, ofValue m (some (.ofOps ops)) v = .ok j ∧ ∀ other : Machine, ∃ more w,
      toValue (some (.ofOps ops)) other j = .ok (more, w) ∧ other.Grows more ∧
        Restored (some (.ofOps ops)) m more other.tables.size v w := by
  have hwritten : ∃ j, ofValue m (some (.ofOps ops)) v = .ok j :=
    ok_of_plain hm hplain hkeyed List.nodup_nil (by simp) (by simp) (by simp)
  obtain ⟨j, hok⟩ := hwritten
  refine ⟨j, hok, returns_of_ok hm ?_ hkeyed (fun _ => hunmarked) hok⟩
  rintro _ ⟨⟩
  exact ExternalNames.paired_ofOps ops

section Party

/-- An array that holds an integer, a table that holds itself, and a thread. -/
def party : Machine :=
  let ctx := Context.strong Value.hashCode
  let hero := (Table.new 0 1).setStr ctx "self" (.table ⟨1⟩)
  let array := ((Table.new 3 0).setInt ctx 1 (.int 7)).setInt ctx 2 (.table ⟨1⟩)
  { tables := #[array.setInt ctx 3 (.thread ⟨0⟩), hero] }

/-- The table that holds itself and the thread have names. -/
def partyOps : List ExternalNames.Op := [.register "hero" (.table ⟨1⟩), .register "script" (.thread ⟨0⟩)]

theorem entries_party : party.entries ⟨0⟩ [] = [(.int 1, .int 7), (.int 2, .table ⟨1⟩), (.int 3, .thread ⟨0⟩)] := by
  decide +kernel

theorem settled_party : party.Settled where
  tidy := by
    refine tidy_of_forall (fun key hkey => hkey.1) ?_
    simp only [party, List.mem_toArray, List.forall_mem_cons, List.not_mem_nil, false_implies, implies_true, and_true]
    have hnew (a h : Nat) := wellFormed_new Value.hashCode canonicalKeys a h
    exact ⟨(((hnew 3 0).setInt 1 _).setInt 2 _).setInt 3 _, (hnew 0 1).setStr "self" _⟩
  memory := by
    refine forall_table (m := party) (fun id hout => ?_) (by decide +kernel)
    rw [table_of_le hout]
    decide

/-- From the array three values are reached, and nothing from them. -/
theorem shows_party {v w : Value} (h : Shows (some (.ofOps partyOps)) party v w)
    (hv : v ∈ [.table ⟨0⟩, .int 7, .table ⟨1⟩, .thread ⟨0⟩]) :
    v = .table ⟨0⟩ ∧ w ∈ [.int 7, .table ⟨1⟩, .thread ⟨0⟩] := by
  obtain ⟨hname, id, key, rfl, he⟩ := h
  simp only [List.mem_cons, Value.table.injEq, reduceCtorEq, false_or, or_false, List.not_mem_nil] at hv
  rcases hv with rfl | rfl
  · rw [entries_party] at he
    simp only [List.mem_cons, Prod.mk.injEq, List.not_mem_nil, or_false] at he
    refine ⟨rfl, ?_⟩
    rcases he with ⟨-, rfl⟩ | ⟨-, rfl⟩ | ⟨-, rfl⟩ <;> simp
  · have hnamed : nameIn? (some (.ofOps partyOps)) (.table ⟨1⟩) = some "hero" := by decide
    rw [hnamed] at hname
    cases hname

theorem reached_party {w : Value} (h : Relation.ReflTransGen (Shows (some (.ofOps partyOps)) party) (.table ⟨0⟩) w) :
    w ∈ [.table ⟨0⟩, .int 7, .table ⟨1⟩, .thread ⟨0⟩] := by
  induction h with
  | refl => exact List.mem_cons_self
  | tail _ hstep ih => exact List.mem_cons_of_mem _ (shows_party hstep ih).2

/-- The array is written with markers for what has a name, which is found by them again. -/
theorem restored_ofValue_party :
    (party.Settled ∧ PlainUpTo (some (.ofOps partyOps)) party (.table ⟨0⟩) ∧
      KeyedUpTo (some (.ofOps partyOps)) party (.table ⟨0⟩) ∧
      UnmarkedUpTo (some (.ofOps partyOps)) party (.table ⟨0⟩)) ∧
    ∃ j, ofValue party (some (.ofOps partyOps)) (.table ⟨0⟩) = .ok j ∧ ∃ more w,
      toValue (some (.ofOps partyOps)) party j = .ok (more, w) ∧ party.Grows more ∧
        Restored (some (.ofOps partyOps)) party more 2 (.table ⟨0⟩) w := by
  have hplain : PlainUpTo (some (.ofOps partyOps)) party (.table ⟨0⟩) := by
    refine fun w hw => ⟨fun hname => ?_, fun hcycle => ?_⟩
    · have hw := reached_party hw
      simp only [List.mem_cons, List.not_mem_nil, or_false] at hw
      rcases hw with rfl | rfl | rfl | rfl
      · trivial
      · trivial
      · trivial
      · cases hname
    · -- a round would begin at the array and end at what it holds
      obtain ⟨u, hfirst, -⟩ := Relation.TransGen.head'_iff.mp hcycle
      obtain ⟨u', hto, hlast⟩ := Relation.TransGen.tail'_iff.mp hcycle
      obtain ⟨rfl, -⟩ := shows_party hfirst (reached_party hw)
      simpa using (shows_party hlast (reached_party (hw.trans hto))).2
  have honly (id : TableId)
      (hid : Relation.ReflTransGen (Shows (some (.ofOps partyOps)) party) (.table ⟨0⟩) (.table id))
      (hname : nameIn? (some (.ofOps partyOps)) (.table id) = none) : id = ⟨0⟩ := by
    have hid := reached_party hid
    simp only [List.mem_cons, Value.table.injEq, reduceCtorEq, false_or, or_false, List.not_mem_nil] at hid
    rcases hid with rfl | rfl
    · rfl
    · cases hname
  have hkeyed : KeyedUpTo (some (.ofOps partyOps)) party (.table ⟨0⟩) := by
    intro id hid hname
    obtain rfl := honly id hid hname
    exact .inl ⟨3, isArray_of_keys (by decide) (by rw [entries_party]; rfl)⟩
  have hunmarked : UnmarkedUpTo (some (.ofOps partyOps)) party (.table ⟨0⟩) := by
    rintro id hid hname ⟨s, hs⟩
    obtain rfl := honly id hid hname
    rw [entries_party] at hs
    cases hs
  obtain ⟨j, hok, hread⟩ := restored_ofValue partyOps settled_party hplain hkeyed hunmarked
  exact ⟨⟨settled_party, hplain, hkeyed, hunmarked⟩, j, hok, hread party⟩

end Party

/-- A record whose only member is a text under the key of markers. -/
def ghost : Machine :=
  { tables := #[(Table.new 0 1).setStr (.strong Value.hashCode) markerKey (.str "ghost")] }

theorem entries_ghost : ghost.entries ⟨0⟩ [] = [(.str markerKey, .str "ghost")] := by
  decide +kernel

theorem settled_ghost : ghost.Settled where
  tidy := by
    refine tidy_of_forall (fun key hkey => hkey.1) ?_
    simp only [ghost, List.mem_toArray, List.mem_singleton, forall_eq]
    exact (wellFormed_new Value.hashCode canonicalKeys 0 1).setStr markerKey _
  memory := by
    refine forall_table (m := ghost) (fun id hout => ?_) (by decide +kernel)
    rw [table_of_le hout]
    decide

theorem dataHeap_ghost : ghost.DataHeap where
  toSettled := settled_ghost
  keyed := by
    refine forall_table (m := ghost) (fun id hout => .inr ?_) fun i => .inr ?_
    · simp [IsRecord, (empty_of_le hout).1]
    · have hi : (i : Nat) = 0 := Nat.lt_one_iff.mp i.isLt
      simp [IsRecord, hi, entries_ghost]

theorem plain_ghost : ghost.Plain (.table ⟨0⟩) :=
  (exists_ofValue_iff dataHeap_ghost _).mp ⟨.obj [(markerKey, .str "ghost")], by cbv⟩

/-- Plain data that holds nothing with a name can be written, but what was written cannot be read. -/
theorem ghost_not_restored :
    (ghost.Settled ∧ PlainUpTo (some (.ofOps [])) ghost (.table ⟨0⟩) ∧
      KeyedUpTo (some (.ofOps [])) ghost (.table ⟨0⟩)) ∧
    ofValue ghost (some (.ofOps [])) (.table ⟨0⟩) = .ok (.obj [(markerKey, .str "ghost")]) ∧
      toValue (some (.ofOps [])) ghost (.obj [(markerKey, .str "ghost")]) = .error (.unknownExternal "ghost") :=
  ⟨⟨settled_ghost, plainUpTo_of_plain plain_ghost, fun id _ _ => dataHeap_ghost.keyed id⟩, by cbv, rfl⟩

end Json

end LuaMachine
