import LuaMachine.Proofs.Table.Spine
import LuaMachine.Proofs.Table.History

namespace LuaMachine.Table

section Stability

variable {ctx : Context} {K : Set Value} {t : Table} {key value : Value}

/-- Writing to a key that owns a place or a slot, and removing any key, leaves the spine as it is. -/
theorem WellFormed.spine_setNormal (ht : t.WellFormed ctx.hash K) (hK : Separated ctx.hash K) (hkey : key ∈ K)
    (hkept : t.Owns key ∨ value.isNil = true) : (t.setNormal ctx key value).spine = t.spine := by
  cases hplace : t.arrayIndex? key with
  | some i => simp [setNormal_of_place hplace, spine, placeKeys]
  | none =>
    have hstays : (t.part.setExisting ctx t.mode key value).2.1 = true ∨ value.isNil = true := by
      rcases hkept with howned | hnil
      · rcases howned with hin | hslot
        · rw [hplace] at hin
          cases hin
        · exact Or.inl ((ht.part.setExisting_stored (hK.alone hkey) t.mode value).mpr hslot)
      · exact Or.inr hnil
    rw [setNormal_of_no_place ctx value hplace]
    dsimp only
    rw [if_pos (by simpa using hstays), spine, spine, placeKeys, placeKeys, ht.part.setExisting_keys (hK.alone hkey)]

end Stability

/-- How far a traversal got. -/
inductive Progress
  | running | finished | failed (e : Error)

/-- A traversal under way: the table it goes through, the key returned last, and what was returned so far. -/
structure Walk where
  table : Table
  cursor : Value
  visited : List (Value × Value)
  progress : Progress

/-- What can happen next: the traversal asks for the next entry, or something is stored in the table. -/
inductive Event
  | advance (ctx : Context)
  | store (ctx : Context) (key value : Value)

namespace Event

def isAdvance : Event → Bool
  | advance _ => true
  | store .. => false

/-- A write goes to a key that owns a place or a slot, or removes a key. -/
def Allowed (hash : Value → UInt64) (K : Set Value) (t : Table) : Event → Prop
  | advance ctx => ctx.hash = hash
  | store ctx key value => ctx.hash = hash ∧
    ∀ stored, normalizeKey key = .ok stored → stored ∈ K ∧ (t.Owns stored ∨ value.isNil = true)

end Event

namespace Walk

/-- A traversal starts from nil. -/
def start (t : Table) : Walk := ⟨t, .nil, [], .running⟩

def step (w : Walk) : Event → Walk
  | .advance ctx =>
    match w.progress with
    | .running =>
      match w.table.next ctx w.cursor with
      | .error e => { w with progress := .failed e }
      | .ok none => { w with progress := .finished }
      | .ok (some entry) => { w with cursor := entry.1, visited := w.visited ++ [entry] }
    | _ => w
  | .store ctx key value => { w with table := (Op.set key value).apply ctx w.table }

def run (w : Walk) (events : List Event) : Walk := events.foldl step w

/-- Every write is allowed when it happens. -/
def Admits (hash : Value → UInt64) (K : Set Value) (w : Walk) : List Event → Prop
  | [] => True
  | e :: events => e.Allowed hash K w.table ∧ Admits hash K (w.step e) events

/-- The key has a value whenever the traversal asks for the next entry. -/
def StaysLive (key : Value) (w : Walk) : List Event → Prop
  | [] => True
  | e :: events => (∀ ctx, e = .advance ctx → (w.table.get ctx key).isNil = false) ∧ StaysLive key (w.step e) events

/-- A traversal stands between two stretches of the spine: `done` is behind it, `rest` still to come. -/
structure Along (hash : Value → UInt64) (K : Set Value) (done rest : List Value) (w : Walk) : Prop where
  form : w.table.WellFormed hash K
  path : w.table.spine = done ++ rest
  visited : (w.visited.map (·.1)).Sublist done
  here : w.progress = .running → (w.cursor = .nil ∧ done = []) ∨ ∃ before, done = before ++ [w.cursor]
  ended : w.progress = .finished → rest = []
  sound : ∀ e, w.progress ≠ .failed e

@[simp] theorem run_nil (w : Walk) : w.run [] = w := rfl

@[simp] theorem run_cons (w : Walk) (e : Event) (events : List Event) :
    w.run (e :: events) = (w.step e).run events := rfl

theorem progress_step (w : Walk) (e : Event) : (w.step e).progress = .running → w.progress = .running := by
  intro h
  cases e with
  | store => exact h
  | advance ctx =>
    cases hprogress : w.progress with
    | running => rfl
    | finished | failed => simp [step, hprogress] at h

/-- A traversal that still runs has been running all the time. -/
theorem running_of_run {w : Walk} {events : List Event} (h : (w.run events).progress = .running) :
    w.progress = .running := by
  induction events generalizing w with
  | nil => exact h
  | cons e events ih => exact progress_step w e (ih h)

theorem visited_prefix_step (w : Walk) (e : Event) : w.visited <+: (w.step e).visited := by
  cases e with
  | store => exact List.prefix_refl _
  | advance ctx =>
    rw [step]
    split
    · split
      · exact List.prefix_refl _
      · exact List.prefix_refl _
      · exact List.prefix_append _ _
    · exact List.prefix_refl _

/-- What was returned stays returned. -/
theorem visited_prefix_run (w : Walk) (events : List Event) : w.visited <+: (w.run events).visited := by
  induction events generalizing w with
  | nil => exact List.prefix_refl _
  | cons e events ih => exact (visited_prefix_step w e).trans (ih _)

/-- A traversal that has ended returns nothing more. -/
theorem run_advances_of_finished {w : Walk} (h : w.progress = .finished) (ctx : Context) (n : Nat) :
    w.run (List.replicate n (.advance ctx)) = w := by
  induction n with
  | zero => rfl
  | succ n ih =>
    have hstep : w.step (.advance ctx) = w := by simp [step, h]
    rw [List.replicate_succ, run_cons, hstep, ih]

theorem along_start {hash : Value → UInt64} {K : Set Value} {t : Table} (ht : t.WellFormed hash K) :
    (start t).Along hash K [] t.spine :=
  ⟨ht, rfl, List.Sublist.refl _, fun _ => Or.inl ⟨rfl, rfl⟩, fun h => (nomatch h), fun _ h => (nomatch h)⟩

section Steps

variable {hash : Value → UInt64} {K : Set Value} {done rest : List Value} {w : Walk}

/-- The next entry is that of the first key to come that has one. -/
theorem Along.next_eq (h : w.Along hash K done rest) (hK : Distinguished K) {ctx : Context} (hhash : ctx.hash = hash)
    (hrunning : w.progress = .running) :
    w.table.next ctx w.cursor = .ok ((rest.filterMap (w.table.entryOf ctx)).head?) := by
  subst hhash
  rcases h.here hrunning with ⟨hcursor, hdone⟩ | ⟨before, hdone⟩
  · rw [hcursor, h.form.toSound.next_nil hK, h.path, hdone, List.nil_append]
  · have hspine : w.table.spine = before ++ w.cursor :: rest := by
      rw [h.path, hdone, List.append_assoc]
      rfl
    exact h.form.toSound.next_eq hK hspine

/-- One step of a traversal passes a stretch of the spine and returns the entries on it: one while it runs, none
when it ends. -/
theorem Along.advance (h : w.Along hash K done rest) (hK : Distinguished K) {ctx : Context} (hhash : ctx.hash = hash) :
    ∃ passed behind, rest = passed ++ behind ∧ (w.step (.advance ctx)).Along hash K (done ++ passed) behind ∧
      (w.step (.advance ctx)).table = w.table ∧
      (w.step (.advance ctx)).visited = w.visited ++ passed.filterMap (w.table.entryOf ctx) ∧
      ((w.step (.advance ctx)).progress = .running → (passed.filterMap (w.table.entryOf ctx)).length = 1) ∧
      ((w.step (.advance ctx)).progress = .finished → passed.filterMap (w.table.entryOf ctx) = []) := by
  cases hprogress : w.progress with
  | running =>
    have hnext := h.next_eq hK hhash hprogress
    cases hcoming : rest.filterMap (w.table.entryOf ctx) with
    | nil =>
      have hstep : w.step (.advance ctx) = { w with progress := .finished } := by
        simp [step, hprogress, hnext, hcoming]
      rw [hstep]
      refine ⟨rest, [], by simp, ⟨h.form, by simpa using h.path, ?_, fun hr => (nomatch hr), fun _ => rfl,
        fun _ hf => (nomatch hf)⟩, rfl, by simp [hcoming], fun hr => (nomatch hr), fun _ => hcoming⟩
      exact h.visited.trans (List.sublist_append_left _ _)
    | cons entry others =>
      have hstep : w.step (.advance ctx) = { w with cursor := entry.1, visited := w.visited ++ [entry] } := by
        simp [step, hprogress, hnext, hcoming]
      obtain ⟨skipped, key, behind, hrest, hskipped, hentry, -⟩ := List.filterMap_eq_cons_iff.mp hcoming
      have hkey : entry.1 = key := entryOf_fst hentry
      have hnone : skipped.filterMap (w.table.entryOf ctx) = [] := List.filterMap_eq_nil_iff.mpr hskipped
      have hone : (skipped ++ [key]).filterMap (w.table.entryOf ctx) = [entry] := by
        simp [hnone, hentry]
      rw [hstep]
      refine ⟨skipped ++ [key], behind, by simp [hrest], ⟨h.form, by simp [h.path, hrest], ?_, ?_, ?_, h.sound⟩,
        rfl, by rw [hone], fun _ => by simp [hone], fun hf => ?_⟩
      · rw [List.map_append, List.map_singleton, hkey, ← List.append_assoc]
        exact (h.visited.trans (List.sublist_append_left _ _)).append (List.Sublist.refl _)
      · exact fun _ => Or.inr ⟨done ++ skipped, by simp [hkey]⟩
      · intro hf
        rw [hprogress] at hf
        cases hf
      · rw [hprogress] at hf
        cases hf
  | finished =>
    have hstep : w.step (.advance ctx) = w := by simp [step, hprogress]
    rw [hstep]
    refine ⟨[], rest, rfl, by simpa using h, rfl, by simp, ?_, fun _ => rfl⟩
    intro hr
    rw [hprogress] at hr
    cases hr
  | failed e => exact absurd hprogress (h.sound e)

/-- An allowed write leaves a traversal where it is. -/
theorem Along.store (h : w.Along hash K done rest) (hK : Distinguished K) {ctx : Context} {key value : Value}
    (hallowed : (Event.store ctx key value).Allowed hash K w.table) :
    (w.step (.store ctx key value)).Along hash K done rest := by
  obtain ⟨rfl, hkept⟩ := hallowed
  cases hkey : normalizeKey key with
  | error e =>
    have hsame : (Op.set key value).apply ctx w.table = w.table := by
      simp [Op.apply, set, hkey, Except.map, Except.toOption]
    rw [step, hsame]
    exact h
  | ok stored =>
    obtain ⟨hknown, howned⟩ := hkept stored hkey
    have hset : (Op.set key value).apply ctx w.table = w.table.setNormal ctx stored value := by
      simp [Op.apply, set, hkey, Except.map, Except.toOption]
    rw [step, hset]
    have hseparated := hK.separated ctx.hash
    exact ⟨h.form.setNormal (normalizeKey_idem hkey) hknown value,
      (h.form.spine_setNormal hseparated hknown howned).trans h.path, h.visited, h.here, h.ended, h.sound⟩

end Steps

section Runs

variable {hash : Value → UInt64} {K : Set Value} {done rest : List Value} {w : Walk}

/-- A traversal stays on its spine, and each of its steps takes it nearer to the end. -/
theorem Along.run (h : w.Along hash K done rest) (hK : Distinguished K) {events : List Event}
    (hadmits : w.Admits hash K events) :
    ∃ passed behind, rest = passed ++ behind ∧ (w.run events).Along hash K (done ++ passed) behind ∧
      ((w.run events).progress = .running → events.countP Event.isAdvance ≤ passed.length) := by
  induction events generalizing w done rest with
  | nil => exact ⟨[], rest, rfl, by simpa using h, fun _ => Nat.zero_le _⟩
  | cons e events ih =>
    obtain ⟨hallowed, hadmits⟩ := hadmits
    cases e with
    | store ctx key value =>
      obtain ⟨passed, behind, hrest, halong, hcount⟩ := ih (h.store hK hallowed) hadmits
      exact ⟨passed, behind, hrest, halong, hcount⟩
    | advance ctx =>
      obtain ⟨first, middle, hfirst, hstep, -, -, hone, -⟩ := h.advance hK hallowed
      obtain ⟨passed, behind, hrest, halong, hcount⟩ := ih hstep hadmits
      refine ⟨first ++ passed, behind, by simp [hfirst, hrest], by simpa using halong, ?_⟩
      intro hrunning
      have hlater := hcount hrunning
      have hlength := (hone (running_of_run hrunning)).symm.trans_le (List.length_filterMap_le ..)
      rw [List.countP_cons_of_pos rfl, List.length_append]
      omega

/-- A key that has a value at every step of a traversal has been returned when the traversal ends. -/
theorem Along.mem_visited (h : w.Along hash K done rest) (hK : Distinguished K) {events : List Event}
    (hadmits : w.Admits hash K events) {key : Value} (hkey : key ∈ K) (hlive : w.StaysLive key events)
    (hseen : key ∈ done → key ∈ w.visited.map (·.1)) (hrunning : w.progress = .running)
    (hfinished : (w.run events).progress = .finished) : key ∈ (w.run events).visited.map (·.1) := by
  induction events generalizing w done rest with
  | nil =>
    rw [run_nil, hrunning] at hfinished
    cases hfinished
  | cons e events ih =>
    obtain ⟨hallowed, hadmits⟩ := hadmits
    obtain ⟨hnow, hlive⟩ := hlive
    cases e with
    | store ctx key value => exact ih (h.store hK hallowed) hadmits hlive hseen hrunning hfinished
    | advance ctx =>
      obtain ⟨first, middle, hfirst, hstep, -, hvisited, -, -⟩ := h.advance hK hallowed
      have hvalue := hnow ctx rfl
      have hpassed : key ∈ done ++ first → key ∈ (w.step (.advance ctx)).visited.map (·.1) := by
        rw [hvisited, List.map_append, List.mem_append, List.mem_append]
        rintro (hdone | hin)
        · exact Or.inl (hseen hdone)
        · have hentry := entryOf_eq_some.mpr ⟨rfl, hvalue⟩
          exact Or.inr (List.mem_map.mpr ⟨_, List.mem_filterMap.mpr ⟨key, hin, hentry⟩, rfl⟩)
      cases hprogress : (w.step (.advance ctx)).progress with
      | running => exact ih hstep hadmits hlive hpassed hprogress hfinished
      | finished =>
        -- the key is on the spine, and all of it is behind
        have hform := h.form
        rw [← (show ctx.hash = hash from hallowed)] at hform
        have hspine := hform.toSound.mem_spine_of_get hK hkey hvalue
        rw [h.path, hfirst, hstep.ended hprogress, List.append_nil] at hspine
        exact ((visited_prefix_run _ events).map (·.1)).subset (hpassed hspine)
      | failed e => exact absurd hprogress (hstep.sound e)

/-- A traversal without writes returns the entries to come one by one, and then ends. -/
theorem Along.run_advances (h : w.Along hash K done rest) (hK : Distinguished K) {ctx : Context}
    (hhash : ctx.hash = hash) (hrunning : w.progress = .running) (n : Nat) :
    (w.run (List.replicate n (.advance ctx))).visited =
        w.visited ++ (rest.filterMap (w.table.entryOf ctx)).take n ∧
      ((w.run (List.replicate n (.advance ctx))).progress = .finished ↔
        (rest.filterMap (w.table.entryOf ctx)).length < n) := by
  induction n generalizing w done rest with
  | zero => simp [hrunning]
  | succ n ih =>
    obtain ⟨first, middle, hfirst, hstep, htable, hvisited, hone, hnone⟩ := h.advance hK hhash
    rw [List.replicate_succ, run_cons, hfirst, List.filterMap_append]
    cases hprogress : (w.step (.advance ctx)).progress with
    | running =>
      obtain ⟨entry, hentry⟩ := List.length_eq_one_iff.mp (hone hprogress)
      obtain ⟨hlater, hend⟩ := ih hstep hprogress
      rw [htable] at hlater hend
      rw [hlater, hend, hvisited, hentry]
      simp
    | finished =>
      rw [run_advances_of_finished hprogress, hvisited, hnone hprogress, hstep.ended hprogress]
      simp [hprogress]
    | failed e => exact absurd hprogress (hstep.sound e)

end Runs

end Walk

/-- **Traversal is stable.** Take any table that operations can produce, whatever has vanished meanwhile, and a
traversal of it, during which keys that own a place or a slot are written and other keys are removed, in any
order, while objects go on to vanish. No step of the traversal fails, it returns no key twice, it returns every
key that has a value at each of its steps, and it ends after at most as many steps as there are places and slots,
and one more. Without writes it returns the entries in the order in which they are listed. -/
theorem walk_run (hash : Value → UInt64) {K : Set Value} (hK : Distinguished K) (arraySize hashSize : Nat)
    (calls : List (Context × Op)) (hworld : ∀ call ∈ calls, call.1.hash = hash)
    (hknown : ∀ w ∈ (new arraySize hashSize).writes calls, w.1 ∈ K) (events : List Event)
    (hadmits : (Walk.start ((new arraySize hashSize).run calls)).Admits hash K events) :
    let t := (new arraySize hashSize).run calls
    let w := (Walk.start t).run events
    (∀ e, w.progress ≠ .failed e) ∧ (w.visited.map (·.1)).Nodup ∧
    (∀ key ∈ K, (Walk.start t).StaysLive key events → w.progress = .finished →
      (w.visited.map (·.1)).count key = 1) ∧
    (t.spine.length < events.countP Event.isAdvance → w.progress = .finished) ∧
    ∀ (ctx : Context) (n : Nat), ctx.hash = hash →
      ((Walk.start t).run (List.replicate n (.advance ctx))).visited = (t.entries ctx).take n ∧
      (((Walk.start t).run (List.replicate n (.advance ctx))).progress = .finished ↔ (t.entries ctx).length < n) := by
  intro t w
  have ht : t.WellFormed hash K := (wellFormed_new hash K arraySize hashSize).run hworld hknown
  have hstart := Walk.along_start ht
  obtain ⟨passed, behind, hspine, halong, hcount⟩ := hstart.run hK hadmits
  have hnodup : (w.visited.map (·.1)).Nodup := by
    have hall := halong.form.toSound.nodup_spine hK
    rw [halong.path] at hall
    exact hall.sublist (halong.visited.trans (List.sublist_append_left _ _))
  refine ⟨halong.sound, hnodup, ?_, ?_, ?_⟩
  · intro key hkey hlive hfinished
    exact List.count_eq_one_of_mem hnodup
      (hstart.mem_visited hK hadmits hkey hlive (fun h => nomatch h) rfl hfinished)
  · intro hsteps
    cases hprogress : w.progress with
    | finished => rfl
    | failed e => exact absurd hprogress (halong.sound e)
    | running =>
      have hbound := hcount hprogress
      rw [hspine, List.length_append] at hsteps
      omega
  · rintro ctx n rfl
    rw [ht.toSound.entries_eq_filterMap_spine hK]
    exact hstart.run_advances hK rfl rfl n

/-- With all keys in one chain: the key that was returned first is removed and then stored again, and the
traversal returns the other key once and ends. -/
theorem walk_run_one_chain :
    let ctx : Context := ⟨fun _ => 7, fun _ _ => true, {}⟩
    let t := (new 0 0).run [(ctx, .setStr "x" (.int 5)), (ctx, .setStr "y" (.int 6))]
    let w := (Walk.start t).run [.advance ctx, .store ctx (.str "y") .nil, .advance ctx,
      .store ctx (.str "y") (.int 7), .advance ctx]
    (w.visited.map (·.1)).count (.str "x") = 1 ∧ w.progress = .finished := by
  intro ctx t w
  have hK : Distinguished {k : Value | k = .str "x" ∨ k = .str "y"} := by
    refine ⟨?_, ?_, ?_⟩
    · rintro k (rfl | rfl) <;> rfl
    · rintro k (rfl | rfl) l (rfl | rfl) h <;> first | rfl | cases h
    · rintro k (rfl | rfl) <;> decide
  have hslot : ((Walk.start t).step (.advance ctx)).table.Owns (.str "y") := Or.inr (by decide +kernel)
  have hagain : ((((Walk.start t).step (.advance ctx)).step (.store ctx (.str "y") .nil)).step
      (.advance ctx)).table.Owns (.str "y") := Or.inr (by decide +kernel)
  have hadmits : (Walk.start t).Admits (fun _ => 7) {k : Value | k = .str "x" ∨ k = .str "y"} [.advance ctx,
      .store ctx (.str "y") .nil, .advance ctx, .store ctx (.str "y") (.int 7), .advance ctx] := by
    refine ⟨rfl, ⟨rfl, ?_⟩, rfl, ⟨rfl, ?_⟩, rfl, trivial⟩
    · rintro stored ⟨⟩
      exact ⟨Or.inr rfl, Or.inl hslot⟩
    · rintro stored ⟨⟩
      exact ⟨Or.inr rfl, Or.inl hagain⟩
  have hwalk := walk_run (fun _ => 7) hK 0 0 [(ctx, .setStr "x" (.int 5)), (ctx, .setStr "y" (.int 6))]
    (by simp [ctx]) (by simp [writes, Op.write?]) _ hadmits
  have hfinished : w.progress = .finished := hwalk.2.2.2.1 (by decide +kernel)
  refine ⟨hwalk.2.2.1 (.str "x") (Or.inl rfl) ?_ hfinished, hfinished⟩
  refine ⟨fun c hc => ?_, by rintro c ⟨⟩, fun c hc => ?_, by rintro c ⟨⟩, fun c hc => ?_, trivial⟩
  all_goals
    cases hc
    decide +kernel

end LuaMachine.Table
