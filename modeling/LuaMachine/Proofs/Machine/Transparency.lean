import LuaMachine.Proofs.Machine.Arrival

namespace LuaMachine

/-- The register that has the function which an instruction of the frame `caller` calls. -/
def Instruction.IsCallee (word : Instruction) (caller : Frame) (id : FileId) (i : Nat) : Prop :=
  id = caller.file ∧ i = word.a.toNat

/-- A loop skips the jump back if the first result is nil. -/
theorem Instruction.pc_frameAfter_of_tForLoop (word : Instruction) {caller : Frame} {below : List Frame} {floor : Nat}
    {d : Destination} (hcount : 0 < word.c.toNat) (hd : d ∈ word.destination? .tForLoop caller below floor)
    (registers : Array Value) (vs : Values) : (d.target.frameAfter d.frame registers vs).pc =
      if vs.first.isNil then caller.pc + 2 else caller.pc + 1 := by
  cases hd
  rw [ReturnTarget.frameAfter_of_loop _ _ _ _ rfl,
    ReturnTarget.tested_eq_first _ _ _ (Nat.le_add_left ..) (word.c.toNat - 1) (by dsimp only; congr 1; omega)]

namespace Machine

/-- The registers of the frames agree in both machines, but perhaps in `hole`. -/
def FilesAgree (m n : Machine) (frames : List Frame) (hole : FileId → Nat → Prop) : Prop :=
  ∀ f ∈ frames, AgreeOff (hole f.file) (m.file f.file) (n.file f.file)

variable {m m' n n' : Machine} {i : Interpreter} {acts acts' : List Activation} {caller : Frame} {below : List Frame}
  {word : Instruction} {op : Opcode} {vs : Values} {s s' : Signal}

/-- What becomes of results depends on nothing else. -/
theorem Received.agree {t : ThreadId} {dest : Option Destination} {hole : FileId → Nat → Prop}
    (hm : m.Received m' t dest below vs s) (hn : n.Received n' t dest below vs s')
    (hsame : m.FilesAgree n (framesLeft dest below) hole)
    (hloop : ∀ d ∈ dest, d.target.continuation = .forIterator → ¬hole d.frame.file (d.target.base - 3 + 3)) :
    s' = s ∧ (n'.thread t).frames = (m'.thread t).frames ∧ m'.FilesAgree n' (m'.thread t).frames
      fun id i => hole id i ∧ ∀ d ∈ dest, id = d.frame.file → ¬d.target.Holds vs i := by
  have hframes : (n'.thread t).frames = (m'.thread t).frames := by
    rw [hm.frames, hn.frames]
    cases dest with
    | none => rfl
    | some d =>
      rw [framesAfter, framesAfter,
        ReturnTarget.frameAfter_congr (hsame d.frame (by simp [framesLeft])) (hloop d rfl)]
  refine ⟨hn.signal.trans hm.signal.symm, hframes, fun f hf => ?_⟩
  rw [hm.files f hf, hn.files f (by rwa [hframes])]
  rw [hm.frames] at hf
  cases dest with
  | none =>
    refine ⟨(hsame f hf).size, fun i hi => (hsame f hf).values i fun hhole => hi ⟨hhole, ?_⟩⟩
    rintro _ ⟨⟩
  | some d =>
    rw [fileAfter, fileAfter]
    by_cases hown : f.file = d.frame.file
    · have hafter : AgreeOff (fun i => hole d.frame.file i ∧ ¬d.target.Holds vs i) _ _ :=
        ReturnTarget.agreeOff_registersAfter (hsame d.frame (by simp [framesLeft])) (hloop d rfl)
      rw [if_pos hown, if_pos hown, hown]
      refine ⟨hafter.size, fun i hi => hafter.values i fun hhole => hi ⟨hhole.1, ?_⟩⟩
      rintro _ ⟨⟩ -
      exact hhole.2
    · have hunder : f ∈ d.under := by
        rcases List.mem_cons.mp hf with rfl | hunder
        · exact absurd rfl hown
        · exact hunder
      have hold := hsame f (by simp [framesLeft, hunder])
      rw [if_neg hown, if_neg hown]
      refine ⟨hold.size, fun i hi => hold.values i fun hhole => hi ⟨hhole, ?_⟩⟩
      rintro _ ⟨⟩ heq
      exact absurd heq hown

/-- A loop does not test the function that it calls. -/
theorem About.not_isCallee (h : m.About i acts caller below word op) {d : Destination}
    (hd : d ∈ word.destination? op caller below i.floor) (hloop : d.target.continuation = .forIterator) :
    ¬word.IsCallee caller d.frame.file (d.target.base - 3 + 3) := by
  rintro ⟨hfile, hindex⟩
  unfold Instruction.destination? at hd
  cases htarget : word.target? op with
  | some target =>
    rw [htarget] at hd
    cases hd
    unfold Instruction.target? at htarget
    split at htarget <;> cases htarget
    · cases hloop
    · dsimp only at hindex
      omega
  | none =>
    rw [htarget] at hd
    have hto : caller.destination? below i.floor = some d := hd
    have hbelow : d.frame ∈ below := by
      rw [← framesLeft_destination? caller below i.floor, hto]
      exact List.mem_cons_self
    exact h.ownFiles.ne_of_mem hbelow hfile

/-- The frame that gets the results waits for no native call. -/
theorem About.pending_of_destination (h : m.About i acts caller below word op) {d : Destination}
    (hd : d ∈ word.destination? op caller below i.floor) : d.frame.pending = none := by
  unfold Instruction.destination? at hd
  cases htarget : word.target? op with
  | some target =>
    rw [htarget] at hd
    cases hd
    exact h.pending_eq
  | none =>
    rw [htarget] at hd
    cases hbelow : below with
    | nil =>
      rw [hbelow] at hd
      cases hd
    | cons g under =>
      rw [hbelow] at hd
      have hinner : ¬((g :: under).length ≤ i.floor ∨ caller.target.continuation = .host) := by
        intro hhost
        have hnone : caller.destination? (g :: under) i.floor = some d := hd
        rw [Frame.destination?_of_host hhost] at hnone
        cases hnone
      have hto : caller.destination? (g :: under) i.floor = some ⟨caller.target, g, under⟩ := if_neg hinner
      have hsome : caller.destination? (g :: under) i.floor = some d := hd
      rw [hto] at hsome
      cases hsome
      refine h.pending_of_mem ?_
      have hfloor : i.floor < under.length + 1 := by
        rw [not_or, List.length_cons, Nat.not_le] at hinner
        exact hinner.1
      have hcount : below.length + 1 - i.floor = under.length - i.floor + 2 := by
        rw [hbelow, List.length_cons]
        omega
      rw [hcount, hbelow]
      simp

/-- However the results `vs` of a call arrive, the frame that gets them looks the same: a loop that is over skips an
instruction, the same values are in the registers, nothing is pending, and the frames under it are as they were. Two
machines that differ in the function that is called differ in nothing else afterwards. -/
theorem arrivals_agree (hm : m.About i acts caller below word op) (hn : n.About i acts' caller below word op)
    (hop : op.Calls) (hsame : m.FilesAgree n (caller :: below) (word.IsCallee caller)) (hm' : m.Arrives i vs m' s)
    (hn' : n.Arrives i vs n' s') :
    m.Received m' i.thread (word.destination? op caller below i.floor) below vs s ∧
      s' = s ∧ (n'.thread i.thread).frames = (m'.thread i.thread).frames ∧
      (m'.FilesAgree n' (m'.thread i.thread).frames fun id x => word.IsCallee caller id x ∧
        ∀ d ∈ word.destination? op caller below i.floor, id = d.frame.file → ¬d.target.Holds vs x) ∧
      (s = .go → m'.StandsAt i.thread i.floor ∧ n'.StandsAt i.thread i.floor) ∧
      ∀ d ∈ word.destination? op caller below i.floor, ∀ top ∈ m'.topFrame? i.thread, top.pending = none ∧
        (op = .tForLoop → 0 < word.c.toNat → top.pc = if vs.first.isNil then caller.pc + 2 else caller.pc + 1) := by
  have hm'' := hm'.completed hm hop
  have hn'' := hn'.completed hn hop
  have hleft : m.FilesAgree n (framesLeft (word.destination? op caller below i.floor) below)
      (word.IsCallee caller) := by
    intro f hf
    cases htarget : word.target? op with
    | some target =>
      rw [Instruction.destination?, htarget] at hf
      rcases List.mem_cons.mp hf with rfl | hbelow
      · exact hsame caller (by simp)
      · exact hsame f (by simp [hbelow])
    | none =>
      rw [Instruction.destination?, htarget] at hf
      dsimp only at hf
      rw [framesLeft_destination?] at hf
      exact hsame f (by simp [hf])
  obtain ⟨hsignal, hframes, hfiles⟩ := hm''.toReceived.agree hn''.toReceived hleft fun d hd => hm.not_isCallee hd
  refine ⟨hm''.toReceived, hsignal, hframes, hfiles, ?_, fun d hd top htop => ?_⟩
  · rintro rfl
    exact ⟨hm''.stands rfl, hn''.stands hsignal⟩
  · have hafter : (m'.thread i.thread).frames =
        d.target.frameAfter d.frame (m.file d.frame.file) vs :: d.under := by
      rw [hm''.frames, Option.mem_def.mp hd]
      rfl
    have hown : top = d.target.frameAfter d.frame (m.file d.frame.file) vs := by
      rw [topFrame?, hafter] at htop
      exact (Option.some.inj htop).symm
    rw [hown]
    refine ⟨hm.pending_of_destination hd, ?_⟩
    rintro rfl hcount
    exact word.pc_frameAfter_of_tForLoop hcount hd _ vs

/-- An interpreter that runs all frames of its thread. -/
theorem InOrder.of_floor (frames : List Frame) (hfloor : i.floor = 0) (hframes : (m.thread i.thread).frames = frames)
    (hrange : i.thread.index < m.threads.size) (hdepth : (m.thread i.thread).depth = frames.length)
    (hsome : frames ≠ []) (hidle : ∀ f ∈ frames, f.pending = none) (hfiles : OwnFiles m.files.size frames) :
    m.InOrder i := by
  subst hframes
  refine ⟨hrange, hdepth, ?_, fun _ => hfloor, fun f hf => hidle f (List.mem_of_mem_take hf), hfiles⟩
  rw [hfloor]
  exact List.length_pos_iff.mpr hsome

section Sample

/-- A function that calls its first argument with the second one. -/
def applyPrototype : Prototype :=
  { paramCount := 2, stackSize := 2, code := #[.ofABC .call 0 2 2, .ofABC .ret 0 2 0] }

/-- A function that returns its argument. -/
def identityPrototype : Prototype := { paramCount := 1, stackSize := 1, code := #[.ofABC .ret 0 2 0] }

/-- A thread is about to call `f` with 7: the second closure returns that, and the native function yields it. -/
def applying (f : Value) : Machine :=
  let m : Machine :=
    { limits := { fuse := none }
      natives := #[⟨"yield", .coroutine .yield⟩]
      closures := #[⟨applyPrototype, [], ⟨0⟩⟩, ⟨identityPrototype, [], ⟨0⟩⟩] }
  ((m.newThread (.closure ⟨0⟩) [f, .int 7]).1.beginResume ⟨0⟩ none []).1

/-- The interpreter, and the frame that it runs. -/
def applyInterpreter : Interpreter := ⟨⟨0⟩, 0, none, .entering⟩

def applyFrame (pc : Nat) : Frame := ⟨⟨0⟩, applyPrototype, ⟨0⟩, [], [], pc, 0, .host, none, 0⟩

theorem about_applying_native : (applying (.native ⟨0⟩)).About applyInterpreter [.endResume ⟨0⟩ 0 []]
    (applyFrame 0) [] (.ofABC .call 0 2 2) .call :=
  ⟨.of_floor [applyFrame 0] rfl (by rfl) (by decide) (by rfl) nofun (by simp [applyFrame])
    ⟨by decide, by decide⟩, by rfl, Or.inl rfl, by rfl, by rfl, by rfl⟩

theorem about_applying_closure : (applying (.closure ⟨1⟩)).About applyInterpreter [.endResume ⟨0⟩ 0 []]
    (applyFrame 0) [] (.ofABC .call 0 2 2) .call :=
  ⟨.of_floor [applyFrame 0] rfl (by rfl) (by decide) (by rfl) nofun (by simp [applyFrame])
    ⟨by decide, by decide⟩, by rfl, Or.inl rfl, by rfl, by rfl, by rfl⟩

theorem filesAgree_applying : (applying (.native ⟨0⟩)).FilesAgree (applying (.closure ⟨1⟩)) [applyFrame 0]
    ((Instruction.ofABC .call 0 2 2).IsCallee (applyFrame 0)) := by
  intro f hf
  rw [List.mem_singleton.mp hf]
  have hfile : (applying (.native ⟨0⟩)).file (applyFrame 0).file = #[.native ⟨0⟩, .int 7, .nil] := by rfl
  have hother : (applying (.closure ⟨1⟩)).file (applyFrame 0).file = #[.closure ⟨1⟩, .int 7, .nil] := by rfl
  rw [hfile, hother]
  refine ⟨rfl, fun x hx => ?_⟩
  cases x with
  | zero => exact absurd ⟨rfl, by rfl⟩ hx
  | succ x => simp

/-- The native function yields, its thread is suspended, and a resume gives it 7. -/
theorem arrives_applying_native : ∃ m, (applying (.native ⟨0⟩)).Arrives applyInterpreter [.int 7] m .go := by
  obtain ⟨called, hcalled⟩ : ∃ called, called = ((applying (.native ⟨0⟩)).step .go).1 := ⟨_, rfl⟩
  obtain ⟨yielding, hyielding⟩ : ∃ yielding, yielding = (called.step (.invoke ⟨0⟩ ⟨0⟩ [.int 7])).1 := ⟨_, rfl⟩
  obtain ⟨asleep, hasleep⟩ : ∃ asleep, asleep = ((yielding.step (.error .yield)).1.step (.yielded [.int 7])).1 :=
    ⟨_, rfl⟩
  have harrives : (applying (.native ⟨0⟩)).Arrives applyInterpreter [.int 7] (asleep.beginResume ⟨0⟩ none [.int 7]).1
      (asleep.beginResume ⟨0⟩ none [.int 7]).2 := by
    refine @Arrives.resumed _ _ _ ⟨0⟩ [.int 7] called yielding asleep none ?_ ?_ ?_ ?_ ?_ ?_ ?_ ?_ ?_
    · subst hcalled; rfl
    · subst hyielding hcalled; exact ⟨by decide, by rfl, by rfl, by rfl, fun _ _ => by rfl, by decide⟩
    · subst hyielding hcalled; rfl
    · subst hyielding hcalled; rfl
    · subst hasleep hyielding hcalled; exact ⟨by decide, by rfl, by rfl, by rfl, fun _ _ => by rfl, by decide⟩
    all_goals subst hasleep hyielding hcalled; rfl
  have hgo : (asleep.beginResume ⟨0⟩ none [.int 7]).2 = .go := by
    subst hasleep hyielding hcalled
    rfl
  rw [hgo] at harrives
  exact ⟨_, harrives⟩

/-- The closure is entered, and returns its argument. -/
theorem arrives_applying_closure : ∃ m, (applying (.closure ⟨1⟩)).Arrives applyInterpreter [.int 7] m .go := by
  obtain ⟨entered, hentered⟩ : ∃ entered, entered = ((applying (.closure ⟨1⟩)).step .go).1 := ⟨_, rfl⟩
  let identityFrame : Frame := ⟨⟨1⟩, identityPrototype, ⟨1⟩, [], [], 0, 0, ⟨0, some 1, .store⟩, none, 0⟩
  have hframes : (entered.thread ⟨0⟩).frames = [identityFrame, applyFrame 1] := by
    subst hentered
    rfl
  have habout : entered.About applyInterpreter [.endResume ⟨0⟩ 0 []] identityFrame [applyFrame 1] (.ofABC .ret 0 2 0)
      .ret := by
    subst hentered
    exact ⟨.of_floor _ rfl hframes (by decide) (by rfl) nofun (by simp [identityFrame, applyFrame])
      ⟨by decide, by decide⟩, by rfl, Or.inl rfl, hframes, by rfl, by rfl⟩
  have harrives : (applying (.closure ⟨1⟩)).Arrives applyInterpreter [.int 7] (entered.step .go).1
      (entered.step .go).2 := by
    refine .left ?_ hframes habout rfl rfl rfl (fun _ _ => rfl) ?_ ?_
    · subst hentered
      rfl
    · have hfuse : entered.limits.fuse = none := by
        subst hentered
        rfl
      simp [hfuse]
    · subst hentered
      rfl
  have hgo : (entered.step .go).2 = .go := by
    subst hentered
    rfl
  rw [hgo] at harrives
  exact ⟨_, harrives⟩

/-- A function that yields 7 and is resumed with it, and one that returns it. -/
theorem arrivals_agree_of_yield : ∃ m n, (applying (.native ⟨0⟩)).Arrives applyInterpreter [.int 7] m .go ∧
    (applying (.closure ⟨1⟩)).Arrives applyInterpreter [.int 7] n .go ∧
    (n.thread ⟨0⟩).frames = (m.thread ⟨0⟩).frames ∧ m.StandsAt ⟨0⟩ 0 ∧ n.StandsAt ⟨0⟩ 0 := by
  obtain ⟨m, hm⟩ := arrives_applying_native
  obtain ⟨n, hn⟩ := arrives_applying_closure
  obtain ⟨-, -, hframes, -, hstands, -⟩ := arrivals_agree about_applying_native about_applying_closure trivial
    filesAgree_applying hm hn
  exact ⟨m, n, hm, hn, hframes, hstands rfl⟩

end Sample

end Machine

end LuaMachine
