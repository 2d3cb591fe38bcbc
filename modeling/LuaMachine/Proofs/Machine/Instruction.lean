import LuaMachine.Proofs.Machine.Setting
import LuaMachine.Proofs.Machine.Failure

namespace LuaMachine

variable {scope : Scope}

/-- How the interpreter `i` of the thread `t` can come from the outline `o` to `o'` by the end of an instruction, with
the frames `fs` below those that it runs. -/
inductive Concludes (scope : Scope) (t : ThreadId) (i : Interpreter) (fs : List FrameOutline) (o o' : Outline) :
    Ending → Prop
  | goOn {pc : Nat} (ho : o' = o) : Concludes scope t i fs o o' (.goOn pc)
  | enter {band : List FrameOutline} (hband : Band band) (hbound : (band ++ fs).length ≤ o.limits.callDepth)
      (ho : o' = o.setFrames t (band ++ fs)) : Concludes scope t i fs o o' .enter
  | handle {h : Handler} {sequel : Sequel} (ho : o' = o) (hsequel : sequel.Sound) :
      Concludes scope t i fs o o' (.handle h sequel)
  | join {reversed : Values} {sequel : Sequel} (ho : o' = o) (hsequel : sequel.Sound) :
      Concludes scope t i fs o o' (.join reversed sequel)
  | invoke {native : NativeId} {args : Values} {sequel : Sequel} (ho : o' = o) (hsequel : sequel.Sound)
      (htakes : sequel.TakesYield) : Concludes scope t i fs o o' (.invoke native args sequel)
  | fail {e : Error} (ho : o' = o) (he : e.Ordinary scope) : Concludes scope t i fs o o' (.stop (.error e))
  | values {vs : Values} (ho : o' = o.setFrames t fs) : Concludes scope t i fs o o' (.stop (.values vs))
  | frameLimit (ho : o' = o) (hlimit : i.limit ≠ none) : Concludes scope t i fs o o' (.stop .frameLimit)
  | yielded {vs : Values} {gs : List FrameOutline} (hpaused : Paused gs) (hnative : (o.thread t).nativeDepth = 0)
      (hbound : (gs ++ fs).length ≤ o.limits.callDepth) (ho : o' = o.setFrames t (gs ++ fs)) :
      Concludes scope t i fs o o' (.stop (.yielded vs))

/-- An interpreter of the thread `t` runs the frames `band`, with the frames `fs` below. -/
structure Machine.Runs (m : Machine) (t : ThreadId) (i : Interpreter) (band fs : List FrameOutline) : Prop where
  thread : i.thread = t
  range : t.index < m.threads.size
  fits : (m.outline.thread t).Fits m.limits.callDepth
  frames : (m.outline.thread t).frames = band ++ fs
  band : Band band
  floor : i.floor = fs.length

namespace Machine.Runs

variable {m m' : Machine} {t : ThreadId} {i : Interpreter} {band fs : List FrameOutline}

/-- Whether an interpreter runs these frames can be seen from the outline. -/
theorem congr (h : m.Runs t i band fs) (ho : m'.outline = m.outline) : m'.Runs t i band fs := by
  have hlimits : m'.limits = m.limits := congrArg Outline.limits ho
  refine ⟨h.thread, ?_, by rw [ho, hlimits]; exact h.fits, by rw [ho]; exact h.frames, h.band, h.floor⟩
  rw [← outline_size, ho, outline_size]
  exact h.range

theorem exists_cons (h : m.Runs t i band fs) : ∃ f rest, band = f :: rest ∧ f.pending = none ∧
    (m.outline.thread t).frames = f :: (rest ++ fs) := by
  cases hband : band with
  | nil => exact absurd hband h.band.ne_nil
  | cons f rest =>
    refine ⟨f, rest, rfl, ?_, by rw [h.frames, hband]; rfl⟩
    have hown := h.band
    rw [hband] at hown
    exact hown.pending_head

theorem frames_ne_nil (h : m.Runs t i band fs) : (m.outline.thread t).frames ≠ [] := by
  obtain ⟨f, rest, -, -, hframes⟩ := h.exists_cons
  rw [hframes]
  exact List.cons_ne_nil _ _

/-- The interpreter has a frame to look at. -/
theorem exists_topFrame (h : m.Runs t i band fs) : ∃ top, m.topFrame? t = some top := by
  obtain ⟨f, rest, -, -, hframes⟩ := h.exists_cons
  obtain ⟨top, htop, -⟩ := Machine.exists_topFrame hframes
  exact ⟨top, htop⟩

theorem bounded (h : m.Runs t i band fs) : (band ++ fs).length ≤ m.limits.callDepth := by
  rw [← h.frames]
  exact h.fits.bounded

/-- The interpreter may go on with the innermost frame when the outline has not changed. -/
theorem enter (h : m.Runs t i band fs) (ho : m'.outline = m.outline) :
    Concludes scope t i fs m.outline m'.outline .enter := by
  refine .enter h.band h.bounded ?_
  rw [ho, ← h.frames, Outline.setFrames_of_eq _ _ h.fits.counted]

/-- Returning from the innermost frame ends the interpreter if it was the outermost one that it runs. -/
theorem finishReturn (h : m.Runs t i band fs) (vs : Values) :
    Concludes scope t i fs m.outline (m.finishReturn t vs i.floor).1.outline
      (.ofSignal (m.finishReturn t vs i.floor).2) := by
  obtain ⟨f, rest, hcons, -, hframes⟩ := h.exists_cons
  obtain ⟨houtline, hsignal⟩ := finishReturn_spec h.fits.counted h.range hframes vs i.floor
  have hband := h.band
  rw [hcons] at hband
  rw [hsignal, houtline]
  by_cases htarget : f.target.continuation = .host
  · rw [if_pos (Or.inr htarget), hband.eq_nil_of_host htarget]
    exact .values rfl
  · have hrest := hband.tail htarget
    have hpos := List.length_pos_iff.mpr hrest.ne_nil
    have hlength : ¬((rest ++ fs).length ≤ i.floor ∨ f.target.continuation = .host) := by
      rw [h.floor, List.length_append]
      rintro (hle | hhost)
      · omega
      · exact htarget hhost
    rw [if_neg hlength]
    refine .enter hrest ?_ rfl
    have hbound := h.bounded
    rw [hcons, List.cons_append, List.length_cons] at hbound
    exact Nat.le_of_succ_le hbound

section Attempts

variable {o : Outline} {w : Window} {attempt : Attempt}

theorem storeAttempt (ho : m.outline = o) (a : Nat) (hregular : attempt.Regular) :
    Concludes scope t i fs o (m.storeAttempt w a attempt).1.outline (m.storeAttempt w a attempt).2 := by
  cases attempt with
  | done vs => exact .goOn ho
  | fail e => exact .fail ho hregular.ordinary
  | handler handler => exact .handle ho trivial

theorem branchAttempt (ho : m.outline = o) (expected : Bool) (hregular : attempt.Regular) :
    Concludes scope t i fs o (m.branchAttempt w expected attempt).1.outline (m.branchAttempt w expected attempt).2 := by
  cases attempt with
  | done vs => exact .goOn ho
  | fail e => exact .fail ho hregular.ordinary
  | handler handler => exact .handle ho trivial

theorem assignAttempt (ho : m.outline = o) (hregular : attempt.Regular) :
    Concludes scope t i fs o (m.assignAttempt w attempt).1.outline (m.assignAttempt w attempt).2 := by
  cases attempt with
  | done vs => exact .goOn ho
  | fail e => exact .fail ho hregular.ordinary
  | handler handler => exact .handle ho trivial

end Attempts

section Calls

/-- A call from an instruction puts a frame of the interpreter's on top, or leaves everything to a native
function. -/
theorem callFrom (h : m.Runs t i band fs) (w : Window) (f : Value) (args : Values) {target : ReturnTarget}
    (htarget : target.continuation ≠ .host) :
    Concludes scope t i fs m.outline (m.callFrom i w f args target).1.outline (m.callFrom i w f args target).2 := by
  obtain rfl := h.thread
  unfold Machine.callFrom
  split
  · exact .fail rfl (isRaised_typeError m _ f _).ordinary
  · split
    · rename_i hlimit
      refine .frameLimit (outline_setPc m _ _) ?_
      intro hnone
      rw [hnone] at hlimit
      cases hlimit
    · rename_i id args _ _
      dsimp only
      rcases pushFrame_spec h.fits.counted id args target with
        ⟨hroom, m', hpair, houtline⟩ | ⟨message, m', hpair, houtline⟩
      · rw [hpair]
        dsimp only
        rw [houtline, h.frames, ← List.cons_append]
        rw [h.frames] at hroom
        exact .enter (.inner rfl htarget h.band) hroom rfl
      · rw [hpair]
        exact .fail houtline trivial
  · exact .invoke rfl htarget trivial

theorem tailCallFrom (h : m.Runs t i band fs) (f : Value) (args : Values) :
    Concludes scope t i fs m.outline (m.tailCallFrom i f args).1.outline (m.tailCallFrom i f args).2 := by
  obtain rfl := h.thread
  unfold Machine.tailCallFrom
  split
  · exact .fail rfl (isRaised_typeError m _ f _).ordinary
  · obtain ⟨g, rest, -, hpending, hframes⟩ := h.exists_cons
    exact h.enter (outline_rebindTop h.fits.counted hframes hpending _ _)
  · exact .invoke rfl trivial trivial

end Calls

section Loops

variable {o : Outline}

theorem jump (ho : m.outline = o) (pc : Nat) (offset : Int) :
    Concludes scope t i fs o (m.jump pc offset).1.outline (m.jump pc offset).2 := by
  unfold Machine.jump jumpTarget
  dsimp only
  split
  · exact .goOn ho
  · rename_i herror
    split at herror
    · cases herror
      exact .fail ho trivial
    · cases herror

theorem forPrep (ho : m.outline = o) (w : Window) (a : Nat) (offset : Int) :
    Concludes scope t i fs o (m.forPrep t w a offset).1.outline (m.forPrep t w a offset).2 := by
  unfold Machine.forPrep
  split
  · exact .fail ho trivial
  · split
    · exact .fail ho trivial
    · split
      · exact .fail ho trivial
      · dsimp only
        refine jump ?_ _ _
        exact ho

theorem forLoop (ho : m.outline = o) (w : Window) (a : Nat) (offset : Int) :
    Concludes scope t i fs o (m.forLoop w a offset).1.outline (m.forLoop w a offset).2 := by
  unfold Machine.forLoop jumpTarget
  dsimp only
  split
  · split
    · exact .goOn ho
    · rename_i herror
      split at herror
      · cases herror
        exact .fail ho trivial
      · cases herror
  · exact .goOn ho

theorem setList (ho : m.outline = o) (file : FileId) (top a b block pc : Nat) :
    Concludes scope t i fs o (m.setList t file top a b block pc).1.outline (m.setList t file top a b block pc).2 := by
  unfold Machine.setList
  dsimp only
  split
  · exact .goOn ((outline_storeList m _ _ _).trans ho)
  · exact .fail ho trivial

end Loops

theorem captureCells_ordinary (hframes : (m.outline.thread t).frames ≠ []) (c : Closure) (count pc : Nat)
    (cells : List CellId) {e : Error} (he : (m.captureCells t c count pc cells).2 = .error e) : e.Ordinary scope := by
  induction count generalizing m pc cells with
  | zero => cases he
  | succ count ih =>
    rw [captureCells] at he
    split at he
    · rename_i hnone
      exact absurd (topFrame?_eq_none_iff.mp hnone) hframes
    · split at he
      · cases he
        trivial
      · split at he
        · split at he
          · exact ih hframes _ _ he
          · exact ih (m := (m.addCell _).1) hframes _ _ he
        · rename_i top _ _ word _ _ _
          refine ih (m := (m.captureRegister t top word.b.toNat).1) ?_ _ _ he
          rwa [outline_captureRegister]
        · cases he
          trivial

/-- Making a closure fails, if it does, with an ordinary error: there is a frame whose variables it captures. -/
theorem makeClosure (h : m.Runs t i band fs) (w : Window) (a bx : Nat) :
    Concludes scope t i fs m.outline (m.makeClosure t w a bx).1.outline (m.makeClosure t w a bx).2 := by
  unfold Machine.makeClosure
  dsimp only
  split
  · exact .fail rfl trivial
  · rename_i child _
    set c := m.closure w.closure with hc
    have houtline := outline_captureCells m t c child.upvalueCount.toNat w.pc []
    split
    · rename_i m' e heq
      rw [heq] at houtline
      exact .fail houtline (captureCells_ordinary h.frames_ne_nil _ _ _ _ (by rw [heq]))
    · rename_i m' cells pc heq
      rw [heq] at houtline
      exact .goOn ((outline_setPc m' t pc).trans houtline)

/-- One instruction of any code. -/
theorem perform (h : m.Runs t i band fs) (w : Window) (word : Instruction) (op : Opcode) :
    Concludes scope t i fs m.outline (m.perform i w word op).1.outline (m.perform i w word op).2 := by
  obtain rfl := h.thread
  unfold Machine.perform
  extract_lets t a b c file closure proto next
  cases op with
  | move | loadK | loadBool | loadNil | getUpval | newTable | not | test => exact .goOn rfl
  | varArg => exact .goOn (outline_loadVarargs m t a b)
  | close => exact .goOn (outline_closeTopCells m t a)
  | setUpval =>
    dsimp only
    split
    · exact .goOn (outline_setCellValue m _ _)
    · exact .goOn rfl
  | testSet =>
    dsimp only
    split <;> exact .goOn rfl
  | getGlobal | getTable => exact storeAttempt rfl a (regular_index m t _ _)
  | self =>
    have hsame : (m.setRegister file (a + 1) (m.register file b)).outline = m.outline := rfl
    exact storeAttempt hsame a (regular_index _ t _ _)
  | setGlobal | setTable =>
    exact assignAttempt (outline_setIndex m t _ _ _) (regular_setIndex m t _ _ _)
  | add | sub | mul | div | mod | pow | unm => exact storeAttempt rfl a (regular_arith m t _ _ _)
  | len => exact storeAttempt rfl a (regular_lengthOf m t _)
  | concat => exact .join rfl trivial
  | jmp =>
    dsimp only [jumpFrom]
    split
    · exact jump (outline_spendFuse m t) _ _
    · exact jump rfl _ _
  | eq => exact branchAttempt rfl _ (regular_equal m _ _)
  | lt => exact branchAttempt rfl _ (regular_lessThan m t _ _)
  | le => exact branchAttempt rfl _ (regular_lessEqual m t _ _)
  | call => exact h.callFrom w _ _ (fun hhost => nomatch hhost)
  | tailCall => exact h.tailCallFrom _ _
  | ret => exact h.finishReturn _
  | forLoop => exact forLoop rfl w a _
  | forPrep => exact forPrep rfl w a _
  | tForLoop => exact h.callFrom w _ _ (fun hhost => nomatch hhost)
  | setList =>
    dsimp only
    split
    · split
      · exact .fail rfl trivial
      · exact setList (outline_setPc m t _) _ _ _ _ _ _
    · exact setList rfl _ _ _ _ _ _
  | closure => exact h.makeClosure w a _

/-- Running the next instruction, or refusing to. -/
theorem execute (h : m.Runs t i band fs) (w : Window) :
    Concludes scope t i fs m.outline (m.execute i w).1.outline (m.execute i w).2 := by
  obtain rfl := h.thread
  have hfetch : Concludes scope i.thread i fs m.outline (m.fetch i w).1.outline (m.fetch i w).2 := by
    unfold fetch
    split
    · exact .fail (outline_counted m _) trivial
    · split
      · rename_i hempty
        have hnone : (m.outline.thread i.thread).frames = [] := by
          rw [← map_outline_frames, List.isEmpty_iff.mp hempty]
          rfl
        exact absurd hnone h.frames_ne_nil
      · dsimp only
        have hmoved := outline_movedTo m i.thread (w.pc + 1)
        split
        · exact .fail hmoved trivial
        · rw [← hmoved]
          exact (h.congr hmoved).perform _ _ _
  unfold Machine.execute
  dsimp only
  split
  · split
    · exact .fail (outline_counted m _) trivial
    · exact hfetch
  · exact hfetch

end Machine.Runs

end LuaMachine
