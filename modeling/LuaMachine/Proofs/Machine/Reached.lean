import LuaMachine.Proofs.Machine.Arrival
import LuaMachine.Proofs.Machine.Operation
import LuaMachine.Proofs.Machine.Ownership

namespace LuaMachine

/-- An interpreter that does not run all frames stands on a call from native code. -/
theorem Stands.floor_eq_zero {scope : Scope} {limits : Limits} {n : Nat} {t : ThreadId} {starts hostReturn : Bool}
    {i : Interpreter} {fs : List FrameOutline} {acts : List Activation} (h : Stands t i fs acts)
    (hbelow : Segment scope limits t starts hostReturn fs n acts) (hnative : n = 0) : i.floor = 0 := by
  cases h with
  | onResume hfloor => exact hfloor
  | onCall =>
    subst hnative
    cases hbelow with
    | pass ha => cases ha

namespace Machine

/-- The machines and signals that a host's resumes and calls pass through. -/
inductive Reached : Machine → Signal → Prop
  | resume {m : Machine} {t : ThreadId} (h : m.Hosted) (hrange : t.index < m.threads.size) (budget : Option Nat)
      (args : Values) : Reached (m.beginResume t budget args).1 (m.beginResume t budget args).2
  | call {m : Machine} {t : ThreadId} (h : m.Hosted) (hrange : t.index < m.threads.size) (f : Value) (args : Values) :
      Reached (m.beginCall t f args []).1 (m.beginCall t f args []).2
  | step {m : Machine} {s : Signal} (h : Reached m s) : Reached (m.step s).1 (m.step s).2

variable {m m' : Machine} {s : Signal}

/-- What a host does to frames, registers and captured variables. -/
theorem Becomes.operate {op : ThreadOperation} {fuel : Nat} (hresult : m.operate fuel op = some (m', s)) :
    m.Becomes m' := by
  have hown := Becomes.refl m
  cases op with
  | newThread f args =>
    cases hresult
    exact hown.newThread f args
  | resume t budget args => exact (hown.beginResume t budget args).run hresult
  | call t f args => exact (hown.beginCall t f args []).run hresult
  | jump t f args =>
    unfold Machine.operate at hresult
    dsimp only at hresult
    split at hresult
    · rename_i hjumped
      cases hresult
      exact hown.jumpThread t hjumped
    · cases hresult
      exact hown
  | destroy t =>
    cases hresult
    exact hown.destroyThread t
  | sleep t ticks =>
    cases hresult
    exact hown.modifyThread t fun _ => .of_eq rfl rfl

theorem Hosted.owned (h : m.Hosted) : m.Owned := by
  induction h with
  | new limits => exact fun t => ⟨List.nodup_nil, fun f hf => nomatch hf⟩
  | change _ _ hthreads _ hfiles _ ih => exact ih.mono hthreads hfiles
  | operate _ _ hresult ih => exact ih.becomes (.operate hresult)

namespace Reached

theorem sound (h : m.Reached s) : m.outline.Sound .host s := by
  induction h with
  | resume h hrange budget args => exact h.atRest.resume .host hrange budget args
  | call h hrange f args => exact h.atRest.call .host hrange f args []
  | step _ ih => exact step_sound .host ih

theorem owned (h : m.Reached s) : m.Owned := by
  induction h with
  | resume h _ budget args => exact h.owned.becomes ((Becomes.refl _).beginResume _ budget args)
  | call h _ f args => exact h.owned.becomes ((Becomes.refl _).beginCall _ f args [])
  | @step m s _ ih => exact ih.becomes ((Becomes.refl m).step s)

variable {i : Interpreter} {acts : List Activation}

/-- An interpreter that goes on has the bookkeeping of its frames in order. -/
theorem inOrder (h : m.Reached .go) (hstack : m.stack = .interpret i :: acts) : m.InOrder i := by
  have howned := h.owned i.thread
  cases h.sound with
  | atRest _ _ _ hs => cases hs
  | back _ _ _ hs => cases hs
  | @working t acts' below ts hsome hsetting hstatus hready =>
    rw [outline_stack, hstack] at hsome
    cases hready with
    | @go _ band fs _ hthread hstage hband hstands hframes hbelow =>
      cases hsome
      subst hthread
      have hlength : (m.thread i.thread).frames.length = band.length + fs.length := by
        rw [← List.length_append, ← hframes, ← map_outline_frames, List.length_map]
      have hfloor := hstands.floor_eq
      refine ⟨by simpa using hsetting.range, ?_, ?_, fun hnative => ?_, fun f hf => ?_, howned⟩
      · rw [depth_eq hsetting.fits.counted, ← map_outline_frames, List.length_map]
      · have hsome := List.length_pos_iff.mpr hband.ne_nil
        omega
      · exact hstands.floor_eq_zero hbelow (by rw [outline_thread]; exact hnative)
      · have hin : f.outline ∈ band := by
          rw [hlength, hfloor, Nat.add_sub_cancel] at hf
          have hmem := List.mem_map_of_mem (f := Frame.outline) hf
          rwa [List.map_take, map_outline_frames, hframes, List.take_left] at hmem
        exact hband.pending_of_mem hin
    | pause hs => obtain hnot | ⟨vs, hnot⟩ := hs <;> cases hnot

end Reached

end Machine

end LuaMachine
