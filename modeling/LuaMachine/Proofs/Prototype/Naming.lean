import Mathlib
import LuaMachine.Machine.Execute
import LuaMachine.Prototype.Naming

namespace LuaMachine

namespace Instruction

/-- The instruction writes the register. -/
def Writes (i : Instruction) (reg : Nat) : Prop :=
  let a := i.a.toNat
  match i.opcode? with
  | some .loadNil => a ≤ reg ∧ reg ≤ i.b.toNat
  | some .self => reg = a ∨ reg = a + 1
  | some .forPrep => a ≤ reg ∧ reg ≤ a + 2
  | some .forLoop => reg = a ∨ reg = a + 3
  -- the row of an open count has no end that the instruction knows
  | some .call => a ≤ reg ∧ (i.c.toNat = 0 ∨ reg + 1 < a + i.c.toNat)
  | some .varArg => a ≤ reg ∧ (i.b.toNat = 0 ∨ reg + 1 < a + i.b.toNat)
  | some .tForLoop => a + 2 ≤ reg ∧ reg < a + 3 + i.c.toNat
  | some .jmp | some .setGlobal | some .setUpval | some .setTable | some .setList | some .eq | some .lt | some .le
  | some .test | some .ret | some .close | some .tailCall | none => False
  | some _ => reg = a

end Instruction

namespace Prototype

/-- The number of words behind an instruction that it takes as operands. -/
def operandWords (p : Prototype) (i : Instruction) : Nat :=
  match i.opcode? with
  | some .closure => ((p.children[i.bx.toNat]?).map fun child => child.upvalueCount.toNat).getD 0
  | some .setList => if i.c.toNat = 0 then 1 else 0
  | _ => 0

end Prototype

namespace Machine

theorem captureCells_pc (m : Machine) (t : ThreadId) (c : Closure) (count pc : Nat) (cells : List CellId)
    {cells' : List CellId} {pc' : Nat} (h : (m.captureCells t c count pc cells).2 = .ok (cells', pc')) :
    pc' = pc + count := by
  induction count generalizing m pc cells with
  | zero =>
    rw [captureCells] at h
    cases h
    rfl
  | succ count ih =>
    rw [captureCells] at h
    rw [Nat.add_comm count, ← Nat.add_assoc]
    split at h
    · cases h
    · split at h
      · cases h
      · split at h
        · split at h
          · exact ih _ _ _ h
          · exact ih _ _ _ h
        · exact ih _ _ _ h
        · cases h

/-- An instruction that has operand words goes on behind them. -/
theorem perform_skips_operands {m : Machine} {i : Interpreter} {w : Window} {word : Instruction} {op : Opcode}
    (hword : word.opcode? = some op) (hop : op = .closure ∨ op = .setList) {pc : Nat}
    (h : (m.perform i w word op).2 = .goOn pc) :
    pc = w.pc + (m.closure w.closure).proto.operandWords word := by
  unfold Prototype.operandWords
  rw [hword]
  rcases hop with rfl | rfl
  · unfold perform makeClosure at h
    dsimp only at h ⊢
    split at h
    · cases h
    next child hchild =>
      split at h
      · cases h
      next pc' hcaptured =>
        cases h
        rw [hchild, Option.map_some, Option.getD_some]
        exact captureCells_pc m i.thread (m.closure w.closure) _ w.pc [] (by rw [hcaptured])
  · have hstored {n : Machine} {file : FileId} {top a b block next : Nat}
        (h : (n.setList i.thread file top a b block next).2 = .goOn pc) : pc = next := by
      unfold setList at h
      dsimp only at h
      split at h <;> cases h
      rfl
    unfold perform at h
    dsimp only at h ⊢
    split at h
    next hlong =>
      rw [if_pos hlong]
      split at h
      · cases h
      · exact hstored h
    next hshort =>
      rw [if_neg hshort]
      exact hstored h

end Machine

namespace Prototype

variable {p : Prototype} {i : Instruction} {n pc reg : Nat} {kind : NameKind} {name : String}

/-- The instructions in front of a place, run in order from the first one; they are listed from the last one. -/
inductive InOrder (p : Prototype) : List Nat → Nat → Prop
  | start : InOrder p [] 0
  | next {run : List Nat} {pc : Nat} {i : Instruction} : InOrder p run pc → p.code[pc]? = some i →
      InOrder p (pc :: run) (pc + 1 + p.operandWords i)

/-- The instruction loads a register with what goes by the name. -/
inductive Loads (p : Prototype) (i : Instruction) (reg : Nat) : NameKind → String → Prop
  | global {name : String} : i.opcode? = some .getGlobal → i.a.toNat = reg →
      p.constantName? i.bx.toNat = some name → Loads p i reg .global name
  | field {name : String} : i.opcode? = some .getTable → i.a.toNat = reg → p.operandName? i.c = some name →
      Loads p i reg .field name
  | method {name : String} : i.opcode? = some .self → i.a.toNat = reg → p.operandName? i.c = some name →
      Loads p i reg .method name
  | upvalue {name : String} : i.opcode? = some .getUpval → i.a.toNat = reg →
      p.upvalueNames[i.b.toNat]? = some name → Loads p i reg .upvalue name

/-- The last of the instructions that writes a register loads it with what goes by the name, or moves it there
from a lower register for which the same holds. -/
inductive NamedBy (p : Prototype) : List Nat → Nat → NameKind → String → Prop
  | loaded {n : Nat} {run : List Nat} {i : Instruction} {reg : Nat} {kind : NameKind} {name : String} :
      p.code[n]? = some i → p.Loads i reg kind name → NamedBy p (n :: run) reg kind name
  | moved {n : Nat} {run : List Nat} {i : Instruction} {reg : Nat} {kind : NameKind} {name : String} :
      p.code[n]? = some i → i.opcode? = some .move → i.a.toNat = reg → i.b.toNat < reg →
      NamedBy p run i.b.toNat kind name → NamedBy p (n :: run) reg kind name
  | kept {n : Nat} {run : List Nat} {i : Instruction} {reg : Nat} {kind : NameKind} {name : String} :
      p.code[n]? = some i → ¬ i.Writes reg → NamedBy p run reg kind name → NamedBy p (n :: run) reg kind name

/-- Reading the words in front of `pc` backwards tells what a run did to a register: no operand word gives a clue
about it, and every instruction that writes it does. The search takes the words one by one where a run skips operands,
and it looks for fewer registers than an instruction may write. -/
structure Legible (p : Prototype) (run : List Nat) (pc reg : Nat) : Prop where
  operands : ∀ n < pc, n ∉ run → ∀ i, p.code[n]? = some i → p.clue i reg = .silent
  writes : ∀ n ∈ run, ∀ i, p.code[n]? = some i → i.Writes reg → p.clue i reg ≠ .silent

/-- The only writes that the search overlooks are the second register of a method call, the limit and the step of
a numeric loop and the variable of its body. -/
theorem overlooked_iff (p : Prototype) (i : Instruction) (reg : Nat) :
    (i.Writes reg ∧ p.clue i reg = .silent) ↔
      i.opcode? = some .self ∧ reg = i.a.toNat + 1 ∨
      i.opcode? = some .forPrep ∧ (reg = i.a.toNat + 1 ∨ reg = i.a.toNat + 2) ∨
      i.opcode? = some .forLoop ∧ reg = i.a.toNat + 3 := by
  rcases hop : i.opcode? with _ | op
  · simp [Instruction.Writes, hop]
  · cases op <;> simp [Instruction.Writes, clue, hop] <;> grind

theorem InOrder.lt {run : List Nat} {pc : Nat} (h : p.InOrder run pc) : ∀ n ∈ run, n < pc := by
  induction h with
  | start => simp
  | next _ _ ih =>
    simp only [List.mem_cons]
    rintro n (rfl | hn)
    · omega
    · have := ih n hn
      omega

theorem Legible.before {run : List Nat} {pc : Nat} {i : Instruction} {reg : Nat}
    (h : p.Legible (pc :: run) (pc + 1 + p.operandWords i) reg) : p.Legible run pc reg where
  operands n hn hmem := h.operands n (by omega) (by simp [hn.ne, hmem])
  writes n hn := h.writes n (by simp [hn])

/-- The search passes words that give no clue. -/
theorem nameBefore?_of_silent {reg q : Nat} {x : NameKind × String} (count : Nat)
    (hsilent : ∀ n, q ≤ n → n < q + count → ∀ i, p.code[n]? = some i → p.clue i reg = .silent)
    (h : p.nameBefore? (q + count) reg = some x) : p.nameBefore? q reg = some x := by
  induction count with
  | zero => exact h
  | succ count ih =>
    apply ih (fun n hn hlt => hsilent n hn (by omega))
    rw [← Nat.add_assoc, nameBefore?] at h
    cases hword : p.code[q + count]? with
    | none => simp [hword] at h
    | some i => simpa [hword, hsilent (q + count) (by omega) (by omega) i hword] using h

theorem of_settled {a reg : Nat} {kind kind' : NameKind} {name : String} {name? : Option String}
    (h : (if a = reg then
      match name? with
      | some name => Clue.named kind name
      | none => .unknown
      else .silent) = .named kind' name) : a = reg ∧ name? = some name ∧ kind' = kind := by
  grind

theorem loads_of_clue {kind : NameKind} {name : String} (h : p.clue i reg = .named kind name) :
    p.Loads i reg kind name := by
  unfold clue at h
  dsimp only at h
  split at h
  case h_2 hop =>
    obtain ⟨ha, hname, rfl⟩ := of_settled h
    exact .global hop ha hname
  case h_3 hop =>
    obtain ⟨ha, hname, rfl⟩ := of_settled h
    exact .field hop ha hname
  case h_4 hop =>
    obtain ⟨ha, hname, rfl⟩ := of_settled h
    exact .method hop ha hname
  case h_5 hop =>
    obtain ⟨ha, hname, rfl⟩ := of_settled h
    exact .upvalue hop ha hname
  all_goals grind

theorem move_of_clue {source : Nat} (h : p.clue i reg = .movedFrom source) :
    i.opcode? = some .move ∧ i.a.toNat = reg ∧ i.b.toNat = source ∧ source < reg := by
  unfold clue at h
  dsimp only at h
  split at h <;> grind

theorem namedBy_of_nameBefore? {run : List Nat} {pc : Nat} (hrun : p.InOrder run pc) {reg : Nat}
    (hlegible : ∀ r ≤ reg, p.Legible run pc r) {kind : NameKind} {name : String}
    (h : p.nameBefore? pc reg = some (kind, name)) (hkind : kind ≠ .localVar) : p.NamedBy run reg kind name := by
  induction hrun generalizing reg with
  | start => simp [nameBefore?] at h
  | @next run pc i hrun hword ih =>
    have hbefore : ∀ r ≤ reg, p.Legible run pc r := fun r hr => (hlegible r hr).before
    have hhere : p.nameBefore? (pc + 1) reg = some (kind, name) := by
      refine nameBefore?_of_silent (p.operandWords i) ?_ h
      intro n hn hlt
      have hbehind : n ∉ pc :: run := by
        intro hmem
        rcases List.mem_cons.mp hmem with rfl | hmem
        · omega
        · have := hrun.lt n hmem
          omega
      exact (hlegible reg le_rfl).operands n hlt hbehind
    rw [nameBefore?, hword] at hhere
    cases hclue : p.clue i reg with
    | named kind' name' =>
      simp only [hclue, Option.some.injEq, Prod.mk.injEq] at hhere
      obtain ⟨rfl, rfl⟩ := hhere
      exact .loaded hword (loads_of_clue hclue)
    | unknown => simp [hclue] at hhere
    | silent =>
      simp only [hclue] at hhere
      have hkept : ¬ i.Writes reg := fun hwrites =>
        (hlegible reg le_rfl).writes pc (by simp) i hword hwrites hclue
      exact .kept hword hkept (ih hbefore hhere)
    | movedFrom source =>
      simp only [hclue] at hhere
      obtain ⟨hop, ha, hb, hlt⟩ := move_of_clue hclue
      cases hlocal : p.localName? (source + 1) pc with
      | some local' =>
        simp only [hlocal, Option.some.injEq, Prod.mk.injEq] at hhere
        exact absurd hhere.1.symm hkind
      | none =>
        simp only [hlocal] at hhere
        subst hb
        exact .moved hword hop ha hlt (ih (fun r hr => hbefore r (by omega)) hhere)

/-- A name that is none of a local variable is right wherever the words in front are legible: what is in the register
got there by the instruction that the name stands for. -/
theorem namedBy_of_registerName? {run : List Nat} {pc : Nat} (hrun : p.InOrder run pc) {reg : Nat}
    (hlegible : ∀ r ≤ reg, p.Legible run pc r) {kind : NameKind} {name : String}
    (h : p.registerName? pc reg = some (kind, name)) (hkind : kind ≠ .localVar) : p.NamedBy run reg kind name := by
  unfold registerName? at h
  split at h
  next local' _ =>
    simp only [Option.some.injEq, Prod.mk.injEq] at h
    exact absurd h.1.symm hkind
  next => exact namedBy_of_nameBefore? hrun hlegible h hkind

/-- What the last instruction that was run can have to do with a name. -/
theorem NamedBy.cases_word {run : List Nat} {reg : Nat} (h : p.NamedBy (n :: run) reg kind name)
    (hword : p.code[n]? = some i) : p.Loads i reg kind name ∨ i.opcode? = some .move ∨
      ¬i.Writes reg ∧ p.NamedBy run reg kind name := by
  cases h with
  | loaded hword' hloads =>
    cases hword.symm.trans hword'
    exact .inl hloads
  | moved hword' hop =>
    cases hword.symm.trans hword'
    exact .inr (.inl hop)
  | kept hword' hwrites hbefore =>
    cases hword.symm.trans hword'
    exact .inr (.inr ⟨hwrites, hbefore⟩)

theorem Loads.opcode? (h : p.Loads i reg kind name) :
    i.opcode? = some .getGlobal ∨ i.opcode? = some .getTable ∨ i.opcode? = some .self ∨
      i.opcode? = some .getUpval := by
  cases h with
  | global hop => simp [hop]
  | field hop => simp [hop]
  | method hop => simp [hop]
  | upvalue hop => simp [hop]

section Sample

/-- A function that calls the number 5 with a new closure, which captures the variable `u`. -/
def calling : Prototype :=
  { code := #[.ofABx .loadK 0 0, .ofABx .closure 1 0, .ofABC .getUpval 0 0 0, .ofABC .call 0 2 1, .ofABC .ret 0 1 0]
    constants := #[.int 5]
    children := [{ upvalueCount := 1 }]
    upvalueNames := ["u"] }

/-- The word that says what a closure captures is taken for a load: the number 5 goes by the name of the variable. -/
theorem calling_misnamed : calling.InOrder [1, 0] 3 ∧ calling.registerName? 3 0 = some (.upvalue, "u") ∧
    ¬calling.NamedBy [1, 0] 0 .upvalue "u" := by
  have hload : calling.code[0]? = some (.ofABx .loadK 0 0) := rfl
  have hclosure : calling.code[1]? = some (.ofABx .closure 1 0) := rfl
  refine ⟨?_, by decide, fun h => ?_⟩
  · exact (InOrder.start.next hload).next hclosure
  · obtain hloads | hop | ⟨-, h⟩ := h.cases_word hclosure
    · exact absurd hloads.opcode? (by decide)
    · exact absurd hop (by decide)
    · obtain hloads | hop | ⟨hwrites, -⟩ := h.cases_word hload
      · exact absurd hloads.opcode? (by decide)
      · exact absurd hop (by decide)
      · exact hwrites rfl

end Sample

end Prototype

end LuaMachine
