import LuaMachine.Library.Module
import LuaMachine.Machine.Substitution
import LuaMachine.Proofs.Chunk.Rereading
import LuaMachine.Proofs.Json.Canonical
import LuaMachine.Proofs.Machine.CanonicalSteps
import LuaMachine.Proofs.Table.Vanishing

namespace LuaMachine

open Value

/-- The constants that reading makes are canonical. -/
theorem Constant.IsLoaded.isCanonical {integral : Bool} {n : Nat} {c : Constant} (h : c.IsLoaded integral n) :
    c.value.IsCanonical := by
  cases c with
  | nil => exact isCanonical_nil
  | bool b => exact isCanonical_bool b
  | int i => exact isCanonical_int i
  | str s => exact isCanonical_str s
  | float bits =>
    have hnumber := h.float bits rfl
    obtain hfloat | ⟨i, hi⟩ := number_eq_or (Double.ofBits bits)
    · intro x hx
      cases hx
      exact hfloat
    · rw [Constant.number, hi] at hnumber
      cases hnumber

/-- A chunk that is accepted has canonical constants only. -/
theorem Chunk.isCanonical_of_read {bytes : List UInt8} {p : Prototype} (hread : Chunk.read bytes = .ok p) :
    p.IsCanonical := by
  obtain ⟨l, rest, -, hloaded⟩ := Chunk.isLoaded_of_read hread
  exact fun q hq c hc => ((hloaded q hq).constants c hc).isCanonical

namespace Machine

namespace IsCanonical

variable {m m' : Machine}

theorem new (limits : Limits) : (Machine.new limits).IsCanonical := by
  refine ⟨fun t ht => ?_, by simp [Machine.new], by simp [Machine.new], by simp [Machine.new], by simp [Machine.new],
    by simp [Machine.new]⟩
  obtain rfl | rfl : t = Table.new 0 32 ∨ t = Table.new 0 4 := by simpa [Machine.new] using ht
  · exact Table.all_new isCanonical_nil 0 32
  · exact Table.all_new isCanonical_nil 0 4

section Host

variable (h : m.IsCanonical)
include h

theorem entryValue (name : String) (entry : Library.Entry) : Leaves Value.IsCanonical (m.entryValue name entry) := by
  cases entry with
  | function body => exact ⟨h.addNative _, isCanonical_native _⟩
  | globals => exact ⟨h, isCanonical_table _⟩
  | text s => exact ⟨h, isCanonical_str s⟩

theorem openModule (module : Library.Module) : (m.openModule module).IsCanonical := by
  unfold Machine.openModule
  split
  · refine List.foldlRecOn _ _ h fun m hm e _ => ?_
    have hentry := hm.entryValue e.1 e.2
    exact hentry.machine.setStr _ _ hentry.result _
  · dsimp only
    refine IsCanonical.setStr ?_ _ _ (isCanonical_table _) _
    refine List.foldlRecOn _ _ (h.addTable (Table.all_new isCanonical_nil _ _)) fun m hm e _ => ?_
    have hentry := hm.entryValue (module.name ++ "." ++ e.1) e.2
    exact hentry.machine.setStr _ _ hentry.result _

theorem openLibraries (selection : Library.Selection) : (m.openLibraries selection).IsCanonical :=
  List.foldlRecOn _ _ h fun _ hm module _ => hm.openModule module

theorem rawSet {id : TableId} {key value : Value} {inUse : Values} (hkey : key.IsCanonical)
    (hvalue : value.IsCanonical) (hset : m.rawSet id key value inUse = .ok m') : m'.IsCanonical := by
  unfold Machine.rawSet at hset
  split at hset
  · rename_i hstored
    cases hset
    exact h.storeKey id (hkey.normalizeKey hstored) hvalue inUse
  · cases hset

theorem entries {id : TableId} {inUse : Values} {e : Value × Value} (he : e ∈ m.entries id inUse) :
    e.1.IsCanonical ∧ e.2.IsCanonical :=
  (h.table id).of_mem_pairs isCanonical_int (Table.mem_pairs_of_mem_entries he)

variable {source target : Value} (htarget : target.IsCanonical)
include htarget

theorem substituteEntry (id : TableId) {key value : Value} (hkey : key.IsCanonical) (hvalue : value.IsCanonical)
    (inUse : Values) : (m.substituteEntry id source target key value inUse).1.IsCanonical := by
  unfold Machine.substituteEntry
  extract_lets newKey newValue keyChanged valueChanged inUse' ctx removed stored
  have hnewKey : newKey.IsCanonical := by
    dsimp only [newKey]
    split <;> assumption
  have hnewValue : newValue.IsCanonical := by
    dsimp only [newValue]
    split <;> assumption
  have hremoved : removed.IsCanonical := by
    dsimp only [removed]
    split
    · exact h.modifyTable id fun t ht =>
        ht.remove isCanonical_nil isCanonical_int fun hstored => hkey.normalizeKey hstored
    · exact h
  dsimp only [stored]
  split
  · split
    · rename_i hstored
      exact hremoved.storeKey id (hnewKey.normalizeKey hstored) hnewValue _
    · exact hremoved
  · exact hremoved

theorem substituteEntries (id : TableId) (held : Values) (count : Nat) (pending : List TableId)
    {entries : List (Value × Value)} (hentries : ∀ e ∈ entries, e.1.IsCanonical ∧ e.2.IsCanonical) :
    (Machine.substituteEntries id source target held m count pending entries).1.IsCanonical := by
  induction entries generalizing m count pending with
  | nil => exact h
  | cons e rest ih =>
    obtain ⟨key, value⟩ := e
    obtain ⟨⟨hkey, hvalue⟩, hrest⟩ := List.forall_mem_cons.mp hentries
    exact ih (h.substituteEntry htarget id hkey hvalue _) _ _ hrest

omit htarget in
theorem substituteMetatable (id : TableId) (pending : List TableId) :
    (m.substituteMetatable id source target pending).1.IsCanonical := by
  unfold Machine.substituteMetatable
  split
  · exact h
  · split
    · exact h.installMetatable _ _ _ _
    · exact h

/-- Replacing a value by a canonical one leaves canonical numbers only. -/
theorem substitute (root : TableId) : (m.substitute root source target).1.IsCanonical := by
  have hfrom (fuel : Nat) {m : Machine} (h : m.IsCanonical) (pending seen : List TableId) (count : Nat) :
      (substituteFrom source target fuel m pending seen count).1.IsCanonical := by
    induction fuel generalizing m pending seen count with
    | zero => exact h
    | succ fuel ih =>
      cases pending with
      | nil => exact h
      | cons id pending =>
        rw [substituteFrom]
        split
        · exact ih h _ _ _
        · refine ih (IsCanonical.substituteMetatable ?_ id _) _ _ _
          exact h.substituteEntries htarget id _ count pending fun e he => h.entries he
  exact hfrom _ h _ _ _

end Host

end IsCanonical

/-- The machines and signals that a host comes across which loads code with canonical constants and hands over canonical
values only. It may change at any time what keeps no values that programs come across, such as groups and native
functions. -/
inductive Fed : Machine → Signal → Prop
  | new (limits : Limits) : Fed (.new limits) .go
  | other {m m' : Machine} {s : Signal} (h : Fed m s) (htables : m'.tables = m.tables) (hfiles : m'.files = m.files)
      (hcells : m'.cells = m.cells) (hclosures : m'.closures = m.closures) (hthreads : m'.threads = m.threads)
      (hstack : m'.stack = m.stack) : Fed m' s
  | openLibraries {m : Machine} {s : Signal} (h : Fed m s) (selection : Library.Selection) :
      Fed (m.openLibraries selection) s
  | load {m : Machine} {s : Signal} (h : Fed m s) {p : Prototype} (hp : p.IsCanonical) : Fed (m.load p).1 s
  | newTable {m : Machine} {s : Signal} (h : Fed m s) (arraySize hashSize : Nat) :
      Fed (m.addTable (.new arraySize hashSize)).1 s
  | store {m m' : Machine} {s : Signal} (h : Fed m s) {id : TableId} {key value : Value} {inUse : Values}
      (hkey : key.IsCanonical) (hvalue : value.IsCanonical) (hset : m.rawSet id key value inUse = .ok m') : Fed m' s
  | setMetatable {m : Machine} {s : Signal} (h : Fed m s) (id : TableId) (metatable : Option TableId)
      (inUse : Values) : Fed (m.setMetatable id metatable inUse) s
  | data {m m' : Machine} {s : Signal} (h : Fed m s) {ops? : Option (List ExternalNames.Op)} {j : Json} {v : Value}
      (hread : Json.toValue (ops?.map .ofOps) m j = .ok (m', v)) : Fed m' s
  | newThread {m : Machine} {s : Signal} (h : Fed m s) {f : Value} {args : Values} (hf : f.IsCanonical)
      (hargs : args.AreCanonical) : Fed (m.newThread f args).1 s
  | enlist {m : Machine} {s : Signal} (h : Fed m s) (g : GroupId) (t : ThreadId) : Fed (m.addToGroup g t) s
  | jump {m m' : Machine} {s : Signal} (h : Fed m s) {t : ThreadId} {f : Value} {args : Values} (hf : f.IsCanonical)
      (hargs : args.AreCanonical) (hjumped : m.jumpThread t f args = .ok m') : Fed m' s
  | sleep {m : Machine} {s : Signal} (h : Fed m s) (t : ThreadId) (ticks : Nat) :
      Fed (m.modifyThread t fun th => { th with sleep := ticks }) s
  | destroy {m : Machine} {s : Signal} (h : Fed m s) (t : ThreadId) : Fed (m.destroyThread t) s
  | resume {m : Machine} {s : Signal} (h : Fed m s) (t : ThreadId) (budget : Option Nat) {args : Values}
      (hargs : args.AreCanonical) : Fed (m.beginResume t budget args).1 (m.beginResume t budget args).2
  | call {m : Machine} {s : Signal} (h : Fed m s) (t : ThreadId) {f : Value} {args : Values} (hf : f.IsCanonical)
      (hargs : args.AreCanonical) (held : Values) : Fed (m.beginCall t f args held).1 (m.beginCall t f args held).2
  | update {m : Machine} {s : Signal} (h : Fed m s) (groups : List GroupId) :
      Fed (m.continueUpdates groups).1 (m.continueUpdates groups).2
  | replace {m : Machine} {s : Signal} (h : Fed m s) (root : TableId) (source : Value) {target : Value}
      (htarget : target.IsCanonical) : Fed (m.substitute root source target).1 s
  | step {m : Machine} {s : Signal} (h : Fed m s) : Fed (m.step s).1 (m.step s).2

/-- Nothing but canonical numbers comes out of canonical numbers. -/
theorem Fed.leaves {m : Machine} {s : Signal} (h : Fed m s) : Leaves Signal.IsCanonical (m, s) := by
  induction h with
  | new limits => exact ⟨.new limits, trivial⟩
  | other _ htables hfiles hcells hclosures hthreads hstack ih =>
    exact ⟨ih.machine.of_eq htables hfiles hcells hclosures hthreads hstack, ih.result⟩
  | openLibraries _ selection ih => exact ⟨ih.machine.openLibraries selection, ih.result⟩
  | load _ hp ih => exact ⟨ih.machine.addClosure hp, ih.result⟩
  | newTable _ arraySize hashSize ih => exact ⟨ih.machine.addTable (Table.all_new isCanonical_nil _ _), ih.result⟩
  | store _ hkey hvalue hset ih => exact ⟨ih.machine.rawSet hkey hvalue hset, ih.result⟩
  | setMetatable _ id metatable inUse ih => exact ⟨ih.machine.installMetatable _ _ _ _, ih.result⟩
  | @data _ _ _ _ ops? j v hread ih =>
    have hnames : ∀ names ∈ ops?.map ExternalNames.ofOps, names.Paired := by
      rintro names hnames
      obtain ⟨ops, -, rfl⟩ := Option.mem_map.mp hnames
      exact ExternalNames.paired_ofOps ops
    exact ⟨(Json.readsCanonical hnames j _ _ _ hread).1.isCanonical ih.machine, ih.result⟩
  | newThread _ hf hargs ih => exact ⟨ih.machine.newThread hf hargs, ih.result⟩
  | enlist _ g t ih => exact ⟨ih.machine.addToGroup g t, ih.result⟩
  | @jump _ _ _ _ t _ _ hf hargs hjumped ih =>
    have hvetted := ih.machine.jumpThread t hf hargs
    rw [hjumped] at hvetted
    exact ⟨hvetted, ih.result⟩
  | sleep _ t ticks ih => exact ⟨ih.machine.modifyThread t fun _ hth => hth.of_eq rfl rfl rfl, ih.result⟩
  | destroy _ t ih => exact ⟨ih.machine.destroyThread t, ih.result⟩
  | resume _ t budget hargs ih => exact ih.machine.beginResume t budget hargs
  | call _ t hf hargs held ih => exact ih.machine.beginCall t hf hargs held
  | update _ groups ih => exact ih.machine.continueUpdates groups
  | replace _ root source htarget ih => exact ⟨ih.machine.substitute htarget root, ih.result⟩
  | step _ ih => exact ih.machine.step ih.result

/-- Numbers stay canonical: a value is canonical unless it is a double that a 64-bit integer equals and that is not
negative zero. Arithmetic, loops, the readers of numerals, of chunks and of JSON data make canonical numbers, whatever
they are given. A machine whose host hands over canonical values has no others in registers, captured variables and
tables, nor hands any to the host, at any step. -/
theorem numbers_canonical :
    (∀ v : Value, v.IsCanonical ↔ ∀ x, v = .float x → ∀ i : Int64,
      (Binary.ofFloat x).integer? = some i.toInt → i = 0 ∧ (Binary.ofFloat x).isNegative = true) ∧
    (∀ op a b v, Arithmetic.raw? op a b = some v → v.IsCanonical) ∧
    (∀ index limit step, (Arithmetic.forStep index limit step).1.IsCanonical) ∧
    (∀ start step, ((Arithmetic.raw? .sub start step).getD .nil).IsCanonical) ∧
    (∀ s v, Value.parseNumber? s = some v → v.IsCanonical) ∧
    (∀ base s v, Value.parseRadix? base s = some v → v.IsCanonical) ∧
    (∀ bytes p, Chunk.read bytes = .ok p → ∀ q, p.Contains q → ∀ c ∈ q.constants, c.value.IsCanonical) ∧
    (∀ (ops? : Option (List ExternalNames.Op)) (m m' : Machine) (j : Json) (v : Value),
      Json.toValue (ops?.map .ofOps) m j = .ok (m', v) → v.IsCanonical ∧ m.Grows m' ∧
        ∀ id inUse, m.tables.size ≤ id.index → ∀ e ∈ m'.entries id inUse, e.1.IsCanonical ∧ e.2.IsCanonical) ∧
    ∀ (m : Machine) (s : Signal), m.Fed s →
      (∀ file i, (m.register file i).IsCanonical) ∧ (∀ id, (m.cellValue id).IsCanonical) ∧
        (∀ id inUse, ∀ e ∈ m.entries id inUse, e.1.IsCanonical ∧ e.2.IsCanonical) ∧
        (∀ vs, s = .values vs ∨ s = .yielded vs → ∀ v ∈ vs, v.IsCanonical) ∧
        ∀ e, s = .error e → e.value.IsCanonical := by
  refine ⟨isCanonical_iff, fun _ _ _ _ => Arithmetic.isCanonical_of_raw, Arithmetic.isCanonical_forStep,
    Arithmetic.isCanonical_firstIndex, fun _ _ => isCanonical_of_parseNumber, fun _ _ _ => isCanonical_of_parseRadix,
    fun _ _ => Chunk.isCanonical_of_read, fun ops? m m' j v hread => ?_, fun m s h => ?_⟩
  · have hnames : ∀ names ∈ ops?.map ExternalNames.ofOps, names.Paired := by
      rintro names hnames
      obtain ⟨ops, -, rfl⟩ := Option.mem_map.mp hnames
      exact ExternalNames.paired_ofOps ops
    obtain ⟨hgrows, hv⟩ := Json.readsCanonical hnames j m m' v hread
    exact ⟨hv, hgrows.grows, fun id _ hid e he =>
      (hgrows.fresh id hid).of_mem_pairs isCanonical_int (Table.mem_pairs_of_mem_entries he)⟩
  · have hm := h.leaves.machine
    have hs := h.leaves.result
    refine ⟨hm.register, hm.cellValue, fun _ _ _ he => hm.entries he, ?_, ?_⟩
    · rintro vs (rfl | rfl) <;> exact hs
    · rintro e rfl
      exact hs

/-- Code that adds 2.5 and 0.5. -/
def addHalves : Prototype where
  stackSize := 2
  code := #[.ofABC .add 0 256 257, .ofABC .ret 0 2 0]
  constants := #[.float 0x4004000000000000, .float 0x3fe0000000000000]

/-- The sum of two doubles is an integer, as it is before the function returns. -/
theorem numbers_canonical_addHalves :
    let started := (((Machine.new {}).load addHalves).1.newThread (.closure ⟨0⟩) []).1.beginResume ⟨0⟩ none []
    let added := started.1.step started.2
    (added.1.register ⟨0⟩ 0).IsCanonical ∧ added.1.register ⟨0⟩ 0 = .int 3 ∧
      (added.1.step added.2).2 = .values [.int 3] := by
  intro started added
  have hhalves : (Constant.float 0x4004000000000000).value.IsCanonical ∧
      (Constant.float 0x3fe0000000000000).value.IsCanonical := by
    constructor <;> (rintro x ⟨⟩; decide +kernel)
  have hcode : addHalves.IsCanonical := by
    intro q hq c hc
    cases hq with
    | self =>
      obtain rfl | rfl : c = .float 0x4004000000000000 ∨ c = .float 0x3fe0000000000000 := by
        simpa [addHalves] using hc
      · exact hhalves.1
      · exact hhalves.2
    | child hchild => cases hchild
  have hfed : added.1.Fed added.2 :=
    .step (.resume (.newThread (.load (.new {}) hcode) (isCanonical_closure _) .nil) ⟨0⟩ none .nil)
  obtain ⟨-, -, -, -, -, -, -, -, hruns⟩ := numbers_canonical
  exact ⟨(hruns _ _ hfed).1 ⟨0⟩ 0, by decide +kernel, by decide +kernel⟩

end Machine

end LuaMachine
