import LuaMachine.Machine.References
import LuaMachine.Proofs.Table.Layout
import LuaMachine.Proofs.Table.Strong
import LuaMachine.Proofs.Table.Vanishing

namespace LuaMachine.Machine

open Table

/-- All tables are well formed, each one with keys in stored form of its own. -/
structure Tidy (m : Machine) (K : TableId → Set Value) : Prop where
  wellFormed : ∀ id, (m.table id).WellFormed m.hash (K id)
  stored : ∀ id, ∀ key ∈ K id, IsStored key

@[simp] theorem context_hash (m : Machine) (id : TableId) (inUse : Values) : (m.context id inUse).hash = m.hash := by
  unfold context
  split <;> rfl

variable {m : Machine} {K : TableId → Set Value}

section Absent

variable {id : TableId}

/-- An identifier that names no table names an empty one. -/
theorem table_of_le (hout : m.tables.size ≤ id.index) : m.table id = Table.new 0 0 := by
  rw [table, Array.getElem?_eq_none hout]
  rfl

theorem pairs_of_le (hout : m.tables.size ≤ id.index) : (m.table id).pairs = [] := by
  rw [table_of_le hout, pairs_new]

theorem index_lt_of_mem_pairs {e : Value × Value} (he : e ∈ (m.table id).pairs) : id.index < m.tables.size := by
  by_contra hout
  simp [pairs_of_le (Nat.not_lt.mp hout)] at he

theorem entries_of_le (hout : m.tables.size ≤ id.index) (inUse : Values) : m.entries id inUse = [] := by
  refine List.eq_nil_iff_forall_not_mem.mpr fun e he => ?_
  simpa [pairs_of_le hout] using mem_pairs_of_mem_entries he

/-- What holds of the tables that are there and of an empty one holds of all. -/
theorem forall_table {P : TableId → Prop} (hout : ∀ id, m.tables.size ≤ id.index → P id)
    (hin : ∀ i : Fin m.tables.size, P ⟨i⟩) (id : TableId) : P id := by
  by_cases h : id.index < m.tables.size
  · exact hin ⟨id.index, h⟩
  · exact hout id (Nat.not_lt.mp h)

/-- The tables are well formed if those are that are there. -/
theorem tidy_of_forall {K : Set Value} (hK : ∀ key ∈ K, IsStored key) (h : ∀ t ∈ m.tables, t.WellFormed m.hash K) :
    m.Tidy fun _ => K := by
  refine ⟨forall_table (m := m) (P := fun id => (m.table id).WellFormed m.hash K) (fun id hout => ?_) fun i => ?_,
    fun _ => hK⟩
  · rw [table_of_le hout]
    exact wellFormed_new _ _ 0 0
  · rw [table, Array.getElem?_eq_getElem i.isLt]
    exact h _ (Array.getElem_mem i.isLt)

end Absent

theorem Tidy.sound (hm : m.Tidy K) (id : TableId) (inUse : Values) :
    (m.table id).Sound (m.context id inUse).hash (K id) := by
  rw [context_hash]
  exact (hm.wellFormed id).toSound

/-- The keys of entries are known and in stored form, and their values are not nil. -/
theorem Tidy.of_mem_pairs (hm : m.Tidy K) {id : TableId} {e : Value × Value} (he : e ∈ (m.table id).pairs) :
    e.1 ∈ K id ∧ IsStored e.1 ∧ e.2.isNil = false := by
  obtain ⟨hkey, hvalue⟩ := (hm.wellFormed id).of_mem_pairs he
  exact ⟨hkey, hm.stored id e.1 hkey, hvalue⟩

/-- A key that no other is taken for has one entry. -/
theorem Tidy.eq_of_mem_pairs (hm : m.Tidy K) {id : TableId} {e f : Value × Value} (halone : Alone m.hash (K id) e.1)
    (he : e ∈ (m.table id).pairs) (hf : f ∈ (m.table id).pairs) (hkey : f.1 = e.1) : f = e := by
  obtain ⟨key, v⟩ := e
  obtain ⟨other, w⟩ := f
  obtain rfl : other = key := hkey
  have hread {v : Value} : (other, v) ∈ (m.table id).pairs ↔
      (m.table id).get (.strong m.hash) other = v ∧ v.isNil = false :=
    (hm.wellFormed id).toSound.mem_pairs_iff halone (Context.everlasting_strong m.hash)
  rw [← (hread.mp he).1, ← (hread.mp hf).1]

/-- All keys in stored form may be known. -/
theorem Tidy.mono (hm : m.Tidy K) : m.Tidy fun _ => {key | IsStored key} where
  wellFormed id := (hm.wellFormed id).mono (hm.stored id)
  stored _ _ := id

/-- One more key may be known. -/
theorem Tidy.insert (hm : m.Tidy K) {key : Value} (hkey : IsStored key) : m.Tidy fun id => Set.insert key (K id) where
  wellFormed id := (hm.wellFormed id).mono (Set.subset_insert key (K id))
  stored id other hother := hother.elim (fun heq => heq ▸ hkey) (hm.stored id other)

/-- Where no key of an entry is taken for another one, reading any known key gives the value of its entry. -/
theorem Tidy.mem_entries_iff_of_alone (hm : m.Tidy K) {id : TableId} {inUse : Values}
    (halone : ∀ e ∈ m.entries id inUse, Alone m.hash (K id) e.1) {key w : Value} (hkey : key ∈ K id) :
    (key, w) ∈ m.entries id inUse ↔ m.rawGet id key inUse = w ∧ w.isNil = false :=
  (hm.sound id inUse).mem_entries_iff_of_alone (by rwa [context_hash]) hkey (hm.stored id key hkey)

/-- One machine follows from another one by a change of one table. -/
structure ChangesOnly (m m' : Machine) (id : TableId) : Prop where
  rest : m' = { m with tables := m'.tables }
  size : m'.tables.size = m.tables.size
  others : ∀ other, other ≠ id → m'.table other = m.table other

namespace ChangesOnly

variable {m' m'' : Machine} {id : TableId}

theorem refl (m : Machine) (id : TableId) : m.ChangesOnly m id := ⟨rfl, rfl, fun _ _ => rfl⟩

theorem trans (h : m.ChangesOnly m' id) (h' : m'.ChangesOnly m'' id) : m.ChangesOnly m'' id := by
  refine ⟨?_, h'.size.trans h.size, fun other hne => (h'.others other hne).trans (h.others other hne)⟩
  have hrest := h'.rest
  rwa [h.rest] at hrest

theorem hash_eq (h : m.ChangesOnly m' id) : m'.hash = m.hash := by rw [h.rest]

theorem tidy (h : m.ChangesOnly m' id) (hm : m.Tidy K) (ht : (m'.table id).WellFormed m.hash (K id)) : m'.Tidy K := by
  refine ⟨fun other => ?_, hm.stored⟩
  rw [h.hash_eq]
  by_cases hother : other = id
  · subst hother
    exact ht
  · rw [h.others other hother]
    exact hm.wellFormed other

end ChangesOnly

theorem changesOnly_modifyTable (m : Machine) (id : TableId) (f : Table → Table) :
    m.ChangesOnly (m.modifyTable id f) id := by
  refine ⟨rfl, by simp [modifyTable, modifyAt], fun other hne => ?_⟩
  have hindex : other.index ≠ id.index := fun heq => hne (by cases other; cases id; cases heq; rfl)
  simp [modifyTable, modifyAt, table, Array.getElem?_modify, hindex.symm]

theorem table_modifyTable {id : TableId} (hin : id.index < m.tables.size) (f : Table → Table) :
    (m.modifyTable id f).table id = f (m.table id) := by
  rw [modifyTable, modifyAt, table, table, Array.getElem?_modify, if_pos rfl, Array.getElem?_eq_getElem hin]
  rfl

/-- Changing a table that is not there changes nothing. -/
theorem modifyTable_of_le {id : TableId} (hout : m.tables.size ≤ id.index) (f : Table → Table) :
    m.modifyTable id f = m := by
  have hsame : m.tables.modify id.index f = m.tables := by
    refine Array.ext (by simp) fun i hi hi' => ?_
    rw [Array.getElem_modify, if_neg (by omega)]
  rw [modifyTable, modifyAt, hsame]

section Operating

variable {id : TableId}

/-- Changing a table keeps all tables well formed if it keeps this one so. -/
theorem Tidy.modifyTable (hm : m.Tidy K) (f : Table → Table)
    (hf : (m.table id).WellFormed m.hash (K id) → (f (m.table id)).WellFormed m.hash (K id)) :
    (m.modifyTable id f).Tidy K := by
  by_cases hin : id.index < m.tables.size
  · refine (changesOnly_modifyTable m id f).tidy hm ?_
    rw [table_modifyTable hin]
    exact hf (hm.wellFormed id)
  · rwa [modifyTable_of_le (Nat.not_lt.mp hin)]

theorem metatable_modifyTable (f : Table → Table) (hf : ∀ t, (f t).metatable = t.metatable) :
    ((m.modifyTable id f).table id).metatable = (m.table id).metatable := by
  by_cases hin : id.index < m.tables.size
  · rw [table_modifyTable hin, hf]
  · rw [modifyTable_of_le (Nat.not_lt.mp hin)]

/-- The machine with an operation done on a table, while some values are in use. -/
def operateOn (m : Machine) (id : TableId) (op : Op) (inUse : Values) : Machine :=
  m.modifyTable id fun t => op.apply (m.context id inUse) t

/-- What an operation on a table asks it to store. -/
def write? (m : Machine) (id : TableId) (op : Op) (inUse : Values) : Option (Value × Value) :=
  op.write? (m.context id inUse) (m.table id)

/-- The moments at which an operation on a table drops or passes over what has vanished. -/
def moments (m : Machine) (id : TableId) (op : Op) (inUse : Values) : List Context :=
  op.moments (m.context id inUse) (m.table id)

variable (op : Op) (inUse : Values)

theorem changesOnly_operateOn (m : Machine) (id : TableId) : m.ChangesOnly (m.operateOn id op inUse) id :=
  changesOnly_modifyTable m id _

@[simp] theorem metatable_operateOn : ((m.operateOn id op inUse).table id).metatable = (m.table id).metatable :=
  metatable_modifyTable _ fun t => by simp

theorem Tidy.operateOn (hm : m.Tidy K) (hknown : ∀ w, m.write? id op inUse = some w → w.1 ∈ K id) :
    (m.operateOn id op inUse).Tidy K := by
  refine hm.modifyTable _ fun ht => ?_
  rw [← context_hash m id inUse] at ht ⊢
  exact ht.apply op hknown

@[simp] theorem write?_setMode (m : Machine) (id : TableId) (mode : WeakMode) (inUse : Values) :
    m.write? id (.setMode mode) inUse = none := rfl

variable {op inUse}

/-- What becomes of an entry whose objects exist at every moment of an operation, if it was there. -/
theorem Tidy.mem_pairs_operateOn (hm : m.Tidy K) (hin : id.index < m.tables.size)
    (hknown : ∀ w, m.write? id op inUse = some w → w.1 ∈ K id) {e : Value × Value}
    (halone : Alone m.hash (K id) e.1) (hkept : e ∈ (m.table id).pairs → ∀ c ∈ m.moments id op inUse, c.Keeps e) :
    e ∈ ((m.operateOn id op inUse).table id).pairs ↔
      (e ∈ (m.table id).pairs ∧ ∀ w, m.write? id op inUse = some w → w.1 ≠ e.1) ∨
        (m.write? id op inUse = some e ∧ e.2.isNil = false) := by
  have ht := hm.wellFormed id
  rw [← context_hash m id inUse] at ht halone
  rw [Machine.operateOn, table_modifyTable hin]
  exact ht.mem_pairs_apply op hknown halone hkept

/-- An operation that stores under no key but one that no other is taken for adds no other entry. -/
theorem Tidy.of_mem_pairs_operateOn (hm : m.Tidy K)
    (halone : ∀ w, m.write? id op inUse = some w → Alone m.hash (K id) w.1) {e : Value × Value}
    (he : e ∈ ((m.operateOn id op inUse).table id).pairs) :
    e ∈ (m.table id).pairs ∨ (m.write? id op inUse = some e ∧ e.2.isNil = false) := by
  by_cases hin : id.index < m.tables.size
  · have ht := hm.wellFormed id
    rw [← context_hash m id inUse] at ht halone
    rw [Machine.operateOn, table_modifyTable hin] at he
    exact ht.of_mem_pairs_apply halone he
  · rw [Machine.operateOn, modifyTable_of_le (Nat.not_lt.mp hin)] at he
    exact .inl he

section Storing

variable {key : Value} (hkey : IsStored key) (value : Value)
include hkey

theorem storeKey_eq_operateOn (m : Machine) (id : TableId) (inUse : Values) :
    m.storeKey id key value inUse = m.operateOn id (.set key value) (key :: value :: inUse) := by
  rw [storeKey, operateOn]
  congr 1
  funext t
  rw [Op.apply, Table.set, hkey]
  rfl

theorem write?_set (m : Machine) (id : TableId) (inUse : Values) :
    m.write? id (.set key value) inUse = some (key, value) := by
  rw [write?, Op.write?, hkey]
  rfl

theorem write?_remove (m : Machine) (id : TableId) (inUse : Values) :
    m.write? id (.remove key) inUse = some (key, .nil) := by
  rw [write?, Op.write?, hkey]
  rfl

variable {value} {inUse : Values} {e : Value × Value}

/-- Storing under a key replaces its entry. -/
theorem Tidy.mem_pairs_storeKey (hm : m.Tidy K) (hin : id.index < m.tables.size) (hknown : key ∈ K id)
    (halone : Alone m.hash (K id) e.1)
    (hkept : e ∈ (m.table id).pairs → ∀ c ∈ m.moments id (.set key value) (key :: value :: inUse), c.Keeps e) :
    e ∈ ((m.storeKey id key value inUse).table id).pairs ↔
      (e ∈ (m.table id).pairs ∧ e.1 ≠ key) ∨ (value.isNil = false ∧ e = (key, value)) := by
  have hwrite := write?_set hkey value m id (key :: value :: inUse)
  rw [storeKey_eq_operateOn hkey, hm.mem_pairs_operateOn hin (by simpa [hwrite] using hknown) halone hkept, hwrite]
  simp only [Option.some.injEq, forall_eq', ne_comm (a := key)]
  constructor
  · exact Or.imp_right fun ⟨he, hvalue⟩ => ⟨by rw [← he] at hvalue; exact hvalue, he.symm⟩
  · exact Or.imp_right fun ⟨hvalue, he⟩ => ⟨he.symm, by rw [he]; exact hvalue⟩

/-- Removing a key removes its entry. -/
theorem Tidy.mem_pairs_remove (hm : m.Tidy K) (hin : id.index < m.tables.size) (hknown : key ∈ K id)
    (halone : Alone m.hash (K id) e.1)
    (hkept : e ∈ (m.table id).pairs → ∀ c ∈ m.moments id (.remove key) inUse, c.Keeps e) :
    e ∈ ((m.operateOn id (.remove key) inUse).table id).pairs ↔ e ∈ (m.table id).pairs ∧ e.1 ≠ key := by
  have hwrite := write?_remove hkey m id inUse
  rw [hm.mem_pairs_operateOn hin (by simpa [hwrite] using hknown) halone hkept, hwrite]
  simp only [Option.some.injEq, forall_eq', ne_comm (a := key)]
  constructor
  · rintro (he | ⟨rfl, hvalue⟩)
    · exact he
    · cases hvalue
  · exact Or.inl

end Storing

theorem changesOnly_storeKey (m : Machine) (id : TableId) (key value : Value) (inUse : Values) :
    m.ChangesOnly (m.storeKey id key value inUse) id := changesOnly_modifyTable m id _

theorem Tidy.storeKey {key : Value} (hm : m.Tidy K) (hstored : IsStored key) (hkey : key ∈ K id) (value : Value)
    (inUse : Values) : (m.storeKey id key value inUse).Tidy K := by
  rw [storeKey_eq_operateOn hstored]
  refine hm.operateOn _ _ fun w hw => ?_
  rw [write?_set hstored] at hw
  cases hw
  exact hkey

theorem Tidy.remove {key : Value} (hm : m.Tidy K) (hstored : IsStored key) (hkey : key ∈ K id) (inUse : Values) :
    (m.operateOn id (.remove key) inUse).Tidy K := by
  refine hm.operateOn _ _ fun w hw => ?_
  rw [write?_remove hstored] at hw
  cases hw
  exact hkey

theorem installMetatable_eq_operateOn (m : Machine) (id : TableId) (metatable : Option TableId) (mode : WeakMode)
    (inUse : Values) : m.installMetatable id metatable mode inUse =
      (m.modifyTable id fun t => { t with metatable }).operateOn id (.setMode mode) inUse := rfl

theorem changesOnly_installMetatable (metatable : Option TableId) (mode : WeakMode) (inUse : Values) :
    m.ChangesOnly (m.installMetatable id metatable mode inUse) id :=
  (changesOnly_modifyTable m id _).trans (changesOnly_modifyTable _ id _)

theorem Tidy.withMetatable (hm : m.Tidy K) (id : TableId) (metatable : Option TableId) :
    (m.modifyTable id fun t => { t with metatable }).Tidy K :=
  hm.modifyTable _ fun ht => ht.withMetatable metatable

theorem Tidy.installMetatable (hm : m.Tidy K) (metatable : Option TableId) (mode : WeakMode) (inUse : Values) :
    (m.installMetatable id metatable mode inUse).Tidy K := by
  rw [installMetatable_eq_operateOn]
  exact (hm.withMetatable id metatable).operateOn _ _ (by simp)

/-- Another mode keeps an entry whose objects exist meanwhile. -/
theorem Tidy.mem_pairs_setMode (hm : m.Tidy K) (hin : id.index < m.tables.size) {mode : WeakMode} {inUse : Values}
    {e : Value × Value} (halone : Alone m.hash (K id) e.1)
    (hkept : e ∈ (m.table id).pairs → ∀ c ∈ m.moments id (.setMode mode) inUse, c.Keeps e) :
    e ∈ ((m.operateOn id (.setMode mode) inUse).table id).pairs ↔ e ∈ (m.table id).pairs := by
  rw [hm.mem_pairs_operateOn hin (by simp) halone hkept]
  simp

theorem metatable_installMetatable (hin : id.index < m.tables.size) (metatable : Option TableId) (mode : WeakMode)
    (inUse : Values) : ((m.installMetatable id metatable mode inUse).table id).metatable = metatable := by
  rw [installMetatable_eq_operateOn, metatable_operateOn, table_modifyTable hin]

end Operating

end LuaMachine.Machine
