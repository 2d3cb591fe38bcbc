import LuaMachine.Machine.Substitution
import LuaMachine.Proofs.Machine.Heap
import LuaMachine.Proofs.Table.Border

namespace LuaMachine

open Table

namespace Value

/-- A value, or `target` in the place of `source`. -/
def exchange (source target v : Value) : Value := if v = source then target else v

/-- Two objects, one to be put in the place of the other. -/
structure Exchangeable (source target : Value) : Prop where
  isObject_source : source.isObject = true
  isObject_target : target.isObject = true
  ne : source ≠ target

/-- An object is equal to itself only. -/
theorem rawEqual_iff_of_isObject {v w : Value} (h : w.isObject = true) : v.rawEqual w = true ↔ v = w := by
  cases w <;> cases v <;> simp_all [rawEqual, isObject, ref?]

theorem isStored_of_isObject {v : Value} (h : v.isObject = true) : IsStored v := by
  cases v with
  | table | closure | native | userdata | thread => rfl
  | nil | bool | int | float | str => simp [isObject, ref?] at h

theorem isNil_of_isObject {v : Value} (h : v.isObject = true) : v.isNil = false := by
  cases v with
  | table | closure | native | userdata | thread => rfl
  | nil | bool | int | float | str => simp [isObject, ref?] at h

variable {source target v w : Value}

@[simp] theorem exchange_self (source target : Value) : exchange source target source = target := if_pos rfl

theorem exchange_of_ne (h : v ≠ source) : exchange source target v = v := if_neg h

theorem exchange_ne_source (h : source ≠ target) (v : Value) : exchange source target v ≠ source := by
  unfold exchange
  split
  · exact h.symm
  · assumption

/-- The exchanged form of a value is none but itself and `target`. -/
theorem exchange_ne (hne : v ≠ w) (hw : w ≠ target) : exchange source target v ≠ w := by
  unfold exchange
  split
  · exact hw.symm
  · exact hne

/-- Values other than `target` stay apart. -/
theorem exchange_ne_exchange (hne : v ≠ w) (hv : v ≠ target) (hw : w ≠ target) :
    exchange source target v ≠ exchange source target w := by
  by_cases hsource : w = source
  · subst hsource
    rw [exchange_self, exchange_of_ne hne]
    exact hv
  · rw [exchange_of_ne hsource]
    exact exchange_ne hne hw

namespace Exchangeable

variable (h : Exchangeable source target)
include h

/-- Looking for `source` is asking for raw equality. -/
theorem exchange_eq (v : Value) : (if v.rawEqual source then target else v) = exchange source target v :=
  if_congr (rawEqual_iff_of_isObject h.isObject_source) rfl rfl

theorem isStored_exchange (hv : IsStored v) : IsStored (exchange source target v) := by
  unfold exchange
  split
  · exact isStored_of_isObject h.isObject_target
  · exact hv

theorem isNil_exchange (hv : v.isNil = false) : (exchange source target v).isNil = false := by
  unfold exchange
  split
  · exact isNil_of_isObject h.isObject_target
  · exact hv

/-- What is taken for unchanged is. -/
theorem exchange_of_rawEqual (hsame : (exchange source target v).rawEqual v = true) : exchange source target v = v := by
  by_cases hv : v = source
  · subst hv
    rw [exchange_self] at hsame
    exact absurd ((rawEqual_iff_of_isObject h.isObject_source).mp hsame).symm h.ne
  · exact exchange_of_ne hv

/-- A key is taken for changed exactly if it is `source`. -/
theorem rawEqual_exchange_iff (hv : IsStored v) : (exchange source target v).rawEqual v = true ↔ v ≠ source := by
  constructor
  · intro hsame
    exact h.exchange_of_rawEqual hsame ▸ exchange_ne_source h.ne v
  · intro hne
    rw [exchange_of_ne hne]
    exact hv.rawEqual_self

end Exchangeable

/-- An entry with `source` replaced in it. -/
def exchangeEntry (source target : Value) (e : Value × Value) : Value × Value :=
  (exchange source target e.1, exchange source target e.2)

/-- What becomes of some entries, or of none of them: one of them as it is, or with `source` replaced in it. -/
def Lasting (source target : Value) (entries : List (Value × Value)) (e : Value × Value) : Prop :=
  ∃ f ∈ entries, e = f ∨ e = exchangeEntry source target f

end Value

open Value

namespace Machine

theorem mem_tablesAmong {t : TableId} {vs : Values} : t ∈ tablesAmong vs ↔ .table t ∈ vs := by
  rw [tablesAmong, List.mem_filterMap]
  constructor
  · rintro ⟨v, hv, hsome⟩
    cases v with
    | table id =>
      cases hsome
      exact hv
    | nil | bool | int | float | str | closure | native | userdata | thread => cases hsome
  · exact fun hv => ⟨_, hv, rfl⟩

theorem length_tablesAmong_le (vs : Values) : (tablesAmong vs).length ≤ vs.length := List.length_filterMap_le ..

variable {m : Machine} {K : TableId → Set Value} {id : TableId} {source target key value : Value}

/-- An operation on a table, with what is in use meanwhile. -/
structure Look where
  machine : Machine
  id : TableId
  op : Op
  inUse : Values

/-- The objects of some entries exist whenever an operation asks for them. -/
def Look.Spares (l : Look) (lasting : Value × Value → Prop) : Prop :=
  ∀ e ∈ (l.machine.table l.id).pairs, lasting e → ∀ c ∈ l.machine.moments l.id l.op l.inUse, c.Keeps e

section Keys

variable {hash : Value → UInt64} {L : Set Value}

theorem exchange_mem (htarget : target ∈ L) (hkey : key ∈ L) : exchange source target key ∈ L := by
  unfold exchange
  split
  · exact htarget
  · exact hkey

/-- No other key is taken for the exchanged form of one that no other is taken for. -/
theorem alone_exchange (h : Exchangeable source target) (htarget : target ∈ L) (hkey : Alone hash L key) :
    Alone hash L (exchange source target key) := by
  unfold exchange
  split
  · exact ⟨htarget, isStored_of_isObject h.isObject_target,
      fun _ _ _ hequal => (rawEqual_iff_of_isObject h.isObject_target).mp hequal⟩
  · exact hkey

/-- Nor for what becomes of an entry, if none is taken for the keys of the entries. -/
theorem alone_of_lasting (h : Exchangeable source target) (htarget : target ∈ L) {entries : List (Value × Value)}
    (halone : ∀ e ∈ entries, Alone hash L e.1) {e : Value × Value} (he : Lasting source target entries e) :
    Alone hash L e.1 := by
  obtain ⟨f, hf, rfl | rfl⟩ := he
  · exact halone e hf
  · exact alone_exchange h htarget (halone f hf)

/-- An object is not taken for another key. -/
theorem alone_insert (h : Exchangeable source target) (hkey : Alone hash L key) (hne : key ≠ target) :
    Alone hash (Set.insert target L) key := by
  refine ⟨Set.mem_insert_of_mem target hkey.mem, hkey.stored, fun l hl hhash hequal => ?_⟩
  rcases hl with rfl | hl
  · rw [Value.rawEqual_comm, rawEqual_iff_of_isObject h.isObject_target] at hequal
    exact absurd hequal hne
  · exact hkey.eq_of_rawEqual l hl hhash hequal

end Keys

section Entry

variable (m id key value) (inUse : Values)

/-- What is in use while an entry is worked on. -/
def inHand (source target key value : Value) (inUse : Values) : Values := source :: target :: key :: value :: inUse

/-- The machine after `source` was replaced in an entry: the entry goes if its key changes, and is stored again if
anything changes. -/
theorem substituteEntry_eq (h : Exchangeable source target) (hkey : IsStored key) :
    m.substituteEntry id source target key value inUse =
      let hand := inHand source target key value inUse
      let newKey := exchange source target key
      let newValue := exchange source target value
      (if key = source then (m.operateOn id (.remove key) hand).storeKey id newKey newValue hand
        else if newValue.rawEqual value then m
        else m.storeKey id newKey newValue hand,
        (decide (key = source)).toNat + (!newValue.rawEqual value).toNat, tablesAmong [newKey, newValue]) := by
  have hstored : normalizeKey (exchange source target key) = .ok (exchange source target key) :=
    h.isStored_exchange hkey
  have hsame : (exchange source target key).rawEqual key = !decide (key = source) := by
    rw [Bool.eq_iff_iff, h.rawEqual_exchange_iff hkey]
    simp
  simp only [substituteEntry, h.exchange_eq, hsame, Bool.not_not, hstored]
  by_cases hsource : key = source
  · simp [hsource, operateOn, Op.apply, inHand]
  · by_cases hvalue : (exchange source target value).rawEqual value = true <;> simp [hsource, hvalue, inHand]

theorem changesOnly_substituteEntry (h : Exchangeable source target) (hkey : IsStored key) :
    m.ChangesOnly (m.substituteEntry id source target key value inUse).1 id := by
  rw [substituteEntry_eq m id key value inUse h hkey]
  dsimp only
  split
  · exact (changesOnly_operateOn _ _ m id).trans (changesOnly_storeKey _ id _ _ _)
  · split
    · exact .refl m id
    · exact changesOnly_storeKey m id _ _ _

theorem Tidy.substituteEntry {m : Machine} (hm : m.Tidy K) (h : Exchangeable source target) (hkey : IsStored key)
    (hold : key ∈ K id) (hnew : exchange source target key ∈ K id) :
    (m.substituteEntry id source target key value inUse).1.Tidy K := by
  have hnewKey := h.isStored_exchange hkey
  rw [substituteEntry_eq m id key value inUse h hkey]
  dsimp only
  split
  · exact (hm.remove hkey hold _).storeKey hnewKey hnew _ _
  · split
    · exact hm
    · exact hm.storeKey hnewKey hnew _ _

theorem metatable_substituteEntry (h : Exchangeable source target) (hkey : IsStored key) :
    ((m.substituteEntry id source target key value inUse).1.table id).metatable = (m.table id).metatable := by
  have hnewKey := h.isStored_exchange hkey
  rw [substituteEntry_eq m id key value inUse h hkey]
  dsimp only
  split
  · rw [storeKey_eq_operateOn hnewKey, metatable_operateOn, metatable_operateOn]
  · split
    · rfl
    · rw [storeKey_eq_operateOn hnewKey, metatable_operateOn]

/-- The looks at a table while an entry is worked on. -/
def entryLooks (source target : Value) : List Look :=
  let hand := inHand source target key value inUse
  let newKey := exchange source target key
  let newValue := exchange source target value
  if key = source then
    [⟨m, id, .remove key, hand⟩,
      ⟨m.operateOn id (.remove key) hand, id, .set newKey newValue, newKey :: newValue :: hand⟩]
  else if newValue.rawEqual value then []
  else [⟨m, id, .set newKey newValue, newKey :: newValue :: hand⟩]

end Entry

section EntryPairs

variable {inUse : Values} {lasting : Value × Value → Prop} {e : Value × Value}

/-- One entry is replaced by its exchanged form, and the others stay whose objects exist meanwhile. -/
theorem mem_pairs_substituteEntry (h : Exchangeable source target) (hm : m.Tidy K)
    (hmem : (key, value) ∈ (m.table id).pairs) (hold : Alone m.hash (K id) key)
    (hnew : Alone m.hash (K id) (exchange source target key))
    (hlooks : ∀ l ∈ m.entryLooks id key value inUse source target, l.Spares lasting) (halone : Alone m.hash (K id) e.1)
    (hlasting : e ∈ (m.table id).pairs → lasting e) :
    e ∈ ((m.substituteEntry id source target key value inUse).1.table id).pairs ↔
      (e ∈ (m.table id).pairs ∧ e.1 ≠ key ∧ e.1 ≠ exchange source target key) ∨
        e = exchangeEntry source target (key, value) := by
  have hin := index_lt_of_mem_pairs hmem
  have hnewValue := h.isNil_exchange (hm.of_mem_pairs hmem).2.2
  rw [substituteEntry_eq m id key value inUse h hold.stored]
  dsimp only
  unfold entryLooks at hlooks
  dsimp only at hlooks
  split
  · rename_i hsource
    rw [if_pos hsource, List.forall_mem_cons, List.forall_mem_singleton] at hlooks
    obtain ⟨hdrop, hstore⟩ := hlooks
    have hdropped := hm.mem_pairs_remove hold.stored hin hold.mem halone fun he => hdrop e he (hlasting he)
    have hchanges := changesOnly_operateOn (.remove key) (inHand source target key value inUse) m id
    have hm' := hm.remove hold.stored hold.mem (inHand source target key value inUse)
    rw [hm'.mem_pairs_storeKey hnew.stored (by rwa [hchanges.size]) hnew.mem (by rwa [hchanges.hash_eq]) fun he =>
      hstore e he (hlasting (hdropped.mp he).1), hdropped, and_assoc, exchangeEntry]
    simp [hnewValue]
  · rename_i hsource
    rw [exchange_of_ne hsource, exchangeEntry, exchange_of_ne hsource]
    rw [if_neg hsource] at hlooks
    split
    · rename_i hsame
      rw [h.exchange_of_rawEqual hsame]
      constructor
      · intro he
        by_cases hkey : e.1 = key
        · exact .inr (hm.eq_of_mem_pairs hold hmem he hkey)
        · exact .inl ⟨he, hkey, hkey⟩
      · rintro (⟨he, -⟩ | rfl)
        · exact he
        · exact hmem
    · rename_i hchanged
      rw [if_neg hchanged, List.forall_mem_singleton, exchange_of_ne hsource] at hlooks
      rw [hm.mem_pairs_storeKey hold.stored hin hold.mem halone fun he => hlooks e he (hlasting he)]
      simp [hnewValue]

/-- No entry comes up but the exchanged one. -/
theorem of_mem_pairs_substituteEntry (h : Exchangeable source target) (hm : m.Tidy K) (hold : Alone m.hash (K id) key)
    (hnew : Alone m.hash (K id) (exchange source target key))
    (he : e ∈ ((m.substituteEntry id source target key value inUse).1.table id).pairs) :
    e ∈ (m.table id).pairs ∨ e = exchangeEntry source target (key, value) := by
  have hstore {n : Machine} (hn : n.Tidy K) (hhash : n.hash = m.hash) {w : Value} {hand : Values}
      (he : e ∈ ((n.storeKey id (exchange source target key) w hand).table id).pairs) :
      e ∈ (n.table id).pairs ∨ e = (exchange source target key, w) := by
    have hwrite := write?_set hnew.stored w n id (exchange source target key :: w :: hand)
    rw [storeKey_eq_operateOn hnew.stored] at he
    have hadded := hn.of_mem_pairs_operateOn (by simpa [hwrite, hhash] using hnew) he
    rw [hwrite, Option.some_inj] at hadded
    exact hadded.imp_right fun h => h.1.symm
  rw [substituteEntry_eq m id key value inUse h hold.stored] at he
  dsimp only at he
  split at he
  · have hwrite := write?_remove hold.stored m id (inHand source target key value inUse)
    have hm' := hm.remove hold.stored hold.mem (inHand source target key value inUse)
    have hchanges := changesOnly_operateOn (.remove key) (inHand source target key value inUse) m id
    refine (hstore hm' hchanges.hash_eq he).imp_left fun he => ?_
    rcases hm.of_mem_pairs_operateOn (by simpa [hwrite] using hold) he with he | ⟨hadded, hvalue⟩
    · exact he
    · rw [hwrite, Option.some_inj] at hadded
      rw [← hadded] at hvalue
      cases hvalue
  · split at he
    · exact .inl he
    · exact hstore hm rfl he

end EntryPairs

section Entries

variable (id) (source target) (held : Values)

/-- What is in use besides an entry while it is worked on; only a weak table asks. -/
def besides (m : Machine) (id : TableId) (held : Values) (pending : List TableId) (rest : List (Value × Value)) :
    Values :=
  if (m.table id).mode.isWeak then pending.map .table ++ (rest.flatMap fun (k, v) => [k, v]) ++ held else []

/-- How often something was replaced does not matter for what is replaced next. -/
theorem substituteEntries_count (m : Machine) (count : Nat) (pending : List TableId) (entries : List (Value × Value)) :
    substituteEntries id source target held m count pending entries =
      let r := substituteEntries id source target held m 0 pending entries
      (r.1, count + r.2.1, r.2.2) := by
  induction entries generalizing m count pending with
  | nil => rfl
  | cons e rest ih =>
    rw [substituteEntries, substituteEntries]
    dsimp only
    rw [ih, ih _ (0 + _)]
    simp [Nat.add_assoc]

theorem substituteEntries_cons (m : Machine) (pending : List TableId) (key value : Value)
    (rest : List (Value × Value)) :
    substituteEntries id source target held m 0 pending ((key, value) :: rest) =
      let r := m.substituteEntry id source target key value (m.besides id held pending rest)
      let s := substituteEntries id source target held r.1 0 (r.2.2.reverse ++ pending) rest
      (s.1, r.2.1 + s.2.1, s.2.2) := by
  rw [substituteEntries]
  dsimp only
  rw [substituteEntries_count]
  simp [besides]

/-- The tables in the exchanged forms of some entries. -/
def tablesIn (source target : Value) (entries : List (Value × Value)) : List TableId :=
  entries.flatMap fun (key, value) => tablesAmong [exchange source target key, exchange source target value]

theorem mem_tablesIn {entries : List (Value × Value)} {t : TableId} : t ∈ tablesIn source target entries ↔
    ∃ e ∈ entries, exchange source target e.1 = .table t ∨ exchange source target e.2 = .table t := by
  simp [tablesIn, mem_tablesAmong, eq_comm]

theorem length_tablesIn_le (entries : List (Value × Value)) :
    (tablesIn source target entries).length ≤ 2 * entries.length := by
  induction entries with
  | nil => simp [tablesIn]
  | cons e rest ih =>
    have hhead := length_tablesAmong_le [exchange source target e.1, exchange source target e.2]
    simp only [tablesIn, List.flatMap_cons, List.length_append, List.length_cons, List.length_nil] at hhead ih ⊢
    omega

/-- The looks at a table while entries are worked on. -/
def entriesLooks (id : TableId) (source target : Value) (held : Values) :
    Machine → List TableId → List (Value × Value) → List Look
  | _, _, [] => []
  | m, pending, (key, value) :: rest =>
    let inUse := m.besides id held pending rest
    let r := m.substituteEntry id source target key value inUse
    m.entryLooks id key value inUse source target ++
      entriesLooks id source target held r.1 (r.2.2.reverse ++ pending) rest

variable {source target}

/-- The keys of other entries, exchanged or not, are neither the old nor the new key of an entry. -/
theorem apart_of_nodup {done rest : List (Value × Value)} (hnodup : ((done ++ (key, value) :: rest).map (·.1)).Nodup)
    (hfresh : ∀ e ∈ done ++ (key, value) :: rest, e.1 ≠ target) :
    ∀ e ∈ done.map (exchangeEntry source target) ++ rest, e.1 ≠ key ∧ e.1 ≠ exchange source target key := by
  rw [List.map_append, List.map_cons, List.nodup_append, List.nodup_cons] at hnodup
  obtain ⟨-, ⟨hrest, -⟩, hdone⟩ := hnodup
  have hkey : key ≠ target := hfresh (key, value) (by simp)
  intro e he
  rcases List.mem_append.mp he with he | he
  · obtain ⟨d, hd, rfl⟩ := List.mem_map.mp he
    have hne : d.1 ≠ key := hdone d.1 (List.mem_map_of_mem hd) key List.mem_cons_self
    exact ⟨exchange_ne hne hkey, exchange_ne_exchange hne (hfresh d (by simp [hd])) hkey⟩
  · have hne : key ≠ e.1 := fun heq => hrest (List.mem_map.mpr ⟨e, he, heq.symm⟩)
    exact ⟨hne.symm, (exchange_ne hne (hfresh e (by simp [he]))).symm⟩

variable (h : Exchangeable source target) (htarget : target ∈ K id)
include h htarget

/-- Working on entries changes their table only, but not its metatable, and puts the tables in their exchanged forms in
front of those that wait. -/
theorem substituteEntries_frame {m : Machine} (hm : m.Tidy K) (pending : List TableId)
    {entries : List (Value × Value)} (hkeys : ∀ e ∈ entries, e.1 ∈ K id) :
    let r := substituteEntries id source target held m 0 pending entries
    m.ChangesOnly r.1 id ∧ r.1.Tidy K ∧ (r.1.table id).metatable = (m.table id).metatable ∧
      r.2.2 = (tablesIn source target entries).reverse ++ pending := by
  induction entries generalizing m pending with
  | nil => exact ⟨.refl m id, hm, rfl, rfl⟩
  | cons e rest ih =>
    obtain ⟨key, value⟩ := e
    rw [List.forall_mem_cons] at hkeys
    rw [substituteEntries_cons]
    dsimp only
    generalize m.besides id held pending rest = inUse
    have hstored : IsStored key := hm.stored id key hkeys.1
    have hchanges := changesOnly_substituteEntry m id key value inUse h hstored
    have hmeta := metatable_substituteEntry m id key value inUse h hstored
    have htables : (m.substituteEntry id source target key value inUse).2.2 =
        tablesAmong [exchange source target key, exchange source target value] := by
      rw [substituteEntry_eq m id key value inUse h hstored]
    obtain ⟨hrest, hwell, hsame, hpending⟩ :=
      ih (hm.substituteEntry id key value inUse h hstored hkeys.1 (exchange_mem htarget hkeys.1))
        ((m.substituteEntry id source target key value inUse).2.2.reverse ++ pending) hkeys.2
    refine ⟨hchanges.trans hrest, hwell, hsame.trans hmeta, hpending.trans ?_⟩
    rw [htables]
    simp [tablesIn]

/-- No entries come up but the exchanged ones. -/
theorem of_mem_pairs_substituteEntries {m : Machine} (hm : m.Tidy K) {pending : List TableId}
    {entries : List (Value × Value)} (halone : ∀ e ∈ entries, Alone m.hash (K id) e.1) {e : Value × Value}
    (he : e ∈ ((substituteEntries id source target held m 0 pending entries).1.table id).pairs) :
    e ∈ (m.table id).pairs ∨ e ∈ entries.map (exchangeEntry source target) := by
  induction entries generalizing m pending with
  | nil => exact .inl he
  | cons entry rest ih =>
    obtain ⟨key, value⟩ := entry
    rw [List.forall_mem_cons] at halone
    obtain ⟨hold, hrest⟩ := halone
    rw [substituteEntries_cons] at he
    have hm' := hm.substituteEntry id key value (m.besides id held pending rest) h hold.stored hold.mem
      (exchange_mem htarget hold.mem)
    have hchanges := changesOnly_substituteEntry m id key value (m.besides id held pending rest) h hold.stored
    rw [List.map_cons, List.mem_cons]
    rcases ih hm' (by rwa [hchanges.hash_eq]) he with he | he
    · exact (of_mem_pairs_substituteEntry h hm hold (alone_exchange h htarget hold) he).imp_right .inl
    · exact .inr (.inr he)

omit h htarget in
/-- A table with some entries worked on and others still as they were. A key `source` among the former is gone. -/
structure Halfway (source target : Value) (t : Table) (done rest : List (Value × Value)) : Prop where
  there : ∀ e ∈ done.map (exchangeEntry source target) ++ rest, e ∈ t.pairs
  gone : ∀ f ∈ done, f.1 = source → ∀ e ∈ t.pairs, e.1 ≠ source

/-- One more entry is worked on. -/
theorem Halfway.step {m : Machine} (hm : m.Tidy K) {done rest : List (Value × Value)}
    (hhalf : Halfway source target (m.table id) done ((key, value) :: rest))
    (halone : ∀ e ∈ done ++ (key, value) :: rest, Alone m.hash (K id) e.1)
    (hnodup : ((done ++ (key, value) :: rest).map (·.1)).Nodup)
    (hfresh : ∀ e ∈ done ++ (key, value) :: rest, e.1 ≠ target) {inUse : Values}
    (hlooks : ∀ l ∈ m.entryLooks id key value inUse source target,
      l.Spares (Lasting source target (done ++ (key, value) :: rest))) :
    Halfway source target ((m.substituteEntry id source target key value inUse).1.table id) (done ++ [(key, value)])
      rest := by
  have hmem : (key, value) ∈ (m.table id).pairs := hhalf.there _ (by simp)
  have hself : (key, value) ∈ done ++ (key, value) :: rest := by simp
  have hold := halone _ hself
  have hnew := alone_exchange h htarget hold
  have hone {e : Value × Value} (he : Alone m.hash (K id) e.1)
      (hlasting : e ∈ (m.table id).pairs → Lasting source target (done ++ (key, value) :: rest) e) :=
    mem_pairs_substituteEntry h hm hmem hold hnew hlooks he hlasting
  refine ⟨fun e he => ?_, fun f hf hsource e he heq => ?_⟩
  · by_cases hentry : e = exchangeEntry source target (key, value)
    · exact (hone (hentry ▸ hnew) fun _ => ⟨_, hself, .inr hentry⟩).mpr (.inr hentry)
    · have hother : e ∈ done.map (exchangeEntry source target) ++ rest := by
        simpa [hentry] using he
      have hlasting : Lasting source target (done ++ (key, value) :: rest) e := by
        rcases List.mem_append.mp hother with hdone | hrest
        · obtain ⟨d, hd, rfl⟩ := List.mem_map.mp hdone
          exact ⟨d, by simp [hd], .inr rfl⟩
        · exact ⟨e, by simp [hrest], .inl rfl⟩
      refine (hone (alone_of_lasting h htarget halone hlasting) fun _ => hlasting).mpr (.inl ⟨hhalf.there e ?_, ?_⟩)
      · rw [List.mem_append] at hother ⊢
        exact hother.imp_right (List.mem_cons_of_mem _)
      · exact apart_of_nodup hnodup hfresh e hother
  · have hf' : f ∈ done ++ (key, value) :: rest := by
      simp only [List.mem_append, List.mem_singleton] at hf
      rcases hf with hf | rfl
      · simp [hf]
      · exact hself
    have hsourceAlone : Alone m.hash (K id) e.1 := heq ▸ hsource ▸ halone f hf'
    rcases List.mem_append.mp hf with hf | hf
    · -- `source` was worked on before
      have hbefore (he : e ∈ (m.table id).pairs) : False := hhalf.gone f hf hsource e he heq
      rcases (hone hsourceAlone fun he => (hbefore he).elim).mp he with ⟨he, -⟩ | rfl
      · exact hbefore he
      · exact exchange_ne_source h.ne _ heq
    · obtain rfl := List.mem_singleton.mp hf
      have hkey : key = source := hsource
      have hsame (he : (_, _) ∈ (m.table id).pairs) := hm.eq_of_mem_pairs hold hmem he (heq.trans hkey.symm)
      rcases (hone hsourceAlone fun he => ⟨_, hself, .inl (hsame he)⟩).mp he with ⟨-, hne, -⟩ | rfl
      · exact hne (heq.trans hkey.symm)
      · exact exchange_ne_source h.ne _ heq

/-- All entries are worked on. -/
theorem Halfway.steps {m : Machine} (hm : m.Tidy K) {done rest : List (Value × Value)}
    (hhalf : Halfway source target (m.table id) done rest) (halone : ∀ e ∈ done ++ rest, Alone m.hash (K id) e.1)
    (hnodup : ((done ++ rest).map (·.1)).Nodup) (hfresh : ∀ e ∈ done ++ rest, e.1 ≠ target) {pending : List TableId}
    (hlooks : ∀ l ∈ entriesLooks id source target held m pending rest,
      l.Spares (Lasting source target (done ++ rest))) :
    Halfway source target ((substituteEntries id source target held m 0 pending rest).1.table id) (done ++ rest)
      [] := by
  induction rest generalizing m done pending with
  | nil => simpa [substituteEntries] using hhalf
  | cons entry rest ih =>
    obtain ⟨key, value⟩ := entry
    rw [entriesLooks, List.forall_mem_append] at hlooks
    have hkey := halone (key, value) (by simp)
    have hnext := hhalf.step id h htarget hm halone hnodup hfresh hlooks.1
    have hm' := hm.substituteEntry id key value (m.besides id held pending rest) h hkey.stored hkey.mem
      (exchange_mem htarget hkey.mem)
    have hchanges := changesOnly_substituteEntry m id key value (m.besides id held pending rest) h hkey.stored
    rw [substituteEntries_cons]
    rw [← List.singleton_append, ← List.append_assoc] at halone hnodup hfresh hlooks ⊢
    exact ih hm' hnext (by rwa [hchanges.hash_eq]) hnodup hfresh hlooks.2

omit h htarget in
/-- Once all entries were worked on, those that are there are the exchanged ones, as far as objects exist. -/
theorem Halfway.mem_pairs_iff {m : Machine} (hm : m.Tidy K) {entries : List (Value × Value)}
    (hhalf : Halfway source target (m.table id) entries []) (halone : ∀ e ∈ entries, Alone m.hash (K id) e.1)
    {e : Value × Value} (hlasting : Lasting source target entries e) :
    e ∈ (m.table id).pairs ↔ e ∈ entries.map (exchangeEntry source target) := by
  refine ⟨fun he => ?_, fun he => hhalf.there e (by simpa using he)⟩
  obtain ⟨f, hf, rfl | rfl⟩ := hlasting
  · by_cases hsource : e.1 = source
    · exact absurd hsource (hhalf.gone e hf hsource e he)
    · -- the exchanged entry has the same key
      have hnew := hhalf.there (exchangeEntry source target e) (by simpa using ⟨e.1, e.2, hf, rfl⟩)
      have hsame := hm.eq_of_mem_pairs (halone e hf) he hnew (exchange_of_ne hsource)
      exact List.mem_map.mpr ⟨e, hf, hsame⟩
  · exact List.mem_map_of_mem hf

end Entries

section Metatable

/-- A metatable, or what stands in its place if it is `source`. -/
def exchangeMetatable (source target : Value) (metatable : Option TableId) : Option TableId :=
  metatable.bind fun old => (tablesAmong [exchange source target (.table old)]).head?

theorem exchangeMetatable_eq_some {metatable : Option TableId} {t : TableId} :
    exchangeMetatable source target metatable = some t ↔
      ∃ old, metatable = some old ∧ exchange source target (.table old) = .table t := by
  have hhead (v : Value) : (tablesAmong [v]).head? = some t ↔ v = .table t := by
    cases v <;> simp [tablesAmong]
  rw [exchangeMetatable, Option.bind_eq_some_iff]
  exact exists_congr fun old => and_congr_right fun _ => hhead _

variable (m id) (pending : List TableId)

/-- What is in use while a metatable is replaced. -/
def behind (source target : Value) (old : TableId) (pending : List TableId) : Values :=
  .table old :: source :: target :: pending.map .table

/-- How weakly a table holds once `target` is its metatable. -/
def modeUnder (target : Value) (inUse : Values) : WeakMode :=
  match (tablesAmong [target]).head? with
  | some t => if t = id then (m.table id).mode else (m.table t).requestedMode (m.context t inUse)
  | none => (m.table id).mode

/-- The looks at a table while its metatable is replaced. -/
def metatableLooks (source target : Value) : List Look :=
  match (m.table id).metatable with
  | none => []
  | some old =>
    let inUse := behind source target old pending
    if .table old = source then
      [⟨m.modifyTable id fun t => { t with metatable := (tablesAmong [target]).head? }, id,
        .setMode (m.modeUnder id target inUse), inUse⟩]
    else []

variable {m pending}

variable (h : Exchangeable source target)
include h

/-- A metatable is installed where `source` was one; else nothing changes. No entry comes up, and those stay whose
objects exist meanwhile. -/
theorem substituteMetatable_spec (hm : m.Tidy K) (pending : List TableId) :
    let r := m.substituteMetatable id source target pending
    m.ChangesOnly r.1 id ∧ r.1.Tidy K ∧
      (r.1.table id).metatable = exchangeMetatable source target (m.table id).metatable ∧
      r.2.2 = (exchangeMetatable source target (m.table id).metatable).toList ∧
      (∀ e ∈ (r.1.table id).pairs, e ∈ (m.table id).pairs) ∧
      ∀ lasting, (∀ l ∈ m.metatableLooks id pending source target, l.Spares lasting) →
        ∀ e, Alone m.hash (K id) e.1 → lasting e → (e ∈ (r.1.table id).pairs ↔ e ∈ (m.table id).pairs) := by
  unfold substituteMetatable metatableLooks
  cases hmeta : (m.table id).metatable with
  | none => exact ⟨.refl m id, hm, hmeta, rfl, fun _ he => he, fun _ _ _ _ _ => Iff.rfl⟩
  | some old =>
    have hin : id.index < m.tables.size := by
      by_contra hout
      rw [table_of_le (Nat.not_lt.mp hout)] at hmeta
      cases hmeta
    dsimp only
    by_cases hsource : Value.table old = source
    · have hequal : (Value.table old).rawEqual source = true := (rawEqual_iff_of_isObject h.isObject_source).mpr hsource
      have hnew : exchangeMetatable source target (some old) = (tablesAmong [target]).head? := by
        rw [exchangeMetatable, Option.bind_some, hsource, exchange_self]
      rw [if_pos hequal, if_pos hsource, hnew]
      have hchanges := changesOnly_modifyTable m id fun t => { t with metatable := (tablesAmong [target]).head? }
      have hpairs : ((m.modifyTable id fun t => { t with metatable := (tablesAmong [target]).head? }).table id).pairs =
          (m.table id).pairs := by
        rw [table_modifyTable hin]
        rfl
      have hm' := hm.withMetatable id (tablesAmong [target]).head?
      refine ⟨changesOnly_installMetatable _ _ _, hm.installMetatable _ _ _, metatable_installMetatable hin _ _ _, rfl,
        ?_, ?_⟩
      · intro e he
        rw [installMetatable_eq_operateOn] at he
        rcases hm'.of_mem_pairs_operateOn (by simp) he with he | ⟨hwrite, -⟩
        · rwa [hpairs] at he
        · simp at hwrite
      · intro lasting hlooks e halone hlasting
        have hlook := List.forall_mem_singleton.mp hlooks
        rw [← hpairs]
        exact hm'.mem_pairs_setMode (by rwa [hchanges.size]) (by rwa [hchanges.hash_eq]) fun he => hlook e he hlasting
    · have hequal : ¬(Value.table old).rawEqual source = true := fun heq =>
        hsource ((rawEqual_iff_of_isObject h.isObject_source).mp heq)
      have hsame : exchangeMetatable source target (some old) = some old := by
        rw [exchangeMetatable, Option.bind_some, exchange_of_ne hsource]
        rfl
      rw [if_neg hequal, hsame]
      exact ⟨.refl m id, hm, hmeta, rfl, fun _ he => he, fun _ _ _ _ _ => Iff.rfl⟩

end Metatable

section Turn

/-- What an unseen table is held by while its entries are listed: besides what waits, the objects to exchange and its
metatable. -/
def heldBy (m : Machine) (id : TableId) (source target : Value) : Values :=
  source :: target :: (m.table id).metatable.toList.map .table

/-- What is in use when the entries of a table are listed. -/
def listing (m : Machine) (id : TableId) (source target : Value) (pending : List TableId) : Values :=
  m.heldBy id source target ++ if (m.table id).mode.isWeak then pending.map .table else []

/-- One table's turn: the machine after it, the replacements and the tables that wait then. -/
def turn (m : Machine) (id : TableId) (source target : Value) (pending : List TableId) :
    Machine × Nat × List TableId :=
  let entries := m.entries id (m.listing id source target pending)
  let r := substituteEntries id source target (m.heldBy id source target) m 0 pending entries
  let s := r.1.substituteMetatable id source target r.2.2
  (s.1, r.2.1 + s.2.1, s.2.2 ++ r.2.2)

/-- The looks at a table in its turn, once its entries are listed. -/
def turnLooks (m : Machine) (id : TableId) (source target : Value) (pending : List TableId) : List Look :=
  let entries := m.entries id (m.listing id source target pending)
  let r := substituteEntries id source target (m.heldBy id source target) m 0 pending entries
  entriesLooks id source target (m.heldBy id source target) m pending entries ++
    r.1.metatableLooks id r.2.2 source target

/-- A table that has some entries and a metatable with `source` replaced in them, as far as objects exist. -/
structure Exchanged (source target : Value) (entries : List (Value × Value)) (metatable : Option TableId)
    (t : Table) : Prop where
  pairs : ∀ e, Lasting source target entries e → (e ∈ t.pairs ↔ e ∈ entries.map (exchangeEntry source target))
  metatable : t.metatable = exchangeMetatable source target metatable

variable {pending : List TableId} (h : Exchangeable source target) (htarget : target ∈ K id)
include h htarget

/-- A turn changes its table only, and puts no more tables in front than the table has room for and its metatable. -/
theorem turn_frame (hm : m.Tidy K) (pending : List TableId) :
    m.ChangesOnly (m.turn id source target pending).1 id ∧ (m.turn id source target pending).1.Tidy K ∧
      (m.turn id source target pending).2.2.length ≤
        pending.length + (2 * ((m.table id).array.size + (m.table id).part.nodes) + 1) := by
  have hkeys : ∀ e ∈ m.entries id (m.listing id source target pending), e.1 ∈ K id :=
    fun e he => (hm.of_mem_pairs (mem_pairs_of_mem_entries he)).1
  have hroom : (m.entries id (m.listing id source target pending)).length ≤ _ :=
    (hm.wellFormed id).length_entries_le _
  rw [turn]
  generalize m.entries id (m.listing id source target pending) = entries at hkeys hroom ⊢
  obtain ⟨hfirst, hm', -, hpending⟩ :=
    substituteEntries_frame id (m.heldBy id source target) h htarget hm pending hkeys
  dsimp only
  generalize substituteEntries id source target (m.heldBy id source target) m 0 pending entries = r at *
  obtain ⟨hsecond, hm'', -, hnext, -, -⟩ := substituteMetatable_spec id h hm' r.2.2
  refine ⟨hfirst.trans hsecond, hm'', ?_⟩
  have hmeta : (exchangeMetatable source target (r.1.table id).metatable).toList.length ≤ 1 := by
    cases exchangeMetatable source target (r.1.table id).metatable <;> simp
  have htables := length_tablesIn_le source target entries
  rw [hnext, List.length_append, hpending, List.length_append, List.length_reverse]
  omega

/-- A table has its exchanged entries and metatable after its turn, as far as their objects exist meanwhile, and the
tables among them wait. -/
theorem turn_exchanged (hm : m.Tidy K) {entries : List (Value × Value)}
    (hlisted : m.entries id (m.listing id source target pending) = entries)
    (halone : ∀ e ∈ entries, Alone m.hash (K id) e.1) (hfresh : ∀ e ∈ entries, e.1 ≠ target)
    (hlooks : ∀ l ∈ m.turnLooks id source target pending, l.Spares (Lasting source target entries)) :
    Exchanged source target entries (m.table id).metatable ((m.turn id source target pending).1.table id) ∧
      ∀ t, t ∈ (m.turn id source target pending).2.2 ↔ t ∈ pending ∨
        (∃ e ∈ entries, exchange source target e.1 = .table t ∨ exchange source target e.2 = .table t) ∨
        ∃ old, (m.table id).metatable = some old ∧ exchange source target (.table old) = .table t := by
  rw [turnLooks, hlisted, List.forall_mem_append] at hlooks
  obtain ⟨hentries, hmeta⟩ := hlooks
  have hpairs (e : Value × Value) (he : e ∈ entries) : e ∈ (m.table id).pairs :=
    mem_pairs_of_mem_entries (hlisted.symm ▸ he)
  have hnodup : (entries.map (·.1)).Nodup := by
    subst hlisted
    exact (hm.wellFormed id).toSound.nodup_entries halone
  rw [turn, hlisted]
  obtain ⟨hchanges, hm', hsame, hpending⟩ :=
    substituteEntries_frame id (m.heldBy id source target) h htarget hm pending fun e he => (halone e he).mem
  have hstart : Halfway source target (m.table id) [] entries :=
    ⟨fun e he => hpairs e (by simpa using he), fun f hf => absurd hf List.not_mem_nil⟩
  have hhalf := hstart.steps id (m.heldBy id source target) h htarget hm halone hnodup hfresh hentries
  dsimp only
  generalize substituteEntries id source target (m.heldBy id source target) m 0 pending entries = r at *
  obtain ⟨-, -, hnew, hnext, -, hstay⟩ := substituteMetatable_spec id h hm' r.2.2
  rw [hsame] at hnew hnext
  rw [hchanges.hash_eq] at hstay
  refine ⟨⟨fun e hlasting => ?_, hnew⟩, fun t => ?_⟩
  · rw [hstay _ hmeta e (alone_of_lasting h htarget halone hlasting) hlasting]
    exact hhalf.mem_pairs_iff id hm' (by rwa [hchanges.hash_eq]) hlasting
  · rw [hnext, hpending]
    simp only [List.mem_append, List.mem_reverse, mem_tablesIn, Option.mem_toList, exchangeMetatable_eq_some]
    rw [or_comm, or_assoc, or_left_comm]

/-- No entries come up in a turn but the exchanged ones. -/
theorem of_mem_pairs_turn (hm : m.Tidy K) {entries : List (Value × Value)}
    (hlisted : m.entries id (m.listing id source target pending) = entries)
    (halone : ∀ e ∈ entries, Alone m.hash (K id) e.1) {e : Value × Value}
    (he : e ∈ ((m.turn id source target pending).1.table id).pairs) :
    e ∈ (m.table id).pairs ∨ e ∈ entries.map (exchangeEntry source target) := by
  rw [turn, hlisted] at he
  obtain ⟨-, hm', -, -⟩ :=
    substituteEntries_frame id (m.heldBy id source target) h htarget hm pending fun e he => (halone e he).mem
  obtain ⟨-, -, -, -, hstay, -⟩ := substituteMetatable_spec id h hm'
    (substituteEntries id source target (m.heldBy id source target) m 0 pending entries).2.2
  exact of_mem_pairs_substituteEntries id (m.heldBy id source target) h htarget hm halone (hstay e he)

end Turn

end Machine

end LuaMachine
