import LuaMachine.Proofs.Machine.Visits

namespace LuaMachine

open Table Value

namespace Machine

/-- A table refers to another one by a key, a value or its metatable. -/
def Links (m : Machine) (a b : TableId) : Prop := .table b ∈ m.tableReferences a

/-- What is reached from a table through keys, values and metatables. -/
def Reaches (m : Machine) : TableId → TableId → Prop := Relation.ReflTransGen m.Links

/-- What a table refers to once `target` stands for `source`. -/
def WillLink (m : Machine) (source target : Value) (a b : TableId) : Prop :=
  ∃ v ∈ m.tableReferences a, exchange source target v = .table b

/-- The tables that are reached from a table or from what is put in. -/
def Concerns (m : Machine) (root : TableId) (target : Value) (id : TableId) : Prop :=
  m.Reaches root id ∨ ∃ t, target = .table t ∧ m.Reaches t id

section Links

variable {m m' : Machine} {source target v : Value} {root a b id : TableId}

theorem mem_tableReferences : v ∈ m.tableReferences id ↔
    (v.isObject = true ∧ ∃ e ∈ m.entries id [], e.1 = v ∨ e.2 = v) ∨
      ∃ old, (m.table id).metatable = some old ∧ .table old = v := by
  have hentry : (∃ e ∈ m.entries id [], v ∈ Values.objects [e.1, e.2]) ↔
      v.isObject = true ∧ ∃ e ∈ m.entries id [], e.1 = v ∨ e.2 = v := by
    simp only [Values.objects, List.mem_filter, List.mem_cons, List.not_mem_nil, or_false]
    constructor
    · rintro ⟨e, he, hv, hobject⟩
      exact ⟨hobject, e, he, hv.imp Eq.symm Eq.symm⟩
    · rintro ⟨hobject, e, he, hv⟩
      exact ⟨e, he, hv.imp Eq.symm Eq.symm, hobject⟩
  simp only [tableReferences, List.mem_append, List.mem_flatMap, hentry, List.mem_map, Option.mem_toList]

theorem links_iff : m.Links a b ↔
    (∃ e ∈ m.entries a [], e.1 = .table b ∨ e.2 = .table b) ∨ (m.table a).metatable = some b := by
  rw [Links, mem_tableReferences]
  simp [isObject, ref?]

theorem willLink_iff (h : Exchangeable source target) : m.WillLink source target a b ↔
    (∃ e ∈ m.entries a [], exchange source target e.1 = .table b ∨ exchange source target e.2 = .table b) ∨
      ∃ old, (m.table a).metatable = some old ∧ exchange source target (.table old) = .table b := by
  have hobject {v : Value} (hv : exchange source target v = .table b) : v.isObject = true := by
    by_cases hsource : v = source
    · exact hsource ▸ h.isObject_source
    · rw [exchange_of_ne hsource] at hv
      exact hv ▸ rfl
  simp only [WillLink, mem_tableReferences]
  constructor
  · rintro ⟨v, ⟨-, e, he, rfl | rfl⟩ | ⟨old, hold, rfl⟩, hv⟩
    · exact .inl ⟨e, he, .inl hv⟩
    · exact .inl ⟨e, he, .inr hv⟩
    · exact .inr ⟨old, hold, hv⟩
  · rintro (⟨e, he, hv | hv⟩ | ⟨old, hold, hv⟩)
    · exact ⟨e.1, .inl ⟨hobject hv, e, he, .inl rfl⟩, hv⟩
    · exact ⟨e.2, .inl ⟨hobject hv, e, he, .inr rfl⟩, hv⟩
    · exact ⟨.table old, .inr ⟨old, hold, rfl⟩, hv⟩

/-- A table whose entries and metatable are exchanged refers to what the old one leads to. -/
theorem links_iff_willLink (h : Exchangeable source target)
    (hentries : ∀ e, e ∈ m'.entries a [] ↔ e ∈ (m.entries a []).map (exchangeEntry source target))
    (hmeta : (m'.table a).metatable = exchangeMetatable source target (m.table a).metatable) :
    m'.Links a b ↔ m.WillLink source target a b := by
  rw [links_iff, willLink_iff h, hmeta, exchangeMetatable_eq_some]
  simp only [hentries, List.mem_map, exists_exists_and_eq_and, exchangeEntry]

/-- What is reached afterwards was reached before, or from what is put in. -/
theorem concerns_of_willLink (hreach : Relation.ReflTransGen (m.WillLink source target) root id) :
    m.Concerns root target id := by
  induction hreach with
  | refl => exact .inl .refl
  | tail _ hstep ih =>
    obtain ⟨v, hv, heq⟩ := hstep
    by_cases hsource : v = source
    · rw [hsource, exchange_self] at heq
      exact .inr ⟨_, heq, .refl⟩
    · rw [exchange_of_ne hsource] at heq
      have hlink := heq ▸ hv
      exact ih.imp (·.tail hlink) fun ⟨t, ht, hreach⟩ => ⟨t, ht, hreach.tail hlink⟩

end Links

section Bound

/-- How many tables may come up in the turn of one table, itself included. -/
def room (m : Machine) (id : TableId) : Nat := 2 * ((m.table id).array.size + (m.table id).part.nodes) + 1

/-- How many tables may come up in the turns of tables that were not seen. -/
def roomLeft (m : Machine) (seen : List TableId) : Nat :=
  ∑ i ∈ (Finset.range m.tables.size).filter fun i => (⟨i⟩ : TableId) ∉ seen, m.room ⟨i⟩

theorem substitutionBound_eq (m : Machine) : m.substitutionBound = m.roomLeft [] + 2 := by
  have hfold (ts : List Table) (n : Nat) :
      ts.foldl (fun n t => n + 2 * (t.array.size + t.part.nodes) + 1) n =
        (ts.map fun t => 2 * (t.array.size + t.part.nodes) + 1).sum + n := by
    induction ts generalizing n with
    | nil => simp
    | cons t ts ih =>
      rw [List.foldl_cons, ih, List.map_cons, List.sum_cons]
      omega
  have htables : m.tables.toList.map (fun t => 2 * (t.array.size + t.part.nodes) + 1) =
      (List.range m.tables.size).map fun i => m.room ⟨i⟩ :=
    List.ext_getElem (by simp) fun i hi _ => by
      have hsize : i < m.tables.size := by simpa using hi
      simp [room, table, hsize]
  rw [substitutionBound, ← Array.foldl_toList, hfold, htables, roomLeft, ← List.sum_toFinset _ List.nodup_range,
    List.toFinset_range]
  simp

variable {m m' : Machine} {K : TableId → Set Value} {source target : Value} {id : TableId}
  {pending seen : List TableId}

/-- The turn of a table that is not there changes nothing. -/
theorem turn_of_le (hout : m.tables.size ≤ id.index) (pending : List TableId) :
    m.turn id source target pending = (m, 0, pending) := by
  rw [turn, entries_of_le hout]
  simp [substituteEntries, substituteMetatable, table_of_le hout, Table.new]

/-- A turn uses up the room of its table. -/
theorem roomLeft_turn (h : Exchangeable source target) (htarget : ∀ id, target ∈ K id) (hm : m.Tidy K)
    (hnew : id ∉ seen) (pending : List TableId) :
    (m.turn id source target pending).1.roomLeft (id :: seen) + (m.turn id source target pending).2.2.length ≤
      m.roomLeft seen + pending.length := by
  by_cases hin : id.index < m.tables.size
  · obtain ⟨hchanges, -, hlength⟩ := turn_frame h (htarget id) hm pending
    generalize m.turn id source target pending = r at *
    have hrest : (Finset.range r.1.tables.size).filter (fun i => (⟨i⟩ : TableId) ∉ id :: seen) =
        ((Finset.range m.tables.size).filter fun i => (⟨i⟩ : TableId) ∉ seen).erase id.index := by
      ext i
      have hindex : (⟨i⟩ : TableId) = id ↔ i = id.index := by
        cases id
        simp
      simp only [hchanges.size, Finset.mem_filter, Finset.mem_erase, List.mem_cons, not_or, hindex]
      tauto
    have hsame : r.1.roomLeft (id :: seen) =
        ∑ i ∈ ((Finset.range m.tables.size).filter fun i => (⟨i⟩ : TableId) ∉ seen).erase id.index, m.room ⟨i⟩ := by
      rw [roomLeft, hrest]
      refine Finset.sum_congr rfl fun i hi => ?_
      have hne : (⟨i⟩ : TableId) ≠ id := fun heq => (Finset.mem_erase.mp hi).1 (heq ▸ rfl)
      rw [room, room, hchanges.others _ hne]
    have hself : id.index ∈ (Finset.range m.tables.size).filter fun i => (⟨i⟩ : TableId) ∉ seen :=
      Finset.mem_filter.mpr ⟨Finset.mem_range.mpr hin, hnew⟩
    have hsum := Finset.add_sum_erase _ (fun i => m.room ⟨i⟩) hself
    change m.room id + _ = m.roomLeft seen at hsum
    rw [room] at hsum
    omega
  · rw [turn_of_le (Nat.not_lt.mp hin)]
    refine Nat.add_le_add_right (Finset.sum_le_sum_of_subset fun i hi => ?_) _
    simp only [Finset.mem_filter, List.mem_cons, not_or] at hi ⊢
    exact ⟨hi.1, hi.2.2⟩

/-- With enough steps for the room that is left, the work ends, and more steps change nothing. -/
theorem substituteFrom_eq_of_le (h : Exchangeable source target) (htarget : ∀ id, target ∈ K id) (hm : m.Tidy K)
    {fuel more : Nat} {count : Nat} (hfuel : m.roomLeft seen + pending.length ≤ fuel) (hle : fuel ≤ more) :
    substituteFrom source target more m pending seen count =
      substituteFrom source target fuel m pending seen count := by
  induction fuel generalizing more m pending seen count with
  | zero =>
    obtain rfl : pending = [] := List.eq_nil_of_length_eq_zero (by omega)
    cases more <;> rfl
  | succ fuel ih =>
    obtain ⟨more, rfl⟩ : ∃ k, more = k + 1 := ⟨more - 1, by omega⟩
    cases pending with
    | nil => rfl
    | cons id pending =>
      rw [List.length_cons] at hfuel
      rw [substituteFrom_cons, substituteFrom_cons]
      split
      · exact ih hm (by omega) (by omega)
      · rename_i hnew
        have hroom := roomLeft_turn h htarget hm hnew pending
        exact ih (turn_frame h (htarget id) hm pending).2.1 (by omega) (by omega)

end Bound

/-- What a table held when a substitution began, and what stands in its place. -/
def Lasts (before : Machine) (source target : Value) (id : TableId) : Value × Value → Prop :=
  Lasting source target (before.entries id [])

/-- What tables hold weakly neither dies nor comes back during a substitution: in its turn, a table still has the
entries that it had before, and their objects exist whenever it asks for them; and once all is done, the tables that
are reached have lost none of these entries, and those that had vanished before are still gone. -/
structure Undisturbed (m : Machine) (root : TableId) (source target : Value) : Prop where
  listed : ∀ v ∈ visits source target m root, ∀ e, e ∈ v.entries source target ↔ e ∈ m.entries v.id []
  kept : ∀ v ∈ visits source target m root, ∀ l ∈ v.looks source target, l.Spares (m.Lasts source target v.id)
  lasting : ∀ id, (m.substitute root source target).1.Reaches root id →
    ∀ e ∈ ((m.substitute root source target).1.table id).pairs, m.Lasts source target id e →
      e ∈ (m.substitute root source target).1.entries id []
  gone : ∀ id, (m.substitute root source target).1.Reaches root id → ∀ e ∈ (m.table id).pairs,
    e ∉ m.entries id [] → e ∉ (m.substitute root source target).1.entries id []

/-- A moment of a substitution in a machine: the tables that were seen have their exchanged entries and metatables, as
far as objects exist, and the others are as they were. What was seen or waits is reached, and covers all that a seen
table leads to. -/
structure Progress (before : Machine) (K : TableId → Set Value) (root : TableId) (source target : Value) (m : Machine)
    (pending seen : List TableId) : Prop where
  rest : m = { before with tables := m.tables }
  tidy : m.Tidy K
  done : ∀ id ∈ seen, Exchanged source target (before.entries id []) (before.table id).metatable (m.table id)
  added : ∀ id ∈ seen, ∀ e ∈ (m.table id).pairs,
    e ∈ (before.table id).pairs ∨ e ∈ (before.entries id []).map (exchangeEntry source target)
  todo : ∀ id, id ∉ seen → m.table id = before.table id
  reached : ∀ id, id ∈ seen ∨ id ∈ pending → Relation.ReflTransGen (before.WillLink source target) root id
  covered : ∀ id ∈ seen, ∀ next, before.WillLink source target id next → next ∈ seen ∨ next ∈ pending
  root_covered : root ∈ seen ∨ root ∈ pending

namespace Progress

variable {before m : Machine} {K : TableId → Set Value} {root id : TableId} {source target : Value}
  {pending seen : List TableId}

theorem start (hbefore : before.Tidy K) : Progress before K root source target before [root] [] where
  rest := rfl
  tidy := hbefore
  done := by simp
  added := by simp
  todo := fun _ _ => rfl
  reached := by
    rintro id (hid | hid)
    · cases hid
    · rw [List.mem_singleton.mp hid]
  covered := by simp
  root_covered := .inr List.mem_cons_self

/-- A table that was seen need not wait. -/
theorem skip (hp : Progress before K root source target m (id :: pending) seen) (hseen : id ∈ seen) :
    Progress before K root source target m pending seen := by
  have hcovered {t : TableId} (ht : t ∈ seen ∨ t ∈ id :: pending) : t ∈ seen ∨ t ∈ pending := by
    rcases ht with ht | ht
    · exact .inl ht
    · obtain rfl | ht := List.mem_cons.mp ht
      · exact .inl hseen
      · exact .inr ht
  exact { hp with
    reached := fun t ht => hp.reached t (ht.imp_right (List.mem_cons_of_mem _))
    covered := fun t ht next hnext => hcovered (hp.covered t ht next hnext)
    root_covered := hcovered hp.root_covered }

theorem hash_eq (hp : Progress before K root source target m pending seen) : m.hash = before.hash := by
  rw [hp.rest]

/-- A table that is as it was, and that has its turn: it comes to have its exchanged entries and metatable, as far as
objects exist, and what it will link waits behind it. -/
theorem turn_of_listed (h : Exchangeable source target) (htarget : target ∈ K id) (hm : m.Tidy K)
    (hhash : m.hash = before.hash) (hsame : m.table id = before.table id)
    (halone : ∀ e ∈ before.entries id [], Alone before.hash (K id) e.1)
    (hfresh : ∀ e ∈ before.entries id [], e.1 ≠ target)
    (hlisted : ∀ e, e ∈ m.entries id (m.listing id source target pending) ↔ e ∈ before.entries id [])
    (hlooks : ∀ l ∈ m.turnLooks id source target pending, l.Spares (before.Lasts source target id)) :
    Exchanged source target (before.entries id []) (before.table id).metatable
        ((m.turn id source target pending).1.table id) ∧
      (∀ e ∈ ((m.turn id source target pending).1.table id).pairs,
        e ∈ (before.table id).pairs ∨ e ∈ (before.entries id []).map (exchangeEntry source target)) ∧
      ∀ t, t ∈ (m.turn id source target pending).2.2 ↔ t ∈ pending ∨ before.WillLink source target id t := by
  have hlasts : before.Lasts source target id =
      Lasting source target (m.entries id (m.listing id source target pending)) := by
    funext e
    simp only [Lasts, Lasting, hlisted]
  have halone' : ∀ e ∈ m.entries id (m.listing id source target pending), Alone m.hash (K id) e.1 := by
    rw [hhash]
    exact fun e he => halone e ((hlisted e).mp he)
  obtain ⟨hexchanged, hpending⟩ := turn_exchanged h htarget hm rfl halone'
    (fun e he => hfresh e ((hlisted e).mp he)) (hlasts ▸ hlooks)
  rw [hsame] at hexchanged hpending
  refine ⟨⟨fun e he => ?_, hexchanged.metatable⟩, fun e he => ?_, fun t => ?_⟩
  · rw [hexchanged.pairs e (by rwa [← hlasts])]
    simp only [List.mem_map, hlisted]
  · have hcame := of_mem_pairs_turn h htarget hm rfl halone' he
    rw [hsame] at hcame
    simpa only [List.mem_map, hlisted] using hcame
  · rw [hpending, willLink_iff h]
    simp only [hlisted]

/-- A table that was not seen has its turn. -/
theorem turn (h : Exchangeable source target) (htarget : target ∈ K id)
    (hp : Progress before K root source target m (id :: pending) seen) (hnew : id ∉ seen)
    (halone : ∀ e ∈ before.entries id [], Alone before.hash (K id) e.1)
    (hfresh : ∀ e ∈ before.entries id [], e.1 ≠ target)
    (hlisted : ∀ e, e ∈ m.entries id (m.listing id source target pending) ↔ e ∈ before.entries id [])
    (hlooks : ∀ l ∈ m.turnLooks id source target pending, l.Spares (before.Lasts source target id)) :
    Progress before K root source target (m.turn id source target pending).1 (m.turn id source target pending).2.2
      (id :: seen) := by
  obtain ⟨hchanges, hm, -⟩ := turn_frame h htarget hp.tidy pending
  obtain ⟨hexchanged, hadded, hwaits⟩ :=
    turn_of_listed h htarget hp.tidy hp.hash_eq (hp.todo id hnew) halone hfresh hlisted hlooks
  have hcovered {t : TableId} (ht : t ∈ seen ∨ t ∈ id :: pending) :
      t ∈ id :: seen ∨ t ∈ (m.turn id source target pending).2.2 := by
    rcases ht with ht | ht
    · exact .inl (List.mem_cons_of_mem _ ht)
    · obtain rfl | ht := List.mem_cons.mp ht
      · exact .inl List.mem_cons_self
      · exact .inr ((hwaits t).mpr (.inl ht))
  have hself := hp.reached id (.inr List.mem_cons_self)
  refine ⟨?_, hm, ?_, ?_, ?_, ?_, ?_, hcovered hp.root_covered⟩
  · refine hchanges.rest.trans ?_
    generalize (m.turn id source target pending).1.tables = tables
    rw [hp.rest]
  · intro t ht
    by_cases heq : t = id
    · subst heq
      exact hexchanged
    · rw [hchanges.others t heq]
      exact hp.done t ((List.mem_cons.mp ht).resolve_left heq)
  · intro t ht
    by_cases heq : t = id
    · subst heq
      exact hadded
    · rw [hchanges.others t heq]
      exact hp.added t ((List.mem_cons.mp ht).resolve_left heq)
  · intro t ht
    rw [List.mem_cons, not_or] at ht
    rw [hchanges.others t ht.1, hp.todo t ht.2]
  · rintro t (ht | ht)
    · obtain rfl | ht := List.mem_cons.mp ht
      · exact hself
      · exact hp.reached t (.inl ht)
    · rcases (hwaits t).mp ht with ht | ht
      · exact hp.reached t (.inr (List.mem_cons_of_mem _ ht))
      · exact hself.tail ht
  · intro t ht next hnext
    obtain rfl | ht := List.mem_cons.mp ht
    · exact .inr ((hwaits next).mpr (.inr hnext))
    · exact hcovered (hp.covered t ht next hnext)

/-- What is reached once nothing waits is what was seen. -/
theorem mem_seen_iff (hp : Progress before K root source target m [] seen) :
    id ∈ seen ↔ Relation.ReflTransGen (before.WillLink source target) root id := by
  refine ⟨fun hid => hp.reached id (.inl hid), fun hreach => ?_⟩
  induction hreach with
  | refl => simpa using hp.root_covered
  | tail _ hstep ih => simpa using hp.covered _ ih _ hstep

end Progress

/-- The work goes on until nothing waits. -/
theorem progress_substituteFrom {before m : Machine} {K : TableId → Set Value} {root : TableId}
    {source target : Value} {pending seen : List TableId} (h : Exchangeable source target)
    (htarget : ∀ id, target ∈ K id)
    (halone : ∀ id, before.Concerns root target id → ∀ e ∈ before.entries id [], Alone before.hash (K id) e.1)
    (hfresh : ∀ id, before.Concerns root target id → ∀ e ∈ before.entries id [], e.1 ≠ target) {fuel : Nat}
    (count : Nat) (hp : Progress before K root source target m pending seen)
    (hfuel : m.roomLeft seen + pending.length ≤ fuel)
    (hlisted : ∀ v ∈ visitsFrom source target fuel m pending seen,
      ∀ e, e ∈ v.entries source target ↔ e ∈ before.entries v.id [])
    (hlooks : ∀ v ∈ visitsFrom source target fuel m pending seen,
      ∀ l ∈ v.looks source target, l.Spares (before.Lasts source target v.id)) :
    ∃ all, Progress before K root source target (substituteFrom source target fuel m pending seen count).1 [] all := by
  induction fuel generalizing m pending seen count with
  | zero =>
    obtain rfl : pending = [] := List.eq_nil_of_length_eq_zero (by omega)
    exact ⟨seen, hp⟩
  | succ fuel ih =>
    cases pending with
    | nil => exact ⟨seen, hp⟩
    | cons id pending =>
      rw [List.length_cons] at hfuel
      rw [substituteFrom_cons]
      rw [visitsFrom_cons] at hlisted hlooks
      split
      · rename_i hseen
        rw [if_pos hseen] at hlisted hlooks
        exact ih count (hp.skip hseen) (by omega) hlisted hlooks
      · rename_i hnew
        rw [if_neg hnew, List.forall_mem_cons] at hlisted hlooks
        have hroom := roomLeft_turn h htarget hp.tidy hnew pending
        have hconcerns := concerns_of_willLink (hp.reached id (.inr List.mem_cons_self))
        exact ih _ (hp.turn h (htarget id) hnew (halone id hconcerns) (hfresh id hconcerns) hlisted.1 hlooks.1)
          (by omega) hlisted.2 hlooks.2

section Result

variable {m : Machine} {K : TableId → Set Value} {root : TableId} {source target : Value}

/-- The work ends with some tables seen, which are those that are reached afterwards, and these show their exchanged
entries. -/
theorem exists_progress_substitute (hm : m.Tidy K) (h : Exchangeable source target) (htarget : ∀ id, target ∈ K id)
    (halone : ∀ id, m.Concerns root target id → ∀ e ∈ m.entries id [], Alone m.hash (K id) e.1)
    (hfresh : ∀ id, m.Concerns root target id → ∀ e ∈ m.entries id [], e.1 ≠ target)
    (hlive : m.Undisturbed root source target) :
    ∃ all, Progress m K root source target (m.substitute root source target).1 [] all ∧
      (∀ id, (m.substitute root source target).1.Reaches root id ↔ id ∈ all) ∧
      ∀ id ∈ all, ∀ e, e ∈ (m.substitute root source target).1.entries id [] ↔
        e ∈ (m.entries id []).map (exchangeEntry source target) := by
  obtain ⟨all, hp⟩ := progress_substituteFrom h htarget halone hfresh 0 (.start hm)
    (by rw [substitutionBound_eq, List.length_singleton]; omega) hlive.listed hlive.kept
  have hshown {id : TableId} (hid : id ∈ all) (hreached : (m.substitute root source target).1.Reaches root id)
      (e : Value × Value) : e ∈ (m.substitute root source target).1.entries id [] ↔
        e ∈ (m.entries id []).map (exchangeEntry source target) := by
    constructor
    · intro he
      have hpair := mem_pairs_of_mem_entries he
      rcases hp.added id hid e hpair with hold | hnew
      · have hshown : e ∈ m.entries id [] := by
          by_contra hgone
          exact hlive.gone id hreached e hold hgone he
        exact ((hp.done id hid).pairs e ⟨e, hshown, .inl rfl⟩).mp hpair
      · exact hnew
    · intro he
      obtain ⟨f, hf, rfl⟩ := List.mem_map.mp he
      have hlasts : m.Lasts source target id (exchangeEntry source target f) := ⟨f, hf, .inr rfl⟩
      exact hlive.lasting id hreached _ (((hp.done id hid).pairs _ hlasts).mpr he) hlasts
  have hlinks {a b : TableId} (ha : a ∈ all) (hreached : (m.substitute root source target).1.Reaches root a) :
      (m.substitute root source target).1.Links a b ↔ m.WillLink source target a b :=
    links_iff_willLink h (hshown ha hreached) (hp.done a ha).metatable
  have hall (id : TableId) : (m.substitute root source target).1.Reaches root id ↔ id ∈ all := by
    constructor
    · intro hreach
      induction hreach with
      | refl => exact hp.mem_seen_iff.mpr .refl
      | tail hprevious hstep ih =>
        exact hp.mem_seen_iff.mpr ((hp.mem_seen_iff.mp ih).tail ((hlinks ih hprevious).mp hstep))
    · intro hid
      have hreach := hp.mem_seen_iff.mp hid
      clear hid
      induction hreach with
      | refl => exact .refl
      | tail hprevious hstep ih => exact ih.tail ((hlinks (hp.mem_seen_iff.mpr hprevious) ih).mpr hstep)
  exact ⟨all, hp, hall, fun id hid => hshown hid ((hall id).mpr hid)⟩

/-- Exchanging keeps the entries of a table apart. -/
theorem nodup_map_exchangeEntry {entries : List (Value × Value)} (hnodup : (entries.map (·.1)).Nodup)
    (hfresh : ∀ e ∈ entries, e.1 ≠ target) : ((entries.map (exchangeEntry source target)).map (·.1)).Nodup := by
  rw [List.map_map]
  refine (List.Nodup.of_map _ hnodup).map_on fun e he f hf heq => List.inj_on_of_nodup_map hnodup he hf ?_
  by_contra hne
  exact exchange_ne_exchange hne (hfresh e he) (hfresh f hf) heq

/-- A table with exchanged entries and metatable does not refer to the object that was replaced. -/
theorem not_mem_tableReferences {after : Machine} {id : TableId} (hne : source ≠ target)
    (hentries : ∀ e, e ∈ after.entries id [] ↔ e ∈ (m.entries id []).map (exchangeEntry source target))
    (hmeta : (after.table id).metatable = exchangeMetatable source target (m.table id).metatable) :
    source ∉ after.tableReferences id := by
  rw [mem_tableReferences, hmeta]
  rintro (⟨-, e, he, hsource⟩ | ⟨t, ht, hsource⟩)
  · obtain ⟨f, -, rfl⟩ := List.mem_map.mp ((hentries e).mp he)
    exact hsource.elim (exchange_ne_source hne _) (exchange_ne_source hne _)
  · obtain ⟨old, -, hold⟩ := exchangeMetatable_eq_some.mp ht
    exact exchange_ne_source hne _ (hold.trans hsource)

/-- What shows the exchanged entries shows each of them once. -/
theorem entries_perm {after : Machine} {id : TableId} (h : Exchangeable source target) (htarget : target ∈ K id)
    (hm : m.Tidy K) (hafter : after.Tidy K) (hhash : after.hash = m.hash)
    (halone : ∀ e ∈ m.entries id [], Alone m.hash (K id) e.1) (hfresh : ∀ e ∈ m.entries id [], e.1 ≠ target)
    (hentries : ∀ e, e ∈ after.entries id [] ↔ e ∈ (m.entries id []).map (exchangeEntry source target)) :
    (after.entries id []).Perm ((m.entries id []).map (exchangeEntry source target)) := by
  have hkeys : ((m.entries id []).map (·.1)).Nodup := (hm.wellFormed id).toSound.nodup_entries halone
  have hnew : ((after.entries id []).map (·.1)).Nodup := by
    refine (hafter.wellFormed id).toSound.nodup_entries fun e he => ?_
    obtain ⟨f, hf, rfl⟩ := List.mem_map.mp ((hentries e).mp he)
    rw [hhash]
    exact alone_exchange h htarget (halone f hf)
  exact (List.perm_ext_iff_of_nodup (.of_map _ hnew)
    (.of_map _ (nodup_map_exchangeEntry hkeys hfresh))).mpr hentries

/-- **Substituting an object is complete and touches nothing else.** It ends, and changes tables only. No table that is
reached afterwards refers to the object that was replaced; each of them has its old entries and its old metatable with
the new object in the place of the old one, or no metatable if the new one is no table; and all other tables are as
they were. No table that matters may have the new object as a key before, nor a key that another one is taken for; and
what such tables hold weakly may not die meanwhile or come back. -/
theorem substitute_exact (hm : m.Tidy K) (h : Exchangeable source target)
    (halone : ∀ id, m.Concerns root target id → ∀ e ∈ m.entries id [], Alone m.hash (K id) e.1)
    (hfresh : ∀ id, m.Concerns root target id → ∀ e ∈ m.entries id [], e.1 ≠ target)
    (hlive : m.Undisturbed root source target) :
    let after := (m.substitute root source target).1
    (∀ fuel, m.substitutionBound ≤ fuel →
      substituteFrom source target fuel m [root] [] 0 = m.substitute root source target) ∧
    after = { m with tables := after.tables } ∧
    (∀ id, after.Reaches root id → source ∉ after.tableReferences id ∧
      (after.entries id []).Perm ((m.entries id []).map (exchangeEntry source target)) ∧
      (after.table id).metatable = exchangeMetatable source target (m.table id).metatable) ∧
    ∀ id, ¬after.Reaches root id → after.table id = m.table id := by
  intro after
  have hm' := hm.insert (isStored_of_isObject h.isObject_target)
  have htarget (id : TableId) : target ∈ Set.insert target (K id) := Set.mem_insert target (K id)
  have halone' (id : TableId) (hid : m.Concerns root target id) :
      ∀ e ∈ m.entries id [], Alone m.hash (Set.insert target (K id)) e.1 :=
    fun e he => alone_insert h (halone id hid e he) (hfresh id hid e he)
  obtain ⟨all, hp, hall, hshown⟩ := exists_progress_substitute hm' h htarget halone' hfresh hlive
  refine ⟨fun fuel hfuel => ?_, hp.rest, fun id hreached => ?_, fun id hnot => hp.todo id (mt (hall id).mpr hnot)⟩
  · exact substituteFrom_eq_of_le h htarget hm' (by rw [substitutionBound_eq, List.length_singleton]; omega) hfuel
  · have hid := (hall id).mp hreached
    have hconcerns := concerns_of_willLink (hp.mem_seen_iff.mp hid)
    have hmeta := (hp.done id hid).metatable
    refine ⟨not_mem_tableReferences h.ne (hshown id hid) hmeta, ?_, hmeta⟩
    exact entries_perm h (htarget id) hm' hp.tidy hp.hash_eq (halone' id hconcerns) (hfresh id hconcerns)
      (hshown id hid)

end Result

section Check

variable {m : Machine} {root : TableId} {source target : Value}

instance (entries : List (Value × Value)) : DecidablePred (Lasting source target entries) :=
  fun e => inferInstanceAs (Decidable (∃ f ∈ entries, e = f ∨ e = exchangeEntry source target f))

instance (id : TableId) : DecidablePred (m.Lasts source target id) :=
  inferInstanceAs (DecidablePred (Lasting source target (m.entries id [])))

instance (l : Look) (lasting : Value × Value → Prop) [DecidablePred lasting] : Decidable (l.Spares lasting) :=
  inferInstanceAs (Decidable (∀ e ∈ (l.machine.table l.id).pairs, lasting e →
    ∀ c ∈ l.machine.moments l.id l.op l.inUse, c.Keeps e))

/-- Whether something dies or comes back shows in the tables that are there. -/
theorem undisturbed_of_forall
    (hlisted : ∀ v ∈ visits source target m root, v.entries source target = m.entries v.id [])
    (hkept : ∀ v ∈ visits source target m root, ∀ l ∈ v.looks source target, l.Spares (m.Lasts source target v.id))
    (hlasting : ∀ i : Fin (m.substitute root source target).1.tables.size,
      ∀ e ∈ ((m.substitute root source target).1.table ⟨i⟩).pairs, m.Lasts source target ⟨i⟩ e →
        e ∈ (m.substitute root source target).1.entries ⟨i⟩ [])
    (hgone : ∀ i : Fin m.tables.size, ∀ e ∈ (m.table ⟨i⟩).pairs, e ∉ m.entries ⟨i⟩ [] →
      e ∉ (m.substitute root source target).1.entries ⟨i⟩ []) : m.Undisturbed root source target where
  listed v hv e := by rw [hlisted v hv]
  kept := hkept
  lasting id _ e he := hlasting ⟨id.index, index_lt_of_mem_pairs he⟩ e he
  gone id _ e he := hgone ⟨id.index, index_lt_of_mem_pairs he⟩ e he

/-- New tables are well formed after any changes, whatever vanishes meanwhile. -/
theorem wellFormed_changed_new (hash : Value → UInt64) (arraySize hashSize : Nat) {changes : List (Context × Change)}
    (hhash : ∀ call ∈ changes, call.1.hash = hash) :
    ((Table.new arraySize hashSize).changed changes).WellFormed hash {key | IsStored key} :=
  (wellFormed_new _ _ arraySize hashSize).changed hhash fun _ => isStored_of_mem_keysWritten

/-- No other key is taken for those that are no numbers. -/
theorem Tidy.alone_of_forall {K : TableId → Set Value} (hm : m.Tidy K)
    (hnumber : ∀ i : Fin m.tables.size, ∀ e ∈ (m.table ⟨i⟩).pairs, e.1.isNumber = false) (id : TableId) :
    ∀ e ∈ m.entries id [], Alone m.hash (K id) e.1 := by
  intro e he
  have hpair := mem_pairs_of_mem_entries he
  obtain ⟨hkey, hstored, -⟩ := hm.of_mem_pairs hpair
  exact alone_of_not_number hkey hstored (hnumber ⟨id.index, index_lt_of_mem_pairs hpair⟩ e hpair)

/-- A key that no table has is new to all of them. -/
theorem ne_of_forall (hfresh : ∀ i : Fin m.tables.size, ∀ e ∈ (m.table ⟨i⟩).pairs, e.1 ≠ target) (id : TableId) :
    ∀ e ∈ m.entries id [], e.1 ≠ target := by
  intro e he
  have hpair := mem_pairs_of_mem_entries he
  exact hfresh ⟨id.index, index_lt_of_mem_pairs hpair⟩ e hpair

end Check

section Network

/-- A table that is its own metatable and refers to the second table by a key and a value, and to the fifth one, which
holds the second table weakly and a sixth one that is gone; the third one, whose metatable is the second one; and one
that is apart. -/
def network : Machine where
  tables :=
    let call (op : Op) : Context × Change := (.strong Value.hashCode, .operate op)
    #[(Table.new 0 4).changed [call (.setStr "old" (.table ⟨1⟩)), call (.set (.table ⟨1⟩) (.bool true)),
        call (.setStr "memo" (.table ⟨4⟩)), (.strong Value.hashCode, .setMetatable (some ⟨0⟩) .strong)],
      (Table.new 0 1).changed [call (.setStr "back" (.table ⟨0⟩))],
      (Table.new 0 1).changed [call (.setStr "back" (.table ⟨0⟩)),
        (.strong Value.hashCode, .setMetatable (some ⟨1⟩) .strong)],
      (Table.new 0 1).changed [call (.setStr "old" (.table ⟨1⟩))],
      (Table.new 0 2).changed [call (.setMode ⟨false, true⟩), call (.setStr "k" (.table ⟨1⟩)),
        call (.setStr "gone" (.table ⟨5⟩))],
      Table.new 0 0]
  globals := ⟨0⟩
  registry := ⟨3⟩

theorem tidy_network : network.Tidy fun _ => {key | IsStored key} := by
  refine tidy_of_forall (fun _ => id) ?_
  simp only [network, List.mem_toArray, List.forall_mem_cons, List.not_mem_nil, false_implies, implies_true, and_true]
  refine ⟨?_, ?_, ?_, ?_, ?_, wellFormed_new _ _ 0 0⟩ <;>
    exact wellFormed_changed_new Value.hashCode _ _ (by simp [Context.strong])

theorem undisturbed_network : network.Undisturbed ⟨0⟩ (.table ⟨1⟩) (.table ⟨2⟩) :=
  undisturbed_of_forall (by decide +kernel) (by decide +kernel) (by decide +kernel) (by decide +kernel)

/-- The third table takes the place of the second one in the first, in the one that holds it weakly, and as its own
metatable. What is gone stays so, and the table that is apart still refers to the second one. -/
theorem substitute_exact_network :
    (network.Tidy (fun _ => {key | IsStored key}) ∧ Exchangeable (.table ⟨1⟩) (.table ⟨2⟩) ∧
      (∀ id, network.Concerns ⟨0⟩ (.table ⟨2⟩) id → ∀ e ∈ network.entries id [],
        Alone network.hash {key | IsStored key} e.1) ∧
      (∀ id, network.Concerns ⟨0⟩ (.table ⟨2⟩) id → ∀ e ∈ network.entries id [], e.1 ≠ .table ⟨2⟩) ∧
      network.Undisturbed ⟨0⟩ (.table ⟨1⟩) (.table ⟨2⟩)) ∧
    let after := (network.substitute ⟨0⟩ (.table ⟨1⟩) (.table ⟨2⟩)).1
    .table ⟨1⟩ ∉ after.tableReferences ⟨0⟩ ∧ (after.table ⟨2⟩).metatable = some ⟨2⟩ ∧
      (after.entries ⟨4⟩ []).Perm [(.str "k", .table ⟨2⟩)] ∧ after.table ⟨3⟩ = network.table ⟨3⟩ := by
  have h : Exchangeable (.table ⟨1⟩) (.table ⟨2⟩) := ⟨rfl, rfl, by decide⟩
  have halone := tidy_network.alone_of_forall (by decide +kernel)
  have hfresh : ∀ id, ∀ e ∈ network.entries id [], e.1 ≠ .table ⟨2⟩ := ne_of_forall (by decide +kernel)
  obtain ⟨-, -, hreached, hapart⟩ := substitute_exact tidy_network h (fun id _ => halone id) (fun id _ => hfresh id)
    undisturbed_network
  refine ⟨⟨tidy_network, h, fun id _ => halone id, fun id _ => hfresh id, undisturbed_network⟩,
    (hreached ⟨0⟩ .refl).1, ?_, ?_, ?_⟩
  · have hlink : (network.substitute ⟨0⟩ (.table ⟨1⟩) (.table ⟨2⟩)).1.Links ⟨0⟩ ⟨2⟩ := by
      unfold Links
      decide +kernel
    rw [(hreached ⟨2⟩ (.single hlink)).2.2]
    decide +kernel
  · have hlink : (network.substitute ⟨0⟩ (.table ⟨1⟩) (.table ⟨2⟩)).1.Links ⟨0⟩ ⟨4⟩ := by
      unfold Links
      decide +kernel
    have hentries : (network.entries ⟨4⟩ []).map (exchangeEntry (.table ⟨1⟩) (.table ⟨2⟩)) =
        [(.str "k", .table ⟨2⟩)] := by
      decide +kernel
    exact hentries ▸ (hreached ⟨4⟩ (.single hlink)).2.1
  · refine hapart ⟨3⟩ fun hreach => ?_
    have hclosed : ∀ a ∈ [⟨0⟩, ⟨2⟩, ⟨4⟩], ∀ v ∈ (network.substitute ⟨0⟩ (.table ⟨1⟩) (.table ⟨2⟩)).1.tableReferences a,
        v ∈ [.table ⟨0⟩, .table ⟨2⟩, .table ⟨4⟩] := by
      decide +kernel
    have hwithin (b : TableId) (hb : (network.substitute ⟨0⟩ (.table ⟨1⟩) (.table ⟨2⟩)).1.Reaches ⟨0⟩ b) :
        b ∈ [⟨0⟩, ⟨2⟩, ⟨4⟩] := by
      induction hb with
      | refl => exact List.mem_cons_self
      | tail _ hstep ih => simpa using hclosed _ ih _ hstep
    simpa using hwithin ⟨3⟩ hreach

end Network

section Incomplete

/-- The third table has the first one as its metatable and holds the fourth one, which nothing else holds. The second
one asks for weak values. -/
def weakening : Machine where
  tables :=
    let call (op : Op) : Context × Change := (.strong Value.hashCode, .operate op)
    #[Table.new 0 0,
      (Table.new 0 1).changed [call (.setStr "__mode" (.str "v"))],
      (Table.new 0 1).changed [call (.setStr "x" (.table ⟨3⟩)),
        (.strong Value.hashCode, .setMetatable (some ⟨0⟩) .strong)],
      (Table.new 0 1).changed [call (.setStr "y" (.int 1))]]
  held := [.table ⟨0⟩, .table ⟨1⟩, .table ⟨2⟩]

/-- All keys have one hash, and the first table has come to own two slots of the largest integer: one of them was that
of a removed integer, which the double just above took over, and from it the largest integer. -/
def blurred : Machine where
  hash _ := 0
  tables :=
    let call (op : Op) : Context × Change := (.strong fun _ => 0, .operate op)
    #[(Table.new 0 2).changed [call (.set (.int Int64.maxValue) (.table ⟨1⟩)),
        call (.set (.int (Int64.maxValue - 1)) (.bool true)), call (.remove (.int (Int64.maxValue - 1))),
        call (.set (.float 9223372036854775808.0) (.bool true)), call (.remove (.float 9223372036854775808.0)),
        call (.set (.int Int64.maxValue) (.bool false))],
      Table.new 0 0, Table.new 0 0]
  held := [.table ⟨0⟩, .table ⟨1⟩, .table ⟨2⟩]

theorem tidy_weakening : weakening.Tidy fun _ => {key | IsStored key} := by
  refine tidy_of_forall (fun _ => id) ?_
  simp only [weakening, List.mem_toArray, List.forall_mem_cons, List.not_mem_nil, false_implies, implies_true, and_true]
  refine ⟨wellFormed_new _ _ 0 0, ?_, ?_, ?_⟩ <;>
    exact wellFormed_changed_new Value.hashCode _ _ (by simp [Context.strong])

theorem tidy_blurred : blurred.Tidy fun _ => {key | IsStored key} := by
  refine tidy_of_forall (fun _ => id) ?_
  simp only [blurred, List.mem_toArray, List.forall_mem_cons, List.not_mem_nil, false_implies, implies_true, and_true]
  refine ⟨?_, wellFormed_new _ _ 0 0, wellFormed_new _ _ 0 0⟩
  exact wellFormed_changed_new (fun _ => 0) _ _ (by simp [Context.strong])

/-- Where `weakening` has the second table put in the place of the first one, the third table comes to hold its values
weakly, and loses its entry. Where `blurred` has the third table put in the place of the second one, it is the slot in
front that takes the new value, and the one behind still refers to the second table. -/
theorem substitute_incomplete :
    ((weakening.Tidy fun _ => {key | IsStored key}) ∧ Exchangeable (.table ⟨0⟩) (.table ⟨1⟩) ∧
      (∀ id, ∀ e ∈ weakening.entries id [], Alone weakening.hash {key | IsStored key} e.1) ∧
      (∀ id, ∀ e ∈ weakening.entries id [], e.1 ≠ .table ⟨1⟩) ∧
      let after := (weakening.substitute ⟨2⟩ (.table ⟨0⟩) (.table ⟨1⟩)).1
      after.Reaches ⟨2⟩ ⟨2⟩ ∧
        ¬(after.entries ⟨2⟩ []).Perm ((weakening.entries ⟨2⟩ []).map (exchangeEntry (.table ⟨0⟩) (.table ⟨1⟩)))) ∧
    (blurred.Tidy fun _ => {key | IsStored key}) ∧ Exchangeable (.table ⟨1⟩) (.table ⟨2⟩) ∧
      (∀ id, ∀ e ∈ blurred.entries id [], e.1 ≠ .table ⟨2⟩) ∧ blurred.Undisturbed ⟨0⟩ (.table ⟨1⟩) (.table ⟨2⟩) ∧
      let after := (blurred.substitute ⟨0⟩ (.table ⟨1⟩) (.table ⟨2⟩)).1
      after.Reaches ⟨0⟩ ⟨0⟩ ∧ .table ⟨1⟩ ∈ after.tableReferences ⟨0⟩ := by
  refine ⟨⟨tidy_weakening, ⟨rfl, rfl, by decide⟩, tidy_weakening.alone_of_forall (by decide +kernel),
    ne_of_forall (by decide +kernel), .refl, fun hperm => ?_⟩, tidy_blurred, ⟨rfl, rfl, by decide⟩,
    ne_of_forall (by decide +kernel),
    undisturbed_of_forall (by decide +kernel) (by decide +kernel) (by decide +kernel) (by decide +kernel),
    .refl, by decide +kernel⟩
  have hbefore : (weakening.entries ⟨2⟩ []).length = 1 := by decide +kernel
  have hafter : ((weakening.substitute ⟨2⟩ (.table ⟨0⟩) (.table ⟨1⟩)).1.entries ⟨2⟩ []).length = 0 := by decide +kernel
  have hlength := hperm.length_eq
  rw [hafter, List.length_map, hbefore] at hlength
  cases hlength

end Incomplete

end Machine

end LuaMachine
