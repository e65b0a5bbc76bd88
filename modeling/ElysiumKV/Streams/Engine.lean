import ElysiumKV.ScanReads
import ElysiumKV.Lib.Scan

/-!
# The store as the stream adapters see it

The live records and the truncation floor. `Engine.Follows` ties it to the accepted writes as
`Refines` does the levelled store, so both answer and refuse alike.
-/

namespace ElysiumKV.Streams

open List

/-! ### Records in key order -/

/-- A key and its value. -/
abbrev Record := Key × Value

/-- One operation of a batch. -/
def applyOp (entries : List Record) : Db.BatchOp → List Record
  | .put key value => SortedMap.insert Prod.fst (key, value) entries
  | .remove key => entries.filter fun e => e.1 ≠ key
  | .deleteRange lower upper => entries.filter fun e => !(lower ≤ e.1 && e.1 < upper)

variable {entries : List Record}

theorem sorted_applyOp (h : SortedMap.Sorted Prod.fst entries) (op : Db.BatchOp) :
    SortedMap.Sorted Prod.fst (applyOp entries op) := by
  cases op with
  | put key value => exact h.insert Prod.fst (key, value)
  | remove key => exact h.filter _
  | deleteRange lower upper => exact h.filter _

theorem sorted_foldl_applyOp (h : SortedMap.Sorted Prod.fst entries) (batch : List Db.BatchOp) :
    SortedMap.Sorted Prod.fst (batch.foldl applyOp entries) := by
  induction batch generalizing entries with
  | nil => exact h
  | cons op batch ih => exact ih (sorted_applyOp h op)

/-- The value of a key. -/
def valueAt (entries : List Record) (key : Key) : Option Value :=
  (SortedMap.find Prod.fst key entries).map Prod.snd

theorem valueAt_eq_some_iff (h : SortedMap.Sorted Prod.fst entries) {key : Key} {value : Value} :
    valueAt entries key = some value ↔ (key, value) ∈ entries := by
  simp only [valueAt, Option.map_eq_some_iff, SortedMap.find_eq_some_iff Prod.fst h, Prod.exists]
  constructor
  · rintro ⟨k, v, ⟨hmem, rfl⟩, rfl⟩
    exact hmem
  · exact fun hmem => ⟨key, value, ⟨hmem, rfl⟩, rfl⟩

theorem find_filter (entries : List Record) (p : Key → Bool) (k : Key) :
    SortedMap.find Prod.fst k (entries.filter fun e => p e.1) =
      if p k then SortedMap.find Prod.fst k entries else none := by
  split_ifs with hp
  · exact SortedMap.find_filter_of_pos Prod.fst fun e _ he => he ▸ hp
  · refine (SortedMap.find_eq_none_iff Prod.fst).2 fun e he hk => hp ?_
    exact hk ▸ (mem_filter.1 he).2

theorem valueAt_applyOp (entries : List Record) (op : Db.BatchOp) (k : Key) :
    valueAt (applyOp entries op) k = overwrite k (valueAt entries k) op := by
  cases op with
  | put key value =>
    simp only [valueAt, applyOp, SortedMap.find_insert, overwrite]
    split_ifs <;> rfl
  | remove key =>
    have hfind := find_filter entries (fun x => x ≠ key) k
    simp only [valueAt, applyOp, hfind, overwrite]
    by_cases hk : k = key <;> simp [hk, eq_comm]
  | deleteRange lower upper =>
    have hfind := find_filter entries (fun x => !(lower ≤ x && x < upper)) k
    simp only [valueAt, applyOp, hfind, overwrite]
    by_cases hk : lower ≤ k ∧ k < upper
    · simp [hk.1, hk.2]
    · rw [if_neg hk, if_pos]
      simpa [or_iff_not_imp_left] using hk

theorem valueAt_foldl_applyOp (entries : List Record) (batch : List Db.BatchOp) (k : Key) :
    valueAt (batch.foldl applyOp entries) k = batch.foldl (overwrite k) (valueAt entries k) := by
  induction batch generalizing entries with
  | nil => rfl
  | cons op batch ih => rw [foldl_cons, ih, valueAt_applyOp, foldl_cons]

/-- The live records and the truncation floor. -/
structure Engine where
  entries : List Record := []
  floor : Key := []
  sorted : SortedMap.Sorted Prod.fst entries := by exact List.Pairwise.nil
  above : ∀ e ∈ entries, floor ≤ e.1 := by simp

/-- No records. -/
def Engine.empty : Engine := {}

/-- Refused: an oversized entry, or a key below the floor. -/
def checkBatch (floor : Key) (batch : List Db.BatchOp) : Status :=
  Db.checkBatch { writeFloor := floor } batch

variable {floor : Key}

theorem checkBatch_cons {op : Db.BatchOp} {batch : List Db.BatchOp}
    (h : checkBatch floor (op :: batch) = .ok) :
    Db.checkOp { writeFloor := floor } op = .ok ∧ checkBatch floor batch = .ok := by
  unfold checkBatch Db.checkBatch at h
  split at h
  · next hop => exact ⟨hop, h⟩
  · next hrefused => exact absurd h hrefused

theorem floor_le_of_checkOp {key : Key} {value : Value}
    (h : Db.checkOp { writeFloor := floor } (.put key value) = .ok) : floor ≤ key := by
  simp only [Db.checkOp] at h
  split at h
  · simp only [Db.checkBelowTruncation] at h
    split_ifs at h with hbelow
    by_contra hlt
    exact hbelow ⟨fun hnil => not_lt_nil key (hnil ▸ not_le.1 hlt), not_le.1 hlt⟩
  · next hrefused => exact absurd h hrefused

theorem checkOp_put_iff (floor key : Key) (value : Value) :
    Db.checkOp { writeFloor := floor } (.put key value) = .ok ↔
      key.length ≤ maxKeyBytes ∧ value.length ≤ maxValueBytes ∧ floor ≤ key := by
  constructor
  · intro h
    refine ⟨?_, ?_, floor_le_of_checkOp h⟩
    all_goals
      by_contra hlong
      simp [Db.checkOp, Db.checkEntrySize, not_le.1 hlong] at h
  · rintro ⟨hkey, hvalue, hfloor⟩
    simp [Db.checkOp, Db.checkEntrySize, not_lt.2 hkey, not_lt.2 hvalue, Db.checkBelowTruncation,
      not_lt.2 hfloor]

theorem checkBatch_eq_ok_iff (floor : Key) (batch : List Db.BatchOp) :
    checkBatch floor batch = .ok ↔
      ∀ op ∈ batch, Db.checkOp { writeFloor := floor } op = .ok := by
  induction batch with
  | nil => simp [checkBatch, Db.checkBatch]
  | cons op batch ih =>
    rw [forall_mem_cons, ← ih]
    refine ⟨checkBatch_cons, fun h => ?_⟩
    unfold checkBatch Db.checkBatch
    rw [h.1]
    exact h.2

theorem above_applyOp (h : ∀ e ∈ entries, floor ≤ e.1) {op : Db.BatchOp}
    (hop : Db.checkOp { writeFloor := floor } op = .ok) :
    ∀ e ∈ applyOp entries op, floor ≤ e.1 := by
  intro e he
  cases op with
  | put key value =>
    rcases SortedMap.mem_insert Prod.fst he with rfl | he
    · exact floor_le_of_checkOp hop
    · exact h e he
  | remove key => exact h e (mem_of_mem_filter he)
  | deleteRange lower upper => exact h e (mem_of_mem_filter he)

theorem above_foldl_applyOp (h : ∀ e ∈ entries, floor ≤ e.1) {batch : List Db.BatchOp}
    (hbatch : checkBatch floor batch = .ok) : ∀ e ∈ batch.foldl applyOp entries, floor ≤ e.1 := by
  induction batch generalizing entries with
  | nil => exact h
  | cons op batch ih =>
    obtain ⟨hop, hrest⟩ := checkBatch_cons hbatch
    exact ih (above_applyOp h hop) hrest

namespace Engine

/-- `ElysiumKV.write`: all of the batch, or the call throws. -/
def write (e : Engine) (batch : List Db.BatchOp) : Except Status Engine :=
  if h : checkBatch e.floor batch = .ok then
    .ok
      { entries := batch.foldl applyOp e.entries
        floor := e.floor
        sorted := sorted_foldl_applyOp e.sorted batch
        above := above_foldl_applyOp e.above h }
  else .error (checkBatch e.floor batch)

/-- `put`. -/
def put (e : Engine) (key : Key) (value : Value) : Except Status Engine := e.write [.put key value]

/-- `delete`. -/
def delete (e : Engine) (key : Key) : Except Status Engine := e.write [.remove key]

/-- `ElysiumKV.truncateBelow`: the floor never goes back. -/
def truncateBelow (e : Engine) (key : Key) : Engine where
  entries := e.entries.filter fun r => max e.floor key ≤ r.1
  floor := max e.floor key
  sorted := e.sorted.filter _
  above r hr := by simpa using (mem_filter.1 hr).2

/-- `ElysiumKV.getCopy`: `null` if absent or below the floor. -/
def getCopy (e : Engine) (key : Key) : Option Value := valueAt e.entries key

/-- Within the bounds; `null` is unbounded. -/
def inRange (lower upper : Option Key) (key : Key) : Bool :=
  lower.all (fun b => decide (b ≤ key)) && upper.all fun b => decide (key < b)

/-- `iterator`. -/
def iterator (e : Engine) (lower upper : Option Key) : List Record :=
  e.entries.filter fun r => inRange lower upper r.1

/-- `reverseIterator`. -/
def reverseIterator (e : Engine) (lower upper : Option Key) : List Record :=
  (e.iterator lower upper).reverse

variable {e e' : Engine} {batch : List Db.BatchOp}

theorem write_eq_ok (h : e.write batch = .ok e') :
    checkBatch e.floor batch = .ok ∧ e'.entries = batch.foldl applyOp e.entries ∧
      e'.floor = e.floor := by
  unfold write at h
  split_ifs at h with hcheck
  obtain rfl := Except.ok.inj h
  exact ⟨hcheck, rfl, rfl⟩

theorem write_of_check (h : checkBatch e.floor batch = .ok) : ∃ e', e.write batch = .ok e' := by
  unfold write
  rw [dif_pos h]
  exact ⟨_, rfl⟩

theorem write_of_refused (h : checkBatch e.floor batch ≠ .ok) :
    e.write batch = .error (checkBatch e.floor batch) := by
  unfold write
  rw [dif_neg h]

theorem getCopy_write (h : e.write batch = .ok e') (k : Key) :
    e'.getCopy k = batch.foldl (overwrite k) (e.getCopy k) := by
  rw [getCopy, (write_eq_ok h).2.1, valueAt_foldl_applyOp, getCopy]

variable {r : Record}

theorem mem_write (h : e.write batch = .ok e') (hr : r ∈ e'.entries) :
    r ∈ e.entries ∨ ∃ key value, Db.BatchOp.put key value ∈ batch ∧ r = (key, value) := by
  rw [(write_eq_ok h).2.1] at hr
  generalize e.entries = entries at hr
  clear h
  induction batch generalizing entries with
  | nil => exact .inl hr
  | cons op batch ih =>
    rcases ih (applyOp entries op) hr with hmem | ⟨key, value, hop, hr'⟩
    · cases op with
      | put key value =>
        rcases SortedMap.mem_insert Prod.fst hmem with rfl | hmem
        · exact .inr ⟨key, value, mem_cons_self .., rfl⟩
        · exact .inl hmem
      | remove key => exact .inl (mem_of_mem_filter hmem)
      | deleteRange lower upper => exact .inl (mem_of_mem_filter hmem)
    · exact .inr ⟨key, value, mem_cons_of_mem _ hop, hr'⟩

variable {key : Key}

theorem mem_put {value : Value} (h : e.put key value = .ok e') (hr : r ∈ e'.entries) :
    r = (key, value) ∨ r ∈ e.entries := by
  rw [(write_eq_ok h).2.1] at hr
  exact SortedMap.mem_insert Prod.fst hr

theorem mem_delete (h : e.delete key = .ok e') (hr : r ∈ e'.entries) : r ∈ e.entries := by
  rw [(write_eq_ok h).2.1] at hr
  exact mem_of_mem_filter hr

theorem mem_truncateBelow (hr : r ∈ (e.truncateBelow key).entries) : r ∈ e.entries ∧ key ≤ r.1 := by
  obtain ⟨hmem, hkey⟩ := mem_filter.1 hr
  exact ⟨hmem, (le_max_right _ _).trans (by simpa using hkey)⟩

theorem valueAt_truncateBelow (e : Engine) {k : Key} (h : max e.floor key ≤ k) :
    valueAt (e.truncateBelow key).entries k = valueAt e.entries k := by
  have hfind := find_filter e.entries (fun x => decide (max e.floor key ≤ x)) k
  rw [valueAt, truncateBelow, hfind, if_pos (by simpa using h), valueAt]

/-! ### The engine and the levelled store -/

/-- The engine holds what the history says. -/
structure Follows (e : Engine) (log : List Event) : Prop where
  floor : e.floor = truncatedBelow log
  contents : ∀ k, truncatedBelow log ≤ k → valueAt e.entries k = lastWrite k log

theorem follows_empty : Follows {} [] := ⟨rfl, fun _ _ => rfl⟩

namespace Follows

variable {e : Engine} {db : Db} {log : List Event}

theorem getCopy (h : e.Follows log) (hdb : Refines db log) (options : Options) (k : Key) :
    db.get options k = Db.replyOf (e.getCopy k) := by
  rw [hdb.get_eq, Engine.getCopy]
  split_ifs with hlt
  · have hnone : valueAt e.entries k = none := by
      refine Option.map_eq_none_iff.2 ((SortedMap.find_eq_none_iff Prod.fst).2 ?_)
      rintro r hr rfl
      exact (e.above r hr).not_gt (h.floor ▸ hlt)
    rw [hnone]
    rfl
  · rw [h.contents k (not_lt.1 hlt)]

theorem truncateBelow (h : e.Follows log) (key : Key) :
    (e.truncateBelow key).Follows (log ++ [.truncated key]) where
  floor := by rw [truncatedBelow_truncated, ← h.floor, Engine.truncateBelow]
  contents k hk := by
    rw [truncatedBelow_truncated] at hk
    rw [lastWrite_truncated, ← h.contents k ((le_max_left _ _).trans hk)]
    exact e.valueAt_truncateBelow (h.floor ▸ hk)

theorem wrote (h : e.Follows log) {batch : List Db.BatchOp} {e' : Engine}
    (hwrite : e.write batch = .ok e') : e'.Follows (log ++ batch.map .wrote) := by
  obtain ⟨-, hentries, hfloor⟩ := write_eq_ok hwrite
  refine ⟨by rw [hfloor, h.floor, truncatedBelow_wrote], fun k hk => ?_⟩
  rw [truncatedBelow_wrote] at hk
  rw [lastWrite_wrote, ← h.contents k hk, hentries]
  exact valueAt_foldl_applyOp e.entries batch k

theorem checkBatch (h : e.Follows log) (hdb : Refines db log) (batch : List Db.BatchOp) :
    db.checkBatch batch = Streams.checkBatch e.floor batch := by
  have hfloor : db.writeFloor = e.floor := hdb.floor.trans (hdb.point.trans h.floor.symm)
  have hop : ∀ op, db.checkOp op = Db.checkOp { writeFloor := e.floor } op := by
    intro op
    cases op <;> simp [Db.checkOp, Db.checkBelowTruncation, hfloor]
  unfold Streams.checkBatch
  induction batch with
  | nil => rfl
  | cons op batch ih => simp [Db.checkBatch, hop, ih]

theorem write (h : e.Follows log) (hdb : Refines db log) (batch : List Db.BatchOp) :
    match e.write batch with
    | .ok e' => (db.write batch).1 = .ok ∧ e'.Follows (log ++ batch.map .wrote)
    | .error status => db.write batch = (status, db) := by
  have hcheck := h.checkBatch hdb batch
  cases hwrite : e.write batch with
  | ok e' =>
    refine ⟨?_, h.wrote hwrite⟩
    simp [Db.write, hcheck, (write_eq_ok hwrite).1]
  | error status =>
    unfold Engine.write at hwrite
    split_ifs at hwrite with hrefused
    obtain rfl := Except.error.inj hwrite
    unfold Db.write
    rw [hcheck]
    cases hstatus : Streams.checkBatch e.floor batch with
    | ok => exact absurd hstatus hrefused
    | _ => rfl

end Follows

/-- Engine and levelled store after the same writes and truncations, between maintenance of the
latter. -/
inductive Alongside (options : Options) : Engine → Db → Prop
  | empty : Alongside options {} {}
  | write {e e' : Engine} {db : Db} {batch : List Db.BatchOp} : Alongside options e db →
      e.write batch = .ok e' → Alongside options e' (db.write batch).2
  | truncateBelow {e : Engine} {db : Db} (key : Key) : Alongside options e db →
      Alongside options (e.truncateBelow key) (db.truncateBelow key).2
  | background {e : Engine} {db : Db} (env : WriteEnv) (op : Op) : Alongside options e db →
      op.events = [] → op.Enabled Compaction.Admissible db →
      Alongside options e (op.run options env db).2

variable {options : Options} {db : Db}

theorem Alongside.follows (h : Alongside options e db) : ∃ log, Refines db log ∧ e.Follows log := by
  induction h with
  | empty => exact ⟨[], refines_empty, follows_empty⟩
  | @write e e' db batch _ hwrite ih =>
    obtain ⟨log, hdb, he⟩ := ih
    have haccepted := he.write hdb batch
    simp only [hwrite] at haccepted
    have hnext := hdb.client (db.write_result hdb.floor batch)
    rw [if_pos haccepted.1] at hnext
    exact ⟨_, hnext, haccepted.2⟩
  | truncateBelow key _ ih =>
    obtain ⟨log, hdb, he⟩ := ih
    exact ⟨_, (hdb.truncateBelow key).2, he.truncateBelow key⟩
  | background env op _ hevents henabled ih =>
    obtain ⟨log, hdb, he⟩ := ih
    have hnext := @Refines.step options _ _ hdb env op henabled
    rw [hevents, ite_self, append_nil] at hnext
    exact ⟨log, hnext, he⟩

/-- The engine answers and refuses as the levelled store. -/
theorem engine_answers_as_store (h : Alongside options e db) :
    (∀ k, db.get options k = Db.replyOf (e.getCopy k)) ∧
    (∀ lower upper,
      (db.iterator options (lower.getD []) upper false).1 = e.iterator lower upper ∧
      (db.iterator options (lower.getD []) upper true).1 = e.reverseIterator lower upper) ∧
    ∀ batch, match e.write batch with
      | .ok _ => (db.write batch).1 = .ok
      | .error status => db.write batch = (status, db) := by
  obtain ⟨log, hdb, he⟩ := h.follows
  have hget := he.getCopy hdb options
  refine ⟨hget, fun lower upper => ?_, fun batch => ?_⟩
  · have hagrees := hdb.tidy.agrees_iterator options (lower.getD []) upper
    have hforward : (db.iterator options (lower.getD []) upper false).1 = e.iterator lower upper := by
      refine hagrees.ascending.eq_of_mem_iff (e.sorted.filter _) fun r => ?_
      have hreply : db.get options r.1 = .ok r.2 ↔ r ∈ e.entries := by
        rw [hget, ← Prod.mk.eta (p := r), ← valueAt_eq_some_iff e.sorted, getCopy]
        cases valueAt e.entries r.1 <;> simp [Db.replyOf]
      rw [← Prod.mk.eta (p := r), hagrees.mem, hreply, iterator, mem_filter, and_comm]
      cases lower <;> cases upper <;> simp [inRange, ByteOrder.nil_le]
    exact ⟨hforward, by rw [hagrees.opposite, hforward, reverseIterator]⟩
  · have hwrite := he.write hdb batch
    cases hresult : e.write batch <;> simp only [hresult] at hwrite ⊢
    exacts [hwrite, hwrite.1]

theorem engine_answers_as_store_flushed :
    ∃ e, Alongside plainOptions e (play plainOptions {}
      [fun _ => .write [.put [1] [10], .put [2] [20]], fun _ => .sealMemtable, fun _ => .runOneFlush,
        fun _ => .truncateBelow [2]] ({}, [])).1 ∧ e.iterator none none = [([2], [20])] := by
  obtain ⟨e, he⟩ := @write_of_check {} [.put [1] [10], .put [2] [20]] (by decide)
  have h := (((@Alongside.empty plainOptions).write he).background {} .sealMemtable rfl rfl
    |>.background {} .runOneFlush rfl trivial).truncateBelow [2]
  exact ⟨_, h, ((engine_answers_as_store h).2.1 none none).1.symm.trans (by decide)⟩

end Engine

end ElysiumKV.Streams
