import ElysiumKV.Streams.Restore

/-!
# Writes and the truncation floor

Nothing below the engine's floor should be offered to it. But stream time is seeded from the key
that sorts last, and sessions are removed and records restored whatever their time.
`floor_never_refuses_iff` says which calls keep records that are not late above the floor (`Ahead`).
-/

namespace ElysiumKV.Streams

open ByteOrder List

/-! ### The floor of a store with segments -/

/-- The floor's segment; without one, the first. -/
def oldestSegment (db : Engine) : ℤ := segmentOf db.floor

/-- The oldest time that is not late. -/
def oldestAccepted (retentionMs observed : ℤ) : ℤ := max 0 (observed - retentionMs + 1)

/-- The operation writes below the floor. -/
def BelowFloor (floor : Key) : Db.BatchOp → Prop
  | .put key _ => key < floor
  | .remove key => key < floor
  | .deleteRange _ _ => False

/-- There is no floor, or it stands at a segment. -/
def FloorAtSegment (db : Engine) : Prop :=
  db.floor = [] ∨ ∃ segment, IsTime segment ∧ db.floor = segmentPrefix segment

theorem floor_le_iff {db : Engine} (h : FloorAtSegment db) {segment : ℤ} (hsegment : IsTime segment)
    (bytes : Bytes) : db.floor ≤ segmentPrefix segment ++ bytes ↔ oldestSegment db ≤ segment := by
  unfold oldestSegment
  rcases h with hnil | ⟨oldest, holdest, hfloor⟩
  · rw [hnil]
    exact iff_of_true (nil_le _) hsegment.1
  · have hself := segmentOf_append holdest []
    rw [append_nil] at hself
    rw [hfloor, hself]
    exact segmentPrefix_le_iff holdest hsegment bytes

theorem belowFloor_recordOp (floor key : Key) (value : Option Value) :
    BelowFloor floor (recordOp key value) ↔ key < floor := by
  cases value <;> rfl

theorem checkOp_of_not_below {floor : Key} {op : Db.BatchOp} (h : ¬ BelowFloor floor op) :
    Db.checkOp { writeFloor := floor } op = Db.checkOp {} op := by
  cases op with
  | put key value =>
    have hkey : ¬ key < floor := h
    simp [Db.checkOp, Db.checkBelowTruncation, hkey]
  | remove key =>
    have hkey : ¬ key < floor := h
    simp [Db.checkOp, Db.checkBelowTruncation, hkey]
  | deleteRange lower upper => rfl

theorem checkBatch_of_not_below {floor : Key} {batch : List Db.BatchOp}
    (h : ∀ op ∈ batch, ¬ BelowFloor floor op) : checkBatch floor batch = checkBatch [] batch := by
  induction batch with
  | nil => rfl
  | cons op batch ih =>
    obtain ⟨hop, hrest⟩ := forall_mem_cons.1 h
    have htail := ih hrest
    unfold checkBatch at htail ⊢
    simp only [Db.checkBatch, checkOp_of_not_below hop, htail]

theorem eq_of_mem_recordOp {key k : Key} {value : Option Value} {v : Value}
    (h : Db.BatchOp.put k v ∈ [recordOp key value]) : k = key ∧ value = some v := by
  cases value with
  | none => simp [recordOp] at h
  | some value =>
    obtain ⟨rfl, rfl⟩ : k = key ∧ v = value := by simpa [recordOp] using h
    exact ⟨rfl, rfl⟩

theorem status_write {σ : Type} (e : Engine) (batch : List Db.BatchOp) (refused : Status → σ)
    (written : Engine → σ) :
    (match e.write batch with
      | .error status => (status, refused status)
      | .ok db => (Status.ok, written db)).1 = checkBatch e.floor batch := by
  unfold Engine.write
  split_ifs with hcheck
  · exact hcheck.symm
  · rfl

/-! ### Stream time ahead of the floor -/

/-- Records that are not late lie above the floor. -/
structure Ahead (interval retention observed : ℤ) (db : Engine) : Prop where
  spaced : 1 ≤ interval
  retains : 1 ≤ retention
  clock : observed ≤ longMax
  floor : FloorAtSegment db
  clear : oldestSegment db ≤ segmentId (oldestAccepted retention observed) interval

namespace Ahead

variable {interval retention observed : ℤ} {db : Engine}

theorem isTime_oldestAccepted (hretention : 1 ≤ retention) (hclock : observed ≤ longMax) :
    IsTime (oldestAccepted retention observed) := by
  unfold oldestAccepted IsTime
  unfold longMax at *
  omega

theorem empty (hinterval : 1 ≤ interval) (hretention : 1 ≤ retention) :
    Ahead interval retention (-1) {} where
  spaced := hinterval
  retains := hretention
  clock := by decide
  floor := .inl rfl
  clear := (segmentId_isTime hinterval
    (isTime_oldestAccepted hretention (by decide : (-1 : ℤ) ≤ longMax))).1

theorem later (h : Ahead interval retention observed db) {observed' : ℤ}
    (hclock : observed' ≤ longMax) (hle : observed ≤ observed') :
    Ahead interval retention observed' db := by
  refine ⟨h.spaced, h.retains, hclock, h.floor, h.clear.trans ?_⟩
  refine segmentId_mono h.spaced (le_max_left _ _) ?_
  unfold oldestAccepted
  omega

theorem write (h : Ahead interval retention observed db) {batch : List Db.BatchOp} {db' : Engine}
    (hwrite : db.write batch = .ok db') : Ahead interval retention observed db' := by
  have hfloor := (Engine.write_eq_ok hwrite).2.2
  refine ⟨h.spaced, h.retains, h.clock, ?_, ?_⟩
  · rw [FloorAtSegment, hfloor]
    exact h.floor
  · rw [oldestSegment, hfloor]
    exact h.clear

theorem truncate (h : Ahead interval retention observed db) (hcutoff : 0 ≤ observed - retention) :
    Ahead interval retention observed
      (db.truncateBelow (segmentPrefix (segmentId (observed - retention) interval))) := by
  have hmin : IsTime (segmentId (observed - retention) interval) :=
    segmentId_isTime h.spaced ⟨hcutoff, by have := h.retains; have := h.clock; omega⟩
  have hclear : segmentId (observed - retention) interval ≤
      segmentId (oldestAccepted retention observed) interval := by
    refine segmentId_mono h.spaced hcutoff ?_
    unfold oldestAccepted
    omega
  have hfloor : (db.truncateBelow (segmentPrefix (segmentId (observed - retention) interval))).floor
      = max db.floor (segmentPrefix (segmentId (observed - retention) interval)) := rfl
  rcases max_choice db.floor (segmentPrefix (segmentId (observed - retention) interval)) with hm | hm
  · rw [hm] at hfloor
    refine ⟨h.spaced, h.retains, h.clock, ?_, ?_⟩
    · rw [FloorAtSegment, hfloor]
      exact h.floor
    · rw [oldestSegment, hfloor]
      exact h.clear
  · rw [hm] at hfloor
    refine ⟨h.spaced, h.retains, h.clock, .inr ⟨_, hmin, hfloor⟩, ?_⟩
    have hself := segmentOf_append hmin []
    rw [append_nil] at hself
    rw [oldestSegment, hfloor, hself]
    exact hclear

theorem above (h : Ahead interval retention observed db) {time : ℤ} (htime : IsTime time)
    (hlate : ¬ time ≤ max observed time - retention) :
    oldestSegment db ≤ segmentId time interval := by
  refine h.clear.trans (segmentId_mono h.spaced (le_max_left _ _) ?_)
  have := htime.1
  unfold oldestAccepted
  omega

end Ahead

theorem not_late_oldestAccepted {retention : ℤ} (h : 1 ≤ retention) (observed : ℤ) :
    ¬ oldestAccepted retention observed ≤
      max observed (oldestAccepted retention observed) - retention := by
  unfold oldestAccepted
  omega

namespace SegmentStore

/-- What a `put` hands to the engine; a late record is dropped. -/
def sendsPut (s : SegmentStore) (time : ℤ) (storeKey : Key) (value : Option Value) :
    List Db.BatchOp :=
  if s.Late time then [] else [recordOp storeKey value]

/-- The time of the key that sorts last, or -1. -/
def newestTime (width : ℕ) (db : Engine) : ℤ :=
  match db.entries.getLast? with
  | none => -1
  | some newest => longFromEnd width newest.1

variable {s : SegmentStore} {time : ℤ} {storeKey : Key} {value : Option Value}

theorem putRecord_status (s : SegmentStore) (time : ℤ) (storeKey : Key) (value : Option Value) :
    (s.putRecord time storeKey value).1 = checkBatch s.db.floor (s.sendsPut time storeKey value) := by
  have hstatus := status_write s.db [recordOp storeKey value] (fun _ => ()) fun _ => ()
  have hput := s.putRecord_step time storeKey value
  generalize s.putRecord time storeKey value = result at hput ⊢
  cases hput with
  | late hlate =>
    rw [sendsPut, if_pos hlate]
    rfl
  | refused status hlate hdb =>
    rw [hdb] at hstatus
    rwa [sendsPut, if_neg hlate]
  | written db hlate hdb =>
    rw [hdb] at hstatus
    rwa [sendsPut, if_neg hlate]

theorem restoring_status (width : ℕ) (s : SegmentStore) (records : List Logged) :
    (s.restoring width records).1 =
      checkBatch s.db.floor (records.map (restoreOp width s.segmentIntervalMs)) := by
  simp only [restoring, foldl_observe]
  exact status_write ..

/-- The store's own records, and stream time ahead of the floor. -/
structure Guarded (form : KeyForm) (s : SegmentStore) : Prop where
  ahead : Ahead s.segmentIntervalMs s.retentionPeriodMs s.observedStreamTime s.db
  stored : ∀ e ∈ s.db.entries, ∃ time, form.IsStoreKey s.segmentIntervalMs time e.1

variable {form : KeyForm}

theorem not_below_iff {db : Engine} (hfloor : FloorAtSegment db) {interval : ℤ}
    (hinterval : 1 ≤ interval) (hkey : form.IsStoreKey interval time storeKey)
    (value : Option Value) :
    ¬ BelowFloor db.floor (recordOp storeKey value) ↔ oldestSegment db ≤ segmentId time interval := by
  have hsegment := hkey.segment hinterval
  obtain ⟨key, -, rfl⟩ := hkey
  rw [belowFloor_recordOp, not_lt]
  exact floor_le_iff hfloor hsegment key

namespace Guarded

theorem empty (form : KeyForm) {retentionPeriodMs segmentIntervalMs : ℤ}
    (hretention : 1 ≤ retentionPeriodMs) (hinterval : 1 ≤ segmentIntervalMs) :
    Guarded form ⟨retentionPeriodMs, segmentIntervalMs, {}, -1, -1⟩ :=
  ⟨Ahead.empty hinterval hretention, fun e he => absurd he (by simp)⟩

theorem observe (h : s.Guarded form) (htime : IsTime time) : (s.observe time).Guarded form :=
  ⟨h.ahead.later (max_le h.ahead.clock htime.2) (le_max_left _ _), h.stored⟩

theorem observeAll (h : s.Guarded form) {records : List Logged}
    (htimed : ∀ r ∈ records, ∃ time, form.IsKey time r.1) :
    Guarded form (records.foldl (fun s r => s.observe (longFromEnd form.width r.1)) s) := by
  induction records generalizing s with
  | nil => exact h
  | cons record records ih =>
    obtain ⟨⟨time, hkey⟩, hrest⟩ := forall_mem_cons.1 htimed
    have htime : longFromEnd form.width record.1 = time := form.timed hkey []
    rw [foldl_cons, htime]
    exact ih (h.observe (form.isTime hkey)) hrest

theorem write (h : s.Guarded form) {batch : List Db.BatchOp} {db : Engine}
    (hbatch : ∀ key value, Db.BatchOp.put key value ∈ batch →
      ∃ time, form.IsStoreKey s.segmentIntervalMs time key)
    (hwrite : s.db.write batch = .ok db) : Guarded form { s with db := db } := by
  refine ⟨h.ahead.write hwrite, fun e he => ?_⟩
  rcases Engine.mem_write hwrite he with hmem | ⟨key, value, hop, rfl⟩
  · exact h.stored e hmem
  · exact hbatch key value hop

theorem expire (h : s.Guarded form) : s.expireSegmentsBelowRetention.Guarded form := by
  rcases s.expire_eq with hexpire | ⟨hcutoff, hexpire⟩
  · rwa [hexpire]
  · rw [hexpire]
    exact ⟨h.ahead.truncate hcutoff, fun e he => h.stored e (Engine.mem_truncateBelow he).1⟩

theorem putRecord (h : s.Guarded form) (hkey : form.IsStoreKey s.segmentIntervalMs time storeKey)
    (value : Option Value) : (s.putRecord time storeKey value).2.Guarded form := by
  have hobserved := h.observe hkey.isTime
  have hput := s.putRecord_step time storeKey value
  generalize s.putRecord time storeKey value = result at hput ⊢
  cases hput with
  | late hlate => exact hobserved
  | refused status hlate hdb => exact hobserved
  | written db hlate hdb =>
    refine expire (write hobserved (fun k v hop => ?_) hdb)
    obtain ⟨rfl, -⟩ := eq_of_mem_recordOp hop
    exact ⟨time, hkey⟩

theorem restoring (h : s.Guarded form) {records : List Logged}
    (htimed : ∀ r ∈ records, ∃ time, form.IsKey time r.1) :
    (s.restoring form.width records).2.Guarded form := by
  have hobserved := h.observeAll htimed
  unfold SegmentStore.restoring
  simp only
  rw [foldl_observe] at hobserved ⊢
  split
  · exact hobserved
  · next db hdb =>
    refine write hobserved (fun k v hop => ?_) hdb
    obtain ⟨record, hrecord, heq⟩ := mem_map.1 hop
    obtain ⟨time, hkey⟩ := htimed record hrecord
    obtain ⟨rfl, -⟩ := eq_of_mem_recordOp (mem_singleton.2 heq.symm)
    have htime : longFromEnd form.width record.1 = time := form.timed hkey []
    exact ⟨time, record.1, hkey, by rw [fromChangelogKey, htime, inSegment]⟩

theorem newestTime_le (h : s.Guarded form) :
    -1 ≤ newestTime form.width s.db ∧ newestTime form.width s.db ≤ longMax := by
  unfold newestTime
  cases hlast : s.db.entries.getLast? with
  | none => exact ⟨le_rfl, show (-1 : ℤ) ≤ longMax by decide⟩
  | some newest =>
    obtain ⟨time, hkey⟩ := h.stored newest (mem_of_getLast? hlast)
    have hlow := hkey.isTime.1
    simp only [hkey.longFromEnd]
    exact ⟨by omega, hkey.isTime.2⟩

theorem reopen_fields (h : s.Guarded form) : (s.reopen form.width).db = s.db ∧
    (s.reopen form.width).segmentIntervalMs = s.segmentIntervalMs ∧
    (s.reopen form.width).retentionPeriodMs = s.retentionPeriodMs ∧
    (s.reopen form.width).observedStreamTime = newestTime form.width s.db := by
  have hnewest := h.newestTime_le.1
  have hlast : (s.db.reverseIterator none none).head? = s.db.entries.getLast? := by
    simp [Engine.reverseIterator, Engine.iterator, Engine.inRange]
  unfold newestTime at hnewest ⊢
  unfold SegmentStore.reopen seedLiveBandFromDisk
  simp only [hlast]
  cases hentries : s.db.entries.getLast? with
  | none => split <;> exact ⟨rfl, rfl, rfl, rfl⟩
  | some newest =>
    rw [hentries] at hnewest
    split <;> exact ⟨rfl, rfl, rfl, max_eq_right hnewest⟩

theorem reopen (h : s.Guarded form) (hclears : oldestSegment s.db ≤ segmentId
      (oldestAccepted s.retentionPeriodMs (newestTime form.width s.db)) s.segmentIntervalMs) :
    (s.reopen form.width).Guarded form := by
  obtain ⟨hdb, hinterval, hretention, hclock⟩ := h.reopen_fields
  refine ⟨?_, ?_⟩
  · rw [hdb, hinterval, hretention, hclock]
    exact ⟨h.ahead.spaced, h.ahead.retains, h.newestTime_le.2, h.ahead.floor, hclears⟩
  · rw [hdb, hinterval]
    exact h.stored

theorem put_above (h : s.Guarded form) (hkey : form.IsStoreKey s.segmentIntervalMs time storeKey)
    (value : Option Value) :
    ∀ op ∈ s.sendsPut time storeKey value, ¬ BelowFloor s.db.floor op := by
  unfold sendsPut
  split_ifs with hlate
  · simp
  · intro op hop
    rw [mem_singleton.1 hop, not_below_iff h.ahead.floor h.ahead.spaced hkey]
    exact h.ahead.above hkey.isTime hlate

theorem restore_above_iff (h : s.Guarded form) {records : List Logged}
    (htimed : ∀ r ∈ records, ∃ time, form.IsKey time r.1) :
    (∀ r ∈ records,
      oldestSegment s.db ≤ segmentId (longFromEnd form.width r.1) s.segmentIntervalMs) ↔
      ∀ op ∈ records.map (restoreOp form.width s.segmentIntervalMs), ¬ BelowFloor s.db.floor op := by
  refine Iff.trans (forall₂_congr fun record hrecord => ?_) forall_mem_map.symm
  obtain ⟨time, hkey⟩ := htimed record hrecord
  have htime : longFromEnd form.width record.1 = time := form.timed hkey []
  rw [restoreOp, fromChangelogKey, htime]
  exact (not_below_iff h.ahead.floor h.ahead.spaced ⟨_, hkey, rfl⟩ record.2).symm

/-- The oldest time not taken for late must not be in a truncated segment. -/
theorem reopen_clears (h : s.Guarded form)
    (haccepted : ∀ time, IsTime time → ¬ (s.reopen form.width).Late time →
      oldestSegment s.db ≤ segmentId time s.segmentIntervalMs) :
    oldestSegment s.db ≤ segmentId
      (oldestAccepted s.retentionPeriodMs (newestTime form.width s.db)) s.segmentIntervalMs := by
  obtain ⟨-, -, hretention, hclock⟩ := h.reopen_fields
  refine haccepted _ (Ahead.isTime_oldestAccepted h.ahead.retains h.newestTime_le.2) ?_
  rw [Late, hretention, hclock]
  exact not_late_oldestAccepted h.ahead.retains _

end Guarded

end SegmentStore

namespace WindowStore

/-- Closed and opened on the same state. -/
def reopen (s : WindowStore) : WindowStore :=
  { s with toSegmentStore := s.toSegmentStore.reopen 12, seqnum := 0 }

/-- What is done with a window store. -/
inductive Call
  | put (key : Bytes) (value : Option Value) (timestamp : ℤ)
  | restore (records : List Logged)
  | reopen

variable (s : WindowStore)

/-- A call, with the store it leaves. -/
def perform : Call → Status × WindowStore
  | .put key value timestamp => s.put key value timestamp
  | .restore records => s.restoring records
  | .reopen => (.ok, s.reopen)

/-- The batch a call hands to the engine. -/
def sends : Call → List Db.BatchOp
  | .put key value timestamp => s.sendsPut timestamp (s.storeKeyFor key value timestamp) value
  | .restore records => records.map (SegmentStore.restoreOp 12 s.segmentIntervalMs)
  | .reopen => []

/-- Times are not negative, restored records of the changelog's form. -/
def Call.Timed : Call → Prop
  | .put _ _ timestamp => IsTime timestamp
  | .restore records => ∀ record ∈ records, ∃ timestamp, IsTime timestamp ∧
      ∃ key seqnum, True ∧ record.1 = key ++ WindowKeys.times timestamp seqnum
  | .reopen => True

/-- No record restored is in a truncated segment, and the time seeded at a reopen, of the key that
sorts last, accepts none of one. -/
def Clears : Call → Prop
  | .put _ _ _ => True
  | .restore records => ∀ record ∈ records,
      oldestSegment s.db ≤ segmentId (WindowKeys.timestampOf record.1) s.segmentIntervalMs
  | .reopen => oldestSegment s.db ≤ segmentId
      (oldestAccepted s.retentionPeriodMs (SegmentStore.newestTime 12 s.db)) s.segmentIntervalMs

/-- Nothing below the floor is offered; after a reopen, by no `put`. -/
def Admits : Call → Prop
  | .reopen => ∀ key value timestamp, IsTime timestamp →
      ∀ op ∈ s.reopen.sends (.put key value timestamp), ¬ BelowFloor s.db.floor op
  | call => ∀ op ∈ s.sends call, ¬ BelowFloor s.db.floor op

/-- Runs of calls that meet the condition. -/
inductive Run (start : WindowStore) : WindowStore → Prop
  | start : Run start start
  | call {s : WindowStore} (call : Call) : Run start s → call.Timed → s.Clears call →
      Run start (s.perform call).2

/-- `SegmentStore.Guarded` of the window store. -/
abbrev Guarded (s : WindowStore) : Prop :=
  SegmentStore.Guarded (WindowKeys.form fun _ => True) s.toSegmentStore

variable {s}

theorem Run.guarded {start : WindowStore} (hrun : Run start s) (hstart : start.Guarded) :
    s.Guarded := by
  induction hrun with
  | start => exact hstart
  | call call _ htimed hclears ih =>
    cases call with
    | put key value timestamp =>
      exact ih.putRecord (isStoreKey_storeKeyFor key value htimed trivial) value
    | restore records => exact ih.restoring htimed
    | reopen => exact ih.reopen hclears

theorem perform_status (s : WindowStore) (call : Call) :
    (s.perform call).1 = checkBatch s.db.floor (s.sends call) := by
  cases call with
  | put key value timestamp => exact s.putRecord_status timestamp _ value
  | restore records => exact s.restoring_status 12 records
  | reopen => rfl

theorem Guarded.clears_iff (h : s.Guarded) {call : Call} (htimed : call.Timed) :
    s.Clears call ↔ s.Admits call := by
  cases call with
  | put key value timestamp =>
    exact iff_of_true trivial (h.put_above (isStoreKey_storeKeyFor key value htimed trivial) value)
  | restore records => exact h.restore_above_iff htimed
  | reopen =>
    obtain ⟨hdb, hinterval, -⟩ := h.reopen_fields
    constructor
    · intro hclears key value timestamp htime
      have habove := (h.reopen hclears).put_above
        (isStoreKey_storeKeyFor (s := s.reopen) key value htime trivial) value
      rwa [hdb] at habove
    · intro hadmits
      refine h.reopen_clears fun time htime hlate => ?_
      have hkey : (WindowKeys.form fun _ => True).IsStoreKey s.segmentIntervalMs time
          (s.reopen.storeKeyFor [] none time) := by
        rw [← show s.reopen.segmentIntervalMs = s.segmentIntervalMs from hinterval]
        exact isStoreKey_storeKeyFor [] none htime trivial
      refine (SegmentStore.not_below_iff h.ahead.floor h.ahead.spaced hkey none).1
        (hadmits [] none time htime _ ?_)
      rw [sends, SegmentStore.sendsPut, if_neg (show ¬ s.reopen.Late time from hlate)]
      exact mem_singleton_self _

theorem Guarded.status (h : s.Guarded) {call : Call} (htimed : call.Timed)
    (hclears : s.Clears call) : (s.perform call).1 = checkBatch [] (s.sends call) := by
  have hadmits := (h.clears_iff htimed).1 hclears
  rw [perform_status]
  cases call with
  | put key value timestamp => exact checkBatch_of_not_below hadmits
  | restore records => exact checkBatch_of_not_below hadmits
  | reopen => rfl

end WindowStore

namespace SessionStore

/-- Closed and opened on the same state. -/
def reopen (s : SessionStore) : SessionStore := ⟨s.toSegmentStore.reopen 16⟩

/-- What is done with a session store. -/
inductive Call
  | put (session : Windowed) (value : Option Value)
  | remove (session : Windowed)
  | restore (records : List Logged)
  | reopen

variable (s : SessionStore)

/-- A call, with the store it leaves. -/
def perform : Call → Status × SessionStore
  | .put session value => s.put session value
  | .remove session => s.remove session
  | .restore records => s.restoring records
  | .reopen => (.ok, s.reopen)

/-- What a call hands to the engine; only `put` drops late sessions. -/
def sends : Call → List Db.BatchOp
  | .put session value => s.sendsPut session.endTime (s.storeKey session) value
  | .remove session => [.remove (s.storeKey session)]
  | .restore records => records.map (SegmentStore.restoreOp 16 s.segmentIntervalMs)
  | .reopen => []

/-- Times are not negative, restored records of the changelog's form. -/
def Call.Timed : Call → Prop
  | .put session _ => IsTime session.startTime ∧ IsTime session.endTime
  | .remove session => IsTime session.startTime ∧ IsTime session.endTime
  | .restore records => ∀ record ∈ records, ∃ endTime, IsTime endTime ∧
      ∃ key startTime, True ∧ record.1 = key ++ SessionKeys.times endTime startTime
  | .reopen => True

/-- No session removed or restored is in a truncated segment, and the time seeded at a reopen, of
the key that sorts last, accepts none of one. -/
def Clears : Call → Prop
  | .put _ _ => True
  | .remove session => oldestSegment s.db ≤ segmentId session.endTime s.segmentIntervalMs
  | .restore records => ∀ record ∈ records,
      oldestSegment s.db ≤ segmentId (SessionKeys.endOf record.1) s.segmentIntervalMs
  | .reopen => oldestSegment s.db ≤ segmentId
      (oldestAccepted s.retentionPeriodMs (SegmentStore.newestTime 16 s.db)) s.segmentIntervalMs

/-- Nothing below the floor is offered; after a reopen, by no `put`. -/
def Admits : Call → Prop
  | .reopen => ∀ (session : Windowed) value, IsTime session.startTime ∧ IsTime session.endTime →
      ∀ op ∈ s.reopen.sends (.put session value), ¬ BelowFloor s.db.floor op
  | call => ∀ op ∈ s.sends call, ¬ BelowFloor s.db.floor op

/-- Runs of calls that meet the condition. -/
inductive Run (start : SessionStore) : SessionStore → Prop
  | start : Run start start
  | call {s : SessionStore} (call : Call) : Run start s → call.Timed → s.Clears call →
      Run start (s.perform call).2

/-- `SegmentStore.Guarded` of the session store. -/
abbrev Guarded (s : SessionStore) : Prop :=
  SegmentStore.Guarded (SessionKeys.form fun _ => True) s.toSegmentStore

variable {s}

theorem Guarded.remove (h : s.Guarded) (session : Windowed) : (s.remove session).2.Guarded := by
  unfold SessionStore.remove
  split
  · exact h
  · next db hdb => exact h.write (fun k v hop => by simp at hop) hdb

theorem Run.guarded {start : SessionStore} (hrun : Run start s) (hstart : start.Guarded) :
    s.Guarded := by
  induction hrun with
  | start => exact hstart
  | call call _ htimed hclears ih =>
    cases call with
    | put session value => exact ih.putRecord (isStoreKey_storeKey htimed.2 trivial) value
    | remove session => exact Guarded.remove ih session
    | restore records => exact ih.restoring htimed
    | reopen => exact ih.reopen hclears

theorem perform_status (s : SessionStore) (call : Call) :
    (s.perform call).1 = checkBatch s.db.floor (s.sends call) := by
  cases call with
  | put session value => exact s.putRecord_status session.endTime _ value
  | remove session =>
    simp only [perform, SessionStore.remove, sends]
    exact status_write ..
  | restore records => exact s.restoring_status 16 records
  | reopen => rfl

theorem Guarded.clears_iff (h : s.Guarded) {call : Call} (htimed : call.Timed) :
    s.Clears call ↔ s.Admits call := by
  cases call with
  | put session value =>
    exact iff_of_true trivial (h.put_above (isStoreKey_storeKey htimed.2 trivial) value)
  | remove session =>
    have hkey : (SessionKeys.form fun _ => True).IsStoreKey s.segmentIntervalMs session.endTime
      (s.storeKey session) := isStoreKey_storeKey htimed.2 trivial
    refine (SegmentStore.not_below_iff h.ahead.floor h.ahead.spaced hkey none).symm.trans
      ⟨fun h op hop => ?_, fun h => h _ (mem_singleton_self _)⟩
    rw [mem_singleton.1 hop]
    exact h
  | restore records => exact h.restore_above_iff htimed
  | reopen =>
    obtain ⟨hdb, hinterval, -⟩ := h.reopen_fields
    constructor
    · intro hclears session value htime
      have habove := (h.reopen hclears).put_above
        (isStoreKey_storeKey (s := s.reopen) htime.2 trivial) value
      rwa [hdb] at habove
    · intro hadmits
      refine h.reopen_clears fun time htime hlate => ?_
      have hkey : (SessionKeys.form fun _ => True).IsStoreKey s.segmentIntervalMs time
          (s.reopen.storeKey ⟨[], time, time⟩) := by
        rw [← show s.reopen.segmentIntervalMs = s.segmentIntervalMs from hinterval]
        exact ⟨_, ⟨htime, [], time, trivial, rfl⟩, rfl⟩
      refine (SegmentStore.not_below_iff h.ahead.floor h.ahead.spaced hkey none).1
        (hadmits ⟨[], time, time⟩ none ⟨htime, htime⟩ _ ?_)
      rw [sends, SegmentStore.sendsPut, if_neg (show ¬ s.reopen.Late time from hlate)]
      exact mem_singleton_self _

theorem Guarded.status (h : s.Guarded) {call : Call} (htimed : call.Timed)
    (hclears : s.Clears call) : (s.perform call).1 = checkBatch [] (s.sends call) := by
  have hadmits := (h.clears_iff htimed).1 hclears
  rw [perform_status]
  cases call with
  | put session value => exact checkBatch_of_not_below hadmits
  | remove session => exact checkBatch_of_not_below hadmits
  | restore records => exact checkBatch_of_not_below hadmits
  | reopen => rfl

end SessionStore

/-! ### Both stores -/

/-- In runs that meet the condition, the next call offers nothing below the floor exactly if it
meets it too, and is then refused for sizes only; a `put` always does. -/
theorem floor_never_refuses_iff {retentionMs segmentIntervalMs : ℤ} (windowSizeMs : ℤ) (dups : Bool)
    (hretention : 1 ≤ retentionMs) (hinterval : 1 ≤ segmentIntervalMs) :
    (∀ s, WindowStore.Run (.empty retentionMs segmentIntervalMs windowSizeMs dups) s →
      ∀ call : WindowStore.Call, call.Timed →
        (s.Clears call ↔ s.Admits call) ∧
        (s.Clears call → (s.perform call).1 = checkBatch [] (s.sends call))) ∧
    (∀ s, SessionStore.Run (.empty retentionMs segmentIntervalMs) s →
      ∀ call : SessionStore.Call, call.Timed →
        (s.Clears call ↔ s.Admits call) ∧
        (s.Clears call → (s.perform call).1 = checkBatch [] (s.sends call))) := by
  refine ⟨fun s hrun call htimed => ?_, fun s hrun call htimed => ?_⟩
  · have hguarded := hrun.guarded (.empty _ hretention hinterval)
    exact ⟨hguarded.clears_iff htimed, hguarded.status htimed⟩
  · have hguarded := hrun.guarded (.empty _ hretention hinterval)
    exact ⟨hguarded.clears_iff htimed, hguarded.status htimed⟩

/-- After a truncating put, a reopen and a restored batch, a late window is dropped and a kept
session removed. -/
theorem floor_never_refuses_reopened :
    let window := ((WindowStore.empty 5 10 3 false).put [1] (some [1]) 105).2.reopen.restoring
      [([2] ++ WindowKeys.times 103 0, some [2])]
    let session := ((SessionStore.empty 5 10).put ⟨[1], 101, 105⟩ (some [1])).2.reopen.restoring
      [([2] ++ SessionKeys.times 103 90, some [2])]
    window.1 = .ok ∧ (window.2.put [3] (some [3]) 97).1 = .ok ∧
      session.1 = .ok ∧ (session.2.remove ⟨[2], 90, 103⟩).1 = .ok := by
  have htime (n : ℕ) (hn : n ≤ 105) : IsTime n := by
    unfold IsTime longMax
    omega
  have hfloor := floor_never_refuses_iff 3 false (by decide : (1 : ℤ) ≤ 5) (by decide : (1 : ℤ) ≤ 10)
  have hwindow : WindowStore.Run (.empty 5 10 3 false)
      ((WindowStore.empty 5 10 3 false).put [1] (some [1]) 105).2.reopen := by
    refine .call .reopen (.call (.put [1] (some [1]) 105) .start (htime 105 le_rfl) trivial)
      trivial ?_
    simp only [WindowStore.Clears]
    decide +kernel
  have hsession : SessionStore.Run (.empty 5 10)
      ((SessionStore.empty 5 10).put ⟨[1], 101, 105⟩ (some [1])).2.reopen := by
    refine .call .reopen (.call (.put ⟨[1], 101, 105⟩ (some [1])) .start
      ⟨htime 101 (by decide), htime 105 le_rfl⟩ trivial) trivial ?_
    simp only [SessionStore.Clears]
    decide +kernel
  have hrestored : (WindowStore.Call.restore [([2] ++ WindowKeys.times 103 0, some [2])]).Timed :=
    forall_mem_singleton.2 ⟨103, htime 103 (by decide), [2], 0, trivial, rfl⟩
  have hrestored' : (SessionStore.Call.restore
      [([2] ++ SessionKeys.times 103 90, some [2])]).Timed :=
    forall_mem_singleton.2 ⟨103, htime 103 (by decide), [2], 90, trivial, rfl⟩
  refine ⟨((hfloor.1 _ hwindow _ hrestored).2 ?_).trans (by decide +kernel),
    ((hfloor.1 _ (.call _ hwindow hrestored ?_) (.put [3] (some [3]) 97)
      (htime 97 (by decide))).2 trivial).trans (by decide +kernel),
    ((hfloor.2 _ hsession _ hrestored').2 ?_).trans (by decide +kernel),
    ((hfloor.2 _ (.call _ hsession hrestored' ?_) (.remove ⟨[2], 90, 103⟩)
      ⟨htime 90 (by decide), htime 103 (by decide)⟩).2 ?_).trans (by decide +kernel)⟩
  all_goals
    simp only [WindowStore.Clears, SessionStore.Clears]
    decide +kernel

/-- With a retention of 5 and segments of 10, the engine refuses a window not late after a reopen,
as the key that sorts last is older; a restored truncated window; and the removal of a truncated
session. -/
theorem floor_refuses :
    let window : WindowStore := .empty 5 10 3 false
    let ahead := window.put [1] (some [1]) 105
    let behind := ahead.2.put [2] (some [2]) 101
    let session := (SessionStore.empty 5 10).put ⟨[1], 105, 105⟩ (some [1])
    (ahead.1 = .ok ∧ behind.1 = .ok ∧ behind.2.reopen.observedStreamTime = 101 ∧
      (behind.2.reopen.put [3] (some [3]) 97).1 = .config ∧
      (behind.2.put [3] (some [3]) 97).1 = .ok ∧
      (behind.2.put [3] (some [3]) 97).2.db.entries = behind.2.db.entries) ∧
    (behind.2.reopen.restoring [([3] ++ WindowKeys.times 97 0, some [3])]).1 = .config ∧
    (session.1 = .ok ∧ (session.2.remove ⟨[3], 90, 97⟩).1 = .config) := by
  decide +kernel

end ElysiumKV.Streams
