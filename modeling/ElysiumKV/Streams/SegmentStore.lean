import ElysiumKV.Streams.Segments

/-!
# Stores over segments

What the window and the session store share: records lie in segments by time, late ones are dropped,
segments behind the retention truncated. They differ in the layout of their keys (`KeyForm`).
-/

namespace ElysiumKV.Streams

open ByteOrder

/-! ### Records and their keys -/

/-- A changelog record; `null` is a deletion. -/
abbrev Logged := Bytes × Option Value

/-- What the engine is asked to do with a record. -/
def recordOp (key : Key) : Option Value → Db.BatchOp
  | none => .remove key
  | some value => .put key value

/-- A key with its time's segment in front. -/
def inSegment (segmentIntervalMs time : ℤ) (key : Bytes) : Key :=
  segmentPrefix (segmentId time segmentIntervalMs) ++ key

/-- The layout of a changelog's keys: `IsKey time key`, with the time `width` bytes before the end.
-/
structure KeyForm where
  width : ℕ
  IsKey : ℤ → Bytes → Prop
  isTime : ∀ {time key}, IsKey time key → IsTime time
  timed : ∀ {time key}, IsKey time key → ∀ front, longFromEnd width (front ++ key) = time

/-- The key a record at `time` is stored under. -/
def KeyForm.IsStoreKey (form : KeyForm) (interval time : ℤ) (storeKey : Key) : Prop :=
  ∃ key, form.IsKey time key ∧ storeKey = inSegment interval time key

namespace KeyForm.IsStoreKey

variable {form : KeyForm} {interval time : ℤ} {storeKey : Key}

theorem isTime (h : form.IsStoreKey interval time storeKey) : IsTime time := by
  obtain ⟨key, hkey, -⟩ := h
  exact form.isTime hkey

theorem longFromEnd (h : form.IsStoreKey interval time storeKey) :
    longFromEnd form.width storeKey = time := by
  obtain ⟨key, hkey, rfl⟩ := h
  exact form.timed hkey _

theorem segment (h : form.IsStoreKey interval time storeKey) (hinterval : 1 ≤ interval) :
    IsTime (segmentId time interval) := segmentId_isTime hinterval h.isTime

theorem segmentOf (h : form.IsStoreKey interval time storeKey) (hinterval : 1 ≤ interval) :
    segmentOf storeKey = segmentId time interval := by
  have hsegment := h.segment hinterval
  obtain ⟨key, -, rfl⟩ := h
  exact segmentOf_append hsegment key

theorem le_iff (h : form.IsStoreKey interval time storeKey) (hinterval : 1 ≤ interval) {g : ℤ}
    (hg : IsTime g) : segmentPrefix g ≤ storeKey ↔ g ≤ segmentId time interval := by
  have hsegment := h.segment hinterval
  obtain ⟨key, -, rfl⟩ := h
  exact segmentPrefix_le_iff hg hsegment key

end KeyForm.IsStoreKey

/-- What both stores have beside their keys. -/
structure SegmentStore where
  retentionPeriodMs : ℤ
  segmentIntervalMs : ℤ
  db : Engine := .empty
  observedStreamTime : ℤ := -1
  truncatedThrough : ℤ := -1

namespace SegmentStore

variable (s : SegmentStore)

/-- Stream time follows the records. -/
def observe (time : ℤ) : SegmentStore :=
  { s with observedStreamTime := max s.observedStreamTime time }

/-- Behind the retention, once stream time follows it. -/
abbrev Late (time : ℤ) : Prop :=
  time ≤ max s.observedStreamTime time - s.retentionPeriodMs

/-- Truncate the segments behind the retention. -/
def expireSegmentsBelowRetention : SegmentStore :=
  let cutoff := s.observedStreamTime - s.retentionPeriodMs
  if cutoff < 0 then s
  else
    let minLiveSegment := segmentId cutoff s.segmentIntervalMs
    if minLiveSegment ≤ s.truncatedThrough then s
    else
      { s with
        db := s.db.truncateBelow (segmentPrefix minLiveSegment)
        truncatedThrough := minLiveSegment }

/-- `put` from the key on: a late record is dropped. -/
def putRecord (time : ℤ) (storeKey : Key) (value : Option Value) : Status × SegmentStore :=
  let s := s.observe time
  if time ≤ s.observedStreamTime - s.retentionPeriodMs then (.ok, s)
  else match s.db.write [recordOp storeKey value] with
    | .error status => (status, s)
    | .ok db => (.ok, { s with db := db }.expireSegmentsBelowRetention)

/-- What restoring a record asks of the engine. -/
def restoreOp (width : ℕ) (segmentIntervalMs : ℤ) (record : Logged) : Db.BatchOp :=
  recordOp (fromChangelogKey width record.1 segmentIntervalMs) record.2

/-- The restore callback, also if the engine refuses: stream time follows the records, written
whatever their time. -/
def restoring (width : ℕ) (s : SegmentStore) (records : List Logged) : Status × SegmentStore :=
  let s := records.foldl (fun s record => s.observe (longFromEnd width record.1)) s
  match s.db.write (records.map (restoreOp width s.segmentIntervalMs)) with
  | .error status => (status, s)
  | .ok db => (.ok, { s with db := db })

/-- Stream time from the key that sorts last, the clamp from the first. -/
def seedLiveBandFromDisk (width : ℕ) (s : SegmentStore) : SegmentStore :=
  let s := match (s.db.reverseIterator none none).head? with
    | none => s
    | some newest => s.observe (longFromEnd width newest.1)
  match (s.db.iterator none none).head? with
  | none => s
  | some oldest =>
    { s with truncatedThrough := segmentId (longFromEnd width oldest.1) s.segmentIntervalMs - 1 }

/-- Closed and opened on the same state. -/
def reopen (width : ℕ) (s : SegmentStore) : SegmentStore :=
  seedLiveBandFromDisk width { s with observedStreamTime := -1, truncatedThrough := -1 }

/-- The first segment a scan visits. -/
def firstLiveSegment (timeFrom : ℤ) : ℤ :=
  max (segmentId (max timeFrom 0) s.segmentIntervalMs) (max s.truncatedThrough 0)

/-! ### What the operations can do -/

variable {s} {time : ℤ} {storeKey : Key} {value : Option Value}

theorem expire_eq (s : SegmentStore) : s.expireSegmentsBelowRetention = s ∨
    0 ≤ s.observedStreamTime - s.retentionPeriodMs ∧ s.expireSegmentsBelowRetention =
      { s with
        db := s.db.truncateBelow (segmentPrefix
          (segmentId (s.observedStreamTime - s.retentionPeriodMs) s.segmentIntervalMs))
        truncatedThrough :=
          segmentId (s.observedStreamTime - s.retentionPeriodMs) s.segmentIntervalMs } := by
  unfold expireSegmentsBelowRetention
  simp only
  split_ifs with hcutoff hseg
  · exact .inl rfl
  · exact .inl rfl
  · exact .inr ⟨not_lt.1 hcutoff, rfl⟩

theorem expire_fields (s : SegmentStore) :
    s.expireSegmentsBelowRetention.segmentIntervalMs = s.segmentIntervalMs ∧
      s.expireSegmentsBelowRetention.observedStreamTime = s.observedStreamTime := by
  rcases s.expire_eq with h | ⟨-, h⟩ <;> rw [h] <;> exact ⟨rfl, rfl⟩

/-- Drop a late record, fail in the engine, or write one. -/
inductive PutStep (s : SegmentStore) (time : ℤ) (storeKey : Key) (value : Option Value) :
    Status × SegmentStore → Prop
  | late (h : s.Late time) : PutStep s time storeKey value (.ok, s.observe time)
  | refused (status : Status) (h : ¬ s.Late time)
      (hdb : s.db.write [recordOp storeKey value] = .error status) :
      PutStep s time storeKey value (status, s.observe time)
  | written (db : Engine) (h : ¬ s.Late time)
      (hdb : s.db.write [recordOp storeKey value] = .ok db) :
      PutStep s time storeKey value
        (.ok, { s.observe time with db := db }.expireSegmentsBelowRetention)

theorem putRecord_step (s : SegmentStore) (time : ℤ) (storeKey : Key) (value : Option Value) :
    PutStep s time storeKey value (s.putRecord time storeKey value) := by
  unfold putRecord
  simp only
  split_ifs with hlate
  · exact .late hlate
  · have hsame : (s.observe time).db = s.db := rfl
    rw [hsame]
    cases hdb : s.db.write [recordOp storeKey value] with
    | error status => exact .refused status hlate hdb
    | ok db => exact .written db hlate hdb

theorem mem_write_recordOp {db db' : Engine} (h : db.write [recordOp storeKey value] = .ok db')
    {e : Record} (he : e ∈ db'.entries) : e.1 = storeKey ∨ e ∈ db.entries := by
  cases value with
  | none => exact .inr (Engine.mem_delete h he)
  | some value => exact (Engine.mem_put h he).imp_left (congrArg Prod.fst)

/-! ### The live band -/

/-- Stored as `put` stores it, in a segment neither truncated nor ahead of stream time. -/
structure Live (form : KeyForm) (s : SegmentStore) (record : Record) (time : ℤ) : Prop where
  stored : form.IsStoreKey s.segmentIntervalMs time record.1
  kept : s.truncatedThrough ≤ segmentId time s.segmentIntervalMs
  observed : time ≤ s.observedStreamTime

/-- The live band covers the records. -/
structure Covered (form : KeyForm) (s : SegmentStore) : Prop where
  interval : 1 ≤ s.segmentIntervalMs
  live : ∀ e ∈ s.db.entries, ∃ time, s.Live form e time

variable {form : KeyForm}

theorem Covered.segmented (h : s.Covered form) : Segmented s.db := by
  intro e he
  obtain ⟨time, hlive⟩ := h.live e he
  have hsegment := hlive.stored.segment h.interval
  obtain ⟨key, -, hkey⟩ := hlive.stored
  exact ⟨_, key, hsegment, hkey⟩

theorem Covered.band (h : s.Covered form) {timeFrom : ℤ} {e : Record} (he : e ∈ s.db.entries)
    (hkeep : timeFrom ≤ longFromEnd form.width e.1) :
    s.firstLiveSegment timeFrom ≤ segmentOf e.1 ∧
      segmentOf e.1 ≤ segmentId (max s.observedStreamTime 0) s.segmentIntervalMs := by
  obtain ⟨time, hlive⟩ := h.live e he
  have htime := hlive.stored.isTime.1
  have hobserved := hlive.observed
  rw [hlive.stored.longFromEnd] at hkeep
  rw [hlive.stored.segmentOf h.interval]
  refine ⟨max_le (segmentId_mono h.interval (le_max_right _ _) (by omega)) (max_le hlive.kept ?_),
    segmentId_mono h.interval htime (by omega)⟩
  exact (hlive.stored.segment h.interval).1

theorem Covered.of_entries {r : SegmentStore} (h : s.Covered form)
    (hinterval : r.segmentIntervalMs = s.segmentIntervalMs)
    (hentries : r.db.entries = s.db.entries)
    (hclock : s.observedStreamTime ≤ r.observedStreamTime) (hthrough : r.truncatedThrough < 0) :
    r.Covered form := by
  refine ⟨hinterval ▸ h.interval, fun e he => ?_⟩
  obtain ⟨time, hlive⟩ := h.live e (hentries ▸ he)
  refine ⟨time, hinterval ▸ hlive.stored, ?_, hlive.observed.trans hclock⟩
  rw [hinterval]
  exact hthrough.le.trans (hlive.stored.segment h.interval).1

/-- The live band covers the records, and no segment the retention reaches was truncated. -/
structure Steady (form : KeyForm) (s : SegmentStore) : Prop extends Covered form s where
  retention : 0 ≤ s.retentionPeriodMs
  clock : s.observedStreamTime ≤ longMax
  behind : s.truncatedThrough < 0 ∨ 0 ≤ s.observedStreamTime - s.retentionPeriodMs ∧
    s.truncatedThrough ≤ segmentId (s.observedStreamTime - s.retentionPeriodMs) s.segmentIntervalMs

namespace Steady

theorem empty (form : KeyForm) {retentionPeriodMs segmentIntervalMs : ℤ}
    (hretention : 0 ≤ retentionPeriodMs) (hinterval : 1 ≤ segmentIntervalMs) :
    Steady form ⟨retentionPeriodMs, segmentIntervalMs, {}, -1, -1⟩ where
  interval := hinterval
  live e he := absurd he (by simp)
  retention := hretention
  clock := show (-1 : ℤ) ≤ longMax by decide
  behind := .inl (show (-1 : ℤ) < 0 by decide)

theorem observe (h : s.Steady form) (htime : IsTime time) : (s.observe time).Steady form := by
  have hgrow : s.observedStreamTime ≤ max s.observedStreamTime time := le_max_left _ _
  refine ⟨⟨h.interval, fun e he => ?_⟩, h.retention, max_le h.clock htime.2,
    h.behind.imp_right fun hb => ?_⟩
  · obtain ⟨time', hlive⟩ := h.live e he
    exact ⟨time', hlive.stored, hlive.kept, hlive.observed.trans hgrow⟩
  · have hcutoff : s.observedStreamTime - s.retentionPeriodMs ≤
        max s.observedStreamTime time - s.retentionPeriodMs := by omega
    exact ⟨hb.1.trans hcutoff, hb.2.trans (segmentId_mono h.interval hb.1 hcutoff)⟩

theorem kept (h : s.Steady form) (htime : IsTime time)
    (hlate : ¬ time ≤ s.observedStreamTime - s.retentionPeriodMs) :
    s.truncatedThrough ≤ segmentId time s.segmentIntervalMs := by
  rcases h.behind with hb | ⟨hcutoff, hb⟩
  · exact hb.le.trans (segmentId_isTime h.interval htime).1
  · exact hb.trans (segmentId_mono h.interval hcutoff (by omega))

theorem cutoff (h : s.Steady form) (hcutoff : 0 ≤ s.observedStreamTime - s.retentionPeriodMs) :
    IsTime (segmentId (s.observedStreamTime - s.retentionPeriodMs) s.segmentIntervalMs) := by
  have := h.retention
  have := h.clock
  exact segmentId_isTime h.interval ⟨hcutoff, by omega⟩

theorem expire (h : s.Steady form) : s.expireSegmentsBelowRetention.Steady form := by
  rcases s.expire_eq with hexpire | ⟨hcutoff, hexpire⟩
  · rwa [hexpire]
  · rw [hexpire]
    refine ⟨⟨h.interval, fun e he => ?_⟩, h.retention, h.clock, .inr ⟨hcutoff, le_rfl⟩⟩
    obtain ⟨hmem, hfloor⟩ := Engine.mem_truncateBelow he
    obtain ⟨time, hlive⟩ := h.live e hmem
    exact ⟨time, hlive.stored, (hlive.stored.le_iff h.interval (h.cutoff hcutoff)).1 hfloor,
      hlive.observed⟩

theorem write (h : s.Steady form) {db : Engine} (hentries : ∀ e ∈ db.entries,
      (∃ time, s.Live form e time) ∨ e ∈ s.db.entries) :
    Steady form { s with db := db } := by
  refine ⟨⟨h.interval, fun e he => ?_⟩, h.retention, h.clock, h.behind⟩
  obtain ⟨time, hlive⟩ := (hentries e he).elim id (h.live e)
  exact ⟨time, hlive.stored, hlive.kept, hlive.observed⟩

theorem written (h : s.Steady form) (hkey : form.IsStoreKey s.segmentIntervalMs time storeKey)
    (hlate : ¬ s.Late time) {db : Engine} (hdb : s.db.write [recordOp storeKey value] = .ok db) :
    Steady form { s.observe time with db := db } := by
  have hstep := h.observe hkey.isTime
  refine hstep.write fun e he => (mem_write_recordOp hdb he).imp_left fun heq => ?_
  exact ⟨time, heq ▸ hkey, hstep.kept hkey.isTime hlate, le_max_right _ _⟩

theorem putRecord (h : s.Steady form) (hkey : form.IsStoreKey s.segmentIntervalMs time storeKey)
    (value : Option Value) : (s.putRecord time storeKey value).2.Steady form := by
  have hput := s.putRecord_step time storeKey value
  generalize s.putRecord time storeKey value = result at hput ⊢
  cases hput with
  | late hlate => exact h.observe hkey.isTime
  | refused status hlate hdb => exact h.observe hkey.isTime
  | written db hlate hdb => exact (h.written hkey hlate hdb).expire

end Steady

end SegmentStore

end ElysiumKV.Streams
