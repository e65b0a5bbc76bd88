import ElysiumKV.Streams.SessionStore
import ElysiumKV.Streams.VersionedReads

/-!
# Restoring from the changelog

Window and session stores write every record to the engine in batches, with no retention or
truncation; the versioned store puts each version again, a deletion at stream time. `Engine.Mirrors`
is what calls must keep for both engines to hold the same.
-/

namespace ElysiumKV.Streams

open ByteOrder List

/-- Why a restore does not return. -/
inductive Stop
  | thrown (status : Status)
  | diverges
deriving DecidableEq, Repr

/-- What is left unless the call throws. -/
def unlessThrown {σ : Type} : Status × σ → Except Stop σ
  | (.ok, s) => .ok s
  | (status, _) => .error (.thrown status)

/-! ### Replaying records -/

theorem eq_of_valueAt {a b : List Record} (ha : SortedMap.Sorted Prod.fst a)
    (hb : SortedMap.Sorted Prod.fst b) (h : ∀ k, valueAt a k = valueAt b k) : a = b := by
  have : Std.Irrefl fun x y : Record => x.1 < y.1 := ⟨fun x => lt_irrefl x.1⟩
  have : Std.Antisymm fun x y : Record => x.1 < y.1 := ⟨fun x y hxy hyx => absurd hxy hyx.not_gt⟩
  refine ha.eq_of_mem_iff hb fun r => ?_
  rw [← Prod.mk.eta (p := r), ← valueAt_eq_some_iff ha, ← valueAt_eq_some_iff hb, h]

theorem applyOp_recordOp_of_same {entries : List Record}
    (hsorted : SortedMap.Sorted Prod.fst entries) {key : Key} {value : Option Value}
    (h : valueAt entries key = value) : applyOp entries (recordOp key value) = entries := by
  refine eq_of_valueAt (sorted_applyOp hsorted _) hsorted fun k => ?_
  rw [valueAt_applyOp]
  cases value with
  | none =>
    simp only [recordOp, overwrite]
    split_ifs with hk
    · rw [← hk, h]
    · rfl
  | some value =>
    simp only [recordOp, overwrite]
    split_ifs with hk
    · rw [← hk, h]
    · rfl

theorem checkOp_of_floor {floor : Key} {op : Db.BatchOp}
    (h : Db.checkOp { writeFloor := floor } op = .ok) : Db.checkOp {} op = .ok := by
  have hnone : ∀ key, Db.checkBelowTruncation {} key = .ok := fun key => by
    simp [Db.checkBelowTruncation]
  cases op with
  | put key value =>
    simp only [Db.checkOp, hnone] at h ⊢
    split at h <;> simp_all
  | remove key =>
    simp only [Db.checkOp, hnone] at h ⊢
    split at h <;> simp_all
  | deleteRange lower upper => exact h

namespace Engine

/-- The engine holds what the operations leave on an empty one, which takes them all. -/
structure Mirrors (e : Engine) (ops : List Db.BatchOp) : Prop where
  entries : ops.foldl applyOp [] = e.entries
  fits : ∀ op ∈ ops, Db.checkOp {} op = .ok

variable {e e' : Engine} {ops : List Db.BatchOp}

theorem write_ne_ok (e : Engine) (batch : List Db.BatchOp) : e.write batch ≠ .error .ok := by
  unfold Engine.write
  split_ifs with hcheck
  · simp
  · simpa using hcheck

theorem mirrors_empty : Mirrors {} [] := ⟨rfl, by simp⟩

theorem Mirrors.write (h : e.Mirrors ops) {op : Db.BatchOp} (hwrite : e.write [op] = .ok e') :
    e'.Mirrors (ops ++ [op]) := by
  obtain ⟨hcheck, hentries, -⟩ := write_eq_ok hwrite
  refine ⟨by rw [foldl_append, h.entries, hentries], fun o ho => ?_⟩
  rcases mem_append.1 ho with ho | ho
  · exact h.fits o ho
  · rw [mem_singleton.1 ho]
    exact checkOp_of_floor ((checkBatch_eq_ok_iff _ _).1 hcheck op (mem_singleton_self op))

theorem Mirrors.same (h : e.Mirrors ops) {key : Key} {value : Option Value}
    (hsame : e.getCopy key = value) (hfits : Db.checkOp {} (recordOp key value) = .ok) :
    e.Mirrors (ops ++ [recordOp key value]) := by
  refine ⟨?_, fun o ho => ?_⟩
  · rw [foldl_append, h.entries]
    exact applyOp_recordOp_of_same e.sorted hsame
  · rcases mem_append.1 ho with ho | ho
    · exact h.fits o ho
    · rwa [mem_singleton.1 ho]

theorem Mirrors.truncateBelow (h : e.Mirrors ops) {key : Key}
    (hkept : ∀ r ∈ e.entries, key ≤ r.1) : (e.truncateBelow key).Mirrors ops := by
  refine ⟨?_, h.fits⟩
  rw [h.entries]
  refine (filter_eq_self.2 fun r hr => ?_).symm
  simpa using max_le (e.above r hr) (hkept r hr)

theorem write_of_fits {e : Engine} (hfloor : e.floor = []) (batch : List Db.BatchOp)
    (h : ∀ op ∈ batch, Db.checkOp {} op = .ok) :
    ∃ e', e.write batch = .ok e' ∧ e'.entries = batch.foldl applyOp e.entries ∧ e'.floor = [] := by
  have hcheck : checkBatch e.floor batch = .ok := hfloor ▸ (checkBatch_eq_ok_iff [] batch).2 h
  obtain ⟨e', he'⟩ := write_of_check hcheck
  obtain ⟨-, hentries, hsame⟩ := write_eq_ok he'
  exact ⟨e', he', hentries, hsame.trans hfloor⟩

end Engine

theorem foldlM_restore {σ : Type} {restore : σ → List Logged → Except Stop σ}
    (Inv : σ → List Logged → Prop) (fits : Logged → Prop)
    (step : ∀ s done batch, Inv s done → (∀ r ∈ batch, fits r) →
      ∃ s', restore s batch = .ok s' ∧ Inv s' (done ++ batch))
    {s : σ} (done : List Logged) (h : Inv s done) (batches : List (List Logged))
    (hfits : ∀ r ∈ batches.flatten, fits r) :
    ∃ s', batches.foldlM restore s = .ok s' ∧ Inv s' (done ++ batches.flatten) := by
  induction batches generalizing s done with
  | nil => exact ⟨s, rfl, by simpa using h⟩
  | cons batch batches ih =>
    rw [flatten_cons] at hfits
    obtain ⟨s', hs', hinv⟩ := step s done batch h fun r hr => hfits r (mem_append_left _ hr)
    obtain ⟨s'', hs'', hinv'⟩ := ih _ hinv fun r hr => hfits r (mem_append_right _ hr)
    refine ⟨s'', ?_, ?_⟩
    · rw [foldlM_cons, hs']
      exact hs''
    · rwa [flatten_cons, ← append_assoc]

namespace SegmentStore

/-- Stream time after the records. -/
def clockOf (width : ℕ) (start : ℤ) (log : List Logged) : ℤ :=
  log.foldl (fun time record => max time (longFromEnd width record.1)) start

theorem clockOf_append (width : ℕ) (start : ℤ) (log records : List Logged) :
    clockOf width start (log ++ records) = clockOf width (clockOf width start log) records :=
  foldl_append ..

theorem foldl_observe (width : ℕ) (s : SegmentStore) (records : List Logged) :
    records.foldl (fun s record => s.observe (longFromEnd width record.1)) s =
      { s with observedStreamTime := clockOf width s.observedStreamTime records } := by
  induction records generalizing s with
  | nil => rfl
  | cons record records ih => exact ih _

/-- A changelog restored to an empty engine. -/
structure RestoredBy (width : ℕ) (start s : SegmentStore) (log : List Logged) : Prop where
  interval : s.segmentIntervalMs = start.segmentIntervalMs
  untouched : s.truncatedThrough = start.truncatedThrough
  clock : s.observedStreamTime = clockOf width start.observedStreamTime log
  entries : s.db.entries = (log.map (restoreOp width start.segmentIntervalMs)).foldl applyOp []
  floor : s.db.floor = []

variable {width : ℕ} {s start : SegmentStore} {log : List Logged}

theorem RestoredBy.restoring (h : RestoredBy width start s log) {batch : List Logged}
    (hfits : ∀ r ∈ batch, Db.checkOp {} (restoreOp width start.segmentIntervalMs r) = .ok) :
    ∃ s', s.restoring width batch = (.ok, s') ∧ RestoredBy width start s' (log ++ batch) := by
  obtain ⟨db, hwrite, hentries, hfloor⟩ := Engine.write_of_fits h.floor
    (batch.map (restoreOp width start.segmentIntervalMs)) (forall_mem_map.2 hfits)
  refine ⟨{ s with observedStreamTime := clockOf width s.observedStreamTime batch, db := db }, ?_,
    h.interval, h.untouched, ?_, ?_, hfloor⟩
  · simp only [SegmentStore.restoring, foldl_observe, h.interval, hwrite]
  · rw [clockOf_append, ← h.clock]
  · rw [map_append, foldl_append, ← h.entries]
    exact hentries

/-- A late record must say what is stored, for it is dropped live yet restored; and none may fall
behind the retention, for restoring truncates nothing. -/
structure Repeatable (width : ℕ) (s : SegmentStore) (key : Bytes) (value : Option Value)
    (time : ℤ) : Prop where
  isTime : IsTime time
  returned : (s.putRecord time (inSegment s.segmentIntervalMs time key) value).1 = .ok
  late : s.Late time → s.db.getCopy (inSegment s.segmentIntervalMs time key) = value ∧
    Db.checkOp {} (recordOp (inSegment s.segmentIntervalMs time key) value) = .ok
  kept : ¬ s.Late time → 0 ≤ max s.observedStreamTime time - s.retentionPeriodMs →
    ∀ e ∈ s.db.entries,
      segmentId (max s.observedStreamTime time - s.retentionPeriodMs) s.segmentIntervalMs ≤
        segmentId (longFromEnd width e.1) s.segmentIntervalMs

/-- A live store and its changelog; other calls may move only a restored store's stream time. -/
structure Mirrored (form : KeyForm) (start s : SegmentStore) (log : List Logged) : Prop where
  steady : s.Steady form
  interval : s.segmentIntervalMs = start.segmentIntervalMs
  clock : s.observedStreamTime ≤ clockOf form.width start.observedStreamTime log
  mirrors : s.db.Mirrors (log.map (restoreOp form.width start.segmentIntervalMs))

variable {form : KeyForm} {time : ℤ} {key : Bytes} {value : Option Value}

theorem clockOf_logged (log : List Logged) (hkey : form.IsKey time key) (value : Option Value)
    (clock : ℤ) :
    clockOf form.width clock (log ++ [(key, value)]) = max (clockOf form.width clock log) time := by
  rw [clockOf_append]
  exact congrArg (max _) (form.timed hkey [])

theorem map_restoreOp_logged (log : List Logged) (hkey : form.IsKey time key)
    (value : Option Value) (interval : ℤ) :
    (log ++ [(key, value)]).map (restoreOp form.width interval) =
      log.map (restoreOp form.width interval) ++ [recordOp (inSegment interval time key) value] := by
  have htime : longFromEnd form.width key = time := form.timed hkey []
  rw [map_append, map_singleton, restoreOp, fromChangelogKey, htime, inSegment]

theorem putRecord_fields (s : SegmentStore) (time : ℤ) (storeKey : Key) (value : Option Value) :
    (s.putRecord time storeKey value).2.segmentIntervalMs = s.segmentIntervalMs ∧
      (s.putRecord time storeKey value).2.observedStreamTime = max s.observedStreamTime time := by
  have hput := s.putRecord_step time storeKey value
  generalize s.putRecord time storeKey value = result at hput ⊢
  cases hput with
  | late hlate => exact ⟨rfl, rfl⟩
  | refused status hlate hdb => exact ⟨rfl, rfl⟩
  | written db hlate hdb => exact expire_fields _

theorem mirrors_expire {ops : List Db.BatchOp} (h : s.db.Mirrors ops)
    (hkept : 0 ≤ s.observedStreamTime - s.retentionPeriodMs → ∀ e ∈ s.db.entries,
      segmentPrefix (segmentId (s.observedStreamTime - s.retentionPeriodMs) s.segmentIntervalMs) ≤
        e.1) :
    s.expireSegmentsBelowRetention.db.Mirrors ops := by
  rcases s.expire_eq with hexpire | ⟨hcutoff, hexpire⟩
  · rwa [hexpire]
  · rw [hexpire]
    exact h.truncateBelow (hkept hcutoff)

theorem Mirrored.putRecord (h : Mirrored form start s log) (hkey : form.IsKey time key)
    (hput : s.Repeatable form.width key value time) :
    Mirrored form start (s.putRecord time (inSegment s.segmentIntervalMs time key) value).2
      (log ++ [(key, value)]) := by
  have hstore : form.IsStoreKey s.segmentIntervalMs time (inSegment s.segmentIntervalMs time key) :=
    ⟨key, hkey, rfl⟩
  have hsteady := h.steady.putRecord hstore value
  have hfields := s.putRecord_fields time (inSegment s.segmentIntervalMs time key) value
  have hlog := map_restoreOp_logged log hkey value s.segmentIntervalMs
  refine ⟨hsteady, hfields.1.trans h.interval, ?_, ?_⟩
  · rw [hfields.2, clockOf_logged log hkey]
    exact max_le_max_right _ h.clock
  have hmirrors := h.mirrors
  rw [← h.interval] at hmirrors ⊢
  have hreturned := hput.returned
  have hstep := s.putRecord_step time (inSegment s.segmentIntervalMs time key) value
  generalize s.putRecord time (inSegment s.segmentIntervalMs time key) value = result
    at hreturned hstep ⊢
  cases hstep with
  | late hlate =>
    obtain ⟨hsame, hfits⟩ := hput.late hlate
    exact hlog ▸ hmirrors.same hsame hfits
  | refused status hlate hdb =>
    obtain rfl : status = .ok := hreturned
    exact absurd hdb (Engine.write_ne_ok _ _)
  | written db hlate hdb =>
    have hwritten := h.steady.written hstore hlate hdb
    refine mirrors_expire (s := { s.observe time with db := db }) (hlog ▸ hmirrors.write hdb) ?_
    intro hcutoff e he
    have hcut := hwritten.cutoff hcutoff
    rcases mem_write_recordOp hdb he with heq | hmem
    · rw [heq]
      exact (hstore.le_iff h.steady.interval hcut).2
        (segmentId_mono h.steady.interval hcutoff (not_le.1 hlate).le)
    · obtain ⟨time', hlive⟩ := h.steady.live e hmem
      have hreached := hput.kept hlate hcutoff e hmem
      rw [hlive.stored.longFromEnd] at hreached
      exact (hlive.stored.le_iff h.steady.interval hcut).2 hreached

/-- The restored store holds what the live one holds, within its live band. -/
theorem RestoredBy.covered {r : SegmentStore} (hr : RestoredBy form.width start r log)
    (h : Mirrored form start s log) (hstart : start.truncatedThrough < 0) :
    r.segmentIntervalMs = s.segmentIntervalMs ∧ r.db.entries = s.db.entries ∧ r.Covered form := by
  have hinterval : r.segmentIntervalMs = s.segmentIntervalMs := hr.interval.trans h.interval.symm
  have hentries : r.db.entries = s.db.entries := hr.entries.trans h.mirrors.entries
  exact ⟨hinterval, hentries, h.steady.toCovered.of_entries hinterval hentries
    (h.clock.trans_eq hr.clock.symm) (hr.untouched.trans_lt hstart)⟩

end SegmentStore

namespace WindowStore

open SegmentStore

open WindowKeys

/-- The restore callback of `open`. -/
def restoring (s : WindowStore) (records : List Logged) : Status × WindowStore :=
  let restored := s.toSegmentStore.restoring 12 records
  (restored.1, { s with toSegmentStore := restored.2 })

/-- The restore callback of `open`. -/
def restore (s : WindowStore) (records : List Logged) : Except Stop WindowStore :=
  unlessThrown (s.restoring records)

/-- With duplicates only deletions: restoring does not bring the sequence number back. -/
structure Repeatable (s : WindowStore) (key : Bytes) (value : Option Value) (timestamp : ℤ) : Prop
    extends SegmentStore.Repeatable 12 s.toSegmentStore (s.loggedKey key value timestamp) value
      timestamp where
  plain : s.retainDuplicates = true → value = none

/-- Repeatable `put`s, with their changelog. -/
inductive LiveRun (start : WindowStore) : WindowStore → List Logged → Prop
  | start : LiveRun start start []
  | put {s : WindowStore} {log : List Logged} (key : Bytes) (value : Option Value)
      (timestamp : ℤ) : LiveRun start s log → s.Repeatable key value timestamp →
      LiveRun start (s.put key value timestamp).2
        (log ++ [(s.loggedKey key value timestamp, value)])

/-- Also, the sequence number has not moved, or nothing is stored. -/
structure Mirrored (start s : WindowStore) (log : List Logged) : Prop where
  mirrored : SegmentStore.Mirrored (form (· ≤ intMax)) start.toSegmentStore
    s.toSegmentStore log
  positive : s.seqnum ≤ intMax
  alike : s.windowSizeMs = start.windowSizeMs ∧ s.retainDuplicates = start.retainDuplicates
  clock : s.observedStreamTime = clockOf 12 start.observedStreamTime log
  plain : s.retainDuplicates = false → s.seqnum = 0
  blank : s.retainDuplicates = true → s.db.entries = []

variable {s start : WindowStore} {log : List Logged} {key : Bytes} {value : Option Value}
  {timestamp : ℤ}

theorem numberFor_plain (h : s.retainDuplicates = false) (value : Option Value) :
    (s.numberFor value).2 = s.seqnum := by
  cases value <;> simp [numberFor, maybeUpdateSeqnumForDups, h]

theorem Mirrored.put (h : Mirrored start s log) (hput : s.Repeatable key value timestamp) :
    Mirrored start (s.put key value timestamp).2
      (log ++ [(s.loggedKey key value timestamp, value)]) := by
  have hnumber := numberFor_le h.positive value
  have hkey : (form (· ≤ intMax)).IsKey timestamp (s.loggedKey key value timestamp) :=
    ⟨hput.isTime, key, _, hnumber.1, rfl⟩
  have hmirrored := h.mirrored.putRecord hkey hput.toRepeatable
  have hsteady := (show s.Steady from ⟨h.mirrored.steady, h.positive⟩).put key value hput.isTime
  refine ⟨hmirrored, hsteady.positive, h.alike, ?_, fun hplain => ?_, fun hdups => ?_⟩
  · have hfields := s.putRecord_fields timestamp (s.storeKeyFor key value timestamp) value
    have hclock := clockOf_logged log hkey value start.observedStreamTime
    exact hfields.2.trans ((congrArg (max · timestamp) h.clock).trans hclock.symm)
  · show (if s.Late timestamp then s.seqnum else (s.numberFor value).2) = 0
    have hsame : s.retainDuplicates = false := hplain
    rw [numberFor_plain hsame, ite_self]
    exact h.plain hsame
  · have hlog := map_restoreOp_logged log hkey value start.segmentIntervalMs
    have hentries := hmirrored.mirrors.entries
    rw [hlog, foldl_append, h.mirrored.mirrors.entries, h.blank hdups, hput.plain hdups] at hentries
    exact hput.plain hdups ▸ hentries.symm

theorem LiveRun.mirrored (h : LiveRun start s log) (hsteady : start.Steady)
    (hempty : start.db = {}) (hnumber : start.seqnum = 0) : Mirrored start s log := by
  induction h with
  | start =>
    have hmirrors : start.db.Mirrors [] := hempty ▸ Engine.mirrors_empty
    exact ⟨⟨hsteady.toSteady, rfl, le_rfl, hmirrors⟩, hsteady.positive, ⟨rfl, rfl⟩, rfl,
      fun _ => hnumber, fun _ => by rw [hempty]⟩
  | put key value timestamp _ hput ih => exact ih.put hput

/-- Two stores answer every query alike. -/
structure SameAnswers (r s : WindowStore) : Prop where
  fetchAt : ∀ key time, r.fetchAt key time = s.fetchAt key time
  fetch : ∀ key timeFrom timeTo, r.fetch key timeFrom timeTo = s.fetch key timeFrom timeTo
  backwardFetch : ∀ key timeFrom timeTo,
    r.backwardFetch key timeFrom timeTo = s.backwardFetch key timeFrom timeTo
  fetchRange : ∀ keyFrom keyTo timeFrom timeTo,
    r.fetchRange keyFrom keyTo timeFrom timeTo = s.fetchRange keyFrom keyTo timeFrom timeTo
  backwardFetchRange : ∀ keyFrom keyTo timeFrom timeTo,
    r.backwardFetchRange keyFrom keyTo timeFrom timeTo =
      s.backwardFetchRange keyFrom keyTo timeFrom timeTo
  fetchAll : ∀ timeFrom timeTo, r.fetchAll timeFrom timeTo = s.fetchAll timeFrom timeTo
  backwardFetchAll : ∀ timeFrom timeTo,
    r.backwardFetchAll timeFrom timeTo = s.backwardFetchAll timeFrom timeTo
  all : r.all = s.all
  backwardAll : r.backwardAll = s.backwardAll

theorem sameAnswers {r s : WindowStore} (hinterval : r.segmentIntervalMs = s.segmentIntervalMs)
    (hsize : r.windowSizeMs = s.windowSizeMs) (hentries : r.db.entries = s.db.entries)
    (hclock : r.observedStreamTime = s.observedStreamTime)
    (hnumber : r.seqnum = s.seqnum ∨ s.db.entries = [])
    (hr : r.Covered (form (· ≤ intMax))) (hs : s.Covered (form (· ≤ intMax))) :
    SameAnswers r s := by
  have hscan : ∀ keyFrom keyTo timeFrom timeTo forward,
      r.keyScan keyFrom keyTo timeFrom timeTo forward =
        s.keyScan keyFrom keyTo timeFrom timeTo forward := by
    have hforward : ∀ keyFrom keyTo timeFrom timeTo, r.keyScan keyFrom keyTo timeFrom timeTo true =
        s.keyScan keyFrom keyTo timeFrom timeTo true := fun keyFrom keyTo timeFrom timeTo => by
      rw [keyScan_of_covered hr, keyScan_of_covered hs, hentries, lastLiveSegment, lastLiveSegment,
        hinterval, hclock]
    intro keyFrom keyTo timeFrom timeTo forward
    cases forward with
    | true => exact hforward ..
    | false => rw [keyScan_backward, keyScan_backward, hforward]
  have hwindowed : r.windowed = s.windowed := by
    funext record
    rw [WindowStore.windowed, WindowStore.windowed, hsize]
  have hall : ∀ ranges keep forward, scan r.db ranges keep forward =
      scan s.db ranges keep forward := by
    intro ranges keep forward
    simp only [scan, Engine.reverseIterator, Engine.iterator, hentries]
  constructor
  · intro key time
    rw [WindowStore.fetchAt, WindowStore.fetchAt, Engine.getCopy, Engine.getCopy, hentries]
    rcases hnumber with hnumber | hnil
    · rw [hnumber, hinterval]
    · rw [hnil]
      rfl
  all_goals intros
  · rw [WindowStore.fetch, WindowStore.fetch, hscan]
  · rw [WindowStore.backwardFetch, WindowStore.backwardFetch, hscan]
  · rw [WindowStore.fetchRange, WindowStore.fetchRange, hscan, hwindowed]
  · rw [WindowStore.backwardFetchRange, WindowStore.backwardFetchRange, hscan, hwindowed]
  · rw [WindowStore.fetchAll, WindowStore.fetchAll, WindowStore.fetchRange, WindowStore.fetchRange,
      hscan, hwindowed]
  · rw [WindowStore.backwardFetchAll, WindowStore.backwardFetchAll, WindowStore.backwardFetchRange,
      WindowStore.backwardFetchRange, hscan, hwindowed]
  · rw [WindowStore.all, WindowStore.all, hall, hwindowed]
  · rw [WindowStore.backwardAll, WindowStore.backwardAll, hall, hwindowed]

theorem restore_step {r : WindowStore}
    (h : SegmentStore.RestoredBy 12 start.toSegmentStore r.toSegmentStore log ∧
      r = { start with toSegmentStore := r.toSegmentStore }) {batch : List Logged}
    (hfits : ∀ record ∈ batch,
      Db.checkOp {} (restoreOp 12 start.segmentIntervalMs record) = .ok) :
    ∃ r', r.restore batch = .ok r' ∧
      SegmentStore.RestoredBy 12 start.toSegmentStore r'.toSegmentStore (log ++ batch) ∧
      r' = { start with toSegmentStore := r'.toSegmentStore } := by
  obtain ⟨base, hbase, hafter⟩ := h.1.restoring hfits
  refine ⟨{ r with toSegmentStore := base }, ?_, hafter, by rw [h.2]⟩
  rw [restore, restoring, hbase]
  rfl

theorem restore_sameAnswers {retentionPeriodMs segmentIntervalMs windowSizeMs : ℤ} {dups : Bool}
    (hretention : 0 ≤ retentionPeriodMs) (hinterval : 1 ≤ segmentIntervalMs)
    (hrun : LiveRun (empty retentionPeriodMs segmentIntervalMs windowSizeMs dups) s log)
    {batches : List (List Logged)} (hlog : batches.flatten = log) :
    ∃ r, batches.foldlM restore (empty retentionPeriodMs segmentIntervalMs windowSizeMs dups) =
        .ok r ∧ SameAnswers r s := by
  set start := empty retentionPeriodMs segmentIntervalMs windowSizeMs dups with hstart
  have hsteady : start.Steady := ⟨.empty _ hretention hinterval, Nat.zero_le _⟩
  have hmirrored := hrun.mirrored hsteady rfl rfl
  obtain ⟨r, hr, hrestored, hsame⟩ := foldlM_restore
    (fun (r : WindowStore) log => RestoredBy 12 start.toSegmentStore r.toSegmentStore log ∧
      r = { start with toSegmentStore := r.toSegmentStore })
    (fun record => Db.checkOp {} (restoreOp 12 segmentIntervalMs record) = .ok)
    (fun r done batch h hfits => restore_step h hfits)
    [] ⟨⟨rfl, rfl, rfl, rfl, rfl⟩, rfl⟩ batches
    (hlog ▸ forall_mem_map.1 hmirrored.mirrored.mirrors.fits)
  rw [nil_append, hlog] at hrestored
  obtain ⟨hspaced, hentries, hcovered⟩ := SegmentStore.RestoredBy.covered hrestored
    hmirrored.mirrored (show (-1 : ℤ) < 0 by decide)
  have hclock : r.observedStreamTime = s.observedStreamTime :=
    hrestored.clock.trans hmirrored.clock.symm
  have hsize : r.windowSizeMs = s.windowSizeMs := by rw [hsame, hmirrored.alike.1]
  have hnumber : r.seqnum = s.seqnum ∨ s.db.entries = [] := by
    cases hdups : s.retainDuplicates with
    | false => exact .inl (by rw [hsame, hmirrored.plain hdups]; rfl)
    | true => exact .inr (hmirrored.blank hdups)
  exact ⟨r, hr, sameAnswers hspaced hsize hentries hclock hnumber hcovered
    hmirrored.mirrored.steady.toCovered⟩

end WindowStore

namespace SessionStore

open SegmentStore

open SessionKeys

/-- The restore callback of `open`. -/
def restoring (s : SessionStore) (records : List Logged) : Status × SessionStore :=
  let restored := s.toSegmentStore.restoring 16 records
  (restored.1, ⟨restored.2⟩)

/-- The restore callback of `open`. -/
def restore (s : SessionStore) (records : List Logged) : Except Stop SessionStore :=
  unlessThrown (s.restoring records)

/-- A session's times; its segment is not the last `long`. -/
structure Timed (s : SessionStore) (session : Windowed) : Prop where
  start : IsTime session.startTime
  ends : IsTime session.endTime
  band : segmentId session.endTime s.segmentIntervalMs < longMax

/-- A `put` that restoring its record repeats. -/
structure Repeatable (s : SessionStore) (session : Windowed) (value : Option Value) : Prop
    extends SegmentStore.Repeatable 16 s.toSegmentStore (loggedKey session) value
      session.endTime where
  timed : s.Timed session

/-- Repeatable `put`s and `remove`s, with their changelog; a `remove` is a `put` of `null`. -/
inductive LiveRun (start : SessionStore) : SessionStore → List Logged → Prop
  | start : LiveRun start start []
  | put {s : SessionStore} {log : List Logged} (session : Windowed) (value : Option Value) :
      LiveRun start s log → s.Repeatable session value →
      LiveRun start (s.put session value).2 (log ++ [(loggedKey session, value)])
  | remove {s : SessionStore} {log : List Logged} (session : Windowed) :
      LiveRun start s log → s.Timed session → (s.remove session).1 = .ok →
      LiveRun start (s.remove session).2 (log ++ [(loggedKey session, none)])

/-- Also, a scan of the restored store ends. -/
structure Mirrored (start s : SessionStore) (log : List Logged) : Prop where
  mirrored : SegmentStore.Mirrored (form IsTime) start.toSegmentStore s.toSegmentStore
    log
  band : segmentId (max (clockOf 16 start.observedStreamTime log) 0)
    start.segmentIntervalMs < longMax

variable {s start : SessionStore} {log : List Logged} {session : Windowed}

theorem Timed.isKey (h : s.Timed session) :
    (form IsTime).IsKey session.endTime (loggedKey session) :=
  ⟨h.ends, session.key, _, h.start, rfl⟩

theorem Mirrored.band_logged (h : Mirrored start s log) (hsession : s.Timed session)
    (value : Option Value) :
    segmentId (max (clockOf 16 start.observedStreamTime
      (log ++ [(loggedKey session, value)])) 0) start.segmentIntervalMs < longMax := by
  have hclock := clockOf_logged log hsession.isKey value start.observedStreamTime
  rw [show clockOf 16 _ _ = _ from hclock]
  rcases le_total (clockOf 16 start.observedStreamTime log) session.endTime with hle | hle
  · rw [show max (clockOf (form IsTime).width _ _) _ = _ from
      max_eq_right hle, max_eq_left hsession.ends.1, ← h.mirrored.interval]
    exact hsession.band
  · rw [show max (clockOf (form IsTime).width _ _) _ = _ from
      max_eq_left hle]
    exact h.band

theorem Mirrored.put (h : Mirrored start s log) {value : Option Value}
    (hput : s.Repeatable session value) :
    Mirrored start (s.put session value).2 (log ++ [(loggedKey session, value)]) :=
  ⟨h.mirrored.putRecord hput.timed.isKey hput.toRepeatable, h.band_logged hput.timed value⟩

theorem Mirrored.remove (h : Mirrored start s log) (hsession : s.Timed session)
    (hreturned : (s.remove session).1 = .ok) :
    Mirrored start (s.remove session).2 (log ++ [(loggedKey session, none)]) := by
  have hsteady := Steady.remove h.mirrored.steady session
  have hband := h.band_logged hsession none
  have hlog := map_restoreOp_logged log hsession.isKey none start.segmentIntervalMs
  have hclock := clockOf_logged log hsession.isKey none start.observedStreamTime
  unfold SessionStore.remove at hsteady hreturned ⊢
  cases hdb : s.db.delete (s.storeKey session) with
  | error status =>
    simp only [hdb] at hreturned
    exact absurd (hreturned ▸ hdb) (Engine.write_ne_ok _ _)
  | ok db =>
    simp only [hdb] at hsteady ⊢
    refine ⟨⟨hsteady, h.mirrored.interval, ?_, ?_⟩, hband⟩
    · rw [hclock]
      exact h.mirrored.clock.trans (le_max_left _ _)
    · rw [hlog, ← h.mirrored.interval]
      exact (h.mirrored.interval ▸ h.mirrored.mirrors).write hdb

theorem LiveRun.mirrored (h : LiveRun start s log) (hsteady : start.Steady)
    (hempty : start.db = {}) (hclock : start.observedStreamTime = -1) : Mirrored start s log := by
  induction h with
  | start =>
    refine ⟨⟨hsteady, rfl, le_rfl, hempty ▸ Engine.mirrors_empty⟩, ?_⟩
    rw [clockOf, foldl_nil, hclock, max_eq_right (by decide), segmentId_eq le_rfl,
      Int.zero_ediv]
    decide
  | put session value _ hput ih => exact ih.put hput
  | remove session _ htimed hreturned ih => exact ih.remove htimed hreturned

/-- Two stores answer every query alike. -/
structure SameAnswers (r s : SessionStore) : Prop where
  fetchSession : ∀ key startTime endTime,
    r.fetchSession key startTime endTime = s.fetchSession key startTime endTime
  findSessions : ∀ key earliestEnd latestStart,
    r.findSessions key earliestEnd latestStart = s.findSessions key earliestEnd latestStart
  backwardFindSessions : ∀ key earliestEnd latestStart,
    r.backwardFindSessions key earliestEnd latestStart =
      s.backwardFindSessions key earliestEnd latestStart
  findSessionsRange : ∀ keyFrom keyTo earliestEnd latestStart,
    r.findSessionsRange keyFrom keyTo earliestEnd latestStart =
      s.findSessionsRange keyFrom keyTo earliestEnd latestStart
  backwardFindSessionsRange : ∀ keyFrom keyTo earliestEnd latestStart,
    r.backwardFindSessionsRange keyFrom keyTo earliestEnd latestStart =
      s.backwardFindSessionsRange keyFrom keyTo earliestEnd latestStart
  findAllSessions : ∀ earliestEnd latestStart,
    r.findAllSessions earliestEnd latestStart = s.findAllSessions earliestEnd latestStart
  fetch : ∀ key, r.fetch key = s.fetch key
  backwardFetch : ∀ key, r.backwardFetch key = s.backwardFetch key
  fetchRange : ∀ keyFrom keyTo, r.fetchRange keyFrom keyTo = s.fetchRange keyFrom keyTo
  backwardFetchRange : ∀ keyFrom keyTo,
    r.backwardFetchRange keyFrom keyTo = s.backwardFetchRange keyFrom keyTo

theorem sameAnswers {r s : SessionStore} (hinterval : r.segmentIntervalMs = s.segmentIntervalMs)
    (hentries : r.db.entries = s.db.entries)
    (hr : r.Covered (form IsTime)) (hs : s.Covered (form IsTime))
    (hrband : r.lastLiveSegment < longMax) (hsband : s.lastLiveSegment < longMax) :
    SameAnswers r s := by
  have hscan : ∀ keys earliestEnd latestStart forward,
      r.keyScan keys earliestEnd latestStart forward =
        s.keyScan keys earliestEnd latestStart forward := by
    have hforward : ∀ keys earliestEnd latestStart, r.keyScan keys earliestEnd latestStart true =
        s.keyScan keys earliestEnd latestStart true := fun keys earliestEnd latestStart => by
      rw [keyScan_of_covered hr, keyScan_of_covered hs, hentries, if_pos hrband, if_pos hsband]
    intro keys earliestEnd latestStart forward
    cases forward with
    | true => exact hforward ..
    | false => rw [keyScan_backward, keyScan_backward, hforward]
  have hrange : ∀ keyFrom keyTo earliestEnd latestStart,
      r.findSessionsRange keyFrom keyTo earliestEnd latestStart =
        s.findSessionsRange keyFrom keyTo earliestEnd latestStart := fun _ _ _ _ => by
    rw [SessionStore.findSessionsRange, SessionStore.findSessionsRange, hscan]
  have hbackward : ∀ keyFrom keyTo earliestEnd latestStart,
      r.backwardFindSessionsRange keyFrom keyTo earliestEnd latestStart =
        s.backwardFindSessionsRange keyFrom keyTo earliestEnd latestStart := fun _ _ _ _ => by
    rw [SessionStore.backwardFindSessionsRange, SessionStore.backwardFindSessionsRange, hscan]
  constructor
  · intro key startTime endTime
    rw [SessionStore.fetchSession, SessionStore.fetchSession, Engine.getCopy, Engine.getCopy,
      hentries, hinterval]
  · exact fun key => hrange key key
  · exact fun key => hbackward key key
  · exact hrange
  · exact hbackward
  · intro earliestEnd latestStart
    rw [SessionStore.findAllSessions, SessionStore.findAllSessions, hscan]
  · exact fun key => hrange key key 0 longMax
  · exact fun key => hbackward key key 0 longMax
  · exact fun keyFrom keyTo => hrange keyFrom keyTo 0 longMax
  · exact fun keyFrom keyTo => hbackward keyFrom keyTo 0 longMax

theorem restore_step {r : SessionStore}
    (h : SegmentStore.RestoredBy 16 start.toSegmentStore r.toSegmentStore log) {batch : List Logged}
    (hfits : ∀ record ∈ batch,
      Db.checkOp {} (restoreOp 16 start.segmentIntervalMs record) = .ok) :
    ∃ r', r.restore batch = .ok r' ∧
      SegmentStore.RestoredBy 16 start.toSegmentStore r'.toSegmentStore (log ++ batch) := by
  obtain ⟨base, hbase, hafter⟩ := h.restoring hfits
  refine ⟨⟨base⟩, ?_, hafter⟩
  rw [restore, restoring, hbase]
  rfl

theorem restore_sameAnswers {retentionPeriodMs segmentIntervalMs : ℤ}
    (hretention : 0 ≤ retentionPeriodMs) (hinterval : 1 ≤ segmentIntervalMs)
    (hrun : LiveRun (empty retentionPeriodMs segmentIntervalMs) s log)
    {batches : List (List Logged)} (hlog : batches.flatten = log) :
    ∃ r, batches.foldlM restore (empty retentionPeriodMs segmentIntervalMs) = .ok r ∧
      SameAnswers r s := by
  set start := empty retentionPeriodMs segmentIntervalMs with hstart
  have hsteady : start.Steady := .empty _ hretention hinterval
  have hmirrored := hrun.mirrored hsteady rfl rfl
  obtain ⟨r, hr, hrestored⟩ := foldlM_restore
    (fun (r : SessionStore) log => RestoredBy 16 start.toSegmentStore r.toSegmentStore log)
    (fun record => Db.checkOp {} (restoreOp 16 segmentIntervalMs record) = .ok)
    (fun r done batch h hfits => restore_step h hfits)
    [] ⟨rfl, rfl, rfl, rfl, rfl⟩ batches (hlog ▸ forall_mem_map.1 hmirrored.mirrored.mirrors.fits)
  rw [nil_append, hlog] at hrestored
  obtain ⟨hspaced, hentries, hcovered⟩ := SegmentStore.RestoredBy.covered hrestored
    hmirrored.mirrored (show (-1 : ℤ) < 0 by decide)
  have hrband : r.lastLiveSegment < longMax := by
    rw [lastLiveSegment, hrestored.interval, hrestored.clock]
    exact hmirrored.band
  have hsband : s.lastLiveSegment < longMax := by
    refine lt_of_le_of_lt ?_ hrband
    rw [lastLiveSegment, lastLiveSegment, hspaced]
    refine segmentId_mono hmirrored.mirrored.steady.interval (le_max_right _ _)
      (max_le_max_right _ ?_)
    exact hmirrored.mirrored.clock.trans_eq hrestored.clock.symm
  exact ⟨r, hr, sameAnswers hspaced hentries hcovered hmirrored.mirrored.steady.toCovered hrband
    hsband⟩

end SessionStore

namespace VersionedStore

open VersionedKeys

/-- `timestampOf` of a logged `timestamp ‖ value`. -/
def timestampOf (timestamped : Bytes) : ℤ := getLong (timestamped.take 8)

/-- `valueOf` of a logged `timestamp ‖ value`. -/
def valueOf (timestamped : Bytes) : Value := timestamped.drop 8

/-- A version is put again, a deletion at stream time. -/
def restoreRecord (s : VersionedStore) (record : Logged) : PutReply × VersionedStore :=
  match record.2 with
  | none => s.put record.1 none (max s.observedStreamTime 0)
  | some timestamped => s.put record.1 (some (valueOf timestamped)) (timestampOf timestamped)

/-- A `put` that throws or does not end ends the restore. -/
def restoreNext (s : VersionedStore) (record : Logged) : Except Stop VersionedStore :=
  match s.restoreRecord record with
  | (.failed status, _) => .error (.thrown status)
  | (.diverges, _) => .error .diverges
  | (_, s) => .ok s

/-- The restore callback of `open`. -/
def restore (s : VersionedStore) (records : List Logged) : Except Stop VersionedStore :=
  records.foldlM restoreNext s

/-- What the changelog records of a `put`. -/
def logged (key : Bytes) (value : Option Value) (timestamp : ℤ) : Logged :=
  (key, value.map fun value => putLong timestamp ++ value)

/-- It returns, and a deletion is at stream time, for its record has no timestamp. -/
structure Repeatable (s : VersionedStore) (key : Bytes) (value : Option Value) (timestamp : ℤ) :
    Prop where
  time : IsTime timestamp
  returned : (s.put key value timestamp).1.accepted = true ∨
    (s.put key value timestamp).1 = .notPut
  dated : value = none → timestamp = max s.observedStreamTime 0

/-- Repeatable `put`s, with their changelog. -/
inductive LiveRun (start : VersionedStore) : VersionedStore → List Logged → Prop
  | start : LiveRun start start []
  | put {s : VersionedStore} {log : List Logged} (key : Bytes) (value : Option Value)
      (timestamp : ℤ) : LiveRun start s log → s.Repeatable key value timestamp →
      LiveRun start (s.put key value timestamp).2 (log ++ [logged key value timestamp])

variable {s start : VersionedStore} {log : List Logged}

theorem restoreRecord_logged {key : Bytes} {value : Option Value} {timestamp : ℤ}
    (h : s.Repeatable key value timestamp) :
    s.restoreRecord (logged key value timestamp) = s.put key value timestamp := by
  cases value with
  | none => rw [h.dated rfl]; rfl
  | some value =>
    simp only [restoreRecord, logged, Option.map_some, valueOf, timestampOf,
      drop_left' (length_putLong timestamp), take_left' (length_putLong timestamp),
      getLong_putLong h.time.isLong]

theorem restoreNext_logged {key : Bytes} {value : Option Value} {timestamp : ℤ}
    (h : s.Repeatable key value timestamp) :
    s.restoreNext (logged key value timestamp) = .ok (s.put key value timestamp).2 := by
  have hreturned := h.returned
  rw [restoreNext, restoreRecord_logged h]
  generalize s.put key value timestamp = result at hreturned ⊢
  obtain ⟨reply, after⟩ := result
  cases reply <;> simp_all [PutReply.accepted]

theorem LiveRun.restore (h : LiveRun start s log) : start.restore log = .ok s := by
  induction h with
  | start => rfl
  | put key value timestamp _ hput ih =>
    rw [VersionedStore.restore] at ih ⊢
    rw [foldlM_append, ih]
    show List.foldlM restoreNext _ [_] = _
    rw [foldlM_cons, restoreNext_logged hput]
    rfl

theorem foldlM_restore_eq (s : VersionedStore) (batches : List (List Logged)) :
    batches.foldlM VersionedStore.restore s = s.restore batches.flatten := by
  induction batches generalizing s with
  | nil => rfl
  | cons batch batches ih =>
    rw [foldlM_cons, flatten_cons, VersionedStore.restore, VersionedStore.restore, foldlM_append]
    exact bind_congr fun s' => ih s'

end VersionedStore

/-! ### All three stores -/

/-- After repeatable calls, restoring the changelog in any batches gives a store that answers as the
live one; for the versioned store the same store. -/
theorem restore_repeats_live {retentionMs segmentIntervalMs : ℤ} (windowSizeMs : ℤ) (dups : Bool)
    (hretention : 0 ≤ retentionMs) (hinterval : 1 ≤ segmentIntervalMs)
    (batches : List (List Logged)) :
    (∀ live, WindowStore.LiveRun (.empty retentionMs segmentIntervalMs windowSizeMs dups) live
        batches.flatten →
      ∃ restored, batches.foldlM WindowStore.restore
          (.empty retentionMs segmentIntervalMs windowSizeMs dups) = .ok restored ∧
        restored.SameAnswers live) ∧
    (∀ live, SessionStore.LiveRun (.empty retentionMs segmentIntervalMs) live batches.flatten →
      ∃ restored, batches.foldlM SessionStore.restore (.empty retentionMs segmentIntervalMs) =
          .ok restored ∧
        restored.SameAnswers live) ∧
    (∀ live, VersionedStore.LiveRun ⟨retentionMs, segmentIntervalMs, {}, -1, -1⟩ live
        batches.flatten →
      batches.foldlM VersionedStore.restore ⟨retentionMs, segmentIntervalMs, {}, -1, -1⟩ =
        .ok live) := by
  refine ⟨fun live hrun => ?_, fun live hrun => ?_, fun live hrun => ?_⟩
  · exact WindowStore.restore_sameAnswers hretention hinterval hrun rfl
  · exact SessionStore.restore_sameAnswers hretention hinterval hrun rfl
  · rw [VersionedStore.foldlM_restore_eq]
    exact hrun.restore

/-- A record at 17 makes one at 6 late but leaves it stored; it is put again, and a window, a
session and a version are deleted. -/
theorem restore_repeats_live_late :
    (∃ restored, List.foldlM WindowStore.restore (.empty 10 5 3 false)
        [[([7] ++ WindowKeys.times 6 0, some [1]), ([8] ++ WindowKeys.times 17 0, some [2])],
          [([7] ++ WindowKeys.times 6 0, some [1]), ([8] ++ WindowKeys.times 17 0, none)]] =
            .ok restored ∧
      restored.SameAnswers
        (((((WindowStore.empty 10 5 3 false).put [7] (some [1]) 6).2.put [8] (some [2]) 17).2.put [7]
          (some [1]) 6).2.put [8] none 17).2) ∧
    (∃ restored, List.foldlM SessionStore.restore (.empty 10 5)
        [[([7] ++ SessionKeys.times 6 3, some [1]), ([8] ++ SessionKeys.times 17 3, some [2])],
          [([7] ++ SessionKeys.times 6 3, some [1]), ([8] ++ SessionKeys.times 17 3, none)]] =
            .ok restored ∧
      restored.SameAnswers
        (((((SessionStore.empty 10 5).put ⟨[7], 3, 6⟩ (some [1])).2.put ⟨[8], 3, 17⟩ (some [2])).2.put
          ⟨[7], 3, 6⟩ (some [1])).2.remove ⟨[8], 3, 17⟩).2) ∧
    List.foldlM VersionedStore.restore ⟨10, 5, {}, -1, -1⟩
        [[([7], some (putLong 3 ++ [1])), ([7], some (putLong 17 ++ [2]))],
          [([7], some (putLong 3 ++ [1])), ([7], none)]] =
      .ok ((((VersionedStore.put ⟨10, 5, {}, -1, -1⟩ [7] (some [1]) 3).2.put [7] (some [2]) 17).2.put
        [7] (some [1]) 3).2.put [7] none 17).2 := by
  have hlive (batches : List (List Logged)) := restore_repeats_live 3 false
    (by decide : (0 : ℤ) ≤ 10) (by decide : (1 : ℤ) ≤ 5) batches
  refine ⟨(hlive _).1 _ (.put [8] none 17 (.put [7] (some [1]) 6 (.put [8] (some [2]) 17
      (.put [7] (some [1]) 6 .start ?_) ?_) ?_) ?_),
    (hlive _).2.1 _ (.remove ⟨[8], 3, 17⟩ (.put ⟨[7], 3, 6⟩ (some [1]) (.put ⟨[8], 3, 17⟩ (some [2])
      (.put ⟨[7], 3, 6⟩ (some [1]) .start ?_) ?_) ?_) ?_ (by decide +kernel)),
    (hlive _).2.2 _ (.put [7] none 17 (.put [7] (some [1]) 3 (.put [7] (some [2]) 17
      (.put [7] (some [1]) 3 .start ?_) ?_) ?_) ?_)⟩
  iterate 4
    exact ⟨⟨⟨by decide, by decide⟩, by decide +kernel, by decide +kernel, by decide +kernel⟩,
      by decide⟩
  iterate 3
    exact ⟨⟨⟨by decide, by decide⟩, by decide +kernel, by decide +kernel, by decide +kernel⟩,
      ⟨by decide, by decide⟩, ⟨by decide, by decide⟩, by decide⟩
  · exact ⟨⟨by decide, by decide⟩, ⟨by decide, by decide⟩, by decide⟩
  all_goals exact ⟨⟨by decide, by decide⟩, by decide +kernel, by decide +kernel⟩

/-- With a retention of 10 and segments of 5, restoring brings back what was truncated or late, not
the sequence number, and dates a deletion at 5 back to 0. -/
theorem restore_differs_from_live :
    let window : Bool → WindowStore := .empty 10 5 3
    let truncated := ((window false).put [7] (some [1]) 0).2.put [8] (some [2]) 100
    let late := ((window false).put [8] (some [2]) 100).2.put [7] (some [1]) 0
    let counted := (window true).put [7] (some [1]) 3
    let session : SessionStore := .empty 10 5
    let ended := (session.put ⟨[7], 0, 0⟩ (some [1])).2.put ⟨[8], 100, 100⟩ (some [2])
    let versioned : VersionedStore := ⟨10, 5, {}, -1, -1⟩
    let deleted := (versioned.put [7] (some [1]) 0).2.put [7] none 5
    (truncated.1 = .ok ∧ truncated.2.fetchAt [7] 0 = none ∧
      ((window false).restore [([7] ++ WindowKeys.times 0 0, some [1]),
        ([8] ++ WindowKeys.times 100 0, some [2])]).toOption.map (·.fetchAt [7] 0) =
          some (some [1])) ∧
    (late.1 = .ok ∧ late.2.fetchAt [7] 0 = none ∧
      ((window false).restore [([8] ++ WindowKeys.times 100 0, some [2]),
        ([7] ++ WindowKeys.times 0 0, some [1])]).toOption.map (·.fetchAt [7] 0) =
          some (some [1])) ∧
    (counted.1 = .ok ∧ counted.2.fetchAt [7] 3 = some [1] ∧
      ((window true).restore [([7] ++ WindowKeys.times 3 1, some [1])]).toOption.map
        (·.fetchAt [7] 3) = some none) ∧
    (ended.1 = .ok ∧ ended.2.fetchSession [7] 0 0 = none ∧
      (session.restore [([7] ++ SessionKeys.times 0 0, some [1]),
        ([8] ++ SessionKeys.times 100 100, some [2])]).toOption.map (·.fetchSession [7] 0 0) =
          some (some [1])) ∧
    (deleted.1.accepted = true ∧ deleted.2.getAsOf [7] 0 = some (putLong 0 ++ [1]) ∧
      (versioned.restore [([7], some (putLong 0 ++ [1])), ([7], none)]).toOption.map
        (·.getAsOf [7] 0) = some none) := by
  decide +kernel

end ElysiumKV.Streams
