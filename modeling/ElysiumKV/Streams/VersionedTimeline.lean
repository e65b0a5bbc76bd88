import ElysiumKV.Streams.VersionedStore

/-!
# The versioned store as a timeline

`Tracks` ties a store to the log of accepted versions. Reads at the retention and later are right
exactly if no truncated segment holds a version in force then (`Tracks.getAsOf_eq_iff`).
-/

namespace ElysiumKV.Streams

open ByteOrder VersionedKeys Timeline List

/-- A version a `put` has taken. -/
structure Revision where
  key : Bytes
  value : Option Value
  timestamp : ℤ
deriving DecidableEq, Repr

/-- The timeline of a key. -/
def writesOf (key : Bytes) (log : List Revision) : List (ℤ × Option Value) :=
  (log.filter fun v => v.key = key).map fun v => (v.timestamp, v.value)

theorem writesOf_append_self (log : List Revision) (v : Revision) :
    writesOf v.key (log ++ [v]) = writesOf v.key log ++ [(v.timestamp, v.value)] := by
  simp [writesOf]

theorem writesOf_append_of_ne {key : Bytes} {v : Revision} (h : v.key ≠ key) (log : List Revision) :
    writesOf key (log ++ [v]) = writesOf key log := by
  simp [writesOf, h]

/-- Its entries are within the engine's limits. -/
def Fits (key : Bytes) (value : Option Value) : Prop :=
  17 + key.length ≤ maxKeyBytes ∧ 9 + (value.getD []).length ≤ maxValueBytes

/-- A time whose segment is not the last `long`, and entries within the limits. -/
structure Offer (segmentIntervalMs : ℤ) (v : Revision) : Prop where
  time : IsTime v.timestamp
  band : segmentId v.timestamp segmentIntervalMs < longMax
  fits : Fits v.key v.value

namespace VersionedStore

/-! ### The invariant -/

/-- Segments below that of `cutoff` are truncated. -/
def throughOf (s : VersionedStore) (cutoff : ℤ) : ℤ :=
  if cutoff < 0 then -1 else segmentId cutoff s.segmentIntervalMs

/-- The floor this leaves. -/
def floorOf (s : VersionedStore) (cutoff : ℤ) : Key :=
  if cutoff < 0 then [] else historySegmentFloor (segmentId cutoff s.segmentIntervalMs)

/-- It holds the versions of the log, history truncated as of `cut`. -/
structure Tracks (cut : ℤ) (s : VersionedStore) (log : List Revision) : Prop where
  interval : 1 ≤ s.segmentIntervalMs
  retention : 0 ≤ s.historyRetentionMs
  behind : cut ≤ s.observedStreamTime
  clock : s.observedStreamTime ≤ longMax
  band : s.lastLiveSegment < longMax
  times : ∀ v ∈ log, IsTime v.timestamp ∧ v.timestamp ≤ s.observedStreamTime
  sized : ∀ v ∈ log, Fits v.key v.value
  through : s.truncatedThrough = s.throughOf (cut - s.historyRetentionMs)
  floor : s.db.floor = s.floorOf (cut - s.historyRetentionMs)
  latest : ∀ key, s.db.getCopy (latestKey key) =
    (newest (writesOf key log)).map fun w => encodeValue w.2 w.1
  history : ∀ key t, IsTime t → s.truncatedThrough ≤ segmentId t s.segmentIntervalMs →
    s.db.getCopy (historyKey key t s.segmentIntervalMs) =
      (superseded t (writesOf key log)).map fun value => encodeValue value t
  shape : ∀ e ∈ s.db.entries, (∃ key t, IsTime t ∧ e.1 = historyKey key t s.segmentIntervalMs) ∨
    (∃ key, e.1 = latestKey key) ∨ e.1 = streamTimeKey

variable {s : VersionedStore} {cut : ℤ} {log : List Revision}

theorem tracks_empty {historyRetentionMs segmentIntervalMs : ℤ} (hretention : 0 ≤ historyRetentionMs)
    (hinterval : 1 ≤ segmentIntervalMs) :
    Tracks (-1) ⟨historyRetentionMs, segmentIntervalMs, {}, -1, -1⟩ [] := by
  have hcutoff : (-1 : ℤ) - historyRetentionMs < 0 := by omega
  exact
    { interval := hinterval
      retention := hretention
      behind := le_rfl
      clock := show (-1 : ℤ) ≤ longMax by decide
      band := by
        simp only [lastLiveSegment, segmentOf, segmentId_eq (le_max_right _ _)]
        exact (Int.ediv_le_self _ (le_max_right _ _)).trans_lt (by decide)
      times := by simp
      sized := by simp
      through := by simp [throughOf, hcutoff]
      floor := by simp [floorOf, hcutoff]
      latest := fun _ => rfl
      history := fun _ _ _ _ => rfl
      shape := by simp }

theorem mem_writesOf {key : Bytes} {w : ℤ × Option Value} (h : w ∈ writesOf key log) :
    ⟨key, w.2, w.1⟩ ∈ log := by
  obtain ⟨v, hv, rfl⟩ := mem_map.1 h
  obtain ⟨hmem, hkey⟩ := mem_filter.1 hv
  obtain rfl : v.key = key := by simpa using hkey
  exact hmem

namespace Tracks

variable {key : Bytes} {n : ℤ × Option Value}

theorem isTime_of_newest (h : Tracks cut s log) (hn : newest (writesOf key log) = some n) :
    IsTime n.1 ∧ n.1 ≤ s.observedStreamTime := by
  obtain ⟨hlast, -⟩ := newest_eq_some_iff.1 (show newest _ = some (n.1, n.2) from hn)
  exact h.times _ (mem_writesOf (exists_of_lastAt hlast))

theorem fits_of_newest (h : Tracks cut s log) (hn : newest (writesOf key log) = some n) :
    Fits key n.2 := by
  obtain ⟨hlast, -⟩ := newest_eq_some_iff.1 (show newest _ = some (n.1, n.2) from hn)
  exact h.sized _ (mem_writesOf (exists_of_lastAt hlast))

theorem floor_le_latestKey (h : Tracks cut s log) (key : Bytes) : s.db.floor ≤ latestKey key := by
  rw [h.floor, floorOf]
  split_ifs
  · exact ByteOrder.nil_le _
  · exact historySegmentFloor_le_latestKey _ key

theorem floor_le_streamTimeKey (h : Tracks cut s log) : s.db.floor ≤ streamTimeKey := by
  rw [h.floor, floorOf]
  split_ifs
  · exact ByteOrder.nil_le _
  · exact historySegmentFloor_le_streamTimeKey _

theorem floor_le_historyKey_iff (h : Tracks cut s log) (key : Bytes) {t : ℤ} (ht : IsTime t) :
    s.db.floor ≤ historyKey key t s.segmentIntervalMs ↔
      s.truncatedThrough ≤ segmentId t s.segmentIntervalMs := by
  rw [h.floor, h.through, floorOf, throughOf]
  split_ifs with hcutoff
  · have := (segmentId_isTime h.interval ht).1
    exact ⟨fun _ => by omega, fun _ => ByteOrder.nil_le _⟩
  · have hclock := h.clock
    have hbehind := h.behind
    have hretention := h.retention
    exact historySegmentFloor_le_iff
      (segmentId_isTime h.interval ⟨not_lt.1 hcutoff, by omega⟩) h.interval ht

/-! ### Steps -/

variable {v : Revision}

theorem observe (h : Tracks cut s log) (hv : Offer s.segmentIntervalMs v) :
    Tracks cut (s.observe v.timestamp) log :=
  { h with
    behind := h.behind.trans (le_max_left _ _)
    clock := max_le h.clock hv.time.2
    band := by
      have hband := h.band
      simp only [lastLiveSegment, segmentOf, VersionedStore.observe] at hband ⊢
      rcases le_total s.observedStreamTime v.timestamp with hle | hle
      · rw [max_eq_right hle, max_eq_left hv.time.1]
        exact hv.band
      · rwa [max_eq_left hle]
    times := fun v hv => ⟨(h.times v hv).1, (h.times v hv).2.trans (le_max_left _ _)⟩ }

theorem truncate (h : Tracks cut s log)
    (hcutoff : 0 ≤ s.observedStreamTime - s.historyRetentionMs)
    (hseg : s.truncatedThrough <
      segmentId (s.observedStreamTime - s.historyRetentionMs) s.segmentIntervalMs) :
    Tracks s.observedStreamTime
      { s with
        db := s.db.truncateBelow (historySegmentFloor
          (segmentId (s.observedStreamTime - s.historyRetentionMs) s.segmentIntervalMs))
        truncatedThrough :=
          segmentId (s.observedStreamTime - s.historyRetentionMs) s.segmentIntervalMs } log := by
  have hretention := h.retention
  have hclock := h.clock
  have hcut : ¬ s.observedStreamTime - s.historyRetentionMs < 0 := not_lt.2 hcutoff
  set minLive := segmentId (s.observedStreamTime - s.historyRetentionMs) s.segmentIntervalMs
    with hminLive
  have htime : IsTime minLive := segmentId_isTime h.interval ⟨hcutoff, by omega⟩
  have hraise : s.db.floor ≤ historySegmentFloor minLive := by
    rw [h.floor, floorOf]
    split_ifs with hbefore
    · exact ByteOrder.nil_le _
    · have hbehind := h.behind
      have hthrough := h.through
      rw [throughOf, if_neg hbefore] at hthrough
      have hold : IsTime (segmentId (cut - s.historyRetentionMs) s.segmentIntervalMs) :=
        segmentId_isTime h.interval ⟨not_lt.1 hbefore, by omega⟩
      refine le_of_lt (cons_lt_cons_iff.2 (.inr ⟨rfl, ?_⟩))
      exact (putLong_lt_putLong hold htime).2 (hthrough ▸ hseg)
  have hmax : max s.db.floor (historySegmentFloor minLive) = historySegmentFloor minLive :=
    max_eq_right hraise
  have hkept : ∀ k, historySegmentFloor minLive ≤ k →
      (s.db.truncateBelow (historySegmentFloor minLive)).getCopy k = s.db.getCopy k :=
    fun k hk => s.db.valueAt_truncateBelow (hmax.le.trans hk)
  exact
    { h with
      behind := le_rfl
      through := by rw [throughOf, if_neg hcut]
      floor := by rw [floorOf, if_neg hcut]; exact hmax
      latest := fun key => by
        rw [hkept _ (historySegmentFloor_le_latestKey minLive key)]
        exact h.latest key
      history := fun key t ht hle => by
        rw [hkept _ ((historySegmentFloor_le_iff htime h.interval ht).2 hle)]
        exact h.history key t ht (hseg.le.trans hle)
      shape := fun e he => h.shape e (Engine.mem_truncateBelow he).1 }

theorem expire (h : Tracks cut s log) :
    Tracks s.observedStreamTime s.expireHistoryBelowRetention log := by
  have hbehind := h.behind
  unfold expireHistoryBelowRetention
  by_cases hcutoff : s.observedStreamTime - s.historyRetentionMs < 0
  · -- nothing is old enough, and nothing was before
    have hcut : cut - s.historyRetentionMs < 0 := by omega
    simp only [hcutoff, if_true]
    refine { h with behind := le_rfl, through := ?_, floor := ?_ }
    · rw [h.through, throughOf, throughOf, if_pos hcut, if_pos hcutoff]
    · rw [h.floor, floorOf, floorOf, if_pos hcut, if_pos hcutoff]
  · have hmin : s.segmentOf (s.observedStreamTime - s.historyRetentionMs) =
        segmentId (s.observedStreamTime - s.historyRetentionMs) s.segmentIntervalMs := by
      rw [segmentOf, max_eq_left (not_lt.1 hcutoff)]
    simp only [hcutoff, if_false, hmin]
    split_ifs with hseg
    · -- the segment has been truncated before
      have hthrough := h.through
      have hnonneg : 0 ≤ segmentId (s.observedStreamTime - s.historyRetentionMs)
          s.segmentIntervalMs := by
        rw [segmentId_eq (not_lt.1 hcutoff)]
        exact Int.ediv_nonneg (not_lt.1 hcutoff) (by have := h.interval; omega)
      have hcut : ¬ cut - s.historyRetentionMs < 0 := by
        intro hcut
        rw [throughOf, if_pos hcut] at hthrough
        omega
      have hsame : segmentId (cut - s.historyRetentionMs) s.segmentIntervalMs =
          segmentId (s.observedStreamTime - s.historyRetentionMs) s.segmentIntervalMs := by
        rw [throughOf, if_neg hcut] at hthrough
        refine le_antisymm (segmentId_mono h.interval (not_lt.1 hcut) (by omega)) ?_
        omega
      refine { h with behind := le_rfl, through := ?_, floor := ?_ }
      · rw [h.through, throughOf, throughOf, if_neg hcut, if_neg hcutoff, hsame]
      · rw [h.floor, floorOf, floorOf, if_neg hcut, if_neg hcutoff, hsame]
    · exact h.truncate (not_lt.1 hcutoff) (not_le.1 hseg)

/-! ### Writing a version -/

theorem supersede_eq (h : Tracks cut s log) (key : Bytes) (value : Option Value) (timestamp : ℤ)
    (advanced : Bool) :
    s.supersede (s.db.getCopy (latestKey key)) key value timestamp advanced =
      (match newest (writesOf key log) with
        | none => []
        | some n => if n.1 ≠ timestamp then
            [.put (historyKey key n.1 s.segmentIntervalMs) (encodeValue n.2 n.1)] else []) ++
      [.put (latestKey key) (encodeValue value timestamp)] ++
      if advanced then [.put streamTimeKey (encodeStreamTime s.observedStreamTime)] else [] := by
  unfold VersionedStore.supersede
  rw [h.latest]
  cases hn : newest (writesOf key log) with
  | none => rfl
  | some n =>
    simp only [Option.map_some]
    rw [timestampOfValue_encodeValue (h.isTime_of_newest hn).1.isLong]

variable {value : Option Value}

theorem length_historyKey_le (hfits : Fits key value) (t interval : ℤ) :
    (historyKey key t interval).length ≤ maxKeyBytes := by
  have := hfits.1
  rw [historyKey, length_historyBound]
  omega

theorem length_encodeValue_le (hfits : Fits key value) (t : ℤ) :
    (encodeValue value t).length ≤ maxValueBytes := by
  rw [length_encodeValue]
  exact hfits.2

/-- Taken exactly if the superseded version still has a live segment. -/
theorem checkBatch_supersede_iff (h : Tracks cut s log) (hfits : Fits key value) (timestamp : ℤ)
    (advanced : Bool) :
    checkBatch s.db.floor
        (s.supersede (s.db.getCopy (latestKey key)) key value timestamp advanced) = .ok ↔
      ∀ n, newest (writesOf key log) = some n → n.1 ≠ timestamp →
        s.truncatedThrough ≤ segmentId n.1 s.segmentIntervalMs := by
  have hlatest : Db.checkOp { writeFloor := s.db.floor }
      (.put (latestKey key) (encodeValue value timestamp)) = .ok := by
    refine (checkOp_put_iff _ _ _).2 ⟨?_, length_encodeValue_le hfits timestamp,
      h.floor_le_latestKey key⟩
    have := hfits.1
    simp only [latestKey, length_cons]
    omega
  have hclock : Db.checkOp { writeFloor := s.db.floor }
      (.put streamTimeKey (encodeStreamTime s.observedStreamTime)) = .ok :=
    (checkOp_put_iff _ _ _).2 ⟨show 1 ≤ maxKeyBytes by decide, by
      rw [encodeStreamTime, length_putLong]
      decide, h.floor_le_streamTimeKey⟩
  have htail : ∀ op ∈ [Db.BatchOp.put (latestKey key) (encodeValue value timestamp)] ++
      (if advanced then [Db.BatchOp.put streamTimeKey (encodeStreamTime s.observedStreamTime)]
        else []), Db.checkOp { writeFloor := s.db.floor } op = .ok := by
    intro op hop
    rcases mem_append.1 hop with hop | hop
    · rw [mem_singleton.1 hop]
      exact hlatest
    · split_ifs at hop
      · rw [mem_singleton.1 hop]
        exact hclock
      · exact absurd hop (not_mem_nil)
  rw [checkBatch_eq_ok_iff, h.supersede_eq, append_assoc, forall_mem_append, and_iff_left htail]
  cases hn : newest (writesOf key log) with
  | none => simp
  | some n =>
    have hsize := h.fits_of_newest hn
    have hop := checkOp_put_iff s.db.floor (historyKey key n.1 s.segmentIntervalMs)
      (encodeValue n.2 n.1)
    rw [h.floor_le_historyKey_iff key (h.isTime_of_newest hn).1,
      and_iff_right (length_encodeValue_le hsize n.1),
      and_iff_right (length_historyKey_le hsize n.1 _)] at hop
    by_cases hsame : n.1 = timestamp
    · simp [hsame]
    · simp [hsame, hop]

theorem overwrite_historyKey (key key' : Bytes) {a b : ℤ} (interval : ℤ) (ha : IsTime a)
    (hb : IsTime b) (current : Option Value) (value : Value) :
    overwrite (historyKey key' b interval) current (.put (historyKey key a interval) value) =
      if key = key' ∧ a = b then some value else current := by
  by_cases hsame : key = key' ∧ a = b
  · simp [overwrite, hsame]
  · rw [overwrite, if_neg hsame, if_neg]
    exact fun heq => hsame (historyKey_injOn ha hb heq)

theorem overwrite_latestKey (key key' : Bytes) (current : Option Value) (value : Value) :
    overwrite (latestKey key') current (.put (latestKey key) value) =
      if key = key' then some value else current := by
  simp [overwrite, latestKey]

theorem historyKey_ne_latestKey (key key' : Bytes) (t interval : ℤ) :
    historyKey key t interval ≠ latestKey key' := by
  simp [historyKey, historyBound, latestKey]

theorem historyKey_ne_streamTimeKey (key : Bytes) (t interval : ℤ) :
    historyKey key t interval ≠ streamTimeKey := by
  simp [historyKey, historyBound, streamTimeKey]

theorem latestKey_ne_streamTimeKey (key : Bytes) : latestKey key ≠ streamTimeKey := by
  simp [latestKey, streamTimeKey]

variable {timestamp : ℤ} {db : Engine}

theorem getCopy_supersede (h : Tracks cut s log) {advanced : Bool}
    (hdb : s.db.write (s.supersede (s.db.getCopy (latestKey key)) key value timestamp advanced) =
      .ok db) {k : Key} (hk : k ≠ streamTimeKey) :
    db.getCopy k = overwrite k
      (match newest (writesOf key log) with
        | none => s.db.getCopy k
        | some n => if n.1 ≠ timestamp then
            overwrite k (s.db.getCopy k)
              (.put (historyKey key n.1 s.segmentIntervalMs) (encodeValue n.2 n.1))
          else s.db.getCopy k)
      (.put (latestKey key) (encodeValue value timestamp)) := by
  rw [Engine.getCopy_write hdb, h.supersede_eq, foldl_append, foldl_append]
  have hclock : ∀ current, List.foldl (overwrite k) current
      (if advanced then [Db.BatchOp.put streamTimeKey (encodeStreamTime s.observedStreamTime)]
        else []) = current := by
    intro current
    split_ifs
    · simp [overwrite, hk.symm]
    · rfl
  rw [hclock]
  cases newest (writesOf key log) with
  | none => rfl
  | some n =>
    by_cases hsame : n.1 = timestamp
    · simp [hsame]
    · simp [hsame]

theorem times_append (h : Tracks cut s log) (htime : IsTime v.timestamp)
    (hle : v.timestamp ≤ s.observedStreamTime) :
    ∀ w ∈ log ++ [v], IsTime w.timestamp ∧ w.timestamp ≤ s.observedStreamTime := by
  intro w hw
  rcases mem_append.1 hw with hw | hw
  · exact h.times w hw
  · rw [mem_singleton.1 hw]
    exact ⟨htime, hle⟩

theorem sized_append (h : Tracks cut s log) (hfits : Fits v.key v.value) :
    ∀ w ∈ log ++ [v], Fits w.key w.value := by
  intro w hw
  rcases mem_append.1 hw with hw | hw
  · exact h.sized w hw
  · rw [mem_singleton.1 hw]
    exact hfits

theorem supersede (h : Tracks cut s log) (htime : IsTime timestamp)
    (hle : timestamp ≤ s.observedStreamTime) (hfits : Fits key value)
    (hnewest : ∀ n, newest (writesOf key log) = some n → n.1 ≤ timestamp) {advanced : Bool}
    (hdb : s.db.write
      (s.supersede (s.db.getCopy (latestKey key)) key value timestamp advanced) = .ok db) :
    Tracks cut { s with db := db } (log ++ [⟨key, value, timestamp⟩]) := by
  have hself := writesOf_append_self log ⟨key, value, timestamp⟩
  exact
    { h with
      times := h.times_append htime hle
      sized := h.sized_append hfits
      floor := (Engine.write_eq_ok hdb).2.2.trans h.floor
      latest := fun key' => by
        rw [h.getCopy_supersede hdb (latestKey_ne_streamTimeKey key'), overwrite_latestKey]
        by_cases hkey : key = key'
        · subst hkey
          rw [if_pos rfl, hself, newest_append_of_le hnewest]
          rfl
        · rw [if_neg hkey, writesOf_append_of_ne hkey, ← h.latest key']
          have hother : ∀ t stored, overwrite (latestKey key') (s.db.getCopy (latestKey key'))
              (.put (historyKey key t s.segmentIntervalMs) stored) =
                s.db.getCopy (latestKey key') := by
            intro t stored
            rw [overwrite, if_neg (historyKey_ne_latestKey key key' t _)]
          cases newest (writesOf key log) with
          | none => rfl
          | some n => simp only [hother, ite_self]
      history := fun key' t ht hlive => by
        rw [h.getCopy_supersede hdb (historyKey_ne_streamTimeKey key' t _), overwrite,
          if_neg (historyKey_ne_latestKey key' key t _).symm, h.history key' t ht hlive]
        by_cases hkey : key = key'
        · subst hkey
          rw [hself]
          cases hn : newest (writesOf key log) with
          | none =>
            rw [superseded_append_of_none _ hn, superseded, hn]
          | some n =>
            have hover := overwrite_historyKey key key s.segmentIntervalMs
              (h.isTime_of_newest hn).1 ht
              ((superseded t (writesOf key log)).map fun value => encodeValue value t)
              (encodeValue n.2 n.1)
            rw [superseded_append_of_le hn (hnewest n hn)]
            simp only [hover, true_and]
            by_cases hsame : n.1 = timestamp
            · simp [hsame]
            · by_cases ht' : n.1 = t
              · subst ht'
                simp [hsame]
              · simp [hsame, ht', Ne.symm ht']
        · rw [writesOf_append_of_ne hkey]
          cases hn : newest (writesOf key log) with
          | none => rfl
          | some n =>
            have hover := overwrite_historyKey key key' s.segmentIntervalMs
              (h.isTime_of_newest hn).1 ht
              ((superseded t (writesOf key' log)).map fun value => encodeValue value t)
              (encodeValue n.2 n.1)
            simp only [hover, hkey, false_and, if_false, ite_self]
      shape := fun e he => by
        rcases Engine.mem_write hdb he with hmem | ⟨k, v, hop, rfl⟩
        · exact h.shape e hmem
        · rw [h.supersede_eq, mem_append, mem_append] at hop
          rcases hop with (hop | hop) | hop
          · cases hn : newest (writesOf key log) with
            | none => simp [hn] at hop
            | some n =>
              simp only [hn] at hop
              split_ifs at hop
              · obtain ⟨rfl, -⟩ := Db.BatchOp.put.inj (mem_singleton.1 hop)
                exact .inl ⟨key, n.1, (h.isTime_of_newest hn).1, rfl⟩
              · exact absurd hop not_mem_nil
          · obtain ⟨rfl, -⟩ := Db.BatchOp.put.inj (mem_singleton.1 hop)
            exact .inr (.inl ⟨key, rfl⟩)
          · split_ifs at hop
            · obtain ⟨rfl, -⟩ := Db.BatchOp.put.inj (mem_singleton.1 hop)
              exact .inr (.inr rfl)
            · exact absurd hop not_mem_nil }

theorem insertHistory (h : Tracks cut s log) (htime : IsTime timestamp)
    (hle : timestamp ≤ s.observedStreamTime) (hfits : Fits key value)
    (hn : newest (writesOf key log) = some n) (hlt : timestamp < n.1)
    (hdb : s.db.put (historyKey key timestamp s.segmentIntervalMs)
      (encodeValue value timestamp) = .ok db) :
    Tracks cut { s with db := db } (log ++ [⟨key, value, timestamp⟩]) := by
  have hself := writesOf_append_self log ⟨key, value, timestamp⟩
  have hget : ∀ k, db.getCopy k = overwrite k (s.db.getCopy k)
      (.put (historyKey key timestamp s.segmentIntervalMs) (encodeValue value timestamp)) :=
    Engine.getCopy_write hdb
  exact
    { h with
      times := h.times_append htime hle
      sized := h.sized_append hfits
      floor := (Engine.write_eq_ok hdb).2.2.trans h.floor
      latest := fun key' => by
        rw [hget, overwrite, if_neg (historyKey_ne_latestKey key key' timestamp _), h.latest]
        by_cases hkey : key = key'
        · subst hkey
          rw [hself, newest_append_of_lt hn hlt, hn]
        · rw [writesOf_append_of_ne hkey]
      history := fun key' t ht hlive => by
        rw [hget, overwrite_historyKey key key' _ htime ht, h.history key' t ht hlive]
        by_cases hkey : key = key'
        · subst hkey
          rw [hself, superseded_append_of_lt hn hlt]
          by_cases hsame : timestamp = t
          · subst hsame
            simp
          · simp [hsame]
        · rw [writesOf_append_of_ne hkey]
          simp [hkey]
      shape := fun e he => by
        rcases Engine.mem_put hdb he with rfl | hmem
        · exact .inl ⟨key, timestamp, htime, rfl⟩
        · exact h.shape e hmem }

/-! ### A `put` -/

/-- The superseded version still has a live segment. -/
def Writable (s : VersionedStore) (log : List Revision) (v : Revision) : Prop :=
  ∀ n, newest (writesOf v.key log) = some n → n.1 < v.timestamp →
    s.truncatedThrough ≤ segmentId n.1 s.segmentIntervalMs

/-- The version is older than the retention allows. -/
def Late (s : VersionedStore) (v : Revision) : Prop :=
  v.timestamp < max s.observedStreamTime v.timestamp - s.historyRetentionMs

theorem put_late (h : Tracks s.observedStreamTime s log) (hlate : Late s v) :
    s.put v.key v.value v.timestamp = (.notPut, s) := by
  have hretention := h.retention
  have hsame : s.observe v.timestamp = s := by
    unfold Late at hlate
    rw [VersionedStore.observe, max_eq_left (by omega)]
  unfold VersionedStore.put
  simp only [hsame]
  unfold Late at hlate
  rw [if_pos (by omega)]

theorem latest_all_iff (h : Tracks cut s log) (key : Bytes) (timestamp : ℤ) :
    (s.db.getCopy (latestKey key)).all
        (fun stored => decide (timestampOfValue stored ≤ timestamp)) = true ↔
      ∀ n, newest (writesOf key log) = some n → n.1 ≤ timestamp := by
  rw [h.latest]
  cases hn : newest (writesOf key log) with
  | none => simp
  | some n =>
    simp [timestampOfValue_encodeValue (h.isTime_of_newest hn).1.isLong]

theorem through_le (h : Tracks s.observedStreamTime s log) (htime : IsTime v.timestamp)
    (hlate : ¬ Late s v) : s.truncatedThrough ≤ segmentId v.timestamp s.segmentIntervalMs := by
  rw [h.through, throughOf]
  split_ifs with hcutoff
  · have := (segmentId_isTime h.interval htime).1
    omega
  · unfold Late at hlate
    exact segmentId_mono h.interval (not_lt.1 hcutoff) (by omega)

theorem validToAfter_isSome (h : Tracks cut s log) (key : Bytes) (timestamp latestTimestamp : ℤ) :
    ∃ validTo, s.validToAfter key timestamp latestTimestamp = some validTo := by
  have hlast : min (s.segmentOf latestTimestamp) s.lastLiveSegment < longMax :=
    (min_le_right _ _).trans_lt h.band
  unfold validToAfter segmentsBetween
  simp only [hlast, if_true, Option.map_some]
  exact ⟨_, rfl⟩

theorem expire_observedStreamTime (s : VersionedStore) :
    s.expireHistoryBelowRetention.observedStreamTime = s.observedStreamTime := by
  unfold expireHistoryBelowRetention
  simp only
  split_ifs <;> rfl

/-- The end of a put. -/
def finish (s : VersionedStore) : Except Status Engine → PutReply × VersionedStore
  | .error status => (.failed status, s)
  | .ok db => (.validToUndefined, { s with db := db }.expireHistoryBelowRetention)

theorem put_supersedes (h : Tracks s.observedStreamTime s log) (hv : Offer s.segmentIntervalMs v)
    (hlate : ¬ Late s v) (hnewest : ∀ n, newest (writesOf v.key log) = some n → n.1 ≤ v.timestamp) :
    (Writable s log v → (s.put v.key v.value v.timestamp).1.accepted = true ∧
      Tracks (s.put v.key v.value v.timestamp).2.observedStreamTime
        (s.put v.key v.value v.timestamp).2 (log ++ [v])) ∧
    (¬ Writable s log v → ∃ status, (s.put v.key v.value v.timestamp).1 = .failed status) := by
  have hobserve := h.observe hv
  set s' := s.observe v.timestamp with hs'
  have hput : s.put v.key v.value v.timestamp = finish s' (s'.db.write
      (s'.supersede (s'.db.getCopy (latestKey v.key)) v.key v.value v.timestamp
        (decide (s.observedStreamTime < v.timestamp)))) := by
    have hlate' : ¬ v.timestamp < s'.observedStreamTime - s'.historyRetentionMs := hlate
    unfold VersionedStore.put
    simp only [← hs']
    exact (if_neg hlate').trans (if_pos ((hobserve.latest_all_iff v.key v.timestamp).2 hnewest))
  have hcheck : checkBatch s'.db.floor (s'.supersede (s'.db.getCopy (latestKey v.key)) v.key v.value
      v.timestamp (decide (s.observedStreamTime < v.timestamp))) = .ok ↔ Writable s log v := by
    rw [hobserve.checkBatch_supersede_iff hv.fits]
    exact forall₂_congr fun n hn => imp_congr_left
      ⟨fun hne => lt_of_le_of_ne (hnewest n hn) hne, fun hlt => hlt.ne⟩
  rw [hput]
  constructor
  · intro hwritable
    obtain ⟨db, hdb⟩ := Engine.write_of_check (hcheck.2 hwritable)
    have htracks := (hobserve.supersede hv.time (le_max_right _ _) hv.fits hnewest hdb).expire
    rw [hdb]
    refine ⟨rfl, ?_⟩
    rw [finish, expire_observedStreamTime]
    exact htracks
  · intro hrefused
    rw [Engine.write_of_refused fun hok => hrefused (hcheck.1 hok)]
    exact ⟨_, rfl⟩

theorem put_inserts (h : Tracks s.observedStreamTime s log) (hv : Offer s.segmentIntervalMs v)
    (hlate : ¬ Late s v) (hn : newest (writesOf v.key log) = some n) (hlt : v.timestamp < n.1) :
    (s.put v.key v.value v.timestamp).1.accepted = true ∧
      Tracks (s.put v.key v.value v.timestamp).2.observedStreamTime
        (s.put v.key v.value v.timestamp).2 (log ++ [v]) := by
  have hobserve := h.observe hv
  set s' := s.observe v.timestamp with hs'
  have hbranch : ¬ (s'.db.getCopy (latestKey v.key)).all
      (fun stored => decide (timestampOfValue stored ≤ v.timestamp)) = true := fun hall =>
    hlt.not_ge ((hobserve.latest_all_iff v.key v.timestamp).1 hall n hn)
  have hkept : s'.truncatedThrough ≤ segmentId v.timestamp s'.segmentIntervalMs :=
    h.through_le hv.time hlate
  have hcheck : checkBatch s'.db.floor [.put (historyKey v.key v.timestamp s'.segmentIntervalMs)
      (encodeValue v.value v.timestamp)] = .ok := by
    refine (checkBatch_eq_ok_iff _ _).2 fun op hop => ?_
    rw [mem_singleton.1 hop]
    exact (checkOp_put_iff _ _ _).2 ⟨length_historyKey_le hv.fits _ _,
      length_encodeValue_le hv.fits _, (hobserve.floor_le_historyKey_iff v.key hv.time).2 hkept⟩
  obtain ⟨db, hdb⟩ := Engine.write_of_check hcheck
  have htracks := (hobserve.insertHistory hv.time (le_max_right _ _) hv.fits hn hlt hdb).expire
  obtain ⟨validTo, hvalid⟩ := htracks.validToAfter_isSome v.key v.timestamp
    (((s'.db.getCopy (latestKey v.key)).map timestampOfValue).getD 0)
  have hput : s.put v.key v.value v.timestamp =
      (.validTo validTo, ({ s' with db := db } : VersionedStore).expireHistoryBelowRetention) := by
    have hlate' : ¬ v.timestamp < s'.observedStreamTime - s'.historyRetentionMs := hlate
    unfold VersionedStore.put
    simp only [← hs']
    refine (if_neg hlate').trans ((if_neg hbranch).trans ?_)
    simp only [Engine.put, hdb, hvalid]
  rw [hput]
  refine ⟨rfl, ?_⟩
  rw [expire_observedStreamTime]
  exact htracks

theorem put_accepted_iff (h : Tracks s.observedStreamTime s log)
    (hv : Offer s.segmentIntervalMs v) (hlate : ¬ Late s v) :
    (s.put v.key v.value v.timestamp).1.accepted = true ↔ Writable s log v := by
  by_cases hnewest : ∀ n, newest (writesOf v.key log) = some n → n.1 ≤ v.timestamp
  · obtain ⟨htaken, hrefused⟩ := h.put_supersedes hv hlate hnewest
    refine ⟨fun haccepted => ?_, fun hwritable => (htaken hwritable).1⟩
    by_contra hwritable
    obtain ⟨status, hfailed⟩ := hrefused hwritable
    rw [hfailed] at haccepted
    exact absurd haccepted (by simp [PutReply.accepted])
  · push Not at hnewest
    obtain ⟨n, hn, hlt⟩ := hnewest
    refine iff_of_true (h.put_inserts hv hlate hn hlt).1 fun m hm hle => ?_
    obtain rfl := Option.some.inj (hn.symm.trans hm)
    exact absurd hlt hle.not_gt

theorem put (h : Tracks s.observedStreamTime s log) (hv : Offer s.segmentIntervalMs v)
    (hlate : ¬ Late s v) (hwritable : Writable s log v) :
    Tracks (s.put v.key v.value v.timestamp).2.observedStreamTime
      (s.put v.key v.value v.timestamp).2 (log ++ [v]) := by
  by_cases hnewest : ∀ n, newest (writesOf v.key log) = some n → n.1 ≤ v.timestamp
  · exact ((h.put_supersedes hv hlate hnewest).1 hwritable).2
  · push Not at hnewest
    obtain ⟨n, hn, hlt⟩ := hnewest
    exact (h.put_inserts hv hlate hn hlt).2

end Tracks

end VersionedStore

end ElysiumKV.Streams
