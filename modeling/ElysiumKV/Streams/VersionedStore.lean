import ElysiumKV.Streams.Segments
import ElysiumKV.Lib.Timeline

/-!
# The versioned store

`01 ‖ key` holds the current value, `00 ‖ segment ‖ key ‖ timestamp` a superseded version, in its
own segment, and `02` stream time. History sorts below current values, which truncation never
reaches.
-/

namespace ElysiumKV.Streams

open ByteOrder List

namespace VersionedKeys

/-- Where stream time is stored. -/
def streamTimeKey : Bytes := [2]

/-- Stream time as stored. -/
def encodeStreamTime (streamTime : ℤ) : Bytes := putLong streamTime

/-- `01 ‖ key`. -/
def latestKey (key : Bytes) : Bytes := 1 :: key

/-- The history layout; also the bounds of a scan. -/
def historyBound (key : Bytes) (segmentId timestamp : ℤ) : Bytes :=
  0 :: (segmentPrefix segmentId ++ (key ++ putLong timestamp))

/-- The key of a version in history. -/
def historyKey (key : Bytes) (timestamp segmentIntervalMs : ℤ) : Bytes :=
  historyBound key (segmentId timestamp segmentIntervalMs) timestamp

/-- The first key of a segment's scan. -/
def historyLowerBound (key : Bytes) (segmentId fromTimestamp : ℤ) : Bytes :=
  historyBound key segmentId (max fromTimestamp 0)

/-- The last key of it. -/
def historyUpperBound (key : Bytes) (segmentId toTimestamp : ℤ) : Bytes :=
  historyBound key segmentId toTimestamp

/-- Where a segment begins. -/
def historySegmentFloor (segmentId : ℤ) : Bytes := 0 :: segmentPrefix segmentId

/-- The version's timestamp. -/
def timestampOfHistoryKey (storeKey : Bytes) : ℤ := longFromEnd 8 storeKey

/-- Of this key, not of one that starts with it. -/
def isHistoryEntryFor (storeKey key : Bytes) : Bool :=
  storeKey.length = 1 + 8 + key.length + 8 && storeKey.head? = some 0 &&
    (storeKey.drop 9).take key.length = key

/-- `flag ‖ timestamp ‖ value`; a deletion has the flag alone. -/
def encodeValue (value : Option Value) (timestamp : ℤ) : Bytes :=
  (if value.isNone then 1 else 0) :: (putLong timestamp ++ value.getD [])

/-- The flag is set. -/
def isTombstone (stored : Bytes) : Bool := stored.head? = some 1

/-- The stored timestamp. -/
def timestampOfValue (stored : Bytes) : ℤ := getLong ((stored.drop 1).take 8)

/-- `timestamp ‖ value`, or `null` for a deletion. -/
def toTimestampedFormat (stored : Bytes) : Option Bytes :=
  if isTombstone stored then none else some (stored.drop 1)

/-- `timestamp ‖ value`. -/
def rendered (version : ℤ × Option Value) : Option Bytes :=
  version.2.map fun value => putLong version.1 ++ value

theorem timestampOfValue_encodeValue {timestamp : ℤ} (h : IsLong timestamp) (value : Option Value) :
    timestampOfValue (encodeValue value timestamp) = timestamp := by
  simp [timestampOfValue, encodeValue, take_left' (length_putLong timestamp), getLong_putLong h]

theorem toTimestampedFormat_encodeValue (value : Option Value) (timestamp : ℤ) :
    toTimestampedFormat (encodeValue value timestamp) = rendered (timestamp, value) := by
  cases value <;> simp [toTimestampedFormat, encodeValue, isTombstone, rendered]

theorem length_encodeValue (value : Option Value) (timestamp : ℤ) :
    (encodeValue value timestamp).length = 9 + (value.getD []).length := by
  simp only [encodeValue, length_cons, length_append, length_putLong]
  omega

theorem length_historyBound (key : Bytes) (segment timestamp : ℤ) :
    (historyBound key segment timestamp).length = 1 + 8 + key.length + 8 := by
  simp only [historyBound, segmentPrefix, length_cons, length_append, length_putLong]
  omega

theorem isHistoryEntryFor_historyKey (key' key : Bytes) (timestamp interval : ℤ) :
    isHistoryEntryFor (historyKey key' timestamp interval) key = true ↔ key' = key := by
  have hdrop : (historyKey key' timestamp interval).drop 9 = key' ++ putLong timestamp := by
    simp only [historyKey, historyBound, drop_succ_cons, drop_segmentPrefix]
  simp only [isHistoryEntryFor, hdrop, Bool.and_eq_true, decide_eq_true_eq]
  rw [historyKey, length_historyBound]
  constructor
  · rintro ⟨⟨hlength, -⟩, hkey⟩
    rw [take_left' (by omega)] at hkey
    exact hkey
  · rintro rfl
    exact ⟨⟨rfl, rfl⟩, take_left' rfl⟩

variable {key : Bytes} {g h : ℤ}

theorem historyBound_le_iff (hg : IsTime g) (hh : IsTime h) (a b : ℤ) :
    historyBound key g a ≤ historyBound key h b ↔ g < h ∨ g = h ∧ putLong a ≤ putLong b := by
  have hcons := append_le_append_left [0] (segmentPrefix g ++ (key ++ putLong a))
    (segmentPrefix h ++ (key ++ putLong b))
  have hseg : segmentPrefix g < segmentPrefix h ↔ g < h := putLong_lt_putLong hg hh
  have heq : segmentPrefix g = segmentPrefix h ↔ g = h :=
    ⟨putLong_injOn hg.isLong hh.isLong, congrArg _⟩
  have hlength : (segmentPrefix g).length = (segmentPrefix h).length := by simp [segmentPrefix]
  simp only [historyBound]
  rw [← singleton_append, ← singleton_append (l := segmentPrefix h ++ _), hcons,
    append_le_append_iff hlength, append_le_append_left, hseg, heq]

variable {a b : ℤ}

theorem historyBound_le (hg : IsTime g) (hh : IsTime h) (ha : IsTime a) (hb : IsTime b) :
    historyBound key g a ≤ historyBound key h b ↔ g < h ∨ g = h ∧ a ≤ b := by
  rw [historyBound_le_iff hg hh, putLong_le_putLong ha hb]

theorem historyBound_le_of_negative (hg : IsTime g) (hh : IsTime h) (ha : IsTime a)
    (hb : IsLong b) (hneg : b < 0) : historyBound key g a ≤ historyBound key h b ↔ g ≤ h := by
  have hle := putLong_le_of_negative ha hb hneg
  rw [historyBound_le_iff hg hh]
  constructor
  · rintro (hlt | ⟨heq, -⟩) <;> omega
  · intro hgh
    rcases hgh.lt_or_eq with hlt | heq
    · exact .inl hlt
    · exact .inr ⟨heq, hle⟩

theorem historyKey_injOn {key' : Bytes} {interval : ℤ} (ha : IsTime a) (hb : IsTime b)
    (h : historyKey key a interval = historyKey key' b interval) : key = key' ∧ a = b := by
  have hkey : key = key' := by
    rw [← isHistoryEntryFor_historyKey key key' a interval, h, isHistoryEntryFor_historyKey]
  subst hkey
  refine ⟨rfl, ?_⟩
  have htail := congrArg (fun x => x.drop 9) h
  simp only [historyKey, historyBound, drop_succ_cons, drop_segmentPrefix] at htail
  exact putLong_injOn ha.isLong hb.isLong (append_cancel_left htail)

theorem historySegmentFloor_le_iff {t interval : ℤ} (hg : IsTime g) (hinterval : 1 ≤ interval)
    (ht : IsTime t) :
    historySegmentFloor g ≤ historyKey key t interval ↔ g ≤ segmentId t interval := by
  have hcons := append_le_append_left [0] (segmentPrefix g)
    (segmentPrefix (segmentId t interval) ++ (key ++ putLong t))
  rw [singleton_append, singleton_append] at hcons
  exact hcons.trans (segmentPrefix_le_iff hg (segmentId_isTime hinterval ht) _)

theorem historySegmentFloor_le_latestKey (g : ℤ) (key : Bytes) :
    historySegmentFloor g ≤ latestKey key :=
  le_of_lt (cons_lt_cons_iff.2 (.inl (by decide)))

theorem historySegmentFloor_le_streamTimeKey (g : ℤ) : historySegmentFloor g ≤ streamTimeKey :=
  le_of_lt (cons_lt_cons_iff.2 (.inl (by decide)))

end VersionedKeys

open VersionedKeys

/-- `ElysiumKVVersionedStore`. -/
structure VersionedStore where
  historyRetentionMs : ℤ
  segmentIntervalMs : ℤ
  db : Engine := .empty
  observedStreamTime : ℤ := -1
  truncatedThrough : ℤ := -1

/-- It returns, throws, or does not end. -/
inductive PutReply
  | notPut
  | validToUndefined
  | validTo (timestamp : ℤ)
  | failed (status : Status)
  | diverges
deriving DecidableEq, Repr

/-- It returned. -/
def PutReply.accepted : PutReply → Bool
  | validToUndefined | validTo _ => true
  | _ => false

namespace VersionedStore

variable (s : VersionedStore)

/-- The segment of a timestamp. -/
def segmentOf (timestamp : ℤ) : ℤ :=
  segmentId (max timestamp 0) s.segmentIntervalMs

/-- The segment of stream time. -/
def lastLiveSegment : ℤ := s.segmentOf s.observedStreamTime

/-- The first not truncated. -/
def firstLiveSegment : ℤ :=
  max s.truncatedThrough (s.segmentOf (s.observedStreamTime - s.historyRetentionMs))

/-- Stream time follows. -/
def observe (timestamp : ℤ) : VersionedStore :=
  { s with observedStreamTime := max s.observedStreamTime timestamp }

/-- `expireHistoryBelowRetention`. -/
def expireHistoryBelowRetention : VersionedStore :=
  let cutoff := s.observedStreamTime - s.historyRetentionMs
  if cutoff < 0 then s
  else
    let minLiveSegment := s.segmentOf cutoff
    if minLiveSegment ≤ s.truncatedThrough then s
    else
      { s with
        db := s.db.truncateBelow (historySegmentFloor minLiveSegment)
        truncatedThrough := minLiveSegment }

/-- `validToAfter`; `none` if it does not end. -/
def validToAfter (key : Bytes) (timestamp latestTimestamp : ℤ) : Option ℤ :=
  let start := timestamp + 1
  let last := min (s.segmentOf latestTimestamp) s.lastLiveSegment
  (segmentsBetween (max (s.segmentOf start) s.firstLiveSegment) last).map fun segments =>
    let next := segments.findSome? fun segment =>
      (s.db.iterator (some (historyLowerBound key segment start))
        (some (exclusive (historyUpperBound key segment latestTimestamp)))).find? fun e =>
          isHistoryEntryFor e.1 key
    match next with
    | some e => timestampOfHistoryKey e.1
    | none => latestTimestamp

/-- The batch of a new current version: the old one goes to history, unless at the same timestamp.
-/
def supersede (latest : Option Bytes) (key : Bytes) (value : Option Value)
    (timestamp : ℤ) (streamTimeAdvanced : Bool) : List Db.BatchOp :=
  (match latest with
    | none => []
    | some stored =>
      if timestampOfValue stored ≠ timestamp then
        [.put (historyKey key (timestampOfValue stored) s.segmentIntervalMs) stored]
      else []) ++
    [.put (latestKey key) (encodeValue value timestamp)] ++
    if streamTimeAdvanced then
      [.put streamTimeKey (encodeStreamTime s.observedStreamTime)]
    else []

/-- `put`. -/
def put (key : Bytes) (value : Option Value) (timestamp : ℤ) : PutReply × VersionedStore :=
  let streamTimeAdvanced := decide (s.observedStreamTime < timestamp)
  let s := s.observe timestamp
  if timestamp < s.observedStreamTime - s.historyRetentionMs then (.notPut, s)
  else
    let latest := s.db.getCopy (latestKey key)
    if latest.all (fun stored => decide (timestampOfValue stored ≤ timestamp)) then
      match s.db.write (s.supersede latest key value timestamp streamTimeAdvanced) with
      | .error status => (.failed status, s)
      | .ok db => (.validToUndefined, { s with db := db }.expireHistoryBelowRetention)
    else
      match s.db.put (historyKey key timestamp s.segmentIntervalMs)
          (encodeValue value timestamp) with
      | .error status => (.failed status, s)
      | .ok db =>
        let s := { s with db := db }.expireHistoryBelowRetention
        match s.validToAfter key timestamp ((latest.map timestampOfValue).getD 0) with
        | some validTo => (.validTo validTo, s)
        | none => (.diverges, s)

/-- `get(key)`. -/
def get (key : Bytes) : Option Bytes :=
  (s.db.getCopy (latestKey key)).bind toTimestampedFormat

/-- From the segment of the asked-for time down. -/
def segmentsDown (asOfTimestamp : ℤ) : List ℤ :=
  let start := min (s.segmentOf asOfTimestamp) s.lastLiveSegment
  (List.range (start + 1 - s.firstLiveSegment).toNat).map fun (i : ℕ) => start - i

/-- `get(key, asOfTimestamp)`. -/
def getAsOf (key : Bytes) (asOfTimestamp : ℤ) : Option Bytes :=
  let latest := s.db.getCopy (latestKey key)
  if latest.any fun stored => decide (timestampOfValue stored ≤ asOfTimestamp) then
    latest.bind toTimestampedFormat
  else
    let found := (s.segmentsDown asOfTimestamp).findSome? fun segment =>
      (s.db.reverseIterator (some (historyLowerBound key segment 0))
        (some (exclusive (historyUpperBound key segment asOfTimestamp)))).find? fun e =>
          isHistoryEntryFor e.1 key
    found.bind fun e => toTimestampedFormat e.2

/-- `delete`: what was valid then, read first. -/
def delete (key : Bytes) (timestamp : ℤ) : Option Bytes × PutReply × VersionedStore :=
  (s.getAsOf key timestamp, s.put key none timestamp)

end VersionedStore

end ElysiumKV.Streams
