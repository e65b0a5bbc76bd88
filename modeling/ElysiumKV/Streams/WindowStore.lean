import ElysiumKV.Streams.SegmentStore

/-!
# The window store

`ElysiumKVWindowStore`. While the live band covers the records, a scan is one filter of the store
(`keyScan_of_covered`).
-/

namespace ElysiumKV.Streams

open ByteOrder

/-- `key ‖ timestamp ‖ seqnum`, for the numbers allowed. -/
def WindowKeys.form (IsNumber : ℕ → Prop) : KeyForm where
  width := 12
  IsKey timestamp bytes := IsTime timestamp ∧
    ∃ key seqnum, IsNumber seqnum ∧ bytes = key ++ WindowKeys.times timestamp seqnum
  isTime h := h.1
  timed := by
    rintro timestamp _ ⟨htime, key, seqnum, -, rfl⟩ front
    rw [← List.append_assoc]
    exact WindowKeys.timestampOf_append htime.isLong _ seqnum

/-- `ElysiumKVWindowStore` -/
structure WindowStore extends SegmentStore where
  windowSizeMs : ℤ
  retainDuplicates : Bool
  seqnum : ℕ := 0

/-- A key with its window, `Windowed<Bytes>`. -/
structure Windowed where
  key : Bytes
  startTime : ℤ
  endTime : ℤ
deriving DecidableEq, Repr

namespace WindowStore

open WindowKeys

/-- A store opened without local state. -/
def empty (retentionPeriodMs segmentIntervalMs windowSizeMs : ℤ) (retainDuplicates : Bool) :
    WindowStore :=
  { retentionPeriodMs, segmentIntervalMs, windowSizeMs, retainDuplicates }

/-! ### Writing -/

variable (s : WindowStore)

/-- It moves only if duplicates are retained. -/
def maybeUpdateSeqnumForDups : ℕ :=
  if s.retainDuplicates then (s.seqnum + 1) % 2 ^ 31 else s.seqnum

/-- The record's number, and the store's after it; a plain delete has 0. -/
def numberFor (value : Option Value) : ℕ × ℕ :=
  if value.isNone && !s.retainDuplicates then (0, s.seqnum)
  else (s.maybeUpdateSeqnumForDups, s.maybeUpdateSeqnumForDups)

/-- The key a `put` logs. -/
def loggedKey (key : Bytes) (value : Option Value) (timestamp : ℤ) : Bytes :=
  key ++ times timestamp (s.numberFor value).1

/-- The key a `put` stores its record under. -/
def storeKeyFor (key : Bytes) (value : Option Value) (timestamp : ℤ) : Key :=
  storeKey key timestamp (s.numberFor value).1 s.segmentIntervalMs

/-- `put`: a late record takes no sequence number. -/
def put (key : Bytes) (value : Option Value) (windowStartTimestamp : ℤ) : Status × WindowStore :=
  let stored := s.putRecord windowStartTimestamp (s.storeKeyFor key value windowStartTimestamp) value
  (stored.1, { s with
    toSegmentStore := stored.2
    seqnum := if s.Late windowStartTimestamp then s.seqnum else (s.numberFor value).2 })

/-! ### Reading -/

/-- The last segment a scan up to `timeTo` visits. -/
def lastLiveSegment (timeTo : ℤ) : ℤ :=
  min (segmentId (max timeTo 0) s.segmentIntervalMs)
    (segmentId (max s.observedStreamTime 0) s.segmentIntervalMs)

/-- `keyRanges`: one range a segment, bounded by key. -/
def keyRanges (keyFrom keyTo : Option Bytes) (timeFrom timeTo : ℤ) : Option (List Range) :=
  (segmentsBetween (s.firstLiveSegment timeFrom) (s.lastLiveSegment timeTo)).map fun segments =>
    segments.map fun segment =>
      { lower := some (match keyFrom with
          | none => segmentPrefix segment
          | some key => lowerRange segment key timeFrom)
        upperExclusive := some (match keyTo with
          | none => segmentPrefix (segment + 1)
          | some key => exclusive (upperRange segment key timeTo)) }

/-- The filter of `ScanCursor`. -/
def keeps (timeFrom timeTo : ℤ) (storeKey : Key) : Bool :=
  timeFrom ≤ timestampOf storeKey && timestampOf storeKey ≤ timeTo

/-- The records a scan over keys and times yields. -/
def keyScan (keyFrom keyTo : Option Bytes) (timeFrom timeTo : ℤ)
    (forward : Bool) : Option (List Record) :=
  (s.keyRanges keyFrom keyTo timeFrom timeTo).map fun ranges =>
    scan s.db ranges (keeps timeFrom timeTo) forward

/-- What `TimestampedIterator` yields. -/
def timestamped (record : Record) : ℤ × Value := (timestampOf record.1, record.2)

/-- `WindowedIterator`; `TimeWindow` throws unless the end, a `long`, is behind the start. -/
def windowed (record : Record) : Option (Windowed × Value) :=
  let start := WindowKeys.timestampOf record.1
  let windowEnd := toLong (start + s.windowSizeMs)
  if 0 ≤ start ∧ start < windowEnd then
    some (⟨WindowKeys.userKeyOf record.1, start, windowEnd⟩, record.2)
  else none

/-- `fetch(key, time)`, under the store's own sequence number. -/
def fetchAt (key : Bytes) (time : ℤ) : Option Value :=
  s.db.getCopy (storeKey key time s.seqnum s.segmentIntervalMs)

/-- `fetch(key, timeFrom, timeTo)` -/
def fetch (key : Bytes) (timeFrom timeTo : ℤ) : Option (List (ℤ × Value)) :=
  (s.keyScan (some key) (some key) timeFrom timeTo true).map (List.map timestamped)

/-- `backwardFetch(key, timeFrom, timeTo)` -/
def backwardFetch (key : Bytes) (timeFrom timeTo : ℤ) : Option (List (ℤ × Value)) :=
  (s.keyScan (some key) (some key) timeFrom timeTo false).map (List.map timestamped)

/-- `fetch(keyFrom, keyTo, timeFrom, timeTo)` -/
def fetchRange (keyFrom keyTo : Option Bytes) (timeFrom timeTo : ℤ) :
    Option (List (Windowed × Value)) :=
  (s.keyScan keyFrom keyTo timeFrom timeTo true).bind (List.mapM s.windowed)

/-- `backwardFetch` of two keys. -/
def backwardFetchRange (keyFrom keyTo : Option Bytes) (timeFrom timeTo : ℤ) :
    Option (List (Windowed × Value)) :=
  (s.keyScan keyFrom keyTo timeFrom timeTo false).bind (List.mapM s.windowed)

/-- `fetchAll`: as for two absent keys. -/
def fetchAll (timeFrom timeTo : ℤ) : Option (List (Windowed × Value)) :=
  s.fetchRange none none timeFrom timeTo

/-- `backwardFetchAll` -/
def backwardFetchAll (timeFrom timeTo : ℤ) : Option (List (Windowed × Value)) :=
  s.backwardFetchRange none none timeFrom timeTo

/-- `all` -/
def all : Option (List (Windowed × Value)) :=
  (scan s.db [⟨none, none⟩] (keeps (-2 ^ 63) longMax) true).mapM s.windowed

/-- `backwardAll` -/
def backwardAll : Option (List (Windowed × Value)) :=
  (scan s.db [⟨none, none⟩] (keeps (-2 ^ 63) longMax) false).mapM s.windowed

/-! ### Scans of the live band -/

/-- A scan's lower bound on `user key ‖ timestamp ‖ seqnum`. -/
def lowerBound (keyFrom : Option Bytes) (timeFrom : ℤ) : Option Bytes :=
  keyFrom.map fun key => key ++ times (max timeFrom 0) 0

/-- A scan's upper bound on `user key ‖ timestamp ‖ seqnum`. -/
def upperBound (keyTo : Option Bytes) (timeTo : ℤ) : Option Bytes :=
  keyTo.map fun key => key ++ times timeTo intMax

variable {s} {IsNumber : ℕ → Prop}

theorem band_of_covered (h : s.Covered (form IsNumber)) {timeFrom timeTo : ℤ} {e : Record}
    (he : e ∈ s.db.entries) (hkeep : keeps timeFrom timeTo e.1 = true) :
    s.firstLiveSegment timeFrom ≤ segmentOf e.1 ∧ segmentOf e.1 ≤ s.lastLiveSegment timeTo := by
  rw [keeps, Bool.and_eq_true, decide_eq_true_eq, decide_eq_true_eq] at hkeep
  obtain ⟨hfirst, hlast⟩ := h.band he hkeep.1
  refine ⟨hfirst, le_min ?_ hlast⟩
  obtain ⟨time, hlive⟩ := h.live e he
  have hread : timestampOf e.1 = time := hlive.stored.longFromEnd
  rw [hlive.stored.segmentOf h.interval]
  exact segmentId_mono h.interval hlive.stored.isTime.1 (le_max_of_le_left (hread ▸ hkeep.2))

theorem keyScan_of_covered (h : s.Covered (form IsNumber)) (keyFrom keyTo : Option Bytes)
    (timeFrom timeTo : ℤ) :
    s.keyScan keyFrom keyTo timeFrom timeTo true =
      if s.lastLiveSegment timeTo < longMax then
        some (s.db.entries.filter fun e =>
          withinBounds (lowerBound keyFrom timeFrom) (upperBound keyTo timeTo) (e.1.drop 8) &&
            keeps timeFrom timeTo e.1)
      else none := by
  have hranges : s.keyRanges keyFrom keyTo timeFrom timeTo =
      (segmentsBetween (s.firstLiveSegment timeFrom) (s.lastLiveSegment timeTo)).map fun segments =>
        segments.map (segmentRange (lowerBound keyFrom timeFrom) (upperBound keyTo timeTo)) := by
    cases keyFrom <;> cases keyTo <;> rfl
  have hfirst : 0 ≤ s.firstLiveSegment timeFrom := le_max_of_le_right (le_max_right _ _)
  rw [keyScan, hranges, Option.map_map]
  exact scan_of_band h.segmented hfirst _ _ fun e he => band_of_covered h he

theorem keyScan_backward (s : WindowStore) (keyFrom keyTo : Option Bytes) (timeFrom timeTo : ℤ) :
    s.keyScan keyFrom keyTo timeFrom timeTo false =
      (s.keyScan keyFrom keyTo timeFrom timeTo true).map List.reverse := by
  simp [keyScan, Option.map_map, Function.comp_def, scan_backward]

/-- What `put` keeps. -/
structure Steady (s : WindowStore) : Prop extends
    SegmentStore.Steady (form (· ≤ intMax)) s.toSegmentStore where
  positive : s.seqnum ≤ intMax

theorem numberFor_le (h : s.seqnum ≤ intMax) (value : Option Value) :
    (s.numberFor value).1 ≤ intMax ∧ (s.numberFor value).2 ≤ intMax := by
  unfold intMax at *
  unfold numberFor maybeUpdateSeqnumForDups
  split_ifs <;> simp only <;> omega

theorem isStoreKey_storeKeyFor {timestamp : ℤ} (key : Bytes) (value : Option Value)
    (htime : IsTime timestamp) (hnumber : IsNumber (s.numberFor value).1) :
    (form IsNumber).IsStoreKey s.segmentIntervalMs timestamp
      (s.storeKeyFor key value timestamp) :=
  ⟨s.loggedKey key value timestamp, ⟨htime, key, _, hnumber, rfl⟩, rfl⟩

theorem Steady.put (h : s.Steady) (key : Bytes) (value : Option Value) {timestamp : ℤ}
    (htime : IsTime timestamp) : (s.put key value timestamp).2.Steady := by
  have hnumber := numberFor_le h.positive value
  refine ⟨h.putRecord (isStoreKey_storeKeyFor key value htime hnumber.1) value, ?_⟩
  show (if s.Late timestamp then s.seqnum else (s.numberFor value).2) ≤ intMax
  split_ifs
  · exact h.positive
  · exact hnumber.2

end WindowStore

end ElysiumKV.Streams
