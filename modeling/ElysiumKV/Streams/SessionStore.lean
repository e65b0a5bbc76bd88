import ElysiumKV.Streams.WindowStore

/-!
# The session store

`ElysiumKVSessionStore`: sessions lie in the segment of their end. A scan is bounded by the earliest
end asked for and stream time; the start is a filter.
-/

namespace ElysiumKV.Streams

open ByteOrder

/-- `key ‖ end ‖ start`, for the start times allowed. -/
def SessionKeys.form (IsStart : ℤ → Prop) : KeyForm where
  width := 16
  IsKey endTime bytes := IsTime endTime ∧
    ∃ key startTime, IsStart startTime ∧ bytes = key ++ SessionKeys.times endTime startTime
  isTime h := h.1
  timed := by
    rintro endTime _ ⟨htime, key, startTime, -, rfl⟩ front
    rw [← List.append_assoc]
    exact SessionKeys.endOf_append htime.isLong _ startTime

/-- `ElysiumKVSessionStore` -/
structure SessionStore extends SegmentStore

namespace SessionStore

open SessionKeys

/-- A store opened without local state. -/
def empty (retentionPeriodMs segmentIntervalMs : ℤ) : SessionStore :=
  { retentionPeriodMs, segmentIntervalMs }

/-! ### Writing -/

/-- The key a session is logged under. -/
def loggedKey (session : Windowed) : Bytes :=
  session.key ++ times session.endTime session.startTime

/-- The key a session is stored under. -/
def storeKey (s : SessionStore) (session : Windowed) : Bytes :=
  SessionKeys.storeKey session.key session.startTime session.endTime s.segmentIntervalMs

variable (s : SessionStore)

/-- `put`: a late session is dropped. -/
def put (session : Windowed) (value : Option Value) : Status × SessionStore :=
  let stored := s.putRecord session.endTime (s.storeKey session) value
  (stored.1, ⟨stored.2⟩)

/-- `remove`, of a late session too. -/
def remove (session : Windowed) : Status × SessionStore :=
  match s.db.delete (s.storeKey session) with
  | .error status => (status, s)
  | .ok db => (.ok, { s with db := db })

/-! ### Reading -/

/-- The last segment a scan visits. -/
def lastLiveSegment : ℤ :=
  segmentId (max s.observedStreamTime 0) s.segmentIntervalMs

/-- One range for each live segment, bounded by key. -/
def keyRanges (keyFrom keyTo : Bytes) (earliestEnd : ℤ) : Option (List Range) :=
  (segmentsBetween (s.firstLiveSegment earliestEnd) s.lastLiveSegment).map fun segments =>
    segments.map fun segment =>
      { lower := some (lowerRange segment keyFrom)
        upperExclusive := some (exclusive (upperRange segment keyTo)) }

/-- One range for each live segment, whole. -/
def segmentRanges (earliestEnd : ℤ) : Option (List Range) :=
  (segmentsBetween (s.firstLiveSegment earliestEnd) s.lastLiveSegment).map fun segments =>
    segments.map fun segment =>
      { lower := some (segmentPrefix segment)
        upperExclusive := some (segmentPrefix (segment + 1)) }

/-- The filter of `ScanCursor`. -/
def keeps (earliestEnd latestStart : ℤ) (storeKey : Key) : Bool :=
  earliestEnd ≤ endOf storeKey && startOf storeKey ≤ latestStart

/-- A scan over keys and times; without keys, whole segments. -/
def keyScan (keys : Option (Bytes × Bytes)) (earliestEnd latestStart : ℤ)
    (forward : Bool) : Option (List Record) :=
  (match keys with
    | none => s.segmentRanges earliestEnd
    | some (keyFrom, keyTo) => s.keyRanges keyFrom keyTo earliestEnd).map fun ranges =>
      scan s.db ranges (keeps earliestEnd latestStart) forward

/-- What `SessionIterator` yields. -/
def windowed (record : Record) : Windowed × Value :=
  (⟨SessionKeys.userKeyOf record.1, SessionKeys.startOf record.1, SessionKeys.endOf record.1⟩,
    record.2)

/-- `fetchSession` -/
def fetchSession (key : Bytes) (startTime endTime : ℤ) : Option Value :=
  s.db.getCopy (SessionKeys.storeKey key startTime endTime s.segmentIntervalMs)

/-- `findSessions` of two keys. -/
def findSessionsRange (keyFrom keyTo : Bytes) (earliestEnd latestStart : ℤ) :
    Option (List (Windowed × Value)) :=
  (s.keyScan (some (keyFrom, keyTo)) earliestEnd latestStart true).map (List.map windowed)

/-- `backwardFindSessions` of two keys. -/
def backwardFindSessionsRange (keyFrom keyTo : Bytes)
    (earliestEnd latestStart : ℤ) : Option (List (Windowed × Value)) :=
  (s.keyScan (some (keyFrom, keyTo)) earliestEnd latestStart false).map (List.map windowed)

/-- `findSessions(key, earliestEnd, latestStart)` -/
def findSessions (key : Bytes) (earliestEnd latestStart : ℤ) : Option (List (Windowed × Value)) :=
  s.findSessionsRange key key earliestEnd latestStart

/-- `backwardFindSessions` of a key. -/
def backwardFindSessions (key : Bytes) (earliestEnd latestStart : ℤ) :
    Option (List (Windowed × Value)) :=
  s.backwardFindSessionsRange key key earliestEnd latestStart

/-- `findSessions(earliestEnd, latestStart)` -/
def findAllSessions (earliestEnd latestStart : ℤ) : Option (List (Windowed × Value)) :=
  (s.keyScan none earliestEnd latestStart true).map (List.map windowed)

/-- `fetch(key)` -/
def fetch (key : Bytes) : Option (List (Windowed × Value)) :=
  s.findSessions key 0 longMax

/-- `backwardFetch(key)` -/
def backwardFetch (key : Bytes) : Option (List (Windowed × Value)) :=
  s.backwardFindSessions key 0 longMax

/-- `fetch(keyFrom, keyTo)` -/
def fetchRange (keyFrom keyTo : Bytes) : Option (List (Windowed × Value)) :=
  s.findSessionsRange keyFrom keyTo 0 longMax

/-- `backwardFetch(keyFrom, keyTo)` -/
def backwardFetchRange (keyFrom keyTo : Bytes) : Option (List (Windowed × Value)) :=
  s.backwardFindSessionsRange keyFrom keyTo 0 longMax

/-! ### Scans of the live band -/

/-- A scan's lower bound on `user key ‖ end ‖ start`. -/
def lowerBound (keys : Option (Bytes × Bytes)) : Option Bytes :=
  keys.map fun keys => keys.1 ++ times 0 0

/-- A scan's upper bound on `user key ‖ end ‖ start`. -/
def upperBound (keys : Option (Bytes × Bytes)) : Option Bytes :=
  keys.map fun keys => keys.2 ++ times longMax longMax

variable {s} {IsStart : ℤ → Prop}

theorem keyScan_of_covered (h : s.Covered (form IsStart))
    (keys : Option (Bytes × Bytes)) (earliestEnd latestStart : ℤ) :
    s.keyScan keys earliestEnd latestStart true =
      if s.lastLiveSegment < longMax then
        some (s.db.entries.filter fun e =>
          withinBounds (lowerBound keys) (upperBound keys) (e.1.drop 8) &&
            keeps earliestEnd latestStart e.1)
      else none := by
  have hranges : s.keyScan keys earliestEnd latestStart true =
      (segmentsBetween (s.firstLiveSegment earliestEnd) s.lastLiveSegment).map fun segments =>
        scan s.db (segments.map (segmentRange (lowerBound keys) (upperBound keys)))
          (keeps earliestEnd latestStart) true := by
    obtain - | ⟨keyFrom, keyTo⟩ := keys <;>
      simp only [keyScan, segmentRanges, keyRanges, Option.map_map] <;> rfl
  have hfirst : 0 ≤ s.firstLiveSegment earliestEnd := le_max_of_le_right (le_max_right _ _)
  rw [hranges]
  refine scan_of_band h.segmented hfirst _ _ fun e he hkeep => h.band he ?_
  rw [keeps, Bool.and_eq_true, decide_eq_true_eq] at hkeep
  exact hkeep.1

theorem keyScan_backward (s : SessionStore) (keys : Option (Bytes × Bytes))
    (earliestEnd latestStart : ℤ) :
    s.keyScan keys earliestEnd latestStart false =
      (s.keyScan keys earliestEnd latestStart true).map List.reverse := by
  cases keys <;> simp [keyScan, Option.map_map, Function.comp_def, scan_backward]

/-- What `put` and `remove` keep. -/
abbrev Steady (s : SessionStore) : Prop :=
  SegmentStore.Steady (form IsTime) s.toSegmentStore

theorem isStoreKey_storeKey {session : Windowed} (hend : IsTime session.endTime)
    (hstart : IsStart session.startTime) :
    (SessionKeys.form IsStart).IsStoreKey s.segmentIntervalMs session.endTime (s.storeKey session) :=
  ⟨loggedKey session, ⟨hend, session.key, _, hstart, rfl⟩, rfl⟩

theorem Steady.remove (h : s.Steady) (session : Windowed) : (s.remove session).2.Steady := by
  unfold SessionStore.remove
  cases hdb : s.db.delete (s.storeKey session) with
  | error status => exact h
  | ok db => exact h.write fun e he => .inr (Engine.mem_delete hdb he)

end SessionStore

end ElysiumKV.Streams
