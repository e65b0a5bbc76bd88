import ElysiumKV.Streams.SessionStore

/-!
# What the fetches of the window and the session store yield

A fetch bounds the bytes `user key ‖ times`, whose order is not the user keys' where one key begins
with the other (`Misleads`). It yields exactly the puts asked for where the bounds mislead about
none (`fetches_exactly_iff`).
-/

namespace ElysiumKV.Streams

open ByteOrder List

/-! ### Where the order of the bytes differs from that of the keys -/

/-- Between two user keys; `null` is unbounded. -/
def inKeys (keyFrom keyTo : Option Bytes) (key : Bytes) : Bool :=
  keyFrom.all (fun b => decide (b ≤ key)) && keyTo.all fun b => decide (key ≤ b)

/-- Comparing `a ‖ x` with `b ‖ y` misleads about `a ≤ b`: one key is the other followed by `rest`,
which decides wrongly against the times. -/
def Misleads (a x b y : Bytes) : Prop :=
  ∃ rest, rest ≠ [] ∧ (b = a ++ rest ∧ rest ++ y < x ∨ a = b ++ rest ∧ rest ++ x ≤ y)

/-- `keyFrom ‖ least` misleads about a key. -/
def MisleadsFrom (keyFrom : Option Bytes) (least key times : Bytes) : Prop :=
  ∃ bound ∈ keyFrom, Misleads bound least key times

/-- `keyTo ‖ most` misleads about a key. -/
def MisleadsTo (keyTo : Option Bytes) (most key times : Bytes) : Prop :=
  ∃ bound ∈ keyTo, Misleads key times bound most

/-- About a key asked for neither bound misleads; if one takes in a key not asked for, the other
leaves it out. -/
structure Apart (keyFrom keyTo : Option Bytes) (least most key times : Bytes) : Prop where
  inside : inKeys keyFrom none key = true → inKeys none keyTo key = true →
    ¬ MisleadsFrom keyFrom least key times ∧ ¬ MisleadsTo keyTo most key times
  below : inKeys keyFrom none key = false → inKeys none keyTo key = true →
    MisleadsFrom keyFrom least key times → MisleadsTo keyTo most key times
  above : inKeys keyFrom none key = true → inKeys none keyTo key = false →
    MisleadsTo keyTo most key times → MisleadsFrom keyFrom least key times
  outside : inKeys keyFrom none key = false → inKeys none keyTo key = false →
    MisleadsFrom keyFrom least key times → ¬ MisleadsTo keyTo most key times

variable {a b x y : Bytes}

theorem misleads_iff (h : x ≤ y) : Misleads a x b y ↔ ¬ (a ++ x ≤ b ++ y ↔ a ≤ b) := by
  by_cases hab : a <+: b
  · obtain ⟨rest, rfl⟩ := hab
    have hle : a ≤ a ++ rest := by
      simpa using (append_le_append_left a [] rest).2 (nil_le rest)
    rw [append_assoc, append_le_append_left, iff_true_right hle, not_le]
    constructor
    · rintro ⟨rest', hne, ⟨heq, hlt⟩ | ⟨heq, -⟩⟩
      · rwa [append_cancel_left heq]
      · simp [append_assoc, hne] at heq
    · intro hlt
      refine ⟨rest, ?_, .inl ⟨rfl, hlt⟩⟩
      rintro rfl
      exact absurd hlt h.not_gt
  · by_cases hba : b <+: a
    · obtain ⟨rest, rfl⟩ := hba
      have hne : rest ≠ [] := by
        rintro rfl
        simp at hab
      have hlt : ¬ b ++ rest ≤ b := by
        have hpos := (append_lt_append_left b [] rest).2
          (lt_of_le_of_ne (nil_le rest) (Ne.symm hne))
        simpa using hpos
      rw [append_assoc, append_le_append_left, iff_false_right hlt, not_not]
      constructor
      · rintro ⟨rest', hne', ⟨heq, -⟩ | ⟨heq, hle⟩⟩
        · simp [append_assoc, hne'] at heq
        · rwa [append_cancel_left heq]
      · exact fun hle => ⟨rest, hne, .inr ⟨rfl, hle⟩⟩
    · rw [append_le_append_of_apart hab hba]
      simp only [not_true_eq_false, iff_false]
      rintro ⟨rest, -, ⟨heq, -⟩ | ⟨heq, -⟩⟩
      · exact hab ⟨rest, heq.symm⟩
      · exact hba ⟨rest, heq.symm⟩

variable {keyFrom keyTo : Option Bytes} {least most key times : Bytes}

theorem misleadsFrom_iff (keyFrom : Option Bytes) (key : Bytes) (h : least ≤ times) :
    MisleadsFrom keyFrom least key times ↔
    ¬ ((keyFrom.map (· ++ least)).all (fun b => decide (b ≤ key ++ times)) = true ↔
      inKeys keyFrom none key = true) := by
  cases keyFrom with
  | none => simp [MisleadsFrom, inKeys]
  | some bound => simp [MisleadsFrom, inKeys, misleads_iff h]

theorem misleadsTo_iff (keyTo : Option Bytes) (key : Bytes) (h : times ≤ most) :
    MisleadsTo keyTo most key times ↔
    ¬ ((keyTo.map (· ++ most)).all (fun b => decide (key ++ times ≤ b)) = true ↔
      inKeys none keyTo key = true) := by
  cases keyTo with
  | none => simp [MisleadsTo, inKeys]
  | some bound => simp [MisleadsTo, inKeys, misleads_iff h]

theorem apart_iff (keyFrom keyTo : Option Bytes) (key : Bytes) (hleast : least ≤ times)
    (hmost : times ≤ most) :
    Apart keyFrom keyTo least most key times ↔
      (withinBounds (keyFrom.map (· ++ least)) (keyTo.map (· ++ most)) (key ++ times) = true ↔
        inKeys keyFrom keyTo key = true) := by
  have hlow := misleadsFrom_iff keyFrom key hleast
  have hhigh := misleadsTo_iff keyTo key hmost
  have hkeys : inKeys keyFrom keyTo key = (inKeys keyFrom none key && inKeys none keyTo key) := by
    simp [inKeys]
  rw [withinBounds, hkeys, Bool.and_eq_true, Bool.and_eq_true]
  constructor
  · rintro ⟨hinside, hbelow, habove, houtside⟩
    grind
  · intro h
    constructor <;> grind

/-- Keys of which none is a proper prefix of another are told apart. -/
theorem Apart.of_unrelated (hfrom : ∀ bound ∈ keyFrom, bound <+: key ∨ key <+: bound → bound = key)
    (hto : ∀ bound ∈ keyTo, bound <+: key ∨ key <+: bound → bound = key) :
    Apart keyFrom keyTo least most key times := by
  have hlow : ¬ MisleadsFrom keyFrom least key times := by
    rintro ⟨bound, hbound, rest, hne, ⟨rfl, -⟩ | ⟨rfl, -⟩⟩
    · exact hne (by simpa using hfrom bound hbound (.inl (prefix_append _ _)))
    · exact hne (by simpa using hfrom _ hbound (.inr (prefix_append _ _)))
  have hhigh : ¬ MisleadsTo keyTo most key times := by
    rintro ⟨bound, hbound, rest, hne, ⟨rfl, -⟩ | ⟨rfl, -⟩⟩
    · exact hne (by simpa using hto _ hbound (.inr (prefix_append _ _)))
    · exact hne (by simpa using hto bound hbound (.inl (prefix_append _ _)))
  exact ⟨fun _ _ => ⟨hlow, hhigh⟩, fun _ _ h => absurd h hlow, fun _ _ h => absurd h hhigh,
    fun _ _ h => absurd h hlow⟩

theorem inKeys_self (key userKey : Bytes) :
    inKeys (some key) (some key) userKey = decide (userKey = key) := by
  rw [Bool.eq_iff_iff]
  simp only [inKeys, Option.all_some, Bool.and_eq_true, decide_eq_true_eq]
  exact ⟨fun h => le_antisymm h.2 h.1, fun h => ⟨h.ge, h.le⟩⟩

namespace WindowStore

/-- A record as it was put. -/
structure Put where
  key : Bytes
  timestamp : ℤ
  seqnum : ℕ
  value : Value

namespace Put

/-- The record of the engine. -/
def stored (segmentIntervalMs : ℤ) (p : Put) : Record :=
  (WindowKeys.storeKey p.key p.timestamp p.seqnum segmentIntervalMs, p.value)

/-- The window the record opens, with its value. -/
def window (windowSizeMs : ℤ) (p : Put) : Windowed × Value :=
  (⟨p.key, p.timestamp, p.timestamp + windowSizeMs⟩, p.value)

/-- Whether a query asks for the record. -/
def asked (keys : Bytes → Bool) (timeFrom timeTo : ℤ) (p : Put) : Bool :=
  keys p.key && timeFrom ≤ p.timestamp && p.timestamp ≤ timeTo

/-- A query's bounds do not mislead about the record. -/
def Apart (keyFrom keyTo : Option Bytes) (timeFrom timeTo : ℤ) (p : Put) : Prop :=
  Streams.Apart keyFrom keyTo (WindowKeys.times (max timeFrom 0) 0) (WindowKeys.times timeTo intMax)
    p.key (WindowKeys.times p.timestamp p.seqnum)

end Put

/-- The engine holds exactly these puts in key order, covered by the live band. Windows have a
length. -/
structure Holds (s : WindowStore) (puts : List Put) : Prop where
  interval : 1 ≤ s.segmentIntervalMs
  size : 1 ≤ s.windowSizeMs ∧ s.windowSizeMs ≤ longMax
  entries : s.db.entries = puts.map (Put.stored s.segmentIntervalMs)
  live : ∀ p ∈ puts, IsTime p.timestamp ∧ p.seqnum ≤ intMax ∧
    s.truncatedThrough ≤ segmentId p.timestamp s.segmentIntervalMs ∧
    p.timestamp ≤ s.observedStreamTime

variable {s : WindowStore} {puts : List Put} {timeFrom timeTo : ℤ}

theorem Holds.covered (h : s.Holds puts) : s.Covered (WindowKeys.form (· ≤ intMax)) := by
  refine ⟨h.interval, fun e he => ?_⟩
  rw [h.entries] at he
  obtain ⟨p, hp, rfl⟩ := mem_map.1 he
  obtain ⟨htime, hseqnum, hkept, hobserved⟩ := h.live p hp
  exact ⟨p.timestamp, ⟨_, ⟨htime, p.key, p.seqnum, hseqnum, rfl⟩, rfl⟩, hkept, hobserved⟩

theorem Steady.exists_holds (h : s.Steady) (hsize : 1 ≤ s.windowSizeMs ∧ s.windowSizeMs ≤ longMax) :
    ∃ puts, s.Holds puts := by
  have hstored : ∀ e ∈ s.db.entries, ∃ p : Put, p.stored s.segmentIntervalMs = e ∧
      IsTime p.timestamp ∧ p.seqnum ≤ intMax ∧
      s.truncatedThrough ≤ segmentId p.timestamp s.segmentIntervalMs ∧
      p.timestamp ≤ s.observedStreamTime := by
    intro e he
    obtain ⟨time, ⟨bytes, ⟨htime, key, seqnum, hseqnum, rfl⟩, hkey⟩, hkept, hobserved⟩ := h.live e he
    exact ⟨⟨key, time, seqnum, e.2⟩, Prod.ext hkey.symm rfl, htime, hseqnum, hkept, hobserved⟩
  obtain ⟨puts, hputs, hlive⟩ := Scan.exists_map_eq hstored
  exact ⟨puts, h.interval, hsize, hputs.symm, hlive⟩

theorem Holds.read (h : s.Holds puts) {p : Put} (hp : p ∈ puts) :
    WindowKeys.timestampOf (p.stored s.segmentIntervalMs).1 = p.timestamp ∧
      WindowKeys.userKeyOf (p.stored s.segmentIntervalMs).1 = p.key ∧
      (p.stored s.segmentIntervalMs).1.drop 8 =
        p.key ++ WindowKeys.times p.timestamp p.seqnum :=
  ⟨WindowKeys.timestampOf_storeKey (h.live p hp).1.isLong .., WindowKeys.userKeyOf_storeKey ..,
    drop_segmentPrefix _ _⟩

/-- A record with the times asked for is taken in exactly if its key is told apart or asked for. -/
theorem Holds.apart_iff (h : s.Holds puts) {p : Put} (hp : p ∈ puts) (hto : IsLong timeTo)
    (hfrom : timeFrom ≤ p.timestamp) (hle : p.timestamp ≤ timeTo) (keyFrom keyTo : Option Bytes) :
    p.Apart keyFrom keyTo timeFrom timeTo ↔
      (withinBounds (lowerBound keyFrom timeFrom) (upperBound keyTo timeTo)
        (p.key ++ WindowKeys.times p.timestamp p.seqnum) = true ↔
          inKeys keyFrom keyTo p.key = true) := by
  obtain ⟨htime, hseqnum, -⟩ := h.live p hp
  obtain ⟨hnonneg, hmax⟩ := htime
  exact Streams.apart_iff _ _ _
    (WindowKeys.times_le_times ⟨le_max_right _ _, by omega⟩ (h.live p hp).1 (putInt_zero_le hseqnum)
      (by omega))
    (WindowKeys.times_le_times (h.live p hp).1 ⟨by omega, hto.2⟩ (putInt_le_intMax hseqnum) hle)

/-- The puts a scan finds. -/
def found (keyFrom keyTo : Option Bytes) (timeFrom timeTo : ℤ) (p : Put) : Bool :=
  withinBounds (lowerBound keyFrom timeFrom) (upperBound keyTo timeTo)
    (p.key ++ WindowKeys.times p.timestamp p.seqnum) &&
  (timeFrom ≤ p.timestamp && p.timestamp ≤ timeTo)

theorem Holds.keyScan (h : s.Holds puts) (keyFrom keyTo : Option Bytes) (timeFrom timeTo : ℤ) :
    s.keyScan keyFrom keyTo timeFrom timeTo true =
      if s.lastLiveSegment timeTo < longMax then
        some ((puts.filter (found keyFrom keyTo timeFrom timeTo)).map
          (Put.stored s.segmentIntervalMs))
      else none := by
  have hfilter : s.db.entries.filter (fun e =>
        withinBounds (lowerBound keyFrom timeFrom) (upperBound keyTo timeTo) (e.1.drop 8) &&
          keeps timeFrom timeTo e.1) =
      (puts.filter (found keyFrom keyTo timeFrom timeTo)).map
        (Put.stored s.segmentIntervalMs) := by
    rw [h.entries, filter_map]
    refine congrArg (List.map _) (filter_congr fun p hp => ?_)
    obtain ⟨htime, -, hdrop⟩ := h.read hp
    simp only [Function.comp_apply, hdrop, keeps, htime, found]
  rw [keyScan_of_covered h.covered, hfilter]

theorem Holds.found_eq_iff (h : s.Holds puts) {p : Put} (hp : p ∈ puts) (hto : IsLong timeTo)
    (keyFrom keyTo : Option Bytes) :
    found keyFrom keyTo timeFrom timeTo p = p.asked (inKeys keyFrom keyTo) timeFrom timeTo ↔
      (timeFrom ≤ p.timestamp → p.timestamp ≤ timeTo → p.Apart keyFrom keyTo timeFrom timeTo) := by
  by_cases htimes : timeFrom ≤ p.timestamp ∧ p.timestamp ≤ timeTo
  · have hapart := h.apart_iff hp hto htimes.1 htimes.2 keyFrom keyTo
    simp only [found, Put.asked, htimes.1, htimes.2, hapart, decide_true, Bool.and_true,
      forall_const]
    exact Bool.eq_iff_iff
  · refine iff_of_true ?_ fun hfrom hle => absurd ⟨hfrom, hle⟩ htimes
    rw [not_and_or] at htimes
    rcases htimes with hnot | hnot <;> simp [found, Put.asked, hnot]

theorem fetch_eq_iff (h : s.Holds puts) (key : Bytes) (timeFrom : ℤ) (hto : IsLong timeTo) :
    s.fetch key timeFrom timeTo =
        some ((puts.filter (Put.asked (fun k => k = key) timeFrom timeTo)).map
          fun p => (p.timestamp, p.value)) ↔
      s.lastLiveSegment timeTo < longMax ∧ ∀ p ∈ puts, timeFrom ≤ p.timestamp →
        p.timestamp ≤ timeTo → p.Apart (some key) (some key) timeFrom timeTo := by
  have hkeys : (fun k : Bytes => decide (k = key)) = inKeys (some key) (some key) :=
    funext fun k => (inKeys_self key k).symm
  rw [fetch, h.keyScan, hkeys]
  split_ifs with hlast
  · have hrender : ∀ p ∈ puts.filter (found (some key) (some key) timeFrom timeTo),
        (timestamped ∘ Put.stored s.segmentIntervalMs) p = (p.timestamp, p.value) := by
      intro p hp
      rw [Function.comp_apply, timestamped, (h.read (mem_filter.1 hp).1).1, Put.stored]
    simp only [Option.map_some, Option.some.injEq, hlast, true_and, map_map]
    rw [map_congr_left hrender, eq_comm]
    -- nothing of the key itself is missed, so the lists agree once nothing else is found
    have hself : ∀ p ∈ puts, p.asked (inKeys (some key) (some key)) timeFrom timeTo = true →
        found (some key) (some key) timeFrom timeTo p = true := by
      intro p hp hasked
      rw [Put.asked, inKeys_self, Bool.and_assoc, Bool.and_eq_true, decide_eq_true_eq] at hasked
      have hunrelated : p.Apart (some key) (some key) timeFrom timeTo :=
        Streams.Apart.of_unrelated (by simp [hasked.1]) (by simp [hasked.1])
      rw [(h.found_eq_iff hp hto _ _).2 fun _ _ => hunrelated, Put.asked, inKeys_self, Bool.and_assoc]
      simp [hasked]
    rw [Scan.map_filter_eq_iff_of_imp _ hself]
    refine forall₂_congr fun p hp => ?_
    rw [← h.found_eq_iff hp hto]
    exact ⟨fun himp => Bool.eq_iff_iff.2 ⟨himp, hself p hp⟩, fun heq hfound => heq ▸ hfound⟩
  · simp [hlast]

theorem Holds.windowed (h : s.Holds puts) {p : Put} (hp : p ∈ puts) :
    s.windowed (p.stored s.segmentIntervalMs) =
      if p.timestamp + s.windowSizeMs ≤ longMax then some (p.window s.windowSizeMs) else none := by
  obtain ⟨htime, hkey, -⟩ := h.read hp
  have hstart := (h.live p hp).1
  obtain ⟨hpositive, hlong⟩ := h.size
  have hstored : (p.stored s.segmentIntervalMs).2 = p.value := rfl
  simp only [WindowStore.windowed, htime, hkey, hstored, Put.window]
  by_cases hend : p.timestamp + s.windowSizeMs ≤ longMax
  · have hlow := hstart.1
    rw [toLong_of_isLong ⟨by omega, hend⟩, if_pos ⟨hlow, by omega⟩, if_pos hend]
  · have hneg := toLong_add_neg hstart ⟨by omega, hlong⟩ (not_le.1 hend)
    rw [if_neg hend, if_neg]
    rintro ⟨hlow, hlt⟩
    omega

theorem fetchRange_eq_iff (h : s.Holds puts) (keyFrom keyTo : Option Bytes) (timeFrom : ℤ)
    (hto : IsLong timeTo) :
    s.fetchRange keyFrom keyTo timeFrom timeTo =
        some ((puts.filter (Put.asked (inKeys keyFrom keyTo) timeFrom timeTo)).map
          (Put.window s.windowSizeMs)) ↔
      s.lastLiveSegment timeTo < longMax ∧ ∀ p ∈ puts, timeFrom ≤ p.timestamp →
        p.timestamp ≤ timeTo → p.Apart keyFrom keyTo timeFrom timeTo ∧
          (inKeys keyFrom keyTo p.key = true → p.timestamp + s.windowSizeMs ≤ longMax) := by
  rw [fetchRange, h.keyScan]
  split_ifs with hlast
  · simp only [Option.bind_some, hlast, true_and]
    rw [mapM_map, Scan.mapM_filter_eq_iff]
    · refine forall₂_congr fun p hp => ?_
      rw [h.found_eq_iff hp hto, Function.comp_apply, h.windowed hp]
      constructor
      · rintro ⟨hapart, hsome⟩ hfrom hle
        refine ⟨hapart hfrom hle, fun hkey => ?_⟩
        by_contra hlong
        simpa [hlong] using hsome (by simp [Put.asked, hkey, hfrom, hle])
      · intro hall
        refine ⟨fun hfrom hle => (hall hfrom hle).1, fun hasked => ?_⟩
        simp only [Put.asked, Bool.and_eq_true, decide_eq_true_eq] at hasked
        rw [if_pos ((hall hasked.1.2 hasked.2).2 hasked.1.1)]
    · intro p hp y hy
      rw [Function.comp_apply, h.windowed hp] at hy
      split_ifs at hy
      exact (Option.some.inj hy).symm
    · intro p _ q _ hpq hp
      have hkey : p.key = q.key := congrArg (fun r => r.1.key) hpq
      have htime : p.timestamp = q.timestamp := congrArg (fun r => r.1.startTime) hpq
      rwa [Put.asked, ← hkey, ← htime]
  · simp [hlast]

end WindowStore

namespace SessionStore

/-- Whether a query asks for the session. -/
def asked (keys : Bytes → Bool) (earliestEnd latestStart : ℤ) (p : Windowed × Value) : Bool :=
  keys p.1.key && earliestEnd ≤ p.1.endTime && p.1.startTime ≤ latestStart

/-- A query's bounds do not mislead about the session. -/
def SessionApart (keyFrom keyTo : Bytes) (session : Windowed) : Prop :=
  Apart (some keyFrom) (some keyTo) (SessionKeys.times 0 0) (SessionKeys.times longMax longMax)
    session.key (SessionKeys.times session.endTime session.startTime)

/-- The engine holds exactly these sessions in key order, covered by the live band. None ends before
it starts. -/
structure Holds (s : SessionStore) (sessions : List (Windowed × Value)) : Prop where
  interval : 1 ≤ s.segmentIntervalMs
  entries : s.db.entries = sessions.map fun p => (s.storeKey p.1, p.2)
  live : ∀ p ∈ sessions, IsTime p.1.startTime ∧ IsTime p.1.endTime ∧
    p.1.startTime ≤ p.1.endTime ∧
    s.truncatedThrough ≤ segmentId p.1.endTime s.segmentIntervalMs ∧
    p.1.endTime ≤ s.observedStreamTime

variable {s : SessionStore} {sessions : List (Windowed × Value)}

theorem Holds.covered (h : s.Holds sessions) : s.Covered (SessionKeys.form IsTime) := by
  refine ⟨h.interval, fun e he => ?_⟩
  rw [h.entries] at he
  obtain ⟨p, hp, rfl⟩ := mem_map.1 he
  obtain ⟨hstart, hend, -, hkept, hobserved⟩ := h.live p hp
  exact ⟨p.1.endTime, isStoreKey_storeKey hend hstart, hkept, hobserved⟩

theorem Steady.exists_holds (h : s.Steady) (hordered : ∀ e ∈ s.db.entries,
      SessionKeys.startOf e.1 ≤ SessionKeys.endOf e.1) : ∃ sessions, s.Holds sessions := by
  have hstored : ∀ e ∈ s.db.entries, ∃ p : Windowed × Value, (s.storeKey p.1, p.2) = e ∧
      IsTime p.1.startTime ∧ IsTime p.1.endTime ∧ p.1.startTime ≤ p.1.endTime ∧
      s.truncatedThrough ≤ segmentId p.1.endTime s.segmentIntervalMs ∧
      p.1.endTime ≤ s.observedStreamTime := by
    intro e he
    obtain ⟨time, ⟨bytes, ⟨htime, key, start, hstart, rfl⟩, hkey⟩, hkept, hobserved⟩ := h.live e he
    have hkey' : e.1 = SessionKeys.storeKey key start time s.segmentIntervalMs := hkey
    have hle := hordered e he
    rw [hkey', SessionKeys.startOf_storeKey hstart.isLong,
      SessionKeys.endOf_storeKey htime.isLong] at hle
    exact ⟨(⟨key, start, time⟩, e.2), Prod.ext hkey.symm rfl, hstart, htime, hle, hkept, hobserved⟩
  obtain ⟨sessions, hsessions, hlive⟩ := Scan.exists_map_eq hstored
  exact ⟨sessions, h.interval, hsessions.symm, hlive⟩

theorem Holds.read (h : s.Holds sessions) {p : Windowed × Value} (hp : p ∈ sessions) :
    SessionKeys.userKeyOf (s.storeKey p.1) = p.1.key ∧
      SessionKeys.startOf (s.storeKey p.1) = p.1.startTime ∧
      SessionKeys.endOf (s.storeKey p.1) = p.1.endTime ∧
      (s.storeKey p.1).drop 8 = loggedKey p.1 :=
  ⟨SessionKeys.userKeyOf_storeKey .., SessionKeys.startOf_storeKey (h.live p hp).1.isLong ..,
    SessionKeys.endOf_storeKey (h.live p hp).2.1.isLong .., drop_segmentPrefix _ _⟩

/-- The sessions a scan finds. -/
def found (keyFrom keyTo : Bytes) (earliestEnd latestStart : ℤ) (p : Windowed × Value) : Bool :=
  withinBounds (lowerBound (some (keyFrom, keyTo))) (upperBound (some (keyFrom, keyTo)))
    (loggedKey p.1) && (earliestEnd ≤ p.1.endTime && p.1.startTime ≤ latestStart)

theorem Holds.findSessionsRange (h : s.Holds sessions) (keyFrom keyTo : Bytes)
    (earliestEnd latestStart : ℤ) :
    s.findSessionsRange keyFrom keyTo earliestEnd latestStart =
      if s.lastLiveSegment < longMax then
        some (sessions.filter (found keyFrom keyTo earliestEnd latestStart))
      else none := by
  have hfilter : s.db.entries.filter (fun e =>
        withinBounds (lowerBound (some (keyFrom, keyTo))) (upperBound (some (keyFrom, keyTo)))
          (e.1.drop 8) && keeps earliestEnd latestStart e.1) =
      (sessions.filter (found keyFrom keyTo earliestEnd latestStart)).map
        fun p => (s.storeKey p.1, p.2) := by
    rw [h.entries, filter_map]
    refine congrArg (List.map _) (filter_congr fun p hp => ?_)
    obtain ⟨-, hstart, hend, hdrop⟩ := h.read hp
    simp only [Function.comp_apply, hdrop, keeps, hstart, hend, found]
  have hrender : ∀ p ∈ sessions.filter (found keyFrom keyTo earliestEnd latestStart),
      (windowed ∘ fun p => (s.storeKey p.1, p.2)) p = id p := by
    intro p hp
    obtain ⟨hkey, hstart, hend, -⟩ := h.read (mem_filter.1 hp).1
    rw [Function.comp_apply, windowed, hkey, hstart, hend, id]
  rw [SessionStore.findSessionsRange, keyScan_of_covered h.covered, hfilter]
  split_ifs
  · rw [Option.map_some, map_map, map_congr_left hrender, map_id]
  · rfl

theorem findSessionsRange_eq_iff (h : s.Holds sessions) (keyFrom keyTo : Bytes)
    (earliestEnd latestStart : ℤ) :
    s.findSessionsRange keyFrom keyTo earliestEnd latestStart =
        some (sessions.filter (asked (inKeys (some keyFrom) (some keyTo)) earliestEnd latestStart)) ↔
      s.lastLiveSegment < longMax ∧ ∀ p ∈ sessions, earliestEnd ≤ p.1.endTime →
        p.1.startTime ≤ latestStart → SessionApart keyFrom keyTo p.1 := by
  have hzero : IsTime 0 := ⟨le_rfl, by decide⟩
  have hmax : IsTime longMax := ⟨by decide, le_rfl⟩
  rw [h.findSessionsRange]
  split_ifs with hlast
  · have hsame := Scan.map_filter_eq_iff (l := sessions) (q := asked (inKeys (some keyFrom)
      (some keyTo)) earliestEnd latestStart) (p := found keyFrom keyTo earliestEnd latestStart) id
      fun p _ q _ hpq hp => (show p = q from hpq) ▸ hp
    rw [map_id, map_id] at hsame
    simp only [Option.some.injEq, hlast, true_and, hsame]
    refine forall₂_congr fun p hp => ?_
    obtain ⟨hstart, hend, -⟩ := h.live p hp
    have hapart := apart_iff (some keyFrom) (some keyTo) p.1.key
      (SessionKeys.times_le_times hzero hend hzero hstart hend.1 hstart.1)
      (SessionKeys.times_le_times hend hmax hstart hmax hend.2 hstart.2)
    by_cases htimes : earliestEnd ≤ p.1.endTime ∧ p.1.startTime ≤ latestStart
    · simp only [found, asked, htimes.1, htimes.2, SessionApart, hapart, decide_true, Bool.and_true,
        forall_const]
      exact Bool.eq_iff_iff
    · refine iff_of_true ?_ fun hfrom hle => absurd ⟨hfrom, hle⟩ htimes
      rw [not_and_or] at htimes
      rcases htimes with hnot | hnot <;> simp [found, asked, hnot]
  · simp [hlast]

end SessionStore

/-- Exactly the puts asked for are yielded iff the segment loop ends, the bounds mislead about no
put of those times, and no window asked for ends past the last `long`. -/
theorem fetches_exactly_iff {w : WindowStore} {puts : List WindowStore.Put} (hw : w.Holds puts)
    {s : SessionStore} {sessions : List (Windowed × Value)} (hs : s.Holds sessions) :
    (∀ key timeFrom timeTo, IsLong timeTo →
      (w.fetch key timeFrom timeTo =
          some ((puts.filter (WindowStore.Put.asked (fun k => k = key) timeFrom timeTo)).map
            fun p => (p.timestamp, p.value)) ↔
        w.lastLiveSegment timeTo < longMax ∧ ∀ p ∈ puts, timeFrom ≤ p.timestamp →
          p.timestamp ≤ timeTo → p.Apart (some key) (some key) timeFrom timeTo) ∧
      w.backwardFetch key timeFrom timeTo = (w.fetch key timeFrom timeTo).map List.reverse) ∧
    (∀ keyFrom keyTo timeFrom timeTo, IsLong timeTo →
      (w.fetchRange keyFrom keyTo timeFrom timeTo =
          some ((puts.filter (WindowStore.Put.asked (inKeys keyFrom keyTo) timeFrom timeTo)).map
            (WindowStore.Put.window w.windowSizeMs)) ↔
        w.lastLiveSegment timeTo < longMax ∧ ∀ p ∈ puts, timeFrom ≤ p.timestamp →
          p.timestamp ≤ timeTo → p.Apart keyFrom keyTo timeFrom timeTo ∧
            (inKeys keyFrom keyTo p.key = true → p.timestamp + w.windowSizeMs ≤ longMax)) ∧
      w.backwardFetchRange keyFrom keyTo timeFrom timeTo =
        (w.fetchRange keyFrom keyTo timeFrom timeTo).map List.reverse) ∧
    (∀ key earliestEnd latestStart,
      (s.findSessions key earliestEnd latestStart =
          some (sessions.filter
            (SessionStore.asked (fun k => k = key) earliestEnd latestStart)) ↔
        s.lastLiveSegment < longMax ∧ ∀ p ∈ sessions, earliestEnd ≤ p.1.endTime →
          p.1.startTime ≤ latestStart → SessionStore.SessionApart key key p.1) ∧
      s.backwardFindSessions key earliestEnd latestStart =
        (s.findSessions key earliestEnd latestStart).map List.reverse) ∧
    (∀ keyFrom keyTo earliestEnd latestStart,
      (s.findSessionsRange keyFrom keyTo earliestEnd latestStart =
          some (sessions.filter
            (SessionStore.asked (inKeys (some keyFrom) (some keyTo)) earliestEnd latestStart)) ↔
        s.lastLiveSegment < longMax ∧ ∀ p ∈ sessions, earliestEnd ≤ p.1.endTime →
          p.1.startTime ≤ latestStart → SessionStore.SessionApart keyFrom keyTo p.1) ∧
      s.backwardFindSessionsRange keyFrom keyTo earliestEnd latestStart =
        (s.findSessionsRange keyFrom keyTo earliestEnd latestStart).map List.reverse) := by
  refine ⟨fun key timeFrom timeTo hto => ⟨WindowStore.fetch_eq_iff hw key timeFrom hto, ?_⟩,
    fun keyFrom keyTo timeFrom timeTo hto =>
      ⟨WindowStore.fetchRange_eq_iff hw keyFrom keyTo timeFrom hto, ?_⟩,
    fun key earliestEnd latestStart => ⟨?_, ?_⟩,
    fun keyFrom keyTo earliestEnd latestStart =>
      ⟨SessionStore.findSessionsRange_eq_iff hs keyFrom keyTo earliestEnd latestStart, ?_⟩⟩
  · simp [WindowStore.backwardFetch, WindowStore.fetch, WindowStore.keyScan_backward,
      Option.map_map, Function.comp_def]
  · rw [WindowStore.backwardFetchRange, WindowStore.fetchRange, WindowStore.keyScan_backward]
    cases w.keyScan keyFrom keyTo timeFrom timeTo true with
    | none => rfl
    | some found => exact Scan.mapM_reverse w.windowed found
  · have hkeys : (fun userKey => decide (userKey = key)) = inKeys (some key) (some key) :=
      funext fun userKey => (inKeys_self key userKey).symm
    rw [hkeys]
    exact SessionStore.findSessionsRange_eq_iff hs key key earliestEnd latestStart
  · simp [SessionStore.backwardFindSessions, SessionStore.findSessions,
      SessionStore.backwardFindSessionsRange, SessionStore.findSessionsRange,
      SessionStore.keyScan_backward, Option.map_map, Function.comp_def]
  · simp [SessionStore.backwardFindSessionsRange, SessionStore.findSessionsRange,
      SessionStore.keyScan_backward, Option.map_map, Function.comp_def]

/-! ### Two keys -/

/-- A window store after two puts. -/
def windowPair (first second : Bytes) : WindowStore :=
  (((WindowStore.empty 1000 500 10 false).put first (some [1]) 6).2.put second (some [2]) 7).2

/-- A session store after two puts. -/
def sessionPair (first second : Bytes) : SessionStore :=
  (((SessionStore.empty 1000 500).put ⟨first, 0, 10⟩ (some [1])).2.put ⟨second, 0, 10⟩ (some [2])).2

theorem fetches_exactly_pair :
    (windowPair [1] [2]).Holds [⟨[1], 6, 0, [1]⟩, ⟨[2], 7, 0, [2]⟩] ∧
      (windowPair [1] [2]).fetch [1] 0 10 = some [(6, [1])] ∧
      (windowPair [1] [2]).fetchRange (some [1]) none 0 10 =
        some [(⟨[1], 6, 16⟩, [1]), (⟨[2], 7, 17⟩, [2])] ∧
      (sessionPair [1] [2]).Holds [(⟨[1], 0, 10⟩, [1]), (⟨[2], 0, 10⟩, [2])] ∧
      (sessionPair [1] [2]).fetch [2] = some [(⟨[2], 0, 10⟩, [2])] := by
  have hw : (windowPair [1] [2]).Holds [⟨[1], 6, 0, [1]⟩, ⟨[2], 7, 0, [2]⟩] := by
    refine ⟨by decide +kernel, by decide +kernel, by decide +kernel, ?_⟩
    unfold IsTime
    decide +kernel
  have hs : (sessionPair [1] [2]).Holds [(⟨[1], 0, 10⟩, [1]), (⟨[2], 0, 10⟩, [2])] := by
    refine ⟨by decide +kernel, by decide +kernel, ?_⟩
    unfold IsTime
    decide +kernel
  obtain ⟨hfetch, hrange, hfind, -⟩ := fetches_exactly_iff hw hs
  have hto : IsLong 10 := ⟨by decide, by decide⟩
  refine ⟨hw, ((hfetch [1] 0 10 hto).1.2 ⟨by decide +kernel, ?_⟩).trans (by decide +kernel),
    ((hrange (some [1]) none 0 10 hto).1.2 ⟨by decide +kernel, ?_⟩).trans (by decide +kernel), hs,
    ((hfind [2] 0 longMax).1.2 ⟨by decide +kernel, ?_⟩).trans (by decide +kernel)⟩
  · intro p hp _ _
    refine .of_unrelated ?_ ?_ <;> revert p <;> decide
  · intro p hp _ _
    refine ⟨.of_unrelated ?_ ?_, ?_⟩ <;> revert p <;> decide
  · intro p hp _ _
    refine .of_unrelated ?_ ?_ <;> revert p <;> decide

/-- A fetch also yields records of a longer key, and one of a range misses a key in it. -/
theorem fetch_confuses_prefixed_keys :
    let longer : Bytes := [1, 0, 0, 0, 0, 0, 0, 0, 0]
    (windowPair [1] longer).Holds [⟨longer, 7, 0, [2]⟩, ⟨[1], 6, 0, [1]⟩] ∧
    (sessionPair [97] [97, 98]).Holds [(⟨[97], 0, 10⟩, [1]), (⟨[97, 98], 0, 10⟩, [2])] ∧
    (sessionPair [97] [97, 98]).fetch [97] =
      some [(⟨[97], 0, 10⟩, [1]), (⟨[97, 98], 0, 10⟩, [2])] ∧
    (windowPair [1] longer).fetch [1] 0 10 = some [(7, [2]), (6, [1])] ∧
    (windowPair [1] longer).fetchRange (some [1]) (some [2]) 5 10 =
      some [(⟨[1], 6, 16⟩, [1])] := by
  refine ⟨⟨by decide +kernel, by decide +kernel, by decide +kernel, ?_⟩,
    ⟨by decide +kernel, by decide +kernel, ?_⟩, by decide +kernel⟩
  all_goals
    unfold IsTime
    decide +kernel

end ElysiumKV.Streams
