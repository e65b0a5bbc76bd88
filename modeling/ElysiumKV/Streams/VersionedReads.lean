import ElysiumKV.Streams.VersionedTimeline

/-!
# Reads of the versioned store

A lookup in history takes the first record of the key from the asked-for time down: wrong at the
retention or later if the version in force is superseded and in a truncated segment, and at a
negative time, whose bytes are large.
-/

namespace ElysiumKV.Streams

open ByteOrder VersionedKeys Timeline List

namespace VersionedStore

variable {s : VersionedStore} {cut : ℤ} {log : List Revision}

namespace Tracks

/-! ### Reads -/

theorem get_eq (h : Tracks cut s log) (key : Bytes) :
    s.get key = (newest (writesOf key log)).bind rendered := by
  rw [get, h.latest]
  cases newest (writesOf key log) with
  | none => rfl
  | some n => exact toTimestampedFormat_encodeValue n.2 n.1

/-- The record a lookup in history finds. -/
def search (s : VersionedStore) (key : Bytes) (asOf : ℤ) : Option Record :=
  (s.segmentsDown asOf).findSome? fun segment =>
    (s.db.reverseIterator (some (historyLowerBound key segment 0))
      (some (exclusive (historyUpperBound key segment asOf)))).find? fun e =>
        isHistoryEntryFor e.1 key

theorem getAsOf_eq_search (h : Tracks cut s log) (key : Bytes) (asOf : ℤ) :
    s.getAsOf key asOf =
      match newest (writesOf key log) with
      | some n => if n.1 ≤ asOf then rendered n
          else (search s key asOf).bind fun e => toTimestampedFormat e.2
      | none => (search s key asOf).bind fun e => toTimestampedFormat e.2 := by
  unfold getAsOf search
  simp only [h.latest]
  cases hn : newest (writesOf key log) with
  | none => simp
  | some n =>
    simp only [Option.map_some, Option.any_some, Option.bind_some, decide_eq_true_eq,
      timestampOfValue_encodeValue (h.isTime_of_newest hn).1.isLong,
      toTimestampedFormat_encodeValue]

/-- The same segments, ascending. -/
def segmentsUp (s : VersionedStore) (asOf : ℤ) : List ℤ := (s.segmentsDown asOf).reverse

theorem mem_segmentsUp (s : VersionedStore) (asOf g : ℤ) :
    g ∈ segmentsUp s asOf ↔
      s.firstLiveSegment ≤ g ∧ g ≤ min (s.segmentOf asOf) s.lastLiveSegment := by
  simp only [segmentsUp, segmentsDown, mem_reverse, mem_map, mem_range]
  constructor
  · rintro ⟨i, hi, rfl⟩
    omega
  · rintro ⟨hfirst, hlast⟩
    exact ⟨(min (s.segmentOf asOf) s.lastLiveSegment - g).toNat, by omega, by omega⟩

theorem ascending_segmentsUp (s : VersionedStore) (asOf : ℤ) :
    (segmentsUp s asOf).Pairwise (· < ·) := by
  refine pairwise_reverse.2 (List.Pairwise.map _ (fun i j hij => ?_) pairwise_lt_range)
  omega

variable {key : Bytes} {asOf : ℤ}

theorem inRange_iff (h : Tracks cut s log) {g : ℤ} (hasOf : IsTime asOf) (hg : IsTime g)
    {e : Record} (he : e ∈ s.db.entries) :
    (Engine.inRange (some (historyLowerBound key g 0))
        (some (exclusive (historyUpperBound key g asOf))) e.1 && isHistoryEntryFor e.1 key) = true ↔
      ∃ t, IsTime t ∧ e.1 = historyKey key t s.segmentIntervalMs ∧
        g = segmentId t s.segmentIntervalMs ∧ t ≤ asOf := by
  have hzero : IsTime (max 0 0) := ⟨by decide, by decide⟩
  rcases h.shape e he with ⟨key', t, ht, hkey⟩ | ⟨key', hkey⟩ | hkey
  · have hseg := segmentId_isTime h.interval ht
    rw [hkey, Bool.and_eq_true, isHistoryEntryFor_historyKey]
    simp only [Engine.inRange, Option.all_some, Bool.and_eq_true, decide_eq_true_eq, exclusive,
      lt_append_zero_iff, historyLowerBound, historyUpperBound]
    constructor
    · rintro ⟨⟨hlow, hhigh⟩, rfl⟩
      rw [historyKey, historyBound_le hg hseg hzero ht] at hlow
      rw [historyKey, historyBound_le hseg hg ht hasOf] at hhigh
      refine ⟨t, ht, rfl, ?_, ?_⟩
      · rcases hlow with hlow | hlow <;> rcases hhigh with hhigh | hhigh <;> omega
      · rcases hlow with hlow | hlow <;> rcases hhigh with hhigh | hhigh <;> omega
    · rintro ⟨t', ht', heq, rfl, hle⟩
      obtain ⟨rfl, rfl⟩ := historyKey_injOn ht ht' heq
      refine ⟨⟨(historyBound_le hseg hseg hzero ht).2 (.inr ⟨rfl, ?_⟩),
        (historyBound_le hseg hseg ht hasOf).2 (.inr ⟨rfl, hle⟩)⟩, rfl⟩
      exact max_le ht.1 ht.1
  · refine iff_of_false (by simp [hkey, isHistoryEntryFor, latestKey]) ?_
    rintro ⟨t, -, heq, -⟩
    exact historyKey_ne_latestKey key key' t _ (heq.symm.trans hkey)
  · refine iff_of_false (by simp [hkey, isHistoryEntryFor, streamTimeKey]) ?_
    rintro ⟨t, -, heq, -⟩
    exact historyKey_ne_streamTimeKey key t _ (heq.symm.trans hkey)

theorem isTime_of_mem_segmentsUp (h : Tracks cut s log) {g : ℤ} (hg : g ∈ segmentsUp s asOf) :
    IsTime g := by
  obtain ⟨hfirst, hlast⟩ := (mem_segmentsUp s asOf g).1 hg
  refine ⟨le_trans ?_ hfirst, (hlast.trans (min_le_right _ _)).trans h.band.le⟩
  refine le_max_of_le_right ?_
  rw [segmentOf, segmentId_eq (le_max_right _ _)]
  exact Int.ediv_nonneg (le_max_right _ _) (by have := h.interval; omega)

theorem search_eq (h : Tracks cut s log) (key : Bytes) (hasOf : IsTime asOf) :
    search s key asOf = (s.db.entries.filter fun e => (segmentsUp s asOf).any fun g =>
      Engine.inRange (some (historyLowerBound key g 0))
        (some (exclusive (historyUpperBound key g asOf))) e.1 &&
          isHistoryEntryFor e.1 key).getLast? := by
  have hdown : s.segmentsDown asOf = (segmentsUp s asOf).reverse := (reverse_reverse _).symm
  rw [search, ← List.find?_flatMap, hdown]
  simp only [Engine.reverseIterator]
  rw [Scan.flatMap_reverse, ← List.getLast?_filter, filter_flatMap]
  simp only [Engine.iterator, filter_filter]
  rw [← Scan.flatMap_filter_of_ascending s.db.sorted]
  · simp only [Bool.and_comm]
  · -- versions of a later segment are later
    refine (ascending_segmentsUp s asOf).imp_of_mem fun {g g'} hg hg' hlt x hx y hy hpx hpy => ?_
    obtain ⟨t, ht, hkeyx, hgx, -⟩ :=
      (h.inRange_iff hasOf (h.isTime_of_mem_segmentsUp hg) hx).1 hpx
    obtain ⟨t', ht', hkeyy, hgy, -⟩ :=
      (h.inRange_iff hasOf (h.isTime_of_mem_segmentsUp hg') hy).1 hpy
    have hseg := segmentId_isTime h.interval ht
    have hseg' := segmentId_isTime h.interval ht'
    rw [hkeyx, hkeyy, ← not_le, historyKey, historyKey, historyBound_le hseg' hseg ht' ht]
    omega

theorem through_le_firstLiveSegment (s : VersionedStore) :
    s.truncatedThrough ≤ s.firstLiveSegment := le_max_left _ _

variable {t : ℤ}

theorem mem_entries_iff (h : Tracks cut s log) (key : Bytes) (ht : IsTime t)
    (hlive : s.firstLiveSegment ≤ segmentId t s.segmentIntervalMs) (stored : Bytes) :
    (historyKey key t s.segmentIntervalMs, stored) ∈ s.db.entries ↔
      ∃ value, superseded t (writesOf key log) = some value ∧ stored = encodeValue value t := by
  have hhistory := h.history key t ht ((through_le_firstLiveSegment s).trans hlive)
  rw [← valueAt_eq_some_iff s.db.sorted]
  rw [Engine.getCopy] at hhistory
  rw [hhistory, Option.map_eq_some_iff]
  simp only [eq_comm]

variable {value : Option Value}

theorem superseded_eq_some_iff {writes : List (ℤ × Option Value)} :
    superseded t writes = some value ↔
      lastAt t writes = some value ∧ ∃ n, newest writes = some n ∧ t < n.1 := by
  unfold superseded
  cases hn : newest writes with
  | none => simp
  | some n =>
    simp only
    split_ifs with hlt <;> simp [hlt]

/-- A key's records up to a time, in live segments. -/
def Picks (s : VersionedStore) (key : Bytes) (bound : ℤ) (p : Record → Bool) : Prop :=
  ∀ e ∈ s.db.entries, p e = true ↔
    ∃ t, e.1 = historyKey key t s.segmentIntervalMs ∧ IsTime t ∧ t ≤ bound ∧
      s.firstLiveSegment ≤ segmentId t s.segmentIntervalMs

variable {bound : ℤ} {p : Record → Bool}

theorem superseded_of_picks (h : Tracks cut s log) (hp : Picks s key bound p) {e : Record}
    (he : e ∈ s.db.entries) (hpicked : p e = true) :
    ∃ t value n, e = (historyKey key t s.segmentIntervalMs, encodeValue value t) ∧ IsTime t ∧
      t ≤ bound ∧ s.firstLiveSegment ≤ segmentId t s.segmentIntervalMs ∧
      (t, value) ∈ writesOf key log ∧ newest (writesOf key log) = some n ∧ t < n.1 := by
  obtain ⟨t, hkey, ht, hle, hlive⟩ := (hp e he).1 hpicked
  have hmem : (historyKey key t s.segmentIntervalMs, e.2) ∈ s.db.entries := hkey ▸ he
  obtain ⟨value, hsuperseded, hstored⟩ := (h.mem_entries_iff key ht hlive e.2).1 hmem
  obtain ⟨hlast, n, hn, hlt⟩ := superseded_eq_some_iff.1 hsuperseded
  exact ⟨t, value, n, Prod.ext hkey hstored, ht, hle, hlive, exists_of_lastAt hlast, hn, hlt⟩

theorem getLast?_picks (h : Tracks cut s log) (hp : Picks s key bound p) {n : ℤ × Option Value}
    (hn : newest (writesOf key log) = some n)
    (hforce : inForce (min bound (n.1 - 1)) (writesOf key log) = some (t, value))
    (hlive : s.firstLiveSegment ≤ segmentId t s.segmentIntervalMs) :
    (s.db.entries.filter p).getLast? =
      some (historyKey key t s.segmentIntervalMs, encodeValue value t) := by
  obtain ⟨hle, hlast, hmax⟩ := inForce_eq_some_iff.1 hforce
  have ht : IsTime t := (h.times _ (mem_writesOf (exists_of_lastAt hlast))).1
  have hsuperseded := superseded_eq_some_iff.2 ⟨hlast, n, hn, by omega⟩
  have hmem := (h.mem_entries_iff key ht hlive (encodeValue value t)).2 ⟨value, hsuperseded, rfl⟩
  rw [Scan.getLast?_filter_eq_some_iff s.db.sorted]
  refine ⟨⟨hmem, (hp _ hmem).2 ⟨t, rfl, ht, by omega, hlive⟩⟩, fun e he hpicked => ?_⟩
  obtain ⟨t', value', n', rfl, ht', hle', -, hwrite, hn', hlt'⟩ :=
    h.superseded_of_picks hp he hpicked
  obtain rfl : n = n' := Option.some.inj (hn.symm.trans hn')
  have hbefore : t' ≤ t := hmax _ hwrite (le_min hle' (Int.le_sub_one_of_lt hlt'))
  have hseg := segmentId_isTime h.interval ht
  have hseg' := segmentId_isTime h.interval ht'
  have hmono := segmentId_mono h.interval ht'.1 hbefore
  show historyKey key t' s.segmentIntervalMs ≤ historyKey key t s.segmentIntervalMs
  rw [historyKey, historyKey, historyBound_le hseg' hseg ht' ht]
  omega

theorem getLast?_picks_eq_none (h : Tracks cut s log) (hp : Picks s key bound p)
    (hforce : ∀ n t value, newest (writesOf key log) = some n →
      inForce (min bound (n.1 - 1)) (writesOf key log) = some (t, value) →
      segmentId t s.segmentIntervalMs < s.firstLiveSegment) :
    (s.db.entries.filter p).getLast? = none := by
  rw [List.getLast?_eq_none_iff, filter_eq_nil_iff]
  intro e he hpicked
  obtain ⟨t', value', n, -, ht', hle', hlive', hwrite, hn, hlt'⟩ :=
    h.superseded_of_picks hp he hpicked
  have hwithin : t' ≤ min bound (n.1 - 1) := le_min hle' (Int.le_sub_one_of_lt hlt')
  cases hin : inForce (min bound (n.1 - 1)) (writesOf key log) with
  | none => exact inForce_eq_none_iff.1 hin _ hwrite hwithin
  | some w =>
    obtain ⟨t, value⟩ := w
    have hbefore : t' ≤ t := (inForce_eq_some_iff.1 hin).2.2 _ hwrite hwithin
    have hmono := segmentId_mono h.interval ht'.1 hbefore
    have := hforce n t value hn hin
    omega

/-! ### Lookups at a time -/

theorem picks_segmentsUp (h : Tracks cut s log) (key : Bytes) (hasOf : IsTime asOf) :
    Picks s key asOf fun e => (segmentsUp s asOf).any fun g =>
      Engine.inRange (some (historyLowerBound key g 0))
        (some (exclusive (historyUpperBound key g asOf))) e.1 && isHistoryEntryFor e.1 key := by
  intro e he
  rw [any_eq_true]
  constructor
  · rintro ⟨g, hg, hin⟩
    obtain ⟨t, ht, hkey, rfl, hle⟩ :=
      (h.inRange_iff hasOf (h.isTime_of_mem_segmentsUp hg) he).1 hin
    exact ⟨t, hkey, ht, hle, ((mem_segmentsUp s asOf _).1 hg).1⟩
  · rintro ⟨t, hkey, ht, hle, hfirst⟩
    have hentry : (historyKey key t s.segmentIntervalMs, e.2) ∈ s.db.entries := hkey ▸ he
    obtain ⟨value, hsuperseded, -⟩ := (h.mem_entries_iff key ht hfirst e.2).1 hentry
    have hobserved : t ≤ s.observedStreamTime :=
      (h.times _ (mem_writesOf (exists_of_lastAt (superseded_eq_some_iff.1 hsuperseded).1))).2
    have hmem : segmentId t s.segmentIntervalMs ∈ segmentsUp s asOf := by
      refine (mem_segmentsUp s asOf _).2 ⟨hfirst, le_min ?_ ?_⟩
      · exact segmentId_mono h.interval ht.1 (hle.trans (le_max_left _ _))
      · exact segmentId_mono h.interval ht.1 (hobserved.trans (le_max_left _ _))
    exact ⟨_, hmem, (h.inRange_iff hasOf (h.isTime_of_mem_segmentsUp hmem) he).2
      ⟨t, ht, hkey, rfl, hle⟩⟩

theorem search_eq_some (h : Tracks cut s log) (hasOf : IsTime asOf) {n : ℤ × Option Value}
    (hn : newest (writesOf key log) = some n) (hlt : asOf < n.1)
    (hforce : inForce asOf (writesOf key log) = some (t, value))
    (hlive : s.firstLiveSegment ≤ segmentId t s.segmentIntervalMs) :
    search s key asOf = some (historyKey key t s.segmentIntervalMs, encodeValue value t) := by
  rw [h.search_eq key hasOf]
  refine h.getLast?_picks (h.picks_segmentsUp key hasOf) hn ?_ hlive
  rw [min_eq_left (by omega), hforce]

theorem search_eq_none (h : Tracks cut s log) (hasOf : IsTime asOf)
    (hcurrent : ∀ n, newest (writesOf key log) = some n → asOf < n.1)
    (hforce : ∀ t value, inForce asOf (writesOf key log) = some (t, value) →
      segmentId t s.segmentIntervalMs < s.firstLiveSegment) : search s key asOf = none := by
  rw [h.search_eq key hasOf]
  refine h.getLast?_picks_eq_none (h.picks_segmentsUp key hasOf) fun n t value hn hin => ?_
  have hlt := hcurrent n hn
  rw [min_eq_left (by omega)] at hin
  exact hforce t value hin

theorem getAsOf_eq (h : Tracks cut s log) (key : Bytes) (hasOf : IsTime asOf) :
    s.getAsOf key asOf = (inForce asOf (writesOf key log)).bind fun w =>
      if (newest (writesOf key log)).map Prod.fst = some w.1 ∨
          s.firstLiveSegment ≤ segmentId w.1 s.segmentIntervalMs then rendered w else none := by
  rw [h.getAsOf_eq_search]
  cases hn : newest (writesOf key log) with
  | none =>
    have hnone : inForce asOf (writesOf key log) = none := by
      rw [newest_eq_none_iff.1 hn]
      rfl
    rw [hnone]
    simp only
    rw [h.search_eq_none hasOf (fun n hn' => by simp [hn] at hn')
      (fun t value hforce => by simp [hnone] at hforce)]
    rfl
  | some n =>
    simp only
    split_ifs with hnle
    · rw [inForce_of_newest (show newest _ = some (n.1, n.2) from hn) hnle]
      simp
    · have hcurrent : ∀ n', newest (writesOf key log) = some n' → asOf < n'.1 := by
        rintro n' hn'
        obtain rfl := Option.some.inj (hn.symm.trans hn')
        exact not_le.1 hnle
      cases hforce : inForce asOf (writesOf key log) with
      | none =>
        rw [h.search_eq_none hasOf hcurrent fun t value hforce' => by simp [hforce] at hforce']
        rfl
      | some w =>
        obtain ⟨t, value⟩ := w
        have hle := (inForce_eq_some_iff.1 hforce).1
        have hother : (some n).map Prod.fst ≠ some t := by
          rintro heq
          exact hnle ((Option.some.inj heq).trans_le hle)
        rw [Option.bind_some]
        by_cases hlive : s.firstLiveSegment ≤ segmentId t s.segmentIntervalMs
        · rw [if_pos (.inr hlive), h.search_eq_some hasOf hn (not_le.1 hnle) hforce hlive]
          exact toTimestampedFormat_encodeValue value t
        · rw [if_neg (not_or.2 ⟨hother, hlive⟩),
            h.search_eq_none hasOf hcurrent fun t' value' hforce' => by
              obtain ⟨rfl, -⟩ := Prod.mk.inj (Option.some.inj (hforce.symm.trans hforce'))
              exact not_le.1 hlive]
          rfl

theorem firstLiveSegment_eq (h : Tracks s.observedStreamTime s log) :
    s.firstLiveSegment =
      segmentId (max (s.observedStreamTime - s.historyRetentionMs) 0) s.segmentIntervalMs := by
  refine max_eq_right ?_
  rw [h.through, throughOf, segmentOf]
  split_ifs with hcutoff
  · rw [max_eq_right hcutoff.le, segmentId_eq le_rfl, Int.zero_ediv]
    decide
  · rw [max_eq_left (not_lt.1 hcutoff)]

/-- The version in force at the retention is current, a deletion, or in a segment still retained. -/
def Kept (s : VersionedStore) (log : List Revision) : Prop :=
  ∀ key t value, 0 ≤ s.observedStreamTime - s.historyRetentionMs →
    inForce (s.observedStreamTime - s.historyRetentionMs) (writesOf key log) =
      some (t, some value) →
    (newest (writesOf key log)).map Prod.fst = some t ∨
      segmentId (s.observedStreamTime - s.historyRetentionMs) s.segmentIntervalMs ≤
        segmentId t s.segmentIntervalMs

theorem lost_iff (h : Tracks s.observedStreamTime s log)
    (hretained : s.observedStreamTime - s.historyRetentionMs ≤ asOf)
    (hforce : inForce asOf (writesOf key log) = some (t, value))
    (hlost : segmentId t s.segmentIntervalMs < s.firstLiveSegment) :
    0 ≤ s.observedStreamTime - s.historyRetentionMs ∧
      inForce (s.observedStreamTime - s.historyRetentionMs) (writesOf key log) = some (t, value) ∧
      segmentId t s.segmentIntervalMs <
        segmentId (s.observedStreamTime - s.historyRetentionMs) s.segmentIntervalMs := by
  obtain ⟨hle, hlast, hmax⟩ := inForce_eq_some_iff.1 hforce
  have ht : IsTime t := (h.times _ (mem_writesOf (exists_of_lastAt hlast))).1
  rw [h.firstLiveSegment_eq] at hlost
  have hcutoff : 0 ≤ s.observedStreamTime - s.historyRetentionMs := by
    by_contra hneg
    rw [max_eq_right (by omega), segmentId_eq le_rfl, Int.zero_ediv] at hlost
    exact absurd (segmentId_isTime h.interval ht).1 (not_le.2 hlost)
  rw [max_eq_left hcutoff] at hlost
  refine ⟨hcutoff, inForce_eq_some_iff.2 ⟨?_, hlast, fun w hw hwle => hmax w hw (by omega)⟩, hlost⟩
  by_contra hafter
  exact absurd (segmentId_mono h.interval hcutoff (not_le.1 hafter).le) (not_le.2 hlost)

theorem getAsOf_eq_iff (h : Tracks s.observedStreamTime s log) :
    (∀ key asOf, IsTime asOf → s.observedStreamTime - s.historyRetentionMs ≤ asOf →
      s.getAsOf key asOf = (inForce asOf (writesOf key log)).bind rendered) ↔ Kept s log := by
  constructor
  · intro hright key t value hcutoff hforce
    have hclock := h.clock
    have hretention := h.retention
    have htime : IsTime (s.observedStreamTime - s.historyRetentionMs) := ⟨hcutoff, by omega⟩
    have hread := hright key _ htime le_rfl
    rw [h.getAsOf_eq key htime, hforce, h.firstLiveSegment_eq, max_eq_left hcutoff] at hread
    by_contra hlost
    simp [if_neg hlost, rendered] at hread
  · intro hkept key asOf hasOf hretained
    rw [h.getAsOf_eq key hasOf]
    refine Option.bind_congr fun w hforce => ?_
    obtain ⟨t, value⟩ := w
    split_ifs with hfound
    · rfl
    · -- what is superseded and has lost its segment is a deletion
      rw [not_or, not_le] at hfound
      have hlost := h.lost_iff hretained hforce hfound.2
      cases value with
      | none => rfl
      | some x =>
        rcases hkept key t x hlost.1 hlost.2.1 with hcurrent | hsegment
        · exact absurd hcurrent hfound.1
        · exact absurd hsegment (not_le.2 hlost.2.2)

/-! ### Lookups at a negative time -/

/-- The last version superseded in the first segment. -/
def firstSegmentHistory (s : VersionedStore) (log : List Revision) (key : Bytes) :
    Option (ℤ × Option Value) :=
  (newest (writesOf key log)).bind fun n =>
    inForce (min (s.segmentIntervalMs - 1) (n.1 - 1)) (writesOf key log)

theorem picks_of_negative (h : Tracks cut s log) (key : Bytes) (hasOf : IsLong asOf)
    (hneg : asOf < 0) (hfirst : s.firstLiveSegment = 0) :
    Picks s key (s.segmentIntervalMs - 1) fun e =>
      Engine.inRange (some (historyLowerBound key 0 0))
        (some (exclusive (historyUpperBound key 0 asOf))) e.1 && isHistoryEntryFor e.1 key := by
  have hzero : IsTime 0 := ⟨le_rfl, by decide⟩
  have hinterval := h.interval
  intro e he
  simp only [hfirst]
  rcases h.shape e he with ⟨key', t, ht, hkey⟩ | ⟨key', hkey⟩ | hkey
  · have hseg := segmentId_isTime h.interval ht
    have hsegment : segmentId t s.segmentIntervalMs ≤ 0 ↔ t ≤ s.segmentIntervalMs - 1 := by
      rw [segmentId_eq ht.1, ← Int.lt_add_one_iff, Int.ediv_lt_iff_lt_mul (by omega)]
      omega
    rw [hkey, Bool.and_eq_true, isHistoryEntryFor_historyKey]
    simp only [Engine.inRange, Option.all_some, Bool.and_eq_true, decide_eq_true_eq, exclusive,
      lt_append_zero_iff, historyLowerBound, historyUpperBound, max_self]
    constructor
    · rintro ⟨⟨-, hhigh⟩, rfl⟩
      rw [historyKey, historyBound_le_of_negative hseg hzero ht hasOf hneg, hsegment] at hhigh
      exact ⟨t, rfl, ht, hhigh, hseg.1⟩
    · rintro ⟨t', heq, ht', hle, -⟩
      obtain ⟨rfl, rfl⟩ := historyKey_injOn ht ht' heq
      refine ⟨⟨(historyBound_le hzero hseg hzero ht).2 ?_,
        (historyBound_le_of_negative hseg hzero ht hasOf hneg).2 (hsegment.2 hle)⟩, rfl⟩
      have hnonneg := ht.1
      have hsegnonneg := hseg.1
      omega
  · refine iff_of_false (by simp [hkey, isHistoryEntryFor, latestKey]) ?_
    rintro ⟨t, heq, -⟩
    exact historyKey_ne_latestKey key key' t _ (heq.symm.trans hkey)
  · refine iff_of_false (by simp [hkey, isHistoryEntryFor, streamTimeKey]) ?_
    rintro ⟨t, heq, -⟩
    exact historyKey_ne_streamTimeKey key t _ (heq.symm.trans hkey)

/-- At a negative time the lookup yields the last version superseded in the first segment. -/
theorem getAsOf_of_negative (h : Tracks s.observedStreamTime s log) (key : Bytes)
    (hasOf : IsLong asOf) (hneg : asOf < 0)
    (hretained : s.observedStreamTime - s.historyRetentionMs ≤ asOf) :
    s.getAsOf key asOf = (firstSegmentHistory s log key).bind rendered := by
  have hfirst : s.firstLiveSegment = 0 := by
    rw [h.firstLiveSegment_eq, max_eq_right (by omega), segmentId_eq le_rfl, Int.zero_ediv]
  have hlast : 0 ≤ s.lastLiveSegment := by
    rw [lastLiveSegment, segmentOf, segmentId_eq (le_max_right _ _)]
    exact Int.ediv_nonneg (le_max_right _ _) (by have := h.interval; omega)
  have hstart : s.segmentOf asOf = 0 := by
    rw [segmentOf, max_eq_right hneg.le, segmentId_eq le_rfl, Int.zero_ediv]
  have hsearch : search s key asOf = (s.db.entries.filter fun e =>
      Engine.inRange (some (historyLowerBound key 0 0))
        (some (exclusive (historyUpperBound key 0 asOf))) e.1 &&
          isHistoryEntryFor e.1 key).getLast? := by
    have hdown : s.segmentsDown asOf = [0] := by
      simp [segmentsDown, hstart, hfirst, min_eq_left hlast]
    rw [search, hdown, List.findSome?_singleton, Engine.reverseIterator, Engine.iterator,
      ← List.getLast?_filter, filter_filter]
    simp only [Bool.and_comm]
  have hpicks := h.picks_of_negative key hasOf hneg hfirst
  rw [h.getAsOf_eq_search, firstSegmentHistory]
  cases hn : newest (writesOf key log) with
  | none =>
    simp only [hsearch]
    rw [h.getLast?_picks_eq_none hpicks fun n t value hn' _ => by simp [hn] at hn']
    rfl
  | some n =>
    have hnonneg := (h.isTime_of_newest hn).1.1
    simp only [Option.bind_some]
    rw [if_neg (by omega), hsearch]
    cases hforce : inForce (min (s.segmentIntervalMs - 1) (n.1 - 1)) (writesOf key log) with
    | none =>
      rw [h.getLast?_picks_eq_none hpicks fun n' t value hn' hforce' => by
        obtain rfl := Option.some.inj (hn.symm.trans hn')
        simp [hforce] at hforce']
      rfl
    | some w =>
      obtain ⟨t, value⟩ := w
      have hlast := (inForce_eq_some_iff.1 hforce).2.1
      have ht : IsTime t := (h.times _ (mem_writesOf (exists_of_lastAt hlast))).1
      rw [h.getLast?_picks hpicks hn hforce (hfirst ▸ (segmentId_isTime h.interval ht).1)]
      exact toTimestampedFormat_encodeValue value t

theorem inForce_of_negative (h : Tracks cut s log) (key : Bytes) (hneg : asOf < 0) :
    inForce asOf (writesOf key log) = none := by
  refine inForce_eq_none_iff.2 fun w hw hle => ?_
  have ht : IsTime w.1 := (h.times _ (mem_writesOf hw)).1
  have := ht.1
  omega

/-- While a negative time is retained, that version is a deletion for every key that has one. -/
def Unsuperseded (s : VersionedStore) (log : List Revision) : Prop :=
  s.observedStreamTime < s.historyRetentionMs →
    ∀ key, (firstSegmentHistory s log key).bind rendered = none

/-- Reads at the retention or later are right exactly if the versions in force then are kept and no
negative time finds a superseded one. -/
theorem reads_eq_iff (h : Tracks s.observedStreamTime s log) :
    (∀ key asOf, IsLong asOf → s.observedStreamTime - s.historyRetentionMs ≤ asOf →
      s.getAsOf key asOf = (inForce asOf (writesOf key log)).bind rendered) ↔
    Kept s log ∧ Unsuperseded s log := by
  rw [← h.getAsOf_eq_iff]
  constructor
  · intro hright
    refine ⟨fun key asOf hasOf => hright key asOf hasOf.isLong, fun hstart key => ?_⟩
    have hread := hright key (-1) ⟨by decide, by decide⟩ (by omega)
    rwa [h.getAsOf_of_negative key ⟨by decide, by decide⟩ (by decide) (by omega),
      h.inForce_of_negative key (by decide)] at hread
  · rintro ⟨hright, hblank⟩ key asOf hasOf hretained
    rcases le_or_gt 0 asOf with hnonneg | hneg
    · exact hright key asOf ⟨hnonneg, hasOf.2⟩ hretained
    · rw [h.getAsOf_of_negative key hasOf hneg hretained, h.inForce_of_negative key hneg,
        hblank (by omega) key]
      rfl

end Tracks

open Tracks

/-- `put`s from empty whose retained versions the engine can take, with their log. -/
inductive PutRun (historyRetentionMs segmentIntervalMs : ℤ) :
    VersionedStore → List Revision → Prop
  | empty : PutRun historyRetentionMs segmentIntervalMs
      ⟨historyRetentionMs, segmentIntervalMs, {}, -1, -1⟩ []
  | put {s : VersionedStore} {log : List Revision} (v : Revision) :
      PutRun historyRetentionMs segmentIntervalMs s log → Offer segmentIntervalMs v →
      (¬ Late s v → Writable s log v) →
      PutRun historyRetentionMs segmentIntervalMs (s.put v.key v.value v.timestamp).2
        (log ++ if (s.put v.key v.value v.timestamp).1.accepted then [v] else [])

theorem expire_segmentIntervalMs (s : VersionedStore) :
    s.expireHistoryBelowRetention.segmentIntervalMs = s.segmentIntervalMs := by
  unfold expireHistoryBelowRetention
  simp only
  split_ifs <;> rfl

theorem put_segmentIntervalMs (s : VersionedStore) (v : Revision) :
    (s.put v.key v.value v.timestamp).2.segmentIntervalMs = s.segmentIntervalMs := by
  unfold VersionedStore.put
  simp only
  split_ifs
  · rfl
  · split
    · rfl
    · exact expire_segmentIntervalMs _
  · split
    · rfl
    · split <;> exact expire_segmentIntervalMs _

theorem PutRun.tracks {historyRetentionMs segmentIntervalMs : ℤ}
    (hretention : 0 ≤ historyRetentionMs) (hinterval : 1 ≤ segmentIntervalMs)
    (h : PutRun historyRetentionMs segmentIntervalMs s log) :
    Tracks s.observedStreamTime s log ∧ s.segmentIntervalMs = segmentIntervalMs := by
  induction h with
  | empty => exact ⟨tracks_empty hretention hinterval, rfl⟩
  | @put s log v hrun hoffer hwritable ih =>
    obtain ⟨htracks, hsame⟩ := ih
    refine ⟨?_, (put_segmentIntervalMs s v).trans hsame⟩
    by_cases hlate : Late s v
    · rw [htracks.put_late hlate]
      simpa [PutReply.accepted] using htracks
    · have hv : Offer s.segmentIntervalMs v := hsame ▸ hoffer
      rw [if_pos ((htracks.put_accepted_iff hv hlate).2 (hwritable hlate))]
      exact htracks.put hv hlate (hwritable hlate)

/-- A retained version is taken exactly if the engine can hold the one it supersedes; the current
value is the newest; reads at the retention or later are right exactly if the versions in force then
are kept. -/
theorem versioned_store_is_timeline {historyRetentionMs segmentIntervalMs : ℤ}
    (hretention : 0 ≤ historyRetentionMs) (hinterval : 1 ≤ segmentIntervalMs)
    (hrun : PutRun historyRetentionMs segmentIntervalMs s log) :
    (∀ v, Offer segmentIntervalMs v → ¬ Late s v →
      ((s.put v.key v.value v.timestamp).1.accepted = true ↔ Writable s log v)) ∧
    (∀ key, s.get key = (newest (writesOf key log)).bind rendered) ∧
    ((∀ key asOf, IsLong asOf → s.observedStreamTime - s.historyRetentionMs ≤ asOf →
      s.getAsOf key asOf = (inForce asOf (writesOf key log)).bind rendered) ↔
      Kept s log ∧ Unsuperseded s log) := by
  obtain ⟨htracks, hsame⟩ := hrun.tracks hretention hinterval
  exact ⟨fun v hv hlate => htracks.put_accepted_iff (hsame ▸ hv) hlate, htracks.get_eq,
    htracks.reads_eq_iff⟩

/-- One `put` after another. -/
def puts (s : VersionedStore) (versions : List Revision) : VersionedStore :=
  versions.foldl (fun s v => (s.put v.key v.value v.timestamp).2) s

theorem versioned_store_is_timeline_after_two_puts :
    let s := puts ⟨10, 5, {}, -1, -1⟩ [⟨[7], some [1], 3⟩, ⟨[7], some [2], 8⟩]
    let log := [⟨[7], some [1], 3⟩, ⟨[7], some [2], 8⟩]
    (∀ v, Offer 5 v → ¬ Late s v →
      ((s.put v.key v.value v.timestamp).1.accepted = true ↔ Writable s log v)) ∧
    (∀ key, s.get key = (newest (writesOf key log)).bind rendered) ∧
    ((∀ key asOf, IsLong asOf → s.observedStreamTime - s.historyRetentionMs ≤ asOf →
      s.getAsOf key asOf = (inForce asOf (writesOf key log)).bind rendered) ↔
      Kept s log ∧ Unsuperseded s log) := by
  have hfirst : PutRun 10 5 (puts ⟨10, 5, {}, -1, -1⟩ [⟨[7], some [1], 3⟩]) [⟨[7], some [1], 3⟩] :=
    PutRun.put ⟨[7], some [1], 3⟩ .empty
      ⟨⟨by decide, by decide⟩, by decide, by decide, by decide⟩ fun _ n hn => by simp [writesOf] at hn
  have hsecond : PutRun 10 5 (puts ⟨10, 5, {}, -1, -1⟩ [⟨[7], some [1], 3⟩, ⟨[7], some [2], 8⟩])
      [⟨[7], some [1], 3⟩, ⟨[7], some [2], 8⟩] :=
    PutRun.put ⟨[7], some [2], 8⟩ hfirst
      ⟨⟨by decide, by decide⟩, by decide, by decide, by decide⟩ fun _ n hn _ => by
        obtain rfl := Option.some.inj hn
        decide +kernel
  exact versioned_store_is_timeline (by decide) (by decide) hsecond

/-- With a retention of 10 and segments of 5: the version in force at 6 is lost at stream time 16; a
key written at 0 cannot be written at 100; and a lookup at -1 finds what was superseded at 3. -/
theorem versioned_store_loses_versions :
    let store : VersionedStore := ⟨10, 5, {}, -1, -1⟩
    let lost : List Revision := [⟨[7], some [1], 0⟩, ⟨[7], some [2], 12⟩, ⟨[8], some [3], 16⟩]
    ((store.puts lost).observedStreamTime - 10 ≤ 6 ∧ (store.puts lost).getAsOf [7] 6 = none ∧
      inForce 6 (writesOf [7] lost) = some (0, some [1])) ∧
    ((store.puts [⟨[7], some [1], 0⟩, ⟨[8], some [2], 100⟩]).put [7] (some [3]) 100).1 =
      .failed .config ∧
    (store.puts [⟨[7], some [1], 0⟩, ⟨[7], some [2], 3⟩]).getAsOf [7] (-1) =
      some (putLong 0 ++ [1]) := by
  decide +kernel

end VersionedStore

end ElysiumKV.Streams
