import ElysiumKV.Streams.Keys

/-!
# Scans over segments

A scan is one engine range for each segment in turn: one filter of the store, by segment and by the
bytes `user key ‖ times` (`scan_segments`).
-/

namespace ElysiumKV.Streams

open ByteOrder

/-! ### Ranges and cursors -/

/-- A half-open byte range; `null` is unbounded. -/
structure Range where
  lower : Option Key
  upperExclusive : Option Key

/-- The engine's upper bound is exclusive, the stores' inclusive. -/
def exclusive (inclusive : Bytes) : Bytes := inclusive ++ [0]

/-- `for (segment = first; segment <= last; ++segment)`, which does not end at `Long.MAX_VALUE`. -/
def segmentsBetween (first last : ℤ) : Option (List ℤ) :=
  if last < longMax then
    some ((List.range (last + 1 - first).toNat).map fun (i : ℕ) => first + i)
  else none

/-- `ScanCursor` to its end: the ranges, filtered. -/
def scan (db : Engine) (ranges : List Range) (keep : Key → Bool) (forward : Bool) : List Record :=
  if forward then
    ranges.flatMap fun r => (db.iterator r.lower r.upperExclusive).filter fun e => keep e.1
  else
    ranges.reverse.flatMap fun r =>
      (db.reverseIterator r.lower r.upperExclusive).filter fun e => keep e.1

theorem scan_backward (db : Engine) (ranges : List Range) (keep : Key → Bool) :
    scan db ranges keep false = (scan db ranges keep true).reverse := by
  simp [scan, Engine.reverseIterator, ← Scan.flatMap_reverse, List.filter_reverse]

variable {first last : ℤ} {segments : List ℤ}

theorem mem_segmentsBetween (h : segmentsBetween first last = some segments) (g : ℤ) :
    g ∈ segments ↔ first ≤ g ∧ g ≤ last := by
  unfold segmentsBetween at h
  split_ifs at h
  obtain rfl := Option.some.inj h
  simp only [List.mem_map, List.mem_range]
  constructor
  · rintro ⟨i, hi, rfl⟩
    omega
  · rintro ⟨hfirst, hlast⟩
    exact ⟨(g - first).toNat, by omega, by omega⟩

theorem ascending_segmentsBetween (h : segmentsBetween first last = some segments) :
    segments.Pairwise (· < ·) := by
  unfold segmentsBetween at h
  split_ifs at h
  obtain rfl := Option.some.inj h
  refine List.Pairwise.map _ (fun i j hij => ?_) List.pairwise_lt_range
  omega

variable {g : ℤ}

theorem lt_longMax_of_mem (h : segmentsBetween first last = some segments) (hg : g ∈ segments) :
    g < longMax := by
  have hlast := ((mem_segmentsBetween h g).1 hg).2
  unfold segmentsBetween at h
  split_ifs at h
  omega

/-- One segment between bounds on `user key ‖ times`, or all of it. -/
def segmentRange (lower upper : Option Bytes) (segment : ℤ) : Range where
  lower := some (match lower with
    | none => segmentPrefix segment
    | some bytes => segmentPrefix segment ++ bytes)
  upperExclusive := some (match upper with
    | none => segmentPrefix (segment + 1)
    | some bytes => exclusive (segmentPrefix segment ++ bytes))

/-- `user key ‖ times` is within the bounds. -/
def withinBounds (lower upper : Option Bytes) (bytes : Bytes) : Bool :=
  lower.all (fun b => decide (b ≤ bytes)) && upper.all fun b => decide (bytes ≤ b)

/-- The segment of a stored key. -/
def segmentOf (storeKey : Key) : ℤ := getLong (storeKey.take 8)

/-- The key has a segment in front. -/
def IsSegmented (storeKey : Key) : Prop :=
  ∃ segment bytes, IsTime segment ∧ storeKey = segmentPrefix segment ++ bytes

theorem segmentOf_append {segment : ℤ} (h : IsTime segment) (bytes : Bytes) :
    segmentOf (segmentPrefix segment ++ bytes) = segment := by
  rw [segmentOf, segmentPrefix, List.take_left' (length_putLong segment), getLong_putLong h.isLong]

theorem drop_segmentPrefix (segment : ℤ) (bytes : Bytes) :
    (segmentPrefix segment ++ bytes).drop 8 = bytes :=
  List.drop_left' (length_putLong segment)

variable {h : ℤ}

theorem segmentPrefix_le_iff (hg : IsTime g) (hh : IsTime h) (bytes : Bytes) :
    segmentPrefix g ≤ segmentPrefix h ++ bytes ↔ g ≤ h := by
  have hle := append_le_append_iff (a := segmentPrefix g) (b := segmentPrefix h)
    (by simp [segmentPrefix]) [] bytes
  have hlt : segmentPrefix g < segmentPrefix h ↔ g < h := putLong_lt_putLong hg hh
  have heq : segmentPrefix g = segmentPrefix h ↔ g = h :=
    ⟨putLong_injOn hg.isLong hh.isLong, congrArg _⟩
  rw [List.append_nil] at hle
  simp only [hle, hlt, heq, nil_le, and_true]
  exact le_iff_lt_or_eq.symm

theorem lower_segmentRange (hg : IsTime g) (hh : IsTime h) (lower upper : Option Bytes)
    (bytes : Bytes) :
    (segmentRange lower upper g).lower.all (fun b => decide (b ≤ segmentPrefix h ++ bytes)) = true ↔
      g < h ∨ g = h ∧ lower.all (fun b => decide (b ≤ bytes)) = true := by
  have hlt : segmentPrefix g < segmentPrefix h ↔ g < h := putLong_lt_putLong hg hh
  have heq : segmentPrefix g = segmentPrefix h ↔ g = h :=
    ⟨putLong_injOn hg.isLong hh.isLong, congrArg _⟩
  have hlength : (segmentPrefix g).length = (segmentPrefix h).length := by simp [segmentPrefix]
  cases lower with
  | none =>
    simp only [segmentRange, Option.all_some, Option.all_none, and_true, decide_eq_true_eq,
      segmentPrefix_le_iff hg hh]
    exact le_iff_lt_or_eq
  | some b =>
    have hle := append_le_append_iff (a := segmentPrefix g) (b := segmentPrefix h) hlength b bytes
    simp [segmentRange, hle, hlt, heq]

theorem upper_segmentRange (hg : IsTime g) (hg' : g < longMax) (hh : IsTime h)
    (lower upper : Option Bytes) (bytes : Bytes) :
    (segmentRange lower upper g).upperExclusive.all
        (fun b => decide (segmentPrefix h ++ bytes < b)) = true ↔
      h < g ∨ h = g ∧ upper.all (fun b => decide (bytes ≤ b)) = true := by
  cases upper with
  | none =>
    have hnext : IsTime (g + 1) := ⟨by have := hg.1; omega, by omega⟩
    have hlt := append_lt_append_iff (a := segmentPrefix h) (b := segmentPrefix (g + 1))
      (by simp [segmentPrefix]) bytes []
    rw [List.append_nil] at hlt
    have hseg : segmentPrefix h < segmentPrefix (g + 1) ↔ h < g + 1 := putLong_lt_putLong hh hnext
    simp only [segmentRange, Option.all_some, hlt, hseg, List.not_lt_nil, and_false, or_false,
      Option.all_none, and_true, decide_eq_true_eq]
    omega
  | some b =>
    have hle := append_le_append_iff (a := segmentPrefix h) (b := segmentPrefix g)
      (by simp [segmentPrefix]) bytes b
    have hseg : segmentPrefix h < segmentPrefix g ↔ h < g := putLong_lt_putLong hh hg
    have heq : segmentPrefix h = segmentPrefix g ↔ h = g :=
      ⟨putLong_injOn hh.isLong hg.isLong, congrArg _⟩
    simp only [segmentRange, exclusive, lt_append_zero_iff, hle, hseg, heq, Option.all_some,
      decide_eq_true_eq]

theorem inRange_segmentRange (hg : IsTime g) (hg' : g < longMax) (hh : IsTime h)
    (lower upper : Option Bytes) (bytes : Bytes) :
    Engine.inRange (segmentRange lower upper g).lower (segmentRange lower upper g).upperExclusive
        (segmentPrefix h ++ bytes) = true ↔
      g = h ∧ withinBounds lower upper bytes = true := by
  rw [Engine.inRange, Bool.and_eq_true, lower_segmentRange hg hh, upper_segmentRange hg hg' hh,
    withinBounds, Bool.and_eq_true]
  constructor
  · rintro ⟨hlow, hhigh⟩
    rcases hlow with hlow | ⟨rfl, hlow⟩
    · rcases hhigh with hhigh | ⟨rfl, -⟩ <;> omega
    · rcases hhigh with hhigh | ⟨-, hhigh⟩
      · omega
      · exact ⟨rfl, hlow, hhigh⟩
  · rintro ⟨rfl, hlow, hhigh⟩
    exact ⟨.inr ⟨rfl, hlow⟩, .inr ⟨rfl, hhigh⟩⟩

/-! ### A band of segments -/

/-- What a scan from `first` to `last` visits. -/
def inBand (first last : ℤ) (lower upper : Option Bytes) (storeKey : Key) : Bool :=
  first ≤ segmentOf storeKey && segmentOf storeKey ≤ last &&
    withinBounds lower upper (storeKey.drop 8)

/-- Every key has a segment in front. -/
def Segmented (db : Engine) : Prop := ∀ e ∈ db.entries, IsSegmented e.1

theorem scan_segments {db : Engine} (hdb : Segmented db) (hfirst : 0 ≤ first)
    (hsegments : segmentsBetween first last = some segments) (lower upper : Option Bytes)
    (keep : Key → Bool) :
    scan db (segments.map (segmentRange lower upper)) keep true =
      db.entries.filter fun e => inBand first last lower upper e.1 && keep e.1 := by
  have htime : ∀ g ∈ segments, IsTime g := fun g hg =>
    ⟨hfirst.trans ((mem_segmentsBetween hsegments g).1 hg).1, (lt_longMax_of_mem hsegments hg).le⟩
  -- within the range of `g` a record belongs to segment `g` and lies within the bounds
  have hrange : ∀ g ∈ segments, ∀ e ∈ db.entries,
      Engine.inRange (segmentRange lower upper g).lower (segmentRange lower upper g).upperExclusive
        e.1 = true ↔ g = segmentOf e.1 ∧ withinBounds lower upper (e.1.drop 8) = true := by
    intro g hg e he
    obtain ⟨h, bytes, hh, hkey⟩ := hdb e he
    rw [hkey, segmentOf_append hh, drop_segmentPrefix]
    exact inRange_segmentRange (htime g hg) (lt_longMax_of_mem hsegments hg) hh lower upper bytes
  have hscan : scan db (segments.map (segmentRange lower upper)) keep true =
      segments.flatMap fun g => db.entries.filter fun e => keep e.1 &&
        Engine.inRange (segmentRange lower upper g).lower
          (segmentRange lower upper g).upperExclusive e.1 := by
    simp [scan, List.flatMap_map, Engine.iterator, List.filter_filter]
  rw [hscan, Scan.flatMap_filter_of_ascending db.sorted]
  · refine List.filter_congr fun e he => Bool.eq_iff_iff.2 ?_
    simp only [List.any_eq_true, Bool.and_eq_true, inBand, decide_eq_true_eq]
    constructor
    · rintro ⟨g, hg, hkeep, hin⟩
      obtain ⟨rfl, hbounds⟩ := (hrange g hg e he).1 hin
      exact ⟨⟨(mem_segmentsBetween hsegments _).1 hg, hbounds⟩, hkeep⟩
    · rintro ⟨⟨hband, hbounds⟩, hkeep⟩
      have hmem := (mem_segmentsBetween hsegments _).2 hband
      exact ⟨_, hmem, hkeep, (hrange _ hmem e he).2 ⟨rfl, hbounds⟩⟩
  · -- records of different segments are in the order of the segments
    refine (ascending_segmentsBetween hsegments).imp_of_mem fun {g g'} hg hg' hlt x hx y hy => ?_
    simp only [Bool.and_eq_true]
    rintro ⟨-, hinx⟩ ⟨-, hiny⟩
    have hsegx := ((hrange g hg x hx).1 hinx).1
    have hsegy := ((hrange g' hg' y hy).1 hiny).1
    obtain ⟨a, bytesx, ha, hkeyx⟩ := hdb x hx
    obtain ⟨b, bytesy, hb, hkeyy⟩ := hdb y hy
    rw [hkeyx, segmentOf_append ha] at hsegx
    rw [hkeyy, segmentOf_append hb] at hsegy
    rw [hkeyx, hkeyy]
    refine (append_lt_append_iff (by simp [segmentPrefix]) _ _).2 (.inl ?_)
    exact (putLong_lt_putLong ha hb).2 (hsegx ▸ hsegy ▸ hlt)

theorem scan_of_band {db : Engine} (hdb : Segmented db) (hfirst : 0 ≤ first)
    (lower upper : Option Bytes) {keep : Key → Bool}
    (hband : ∀ e ∈ db.entries, keep e.1 = true → first ≤ segmentOf e.1 ∧ segmentOf e.1 ≤ last) :
    ((segmentsBetween first last).map fun segments =>
        scan db (segments.map (segmentRange lower upper)) keep true) =
      if last < longMax then
        some (db.entries.filter fun e => withinBounds lower upper (e.1.drop 8) && keep e.1)
      else none := by
  cases hsegments : segmentsBetween first last with
  | none =>
    unfold segmentsBetween at hsegments
    split_ifs at hsegments with hlast
    rw [if_neg hlast, Option.map_none]
  | some segments =>
    have hlast : last < longMax := by
      unfold segmentsBetween at hsegments
      split_ifs at hsegments with hlast
      exact hlast
    rw [Option.map_some, scan_segments hdb hfirst hsegments, if_pos hlast]
    refine congrArg some (List.filter_congr fun e he => Bool.eq_iff_iff.2 ?_)
    simp only [inBand, Bool.and_eq_true, decide_eq_true_eq]
    constructor
    · rintro ⟨⟨-, hbounds⟩, hkeep⟩
      exact ⟨hbounds, hkeep⟩
    · rintro ⟨hbounds, hkeep⟩
      exact ⟨⟨hband e he hkeep, hbounds⟩, hkeep⟩

end ElysiumKV.Streams
