import ElysiumKV.Streams.Engine

/-!
# Composite keys of the stream stores

| key | layout | widths |
|---|---|---|
| window | `segment ‖ key ‖ timestamp ‖ seqnum` | 8, any, 8, 4 |
| session | `segment ‖ key ‖ end ‖ start` | 8, any, 8, 8 |
-/

namespace ElysiumKV.Streams

open ByteOrder List

/-! ### Java integers -/

/-- `Long.MAX_VALUE` -/
def longMax : ℤ := 2 ^ 63 - 1

/-- The values of a `long`. -/
def IsLong (x : ℤ) : Prop := -2 ^ 63 ≤ x ∧ x ≤ longMax

/-- The values of a `long` that is not negative. -/
def IsTime (x : ℤ) : Prop := 0 ≤ x ∧ x ≤ longMax

/-- What a computation with `long`s leaves. -/
def toLong (x : ℤ) : ℤ := x.bmod (2 ^ 64)

/-- `ByteBuffer.putLong` -/
def putLong (x : ℤ) : Bytes := putBig 8 (x % 2 ^ 64).toNat

/-- `ByteBuffer.getLong` -/
def getLong (bytes : Bytes) : ℤ :=
  if getBig bytes < 2 ^ 63 then getBig bytes else getBig bytes - 2 ^ 64

/-- `ByteBuffer.putInt` of a sequence number. -/
def putInt (x : ℕ) : Bytes := putBig 4 x

/-- `Integer.MAX_VALUE` -/
def intMax : ℕ := 2 ^ 31 - 1

@[simp] theorem length_putLong (x : ℤ) : (putLong x).length = 8 := length_putBig 8 _

@[simp] theorem length_putInt (x : ℕ) : (putInt x).length = 4 := length_putBig 4 _

variable {x : ℤ}

theorem IsTime.isLong (h : IsTime x) : IsLong x := ⟨by have := h.1; omega, h.2⟩

theorem toLong_of_isLong (h : IsLong x) : toLong x = x := by
  obtain ⟨hlow, hhigh⟩ := h
  unfold longMax at hhigh
  exact Int.bmod_eq_of_le (by omega) (by omega)

/-- The sum of two times is a `long`, or it wraps round to a negative one. -/
theorem toLong_add_neg {y : ℤ} (hx : IsTime x) (hy : IsTime y) (h : longMax < x + y) :
    toLong (x + y) < 0 := by
  obtain ⟨-, hx⟩ := hx
  obtain ⟨-, hy⟩ := hy
  unfold longMax at *
  unfold toLong
  rw [Int.bmod_def]
  split_ifs <;> omega

theorem getLong_putLong (h : IsLong x) : getLong (putLong x) = x := by
  obtain ⟨hlow, hhigh⟩ := h
  unfold longMax at hhigh
  have hlt : (x % 2 ^ 64).toNat < 256 ^ 8 := by omega
  unfold getLong putLong
  rw [getBig_putBig_of_lt hlt]
  split_ifs <;> omega

variable {y : ℤ}

theorem putLong_injOn (hx : IsLong x) (hy : IsLong y) (h : putLong x = putLong y) : x = y := by
  rw [← getLong_putLong hx, h, getLong_putLong hy]

theorem putLong_lt_putLong (hx : IsTime x) (hy : IsTime y) : putLong x < putLong y ↔ x < y := by
  obtain ⟨hx0, hx⟩ := hx
  obtain ⟨hy0, hy⟩ := hy
  unfold longMax at hx hy
  unfold putLong
  rw [putBig_lt_putBig (by omega) (by omega)]
  omega

theorem putLong_le_putLong (hx : IsTime x) (hy : IsTime y) : putLong x ≤ putLong y ↔ x ≤ y := by
  rw [← not_lt, putLong_lt_putLong hy hx, not_lt]

/-- Bytes compare as unsigned: a negative `long` is above every time. -/
theorem putLong_le_of_negative (hx : IsTime x) (hy : IsLong y) (hneg : y < 0) :
    putLong x ≤ putLong y := by
  obtain ⟨hx0, hx⟩ := hx
  obtain ⟨hy, -⟩ := hy
  unfold longMax at hx
  unfold putLong
  rw [putBig_le_putBig (by omega) (by omega)]
  omega

theorem putInt_le_intMax {seqnum : ℕ} (h : seqnum ≤ intMax) : putInt seqnum ≤ putInt intMax := by
  unfold intMax at *
  exact (putBig_le_putBig (by omega) (by omega)).2 h

theorem putInt_zero_le {seqnum : ℕ} (h : seqnum ≤ intMax) : putInt 0 ≤ putInt seqnum := by
  unfold intMax at *
  exact (putBig_le_putBig (by omega) (by omega)).2 (Nat.zero_le _)

/-! ### Segments -/

/-- `segmentId` of both: division of `long`s, towards zero. -/
def segmentId (time segmentIntervalMs : ℤ) : ℤ := time.tdiv segmentIntervalMs

variable {interval : ℤ}

theorem segmentId_eq {time : ℤ} (h : 0 ≤ time) :
    segmentId time interval = time / interval := Int.tdiv_eq_ediv_of_nonneg h

theorem segmentId_mono {a b : ℤ} (hinterval : 1 ≤ interval) (ha : 0 ≤ a) (hab : a ≤ b) :
    segmentId a interval ≤ segmentId b interval := by
  rw [segmentId_eq ha, segmentId_eq (ha.trans hab)]
  exact Int.ediv_le_ediv (by omega) hab

theorem segmentId_isTime {time : ℤ} (hinterval : 1 ≤ interval) (h : IsTime time) :
    IsTime (segmentId time interval) := by
  rw [segmentId_eq h.1]
  exact ⟨Int.ediv_nonneg h.1 (by omega), (Int.ediv_le_self _ h.1).trans h.2⟩

/-- The segment in front of a key, big-endian. -/
def segmentPrefix (segmentId : ℤ) : Bytes := putLong segmentId

/-- A key of a window or session store. -/
def composite (segment : ℤ) (key times : Bytes) : Bytes := segmentPrefix segment ++ (key ++ times)

/-- The user key, the times taking `width` bytes. -/
def userKeyOf (width : ℕ) (storeKey : Bytes) : Bytes :=
  (storeKey.drop 8).take (storeKey.length - 8 - width)

theorem userKeyOf_composite {width : ℕ} {times : Bytes} (h : times.length = width) (segment : ℤ)
    (key : Bytes) : userKeyOf width (composite segment key times) = key := by
  have hdrop : (composite segment key times).drop 8 = key ++ times := by
    unfold composite segmentPrefix
    rw [drop_left' (length_putLong segment)]
  have hlength : (composite segment key times).length - 8 - width = key.length := by
    simp [composite, segmentPrefix, h]
  rw [userKeyOf, hdrop, hlength, take_left]

/-- The `long` `width` bytes before the end. -/
def longFromEnd (width : ℕ) (key : Bytes) : ℤ := getLong ((key.drop (key.length - width)).take 8)

theorem longFromEnd_append (hx : IsLong x) {rest : Bytes} {width : ℕ}
    (h : 8 + rest.length = width) (front : Bytes) :
    longFromEnd width (front ++ (putLong x ++ rest)) = x := by
  have hdrop : (front ++ (putLong x ++ rest)).length - width = front.length := by
    simp only [length_append, length_putLong]
    omega
  rw [longFromEnd, hdrop, drop_left, take_left' (length_putLong x), getLong_putLong hx]

/-- `fromChangelogKey`, for a time `width` bytes before the end. -/
def fromChangelogKey (width : ℕ) (changelogKey : Bytes) (segmentIntervalMs : ℤ) : Bytes :=
  segmentPrefix (segmentId (longFromEnd width changelogKey) segmentIntervalMs) ++ changelogKey

namespace WindowKeys

/-- The timestamp of a stored or logged key. -/
def timestampOf (key : Bytes) : ℤ := longFromEnd 12 key

/-- The user key of a stored key. -/
def userKeyOf (storeKey : Bytes) : Bytes := Streams.userKeyOf 12 storeKey

/-- The bytes behind the user key. -/
def times (timestamp : ℤ) (seqnum : ℕ) : Bytes := putLong timestamp ++ putInt seqnum

/-- The key a record is stored under. -/
def storeKey (key : Bytes) (timestamp : ℤ) (seqnum : ℕ) (segmentIntervalMs : ℤ) : Bytes :=
  composite (segmentId timestamp segmentIntervalMs) key (times timestamp seqnum)

/-- The least key at `timeFrom` or later. -/
def lowerRange (segmentId : ℤ) (key : Bytes) (timeFrom : ℤ) : Bytes :=
  composite segmentId key (times (max timeFrom 0) 0)

/-- The greatest key at `timeTo` or earlier. -/
def upperRange (segmentId : ℤ) (key : Bytes) (timeTo : ℤ) : Bytes :=
  composite segmentId key (times timeTo intMax)

@[simp] theorem length_times (timestamp : ℤ) (seqnum : ℕ) : (times timestamp seqnum).length = 12 := by
  simp [times]

theorem userKeyOf_storeKey (key : Bytes) (timestamp : ℤ) (seqnum : ℕ) (interval : ℤ) :
    userKeyOf (storeKey key timestamp seqnum interval) = key :=
  userKeyOf_composite (length_times timestamp seqnum) _ key

variable {timestamp : ℤ}

theorem timestampOf_append (h : IsLong timestamp) (front : Bytes) (seqnum : ℕ) :
    timestampOf (front ++ times timestamp seqnum) = timestamp :=
  longFromEnd_append h (by simp) front

theorem timestampOf_storeKey (h : IsLong timestamp) (key : Bytes) (seqnum : ℕ) (interval : ℤ) :
    timestampOf (storeKey key timestamp seqnum interval) = timestamp := by
  rw [storeKey, composite, ← append_assoc]
  exact timestampOf_append h _ seqnum

theorem times_le_times {a b : ℤ} (ha : IsTime a) (hb : IsTime b) {m n : ℕ}
    (hseq : putInt m ≤ putInt n) (hab : a ≤ b) : times a m ≤ times b n := by
  refine (append_le_append_iff (by simp) _ _).2 ?_
  rcases hab.lt_or_eq with hlt | rfl
  · exact .inl ((putLong_lt_putLong ha hb).2 hlt)
  · exact .inr ⟨rfl, hseq⟩

end WindowKeys

namespace SessionKeys

/-- The end of a stored or logged session. -/
def endOf (key : Bytes) : ℤ := longFromEnd 16 key

/-- The start of a stored or logged session. -/
def startOf (key : Bytes) : ℤ := longFromEnd 8 key

/-- The user key of a stored key. -/
def userKeyOf (storeKey : Bytes) : Bytes := Streams.userKeyOf 16 storeKey

/-- The bytes behind the user key. -/
def times (endTime startTime : ℤ) : Bytes := putLong endTime ++ putLong startTime

/-- The key a session is stored under. -/
def storeKey (key : Bytes) (startTime endTime segmentIntervalMs : ℤ) : Bytes :=
  composite (segmentId endTime segmentIntervalMs) key (times endTime startTime)

/-- The least key of a user key in a segment. -/
def lowerRange (segmentId : ℤ) (key : Bytes) : Bytes := composite segmentId key (times 0 0)

/-- The greatest key of a user key in a segment. -/
def upperRange (segmentId : ℤ) (key : Bytes) : Bytes :=
  composite segmentId key (times longMax longMax)

@[simp] theorem length_times (endTime startTime : ℤ) : (times endTime startTime).length = 16 := by
  simp [times]

theorem userKeyOf_storeKey (key : Bytes) (startTime endTime interval : ℤ) :
    userKeyOf (storeKey key startTime endTime interval) = key :=
  userKeyOf_composite (length_times endTime startTime) _ key

variable {endTime : ℤ}

theorem endOf_append (h : IsLong endTime) (front : Bytes) (startTime : ℤ) :
    endOf (front ++ times endTime startTime) = endTime :=
  longFromEnd_append h (by simp) front

theorem endOf_storeKey (h : IsLong endTime) (key : Bytes) (startTime interval : ℤ) :
    endOf (storeKey key startTime endTime interval) = endTime := by
  rw [storeKey, composite, ← append_assoc]
  exact endOf_append h _ startTime

theorem startOf_storeKey {startTime : ℤ} (h : IsLong startTime) (key : Bytes)
    (endTime interval : ℤ) : startOf (storeKey key startTime endTime interval) = startTime := by
  have happend : storeKey key startTime endTime interval =
      (segmentPrefix (segmentId endTime interval) ++ (key ++ putLong endTime)) ++
        (putLong startTime ++ []) := by
    simp [storeKey, composite, times]
  rw [happend]
  exact longFromEnd_append h (by simp) _

theorem times_le_times {a b c d : ℤ} (ha : IsTime a) (hb : IsTime b) (hc : IsTime c)
    (hd : IsTime d) (hab : a ≤ b) (hcd : c ≤ d) : times a c ≤ times b d := by
  refine (append_le_append_iff (by simp) _ _).2 ?_
  rcases hab.lt_or_eq with hlt | rfl
  · exact .inl ((putLong_lt_putLong ha hb).2 hlt)
  · exact .inr ⟨rfl, (putLong_le_putLong hc hd).2 hcd⟩

end SessionKeys

end ElysiumKV.Streams
