import ElysiumKV.Format
import ElysiumKV.Watermark

/-!
# The memtable

One entry per key, and range deletes, newest first. A range delete turns the entries it finds into
point deletes, since its range shadows only what is older than the memtable.
-/

namespace ElysiumKV

theorem sorted_no_entries : SortedMap.Sorted Entry.key [] := .nil

/-- `Memtable`. -/
structure Memtable where
  entries : List Entry := []
  ranges : List RangeTombstone := []
  creationTimeMs : ℕ := 0
  sealedTimeMs : ℕ := 0
  watermark : WatermarkInterval := {}
  sorted : SortedMap.Sorted Entry.key entries := by exact sorted_no_entries

namespace Memtable

variable (m : Memtable)

/-- `insert`: a new record replaces the old one. -/
def insert (e : Entry) : Memtable :=
  { m with entries := SortedMap.insert Entry.key e m.entries, sorted := m.sorted.insert Entry.key e }

/-- `put`. -/
def put (key : Key) (value : Value) : Memtable := m.insert ⟨key, .put, value⟩

/-- `remove`. -/
def remove (key : Key) : Memtable := m.insert ⟨key, .delete, []⟩

/-- An entry under a range delete becomes a point delete. -/
def buryEntry (range : RangeTombstone) (e : Entry) : Entry :=
  if range.Contains e.key ∧ e.type ≠ .delete then ⟨e.key, .delete, []⟩ else e

@[simp] theorem buryEntry_key (range : RangeTombstone) (e : Entry) :
    (buryEntry range e).key = e.key := by
  unfold buryEntry
  split_ifs <;> rfl

/-- `delete_range`. -/
def deleteRange (lower upper : Key) : Memtable :=
  if lower < upper then
    { m with
      entries := m.entries.map (buryEntry ⟨lower, upper⟩)
      ranges := ⟨lower, upper⟩ :: m.ranges
      sorted := m.sorted.map Entry.key (buryEntry_key _) }
  else m

/-- `get`. -/
def get (key : Key) : Option Entry := findEntry key m.entries

/-- `range_deletes`. -/
def rangeDeletes (key : Key) : Bool := m.ranges.any fun r => r.Contains key

/-- `range_tombstones`. -/
def rangeTombstones : List RangeTombstone := mergeRanges m.ranges

/-- `empty` -/
def isEmpty : Bool := m.entries.length = 0 && m.ranges.length = 0

/-- What it says about a key. -/
def tells (k : Key) : Option Found := ElysiumKV.tells m.entries m.ranges k

theorem rangeDeletes_iff {m : Memtable} {k : Key} :
    m.rangeDeletes k = true ↔ Span.Covered m.ranges k := by
  simp [rangeDeletes, Span.Covered]

theorem tells_insert (e : Entry) (k : Key) :
    (m.insert e).tells k = if e.key = k then some e.found else m.tells k := by
  unfold tells insert ElysiumKV.tells
  simp only [findEntry, SortedMap.find_insert]
  split_ifs <;> rfl

theorem tells_put (key k : Key) (value : Value) :
    (m.put key value).tells k = if key = k then some (.live value) else m.tells k :=
  tells_insert m _ k

theorem tells_remove (key k : Key) :
    (m.remove key).tells k = if key = k then some .gone else m.tells k :=
  tells_insert m _ k

theorem buryEntry_found (range : RangeTombstone) (e : Entry) :
    (buryEntry range e).found = if range.Contains e.key then .gone else e.found := by
  unfold buryEntry
  by_cases hr : range.Contains e.key
  · cases ht : e.type <;> simp [hr, ht, Entry.found]
  · simp [hr]

theorem tells_deleteRange (lower upper k : Key) :
    (m.deleteRange lower upper).tells k =
      if lower ≤ k ∧ k < upper then some .gone else m.tells k := by
  unfold deleteRange
  by_cases hlt : lower < upper
  · rw [if_pos hlt]
    unfold tells
    cases h : findEntry k m.entries with
    | some e =>
      have hfind : findEntry k (m.entries.map (buryEntry ⟨lower, upper⟩)) =
          some (buryEntry ⟨lower, upper⟩ e) := by
        rw [findEntry, SortedMap.find_map Entry.key (buryEntry_key _), ← findEntry, h]
        rfl
      obtain ⟨-, rfl⟩ := (SortedMap.find_eq_some_iff Entry.key m.sorted).1 h
      rw [tells_of_find hfind, tells_of_find h, buryEntry_found]
      by_cases hk : lower ≤ e.key ∧ e.key < upper <;> simp [Span.Contains, hk]
    | none =>
      have hfind : findEntry k (m.entries.map (buryEntry ⟨lower, upper⟩)) = none := by
        rw [findEntry, SortedMap.find_map Entry.key (buryEntry_key _), ← findEntry, h]
        rfl
      rw [tells_of_find_none hfind, tells_of_find_none h]
      by_cases hk : lower ≤ k ∧ k < upper <;> simp [Span.Contains, hk]
  · rw [if_neg hlt, if_neg]
    exact fun h => hlt (h.1.trans_lt h.2)

@[simp] theorem tells_of_isEmpty {m : Memtable} (h : m.isEmpty = true) (k : Key) :
    m.tells k = none := by
  simp only [isEmpty, Bool.and_eq_true, decide_eq_true_eq, List.length_eq_zero_iff] at h
  simp [tells, ElysiumKV.tells, h.1, h.2]

/-! ### The bookkeeping fields are untouched by writes -/

@[simp] theorem watermark_deleteRange (lower upper : Key) :
    (m.deleteRange lower upper).watermark = m.watermark := by
  unfold deleteRange
  split_ifs <;> rfl

end Memtable

end ElysiumKV
