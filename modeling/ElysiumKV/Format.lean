import ElysiumKV.Lib.Span
import ElysiumKV.Lib.Lookup
import ElysiumKV.Lib.ByteOrder

/-!
# Keys, entries and range tombstones

What a source of entries and range tombstones tells about a key. It speaks of exactly the keys its
*cells* cover, spans in an order that distinguishes a key from the point just above it.
-/

namespace ElysiumKV

/-- Byte strings. -/
abbrev Bytes := List UInt8

instance Bytes.lawfulBEq : LawfulBEq Bytes := inferInstance

/-- Compared bytewise by `Slice`, a proper prefix first. -/
abbrev Key := Bytes

/-- Values are byte strings. -/
abbrev Value := Bytes

/-- `Status`. -/
inductive Status
  | ok
  | notFound
  | corrupt
  | unusable
  | fenced
  | config
  | io
  | stalled
  | unsupported
  | stale
  | recoveryRequired
deriving DecidableEq, Repr

/-- `status_name` -/
def Status.name : Status → String
  | ok => "ok"
  | notFound => "not_found"
  | corrupt => "corrupt"
  | unusable => "unusable"
  | fenced => "fenced"
  | config => "config"
  | io => "io"
  | stalled => "stalled"
  | unsupported => "unsupported"
  | stale => "stale"
  | recoveryRequired => "recovery required"

/-- A status other than `ok`. -/
abbrev Failure : Type := { s : Status // s ≠ .ok }

/-! ### Entries and range tombstones -/

/-- `ValueType`. -/
inductive ValueType
  | delete
  | put
deriving DecidableEq, Repr

/-- A record of a memtable or SST; a delete has the empty value. -/
structure Entry where
  key : Key
  type : ValueType
  value : Value
deriving DecidableEq, Repr

/-- `[lower, upper)` of keys. -/
abbrev RangeTombstone := Span Key

/-- `merge_ranges`: the union, sorted and disjoint, empties dropped. -/
def mergeRanges (ranges : List RangeTombstone) : List RangeTombstone := Span.unite ranges

/-- `clip_ranges`: the parts inside `[lower, upper)`; `none` is unbounded. -/
def clipRanges (ranges : List RangeTombstone) (lower upper : Option Key) : List RangeTombstone :=
  Span.clip lower upper ranges

/-- `kMaxValueBytes` -/
def maxValueBytes : ℕ := 2 ^ 20

/-- `kMaxKeyBytes` -/
def maxKeyBytes : ℕ := 64 * 2 ^ 10

/-! ### What a source tells about a key -/

/-- The answer of a source that speaks about a key. -/
inductive Found
  | live (value : Value)
  | gone
deriving DecidableEq, Repr

/-- The value, unless gone. -/
def Found.value? : Found → Option Value
  | live v => some v
  | gone => none

/-- An answer without deletions. -/
def dropGone : Option Found → Option Found
  | some (.live v) => some (.live v)
  | _ => none

/-- What an entry says. -/
def Entry.found (e : Entry) : Found :=
  match e.type with
  | .put => .live e.value
  | .delete => .gone

/-- What a source that speaks says: its entry, or that a range covers the key. -/
def heard (said : Option Entry) : Found := said.elim .gone Entry.found

/-- The entry of a key. -/
abbrev findEntry (k : Key) (entries : List Entry) : Option Entry :=
  SortedMap.find Entry.key k entries

/-- A source's own entry, else whether its ranges cover the key. -/
def tells (entries : List Entry) (ranges : List RangeTombstone) (k : Key) : Option Found :=
  match findEntry k entries with
  | some e => some e.found
  | none => if Span.Covered ranges k then some .gone else none

variable {entries : List Entry} {k : Key}

theorem tells_of_find {e : Entry} (h : findEntry k entries = some e)
    (ranges : List RangeTombstone) : tells entries ranges k = some e.found := by
  simp [tells, h]

theorem tells_of_find_none (h : findEntry k entries = none) (ranges : List RangeTombstone) :
    tells entries ranges k = if Span.Covered ranges k then some .gone else none := by
  simp [tells, h]

variable {ranges : List RangeTombstone}

theorem tells_congr {entries' : List Entry} {ranges' : List RangeTombstone}
    (he : findEntry k entries = findEntry k entries')
    (hr : Span.Covered ranges k ↔ Span.Covered ranges' k) :
    tells entries ranges k = tells entries' ranges' k := by
  unfold tells
  rw [he]
  simp only [hr]

/-- Keys, and the point just above each. -/
abbrev Edge := Key ×ₗ Bool

/-- The key itself. -/
def atKey (k : Key) : Edge := toLex (k, false)

/-- The point just above it. -/
def aboveKey (k : Key) : Edge := toLex (k, true)

variable {l : Key}

@[simp] theorem atKey_le_atKey : atKey k ≤ atKey l ↔ k ≤ l := by
  simp [atKey, Prod.Lex.toLex_le_toLex, ← le_iff_lt_or_eq]

@[simp] theorem atKey_lt_atKey : atKey k < atKey l ↔ k < l := by
  simp [atKey, Prod.Lex.toLex_lt_toLex]

@[simp] theorem aboveKey_le_atKey : aboveKey k ≤ atKey l ↔ k < l := by
  simp [atKey, aboveKey, Prod.Lex.toLex_le_toLex]

@[simp] theorem atKey_lt_aboveKey : atKey k < aboveKey l ↔ k ≤ l := by
  simp [atKey, aboveKey, Prod.Lex.toLex_lt_toLex, ← le_iff_lt_or_eq]

@[simp] theorem atKey_le_aboveKey : atKey k ≤ aboveKey l ↔ k ≤ l := by
  simp [atKey, aboveKey, Prod.Lex.toLex_le_toLex, ← le_iff_lt_or_eq]

@[simp] theorem aboveKey_le_aboveKey : aboveKey k ≤ aboveKey l ↔ k ≤ l := by
  simp [aboveKey, Prod.Lex.toLex_le_toLex, ← le_iff_lt_or_eq]

/-- The edges of an entry. -/
def entryCell (e : Entry) : Span Edge := ⟨atKey e.key, aboveKey e.key⟩

/-- The edges of a range; its upper bound is excluded. -/
def rangeCell (r : RangeTombstone) : Span Edge := ⟨atKey r.lower, atKey r.upper⟩

/-- What a source speaks about. -/
def cells (entries : List Entry) (ranges : List RangeTombstone) : List (Span Edge) :=
  entries.map entryCell ++ ranges.map rangeCell

@[simp] theorem entryCell_contains {e : Entry} : (entryCell e).Contains (atKey k) ↔ e.key = k := by
  simp only [entryCell, Span.Contains, atKey_le_atKey, atKey_lt_aboveKey]
  exact ⟨fun h => le_antisymm h.1 h.2, fun h => h ▸ ⟨le_rfl, le_rfl⟩⟩

@[simp] theorem rangeCell_contains {r : RangeTombstone} :
    (rangeCell r).Contains (atKey k) ↔ r.Contains k := by
  simp [rangeCell, Span.Contains]

theorem covered_cells :
    Span.Covered (cells entries ranges) (atKey k) ↔
      (∃ e ∈ entries, e.key = k) ∨ Span.Covered ranges k := by
  simp only [cells, Span.covered_append]
  refine or_congr ?_ ?_ <;> simp [Span.Covered]

theorem tells_ne_none_iff :
    tells entries ranges k ≠ none ↔ Span.Covered (cells entries ranges) (atKey k) := by
  rw [covered_cells]
  cases h : findEntry k entries with
  | some e =>
    rw [tells_of_find h]
    have : ∃ e ∈ entries, e.key = k := by
      by_contra hno
      push Not at hno
      simp [SortedMap.find_eq_none_iff Entry.key |>.2 hno] at h
    simp [this]
  | none =>
    rw [tells_of_find_none h]
    have : ¬ ∃ e ∈ entries, e.key = k := by
      simpa using SortedMap.find_eq_none_iff Entry.key |>.1 h
    simp [this]

theorem tells_of_before {es fs : List Entry} {rs ts : List RangeTombstone}
    (h : Span.Before (cells es rs) (cells fs ts)) (k : Key) :
    tells es rs k = none ∨ tells fs ts k = none := by
  by_contra hno
  push Not at hno
  exact h.not_covered (tells_ne_none_iff.1 hno.1) (tells_ne_none_iff.1 hno.2)

end ElysiumKV
