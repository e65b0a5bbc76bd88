import ElysiumKV.Db

/-!
# Scans

`DbIterator` as `make_iterator` builds it: a child per memtable and overlapping file, and below
level 0, without range tombstones, one concatenating child for the level. `dir` gives the keys the
scan's order, so both directions run the same merge.
-/

namespace ElysiumKV

open Merge

namespace Version

/-- `overlapping_half_open`; empty `upper` is no bound. -/
def overlappingHalfOpen (v : Version) (level : ℕ) (lower upper : Key) : List FileMetadata :=
  (v.filesAt level).filter fun f =>
    let dataOverlaps := !(f.largestKey < lower) && !(upper ≠ [] && upper ≤ f.smallestKey)
    let rangesOverlap := f.numRangeTombstones ≠ 0 && !(f.largestRangeKey ≤ lower) &&
      !(upper ≠ [] && upper ≤ f.smallestRangeKey)
    dataOverlaps || rangesOverlap

/-- `overlapping_index_range`, as files. -/
def overlappingIndexRange (v : Version) (level : ℕ) (lower upper : Key) : List FileMetadata :=
  let files := (v.filesAt level).dropWhile fun f => f.largestKey < lower
  if upper = [] then files else files.takeWhile fun f => f.smallestKey < upper

end Version

/-- Files that do not open or whose range tombstones are not read, and files with a block not read
after some entries. -/
structure Faults where
  opening : FileMetadata → Option Failure := fun _ => none
  reading : FileMetadata → Option (ℕ × Failure) := fun _ => none

/-- The entries read, and the status after them. -/
def cutShort (fault : Option (ℕ × Failure)) (entries : List Entry) : List Entry × Status :=
  match fault with
  | none => (entries, .ok)
  | some (n, status) => (entries.take n, status)

/-- An opened file: its entries in scan order, and how reading fails. -/
structure OpenFile where
  entries : List Entry
  fault : Option (ℕ × Failure) := none

/-- An iterator under the merge, with its entries ahead. -/
inductive ScanStream
  /-- A memtable or an open file, and the status once it is passed. -/
  | source (ahead : List Entry) (ending : Status)
  /-- `ErrorIterator` -/
  | failed (status : Failure)
  /-- `ConcatIterator`: what the file it is in has ahead and the status once that is passed, and
  what opening each of the files after it gives. -/
  | concat (inner : List Entry) (ending : Status) (files : List (Except Failure OpenFile))

namespace ScanStream

/-- The loops of `ConcatIterator`: files in turn, up to one with an entry; one that fails is not
passed over. -/
def enterFrom (start : List Entry → List Entry) : List (Except Failure OpenFile) → ScanStream
  | [] => .concat [] .ok []
  | .error status :: _ => .concat [] status []
  | .ok file :: files => match cutShort file.fault (start file.entries) with
    | ([], .ok) => enterFrom start files
    | ([], status) => .concat [] status []
    | (e :: rest, ending) => .concat (e :: rest) ending files

/-- The entry it stands on. -/
def head : ScanStream → Option Entry
  | .source ahead _ => ahead.head?
  | .failed _ => none
  | .concat inner _ _ => inner.head?

/-- `next`. -/
def next : ScanStream → ScanStream
  | .source ahead ending => .source ahead.tail ending
  | .failed status => .failed status
  | .concat [] ending files => .concat [] ending files
  | .concat [_] .ok files => enterFrom id files
  | .concat [_] ending _ => .concat [] ending []
  | .concat (_ :: e :: rest) ending files => .concat (e :: rest) ending files

/-- `status`. -/
def status : ScanStream → Status
  | .source [] ending => ending
  | .source (_ :: _) _ => .ok
  | .failed status => status
  | .concat [] ending _ => ending
  | .concat (_ :: _) _ _ => .ok

/-- What can be read of the files, and the status after. -/
def readable (start : List Entry → List Entry) :
    List (Except Failure OpenFile) → List Entry × Status
  | [] => ([], .ok)
  | .error status :: _ => ([], status)
  | .ok file :: files => match cutShort file.fault (start file.entries) with
    | ([], .ok) => readable start files
    | (e :: rest, .ok) => (e :: rest ++ (readable id files).1, (readable id files).2)
    | (entries, status) => (entries, status)

/-- All the stream has ahead, and its status after. -/
def whole : ScanStream → List Entry × Status
  | .source ahead ending => (ahead, ending)
  | .failed status => ([], status)
  | .concat [] ending _ => ([], ending)
  | .concat (e :: rest) .ok files =>
    (e :: rest ++ (readable id files).1, (readable id files).2)
  | .concat (e :: rest) ending _ => (e :: rest, ending)

theorem whole_enterFrom (start : List Entry → List Entry) (files : List (Except Failure OpenFile)) :
    (enterFrom start files).whole = readable start files := by
  induction files with
  | nil => rfl
  | cons file files ih => cases file with
    | error status => rfl
    | ok file =>
      unfold enterFrom readable
      obtain ⟨entries, status⟩ := cutShort file.fault (start file.entries)
      cases entries <;> cases status <;> first | exact ih | rfl

theorem whole_next (stream : ScanStream) :
    stream.next.whole = (stream.whole.1.tail, stream.whole.2) := by
  match stream with
  | .source _ _ => rfl
  | .failed _ => rfl
  | .concat [] _ _ => rfl
  | .concat [_] ending files =>
    cases ending <;> first | exact whole_enterFrom id files | rfl
  | .concat (_ :: _ :: _) ending _ => cases ending <;> rfl

theorem head_eq (stream : ScanStream) : stream.head = stream.whole.1.head? := by
  match stream with
  | .source _ _ => rfl
  | .failed _ => rfl
  | .concat [] _ _ => rfl
  | .concat (_ :: _) ending _ => cases ending <;> rfl

theorem status_eq (stream : ScanStream) :
    stream.status = if stream.whole.1 = [] then stream.whole.2 else .ok := by
  match stream with
  | .source [] _ => rfl
  | .source (_ :: _) _ => rfl
  | .failed _ => rfl
  | .concat [] _ _ => rfl
  | .concat (_ :: _) ending _ => cases ending <;> rfl

/-- The streams as a cursor. -/
def cursor : Cursor ScanStream Entry where
  head := head
  next := next
  ahead stream := stream.whole.1
  head_eq := head_eq
  ahead_next stream := congrArg Prod.fst (whole_next stream)

end ScanStream

section Direction

variable {κ : Type} [LinearOrder κ] (dir : Key ≃ κ) (reverse : Bool)

/-- In the order of the scan. -/
def orient {α : Type} (l : List α) : List α := if reverse then l.reverse else l

/-- The key a file ends with in scan order. -/
def farEdge (f : FileMetadata) : Key := if reverse then f.smallestKey else f.largestKey

/-- `seek_to_first`, `seek`, `seek_to_last` and `seek_for_prev`, in scan order. -/
def position (target : Option Key) (entries : List Entry) : List Entry :=
  match target with
  | none => entries
  | some t => entries.dropWhile fun e => dir e.key < dir t

/-- The keys of entries, in the order of the scan. -/
def scanKey (e : Entry) : κ := dir e.key

/-- A child that reads a memtable or an open file. -/
def sourceChild (target : Option Key) (fault : Option (ℕ × Failure)) (source : Sst) :
    Child ScanStream κ where
  stream :=
    let read := cutShort fault (position dir target (orient reverse source.entries))
    .source read.1 read.2
  covers k := source.rangeDeletes (dir.symm k)

end Direction

/-- The loop of `prefix_upper_bound`, from the last byte. -/
def incrementLast : List UInt8 → Option (List UInt8)
  | [] => none
  | c :: rest => if c ≠ 0xFF then some ((c + 1) :: rest) else incrementLast rest

/-- `prefix_upper_bound`: none for `0xFF` bytes only. -/
def prefixUpperBound (start : Key) : Option Key :=
  (incrementLast start.reverse).map List.reverse

namespace Db

variable (options : Options) (faults : Faults) (db : Db)

/-- `reader_for`. -/
def readerFor (file : FileMetadata) : Except Failure Sst :=
  match faults.opening file with
  | some status => .error status
  | none => match db.objects file.fileNumber with
    | none => .error (if options.storeIsDiscardable file.storeId then ⟨.unusable, nofun⟩
        else ⟨.corrupt, nofun⟩)
    | some sst => .ok sst

section Iterator

variable {κ : Type} [LinearOrder κ] (dir : Key ≃ κ) (reverse : Bool)

/-- A child for one file. -/
def fileChild (target : Option Key) (file : FileMetadata) : Child ScanStream κ :=
  match db.readerFor options faults file with
  | .error status => ⟨.failed status, fun _ => false⟩
  | .ok sst => sourceChild dir reverse target (faults.reading file) sst

/-- What a concatenating child opens. -/
def openFile (file : FileMetadata) : Except Failure OpenFile :=
  (db.readerFor options faults file).map fun sst =>
    ⟨orient reverse sst.entries, faults.reading file⟩

/-- `make_concat_iterator`, past the files that end before the target. -/
def concatChild (target : Option Key) (files : List FileMetadata) : Child ScanStream κ where
  stream :=
    let entered := match target with
      | none => orient reverse files
      | some t => (orient reverse files).dropWhile fun f => dir (farEdge reverse f) < dir t
    ScanStream.enterFrom (position dir target) (entered.map (db.openFile options faults reverse))
  covers _ := false

/-- The children of a level. -/
def levelChildren (target : Option Key) (lower upper : Key) (level : ℕ) :
    List (Child ScanStream κ) :=
  if 0 < level ∧ db.version.carriesRanges level = false then
    match db.version.overlappingIndexRange level lower upper with
    | [] => []
    | f :: files => [db.concatChild options faults dir reverse target (f :: files)]
  else
    (db.version.overlappingHalfOpen level lower upper).map
      (db.fileChild options faults dir reverse target)

/-- The children of `make_iterator`. -/
def scanChildren (target : Option Key) (lower upper : Key) : List (Child ScanStream κ) :=
  ((db.mem :: db.imm.toList).map fun m =>
    sourceChild dir reverse target none ⟨m.entries, m.rangeTombstones⟩) ++
  (List.range db.version.numLevels).flatMap
    (db.levelChildren options faults dir reverse target lower upper)

/-- `status` of the merge. -/
def scanStatus (children : List (Child ScanStream κ)) : Status :=
  ((children.map fun c => c.stream.status).find? (· ≠ .ok)).getD .ok

/-- `start`: a reverse scan's upper bound is excluded. -/
def startScan (upper : Key) (hasUpper : Bool) (x : State ScanStream κ) : State ScanStream κ :=
  if reverse && hasUpper then
    match x.element ScanStream.cursor with
    | none => x
    | some e => if e.key < upper then x else x.next ScanStream.cursor (scanKey dir)
  else x

/-- The scan has left its range. -/
def outOfRange (lower upper : Key) (hasUpper : Bool) (key : Key) : Bool :=
  if reverse then key < lower else hasUpper && !(key < upper)

/-- The pairs of `while (next())` and where the merge then is; deletions are skipped. -/
def drain (out : Key → Bool) :
    ℕ → State ScanStream κ → List (Key × Value) × State ScanStream κ
  | 0, x => ([], x)
  | fuel + 1, x => match x.element ScanStream.cursor with
    | none => ([], x)
    | some e =>
      if out e.key then ([], x)
      else
        let rest := drain out fuel (x.next ScanStream.cursor (scanKey dir))
        match e.type with
        | .put => ((e.key, e.value) :: rest.1, rest.2)
        | .delete => rest

/-- The lower bound, not below the truncation point. -/
def clampScan (lower : Key) : Key :=
  if db.version.truncationPoint ≠ [] ∧ (lower = [] ∨ lower < db.version.truncationPoint) then
    db.version.truncationPoint
  else lower

/-- Where a scan is positioned. -/
def scanTarget (lower upper : Key) (hasUpper : Bool) : Option Key :=
  if reverse then if hasUpper then some upper else none
  else if lower = [] then none else some lower

/-- `while (next())`, and the status then. -/
def runScan (lower upper : Key) (hasUpper : Bool) (children : List (Child ScanStream κ)) :
    List (Key × Value) × Status :=
  let steps := remaining ScanStream.cursor children
  let x := startScan dir reverse upper hasUpper
    (pick ScanStream.cursor (scanKey dir) steps children)
  let drained := drain dir (outOfRange reverse lower upper hasUpper) steps x
  (drained.1, scanStatus drained.2.children)

/-- A scan to its end, and its status. -/
def scanWith (lower upper : Key) (hasUpper : Bool) : List (Key × Value) × Status :=
  if db.readsAreBlocked options then ([], .recoveryRequired)
  else
    let lower := db.clampScan lower
    let target := scanTarget reverse lower upper hasUpper
    runScan dir reverse lower upper hasUpper
      (db.scanChildren options faults dir reverse target lower upper)

end Iterator

/-- `make_iterator`, run to its end; no `hasUpper`, empty `upper`. -/
def scan (lower upper : Key) (hasUpper reverse : Bool) : List (Key × Value) × Status :=
  if reverse then db.scanWith options faults OrderDual.toDual true lower upper hasUpper
  else db.scanWith options faults (Equiv.refl Key) false lower upper hasUpper

/-- `iterator` and `reverse_iterator` while reads may fail. -/
def iteratorUnder (lower : Key) (upper : Option Key) (reverse : Bool) :
    List (Key × Value) × Status :=
  db.scan options faults lower (upper.getD []) upper.isSome reverse

/-- `iterator` and `reverse_iterator`. -/
def iterator (lower : Key) (upper : Option Key) (reverse : Bool) : List (Key × Value) × Status :=
  db.iteratorUnder options {} lower upper reverse

/-- `prefix_iterator` and `reverse_prefix_iterator`. -/
def prefixIterator (start : Key) (reverse : Bool) : List (Key × Value) × Status :=
  db.iterator options start (prefixUpperBound start) reverse

end Db

end ElysiumKV
