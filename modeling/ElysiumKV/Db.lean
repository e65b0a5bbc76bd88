import ElysiumKV.Memtable
import ElysiumKV.Compaction

/-!
# The store: writes, flushes, maintenance and reads

One open instance, the manifest taken at its interface. Recency is positional: `get` asks the
memtables, then level 0 by descending file number, then each deeper level.
-/

namespace ElysiumKV

/-- The state of one open instance. -/
structure Db where
  mem : Memtable := {}
  imm : Option Memtable := none
  version : Version := {}
  nextFileNumber : ℕ := 1
  writeFloor : Key := []
  establishedWatermark : Option ℕ := none
  requiresRecovery : Bool := false
  objects : ℕ → Option Sst := fun _ => none

/-- What the surroundings decide about a file: its store, its sealing, the time. -/
structure WriteEnv where
  storeId : ℕ → Bytes := fun _ => []
  encryptionProvider : Bytes := []
  encryptionMetadata : ℕ → Bytes := fun _ => []
  nowMs : ℕ := 0

namespace Db

variable (options : Options) (env : WriteEnv)

/-- `check_entry_size`. -/
def checkEntrySize (key : Key) (value : Value) : Status :=
  if maxKeyBytes < key.length then .config
  else if maxValueBytes < value.length then .config
  else .ok

variable (db : Db)

/-- `check_below_truncation`. -/
def checkBelowTruncation (key : Key) : Status :=
  if db.writeFloor ≠ [] ∧ key < db.writeFloor then .config else .ok

/-- `put`. -/
def put (key : Key) (value : Value) : Status × Db :=
  match checkEntrySize key value with
  | .ok => match db.checkBelowTruncation key with
    | .ok => (.ok, { db with mem := db.mem.put key value })
    | status => (status, db)
  | status => (status, db)

/-- `remove`. -/
def remove (key : Key) : Status × Db :=
  match checkEntrySize key [] with
  | .ok => match db.checkBelowTruncation key with
    | .ok => (.ok, { db with mem := db.mem.remove key })
    | status => (status, db)
  | status => (status, db)

/-- A range delete's lower bound, narrowed to what is not truncated. -/
def clampLower (floor lower : Key) : Key := if floor ≠ [] ∧ lower < floor then floor else lower

/-- `delete_range`. -/
def deleteRange (lower upper : Key) : Status × Db :=
  match checkEntrySize lower [] with
  | .ok => match checkEntrySize upper [] with
    | .ok =>
      let lower := clampLower db.version.truncationPoint lower
      if lower < upper then (.ok, { db with mem := db.mem.deleteRange lower upper }) else (.ok, db)
    | status => (status, db)
  | status => (status, db)

/-- `WriteBatch::Op` -/
inductive BatchOp
  | put (key : Key) (value : Value)
  | remove (key : Key)
  | deleteRange (lower upper : Key)
deriving DecidableEq, Repr

/-- The check of one operation. -/
def checkOp : BatchOp → Status
  | .put key value => match checkEntrySize key value with
    | .ok => db.checkBelowTruncation key
    | status => status
  | .remove key => match checkEntrySize key [] with
    | .ok => db.checkBelowTruncation key
    | status => status
  | .deleteRange lower upper => match checkEntrySize lower [] with
    | .ok => checkEntrySize upper []
    | status => status

/-- The first operation refused decides the status. -/
def checkBatch (db : Db) : List BatchOp → Status
  | [] => .ok
  | op :: ops => match db.checkOp op with
    | .ok => db.checkBatch ops
    | status => status

/-- One operation on the memtable, ranges clamped to the floor. -/
def applyOp (floor : Key) (mem : Memtable) : BatchOp → Memtable
  | .put key value => mem.put key value
  | .remove key => mem.remove key
  | .deleteRange lower upper => mem.deleteRange (clampLower floor lower) upper

/-- `write`: all is validated before anything is applied. -/
def write (batch : List BatchOp) : Status × Db :=
  match db.checkBatch batch with
  | .ok => (.ok, { db with mem := batch.foldl (applyOp db.writeFloor) db.mem })
  | status => (status, db)

/-! ### Version changes -/

/-- `VersionSet::apply` at its interface, stamped with the counter. -/
def applyEdit (edit : VersionEdit) : Db :=
  { db with version := db.version.apply { edit with nextFileNumber := db.nextFileNumber } }

/-- `truncate_below`. -/
def truncateBelow (key : Key) : Status × Db :=
  if key = [] then (.ok, db)
  else if db.writeFloor < key then
    (.ok, { db with writeFloor := key }.applyEdit { truncationPoint := key })
  else (.ok, db)

/-- A fresh memtable. -/
def newMemtable : Memtable :=
  { creationTimeMs := env.nowMs
    watermark := match db.establishedWatermark with
      | none => {}
      | some m => ⟨some m, some m⟩ }

/-- `seal_memtable`. -/
def sealMemtable : Db :=
  { db with
    imm := some { db.mem with sealedTimeMs := env.nowMs }
    mem := db.newMemtable env }

/-- The metadata of a file written under `fileNumber`. -/
def fileOf (level fileNumber : ℕ) (built : SstBuildResult) (minWriteTimeMs maxWriteTimeMs : ℕ)
    (watermark : WatermarkInterval) : FileMetadata where
  level := level
  fileNumber := fileNumber
  storeId := env.storeId fileNumber
  smallestKey := built.smallestKey
  largestKey := built.largestKey
  fileBytes := options.fileBytes level built.sst
  numEntries := built.numEntries
  numTombstones := built.numTombstones
  numRangeTombstones := built.numRangeTombstones
  smallestRangeKey := built.smallestRangeKey
  largestRangeKey := built.largestRangeKey
  compression := options.compression level
  minWriteTimeMs := minWriteTimeMs
  maxWriteTimeMs := maxWriteTimeMs
  watermark := watermark
  encryptionProvider := env.encryptionProvider
  encryptionMetadata := env.encryptionMetadata fileNumber

/-- `write_new_sst` onto a healthy store, under the next number. -/
def writeNewSst (sst : Sst) : Db :=
  { db with
    nextFileNumber := db.nextFileNumber + 1
    objects := fun n => if n = db.nextFileNumber then some sst else db.objects n }

/-- `flush_memtable`. -/
def flushMemtable (memtable : Memtable) : Db :=
  let built := buildSst memtable.entries false memtable.rangeTombstones
  if built.numEntries = 0 ∧ built.numRangeTombstones = 0 then db
  else
    let file := fileOf options env 0 db.nextFileNumber built memtable.creationTimeMs
      memtable.sealedTimeMs memtable.watermark
    (db.writeNewSst built.sst).applyEdit { added := [file] }

/-- `run_one_flush`: the memtable goes once its file is installed. -/
def runOneFlush : Db :=
  match db.imm with
  | none => db
  | some memtable => { db.flushMemtable options env memtable with imm := none }

/-! ### Maintenance -/

/-- Whether `reclaim_dead_files` drops a candidate: several ranges of the cover are read one by one.
-/
def confirmsDrop (candidate : Version.RangeDropCandidate) : Bool :=
  candidate.exact ||
    match db.objects candidate.cover.fileNumber with
    | none => false
    | some cover => cover.ranges.any fun r =>
        r.lower ≤ candidate.file.smallestKey && candidate.file.largestKey < r.upper

/-- `reclaim_dead_files`, with no ttl configured. -/
def reclaimDeadFiles : Db :=
  let dead := db.version.filesEntirelyTruncated ++
    (db.version.rangeDropCandidates.filter db.confirmsDrop).map Version.RangeDropCandidate.file
  if dead = [] then db
  else db.applyEdit { deleted := dead.map fun f => ⟨f.level, f.fileNumber⟩ }

/-- A copy of the object under a fresh number, with changed metadata. -/
def replaceFile (file : FileMetadata) (moved : ℕ → FileMetadata) : Db :=
  match db.objects file.fileNumber with
  | none => db
  | some sst =>
    (db.writeNewSst sst).applyEdit
      { deleted := [⟨file.level, file.fileNumber⟩], added := [moved db.nextFileNumber] }

/-- `run_migration`: a copy onto another tier's store. -/
def runMigration (file : FileMetadata) (target : Bytes) : Db :=
  if target = file.storeId then db
  else db.replaceFile file fun number => { file with fileNumber := number, storeId := target }

/-- `run_reencryption`: the same contents under the primary provider. -/
def runReencryption (file : FileMetadata) : Db :=
  db.replaceFile file fun number =>
    { file with
      fileNumber := number
      encryptionProvider := env.encryptionProvider
      encryptionMetadata := env.encryptionMetadata number }

/-- The inputs' contents, newest first; `none` if one is missing. -/
def sourcesOf (files : List FileMetadata) : Option (List Sst) :=
  files.mapM fun f => db.objects f.fileNumber

/-- The outputs as files, numbered from the counter on. -/
def nameOutputs (c : Compaction) (number : ℕ) : List SstBuildResult → List FileMetadata
  | [] => []
  | built :: rest =>
    fileOf options env c.outputLevel number built c.minWriteTimeMs c.maxWriteTimeMs c.watermark ::
      nameOutputs c (number + 1) rest

/-- `run_compaction`. -/
def runCompaction (c : Compaction) : Db :=
  let pointers := [(c.level, c.largestKey)]
  if c.trivialMove then
    match c.inputs with
    | [] => db
    | moved :: _ => db.applyEdit
        { compactionPointers := pointers
          deleted := [⟨c.level, moved.fileNumber⟩]
          added := [{ moved with level := c.outputLevel }] }
  else
    match db.sourcesOf c.allInputs with
    | none => db
    | some sources =>
      let built := c.writeCompactionOutputs options db.version.truncationPoint sources
      let outputs := nameOutputs options env c db.nextFileNumber built
      (built.foldl (fun db b => db.writeNewSst b.sst) db).applyEdit
        { compactionPointers := pointers
          deleted := c.inputs.map (fun f => ⟨c.level, f.fileNumber⟩) ++
            c.overlaps.map fun f => ⟨c.outputLevel, f.fileNumber⟩
          added := outputs }

/-! ### Reads -/

/-- `reads_are_blocked`. -/
def readsAreBlocked : Bool := db.requiresRecovery && !options.allowReadsBeforeRecovery

/-- `file_may_contain`. -/
def fileMayContain (file : FileMetadata) (key : Key) : Bool :=
  !(key < file.smallestKey) && !(file.largestKey < key)

/-- What one file says: nothing, an answer, or a failure to open it. -/
def searchFile (key : Key) (file : FileMetadata) : Except Status (Option Found) :=
  let mayHold := fileMayContain file key
  let mayCover := file.rangeMayCover key
  if !mayHold && !mayCover then .ok none
  else match db.objects file.fileNumber with
    | none => .error (if options.storeIsDiscardable file.storeId then .unusable else .corrupt)
    | some sst => match (if mayHold then sst.get key else none) with
      | some e => .ok (some e.found)
      | none => if mayCover && sst.rangeDeletes key then .ok (some .gone) else .ok none

/-- The files in order, up to the first that answers or fails. -/
def searchFiles (db : Db) (key : Key) : List FileMetadata → Except Status (Option Found)
  | [] => .ok none
  | file :: files => match db.searchFile options key file with
    | .ok none => db.searchFiles key files
    | result => result

/-- The files visited: below level 0 without range tombstones, the first that reaches the key. -/
def filesToSearch (v : Version) (level : ℕ) (key : Key) : List FileMetadata :=
  if 0 < level ∧ v.carriesRanges level = false then
    ((v.filesAt level).dropWhile fun f => f.largestKey < key).take 1
  else v.filesAt level

/-- The levels in order, up to the first that answers or fails. -/
def searchLevels (db : Db) (key : Key) : List ℕ → Except Status (Option Found)
  | [] => .ok none
  | level :: levels => match db.searchFiles options key (filesToSearch db.version level key) with
    | .ok none => db.searchLevels key levels
    | result => result

/-- The memtables, newest first; the point entry before the range. -/
def searchMemtables (key : Key) : List Memtable → Option Found
  | [] => none
  | m :: ms => match m.get key with
    | some e => some e.found
    | none => if m.rangeDeletes key then some .gone else searchMemtables key ms

/-- What a lookup returns. -/
def resultOf : Found → Except Status Value
  | .live v => .ok v
  | .gone => .error .notFound

/-- `get`. -/
def get (key : Key) : Except Status Value :=
  if db.readsAreBlocked options then .error .recoveryRequired
  else if db.version.truncated key then .error .notFound
  else match searchMemtables key (db.mem :: db.imm.toList) with
    | some found => resultOf found
    | none => match db.searchLevels options key (List.range db.version.numLevels) with
      | .error status => .error status
      | .ok (some found) => resultOf found
      | .ok none => .error .notFound

end Db

end ElysiumKV
