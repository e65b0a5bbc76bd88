import ElysiumKV.Catalog

/-!
# The version set

It recovers the version from a snapshot and edits, applies edits by writing them first, and rolls
generations. Methods are programs over `Call` under the manifest mutex. `history`, which the source
does not have, is the edits the version is made of.
-/

namespace ElysiumKV

open Program Program.Prog ManifestPayload

/-- Programs of these calls. -/
abbrev Manifest (ι α : Type) := Prog (Call ι) Call.Result α

namespace Manifest

variable {ι : Type}

/-- `read`. -/
abbrev read : Manifest ι (Except Status (Option CatalogEntry)) := ask Call.read

/-- `compare_and_set`. -/
abbrev compareAndSet (expected : Option CatalogEntry) (generation : ℕ) :
    Manifest ι (Except Status (Option CatalogEntry)) := ask (Call.compareAndSet expected generation)

/-- `put_snapshot`. -/
abbrev putSnapshot (generation : ℕ) (bytes : Bytes) (history : List (Record ι)) :
    Manifest ι Status := ask (Call.putSnapshot generation bytes history)

/-- `get_snapshot`. -/
abbrev getSnapshot (generation : ℕ) : Manifest ι (Except Status (Object (List (Record ι)))) :=
  ask (Call.getSnapshot generation)

/-- `put_edit`. -/
abbrev putEdit (generation seq : ℕ) (bytes : Bytes) (id : ι) : Manifest ι Status :=
  ask (Call.putEdit generation seq bytes id)

/-- `get_edit`. -/
abbrev getEdit (generation seq : ℕ) : Manifest ι (Except Status (Object ι)) :=
  ask (Call.getEdit generation seq)

/-- `list_edits`. -/
abbrev listEdits (generation : ℕ) : Manifest ι (Except Status (List ℕ)) :=
  ask (Call.listEdits generation)

/-- `list_generations`. -/
abbrev listGenerations : Manifest ι (Except Status (List ℕ)) := ask Call.listGenerations

/-- `delete_generation`. -/
abbrev deleteGeneration (generation : ℕ) : Manifest ι Status := ask (Call.deleteGeneration generation)

/-- Randomness. -/
abbrev draw : Manifest ι ℕ := ask Call.draw

/-- The time. -/
abbrev clock : Manifest ι ℕ := ask Call.clock

/-- The tracked versions still held. -/
abbrev lock (tracked : List Version) : Manifest ι (List Version) := ask (Call.lock tracked)

/-- The deleter: what it gives back. -/
abbrev deleteObjects (files : List FileMetadata) : Manifest ι (List FileMetadata) :=
  ask (Call.deleteObjects files)

end Manifest

/-- `PendingDeletion`. -/
structure PendingDeletion where
  file : FileMetadata
  unreferencedSinceMs : ℕ := 0
deriving DecidableEq, Repr

/-- What a `VersionSet` is made with. -/
structure ManifestConfig where
  registry : FittingRegistry
  codecs : Compressors
  editsPerGeneration : ℕ := 1
  obsoleteRetentionMs : ℕ := 0
  /-- whether a deleter was given -/
  deletes : Bool := true

/-- `VersionSet`. -/
structure VersionSet (ι : Type) where
  current : Version := {}
  entry : Option CatalogEntry := none
  nextSeq : ℕ := 1
  liveVersions : List Version := []
  pendingDeletions : List PendingDeletion := []
  nextFileNumber : ℕ := 1
  fenced : Bool := false
  manifestPayloadsPendingReencryption : ℕ := 0
  lastError : String := ""
  history : List (Record ι) := []

namespace VersionSet

variable {ι : Type}

variable (config : ManifestConfig) (vs : VersionSet ι)

/-- The generation it is at. -/
def generation : ℕ :=
  match vs.entry with
  | none => 0
  | some entry => entry.generation

/-- `allocate_file_number`. -/
def allocateFileNumber : ℕ × VersionSet ι :=
  (vs.nextFileNumber, { vs with nextFileNumber := vs.nextFileNumber + 1 })

/-- `observe_file_number`. -/
def observeFileNumber (number : ℕ) : VersionSet ι :=
  if vs.nextFileNumber ≤ number then { vs with nextFileNumber := number + 1 } else vs

/-- `install`. -/
def install (version : Version) : VersionSet ι :=
  { vs with liveVersions := vs.liveVersions ++ [version], current := version }

/-! ### Rolling a generation -/

/-- What `write_snapshot_and_install` encodes. -/
def snapshotOf (version : Version) : VersionSnapshot where
  nextFileNumber := vs.nextFileNumber
  files := version.allFiles
  compactionPointers := version.compactionPointers
  truncationPoint := version.truncationPoint
  watermarkFloor := version.watermarkFloor

/-- `kSnapshotAttempts` -/
def snapshotAttempts : ℕ := 16

/-- The search for a free generation, with the attempts left: the one written, or what to return. -/
def putSnapshotLoop (config : ManifestConfig) (vs : VersionSet ι) (bytes : Bytes) :
    ℕ → ℕ → Manifest ι (Except (Status × VersionSet ι) ℕ)
  | 0, generation => pure (.ok generation)
  | attempts + 1, generation => do
    let draw ← Manifest.draw
    match sealPayload config.registry config.codecs generation draw (snapshotAddress generation)
        bytes with
    | .error status => pure (.error (status, vs))
    | .ok framed =>
      let status ← Manifest.putSnapshot generation framed vs.history
      match status with
      | .ok => pure (.ok generation)
      | .config =>
        -- an occupied address under an unmoved pointer is residue, so a fresh generation is tried
        let pointer ← Manifest.read
        match pointer with
        | .error status => pure (.error (status, vs))
        | .ok pointer =>
          if pointer ≠ vs.entry then pure (.error (.fenced, { vs with fenced := true }))
          else
            let generations ← Manifest.listGenerations
            match generations with
            | .error status =>
              if status ≠ .unsupported then pure (.error (status, vs))
              else if generation = 2 ^ 64 - 1 then pure (.error (.unusable, vs))
              else if attempts = 0 then pure (.error (.unusable, vs))
              else putSnapshotLoop config vs bytes attempts (generation + 1)
            | .ok generations =>
              let highest := generations.foldl max generation
              if highest = 2 ^ 64 - 1 then pure (.error (.unusable, vs))
              else if attempts = 0 then pure (.error (.unusable, vs))
              else putSnapshotLoop config vs bytes attempts (highest + 1)
      | status => pure (.error (status, vs))

theorem le_foldl_max (generations : List ℕ) (generation : ℕ) :
    generation ≤ generations.foldl max generation := by
  induction generations generalizing generation with
  | nil => exact le_rfl
  | cons g generations ih => exact (le_max_left generation g).trans (ih (max generation g))

/-- After an install: the entry is adopted, its predecessor deleted. -/
def adoptEntry (entry : CatalogEntry) : Manifest ι (Status × VersionSet ι) := do
  let adopted := { vs with entry := some entry, manifestPayloadsPendingReencryption := 0 }
  match vs.entry with
  | none => pure (.ok, adopted)
  | some previous =>
    let _ ← Manifest.deleteGeneration previous.generation
    pure (.ok, adopted)

/-- The compare-and-set, and the pointer read that resolves an ambiguous report. -/
def installGeneration (generation : ℕ) : Manifest ι (Status × VersionSet ι) := do
  let installed ← Manifest.compareAndSet vs.entry generation
  match installed with
  | .ok (some entry) => adoptEntry vs entry
  | .ok none => pure (.fenced, { vs with fenced := true })
  | .error .io =>
    let observed ← Manifest.read
    match observed with
    | .error status => pure (status, vs)
    | .ok observed =>
      match observed with
      | some entry =>
        if entry.generation = generation then adoptEntry vs entry
        else if vs.entry = some entry then pure (.io, vs)
        else pure (.fenced, { vs with fenced := true })
      | none =>
        if vs.entry = none then pure (.io, vs) else pure (.fenced, { vs with fenced := true })
  | .error status => pure (status, vs)

/-- `write_snapshot_and_install`. -/
def writeSnapshotAndInstall (generation : ℕ)
    (version : Version) : Manifest ι (Status × VersionSet ι) := do
  let bytes := encodeVersionSnapshot config.codecs (vs.snapshotOf version)
  let written ← putSnapshotLoop config vs bytes snapshotAttempts generation
  match written with
  | .error result => pure result
  | .ok generation => installGeneration vs generation

/-- `create`: generation 1 holding an empty version. -/
def create : Manifest ι (Status × VersionSet ι) := do
  let (status, vs) ← writeSnapshotAndInstall config vs 1 {}
  if status ≠ .ok then pure (status, vs)
  else pure (.ok, { vs with nextSeq := 1 }.install {})

/-- To the generation after the current one. -/
def roll (entry : CatalogEntry) (version : Version) : Manifest ι (Status × VersionSet ι) := do
  let (status, vs) ← writeSnapshotAndInstall config vs (entry.generation + 1) version
  if status ≠ .ok then pure (status, vs) else pure (.ok, { vs with nextSeq := 1 })

/-- `roll_generation_now`. -/
def rollGenerationNow : Manifest ι (Status × VersionSet ι) :=
  if vs.fenced then pure (.fenced, vs)
  else match vs.entry with
    | none => pure (.unusable, vs)
    | some entry =>
      if vs.nextSeq = 1 ∧ vs.manifestPayloadsPendingReencryption = 0 then pure (.ok, vs)
      else roll config vs entry vs.current

/-- `maybe_roll_generation`. -/
def maybeRollGeneration (entry : CatalogEntry)
    (version : Version) : Manifest ι (Status × VersionSet ι) :=
  if vs.nextSeq ≤ max 1 config.editsPerGeneration then pure (.ok, vs)
  else roll config vs entry version

/-! ### Obsolete files -/

/-- The files an edit removes and when; a number added again stays. -/
def queueDeletions (base : Version) (reAdded : List ℕ) :
    List FileRef → Manifest ι (List PendingDeletion)
  | [] => pure []
  | ref :: refs =>
    if ref.fileNumber ∈ reAdded then queueDeletions base reAdded refs
    else match (base.filesAt ref.level).find? fun f => f.fileNumber = ref.fileNumber with
      | none => queueDeletions base reAdded refs
      | some file => do
        let now ← Manifest.clock
        let rest ← queueDeletions base reAdded refs
        pure (⟨file, now⟩ :: rest)

/-- Still referenced, or inside the retention window. -/
def keeps (referenced : List ℕ) (now : ℕ) (p : PendingDeletion) : Bool :=
  p.file.fileNumber ∈ referenced ||
    (0 < config.obsoleteRetentionMs && p.unreferencedSinceMs ≤ now &&
      now - p.unreferencedSinceMs < config.obsoleteRetentionMs)

/-- `collect_obsolete_locked`. -/
def collectObsoleteLocked : Manifest ι (VersionSet ι) := do
  let live ← Manifest.lock vs.liveVersions
  let vs := { vs with liveVersions := live }
  if config.deletes = false ∨ vs.pendingDeletions = [] then pure vs
  else
    let alive ← Manifest.lock live
    let now ← Manifest.clock
    let referenced := alive.flatMap fun v => v.allFiles.map FileMetadata.fileNumber
    let stillPending := vs.pendingDeletions.filter (keeps config referenced now)
    let collectable := (vs.pendingDeletions.filter fun p => !keeps config referenced now p).map
      PendingDeletion.file
    if collectable = [] then
      pure { vs with liveVersions := alive, pendingDeletions := stillPending }
    else
      let failed ← Manifest.deleteObjects collectable
      pure { vs with liveVersions := alive,
                     pendingDeletions := stillPending ++ failed.map fun file => ⟨file, 0⟩ }

/-- `collect_obsolete`. -/
def collectObsolete : Manifest ι (VersionSet ι) :=
  collectObsoleteLocked config vs

/-! ### Applying an edit -/

/-- The edit is durable, its version installed. -/
def committed (id : ι) (edit : VersionEdit) (queued : List PendingDeletion) : VersionSet ι :=
  install { vs with
    nextSeq := vs.nextSeq + 1
    pendingDeletions := vs.pendingDeletions ++ queued
    history := vs.history ++ [⟨id, edit.normalized⟩] } (vs.current.apply edit)

/-- What `apply` does once the edit is durable. -/
def commitEdit (entry : CatalogEntry) (id : ι)
    (edit : VersionEdit) : Manifest ι (Status × VersionSet ι) := do
  let queued ← queueDeletions vs.current (edit.added.map FileMetadata.fileNumber) edit.deleted
  let (status, rolled) ← maybeRollGeneration config (vs.committed id edit queued) entry
    (vs.current.apply edit)
  let noted := if status ≠ .ok then
      { rolled with lastError := "manifest edit committed, but generation roll failed (" ++
          status.name ++ ")" }
    else rolled
  let collected ← collectObsoleteLocked config noted
  pure (.ok, collected)

/-- `apply`; `id` is the identity of this call. -/
def apply (id : ι) (edit : VersionEdit) : Manifest ι (Status × VersionSet ι) :=
  if vs.fenced then pure (.fenced, vs)
  else match vs.entry with
    | none => pure (.unusable, vs)
    | some entry => do
      let edit := { edit with nextFileNumber := vs.nextFileNumber }
      let draw ← Manifest.draw
      match sealPayload config.registry config.codecs entry.generation draw
          (editAddress entry.generation vs.nextSeq) (encodeVersionEdit config.codecs edit) with
      | .error status => pure (status, vs)
      | .ok framed =>
        let status ← Manifest.putEdit entry.generation vs.nextSeq framed id
        match status with
        | .ok => commitEdit config vs entry id edit
        -- an occupied address is another writer's edit
        | .config => pure (.fenced, { vs with fenced := true })
        | status => pure (status, vs)

/-! ### Recovery -/

/-- The version `recover` builds of a snapshot. -/
def ofSnapshot (snapshot : VersionSnapshot) : Version :=
  Version.apply
    { nextFileNumber := snapshot.nextFileNumber
      compactionPointers :=
        snapshot.compactionPointers.foldl (fun ps p => SortedMap.insert Prod.fst p ps) []
      truncationPoint := snapshot.truncationPoint
      watermarkFloor := snapshot.watermarkFloor } { added := snapshot.files }

/-- Whether a file recorded in plaintext is refused. -/
def refusesFiles (files : List FileMetadata) : Bool :=
  config.registry.refusesPlaintext && files.any fun f => f.encryptionProvider = []

/-- The text of that refusal. -/
def plaintextRefused : String := "plaintext SST metadata refused while encryption is required"

/-- A snapshot opened, decoded and checked, with its provider. -/
def readSnapshot (generation : ℕ) (bytes : Bytes) :
    Except (Status × String) (VersionSnapshot × Bytes) :=
  match openPayload config.registry config.codecs generation (snapshotAddress generation) bytes with
  | .error refusal => .error (refusal.status, refusal.why)
  | .ok (plain, provider) => match decodeVersionSnapshot config.codecs plain with
    | .error status => .error (status, "")
    | .ok snapshot =>
      if refusesFiles config snapshot.files then .error (.config, plaintextRefused)
      else .ok (snapshot, provider)

/-- What the replay makes of the bytes of an edit. -/
inductive EditReading
  | read (edit : VersionEdit) (provider : Bytes)
  | torn
  | refused (status : Status) (why : String)
deriving DecidableEq, Repr

/-- An edit in an error text. -/
def editText (generation seq : ℕ) : String :=
  "manifest generation " ++ toString generation ++ " edit " ++ toString seq

/-- An edit opened, decoded and checked; only the last may be torn. -/
def readEdit (generation seq : ℕ) (tail : Bool) (bytes : Bytes) :
    EditReading :=
  match openPayload config.registry config.codecs generation (editAddress generation seq) bytes with
  | .error refusal =>
    if refusal.status = .config ∨ refusal.status = .unsupported then
      .refused refusal.status refusal.why
    else if tail ∧ refusal.status = .corrupt then .torn
    else .refused .corrupt (editText generation seq ++ " is corrupt below the listed tail")
  | .ok (plain, provider) => match decodeVersionEdit config.codecs plain with
    | .error status =>
      if tail ∧ status = .corrupt then .torn
      else .refused (if status = .unsupported then .unsupported else .corrupt)
        (editText generation seq ++ " does not decode below the listed tail")
    | .ok edit =>
      if refusesFiles config edit.added then .refused .config plaintextRefused
      else .read edit provider

/-- What a recovery has assembled. -/
structure Assembled (ι : Type) where
  version : Version
  fileNumber : ℕ
  expectedSeq : ℕ
  staleManifestPayloads : ℕ
  history : List (Record ι)

/-- How the loop over the edits ends. -/
inductive ReplayEnd (ι : Type)
  | assembled (a : Assembled ι)
  | unreadable
  | missing (seq : ℕ)
  | refused (status : Status) (why : String)

/-- One more edit. -/
def Assembled.replay (a : Assembled ι) (config : ManifestConfig) (id : ι) (edit : VersionEdit)
    (provider : Bytes) : Assembled ι where
  version := a.version.apply edit
  fileNumber := if a.fileNumber < edit.nextFileNumber then edit.nextFileNumber else a.fileNumber
  expectedSeq := a.expectedSeq + 1
  staleManifestPayloads :=
    if provider ≠ config.registry.primary then a.staleManifestPayloads + 1
    else a.staleManifestPayloads
  history := a.history ++ [⟨id, edit⟩]

/-- The loop over the edits; `last` is the last listed. -/
def replayEdits (config : ManifestConfig) (generation : ℕ) (last : Option ℕ) :
    List ℕ → Assembled ι → Manifest ι (ReplayEnd ι)
  | [], a => pure (.assembled a)
  | seq :: seqs, a =>
    if seq ≠ a.expectedSeq then pure (.assembled a)
    else do
      let object ← Manifest.getEdit generation seq
      match object with
      | .error .notFound =>
        if last = some seq then pure (.assembled a) else pure (.missing seq)
      | .error _ => pure .unreadable
      | .ok object =>
        match readEdit config generation seq (last = some seq) object.bytes with
        | .torn => pure (.assembled a)
        | .refused status why => pure (.refused status why)
        | .read edit provider =>
          replayEdits config generation last seqs (a.replay config object.label edit provider)

/-- `last_error_` is set by failures with a text. -/
def noteError (why : String) : VersionSet ι :=
  if why = "" then vs else { vs with lastError := why }

/-- The pointer names another generation. -/
def movedFrom (generation : ℕ) (pointer : Option CatalogEntry) : Bool :=
  match pointer with
  | none => false
  | some entry => entry.generation ≠ generation

/-- Behind the view already held. -/
def behind (generation expectedSeq : ℕ) : Bool :=
  match vs.entry with
  | none => false
  | some entry =>
    generation < entry.generation || generation = entry.generation && expectedSeq < vs.nextSeq

/-- The set after a recovery. -/
def recovered (entry : CatalogEntry) (a : Assembled ι) : VersionSet ι :=
  install { vs with
    entry := some entry
    nextSeq := a.expectedSeq
    manifestPayloadsPendingReencryption := a.staleManifestPayloads
    nextFileNumber := a.fileNumber
    history := a.history } a.version

/-- What the snapshot gives. -/
def assembledSnapshot (snapshot : VersionSnapshot) (provider : Bytes)
    (history : List (Record ι)) : Assembled ι where
  version := ofSnapshot snapshot
  fileNumber := snapshot.nextFileNumber
  expectedSeq := 1
  staleManifestPayloads := if provider = config.registry.primary then 0 else 1
  history := history

/-- A result, another attempt, or a look into a failed result. -/
inductive AttemptEnd (ι : Type)
  | returned (result : Status × VersionSet ι)
  | again
  | usesFailed

/-- One attempt, from reading the pointer on. -/
def recoverAttempt : Manifest ι (AttemptEnd ι) := do
  let pointer ← Manifest.read
  match pointer with
  | .error status => pure (.returned (status, vs))
  | .ok none => pure (.returned (.notFound, vs))
  | .ok (some entry) =>
    let object ← Manifest.getSnapshot entry.generation
    match object with
    | .error .notFound =>
      let moved ← Manifest.read
      match moved with
      | .error status => pure (.returned (status, vs))
      | .ok moved =>
        if movedFrom entry.generation moved then pure .again
        else pure (.returned (.corrupt, vs))
    | .error status => pure (.returned (status, vs))
    | .ok object =>
      match readSnapshot config entry.generation object.bytes with
      | .error (status, why) => pure (.returned (status, vs.noteError why))
      | .ok (snapshot, provider) =>
        let seqs ← Manifest.listEdits entry.generation
        match seqs with
        | .error status => pure (.returned (status, vs))
        | .ok seqs =>
          let sorted := seqs.insertionSort (· ≤ ·)
          let replayed ← replayEdits config entry.generation sorted.getLast? sorted
            (assembledSnapshot config snapshot provider object.label)
          match replayed with
          | .refused status why => pure (.returned (status, vs.noteError why))
          | .unreadable =>
            let moved ← Manifest.read
            match moved with
            -- unlike after the other reads, the source does not ask whether this one failed
            | .error _ => pure .usesFailed
            | .ok moved =>
              if movedFrom entry.generation moved then pure .again
              else pure (.returned (.io, vs))
          | .missing seq =>
            let moved ← Manifest.read
            match moved with
            | .error status => pure (.returned (status, vs))
            | .ok moved =>
              if movedFrom entry.generation moved then pure .again
              else pure (.returned (.corrupt, { vs with lastError := editText entry.generation seq ++
                " is missing below the listed tail" }))
          | .assembled a =>
            let after ← Manifest.read
            match after with
            | .error status => pure (.returned (status, vs))
            | .ok none => pure (.returned (.notFound, vs))
            | .ok (some after) =>
              if after.generation ≠ entry.generation then pure .again
              else if vs.behind entry.generation a.expectedSeq then
                pure (.returned (.corrupt, vs))
              else pure (.returned (.ok, vs.recovered entry a))

/-- `kRecoverAttempts` -/
def recoverAttempts : ℕ := 4

/-- The attempts left; a failed result looked into is taken to hold no pointer. -/
def recoverLoop (config : ManifestConfig) (vs : VersionSet ι) :
    ℕ → Manifest ι (Status × VersionSet ι)
  | 0 => pure (.stale, vs)
  | attempts + 1 => do
    match ← recoverAttempt config vs with
    | .returned result => pure result
    | .again => recoverLoop config vs attempts
    | .usesFailed => pure (.io, vs)

/-- `recover`. -/
def recover : Manifest ι (Status × VersionSet ι) :=
  recoverLoop config vs recoverAttempts

end VersionSet

end ElysiumKV
