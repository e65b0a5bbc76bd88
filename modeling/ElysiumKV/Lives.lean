import ElysiumKV.StoreLoss
import ElysiumKV.WatermarkRuns

/-!
# The lives of a store

Writes, flushes, compactions, crashes, lost objects and reopens. The manifest is taken at its
interface: an open finds the version installed last, and loses both memtables.
-/

namespace ElysiumKV

open Opening

open List

namespace Db

/-- Stores lose their objects. -/
def lose (db : Db) (lost : Bytes → Bool) : Db :=
  { db with objects := fun n =>
      if db.version.allFiles.any fun f => f.fileNumber = n && lost f.storeId then none
      else db.objects n }

/-- The listings show which objects are there. -/
def Lists (db : Db) (listing : Listing) : Prop :=
  ∀ f ∈ db.version.allFiles, listing.holds f = (db.objects f.fileNumber).isSome

instance (db : Db) (listing : Listing) : Decidable (db.Lists listing) :=
  inferInstanceAs (Decidable (∀ f ∈ db.version.allFiles, _))

/-- The instance an open leaves, its memtable bounded by the recovered position. -/
def reopened (db : Db) (x : Opening) (nowMs : ℕ) : Db where
  mem :=
    { creationTimeMs := nowMs
      watermark := match x.recoveredWatermark with
        | none => {}
        | some m => ⟨some m, some m⟩ }
  version := x.version
  nextFileNumber := x.nextFileNumber
  writeFloor := x.version.truncationPoint
  establishedWatermark := x.recoveredWatermark
  requiresRecovery := x.requiresRecovery
  objects := db.objects

/-- `mark_recovery_complete`, its edit being accepted. -/
def markRecoveryComplete (db : Db) : Db :=
  let db := { db with requiresRecovery := false }
  if db.version.watermarkFloor.isSome then db.applyEdit { floorUpdate := .clear } else db

end Db

/-- Files are placed on stores of the tiers. -/
def Op.Places (tiers : ResolvedTiers) (env : WriteEnv) (op : Op) : Prop :=
  (∀ n, env.storeId n ∈ tiers.stores) ∧
    ∀ file target, op = .runMigration file target → target ∈ tiers.stores

/-- Its files are taken from the version. -/
structure Compaction.Drawn (c : Compaction) (v : Version) : Prop where
  inputs : c.inputs ⊆ v.filesAt c.level
  overlaps : c.overlaps ⊆ v.filesAt c.outputLevel

theorem Compaction.Admissible.drawn {c : Compaction} {v : Version} (h : c.Admissible v) :
    c.Drawn v :=
  ⟨h.inputs.subset, h.overlaps.subset⟩

/-- A store through operations, watermarks, crashes with losses, reopens and completed recoveries;
its compactions are `safe`. -/
inductive Life (safe : Compaction → Version → Prop) (tiers : ResolvedTiers) (options : Options) :
    Db → Prop
  | created : Life safe tiers options {}
  | did {db : Db} (env : WriteEnv) (op : Op) (h : Life safe tiers options db)
      (henabled : op.Enabled safe db) (hplaces : op.Places tiers env) :
      Life safe tiers options (op.run options env db).2
  | watermarked {db : Db} (position : ℕ) (h : Life safe tiers options db) :
      Life safe tiers options (db.setWatermark position).2
  | reopened {db : Db} {lost : Bytes → Bool} {listing : Listing} {x : Opening} (nowMs : ℕ)
      (h : Life safe tiers options db) (hlists : (db.lose lost).Lists listing)
      (hopen : recover tiers false listing db.version = .ok x) :
      Life safe tiers options ((db.lose lost).reopened x nowMs)
  | completed {db : Db} (h : Life safe tiers options db) :
      Life safe tiers options db.markRecoveryComplete

/-! ### The files through a life -/

/-- Added files have numbers from `first` up to `next`, or that of a file taken out. -/
structure VersionEdit.Numbers (edit : VersionEdit) (v : Version) (first next : ℕ) : Prop where
  distinct : (edit.added.map FileMetadata.fileNumber).Nodup
  number : ∀ f ∈ edit.added, first ≤ f.fileNumber ∧ f.fileNumber < next ∨
    ∃ level, ∃ g ∈ v.filesAt level, g.fileNumber = f.fileNumber ∧
      ⟨level, g.fileNumber⟩ ∈ edit.deleted

theorem VersionEdit.numbers_nil {edit : VersionEdit} (h : edit.added = []) (v : Version)
    (first next : ℕ) : edit.Numbers v first next := by
  constructor <;> simp [h]

namespace Db

variable {db : Db}

/-- No change, or one edit stamped with the counter that adds files under such numbers, on `placed`
stores. -/
structure Edits (placed : Bytes → Prop) (db db' : Db) : Prop where
  requiresRecovery : db'.requiresRecovery = db.requiresRecovery
  counter : db.nextFileNumber ≤ db'.nextFileNumber
  version : db'.version = db.version ∨
    ∃ edit, db'.version = db.version.apply edit ∧ edit.nextFileNumber = db'.nextFileNumber ∧
      edit.Numbers db.version db.nextFileNumber db'.nextFileNumber ∧
      ∀ f ∈ edit.added, placed f.storeId

section Edits

variable {placed : Bytes → Prop}

theorem Edits.of_eq {db' : Db} (hversion : db'.version = db.version)
    (hrequires : db'.requiresRecovery = db.requiresRecovery)
    (hnext : db'.nextFileNumber = db.nextFileNumber) : Edits placed db db' :=
  ⟨hrequires, hnext.ge, .inl hversion⟩

theorem AcceptsOrRefuses.edits {ops : List BatchOp} {result : Status × Db}
    (h : AcceptsOrRefuses db ops result) : Edits placed db result.2 := by
  obtain rfl | ⟨status, -, rfl⟩ := h <;> exact .of_eq rfl rfl rfl

theorem edits_applyEdit {db₁ : Db} (hversion : db₁.version = db.version)
    (hrequires : db₁.requiresRecovery = db.requiresRecovery)
    (hcounter : db.nextFileNumber ≤ db₁.nextFileNumber) {edit : VersionEdit}
    (hnumbers : edit.Numbers db.version db.nextFileNumber db₁.nextFileNumber)
    (hadded : ∀ f ∈ edit.added, placed f.storeId) : Edits placed db (db₁.applyEdit edit) :=
  ⟨hrequires, hcounter, .inr ⟨{ edit with nextFileNumber := db₁.nextFileNumber },
    hversion ▸ rfl, rfl, ⟨hnumbers.distinct, hnumbers.number⟩, hadded⟩⟩

theorem edits_delete {db₁ : Db} (hversion : db₁.version = db.version)
    (hrequires : db₁.requiresRecovery = db.requiresRecovery)
    (hnext : db₁.nextFileNumber = db.nextFileNumber) {edit : VersionEdit}
    (hadded : edit.added = []) : Edits placed db (db₁.applyEdit edit) :=
  edits_applyEdit hversion hrequires hnext.ge (VersionEdit.numbers_nil hadded ..) (by simp [hadded])

/-- One file is written under the number at the counter and added. -/
theorem edits_write {db₁ : Db} (hversion : db₁.version = db.version)
    (hrequires : db₁.requiresRecovery = db.requiresRecovery)
    (hnext : db₁.nextFileNumber = db.nextFileNumber + 1) {edit : VersionEdit} {f : FileMetadata}
    (hadded : edit.added = [f]) (hnumber : f.fileNumber = db.nextFileNumber)
    (hplaced : placed f.storeId) : Edits placed db (db₁.applyEdit edit) := by
  refine edits_applyEdit hversion hrequires (by omega) ⟨by simp [hadded], fun g hg => .inl ?_⟩ ?_
  · obtain rfl := mem_singleton.1 (hadded ▸ hg)
    omega
  · simpa [hadded] using hplaced

theorem edits_replaceFile (file : FileMetadata) {moved : ℕ → FileMetadata}
    (hmoved : ∀ n, (moved n).fileNumber = n ∧ placed (moved n).storeId) :
    Edits placed db (db.replaceFile file moved) := by
  unfold replaceFile
  split
  · exact .of_eq rfl rfl rfl
  · exact edits_write (by rfl) (by rfl) (by rfl) (by rfl) (hmoved _).1 (hmoved _).2

variable {options : Options} {env : WriteEnv} (henv : ∀ n, placed (env.storeId n))

theorem fileNumber_nameOutputs (c : Compaction) (number : ℕ) (built : List SstBuildResult) :
    (nameOutputs options env c number built).map FileMetadata.fileNumber =
      List.range' number built.length := by
  induction built generalizing number with
  | nil => rfl
  | cons b built ih => exact congrArg (number :: ·) (ih _)

include henv

theorem edits_runOneFlush : Edits placed db (db.runOneFlush options env) := by
  unfold runOneFlush
  cases db.imm with
  | none => exact .of_eq rfl rfl rfl
  | some m =>
    simp only [flushMemtable]
    split_ifs
    · exact .of_eq rfl rfl rfl
    · show Edits placed db (Db.applyEdit { db.writeNewSst _ with imm := none } _)
      exact edits_write (by rfl) (by rfl) (by rfl) (by rfl) (by rfl) (henv _)

variable (hfiles : ∀ level, ∀ f ∈ db.version.filesAt level, placed f.storeId)

include hfiles

theorem edits_runCompaction {c : Compaction} (hc : c.Drawn db.version) :
    Edits placed db (db.runCompaction options env c) := by
  unfold runCompaction
  by_cases htrivial : c.trivialMove = true
  · rw [if_pos htrivial]
    cases hfirst : c.inputs with
    | nil => exact .of_eq rfl rfl rfl
    | cons moved rest =>
      have hmoved : moved ∈ db.version.filesAt c.level := hc.inputs (by simp [hfirst])
      refine edits_applyEdit rfl rfl le_rfl ⟨nodup_singleton _, fun f hf => ?_⟩ fun f hf => ?_
      · obtain rfl := mem_singleton.1 hf
        exact .inr ⟨c.level, moved, hmoved, rfl, mem_singleton_self _⟩
      · obtain rfl := mem_singleton.1 hf
        exact hfiles c.level moved hmoved
  · rw [if_neg htrivial]
    cases db.sourcesOf c.allInputs with
    | none => exact .of_eq rfl rfl rfl
    | some sources =>
      obtain ⟨objects, hobjects⟩ := exists_foldl_writeNewSst
        (c.writeCompactionOutputs options db.version.truncationPoint sources) db
      simp only
      rw [hobjects]
      refine edits_applyEdit (by rfl) (by rfl) (by simp) ⟨?_, fun f hf => .inl ?_⟩ fun f hf => ?_
      · rw [fileNumber_nameOutputs]
        exact nodup_range'
      · exact (mem_nameOutputs hf).2
      · exact (mem_nameOutputs hf).1.2 ▸ henv _

theorem edits_run {safe : Compaction → Version → Prop} (hsafe : ∀ c v, safe c v → c.Drawn v)
    {op : Op} (henabled : op.Enabled safe db)
    (htarget : ∀ file target, op = .runMigration file target → placed target) :
    Edits placed db (op.run options env db).2 := by
  cases op with
  | put key value => exact (db.put_result key value).edits
  | remove key => exact (db.remove_result key).edits
  | deleteRange lower upper => exact (db.deleteRange_result lower upper).edits
  | write batch =>
    show Edits placed db (db.write batch).2
    unfold write
    split <;> exact .of_eq rfl rfl rfl
  | truncateBelow key =>
    show Edits placed db (db.truncateBelow key).2
    unfold Db.truncateBelow
    split_ifs
    · exact .of_eq rfl rfl rfl
    · exact edits_delete (by rfl) (by rfl) (by rfl) (by rfl)
    · exact .of_eq rfl rfl rfl
  | sealMemtable => exact .of_eq rfl rfl rfl
  | runOneFlush => exact edits_runOneFlush henv
  | reclaimDeadFiles =>
    show Edits placed db db.reclaimDeadFiles
    unfold Db.reclaimDeadFiles
    simp only
    split_ifs
    · exact .of_eq rfl rfl rfl
    · exact edits_delete (by rfl) (by rfl) (by rfl) (by rfl)
  | runMigration file target =>
    show Edits placed db (db.runMigration file target)
    unfold Db.runMigration
    split_ifs
    · exact .of_eq rfl rfl rfl
    · exact edits_replaceFile file fun _ => ⟨rfl, htarget file target rfl⟩
  | runReencryption file =>
    show Edits placed db (db.runReencryption env file)
    exact edits_replaceFile file fun _ => ⟨rfl, hfiles _ file henabled.2⟩
  | runCompaction c => exact edits_runCompaction henv hfiles (hsafe c _ henabled)

end Edits

/-! ### The numbers of the files -/

/-- Numbers identify files, and the counters are past them. -/
structure Counted (db : Db) : Prop where
  numbered : db.version.Numbered
  files : ∀ f ∈ db.version.allFiles, f.fileNumber < db.version.nextFileNumber
  version : db.version.nextFileNumber ≤ db.nextFileNumber

theorem counted_empty : Counted {} where
  numbered := ⟨fun _ f hf => by simp [Version.filesAt] at hf, nofun⟩
  files := nofun
  version := le_rfl

theorem Counted.edited {placed : Bytes → Prop} {db' : Db} (h : db.Counted)
    (hedits : Edits placed db db') : db'.Counted := by
  rcases hedits.version with heq | ⟨edit, heq, hstamp, hnumbers, -⟩
  · exact ⟨heq ▸ h.numbered, heq ▸ h.files, heq ▸ h.version.trans hedits.counter⟩
  have hfirst : ∀ level, ∀ f ∈ db.version.filesAt level,
      f.fileNumber < db.version.nextFileNumber := fun level f hf =>
    h.files f (Version.mem_allFiles.2 ⟨level, hf⟩)
  have hnext : db'.version.nextFileNumber = db'.nextFileNumber := by
    rw [heq, ← hstamp]
    exact max_eq_right (hstamp ▸ h.version.trans hedits.counter)
  refine ⟨?_, fun f hf => hnext ▸ ?_, hnext.le⟩
  · rw [heq]
    refine h.numbered.apply hnumbers.distinct fun f hf level g hg hnumber => ?_
    rcases hnumbers.number f hf with ⟨hle, -⟩ | ⟨level', g', hg', hnumber', hdeleted⟩
    · exact absurd ((hfirst level g hg).trans_le (h.version.trans hle)) (hnumber ▸ lt_irrefl _)
    · obtain rfl := h.numbered.unique g (Version.mem_allFiles.2 ⟨level, hg⟩) g'
        (Version.mem_allFiles.2 ⟨level', hg'⟩) (hnumber.trans hnumber'.symm)
      rwa [← h.numbered.levelOf level g hg, h.numbered.levelOf level' g hg']
  · rw [heq] at hf
    obtain ⟨level, hf⟩ := Version.mem_allFiles.1 hf
    have hold : db.version.nextFileNumber ≤ db'.nextFileNumber := h.version.trans hedits.counter
    rcases Version.mem_filesAt_apply.1 hf with ⟨hf, -⟩ | ⟨hf, -⟩
    · exact (hfirst level f hf).trans_le hold
    · rcases hnumbers.number f hf with ⟨-, hlt⟩ | ⟨level', g, hg, hnumber, -⟩
      · exact hlt
      · exact hnumber ▸ (hfirst level' g hg).trans_le hold

theorem edits_setWatermark (position : ℕ) :
    Edits (fun _ => True) db (db.setWatermark position).2 := by
  unfold Db.setWatermark
  split <;> exact .of_eq rfl rfl rfl

theorem edits_markRecoveryComplete (placed : Bytes → Prop) :
    Edits placed { db with requiresRecovery := false } db.markRecoveryComplete := by
  unfold Db.markRecoveryComplete
  simp only
  split_ifs
  · exact edits_delete (by rfl) (by rfl) (by rfl) (by rfl)
  · exact .of_eq rfl rfl rfl

variable (options : Options) (env : WriteEnv)

theorem AcceptsOrRefuses.tidy {ops : List BatchOp} {result : Status × Db}
    (h : AcceptsOrRefuses db ops result) (hdb : db.Tidy) : result.2.Tidy := by
  obtain rfl | ⟨status, -, rfl⟩ := h
  · exact hdb.of_files rfl rfl rfl
  · exact hdb

theorem Tidy.run (h : db.Tidy) {op : Op} (henabled : op.Enabled Compaction.Admissible db) :
    (op.run options env db).2.Tidy := by
  cases op with
  | put key value => exact (db.put_result key value).tidy h
  | remove key => exact (db.remove_result key).tidy h
  | deleteRange lower upper => exact (db.deleteRange_result lower upper).tidy h
  | write batch =>
    show (db.write batch).2.Tidy
    unfold write
    split
    · exact h.of_files rfl rfl rfl
    · exact h
  | truncateBelow key =>
    show (db.truncateBelow key).2.Tidy
    unfold Db.truncateBelow
    split_ifs
    · exact h
    · have hbase : Db.Tidy { db with writeFloor := key } := h.of_files rfl rfl rfl
      exact hbase.delete rfl
    · exact h
  | sealMemtable => exact h.of_files rfl rfl rfl
  | runOneFlush => exact h.runOneFlush options env
  | reclaimDeadFiles => exact h.reclaimDeadFiles
  | runMigration file target => exact h.runMigration henabled.2 henabled.1 target
  | runReencryption file => exact h.runReencryption env henabled.2 henabled.1
  | runCompaction c => exact h.runCompaction options env henabled

omit options env in
theorem Tidy.markRecoveryComplete (h : db.Tidy) : db.markRecoveryComplete.Tidy := by
  have hbase : Tidy { db with requiresRecovery := false } := h.of_files rfl rfl rfl
  unfold Db.markRecoveryComplete
  simp only
  split_ifs
  · exact hbase.delete rfl
  · exact hbase

theorem Tidy.discard {x : Opening} (h : Tidy { db with version := x.version }) (storeId : Bytes) :
    Tidy { db with version := (x.discard storeId).version } := by
  let edit : VersionEdit :=
    { deleted := (x.version.filesOn storeId).map fun f => ⟨f.level, f.fileNumber⟩ }
  have hdeleted : Tidy (Db.applyEdit { db with version := x.version } edit) := h.delete rfl
  refine hdeleted.of_agree (fun level => ?_) (fun _ _ _ => rfl)
    fun level f hf => (hdeleted.stored level f hf).number
  show (Version.apply _ _).filesAt level = (Version.apply _ _).filesAt level
  rw [Version.filesAt_apply, Version.filesAt_apply]

theorem Tidy.foldl_discard {x : Opening} (h : Tidy { db with version := x.version })
    (stores : List Bytes) :
    Tidy { db with version := (stores.foldl Opening.discard x).version } := by
  induction stores generalizing x with
  | nil => exact h
  | cons s stores ih => exact ih (h.discard s)

end Db

namespace Opening

theorem le_nextFileNumber_foldl_discard (stores : List Bytes) (x : Opening) :
    x.version.nextFileNumber ≤ (stores.foldl discard x).version.nextFileNumber := by
  induction stores generalizing x with
  | nil => exact le_rfl
  | cons s stores ih => exact (le_max_left _ _).trans (ih (x.discard s))

theorem nextFileNumber_foldl_discard (stores : List Bytes) (x : Opening) :
    (stores.foldl discard x).nextFileNumber = x.nextFileNumber := by
  induction stores generalizing x with
  | nil => rfl
  | cons s stores ih => exact ih (x.discard s)

theorem nextFileNumber_version_foldl_discard (stores : List Bytes) {x : Opening}
    (h : x.version.nextFileNumber ≤ x.nextFileNumber) :
    (stores.foldl discard x).version.nextFileNumber ≤ (stores.foldl discard x).nextFileNumber := by
  induction stores generalizing x with
  | nil => exact h
  | cons s stores ih => exact ih (max_le h le_rfl)

end Opening

theorem mem_storesOf {files : List FileMetadata} {storeId : Bytes} :
    storeId ∈ storesOf files ↔ ∃ f ∈ files, f.storeId = storeId := by
  simp [storesOf]

theorem nodup_storesOf (files : List FileMetadata) : (storesOf files).Nodup :=
  (perm_insertionSort _ _).nodup_iff.2 (nodup_dedup _)

namespace Opening

theorem discarded_nil {v : Version} (h : v.Numbered) (next : ℕ) :
    Discarded v [] { version := v, nextFileNumber := next } :=
  ⟨h, .of_eq (by simp), by simp, rfl⟩

theorem discarded_missing {v : Version} (h : v.Numbered) (listing : Listing) (next : ℕ) :
    Discarded v (storesOf (v.missingFiles listing))
      ((storesOf (v.missingFiles listing)).foldl discard
        { version := v, nextFileNumber := next }) := by
  refine (discarded_nil h next).foldl (nodup_storesOf _) fun s hs => ?_
  obtain ⟨f, hf, hstore⟩ := mem_storesOf.1 hs
  exact ⟨f, mem_of_mem_filter hf, hstore⟩

end Opening

namespace Db

variable {db : Db}

theorem objects_lose_of_isSome {lost : Bytes → Bool} {n : ℕ}
    (h : ((db.lose lost).objects n).isSome) : (db.lose lost).objects n = db.objects n := by
  unfold lose at h ⊢
  simp only at h ⊢
  split_ifs at h ⊢
  · cases h
  · rfl

section Reopened

variable {tiers : ResolvedTiers} {lost : Bytes → Bool} {listing : Listing} {x : Opening}

theorem Counted.reopened (h : db.Counted)
    (hopen : recover tiers false listing db.version = .ok x) (nowMs : ℕ) :
    ((db.lose lost).reopened x nowMs).Counted := by
  obtain ⟨next, hnext, -, -, rfl⟩ := recover_eq_ok.1 hopen
  have hdiscarded := discarded_missing h.numbered listing next
  refine ⟨hdiscarded.numbered, fun f hf => ?_,
    nextFileNumber_version_foldl_discard _ (le_observeStores hnext)⟩
  have hf := mem_of_mem_filter (hdiscarded.files.mem_iff.1 hf)
  exact (h.files f hf).trans_le
    (le_nextFileNumber_foldl_discard _ { version := db.version, nextFileNumber := next })

theorem Tidy.reopened (h : db.Tidy) (hcounted : db.Counted)
    (hlists : (db.lose lost).Lists listing)
    (hopen : Opening.recover tiers false listing db.version = .ok x) (nowMs : ℕ) :
    ((db.lose lost).reopened x nowMs).Tidy := by
  obtain ⟨next, hnext, -, -, rfl⟩ := Opening.recover_eq_ok.1 hopen
  let stores := storesOf (db.version.missingFiles listing)
  let base : Opening := { version := db.version, nextFileNumber := next }
  have hdiscarded : Opening.Discarded db.version stores (stores.foldl Opening.discard base) :=
    Opening.discarded_missing hcounted.numbered listing next
  have htidy : Tidy { db with version := (stores.foldl Opening.discard base).version } :=
    Tidy.foldl_discard (x := base) h stores
  have hkept : ∀ level, ∀ f ∈ (stores.foldl Opening.discard base).version.filesAt level,
      f ∈ db.version.allFiles ∧ f.storeId ∉ stores := by
    intro level f hf
    simpa using hdiscarded.files.mem_iff.1 (Version.mem_allFiles.2 ⟨level, hf⟩)
  refine htidy.of_agree (fun _ => rfl) (fun level f hf => ?_) fun level f hf => ?_
  · -- what is left is on stores that lack nothing, so its objects are there
    obtain ⟨hfile, hstore⟩ := hkept level f hf
    have hholds : listing.holds f = true := by
      by_contra hmissing
      exact hstore (mem_storesOf.2 ⟨f, mem_filter.2 ⟨hfile, by simpa using hmissing⟩, rfl⟩)
    exact objects_lose_of_isSome ((hlists f hfile).symm.trans hholds)
  · have hnumber := (hcounted.files f (hkept level f hf).1).trans_le
      (Opening.le_observeStores hnext)
    exact hnumber.trans_eq (Opening.nextFileNumber_foldl_discard stores base).symm

end Reopened

end Db

namespace Db

/-- Every file is on a store of the configuration. -/
def Placed (tiers : ResolvedTiers) (db : Db) : Prop :=
  ∀ level, ∀ f ∈ db.version.filesAt level, f.storeId ∈ tiers.stores

variable {tiers : ResolvedTiers} {db : Db}

theorem Edits.placed {db' : Db} (h : Edits (· ∈ tiers.stores) db db') (hdb : db.Placed tiers) :
    db'.Placed tiers := by
  intro level f hf
  rcases h.version with hversion | ⟨edit, hversion, -, -, hadded⟩
  · exact hdb level f (hversion ▸ hf)
  · rw [hversion] at hf
    rcases Version.mem_filesAt_apply.1 hf with ⟨hf, -⟩ | ⟨hf, -⟩
    · exact hdb level f hf
    · exact hadded f hf

end Db

theorem Opening.placed_of_recover {tiers : ResolvedTiers} {v : Version} {listing : Listing}
    {x : Opening} (hnumbered : v.Numbered)
    (hopen : recover tiers false listing v = .ok x) :
    ∀ f ∈ x.version.allFiles, f.storeId ∈ tiers.stores := by
  obtain ⟨next, -, hplaced, -, rfl⟩ := recover_eq_ok.1 hopen
  intro f hf
  exact hplaced f (mem_of_mem_filter
    ((discarded_missing hnumbered listing next).files.mem_iff.1 hf))

namespace Life

variable {safe : Compaction → Version → Prop} {tiers : ResolvedTiers} {options : Options} {db : Db}

theorem counted (hsafe : ∀ c v, safe c v → c.Drawn v) (h : Life safe tiers options db) :
    db.Counted := by
  induction h with
  | created => exact Db.counted_empty
  | did env op _ henabled _ ih =>
    have hedits : Db.Edits (fun _ => True) _ (op.run options env _).2 :=
      Db.edits_run (fun _ => trivial) (fun _ _ _ => trivial) hsafe henabled fun _ _ _ => trivial
    exact ih.edited hedits
  | watermarked position _ ih => exact ih.edited (Db.edits_setWatermark position)
  | reopened nowMs _ _ hopen ih => exact ih.reopened hopen nowMs
  | @completed db _ ih =>
    have hbase : Db.Counted { db with requiresRecovery := false } :=
      ⟨ih.numbered, ih.files, ih.version⟩
    exact hbase.edited (Db.edits_markRecoveryComplete fun _ => True)

theorem tidy (h : Life Compaction.Admissible tiers options db) : db.Tidy := by
  induction h with
  | created => exact Db.tidy_empty
  | did env op _ henabled _ ih => exact ih.run options env henabled
  | watermarked position _ ih =>
    unfold Db.setWatermark
    split
    · exact ih
    · exact ih.of_files rfl rfl rfl
  | reopened nowMs h hlists hopen ih =>
    exact ih.reopened (h.counted fun _ _ hc => hc.drawn) hlists hopen nowMs
  | completed _ ih => exact ih.markRecoveryComplete

theorem placed (hsafe : ∀ c v, safe c v → c.Drawn v) (h : Life safe tiers options db) :
    db.Placed tiers := by
  induction h with
  | created =>
    intro level f hf
    simp [Version.filesAt] at hf
  | did env op _ henabled hplaces ih =>
    exact (Db.edits_run hplaces.1 ih hsafe henabled hplaces.2).placed ih
  | watermarked position _ ih =>
    unfold Db.setWatermark
    split
    · exact ih
    · exact ih
  | reopened nowMs h _ hopen _ =>
    exact fun level f hf => placed_of_recover (h.counted hsafe).numbered hopen f
      (Version.mem_allFiles.2 ⟨level, hf⟩)
  | completed _ ih => exact (Db.edits_markRecoveryComplete _).placed ih

end Life

end ElysiumKV
