import ElysiumKV.ReadRefinement

/-!
# Reads refine the history of writes

Client writes, truncations and maintenance in any order. `Refines` ties the store to the log of
accepted writes, so after every run a read returns the last accepted write of its key.
-/

namespace ElysiumKV

open List

/-! ### The history -/

/-- What a client has been told `Ok` about. -/
inductive Event
  | wrote (op : Db.BatchOp)
  | truncated (key : Key)
deriving DecidableEq, Repr

/-- A key's value after a write. -/
def overwrite (k : Key) (current : Option Value) : Db.BatchOp → Option Value
  | .put key value => if key = k then some value else current
  | .remove key => if key = k then none else current
  | .deleteRange lower upper => if lower ≤ k ∧ k < upper then none else current

/-- The last put of a key with no remove or covering range delete after it. -/
def lastWrite (k : Key) (log : List Event) : Option Value :=
  log.foldl (fun current event => match event with
    | .wrote op => overwrite k current op
    | .truncated _ => current) none

/-- The highest truncation. -/
def truncatedBelow (log : List Event) : Key :=
  log.foldl (fun point event => match event with
    | .wrote _ => point
    | .truncated key => max point key) []

theorem lastWrite_wrote (k : Key) (log : List Event) (ops : List Db.BatchOp) :
    lastWrite k (log ++ ops.map .wrote) = ops.foldl (overwrite k) (lastWrite k log) := by
  unfold lastWrite
  rw [foldl_append, foldl_map]

theorem lastWrite_truncated (k : Key) (log : List Event) (key : Key) :
    lastWrite k (log ++ [.truncated key]) = lastWrite k log := by
  simp [lastWrite]

theorem truncatedBelow_wrote (log : List Event) (ops : List Db.BatchOp) :
    truncatedBelow (log ++ ops.map .wrote) = truncatedBelow log := by
  unfold truncatedBelow
  rw [foldl_append, foldl_map]
  induction ops with
  | nil => rfl
  | cons op ops ih => exact ih

theorem truncatedBelow_truncated (log : List Event) (key : Key) :
    truncatedBelow (log ++ [.truncated key]) = max (truncatedBelow log) key := by
  simp [truncatedBelow]

/-- The operations of a store without I/O failures. -/
inductive Op
  | put (key : Key) (value : Value)
  | remove (key : Key)
  | deleteRange (lower upper : Key)
  | write (batch : List Db.BatchOp)
  | truncateBelow (key : Key)
  | sealMemtable
  | runOneFlush
  | reclaimDeadFiles
  | runMigration (file : FileMetadata) (target : Bytes)
  | runReencryption (file : FileMetadata)
  | runCompaction (c : Compaction)

namespace Op

/-- What an operation does. -/
def run (options : Options) (env : WriteEnv) (db : Db) : Op → Status × Db
  | put key value => db.put key value
  | remove key => db.remove key
  | deleteRange lower upper => db.deleteRange lower upper
  | write batch => db.write batch
  | truncateBelow key => db.truncateBelow key
  | sealMemtable => (.ok, db.sealMemtable env)
  | runOneFlush => (.ok, db.runOneFlush options env)
  | reclaimDeadFiles => (.ok, db.reclaimDeadFiles)
  | runMigration file target => (.ok, db.runMigration file target)
  | runReencryption file => (.ok, db.runReencryption env file)
  | runCompaction c => (.ok, db.runCompaction options env c)

/-- When the engine starts it: one sealed memtable at a time, files replaced only below level 0,
`safe` compactions. -/
def Enabled (safe : Compaction → Version → Prop) (db : Db) : Op → Prop
  | sealMemtable => db.imm = none
  | runMigration file _ | runReencryption file =>
    file.level ≠ 0 ∧ file ∈ db.version.filesAt file.level
  | runCompaction c => safe c db.version
  | _ => True

/-- What it adds to the history if accepted. -/
def events : Op → List Event
  | put key value => [.wrote (.put key value)]
  | remove key => [.wrote (.remove key)]
  | deleteRange lower upper => [.wrote (.deleteRange lower upper)]
  | write batch => batch.map .wrote
  | truncateBelow key => [.truncated key]
  | _ => []

end Op

/-- States reached from an empty store, with the accepted history. -/
inductive Run (safe : Compaction → Version → Prop) (options : Options) : Db → List Event → Prop
  | empty : Run safe options {} []
  | step {db : Db} {log : List Event} (env : WriteEnv) (op : Op) : Run safe options db log →
      op.Enabled safe db → Run safe options (op.run options env db).2
        (log ++ if (op.run options env db).1 = .ok then op.events else [])

instance (safe : Compaction → Version → Prop) [∀ c v, Decidable (safe c v)] (db : Db) :
    (op : Op) → Decidable (op.Enabled safe db)
  | .sealMemtable => inferInstanceAs (Decidable (db.imm = none))
  | .runMigration file _ | .runReencryption file =>
    inferInstanceAs (Decidable (file.level ≠ 0 ∧ file ∈ db.version.filesAt file.level))
  | .runCompaction c => inferInstanceAs (Decidable (safe c db.version))
  | .put _ _ | .remove _ | .deleteRange _ _ | .write _ | .truncateBelow _ | .runOneFlush
  | .reclaimDeadFiles => inferInstanceAs (Decidable True)

/-- A script, each operation chosen by looking at the store. -/
def play (options : Options) (env : WriteEnv) : List (Db → Op) → Db × List Event → Db × List Event
  | [], state => state
  | op :: script, (db, log) =>
    let result := (op db).run options env db
    play options env script
      (result.2, log ++ if result.1 = .ok then (op db).events else [])

/-- Each operation is enabled in its turn. -/
def Playable (safe : Compaction → Version → Prop) (options : Options) (env : WriteEnv) :
    List (Db → Op) → Db → Prop
  | [], _ => True
  | op :: script, db => (op db).Enabled safe db ∧
    Playable safe options env script ((op db).run options env db).2

instance (safe : Compaction → Version → Prop) [∀ c v, Decidable (safe c v)] (options : Options)
    (env : WriteEnv) : (script : List (Db → Op)) → (db : Db) →
    Decidable (Playable safe options env script db)
  | [], _ => inferInstanceAs (Decidable True)
  | op :: script, db =>
    have := instDecidablePlayable safe options env script ((op db).run options env db).2
    inferInstanceAs (Decidable (_ ∧ _))

theorem Run.play {safe : Compaction → Version → Prop} {options : Options} (env : WriteEnv)
    (script : List (Db → Op)) : ∀ {db : Db} {log : List Event}, Run safe options db log →
    Playable safe options env script db →
    Run safe options (play options env script (db, log)).1
      (play options env script (db, log)).2 := by
  induction script with
  | nil => exact fun h _ => h
  | cons op script ih => exact fun h hplay => ih (h.step env (op _) hplay.1) hplay.2

/-! ### The invariant -/

/-- The store holds what the history says. -/
structure Refines (db : Db) (log : List Event) : Prop where
  tidy : db.Tidy
  floor : db.writeFloor = db.version.truncationPoint
  point : db.version.truncationPoint = truncatedBelow log
  readable : db.requiresRecovery = false
  contents : ∀ k, truncatedBelow log ≤ k → Db.valueOf (db.answer k) = lastWrite k log

theorem refines_empty : Refines {} [] where
  tidy := Db.tidy_empty
  floor := rfl
  point := rfl
  readable := rfl
  contents k _ := by
    simp [Db.answer, Db.fileAnswer, Db.valueOf, Memtable.tells, tells, Version.numLevels, lastWrite]

namespace Db

variable {db db' : Db} {log : List Event}

theorem Tidy.of_agree (h : Tidy db)
    (hfiles : ∀ level, db'.version.filesAt level = db.version.filesAt level)
    (hobjects : ∀ level, ∀ f ∈ db.version.filesAt level,
      db'.objects f.fileNumber = db.objects f.fileNumber)
    (hnumbers : ∀ level, ∀ f ∈ db.version.filesAt level, f.fileNumber < db'.nextFileNumber) :
    Tidy db' := by
  have hsst : ∀ level, ∀ f ∈ db.version.filesAt level, db'.sstOf f = db.sstOf f := by
    intro level f hf
    rw [sstOf, hobjects level f hf, sstOf]
  refine ⟨?_, ?_, ?_, ?_, ?_, ?_, ?_⟩ <;> simp only [hfiles]
  · intro level f hf
    have hstored := h.stored level f hf
    refine ⟨?_, ?_, ?_, hnumbers level f hf⟩
    · rw [hobjects level f hf, hsst level f hf, hstored.object]
    · rw [hsst level f hf]
      exact hstored.wellFormed
    · rw [hsst level f hf]
      exact hstored.describes
  · exact h.levelOf
  · exact h.unique
  · exact h.nodup
  · exact h.newest
  · exact h.keyOrder
  · intro level hl f hf g hg hne
    unfold Apart
    rw [hsst level f hf, hsst level g hg]
    exact h.apart level hl f hf g hg hne

theorem Tidy.of_files (h : Tidy db) (hversion : db'.version = db.version)
    (hobjects : db'.objects = db.objects) (hnumber : db'.nextFileNumber = db.nextFileNumber) :
    Tidy db' :=
  h.of_agree (fun _ => hversion ▸ rfl) (fun _ _ _ => hobjects ▸ rfl)
    fun level f hf => hnumber ▸ (h.stored level f hf).number

theorem fileAnswer_of_files (hversion : db'.version = db.version)
    (hobjects : db'.objects = db.objects) (k : Key) : db'.fileAnswer k = db.fileAnswer k := by
  unfold fileAnswer levelAnswer sstsAt sstOf
  rw [hversion, hobjects]

theorem valueOf_applyOp {floor k : Key} (hk : floor ≤ k) (m : Memtable) (op : BatchOp)
    (below : Option Found) :
    valueOf (((applyOp floor m op).tells k).or below) =
      overwrite k (valueOf ((m.tells k).or below)) op := by
  cases op with
  | put key value =>
    simp only [applyOp, Memtable.tells_put, overwrite]
    split_ifs <;> rfl
  | remove key =>
    simp only [applyOp, Memtable.tells_remove, overwrite]
    split_ifs <;> rfl
  | deleteRange lower upper =>
    have hclamp : clampLower floor lower ≤ k ↔ lower ≤ k := by
      unfold clampLower
      split_ifs with hlt
      · exact ⟨fun _ => hlt.2.le.trans hk, fun _ => hk⟩
      · rfl
    simp only [applyOp, Memtable.tells_deleteRange, overwrite, hclamp]
    split_ifs <;> rfl

theorem valueOf_foldl_applyOp {floor k : Key} (hk : floor ≤ k) (below : Option Found)
    (ops : List BatchOp) (m : Memtable) :
    valueOf (((ops.foldl (applyOp floor) m).tells k).or below) =
      ops.foldl (overwrite k) (valueOf ((m.tells k).or below)) := by
  induction ops generalizing m with
  | nil => rfl
  | cons op ops ih => rw [foldl_cons, ih, valueOf_applyOp hk, foldl_cons]

/-- A write is applied in order, or refused without effect. -/
def AcceptsOrRefuses (db : Db) (ops : List BatchOp) (result : Status × Db) : Prop :=
  result = (.ok, { db with mem := ops.foldl (applyOp db.version.truncationPoint) db.mem }) ∨
    ∃ status, status ≠ .ok ∧ result = (status, db)

theorem put_result (db : Db) (key : Key) (value : Value) :
    AcceptsOrRefuses db [.put key value] (db.put key value) := by
  unfold put
  split
  · split
    · exact .inl rfl
    · next hrefused => exact .inr ⟨_, hrefused, rfl⟩
  · next hrefused => exact .inr ⟨_, hrefused, rfl⟩

theorem remove_result (db : Db) (key : Key) :
    AcceptsOrRefuses db [.remove key] (db.remove key) := by
  unfold remove
  split
  · split
    · exact .inl rfl
    · next hrefused => exact .inr ⟨_, hrefused, rfl⟩
  · next hrefused => exact .inr ⟨_, hrefused, rfl⟩

theorem deleteRange_result (db : Db) (lower upper : Key) :
    AcceptsOrRefuses db [.deleteRange lower upper] (db.deleteRange lower upper) := by
  unfold deleteRange
  split
  · split
    · left
      simp only
      split_ifs with hlt
      · rfl
      · -- nothing is left of the range above the truncation point
        simp [applyOp, Memtable.deleteRange, hlt]
    · next hrefused => exact .inr ⟨_, hrefused, rfl⟩
  · next hrefused => exact .inr ⟨_, hrefused, rfl⟩

theorem write_result (db : Db) (hfloor : db.writeFloor = db.version.truncationPoint)
    (batch : List BatchOp) : AcceptsOrRefuses db batch (db.write batch) := by
  unfold write
  split
  · left
    rw [hfloor]
  · next hrefused => exact .inr ⟨_, hrefused, rfl⟩

/-! ### What flushes and maintenance leave alone -/

theorem valueOf_or (x : Option Found) {y z : Option Found} (h : valueOf y = valueOf z) :
    valueOf (x.or y) = valueOf (x.or z) := by
  cases x with
  | none => exact h
  | some found => rfl

/-- All but files and objects is equal. -/
structure SameFront (db db' : Db) : Prop where
  mem : db'.mem = db.mem
  imm : db'.imm = db.imm
  writeFloor : db'.writeFloor = db.writeFloor
  requiresRecovery : db'.requiresRecovery = db.requiresRecovery
  truncationPoint : db'.version.truncationPoint = db.version.truncationPoint

theorem SameFront.refl (db : Db) : SameFront db db := ⟨rfl, rfl, rfl, rfl, rfl⟩

theorem SameFront.trans {a b c : Db} (hab : SameFront a b) (hbc : SameFront b c) : SameFront a c :=
  ⟨hbc.1.trans hab.1, hbc.2.trans hab.2, hbc.3.trans hab.3, hbc.4.trans hab.4, hbc.5.trans hab.5⟩

theorem SameFront.readsAreBlocked_eq (hfront : SameFront db db') (options : Options) :
    db'.readsAreBlocked options = db.readsAreBlocked options := by
  simp [readsAreBlocked, hfront.requiresRecovery]

/-- Tidy stores whose files tell the same values above the truncation point answer alike. -/
theorem SameFront.get_eq (hfront : SameFront db db') (options : Options) (h : Tidy db)
    (h' : Tidy db') (hfiles : ∀ k, db.version.truncationPoint ≤ k →
      valueOf (db'.fileAnswer k) = valueOf (db.fileAnswer k)) (k : Key) :
    db'.get options k = db.get options k := by
  have hblocked := hfront.readsAreBlocked_eq options
  have htruncated : db'.version.truncated k = db.version.truncated k := by
    simp [Version.truncated, hfront.truncationPoint]
  cases hopen : db.readsAreBlocked options with
  | true => simp [Db.get, hblocked, hopen]
  | false =>
    rw [h'.get_eq_answer (hblocked.trans hopen), h.get_eq_answer hopen, htruncated]
    split_ifs with htrunc
    · rfl
    · have hk : db.version.truncationPoint ≤ k := by
        by_contra hlt
        have hne : db.version.truncationPoint ≠ [] := fun hnil =>
          hlt (hnil ▸ ByteOrder.nil_le k)
        exact htrunc (by simp [Version.truncated, hne, not_le.1 hlt])
      rw [lookupResult_eq, lookupResult_eq, answer, answer, hfront.mem, hfront.imm]
      exact congrArg replyOf (valueOf_or _ (valueOf_or _ (hfiles k hk)))

theorem sameFront_applyEdit (db : Db) {edit : VersionEdit} (h : edit.truncationPoint = []) :
    SameFront db (db.applyEdit edit) :=
  ⟨rfl, rfl, rfl, rfl, by simp [applyEdit, Version.apply, h]⟩

theorem sameFront_writeNewSst (db : Db) (sst : Sst) : SameFront db (db.writeNewSst sst) :=
  ⟨rfl, rfl, rfl, rfl, rfl⟩

theorem sameFront_foldl_writeNewSst (built : List SstBuildResult) (db : Db) :
    SameFront db (built.foldl (fun db b => db.writeNewSst b.sst) db) := by
  induction built generalizing db with
  | nil => exact .refl db
  | cons b built ih => exact (db.sameFront_writeNewSst b.sst).trans (ih _)

variable (options : Options) (env : WriteEnv)

theorem sameFront_flushMemtable (db : Db) (m : Memtable) :
    SameFront db (db.flushMemtable options env m) := by
  unfold flushMemtable
  simp only
  split_ifs
  · exact .refl db
  · exact (db.sameFront_writeNewSst _).trans (sameFront_applyEdit _ rfl)

theorem sameFront_reclaimDeadFiles (db : Db) : SameFront db db.reclaimDeadFiles := by
  unfold reclaimDeadFiles
  simp only
  split_ifs
  · exact .refl db
  · exact db.sameFront_applyEdit rfl

theorem sameFront_replaceFile (db : Db) (file : FileMetadata) (moved : ℕ → FileMetadata) :
    SameFront db (db.replaceFile file moved) := by
  unfold replaceFile
  cases db.objects file.fileNumber with
  | none => exact .refl db
  | some sst => exact (db.sameFront_writeNewSst sst).trans (sameFront_applyEdit _ rfl)

theorem sameFront_runMigration (db : Db) (file : FileMetadata) (target : Bytes) :
    SameFront db (db.runMigration file target) := by
  unfold runMigration
  split_ifs
  · exact .refl db
  · exact db.sameFront_replaceFile file _

theorem sameFront_runCompaction (db : Db) (c : Compaction) :
    SameFront db (db.runCompaction options env c) := by
  unfold runCompaction
  simp only
  split_ifs
  · cases c.inputs with
    | nil => exact .refl db
    | cons f fs => exact db.sameFront_applyEdit rfl
  · cases db.sourcesOf c.allInputs with
    | none => exact .refl db
    | some sources =>
      exact (sameFront_foldl_writeNewSst _ db).trans (sameFront_applyEdit _ rfl)

end Db

namespace Refines

variable {options : Options} {db db' : Db} {log : List Event}

theorem wrote (h : Refines db log) (ops : List Db.BatchOp) :
    Refines { db with mem := ops.foldl (Db.applyOp db.version.truncationPoint) db.mem }
      (log ++ ops.map .wrote) where
  tidy := h.tidy.of_files rfl rfl rfl
  floor := h.floor
  point := by
    rw [truncatedBelow_wrote]
    exact h.point
  readable := h.readable
  contents k hk := by
    rw [truncatedBelow_wrote] at hk
    rw [lastWrite_wrote, ← h.contents k hk]
    exact Db.valueOf_foldl_applyOp (h.point.trans_le hk) _ ops db.mem

theorem client (h : Refines db log) {ops : List Db.BatchOp} {result : Status × Db}
    (hresult : Db.AcceptsOrRefuses db ops result) :
    Refines result.2 (log ++ if result.1 = .ok then ops.map .wrote else []) := by
  rcases hresult with rfl | ⟨status, hstatus, rfl⟩
  · exact h.wrote ops
  · simpa [hstatus] using h

theorem quiet (h : Refines db log) (htidy : db'.Tidy) (hfront : Db.SameFront db db')
    (hanswer : ∀ k, db.version.truncationPoint ≤ k →
      Db.valueOf (db'.fileAnswer k) = Db.valueOf (db.fileAnswer k)) : Refines db' log where
  tidy := htidy
  floor := by rw [hfront.writeFloor, hfront.truncationPoint, h.floor]
  point := hfront.truncationPoint.trans h.point
  readable := hfront.requiresRecovery.trans h.readable
  contents k hk := by
    rw [← h.contents k hk, Db.answer, Db.answer, hfront.mem, hfront.imm]
    exact Db.valueOf_or _ (Db.valueOf_or _ (hanswer k (h.point.trans_le hk)))

/-! ### One step -/

theorem truncateBelow (h : Refines db log) (key : Key) :
    (db.truncateBelow key).1 = .ok ∧
      Refines (db.truncateBelow key).2 (log ++ [.truncated key]) := by
  have hlog : ∀ k, max (truncatedBelow log) key ≤ k → truncatedBelow log ≤ k := fun k hk =>
    (le_max_left _ _).trans hk
  have hsame : key ≤ truncatedBelow log → Refines db (log ++ [.truncated key]) := by
    intro hle
    have hmax : truncatedBelow (log ++ [.truncated key]) = truncatedBelow log := by
      rw [truncatedBelow_truncated, max_eq_left hle]
    refine ⟨h.tidy, h.floor, hmax ▸ h.point, h.readable, fun k hk => ?_⟩
    rw [lastWrite_truncated]
    exact h.contents k (hmax ▸ hk)
  have hfloor : db.writeFloor = truncatedBelow log := h.floor.trans h.point
  unfold Db.truncateBelow
  split_ifs with hempty hlt
  · exact ⟨rfl, hsame (hempty ▸ ByteOrder.nil_le _)⟩
  · refine ⟨rfl, ?_⟩
    have hbase : Db.Tidy { db with writeFloor := key } := h.tidy.of_files rfl rfl rfl
    have hpoint : db.version.truncationPoint < key := h.floor ▸ hlt
    have hnew : ({ db with writeFloor := key }.applyEdit
        { truncationPoint := key }).version.truncationPoint = key := by
      simp [Db.applyEdit, Version.apply, hpoint]
    have hmax : truncatedBelow (log ++ [.truncated key]) = key := by
      rw [truncatedBelow_truncated, ← hfloor, max_eq_right hlt.le]
    refine ⟨hbase.delete rfl, hnew.symm, hnew.trans hmax.symm, h.readable, fun k hk => ?_⟩
    rw [lastWrite_truncated]
    rw [truncatedBelow_truncated] at hk
    rw [← h.contents k (hlog k hk)]
    have hfiles : ({ db with writeFloor := key }.applyEdit
        { truncationPoint := key }).fileAnswer k = db.fileAnswer k := by
      refine Db.fileAnswer_congr fun level => ?_
      exact hbase.levelAnswer_applyEdit (.refl _) rfl (by simp) (by simp) k
    exact congrArg (fun x => Db.valueOf ((db.mem.tells k).or
      ((db.imm.bind fun m => m.tells k).or x))) hfiles
  · exact ⟨rfl, hsame (hfloor ▸ not_lt.1 hlt)⟩

theorem sealMemtable (h : Refines db log) (himm : db.imm = none) (env : WriteEnv) :
    Refines (db.sealMemtable env) log where
  tidy := h.tidy.of_files rfl rfl rfl
  floor := h.floor
  point := h.point
  readable := h.readable
  contents k hk := by
    rw [← h.contents k hk, Db.answer, Db.answer, himm]
    have hfresh : ((db.sealMemtable env).mem.tells k) = none := rfl
    have hsealed : ((db.sealMemtable env).imm.bind fun m => m.tells k) = db.mem.tells k := rfl
    rw [hfresh, hsealed, Option.none_or, Option.bind_none, Option.none_or]
    rfl

theorem runOneFlush (h : Refines db log) (env : WriteEnv) :
    Refines (db.runOneFlush options env) log := by
  have htidy := h.tidy.runOneFlush options env
  cases himm : db.imm with
  | none =>
    have hid : db.runOneFlush options env = db := by simp [Db.runOneFlush, himm]
    rwa [hid]
  | some m =>
    have hflush : db.runOneFlush options env =
        { db.flushMemtable options env m with imm := none } := by
      simp [Db.runOneFlush, himm]
    rw [hflush] at htidy ⊢
    have hfront := db.sameFront_flushMemtable options env m
    refine ⟨htidy, ?_, ?_, ?_, fun k hk => ?_⟩
    · exact hfront.writeFloor.trans (h.floor.trans hfront.truncationPoint.symm)
    · exact hfront.truncationPoint.trans h.point
    · exact hfront.requiresRecovery.trans h.readable
    · rw [← h.contents k hk, Db.answer, Db.answer, himm]
      have hdrop : Db.fileAnswer { db.flushMemtable options env m with imm := none } k =
          (db.flushMemtable options env m).fileAnswer k := Db.fileAnswer_of_files rfl rfl k
      rw [hdrop, h.tidy.fileAnswer_flushMemtable options env m k, Option.bind_none, Option.none_or,
        Option.bind_some]
      exact congrArg (fun x : Memtable => Db.valueOf ((x.tells k).or _)) hfront.mem

theorem step (h : Refines db log) (env : WriteEnv) (op : Op)
    (henabled : op.Enabled Compaction.Admissible db) :
    Refines (op.run options env db).2
      (log ++ if (op.run options env db).1 = .ok then op.events else []) := by
  cases op with
  | put key value => exact h.client (db.put_result key value)
  | remove key => exact h.client (db.remove_result key)
  | deleteRange lower upper => exact h.client (db.deleteRange_result lower upper)
  | write batch => exact h.client (db.write_result h.floor batch)
  | truncateBelow key =>
    obtain ⟨hok, hnext⟩ := h.truncateBelow key
    simp only [Op.run, Op.events, hok, if_true]
    exact hnext
  | sealMemtable =>
    simp only [Op.run, Op.events, ite_self, append_nil]
    exact h.sealMemtable henabled env
  | runOneFlush =>
    simp only [Op.run, Op.events, ite_self, append_nil]
    exact h.runOneFlush env
  | reclaimDeadFiles =>
    simp only [Op.run, Op.events, ite_self, append_nil]
    exact h.quiet h.tidy.reclaimDeadFiles db.sameFront_reclaimDeadFiles fun k hk =>
      congrArg Db.valueOf (h.tidy.fileAnswer_reclaimDeadFiles hk)
  | runMigration file target =>
    simp only [Op.run, Op.events, ite_self, append_nil]
    refine h.quiet (h.tidy.runMigration henabled.2 henabled.1 target)
      (db.sameFront_runMigration file target) fun k _ => congrArg Db.valueOf ?_
    exact h.tidy.fileAnswer_runMigration henabled.2 henabled.1 target k
  | runReencryption file =>
    simp only [Op.run, Op.events, ite_self, append_nil]
    refine h.quiet (h.tidy.runReencryption env henabled.2 henabled.1)
      (db.sameFront_replaceFile file _) fun k _ => congrArg Db.valueOf ?_
    exact h.tidy.fileAnswer_runReencryption env henabled.2 henabled.1 k
  | runCompaction c =>
    simp only [Op.run, Op.events, ite_self, append_nil]
    exact h.quiet (h.tidy.runCompaction options env henabled)
      (db.sameFront_runCompaction options env c) fun k hk =>
        h.tidy.valueOf_fileAnswer_runCompaction options env henabled hk

end Refines

variable {options : Options} {db : Db} {log : List Event}

theorem Run.refines (h : Run Compaction.Admissible options db log) : Refines db log := by
  induction h with
  | empty => exact refines_empty
  | step env op _ henabled ih => exact ih.step env op henabled

theorem Refines.get_eq (h : Refines db log) (k : Key) :
    db.get options k =
      if k < truncatedBelow log then .error .notFound else Db.replyOf (lastWrite k log) := by
  have htrunc : db.version.truncated k = true ↔ k < truncatedBelow log := by
    rw [Version.truncated, h.point, Bool.and_eq_true, decide_eq_true_eq, decide_eq_true_eq]
    exact ⟨And.right, fun hlt => ⟨fun hnil => not_lt_nil k (hnil ▸ hlt), hlt⟩⟩
  rw [h.tidy.get_eq_answer (by simp [Db.readsAreBlocked, h.readable])]
  split_ifs with hbelow hlt hlt
  · rfl
  · exact absurd (htrunc.1 hbelow) hlt
  · exact absurd (htrunc.2 hlt) hbelow
  · rw [Db.lookupResult_eq, h.contents k (not_lt.1 hlt)]

/-- A read returns the last accepted write of the key, and nothing below the truncation point. -/
theorem get_of_run (h : Run Compaction.Admissible options db log) (k : Key) :
    db.get options k =
      if k < truncatedBelow log then .error .notFound else Db.replyOf (lastWrite k log) :=
  h.refines.get_eq k

/-! ### Two runs -/

/-- Files of 1000 entries. -/
def plainOptions : Options where
  targetFileBytes _ := 1000
  compression _ := .none
  estimatedBytes _ entries := entries.length
  fileBytes _ _ := 1
  storeIsDiscardable _ := false
  allowReadsBeforeRecovery := false

/-- Write a key, flush it, move the file to level 1. -/
def settle (key : Key) (value : Value) : List (Db → Op) :=
  [fun _ => .put key value, fun _ => .sealMemtable, fun _ => .runOneFlush,
    fun db => .runCompaction
      { level := 0, outputLevel := 1, inputs := db.version.filesAt 0, overlaps := [],
        trivialMove := true }]

/-- Move the first file of a level one level down. -/
def moveDown (level : ℕ) (db : Db) : Op :=
  .runCompaction
    { level := level, outputLevel := level + 1, inputs := (db.version.filesAt level).take 1,
      overlaps := [], trivialMove := true }

/-- Over two settled keys an overwrite, a range delete and a truncation are merged into level 1. -/
def mergingScript : List (Db → Op) :=
  settle [1] [10] ++ settle [5] [50] ++
    [fun _ => .put [1] [11], fun _ => .deleteRange [4] [6], fun _ => .write [.put [7] [70]],
      fun _ => .truncateBelow [1], fun _ => .sealMemtable, fun _ => .runOneFlush,
      fun db => .runCompaction
        { level := 0, outputLevel := 1, inputs := db.version.filesAt 0,
          overlaps := db.version.filesAt 1, outputIsBottommost := true }]

theorem get_of_run_merged :
    (play plainOptions {} mergingScript ({}, [])).1.get plainOptions [1] = .ok [11] := by
  have hrun : Run Compaction.Admissible plainOptions _ _ :=
    Run.empty.play {} mergingScript (by decide)
  rw [get_of_run hrun]
  decide

/-- Of three settled keys the first is overwritten and merged with the first and third, around the
second. -/
def straddlingScript : List (Db → Op) :=
  settle [1] [10] ++ settle [2] [20] ++ settle [3] [30] ++
    [fun _ => .put [1] [11], fun _ => .sealMemtable, fun _ => .runOneFlush,
      fun db => .runCompaction
        { level := 0, outputLevel := 1, inputs := db.version.filesAt 0,
          overlaps := (db.version.filesAt 1).filter fun f => f.smallestKey ≠ [2] }]

/-- A file between the files merged is hidden: the binary search stops at the wide output. -/
theorem straddling_compaction_hides_key :
    ∃ db log, Run Compaction.Closed plainOptions db log ∧
      lastWrite [2] log = some [20] ∧ ¬ ([2] : Key) < truncatedBelow log ∧
      db.get plainOptions [2] = .error .notFound :=
  ⟨_, _, Run.empty.play {} straddlingScript (by decide), by decide, by decide, by decide⟩

end ElysiumKV
