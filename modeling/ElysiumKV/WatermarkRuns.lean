import ElysiumKV.EditCodec
import ElysiumKV.Runs

/-!
# Watermark intervals and the log

A client sets watermarks between completed writes and those to come. A file's flushes lie above its
`low`, and writes at or below its `high` are in flushes no later than its newest (`Certified`); all
outputs of a compaction carry the interval of all inputs (`data_older_than_high`).
-/

namespace ElysiumKV

open Codec List Function

/-- `set_watermark` on a healthy writable instance. -/
def Db.setWatermark (db : Db) (position : ℕ) : Status × Db :=
  if db.establishedWatermark.any (position < ·) then (.config, db)
  else
    let watermark : WatermarkInterval :=
      if db.mem.isEmpty then ⟨some position, some position⟩
      else { db.mem.watermark with high := some position }
    (.ok, { db with establishedWatermark := some position, mem := { db.mem with watermark } })

/-! ### The writes behind the data -/

/-- The positions its memtable took, and its file, if any. -/
structure Flush where
  positions : List ℕ
  fileNumber : ℕ

/-- The positions of a flush. -/
def positionsAt (flushes : List Flush) (i : ℕ) : List ℕ := (flushes[i]?.map Flush.positions).getD []

/-- A store with its memtables' writes, its flushes, and the flushes each file was made from. -/
structure Positioned where
  db : Db := {}
  memWrites : List ℕ := []
  immWrites : List ℕ := []
  flushes : List Flush := []
  origins : ℕ → List ℕ := fun _ => []

/-- Client writes. -/
def Op.isWrite : Op → Bool
  | .put .. | .remove _ | .deleteRange .. | .write _ => true
  | _ => false

/-- Maintenance works on files of the version. -/
def Op.Works (db : Db) : Op → Prop
  | .sealMemtable => db.imm = none
  | .runMigration file _ | .runReencryption file => file ∈ db.version.allFiles
  | .runCompaction c => ∀ file ∈ c.allInputs, file ∈ db.version.allFiles
  | _ => True

instance (db : Db) : (op : Op) → Decidable (op.Works db)
  | .sealMemtable => inferInstanceAs (Decidable (db.imm = none))
  | .runMigration file _ | .runReencryption file =>
    inferInstanceAs (Decidable (file ∈ db.version.allFiles))
  | .runCompaction c => inferInstanceAs (Decidable (∀ file ∈ c.allInputs, _))
  | .put .. | .remove _ | .deleteRange .. | .write _ | .truncateBelow _ | .runOneFlush
  | .reclaimDeadFiles => inferInstanceAs (Decidable True)

namespace Positioned

/-- All positions written. -/
def positions (x : Positioned) : List ℕ :=
  x.memWrites ++ x.immWrites ++ x.flushes.flatMap Flush.positions

/-- The positions a file's data comes from. -/
def positionsOf (x : Positioned) (file : FileMetadata) : List ℕ :=
  (x.origins file.fileNumber).flatMap (positionsAt x.flushes)

/-- A write at a position; one that leaves the memtable empty wrote nothing. -/
def wrote (options : Options) (env : WriteEnv) (x : Positioned) (op : Op) (position : ℕ) :
    Positioned :=
  let (status, db) := op.run options env x.db
  { x with
    db
    memWrites := if status = .ok ∧ db.mem.isEmpty = false then x.memWrites ++ [position]
      else x.memWrites }

/-- Which flushes the named files descend from. -/
def originsAfter (x : Positioned) : Op → ℕ → List ℕ
  | .runOneFlush => update x.origins x.db.nextFileNumber [x.flushes.length]
  | .runMigration file _ | .runReencryption file =>
    update x.origins x.db.nextFileNumber (x.origins file.fileNumber)
  | .runCompaction c =>
    if c.trivialMove then x.origins
    else fun n => if n < x.db.nextFileNumber then x.origins n
      else c.allInputs.flatMap fun file => x.origins file.fileNumber
  | _ => x.origins

/-- After a maintenance operation. -/
def maintained (options : Options) (env : WriteEnv) (x : Positioned) (op : Op) : Positioned :=
  let after := { x with db := (op.run options env x.db).2, origins := x.originsAfter op }
  match op with
  | .sealMemtable => { after with memWrites := [], immWrites := x.memWrites }
  | .runOneFlush =>
    if x.db.imm.isSome then
      { after with
        immWrites := []
        flushes := x.flushes ++ [⟨x.immWrites, x.db.nextFileNumber⟩] }
    else after
  | _ => after

/-- All intervals. -/
def intervals (x : Positioned) : List WatermarkInterval :=
  x.db.mem.watermark :: x.db.imm.toList.map Memtable.watermark ++
    x.db.version.allFiles.map FileMetadata.watermark

end Positioned

/-- From an empty store; writes at increasing positions above the watermark, which is set at or
above all writes. -/
inductive PositionedRun (options : Options) : Positioned → Prop
  | empty : PositionedRun options {}
  | wrote {x : Positioned} (env : WriteEnv) (op : Op) (position : ℕ)
      (h : PositionedRun options x) (hwrite : op.isWrite = true)
      (hlater : ∀ p ∈ x.positions, p < position)
      (habove : ∀ m ∈ x.db.establishedWatermark.toList, m < position) :
      PositionedRun options (x.wrote options env op position)
  | setWatermark {x : Positioned} (position : ℕ) (h : PositionedRun options x)
      (hbound : position < 2 ^ 64) (hcompleted : ∀ p ∈ x.positions, p ≤ position) :
      PositionedRun options { x with db := (x.db.setWatermark position).2 }
  | maintained {x : Positioned} (env : WriteEnv) (op : Op) (h : PositionedRun options x)
      (hwrite : op.isWrite = false) (hworks : op.Works x.db) :
      PositionedRun options (x.maintained options env op)

/-! ### What an interval certifies -/

/-- What a file's interval means, given its origins. -/
structure Certified (flushes : List Flush) (unflushed : List ℕ) (established : Option ℕ)
    (origins : List ℕ) (w : WatermarkInterval) : Prop where
  known : ∀ j ∈ origins, j < flushes.length
  above : ∀ low ∈ w.low, ∀ j ∈ origins, ∀ p ∈ positionsAt flushes j, low < p
  established : ∀ high ∈ w.high, ∃ m ∈ established, high ≤ m
  unflushed : ∀ high ∈ w.high, ∀ p ∈ unflushed, high < p
  newest : ∀ high ∈ w.high, ∃ j ∈ origins, ∀ i, ∀ p ∈ positionsAt flushes i, p ≤ high → i ≤ j
  ordered : w.Ordered

variable {flushes : List Flush}

theorem positionsAt_append_left {i : ℕ} (h : i < flushes.length) (flush : Flush) :
    positionsAt (flushes ++ [flush]) i = positionsAt flushes i := by
  unfold positionsAt
  rw [List.getElem?_append_left h]

theorem positionsAt_append_self (flushes : List Flush) (flush : Flush) :
    positionsAt (flushes ++ [flush]) flushes.length = flush.positions := by
  simp [positionsAt]

theorem lt_of_mem_positionsAt {i p : ℕ} (h : p ∈ positionsAt flushes i) : i < flushes.length := by
  by_contra hle
  rw [positionsAt, List.getElem?_eq_none (not_lt.1 hle)] at h
  cases h

theorem mem_flatMap_positions {p : ℕ} :
    p ∈ flushes.flatMap Flush.positions ↔ ∃ i, p ∈ positionsAt flushes i := by
  rw [mem_flatMap]
  constructor
  · rintro ⟨flush, hflush, hp⟩
    obtain ⟨i, hi⟩ := mem_iff_getElem?.1 hflush
    exact ⟨i, by rwa [positionsAt, hi]⟩
  · rintro ⟨i, hp⟩
    unfold positionsAt at hp
    cases hi : flushes[i]? with
    | none => simp [hi] at hp
    | some flush => exact ⟨flush, mem_of_getElem? hi, by simpa [hi] using hp⟩

namespace Certified

variable {flushes : List Flush} {unflushed : List ℕ} {established : Option ℕ} {origins : List ℕ}
  {w : WatermarkInterval}

theorem wrote (h : Certified flushes unflushed established origins w) {unflushed' : List ℕ}
    (hnew : ∀ p ∈ unflushed', p ∈ unflushed ∨ ∀ m ∈ established, m < p) :
    Certified flushes unflushed' established origins w where
  known := h.known
  above := h.above
  established := h.established
  unflushed high hhigh p hp := by
    rcases hnew p hp with hp | hp
    · exact h.unflushed high hhigh p hp
    · obtain ⟨m, hm, hle⟩ := h.established high hhigh
      exact hle.trans_lt (hp m hm)
  newest := h.newest
  ordered := h.ordered

theorem marked (h : Certified flushes unflushed established origins w) {position : ℕ}
    (hle : ∀ m ∈ established, m ≤ position) :
    Certified flushes unflushed (some position) origins w :=
  { h with
    established := fun high hhigh => by
      obtain ⟨m, hm, hhm⟩ := h.established high hhigh
      exact ⟨position, rfl, hhm.trans (hle m hm)⟩ }

theorem flushed (h : Certified flushes unflushed established origins w) {flush : Flush}
    {unflushed' : List ℕ} (hflush : flush.positions ⊆ unflushed) (hrest : unflushed' ⊆ unflushed) :
    Certified (flushes ++ [flush]) unflushed' established origins w where
  known j hj := (h.known j hj).trans_le (by simp)
  above low hlow j hj p hp := by
    rw [positionsAt_append_left (h.known j hj)] at hp
    exact h.above low hlow j hj p hp
  established := h.established
  unflushed high hhigh p hp := h.unflushed high hhigh p (hrest hp)
  newest high hhigh := by
    obtain ⟨j, hj, hnewest⟩ := h.newest high hhigh
    refine ⟨j, hj, fun i p hp hle => ?_⟩
    by_cases hi : i < flushes.length
    · rw [positionsAt_append_left hi] at hp
      exact hnewest i p hp hle
    · -- the new flush holds only writes above the high
      obtain rfl : i = flushes.length := by
        have := lt_of_mem_positionsAt hp
        rw [length_append, length_singleton] at this
        omega
      rw [positionsAt_append_self] at hp
      exact absurd hle (not_le.2 (h.unflushed high hhigh p (hflush hp)))
  ordered := h.ordered

theorem merge {origins' : List ℕ} {w' : WatermarkInterval}
    (h : Certified flushes unflushed established origins w)
    (h' : Certified flushes unflushed established origins' w') :
    Certified flushes unflushed established (origins ++ origins') (w.merge w') where
  known j hj := (mem_append.1 hj).elim (h.known j) (h'.known j)
  above low hlow j hj p hp := by
    obtain ⟨a, b, ha, hb, rfl⟩ := WatermarkInterval.merge_low_eq_some.1 hlow
    rcases mem_append.1 hj with hj | hj
    · exact (min_le_left a b).trans_lt (h.above a ha j hj p hp)
    · exact (min_le_right a b).trans_lt (h'.above b hb j hj p hp)
  established high hhigh := (WatermarkInterval.merge_high_cases hhigh).elim
    (h.established high) (h'.established high)
  unflushed high hhigh := (WatermarkInterval.merge_high_cases hhigh).elim
    (h.unflushed high) (h'.unflushed high)
  newest high hhigh := by
    rcases WatermarkInterval.merge_high_cases hhigh with hhigh | hhigh
    · obtain ⟨j, hj, hnewest⟩ := h.newest high hhigh
      exact ⟨j, mem_append_left _ hj, hnewest⟩
    · obtain ⟨j, hj, hnewest⟩ := h'.newest high hhigh
      exact ⟨j, mem_append_right _ hj, hnewest⟩
  ordered := h.ordered.merge

theorem watermark {c : Compaction} {originsOf : FileMetadata → List ℕ}
    (h : ∀ file ∈ c.allInputs,
      Certified flushes unflushed established (originsOf file) file.watermark) :
    Certified flushes unflushed established (c.allInputs.flatMap originsOf) c.watermark := by
  unfold Compaction.watermark
  cases hinputs : c.allInputs with
  | nil => exact ⟨nofun, nofun, nofun, nofun, nofun, nofun⟩
  | cons first rest =>
    rw [hinputs] at h
    -- the loop so far has the origins of the inputs it has merged
    have hloop : ∀ (files : List FileMetadata) (done : List ℕ) (w : WatermarkInterval),
        Certified flushes unflushed established done w →
        (∀ file ∈ files,
          Certified flushes unflushed established (originsOf file) file.watermark) →
        Certified flushes unflushed established (done ++ files.flatMap originsOf)
          (files.foldl (fun w g => w.merge g.watermark) w) := by
      intro files
      induction files with
      | nil =>
        intro done w hw _
        rwa [flatMap_nil, append_nil]
      | cons file files ih =>
        intro done w hw hfiles
        rw [flatMap_cons, ← append_assoc]
        exact ih _ _ (hw.merge (hfiles file (mem_cons_self ..)))
          fun f hf => hfiles f (mem_cons_of_mem _ hf)
    exact hloop rest _ _ (h first (mem_cons_self ..)) fun f hf => h f (mem_cons_of_mem _ hf)

end Certified

namespace Db

/-- Memtables are equal, and each file carries an interval of before under its number, or is new and
`fresh`. -/
structure Carries (db db' : Db) (fresh : FileMetadata → Prop) : Prop where
  mem : db'.mem = db.mem
  imm : db'.imm = db.imm
  established : db'.establishedWatermark = db.establishedWatermark
  counter : db.nextFileNumber ≤ db'.nextFileNumber
  files : ∀ level, ∀ f ∈ db'.version.filesAt level,
    (∃ level', ∃ g ∈ db.version.filesAt level', g.fileNumber = f.fileNumber ∧
      g.watermark = f.watermark) ∨
    db.nextFileNumber ≤ f.fileNumber ∧ f.fileNumber < db'.nextFileNumber ∧ fresh f

variable {fresh : FileMetadata → Prop}

theorem Carries.refl (db : Db) : db.Carries db fresh :=
  ⟨rfl, rfl, rfl, le_rfl, fun level f hf => .inl ⟨level, f, hf, rfl, rfl⟩⟩

theorem carries_applyEdit {db db₁ : Db} {edit : VersionEdit} (hmem : db₁.mem = db.mem)
    (himm : db₁.imm = db.imm) (hestablished : db₁.establishedWatermark = db.establishedWatermark)
    (hversion : db₁.version = db.version) (hcounter : db.nextFileNumber ≤ db₁.nextFileNumber)
    (hadded : ∀ f ∈ edit.added,
      (∃ level, ∃ g ∈ db.version.filesAt level, g.fileNumber = f.fileNumber ∧
        g.watermark = f.watermark) ∨
      db.nextFileNumber ≤ f.fileNumber ∧ f.fileNumber < db₁.nextFileNumber ∧ fresh f) :
    db.Carries (db₁.applyEdit edit) fresh where
  mem := hmem
  imm := himm
  established := hestablished
  counter := hcounter
  files level f hf := by
    rcases Version.mem_filesAt_apply.1 hf with ⟨hf, -⟩ | ⟨hf, -⟩
    · exact .inl ⟨level, f, hversion ▸ hf, rfl, rfl⟩
    · exact hadded f hf

theorem exists_foldl_writeNewSst (built : List SstBuildResult) (db : Db) :
    ∃ objects, built.foldl (fun db b => db.writeNewSst b.sst) db =
      { db with nextFileNumber := db.nextFileNumber + built.length, objects } := by
  induction built generalizing db with
  | nil => exact ⟨db.objects, rfl⟩
  | cons b built ih =>
    obtain ⟨objects, hobjects⟩ := ih (db.writeNewSst b.sst)
    refine ⟨objects, hobjects.trans ?_⟩
    simp only [writeNewSst, length_cons, Nat.add_assoc, Nat.add_comm 1]

variable {options : Options} {env : WriteEnv}

theorem mem_nameOutputs {c : Compaction} {number : ℕ} {built : List SstBuildResult}
    {f : FileMetadata} (hf : f ∈ nameOutputs options env c number built) :
    (f.watermark = c.watermark ∧ f.storeId = env.storeId f.fileNumber) ∧
      number ≤ f.fileNumber ∧ f.fileNumber < number + built.length := by
  induction built generalizing number with
  | nil => cases hf
  | cons b built ih =>
    rcases mem_cons.1 hf with rfl | hf
    · exact ⟨⟨rfl, rfl⟩, le_rfl, by simp [fileOf]⟩
    · obtain ⟨hw, hle, hlt⟩ := ih hf
      refine ⟨hw, (Nat.le_succ _).trans hle, ?_⟩
      rw [length_cons]
      omega

theorem carries_flushMemtable (db : Db) (m : Memtable) :
    db.Carries (db.flushMemtable options env m)
      fun f => f.fileNumber = db.nextFileNumber ∧ f.watermark = m.watermark := by
  unfold flushMemtable
  simp only
  split_ifs
  · exact .refl db
  · refine carries_applyEdit rfl rfl rfl rfl (Nat.le_succ _) fun f hf => .inr ?_
    obtain rfl := mem_singleton.1 hf
    exact ⟨le_rfl, Nat.lt_succ_self _, rfl, rfl⟩

theorem carries_replaceFile (db : Db) (file : FileMetadata) {moved : ℕ → FileMetadata}
    (hmoved : ∀ n, (moved n).fileNumber = n ∧ (moved n).watermark = file.watermark) :
    db.Carries (db.replaceFile file moved)
      fun f => f.fileNumber = db.nextFileNumber ∧ f.watermark = file.watermark := by
  unfold replaceFile
  split
  · exact .refl db
  · refine carries_applyEdit rfl rfl rfl rfl (Nat.le_succ _) fun f hf => .inr ?_
    obtain rfl := mem_singleton.1 hf
    rw [(hmoved _).1]
    exact ⟨le_rfl, Nat.lt_succ_self _, rfl, (hmoved _).2⟩

theorem carries_reclaimDeadFiles (db : Db) : db.Carries db.reclaimDeadFiles fresh := by
  unfold reclaimDeadFiles
  simp only
  split_ifs
  · exact .refl db
  · exact carries_applyEdit rfl rfl rfl rfl le_rfl nofun

theorem carries_truncateBelow (db : Db) (key : Key) :
    db.Carries (db.truncateBelow key).2 fresh := by
  unfold truncateBelow
  split_ifs
  · exact .refl db
  · exact carries_applyEdit rfl rfl rfl rfl le_rfl nofun
  · exact .refl db

theorem carries_runCompaction (db : Db) {c : Compaction}
    (hinputs : ∀ file ∈ c.allInputs, file ∈ db.version.allFiles) :
    db.Carries (db.runCompaction options env c)
      fun f => c.trivialMove = false ∧ f.watermark = c.watermark := by
  unfold runCompaction
  by_cases htrivial : c.trivialMove = true
  · rw [if_pos htrivial]
    cases hfirst : c.inputs with
    | nil => exact .refl db
    | cons moved rest =>
      refine carries_applyEdit rfl rfl rfl rfl le_rfl fun f hf => .inl ?_
      obtain rfl := mem_singleton.1 hf
      obtain ⟨level, hlevel⟩ := Version.mem_allFiles.1
        (hinputs moved (by simp [Compaction.allInputs, hfirst]))
      exact ⟨level, moved, hlevel, rfl, rfl⟩
  · rw [if_neg htrivial]
    cases db.sourcesOf c.allInputs with
    | none => exact .refl db
    | some sources =>
      obtain ⟨objects, hobjects⟩ := exists_foldl_writeNewSst
        (c.writeCompactionOutputs options db.version.truncationPoint sources) db
      simp only
      rw [hobjects]
      refine carries_applyEdit rfl rfl rfl rfl (Nat.le_add_right ..) fun f hf => .inr ?_
      obtain ⟨⟨hw, -⟩, hle, hlt⟩ := mem_nameOutputs hf
      exact ⟨hle, hlt, Bool.eq_false_iff.2 htrivial, hw⟩

end Db

namespace Memtable

theorem isEmpty_of_insert {m : Memtable} {e : Entry} (h : (m.insert e).isEmpty = true) :
    m.isEmpty = true := by
  have hne : SortedMap.insert Entry.key e m.entries ≠ [] := by
    cases m.entries with
    | nil => exact cons_ne_nil _ _
    | cons y ys =>
      unfold SortedMap.insert
      split_ifs <;> exact cons_ne_nil _ _
  simp only [isEmpty, Bool.and_eq_true, decide_eq_true_eq, length_eq_zero_iff] at h
  exact absurd h.1 hne

theorem isEmpty_of_applyOp {m : Memtable} {floor : Key} {op : Db.BatchOp}
    (h : (Db.applyOp floor m op).isEmpty = true) : m.isEmpty = true := by
  cases op with
  | put key value => exact isEmpty_of_insert h
  | remove key => exact isEmpty_of_insert h
  | deleteRange lower upper =>
    simp only [Db.applyOp, deleteRange] at h
    split_ifs at h
    · simp [isEmpty] at h
    · exact h

theorem watermark_applyOp (m : Memtable) (floor : Key) (op : Db.BatchOp) :
    (Db.applyOp floor m op).watermark = m.watermark := by
  cases op with
  | put key value => rfl
  | remove key => rfl
  | deleteRange lower upper => exact watermark_deleteRange ..

end Memtable

theorem Op.run_of_isWrite (options : Options) (env : WriteEnv) (db : Db) {op : Op}
    (h : op.isWrite = true) : ∃ m : Memtable, (op.run options env db).2 = { db with mem := m } ∧
      m.watermark = db.mem.watermark ∧ (m.isEmpty = true → db.mem.isEmpty = true) := by
  have hbatch : ∀ (floor : Key) (ops : List Db.BatchOp) (m : Memtable),
      (ops.foldl (Db.applyOp floor) m).watermark = m.watermark ∧
        ((ops.foldl (Db.applyOp floor) m).isEmpty = true → m.isEmpty = true) := by
    intro floor ops
    induction ops with
    | nil => exact fun m => ⟨rfl, id⟩
    | cons op ops ih =>
      intro m
      refine ⟨(ih _).1.trans (m.watermark_applyOp floor op), fun hempty => ?_⟩
      exact Memtable.isEmpty_of_applyOp ((ih _).2 hempty)
  -- whatever the writes, they are accepted and applied in order, or refused
  have haccepted : ∀ {ops : List Db.BatchOp} {result : Status × Db},
      Db.AcceptsOrRefuses db ops result → ∃ m : Memtable, result.2 = { db with mem := m } ∧
        m.watermark = db.mem.watermark ∧ (m.isEmpty = true → db.mem.isEmpty = true) := by
    rintro ops result (rfl | ⟨status, -, rfl⟩)
    · exact ⟨_, rfl, hbatch ..⟩
    · exact ⟨db.mem, rfl, rfl, id⟩
  cases op with
  | put key value => exact haccepted (db.put_result key value)
  | remove key => exact haccepted (db.remove_result key)
  | deleteRange lower upper => exact haccepted (db.deleteRange_result lower upper)
  | write batch =>
    simp only [Op.run, Db.write]
    split
    · exact ⟨_, rfl, hbatch ..⟩
    · exact ⟨db.mem, rfl, rfl, id⟩
  | _ => cases h

/-- What the interval of the sealed memtable means. -/
structure Sealed (memWrites immWrites : List ℕ) (established : Option ℕ) (w : WatermarkInterval) :
    Prop where
  above : ∀ low ∈ w.low, ∀ p ∈ immWrites, low < p
  established : ∀ high ∈ w.high, ∃ m ∈ established, high ≤ m
  later : ∀ high ∈ w.high, ∀ p ∈ memWrites, high < p
  ordered : w.Ordered

/-- The invariant: intervals bracket writes. -/
structure Positioned.Bracketed (x : Positioned) : Prop where
  above : ∀ low ∈ x.db.mem.watermark.low, ∀ p ∈ x.memWrites, low < p
  high : x.db.mem.watermark.high = x.db.establishedWatermark
  ordered : x.db.mem.watermark.Ordered
  empty : x.db.mem.isEmpty = true → x.memWrites = []
  bound : ∀ m ∈ x.db.establishedWatermark, m < 2 ^ 64
  imm : ∀ m ∈ x.db.imm, Sealed x.memWrites x.immWrites x.db.establishedWatermark m.watermark
  noImm : x.db.imm = none → x.immWrites = []
  files : ∀ level, ∀ f ∈ x.db.version.filesAt level, f.fileNumber < x.db.nextFileNumber ∧
    Certified x.flushes (x.memWrites ++ x.immWrites) x.db.establishedWatermark
      (x.origins f.fileNumber) f.watermark

namespace Positioned

variable {x : Positioned} {options : Options} {env : WriteEnv}

theorem bracketed_empty : Bracketed {} where
  above := nofun
  high := rfl
  ordered := nofun
  empty _ := rfl
  bound := nofun
  imm := nofun
  noImm _ := rfl
  files level f hf := by simp [Version.filesAt] at hf

theorem Bracketed.wrote (h : x.Bracketed) {op : Op} {position : ℕ} (hwrite : op.isWrite = true)
    (habove : ∀ m ∈ x.db.establishedWatermark, m < position) :
    (x.wrote options env op position).Bracketed := by
  obtain ⟨m, hrun, hw, hempty⟩ := Op.run_of_isWrite options env x.db hwrite
  have hdb : (x.wrote options env op position).db = { x.db with mem := m } := hrun
  have hnew : ∀ p ∈ (x.wrote options env op position).memWrites,
      p ∈ x.memWrites ∨ p = position := by
    intro p hp
    simp only [Positioned.wrote] at hp
    split_ifs at hp
    · exact (mem_append.1 hp).imp_right mem_singleton.1
    · exact .inl hp
  -- the interval of the memtable was established before the write
  have hbelow : ∀ high ∈ x.db.establishedWatermark,
      ∀ p ∈ (x.wrote options env op position).memWrites, p ∈ x.memWrites ∨ high < p := by
    intro high hhigh p hp
    rcases hnew p hp with hp | rfl
    · exact .inl hp
    · exact .inr (habove high hhigh)
  refine ⟨?_, ?_, ?_, ?_, ?_, ?_, ?_, ?_⟩ <;> rw [hdb]
  · intro low hlow p hp
    rw [hw] at hlow
    obtain ⟨high, hhigh, hle⟩ := h.ordered low hlow
    rcases hbelow high (h.high ▸ hhigh) p hp with hp | hp
    · exact h.above low hlow p hp
    · exact hle.trans_lt hp
  · exact (congrArg _ hw).trans h.high
  · show m.watermark.Ordered
    rw [hw]
    exact h.ordered
  · intro hm
    have hm : m.isEmpty = true := hm
    have hkept : (x.wrote options env op position).memWrites = x.memWrites := by
      simp only [Positioned.wrote, hrun, hm, Bool.true_eq_false, and_false, if_false]
    rw [hkept]
    exact h.empty (hempty hm)
  · exact h.bound
  · intro imm himm
    have hsealed := h.imm imm himm
    refine ⟨hsealed.above, hsealed.established, fun high hhigh p hp => ?_, hsealed.ordered⟩
    obtain ⟨e, he, hle⟩ := hsealed.established high hhigh
    rcases hbelow e he p hp with hp | hp
    · exact hsealed.later high hhigh p hp
    · exact hle.trans_lt hp
  · exact h.noImm
  · intro level f hf
    obtain ⟨hnumber, hcert⟩ := h.files level f hf
    refine ⟨hnumber, hcert.wrote fun p hp => ?_⟩
    rcases mem_append.1 hp with hp | hp
    · rcases hnew p hp with hp | rfl
      · exact .inl (mem_append_left _ hp)
      · exact .inr habove
    · exact .inl (mem_append_right _ hp)

theorem Bracketed.setWatermark (h : x.Bracketed) {position : ℕ} (hbound : position < 2 ^ 64) :
    ({ x with db := (x.db.setWatermark position).2 } : Positioned).Bracketed := by
  unfold Db.setWatermark
  by_cases hrefused : x.db.establishedWatermark.any (position < ·) = true
  · rw [if_pos hrefused]
    exact h
  rw [if_neg hrefused]
  have hle : ∀ m ∈ x.db.establishedWatermark, m ≤ position := by
    intro m hm
    rw [Option.mem_def.1 hm] at hrefused
    simpa using hrefused
  have hmarked : ∀ w : WatermarkInterval, w.high = some position →
      (∀ low ∈ w.low, low ≤ position ∧ ∀ p ∈ x.memWrites, low < p) →
      ({ x with db := { x.db with
        establishedWatermark := some position
        mem := { x.db.mem with watermark := w } } } : Positioned).Bracketed := by
    intro w hhigh hlow
    refine ⟨fun low hl => (hlow low hl).2, hhigh, fun low hl => ⟨position, hhigh, (hlow low hl).1⟩,
      h.empty, ?_, fun m hm => ?_, h.noImm, fun level f hf => ?_⟩
    · rintro m ⟨⟩
      exact hbound
    · have hsealed := h.imm m hm
      refine { hsealed with established := fun high hhigh => ?_ }
      obtain ⟨e, he, hhe⟩ := hsealed.established high hhigh
      exact ⟨position, rfl, hhe.trans (hle e he)⟩
    · obtain ⟨hnumber, hcert⟩ := h.files level f hf
      exact ⟨hnumber, hcert.marked hle⟩
  by_cases hempty : x.db.mem.isEmpty = true
  · simp only [hempty, if_true]
    refine hmarked _ rfl fun low hlow => ?_
    obtain rfl := Option.some.inj hlow
    rw [h.empty hempty]
    exact ⟨le_rfl, by simp⟩
  · simp only [hempty]
    refine hmarked _ rfl fun low hlow => ⟨?_, h.above low hlow⟩
    obtain ⟨high, hhigh, hlh⟩ := h.ordered low hlow
    exact hlh.trans (hle high (h.high ▸ hhigh))

theorem Bracketed.sealMemtable (h : x.Bracketed) :
    (x.maintained options env .sealMemtable).Bracketed := by
  refine ⟨nofun, ?_, ?_, fun _ => rfl, h.bound, ?_, nofun, fun level f hf => ?_⟩
  · show (x.db.newMemtable env).watermark.high = x.db.establishedWatermark
    unfold Db.newMemtable
    cases x.db.establishedWatermark <;> rfl
  · show (x.db.newMemtable env).watermark.Ordered
    unfold Db.newMemtable
    cases x.db.establishedWatermark with
    | none => exact nofun
    | some m =>
      rintro low ⟨⟩
      exact ⟨m, rfl, le_rfl⟩
  · rintro m ⟨⟩
    refine ⟨h.above, fun high hhigh => ⟨high, ?_, le_rfl⟩, nofun, h.ordered⟩
    exact h.high ▸ hhigh
  · obtain ⟨hnumber, hcert⟩ := h.files level f hf
    exact ⟨hnumber, hcert.wrote fun p hp => .inl (mem_append_left _ hp)⟩

theorem Bracketed.carried (h : x.Bracketed) {db' : Db} {fresh : FileMetadata → Prop}
    (hc : x.db.Carries db' fresh) {origins' : ℕ → List ℕ}
    (hkept : ∀ n < x.db.nextFileNumber, origins' n = x.origins n)
    (hfresh : ∀ f, x.db.nextFileNumber ≤ f.fileNumber → f.fileNumber < db'.nextFileNumber →
      fresh f → Certified x.flushes (x.memWrites ++ x.immWrites) x.db.establishedWatermark
        (origins' f.fileNumber) f.watermark) :
    ({ x with db := db', origins := origins' } : Positioned).Bracketed where
  above := by simpa only [hc.mem] using h.above
  high := by simpa only [hc.mem, hc.established] using h.high
  ordered := by simpa only [hc.mem] using h.ordered
  empty := by simpa only [hc.mem] using h.empty
  bound := by simpa only [hc.established] using h.bound
  imm := by simpa only [hc.imm, hc.established] using h.imm
  noImm := by simpa only [hc.imm] using h.noImm
  files level f hf := by
    simp only [hc.established]
    rcases hc.files level f hf with ⟨level', g, hg, hnumber, hw⟩ | ⟨hle, hlt, hf⟩
    · obtain ⟨hg, hcert⟩ := h.files level' g hg
      rw [hnumber] at hg hcert
      rw [hkept _ hg, ← hw]
      exact ⟨hg.trans_le hc.counter, hcert⟩
    · exact ⟨hlt, hfresh f hle hlt hf⟩

theorem Bracketed.runOneFlush (h : x.Bracketed) :
    (x.maintained options env .runOneFlush).Bracketed := by
  have hkept : ∀ n < x.db.nextFileNumber, x.originsAfter .runOneFlush n = x.origins n :=
    fun n hn => update_of_ne hn.ne _ _
  cases himm : x.db.imm with
  | none =>
    have hx : x.maintained options env .runOneFlush =
        { x with db := x.db, origins := x.originsAfter .runOneFlush } := by
      simp [Positioned.maintained, Op.run, Db.runOneFlush, himm]
    rw [hx]
    exact h.carried (.refl x.db) hkept fun f _ _ hf => False.elim hf
  | some m =>
    -- the memtable counts as flushed first, and its file is installed then
    have hflushed : ({ x with
        db := { x.db with imm := none }
        immWrites := []
        flushes := x.flushes ++ [⟨x.immWrites, x.db.nextFileNumber⟩] } : Positioned).Bracketed := by
      refine ⟨h.above, h.high, h.ordered, h.empty, h.bound, by simp, fun _ => rfl,
        fun level f hf => ?_⟩
      obtain ⟨hnumber, hcert⟩ := h.files level f hf
      refine ⟨hnumber, hcert.flushed (subset_append_right _ _) ?_⟩
      rw [append_nil]
      exact subset_append_left _ _
    have hdb : (Op.runOneFlush.run options env x.db).2 =
        ({ x.db with imm := none } : Db).flushMemtable options env m := by
      simp only [Op.run, Db.runOneFlush, himm, Db.flushMemtable]
      split_ifs <;> rfl
    have hx : x.maintained options env .runOneFlush = { x with
        db := ({ x.db with imm := none } : Db).flushMemtable options env m
        immWrites := []
        flushes := x.flushes ++ [⟨x.immWrites, x.db.nextFileNumber⟩]
        origins := x.originsAfter .runOneFlush } := by
      simp only [Positioned.maintained, himm, Option.isSome_some, if_true, hdb]
    rw [hx]
    refine hflushed.carried (Db.carries_flushMemtable _ m) hkept fun f _ _ hf => ?_
    obtain ⟨hnumber, hw⟩ := hf
    have horigins : x.originsAfter .runOneFlush f.fileNumber = [x.flushes.length] := by
      rw [hnumber]
      exact update_self ..
    have hsealed := h.imm m himm
    rw [horigins, hw]
    refine ⟨?_, ?_, hsealed.established, ?_, ?_, hsealed.ordered⟩
    · rintro j hj
      simp [mem_singleton.1 hj]
    · intro low hlow j hj p hp
      rw [mem_singleton.1 hj, positionsAt_append_self] at hp
      exact hsealed.above low hlow p hp
    · rw [append_nil]
      exact hsealed.later
    · intro high hhigh
      refine ⟨_, mem_singleton_self _, fun i p hp _ => ?_⟩
      have := lt_of_mem_positionsAt hp
      rw [length_append, length_singleton] at this
      omega

theorem Bracketed.replaced (h : x.Bracketed) {file : FileMetadata} {level : ℕ}
    (hfile : file ∈ x.db.version.filesAt level) {moved : ℕ → FileMetadata}
    (hmoved : ∀ n, (moved n).fileNumber = n ∧ (moved n).watermark = file.watermark) :
    ({ x with
      db := x.db.replaceFile file moved
      origins := update x.origins x.db.nextFileNumber (x.origins file.fileNumber) } :
        Positioned).Bracketed := by
  refine h.carried (Db.carries_replaceFile _ file hmoved)
    (fun n hn => update_of_ne hn.ne _ _) fun f _ _ hf => ?_
  rw [hf.1, hf.2, update_self]
  exact (h.files level file hfile).2

theorem Bracketed.runMigration (h : x.Bracketed) {file : FileMetadata} {level : ℕ}
    (hfile : file ∈ x.db.version.filesAt level) (target : Bytes) :
    (x.maintained options env (.runMigration file target)).Bracketed := by
  show ({ x with db := x.db.runMigration file target, origins := _ } : Positioned).Bracketed
  unfold Db.runMigration
  split_ifs
  · exact h.carried (.refl x.db) (fun n hn => update_of_ne hn.ne _ _) fun f _ _ hf => False.elim hf
  · exact h.replaced hfile fun n => ⟨rfl, rfl⟩

theorem Bracketed.runCompaction (h : x.Bracketed) {c : Compaction}
    (hinputs : ∀ file ∈ c.allInputs, file ∈ x.db.version.allFiles) :
    (x.maintained options env (.runCompaction c)).Bracketed := by
  refine h.carried (Db.carries_runCompaction x.db hinputs) (fun n hn => ?_) fun f hle _ hf => ?_
  · show (if c.trivialMove = true then x.origins else
      fun n => if n < x.db.nextFileNumber then x.origins n else _) n = _
    split_ifs
    · rfl
    · exact if_pos hn
  · have horigins : x.originsAfter (.runCompaction c) f.fileNumber =
        c.allInputs.flatMap fun file => x.origins file.fileNumber := by
      simp only [originsAfter, hf.1, Bool.false_eq_true, if_false, not_lt.2 hle]
    rw [horigins, hf.2]
    refine Certified.watermark fun file hfile => ?_
    obtain ⟨level, hlevel⟩ := Version.mem_allFiles.1 (hinputs file hfile)
    exact (h.files level file hlevel).2

theorem Bracketed.maintained (h : x.Bracketed) {op : Op} (hwrite : op.isWrite = false)
    (hworks : op.Works x.db) : (x.maintained options env op).Bracketed := by
  have hunchanged : ∀ {db' : Db}, x.db.Carries db' (fun _ => False) →
      ({ x with db := db' } : Positioned).Bracketed := fun hc =>
    h.carried hc (fun _ _ => rfl) fun f _ _ hf => False.elim hf
  cases op with
  | truncateBelow key => exact hunchanged (x.db.carries_truncateBelow key)
  | sealMemtable => exact h.sealMemtable
  | runOneFlush => exact h.runOneFlush
  | reclaimDeadFiles => exact hunchanged x.db.carries_reclaimDeadFiles
  | runMigration file target =>
    obtain ⟨level, hlevel⟩ := Version.mem_allFiles.1 hworks
    exact h.runMigration hlevel target
  | runReencryption file =>
    obtain ⟨level, hlevel⟩ := Version.mem_allFiles.1 hworks
    show ({ x with db := x.db.runReencryption env file, origins := _ } : Positioned).Bracketed
    unfold Db.runReencryption
    exact h.replaced hlevel fun n => ⟨rfl, rfl⟩
  | runCompaction c => exact h.runCompaction hworks
  | _ => cases hwrite

end Positioned

variable {x : Positioned}

theorem PositionedRun.bracketed {options : Options} (h : PositionedRun options x) :
    x.Bracketed := by
  induction h with
  | empty => exact Positioned.bracketed_empty
  | wrote env op position _ hwrite _ habove ih =>
    exact ih.wrote hwrite fun m hm => habove m (Option.mem_toList.2 hm)
  | setWatermark position _ hbound _ ih => exact ih.setWatermark hbound
  | maintained env op _ hwrite hworks ih => exact ih.maintained hwrite hworks

theorem WatermarkInterval.Ordered.representable {w : WatermarkInterval} {established : Option ℕ}
    (h : w.Ordered) (hhigh : ∀ high ∈ w.high, ∃ m ∈ established, high ≤ m)
    (hbound : ∀ m ∈ established, m < 2 ^ 64) : w.Representable := by
  have hhigh : ∀ high ∈ w.high, high < 2 ^ 64 := by
    intro high hh
    obtain ⟨m, hm, hle⟩ := hhigh high hh
    exact hle.trans_lt (hbound m hm)
  refine ⟨fun low hlow => ?_, hhigh⟩
  obtain ⟨high, hh, hle⟩ := h low hlow
  exact ⟨hle.trans_lt (hhigh high hh), high, hh, hle⟩

theorem Positioned.Bracketed.representable (h : x.Bracketed) {w : WatermarkInterval}
    (hw : w ∈ x.intervals) : w.Representable := by
  simp only [intervals, cons_append, mem_cons, mem_append, mem_map, Option.mem_toList] at hw
  rcases hw with rfl | ⟨m, hm, rfl⟩ | ⟨f, hf, rfl⟩
  · exact h.ordered.representable (fun high hhigh => ⟨high, h.high ▸ hhigh, le_rfl⟩) h.bound
  · exact (h.imm m hm).ordered.representable (h.imm m hm).established h.bound
  · obtain ⟨level, hf⟩ := Version.mem_allFiles.1 hf
    obtain ⟨-, hcert⟩ := h.files level f hf
    exact hcert.ordered.representable hcert.established h.bound

/-- Every interval brackets the writes, and the decoder takes it back. -/
theorem intervals_bracket_writes {options : Options} {x : Positioned}
    (h : PositionedRun options x) :
    (∀ low ∈ x.db.mem.watermark.low, ∀ p ∈ x.memWrites, low < p) ∧
    (∀ m ∈ x.db.imm, ∀ low ∈ m.watermark.low, ∀ p ∈ x.immWrites, low < p) ∧
    (∀ f ∈ x.db.version.allFiles,
      (∀ low ∈ f.watermark.low, ∀ p ∈ x.positionsOf f, low < p) ∧
      ∀ high ∈ f.watermark.high, ∀ p ∈ x.positions, p ≤ high →
        ∃ j ∈ x.origins f.fileNumber, ∃ i ≤ j, p ∈ positionsAt x.flushes i) ∧
    ∀ w ∈ x.intervals, w.Representable ∧ Reads getWatermark (putWatermark w) w := by
  have hx := h.bracketed
  refine ⟨hx.above, fun m hm => (hx.imm m hm).above, fun f hf => ?_,
    fun w hw => ⟨hx.representable hw, reads_watermark (hx.representable hw)⟩⟩
  obtain ⟨level, hf⟩ := Version.mem_allFiles.1 hf
  obtain ⟨-, hcert⟩ := hx.files level f hf
  refine ⟨fun low hlow p hp => ?_, fun high hhigh p hp hle => ?_⟩
  · obtain ⟨j, hj, hp⟩ := mem_flatMap.1 hp
    exact hcert.above low hlow j hj p hp
  · rcases mem_append.1 hp with hp | hp
    · exact absurd hle (not_le.2 (hcert.unflushed high hhigh p hp))
    · obtain ⟨i, hi⟩ := mem_flatMap_positions.1 hp
      obtain ⟨j, hj, hnewest⟩ := hcert.newest high hhigh
      exact ⟨j, hj, i, hnewest i p hi hle, hi⟩

/-! ### Scripted runs -/

/-- A step of a script. -/
inductive LogStep
  | write (position : ℕ) (op : Op)
  | setWatermark (position : ℕ)
  | maintain (op : Db → Op)

namespace Positioned

/-- What a step does. -/
def perform (options : Options) (x : Positioned) : LogStep → Positioned
  | .write position op => x.wrote options {} op position
  | .setWatermark position => { x with db := (x.db.setWatermark position).2 }
  | .maintain op => x.maintained options {} (op x.db)

/-- The client keeps to its log, maintenance to the files. -/
def Allows (x : Positioned) : LogStep → Prop
  | .write position op => op.isWrite = true ∧ (∀ p ∈ x.positions, p < position) ∧
      ∀ m ∈ x.db.establishedWatermark.toList, m < position
  | .setWatermark position => position < 2 ^ 64 ∧ ∀ p ∈ x.positions, p ≤ position
  | .maintain op => (op x.db).isWrite = false ∧ (op x.db).Works x.db

instance (x : Positioned) : (step : LogStep) → Decidable (x.Allows step)
  | .write .. => inferInstanceAs (Decidable (_ ∧ _))
  | .setWatermark _ => inferInstanceAs (Decidable (_ ∧ _))
  | .maintain _ => inferInstanceAs (Decidable (_ ∧ _))

/-- Each step is allowed in its turn. -/
def AllowsAll (options : Options) : Positioned → List LogStep → Prop
  | _, [] => True
  | x, step :: script => x.Allows step ∧ AllowsAll options (x.perform options step) script

instance (options : Options) : (x : Positioned) → (script : List LogStep) →
    Decidable (AllowsAll options x script)
  | _, [] => inferInstanceAs (Decidable True)
  | x, step :: script =>
    have := instDecidableAllowsAll options (x.perform options step) script
    inferInstanceAs (Decidable (_ ∧ _))

end Positioned

theorem PositionedRun.foldl_perform {options : Options} (h : PositionedRun options x)
    (script : List LogStep) (hallows : x.AllowsAll options script) :
    PositionedRun options (script.foldl (Positioned.perform options) x) := by
  induction script generalizing x with
  | nil => exact h
  | cons step script ih =>
    obtain ⟨hstep, hrest⟩ := hallows
    refine ih ?_ hrest
    cases step with
    | write position op => exact h.wrote {} op position hstep.1 hstep.2.1 hstep.2.2
    | setWatermark position => exact h.setWatermark position hstep.1 hstep.2
    | maintain op => exact h.maintained {} (op x.db) hstep.1 hstep.2

/-- Write at a position, set the watermark, flush. -/
def writeThrough (position : ℕ) (key : Key) : List LogStep :=
  [.write position (.put key [0]), .setWatermark position, .maintain fun _ => .sealMemtable,
    .maintain fun _ => .runOneFlush]

/-- Merge level 0 into level 1. -/
def mergeLevelZero : LogStep :=
  .maintain fun db => .runCompaction
    { level := 0, outputLevel := 1, inputs := db.version.filesAt 0, overlaps := [] }

/-- Keys written at 1 and 2, in one file. -/
def mergedStore : Positioned :=
  (writeThrough 1 [1] ++ writeThrough 2 [2] ++ [mergeLevelZero]).foldl
    (Positioned.perform plainOptions) {}

theorem merged_interval_brackets_writes :
    mergedStore.db.version.allFiles.map (fun f => (f.watermark, mergedStore.origins f.fileNumber)) =
      [(⟨none, some 2⟩, [1, 0])] ∧
    ∀ f ∈ mergedStore.db.version.allFiles, ∀ high ∈ f.watermark.high, ∀ p ∈ mergedStore.positions,
      p ≤ high → ∃ j ∈ mergedStore.origins f.fileNumber, ∃ i ≤ j,
        p ∈ positionsAt mergedStore.flushes i := by
  have hrun : PositionedRun plainOptions mergedStore :=
    PositionedRun.empty.foldl_perform _ (by decide)
  exact ⟨by decide, fun f hf => ((intervals_bracket_writes hrun).2.2.1 f hf).2⟩

/-! ### An output without the newest data -/

/-- The file has something the flush wrote. -/
def Positioned.hasDataOf (x : Positioned) (file : FileMetadata) (flush : Flush) : Bool :=
  match x.db.objects file.fileNumber, x.db.objects flush.fileNumber with
  | some sst, some flushed =>
    sst.entries.any (· ∈ flushed.entries) || sst.ranges.any (· ∈ flushed.ranges)
  | _, _ => false

/-- Every entry gets a file of its own. -/
def narrowOptions : Options := { plainOptions with targetFileBytes := fun _ => 1 }

/-- Keys written at 1 and 2, in two files. -/
def splitStore : Positioned :=
  (writeThrough 1 [1] ++ writeThrough 2 [2] ++ [mergeLevelZero]).foldl
    (Positioned.perform narrowOptions) {}

/-- The first key's output has the high of both, though its data is older. -/
theorem data_older_than_high : PositionedRun narrowOptions splitStore ∧
    ∃ f ∈ splitStore.db.version.allFiles, f.watermark.high = some 2 ∧ 2 ∈ splitStore.positions ∧
      ∀ j < splitStore.flushes.length,
        (splitStore.flushes[j]?.any (splitStore.hasDataOf f)) = true →
          ∀ i ≤ j, 2 ∉ positionsAt splitStore.flushes i := by
  refine ⟨PositionedRun.empty.foldl_perform _ (by decide), ?_⟩
  decide

end ElysiumKV
