import ElysiumKV.Runs
import ElysiumKV.Tiers

/-!
# The coordinator's pass over an idle store

`reconcile` seals an idle memtable so that it is flushed. It counts entries where
`memtable_flush_due` asks whether the memtable is empty: one of range deletes alone is due and never
sealed.
-/

namespace ElysiumKV

/-- The options that decide on a flush. -/
structure FlushTriggers where
  memtableBytes : ℕ
  flushInterval : Option ℤ := none
  flushIntervalJitter : AgeJitter := {}

namespace FlushTriggers

variable (triggers : FlushTriggers)

/-- `flush_interval_for`. -/
def flushIntervalFor (interval : ℤ) (createdMs : ℕ) : ℕ :=
  let interval := toUInt64 interval
  let window := jitterWindowMs interval triggers.flushIntervalJitter
  if window = 0 then interval
  else (interval + 2 ^ 64 - window + jitterOffset createdMs 0 ((2 * window + 1) % 2 ^ 64)) % 2 ^ 64

/-- `memtable_flush_due`, given the approximate bytes. -/
def memtableFlushDue (force : Bool) (mem : Memtable) (approximateBytes nowMs : ℕ) : Bool :=
  if force then true
  else if triggers.memtableBytes ≤ approximateBytes then true
  else match triggers.flushInterval with
    | none => false
    | some interval =>
      if mem.isEmpty then false
      else if nowMs ≤ mem.creationTimeMs then false
      else triggers.flushIntervalFor interval mem.creationTimeMs ≤ nowMs - mem.creationTimeMs

end FlushTriggers

namespace Db

variable (triggers : FlushTriggers) (env : WriteEnv)

/-- `reconcile`, as far as it touches the memtables. -/
def reconcile (db : Db) (shuttingDown : Bool) (bgError : Status) (approximateBytes : ℕ) : Db :=
  if !shuttingDown && db.imm.isNone && bgError = .ok && 0 < db.mem.entries.length &&
      triggers.memtableFlushDue false db.mem approximateBytes env.nowMs then
    db.sealMemtable env
  else db

/-- The store without its memtables. -/
def filesAlone (db : Db) : Db := { db with mem := {}, imm := none }

end Db

variable {triggers : FlushTriggers} {options : Options} {db : Db} {log : List Event}

theorem Refines.filesAlone (h : Refines db log) (hmem : db.mem.isEmpty = true)
    (himm : db.imm = none) : Refines db.filesAlone log where
  tidy := h.tidy.of_files rfl rfl rfl
  floor := h.floor
  point := h.point
  readable := h.readable
  contents k hk := by
    have hfiles : db.filesAlone.fileAnswer k = db.fileAnswer k := Db.fileAnswer_of_files rfl rfl k
    rw [← h.contents k hk, Db.answer, Db.answer, hfiles, Memtable.tells_of_isEmpty hmem, himm]
    rfl

theorem Db.sealed_flushed (options : Options) (db : Db) (env flushEnv : WriteEnv) :
    ((db.sealMemtable env).runOneFlush options flushEnv).mem.isEmpty = true ∧
      ((db.sealMemtable env).runOneFlush options flushEnv).imm = none := by
  have hmem : ((db.sealMemtable env).runOneFlush options flushEnv).mem = db.newMemtable env :=
    ((db.sealMemtable env).sameFront_flushMemtable options flushEnv _).mem
  exact ⟨hmem ▸ rfl, rfl⟩

/-- An idle store is made durable exactly if its memtable has an entry or no range. -/
theorem reconcile_settles_iff (hrun : Run Compaction.Admissible options db log)
    (himm : db.imm = none) {approximateBytes : ℕ} {env : WriteEnv}
    (hdue : triggers.memtableFlushDue false db.mem approximateBytes env.nowMs = true)
    (flushEnv : WriteEnv) :
    (db.mem.isEmpty = false →
      db.reconcile triggers env false .ok approximateBytes = db.sealMemtable env ∧
      ∀ k, ((db.reconcile triggers env false .ok approximateBytes).runOneFlush options
          flushEnv).filesAlone.get options k =
        if k < truncatedBelow log then .error .notFound else Db.replyOf (lastWrite k log)) ↔
    (db.mem.entries ≠ [] ∨ db.mem.ranges = []) := by
  by_cases hentries : db.mem.entries = []
  · have hstays : db.reconcile triggers env false .ok approximateBytes = db := by
      simp [Db.reconcile, hentries]
    have hnot : db ≠ db.sealMemtable env := fun h => by
      simpa [himm, Db.sealMemtable] using congrArg Db.imm h
    simp [hstays, hnot, hentries, Memtable.isEmpty]
  · have hseals : db.reconcile triggers env false .ok approximateBytes = db.sealMemtable env := by
      simp [Db.reconcile, himm, hdue, List.length_pos_iff.2 hentries]
    refine iff_of_true (fun _ => ⟨hseals, fun k => ?_⟩) (.inl hentries)
    obtain ⟨hmem, hnone⟩ := db.sealed_flushed options env flushEnv
    rw [hseals]
    have hsealed := hrun.refines.sealMemtable himm env
    exact ((hsealed.runOneFlush flushEnv).filesAlone hmem hnone).get_eq k

/-- A flush every second, or at 1000 bytes. -/
def everySecond : FlushTriggers where
  memtableBytes := 1000
  flushInterval := some 1000

theorem reconcile_settles_iff_mixed :
    let state := play plainOptions {} (settle [2] [20] ++
      [fun _ => .put [4] [40], fun _ => .deleteRange [1] [3]]) ({}, [])
    ((state.1.reconcile everySecond ⟨fun _ => [], [], fun _ => [], 1500⟩ false .ok 0).runOneFlush
      plainOptions {}).filesAlone.get plainOptions [2] = .error .notFound := by
  intro state
  have hrun : Run Compaction.Admissible plainOptions state.1 state.2 :=
    Run.empty.play {} _ (by decide)
  rw [((reconcile_settles_iff hrun (by decide) (by decide) {}).2 (.inl (by decide))
    (by decide)).2 [2]]
  decide

/-- A range delete alone over a settled key is due and never sealed, and the files answer with the
deleted value. -/
theorem reconcile_leaves_ranges :
    let state := play plainOptions {} (settle [2] [20] ++ [fun _ => .deleteRange [1] [3]]) ({}, [])
    let passed := state.1.reconcile everySecond ⟨fun _ => [], [], fun _ => [], 1500⟩ false .ok 0
    Run Compaction.Admissible plainOptions state.1 state.2 ∧ state.1.imm = none ∧
    state.1.mem.isEmpty = false ∧
    everySecond.memtableFlushDue false state.1.mem 0 1500 = true ∧ passed.imm = none ∧
    lastWrite [2] state.2 = none ∧
    (passed.runOneFlush plainOptions {}).filesAlone.get plainOptions [2] = .ok [20] :=
  ⟨Run.empty.play {} _ (by decide), by decide, by decide, by decide, by decide, by decide,
    by decide⟩

end ElysiumKV
