import ElysiumKV.ReadRefinement
import ElysiumKV.Lib.Program

/-!
# The write path of one instance

Client calls, the flushing thread and truncations side by side; what is done under `mem_mutex_` is
one step. The ghosts are the open truncations, with the floor each found, and the calls applied, by
memtable.
-/

namespace ElysiumKV

open Program Program.Prog

/-- `is_terminal`. -/
def Status.isTerminal : Status → Bool
  | .corrupt | .unusable | .fenced | .config | .unsupported => true
  | _ => false

/-- `is_retryable`. -/
def Status.isRetryable (status : Status) : Bool := status = .io

namespace WritePath

/-! ### The steps -/

/-- Critical sections that write to the memtable. -/
inductive Locked
  | put (key : Key) (value : Value)
  | remove (key : Key)
  | deleteRange (lower upper : Key)
  | write (batch : List Db.BatchOp)

/-- A range is clamped to the batch's floor. -/
def clampOp (floor : Key) : Db.BatchOp → Db.BatchOp
  | .deleteRange lower upper => .deleteRange (Db.clampLower floor lower) upper
  | op => op

/-- What it applies, or the status it refuses with. -/
def Locked.ops (db : Db) : Locked → Except Status (List Db.BatchOp)
  | put key value => match db.checkBelowTruncation key with
    | .ok => .ok [.put key value]
    | status => .error status
  | remove key => match db.checkBelowTruncation key with
    | .ok => .ok [.remove key]
    | status => .error status
  | deleteRange lower upper => .ok [.deleteRange lower upper]
  | write batch => match db.checkBatch batch with
    | .ok => .ok (batch.map (clampOp db.writeFloor))
    | status => .error status

/-- The steps. -/
inductive Call
  | throttle
  | lock (locked : Locked)
  | truncationPoint
  | freeze
  | raiseFloor (key : Key)
  | restoreFloor (key previous : Key)
  | apply (edit : VersionEdit)
  | sealedMemtable
  | writeNewSst (sst : Sst)
  | checkInvariants
  | flushed (status : Status)

/-- What a step returns; a critical section also, as a ghost, how many calls were applied before. -/
@[reducible] def Call.Result : Call → Type
  | throttle => Status
  | lock _ => Except Status ℕ
  | truncationPoint => Key
  | freeze => Status
  | raiseFloor _ => Option Key
  | restoreFloor _ _ => Unit
  | apply _ => Status
  | sealedMemtable => Option Memtable
  | writeNewSst _ => Except Status ℕ
  | checkInvariants => Status
  | flushed _ => Unit

/-- An applied call: floor and truncation point it found, its operations. -/
structure Applied where
  floor : Key
  point : Key
  ops : List Db.BatchOp

/-- The instance, what a recovery would read, and the ghosts. -/
structure World (T : Type) where
  db : Db
  bgError : Status := .ok
  recorded : Version
  /-- An edit was written although its call reported a failure, so that every later one collides. -/
  collides : Bool := false
  opened : T → Option (Key × Key) := fun _ => none
  durable : List Applied := []
  waiting : List Applied := []
  active : List Applied := []

/-- A step's status, whether a failed write landed, and whether the memtable is due. -/
structure Outside where
  status : Status := .ok
  landed : Bool := false
  due : Bool := false
  env : WriteEnv := {}

namespace World

variable {T : Type}

variable (w : World T)

/-- All calls applied. -/
def calls : List Applied := w.durable ++ w.waiting ++ w.active

/-- A waiting writer's retry after a failed flush. -/
def retried (o : Outside) : World T :=
  if o.due ∧ w.bgError.isRetryable then { w with bgError := .ok } else w

/-- Operations are applied. -/
def applied (ops : List Db.BatchOp) : World T :=
  { w with
    db := { w.db with mem := ops.foldl (Db.applyOp []) w.db.mem }
    active := w.active ++ [⟨w.db.writeFloor, w.db.version.truncationPoint, ops⟩] }

/-- The memtable is sealed. -/
def sealMemtable (env : WriteEnv) : World T :=
  { w with db := w.db.sealMemtable env, waiting := w.active, active := [] }

/-- A thread's truncation in progress. -/
def withOpened [DecidableEq T] (w : World T) (t : T) (truncation : Option (Key × Key)) : World T :=
  { w with opened := Function.update w.opened t truncation }

/-- The floor is set. -/
def withFloor (floor : Key) : World T :=
  { w with db := { w.db with writeFloor := floor } }

/-- `VersionSet::apply`, stamped with the counter. -/
def installed (edit : VersionEdit) : World T :=
  { w with
    db := w.db.applyEdit edit
    recorded := w.recorded.apply { edit with nextFileNumber := w.db.nextFileNumber } }

/-- An edit is written that was not acknowledged. -/
def landed (edit : VersionEdit) : World T :=
  { w with
    recorded := w.recorded.apply { edit with nextFileNumber := w.db.nextFileNumber }
    collides := true }

/-- The end of `run_one_flush`. -/
def flushed (status : Status) : World T :=
  if status = .ok then
    { w with db := { w.db with imm := none }, durable := w.durable ++ w.waiting, waiting := [] }
  else if w.bgError = .ok ∨ w.bgError.isRetryable then { w with bgError := status }
  else w

end World

/-- One step. A truncation is open from raising the floor until its edit is installed or the floor
looked at again. -/
def answer {T : Type} [DecidableEq T] (o : Outside) (t : T) :
    (c : Call) → World T → c.Result × World T
  | .throttle, w => (o.status, w.retried o)
  | .lock locked, w =>
    if w.bgError.isTerminal then (.error w.bgError, w)
    else match locked.ops w.db with
      | .error status => (.error status, w)
      | .ok ops => (.ok w.calls.length, w.applied ops)
  | .truncationPoint, w => (w.db.version.truncationPoint, w)
  | .freeze, w =>
    if o.due ∧ w.db.imm.isNone ∧ w.db.mem.isEmpty = false then (o.status, w.sealMemtable o.env)
    else (o.status, w.retried o)
  | .raiseFloor key, w =>
    if w.db.writeFloor < key then
      (some w.db.writeFloor, (w.withFloor key).withOpened t (some (key, w.db.writeFloor)))
    else (none, w)
  | .restoreFloor key previous, w =>
    ((), (if w.db.writeFloor = key then w.withFloor previous else w).withOpened t none)
  | .apply edit, w => match o.status with
    | .ok =>
      if w.collides then (Status.fenced, w)
      else (Status.ok, (w.installed edit).withOpened t none)
    | status => (status, if o.landed ∧ w.collides = false then w.landed edit else w)
  | .sealedMemtable, w => (w.db.imm, w)
  | .writeNewSst sst, w => match o.status with
    | .ok => (.ok w.db.nextFileNumber, { w with db := w.db.writeNewSst sst })
    | status => (.error status, { w with db := if o.landed then w.db.writeNewSst sst
        else { w.db with nextFileNumber := w.db.nextFileNumber + 1 } })
  | .checkInvariants, w => (o.status, w)
  | .flushed status, w => ((), w.flushed status)

/-! ### The calls -/

/-- Programs of steps. -/
abbrev Path (α : Type) : Type := Prog Call Call.Result α

namespace Path

/-- `throttle_writes` -/
abbrev throttle : Path Status := ask Call.throttle

/-- A critical section. -/
abbrev lock (locked : Locked) : Path (Except Status ℕ) := ask (Call.lock locked)

/-- The truncation point. -/
abbrev truncationPoint : Path Key := ask Call.truncationPoint

/-- `maybe_freeze_memtable`; whether it is due is decided outside. -/
abbrev freeze : Path Status := ask Call.freeze

/-- Raise the floor: what it was. -/
abbrev raiseFloor (key : Key) : Path (Option Key) := ask (Call.raiseFloor key)

/-- Take the floor back. -/
abbrev restoreFloor (key previous : Key) : Path Unit := ask (Call.restoreFloor key previous)

/-- `VersionSet::apply`. -/
abbrev apply (edit : VersionEdit) : Path Status := ask (Call.apply edit)

/-- The sealed memtable. -/
abbrev sealedMemtable : Path (Option Memtable) := ask Call.sealedMemtable

/-- `write_new_sst`. -/
abbrev writeNewSst (sst : Sst) : Path (Except Status ℕ) := ask (Call.writeNewSst sst)

/-- `check_invariants`. -/
abbrev checkInvariants : Path Status := ask Call.checkInvariants

/-- A flush has ended. -/
abbrev flushed (status : Status) : Path Unit := ask (Call.flushed status)

end Path

/-- A status and, as a ghost, the call's place among those applied. -/
abbrev Outcome : Type := Status × Option ℕ

/-- Admission, critical section, and sealing if due. -/
def locked (l : Locked) : Path Outcome := do
  match ← Path.throttle with
  | .ok => match ← Path.lock l with
    | .error status => pure (status, none)
    | .ok place =>
      let status ← Path.freeze
      pure (status, some place)
  | status => pure (status, none)

/-- `put`. -/
def put (key : Key) (value : Value) : Path Outcome :=
  match Db.checkEntrySize key value with
  | .ok => locked (.put key value)
  | status => pure (status, none)

/-- `remove`. -/
def remove (key : Key) : Path Outcome :=
  match Db.checkEntrySize key [] with
  | .ok => locked (.remove key)
  | status => pure (status, none)

/-- `delete_range`. -/
def deleteRange (lower upper : Key) : Path Outcome :=
  match Db.checkEntrySize lower [] with
  | .ok => match Db.checkEntrySize upper [] with
    | .ok => do
      let floor ← Path.truncationPoint
      let lower := Db.clampLower floor lower
      if lower < upper then locked (.deleteRange lower upper) else pure (.ok, none)
    | status => pure (status, none)
  | status => pure (status, none)

/-- `write`. -/
def write (batch : List Db.BatchOp) : Path Outcome := locked (.write batch)

/-- `truncate_below`. -/
def truncateBelow (key : Key) : Path Outcome :=
  if key = [] then pure (.ok, none)
  else do
    match ← Path.raiseFloor key with
    | none => pure (.ok, none)
    | some previous => match ← Path.apply { truncationPoint := key } with
      | .ok => pure (.ok, none)
      | status =>
        Path.restoreFloor key previous
        pure (status, none)

/-- `flush_memtable`. -/
def flushMemtable (options : Options) (env : WriteEnv) (paranoidChecks : Bool)
    (memtable : Memtable) : Path Status := do
  let built := buildSst memtable.entries false memtable.rangeTombstones
  if built.numEntries = 0 ∧ built.numRangeTombstones = 0 then pure .ok
  else match ← Path.writeNewSst built.sst with
    | .error status => pure status
    | .ok number =>
      let file := Db.fileOf options env 0 number built memtable.creationTimeMs
        memtable.sealedTimeMs memtable.watermark
      match ← Path.apply { added := [file] } with
      | .ok => if paranoidChecks then Path.checkInvariants else pure .ok
      | status => pure status

/-- `run_one_flush`. -/
def runOneFlush (options : Options) (env : WriteEnv) (paranoidChecks : Bool) : Path Outcome := do
  match ← Path.sealedMemtable with
  | none => pure (.ok, none)
  | some memtable =>
    let status ← flushMemtable options env paranoidChecks memtable
    Path.flushed status
    pure (status, none)

/-- The operations. -/
inductive Op
  | put (key : Key) (value : Value)
  | remove (key : Key)
  | deleteRange (lower upper : Key)
  | write (batch : List Db.BatchOp)
  | truncateBelow (key : Key)
  | freeze
  | runOneFlush (env : WriteEnv)
deriving Inhabited

/-- The options, and whether it is read-only. -/
structure Setup where
  options : Options
  readOnly : Bool := false
  paranoidChecks : Bool := false

/-- The program of an operation. -/
def Op.program (setup : Setup) : Op → Path Outcome
  | .put key value => if setup.readOnly then pure (.config, none) else WritePath.put key value
  | .remove key => if setup.readOnly then pure (.config, none) else WritePath.remove key
  | .deleteRange lower upper =>
    if setup.readOnly then pure (.config, none) else WritePath.deleteRange lower upper
  | .write batch => if setup.readOnly then pure (.config, none) else WritePath.write batch
  | .truncateBelow key =>
    if setup.readOnly then pure (.config, none) else WritePath.truncateBelow key
  | .freeze => do
    let status ← Path.freeze
    pure (status, none)
  | .runOneFlush env => WritePath.runOneFlush setup.options env setup.paranoidChecks

/-- An operation that returned. -/
structure Returned where
  op : Op
  status : Status
  place : Option ℕ

/-- Threads over one instance, of which one flushes; a thread keeps what returned to it. -/
def machine (T : Type) [DecidableEq T] (setup : Setup) (flusher : T) :
    Machine T (World T) (List Returned) Op Call Call.Result where
  Enabled t op _ := ∀ env, op = .runOneFlush env → t = flusher
  start _ op s := do
    let outcome ← op.program setup
    pure (s ++ [⟨op, outcome.1, outcome.2⟩])
  reply t c w r w' := ∃ o, answer o t c w = (r, w')

/-- The state of an instance that was just opened. -/
def fresh (T : Type) (db : Db) : Machine.State T (World T) (List Returned) Op Call Call.Result where
  world := { db := db, recorded := db.version }
  threads _ := .idle []

end WritePath

end ElysiumKV
