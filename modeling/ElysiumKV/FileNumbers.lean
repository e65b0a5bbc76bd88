import ElysiumKV.ObjectNames
import ElysiumKV.ObsoleteFiles
import ElysiumKV.WriterRuns

/-!
# File numbers

A crashed process has put objects under numbers no edit recorded, so `open` steps the counter over
all the stores list. `Site.Sound` keeps numbers apart, under any interleaving of the threads' calls:
the counters are past every number acknowledged, put under or held.
-/

namespace ElysiumKV

open Program Program.Prog List Function VersionSet

variable {ι σ : Type}

/-! ### Writing an SST -/

/-- What threads ask of what they share. -/
inductive FileCall (ι σ : Type) : Type
  | allocateFileNumber
  | observeFileNumber (number : ℕ)
  | createCipher (number : ℕ)
  | sealObject (number : ℕ)
  | put (storeId name : Bytes) (sst : σ)
  | list (storeId : Bytes)
  /-- a store loses objects, or has them removed -/
  | remove (gone : Bytes → Bytes → Bool)
  | commit (op : WriterOp ι)

/-- What a call answers. -/
@[reducible] def FileCall.Result : FileCall ι σ → Type
  | .allocateFileNumber => ℕ
  | .observeFileNumber _ => Unit
  | .createCipher _ => Except Status Bytes
  | .sealObject _ => Except Status Unit
  | .put .. => Status
  | .list _ => Except Status (List Bytes)
  | .remove _ => Unit
  | .commit _ => Status

/-- Programs of such calls. -/
abbrev FileProg (ι σ α : Type) := Prog (FileCall ι σ) FileCall.Result α

namespace FileProg

/-- `allocate_file_number`. -/
def allocateFileNumber : FileProg ι σ ℕ := ask FileCall.allocateFileNumber

/-- `create` of the provider. -/
def createCipher (number : ℕ) : FileProg ι σ (Except Status Bytes) :=
  ask (FileCall.createCipher number)

/-- `seal_object`. -/
def sealObject (number : ℕ) : FileProg ι σ (Except Status Unit) :=
  ask (FileCall.sealObject number)

/-- `put` of a store. -/
def put (storeId name : Bytes) (sst : σ) : FileProg ι σ Status :=
  ask (FileCall.put storeId name sst)

/-- `list` of a store. -/
def list (storeId : Bytes) : FileProg ι σ (Except Status (List Bytes)) :=
  ask (FileCall.list storeId)

end FileProg

/-- `WrittenObject`. -/
structure WrittenObject where
  fileNumber : ℕ
  encryptionProvider : Bytes := []
  encryptionMetadata : Bytes := []

/-- An attempt's object, sealed for its number unless sealed already. -/
def sealFor (config : ManifestConfig) (sealed : Bool) (number : ℕ) :
    FileProg ι σ (Except Status WrittenObject) :=
  if sealed then pure (.ok { fileNumber := number })
  else do
    match ← FileProg.createCipher number with
    | .error status => pure (.error status)
    | .ok metadata =>
      match ← FileProg.sealObject number with
      | .error status => pure (.error status)
      | .ok () => pure (.ok ⟨number, config.registry.primary, metadata⟩)

/-- The listing of every store. -/
def listStores : List Bytes → FileProg ι σ (List (Except Status (List Bytes)))
  | [] => pure []
  | storeId :: stores => do
    let names ← FileProg.list storeId
    let rest ← listStores stores
    pure (names :: rest)

/-- Observe the numbers of the names. -/
def observeNames : List Bytes → FileProg ι σ Unit
  | [] => pure ()
  | name :: names =>
    match sstFileNumber name with
    | none => observeNames names
    | some number => do
      let _ ← ask (.observeFileNumber number)
      observeNames names

/-- Over the listings, up to one that failed. -/
def observeListings : List (Except Status (List Bytes)) → FileProg ι σ Status
  | [] => pure .ok
  | .error status :: _ => pure (if status = .notFound then .io else status)
  | .ok names :: listings => do
    let _ ← observeNames names
    observeListings listings

/-- The loop of `write_new_sst`. -/
def writeAttempts (config : ManifestConfig) (stores : List Bytes) (storeId : Bytes) (sst : σ)
    (sealed : Bool) : ℕ → FileProg ι σ (Except Status WrittenObject)
  | 0 => pure (.error .unusable)
  | attempts + 1 => do
    let number ← FileProg.allocateFileNumber
    match ← sealFor config sealed number with
    | .error status => pure (.error status)
    | .ok written =>
      let status ← FileProg.put storeId (sstObjectName number) sst
      if status = .ok then pure (.ok written)
      else if status ≠ .unusable then pure (.error status)
      else
        let listings ← listStores stores
        let refreshed ← observeListings listings
        if refreshed ≠ .ok then pure (.error refreshed)
        else writeAttempts config stores storeId sst sealed attempts

/-- `write_new_sst`, `sealed` for `seal=false`. -/
def writeNewSst (config : ManifestConfig) (stores : List Bytes) (storeId : Bytes) (sst : σ)
    (sealed : Bool) : FileProg ι σ (Except Status WrittenObject) :=
  match config.registry.find config.registry.primary with
  | none => pure (.error .config)
  | some _ => writeAttempts config stores storeId sst sealed 16

/-! ### The threads of a process -/

/-- An object in a store. -/
structure SstObject (σ : Type) where
  storeId : Bytes
  name : Bytes
  sst : σ

/-- An object that was stored, and the numbers acknowledged before. -/
structure SstWrite where
  name : Bytes
  acknowledged : List ℕ

/-- What threads share, with stores and catalog. `halted`: a manifest operation was cut short,
nothing more is committed. `held`: a number drawn and not put under; `stored`: numbers this process
put; `acknowledged`: numbers of any acknowledged version. -/
structure Site (ι σ : Type) where
  running : Bool := false
  halted : Bool := false
  versions : VersionSet ι := {}
  world : ShakyCatalog ι := {}
  objects : List (SstObject σ) := []
  held : ℕ → Option ℕ := fun _ => none
  stored : List ℕ := []
  acknowledged : List ℕ := []
  writes : List SstWrite := []

/-- The numbers an operation adds. -/
def WriterOp.addedNumbers : WriterOp ι → List ℕ
  | .apply _ edit => edit.added.map FileMetadata.fileNumber
  | .roll => []

namespace Site

variable (x : Site ι σ)

/-- `list` of a healthy store. -/
def names (storeId : Bytes) : List Bytes :=
  (x.objects.filter (·.storeId = storeId)).map SstObject.name

/-- After a put the number is no longer held. -/
def tried (t : ℕ) : Site ι σ := { x with held := update x.held t none }

/-- The object is stored. -/
def landed (t : ℕ) (storeId name : Bytes) (sst : σ) : Site ι σ :=
  { x.tried t with objects := x.objects ++ [⟨storeId, name, sst⟩]
                   writes := x.writes ++ [⟨name, x.acknowledged⟩] }

/-- Some objects are removed. -/
def without (gone : Bytes → Bytes → Bool) : Site ι σ :=
  { x with objects := x.objects.filter fun o => !gone o.storeId o.name }

/-- After a manifest operation. -/
def committed (result : Status × VersionSet ι) (w : ShakyCatalog ι) : Site ι σ :=
  { x with versions := result.2
           world := w
           acknowledged := if result.1 = .ok then x.acknowledged ++ result.2.current.fileNumbers
             else x.acknowledged }

/-- What a call may do: a put on a taken name is refused, a failed one may have landed; a commit
adds files of the version or of this process, and returns or is cut short. -/
def Reply (config : ManifestConfig) (t : ℕ) :
    (c : FileCall ι σ) → Site ι σ → c.Result → Site ι σ → Prop
  | .allocateFileNumber, x, r, x' => x.versions.nextFileNumber < 10 ^ 12 ∧
      r = x.versions.allocateFileNumber.1 ∧
      x' = { x with versions := x.versions.allocateFileNumber.2
                    held := update x.held t (some r) }
  | .observeFileNumber number, x, _, x' =>
      x' = { x with versions := x.versions.observeFileNumber number }
  | .createCipher _, x, _, x' => x' = x
  | .sealObject _, x, _, x' => x' = x
  | .put storeId name sst, x, r, x' =>
      (name ∈ x.names storeId ∧ r = Status.unusable ∧ x' = x.tried t) ∨
      (name ∉ x.names storeId ∧ r = Status.ok ∧
        x' = { x.landed t storeId name sst with
          stored := (sstFileNumber name).toList ++ x.stored }) ∨
      (name ∉ x.names storeId ∧ r ≠ Status.ok ∧
        (x' = x.tried t ∨ x' = x.landed t storeId name sst))
  | .list storeId, x, r, x' => x' = x ∧ ∀ names, r = .ok names → names = x.names storeId
  | .remove gone, x, _, x' => x' = x.without gone
  | .commit op, x, r, x' => x.running = true ∧ x.halted = false ∧ op.Fits config x.versions ∧
      (∀ n ∈ op.addedNumbers, n ∈ x.stored ∨ n ∈ x.versions.current.fileNumbers) ∧
      ((∃ vs w, (op.program config x.versions).Exec (ShakyCatalog.Reply true) x.world (r, vs) w ∧
          x' = x.committed (r, vs) w) ∨
        ∃ w, (op.program config x.versions).Passes (ShakyCatalog.Reply true) x.world w ∧
          x' = { x with world := w, halted := true })

/-- What a thread does. -/
inductive Job (ι σ : Type) : Type
  | write (storeId : Bytes) (sst : σ) (sealed : Bool)
  | remove (gone : Bytes → Bytes → Bool)
  | commit (op : WriterOp ι)

/-- The program of a job. -/
def Job.program (config : ManifestConfig) (stores : List Bytes) : Job ι σ → FileProg ι σ Unit
  | .write storeId sst sealed => do
    let _ ← writeNewSst config stores storeId sst sealed
    pure ()
  | .remove gone => ask (FileCall.remove gone)
  | .commit op => do
    let _ ← ask (.commit op)
    pure ()

/-- The threads of a process. -/
def machine (config : ManifestConfig) (stores : List Bytes) :
    Machine ℕ (Site ι σ) Unit (Job ι σ) (FileCall ι σ) FileCall.Result where
  Enabled _ job _ := ∀ storeId sst sealed, job = .write storeId sst sealed → storeId ∈ stores
  start _ job _ := job.program config stores
  reply := Reply config

/-- The process is up, its counter past every number listed. -/
def opened (stores : List Bytes) (vs : VersionSet ι) (w : ShakyCatalog ι) : Site ι σ :=
  { x with running := true
           halted := false
           versions := ((stores.flatMap x.names).filterMap sstFileNumber).foldl
             observeFileNumber vs
           world := w
           held := fun _ => none
           stored := [] }

/-- The process has ended. -/
def crashed : Site ι σ :=
  { x with running := false, held := fun _ => none, stored := [] }

end Site

/-! ### What memory and catalog say about numbers -/

theorem Version.Same.fileNumbers {v v' : Version} (h : v.Same v') {n : ℕ} :
    n ∈ v.fileNumbers ↔ n ∈ v'.fileNumbers := by
  simp only [Version.mem_fileNumbers, h.files]

/-- Memory stands for the catalog, and a recovery's counter is past every number acknowledged, in
the version or in a pending edit. -/
def Recorded (config : ManifestConfig) (vs : VersionSet ι) (w : Catalog ι)
    (acknowledged : List ℕ) : Prop :=
  ∃ l p, VersionSet.Consistent config vs w l p ∧
    (∀ n ∈ acknowledged, n < (l.assembled config).fileNumber) ∧
    (∀ n ∈ vs.current.fileNumbers, n < (l.assembled config).fileNumber) ∧
    ∀ r ∈ p, ∀ f ∈ r.edit.added, f.fileNumber < l.recorded config p

/-- A recovery's counter is past these numbers. -/
def Recoverable (config : ManifestConfig) (w : Catalog ι) (acknowledged : List ℕ) : Prop :=
  ∃ vs, (recover config {}).run Catalog.answer w = ((.ok, vs), w) ∧
    Recorded config vs w acknowledged

section Numbers

variable {config : ManifestConfig} {vs : VersionSet ι} {w : Catalog ι} {acknowledged : List ℕ}

theorem VersionSet.Resumes.recoverable {v : Version} {history : List (Record ι)} {floor : ℕ}
    (h : VersionSet.Resumes config w v history floor) (hacked : ∀ n ∈ acknowledged, n < floor)
    (hversion : ∀ n ∈ v.fileNumbers, n < floor) : Recoverable config w acknowledged := by
  obtain ⟨vs, l, hrun, hcons, hcurrent, -, hfloor⟩ := h
  refine ⟨vs, hrun, l, none, hcons, fun n hn => (hacked n hn).trans_le hfloor, fun n hn => ?_,
    nofun⟩
  exact (hversion n (hcurrent.fileNumbers.1 hn)).trans_le hfloor

theorem VersionSet.Ledger.fileNumber_le_recorded (config : ManifestConfig)
    (l : VersionSet.Ledger ι) (p : Option (Record ι)) :
    (l.assembled config).fileNumber ≤ l.recorded config p := by
  cases p with
  | none => exact (l.recorded_none config).ge
  | some r =>
    rw [VersionSet.Ledger.recorded, Option.toList_some, l.assembled_append]
    show _ ≤ if _ then _ else _
    split_ifs with hlt
    · exact hlt.le
    · exact le_rfl

theorem withPending_lt {v : Version} {l : VersionSet.Ledger ι} {p : Option (Record ι)}
    (hcurrent : ∀ n ∈ v.fileNumbers, n < (l.assembled config).fileNumber)
    (hpending : ∀ r ∈ p, ∀ f ∈ r.edit.added, f.fileNumber < l.recorded config p) :
    ∀ n ∈ (withPending v p).fileNumbers, n < l.recorded config p := by
  intro n hn
  have hle := l.fileNumber_le_recorded config p
  cases p with
  | none => exact (hcurrent n hn).trans_le hle
  | some r =>
    rcases Version.mem_fileNumbers_apply.1 hn with ⟨level, f, hf, rfl, -⟩ | ⟨f, hf, rfl⟩
    · exact (hcurrent _ (Version.mem_fileNumbers_of_mem hf)).trans_le hle
    · exact hpending r rfl f hf

theorem Recorded.recoverable (h : Recorded config vs w acknowledged) :
    Recoverable config w acknowledged := by
  obtain ⟨l, p, hcons, hacked, hcurrent, hpending⟩ := h
  refine hcons.resumes.recoverable (fun n hn => ?_) (withPending_lt hcurrent hpending)
  exact (hacked n hn).trans_le (l.fileNumber_le_recorded config p)

theorem Recorded.lt_nextFileNumber (h : Recorded config vs w acknowledged) {n : ℕ}
    (hn : n ∈ acknowledged ∨ n ∈ vs.current.fileNumbers) : n < vs.nextFileNumber := by
  obtain ⟨l, p, hcons, hacked, hcurrent, -⟩ := h
  rcases hn with hn | hn
  · exact (hacked n hn).trans_le hcons.fileNumber
  · exact (hcurrent n hn).trans_le hcons.fileNumber

theorem Recorded.counted (h : Recorded config vs w acknowledged) {counter : ℕ}
    (hle : vs.nextFileNumber ≤ counter) (hcounter : counter < 2 ^ 64) :
    Recorded config { vs with nextFileNumber := counter } w acknowledged := by
  obtain ⟨l, p, hcons, hrest⟩ := h
  exact ⟨l, p, { hcons with fileNumber := hcons.fileNumber.trans hle, counter := hcounter }, hrest⟩

/-- Memory and catalog stay in step, and a recovery at any point finds a counter past all
acknowledged numbers. -/
theorem Recorded.commit {w : ShakyCatalog ι} (h : Recorded config vs w.catalog acknowledged)
    {op : WriterOp ι} (hfits : op.Fits config vs)
    (hadded : ∀ n ∈ op.addedNumbers, n < vs.nextFileNumber) :
    (op.program config vs).Alone (ShakyCatalog.Reply true)
      (fun w' => Recoverable config w'.catalog acknowledged)
      (fun result w' => Recorded config result.2 w'.catalog
          (if result.1 = .ok then acknowledged ++ result.2.current.fileNumbers
            else acknowledged) ∧
        result.2.nextFileNumber = vs.nextFileNumber ∧
        ∀ n ∈ result.2.current.fileNumbers, n ∈ vs.current.fileNumbers ∨ n ∈ op.addedNumbers)
      w := by
  obtain ⟨l, pending, hcons, hacked, hcurrent, hpending⟩ := h
  have hmid : ∀ (w' : Catalog ι) p, (∀ r ∈ p, ∀ f ∈ r.edit.added,
      f.fileNumber < l.recorded config p) →
      VersionSet.Resumes config w' (withPending vs.current p)
        (vs.history ++ p.toList) (l.recorded config p) → Recoverable config w' acknowledged :=
    fun w' p hp hrec => hrec.recoverable
      (fun n hn => (hacked n hn).trans_le (l.fileNumber_le_recorded config p))
      (withPending_lt hcurrent hp)
  -- once an operation returned `ok`, everything is below the counter it recorded
  have hdone : ∀ (vs' : VersionSet ι) (w' : Catalog ι) l',
      VersionSet.Consistent config vs' w' l' none →
      vs.nextFileNumber ≤ (l'.assembled config).fileNumber →
      (∀ n ∈ vs'.current.fileNumbers, n ∈ vs.current.fileNumbers ∨ n ∈ op.addedNumbers) →
      Recorded config vs' w' (acknowledged ++ vs'.current.fileNumbers) := by
    intro vs' w' l' hcons' hfile hfrom
    have hversion : ∀ n ∈ vs'.current.fileNumbers, n < (l'.assembled config).fileNumber := by
      intro n hn
      rcases hfrom n hn with hn | hn
      · exact ((hcurrent n hn).trans_le hcons.fileNumber).trans_le hfile
      · exact (hadded n hn).trans_le hfile
    refine ⟨l', none, hcons', fun n hn => ?_, hversion, nofun⟩
    rcases mem_append.1 hn with hn | hn
    · exact ((hacked n hn).trans_le hcons.fileNumber).trans_le hfile
    · exact hversion n hn
  cases op with
  | apply id edit =>
    have hrecord : ∀ f ∈ (vs.recordOf id edit).edit.added,
        f.fileNumber < l.recorded config (some (vs.recordOf id edit)) := by
      intro f hf
      refine (hadded _ (mem_map_of_mem hf)).trans_eq ?_
      exact (hcons.fileNumber_append id edit).symm
    refine (apply_alone hcons hfits fun w' p hp _ hrec _ => ?_).weaken fun result w' h' => ?_
    · refine hmid _ p (fun r hr => ?_) hrec
      rcases hp with rfl | rfl
      · exact hpending r hr
      · obtain rfl := Option.some.inj hr
        exact hrecord
    · obtain ⟨-, ⟨hok, happlied⟩ | ⟨hfailed, p, hp, hwhich⟩⟩ := h'
      · obtain ⟨l', hl', hfile⟩ := happlied.consistent
        have hfrom : ∀ n ∈ result.2.current.fileNumbers, n ∈ vs.current.fileNumbers ∨
            n ∈ (WriterOp.apply id edit).addedNumbers := by
          intro n hn
          rw [happlied.current] at hn
          rcases Version.mem_fileNumbers_apply.1 hn with ⟨level, f, hf, rfl, -⟩ | ⟨f, hf, rfl⟩
          · exact .inl (Version.mem_fileNumbers_of_mem hf)
          · exact .inr (mem_map_of_mem hf)
        rw [if_pos hok]
        exact ⟨hdone _ _ l' hl' hfile.ge hfrom, happlied.nextFileNumber, hfrom⟩
      · have hsame : result.2.current = vs.current ∧
            result.2.nextFileNumber = vs.nextFileNumber := by
          rcases hfailed.2 with h | h <;> rw [h] <;> exact ⟨rfl, rfl⟩
        rw [if_neg hfailed.1]
        refine ⟨⟨l, p, hfailed.consistent hp, hacked, hsame.1 ▸ hcurrent, fun r hr => ?_⟩,
          hsame.2, fun n hn => .inl (hsame.1 ▸ hn)⟩
        rcases hwhich with rfl | ⟨rfl, -⟩
        · exact hpending r hr
        · obtain rfl := Option.some.inj hr
          exact hrecord
  | roll =>
    refine (rollGenerationNow_alone hcons hfits fun w' p hp _ hrec _ => ?_).weaken
      fun result w' h' => ?_
    · refine hmid _ p (fun r hr => ?_) hrec
      rcases hp with rfl | rfl
      · exact hpending r hr
      · cases hr
    · have hkept : ∀ status (w' : Catalog ι), status ≠ Status.ok →
          VersionSet.Consistent config vs w' l pending → Recorded config vs w'
            (if status = .ok then acknowledged ++ vs.current.fileNumbers else acknowledged) := by
        intro status w' hne hcons'
        rw [if_neg hne]
        exact ⟨l, pending, hcons', hacked, hcurrent, hpending⟩
      rcases h' with ⟨rfl, rfl, -⟩ | ⟨-, -, -, ⟨entry, rfl, hrolled⟩ | ⟨hfailed, hcons'⟩⟩ |
        ⟨hfailed, rfl⟩
      · refine ⟨⟨l, pending, hcons, fun n hn => ?_, hcurrent, hpending⟩, rfl, fun n hn => .inl hn⟩
        rcases mem_append.1 hn with hn | hn
        · exact hacked n hn
        · exact hcurrent n hn
      · exact ⟨hdone _ _ _ hrolled le_rfl fun n hn => .inl hn, rfl, fun n hn => .inl hn⟩
      · rw [hfailed.2]
        exact ⟨hkept _ _ hfailed.1 hcons', rfl, fun n hn => .inl hn⟩
      · rw [hfailed.2]
        exact ⟨hkept _ _ hfailed.1 hcons, rfl, fun n hn => .inl hn⟩

end Numbers

theorem VersionSet.observeFileNumber_eq (vs : VersionSet ι) (n : ℕ) :
    vs.observeFileNumber n = { vs with nextFileNumber := max vs.nextFileNumber (n + 1) } := by
  unfold observeFileNumber
  split_ifs with hle
  · rw [max_eq_right (by omega)]
  · rw [max_eq_left (by omega)]

theorem VersionSet.exists_foldl_observeFileNumber (numbers : List ℕ) (vs : VersionSet ι)
    (hshort : ∀ n ∈ numbers, n < 10 ^ 12) (hcounter : vs.nextFileNumber < 2 ^ 64) :
    ∃ counter, numbers.foldl observeFileNumber vs =
        { vs with nextFileNumber := counter } ∧
      vs.nextFileNumber ≤ counter ∧ counter < 2 ^ 64 ∧ ∀ n ∈ numbers, n < counter := by
  induction numbers generalizing vs with
  | nil => exact ⟨vs.nextFileNumber, rfl, le_rfl, hcounter, nofun⟩
  | cons m numbers ih =>
    have hm : m + 1 < 2 ^ 64 :=
      (Nat.succ_le_of_lt (hshort m (mem_cons_self ..))).trans_lt (by decide)
    obtain ⟨counter, heq, hle, hlt, hpast⟩ := ih (vs.observeFileNumber m)
      (fun n hn => hshort n (mem_cons_of_mem _ hn))
      (by rw [observeFileNumber_eq]; exact max_lt hcounter hm)
    rw [observeFileNumber_eq] at heq hle
    refine ⟨counter, ?_, (le_max_left _ _).trans hle, hlt, fun n hn => ?_⟩
    · rw [foldl_cons, observeFileNumber_eq, heq]
    · rcases mem_cons.1 hn with rfl | hn
      · exact (le_max_right _ _).trans hle
      · exact hpast n hn

namespace Site

variable {config : ManifestConfig} {stores : List Bytes} {x x' : Site ι σ}

/-- No version had the number, and no object has it. -/
structure Free (x : Site ι σ) (n : ℕ) : Prop where
  issued : n < x.versions.nextFileNumber
  short : n < 10 ^ 12
  notAcknowledged : n ∉ x.acknowledged
  notCurrent : n ∉ x.versions.current.fileNumbers
  notStored : n ∉ x.stored
  noObject : ∀ o ∈ x.objects, o.name ≠ sstObjectName n

/-- The invariant, whether or not a process runs. -/
structure Sound (config : ManifestConfig) (stores : List Bytes) (x : Site ι σ) : Prop where
  memory : x.running = true → x.halted = false →
    Recorded config x.versions x.world.catalog x.acknowledged
  durable : Recoverable config x.world.catalog x.acknowledged
  counter : x.versions.nextFileNumber < 2 ^ 64
  acknowledged : ∀ n ∈ x.acknowledged, n < x.versions.nextFileNumber
  current : ∀ n ∈ x.versions.current.fileNumbers, n < x.versions.nextFileNumber
  stored : ∀ n ∈ x.stored, n < x.versions.nextFileNumber
  objects : ∀ o ∈ x.objects, o.storeId ∈ stores ∧
    ∃ n < x.versions.nextFileNumber, n < 10 ^ 12 ∧ o.name = sstObjectName n
  distinct : (x.objects.map SstObject.name).Nodup
  held : ∀ t n, x.held t = some n → x.Free n
  apart : ∀ t t' n, x.held t = some n → x.held t' = some n → t = t'
  writes : ∀ e ∈ x.writes, ∀ n, sstFileNumber e.name = some n → n ∉ e.acknowledged

/-- The counter is set. -/
def counted (x : Site ι σ) (counter : ℕ) : Site ι σ :=
  { x with versions := { x.versions with nextFileNumber := counter } }

theorem Free.counted {n counter : ℕ} (h : x.Free n) (hle : x.versions.nextFileNumber ≤ counter) :
    (x.counted counter).Free n :=
  { h with issued := h.issued.trans_le hle }

theorem Sound.counted (h : x.Sound config stores) {counter : ℕ}
    (hle : x.versions.nextFileNumber ≤ counter) (hcounter : counter < 2 ^ 64) :
    (x.counted counter).Sound config stores where
  memory hup hgoing := (h.memory hup hgoing).counted hle hcounter
  durable := h.durable
  counter := hcounter
  acknowledged n hn := (h.acknowledged n hn).trans_le hle
  current n hn := (h.current n hn).trans_le hle
  stored n hn := (h.stored n hn).trans_le hle
  objects o ho := by
    obtain ⟨hstore, n, hn, hshort, hname⟩ := h.objects o ho
    exact ⟨hstore, n, hn.trans_le hle, hshort, hname⟩
  distinct := h.distinct
  held t n hn := (h.held t n hn).counted hle
  apart := h.apart
  writes := h.writes

theorem held_tried {t t' n : ℕ} : (x.tried t).held t' = some n ↔ t' ≠ t ∧ x.held t' = some n := by
  show update x.held t none t' = some n ↔ _
  by_cases ht : t' = t
  · subst ht
    simp
  · simp [ht]

theorem Sound.tried (h : x.Sound config stores) (t : ℕ) : (x.tried t).Sound config stores :=
  { h with
    held := fun t' n hn => { h.held t' n (held_tried.1 hn).2 with }
    apart := fun t₁ t₂ n h₁ h₂ =>
      h.apart t₁ t₂ n (held_tried.1 h₁).2 (held_tried.1 h₂).2 }

theorem Sound.landed (h : x.Sound config stores) {t n : ℕ} {storeId : Bytes} (sst : σ)
    (hheld : x.held t = some n) (hstore : storeId ∈ stores) :
    (x.landed t storeId (sstObjectName n) sst).Sound config stores := by
  have hfree := h.held t n hheld
  have htried := h.tried t
  -- the numbers the other threads hold are not this one
  have hother : ∀ t' m, (x.tried t).held t' = some m → m ≠ n := by
    rintro t' m hm rfl
    obtain ⟨hne, hm⟩ := held_tried.1 hm
    exact hne (h.apart t' t m hm hheld)
  refine { htried with
    objects := fun o ho => ?_, distinct := ?_, held := fun t' m hm => ?_, writes := fun e he => ?_ }
  · rcases mem_append.1 ho with ho | ho
    · exact h.objects o ho
    · obtain rfl := mem_singleton.1 ho
      exact ⟨hstore, n, hfree.issued, hfree.short, rfl⟩
  · show ((x.objects ++ [_]).map SstObject.name).Nodup
    rw [map_append, nodup_append]
    refine ⟨h.distinct, nodup_singleton _, fun a ha b hb hab => ?_⟩
    obtain ⟨o, ho, rfl⟩ := mem_map.1 ha
    rw [map_singleton, mem_singleton] at hb
    exact hfree.noObject o ho (hab.trans hb)
  · refine { htried.held t' m hm with noObject := fun o ho => ?_ }
    rcases mem_append.1 ho with ho | ho
    · exact (htried.held t' m hm).noObject o ho
    · obtain rfl := mem_singleton.1 ho
      exact fun hname => hother t' m hm (sstObjectName_injective hname).symm
  · rcases mem_append.1 he with he | he
    · exact h.writes e he
    · obtain rfl := mem_singleton.1 he
      intro m hm
      obtain rfl : n = m := by
        rw [sstFileNumber_sstObjectName hfree.short] at hm
        exact Option.some.inj hm
      exact hfree.notAcknowledged

theorem Sound.storing (h : x.Sound config stores) {n : ℕ} (hn : n < x.versions.nextFileNumber)
    (hfree : ∀ t, x.held t ≠ some n) :
    ({ x with stored := n :: x.stored } : Site ι σ).Sound config stores := by
  refine { h with stored := fun m hm => ?_, held := fun t m hm => ?_ }
  · rcases mem_cons.1 hm with rfl | hm
    · exact hn
    · exact h.stored m hm
  · refine { h.held t m hm with notStored := fun hmem => ?_ }
    rcases mem_cons.1 hmem with rfl | hmem
    · exact hfree t hm
    · exact (h.held t m hm).notStored hmem

theorem Sound.without (h : x.Sound config stores) (gone : Bytes → Bytes → Bool) :
    (x.without gone).Sound config stores :=
  { h with
    objects := fun o ho => h.objects o (mem_filter.1 ho).1
    distinct := h.distinct.sublist (filter_sublist.map _)
    held := fun t n hn => { h.held t n hn with
      noObject := fun o ho => (h.held t n hn).noObject o (mem_filter.1 ho).1 } }

theorem Sound.allocated (h : x.Sound config stores) (t : ℕ)
    (hshort : x.versions.nextFileNumber < 10 ^ 12) :
    ({ x.counted (x.versions.nextFileNumber + 1) with
      held := update x.held t (some x.versions.nextFileNumber) } :
        Site ι σ).Sound config stores := by
  have hbound : x.versions.nextFileNumber + 1 < 2 ^ 64 :=
    (Nat.succ_le_of_lt hshort).trans_lt (by decide)
  have hcounted := h.counted (Nat.le_succ _) hbound
  have hfree : (x.counted (x.versions.nextFileNumber + 1)).Free x.versions.nextFileNumber := by
    refine ⟨Nat.lt_succ_self _, hshort, fun hn => ?_, fun hn => ?_, fun hn => ?_,
      fun o ho hname => ?_⟩
    · exact (h.acknowledged _ hn).false
    · exact (h.current _ hn).false
    · exact (h.stored _ hn).false
    · obtain ⟨-, n, hn, -, hn'⟩ := h.objects o ho
      exact hn.ne (sstObjectName_injective (hn'.symm.trans hname))
  -- what another thread holds is below the number drawn
  have hothers : ∀ t' n, t' ≠ t → update x.held t (some x.versions.nextFileNumber) t' =
      some n → x.held t' = some n := by
    intro t' n ht hn
    rwa [update_of_ne ht] at hn
  have hself : ∀ n, update x.held t (some x.versions.nextFileNumber) t = some n →
      n = x.versions.nextFileNumber := by
    intro n hn
    rw [update_self] at hn
    exact (Option.some.inj hn).symm
  have hnew : ∀ t' n, t' ≠ t → update x.held t (some x.versions.nextFileNumber) t' =
      some n → n ≠ x.versions.nextFileNumber :=
    fun t' n ht hn => (h.held t' n (hothers t' n ht hn)).issued.ne
  refine { hcounted with held := fun t' n hn => ?_, apart := fun t₁ t₂ n h₁ h₂ => ?_ }
  · by_cases ht : t' = t
    · subst ht
      rw [hself n hn]
      exact { hfree with }
    · exact { hcounted.held t' n (hothers t' n ht hn) with }
  · by_cases ht₁ : t₁ = t <;> by_cases ht₂ : t₂ = t
    · rw [ht₁, ht₂]
    · subst ht₁
      exact absurd (hself n h₁) (hnew t₂ n ht₂ h₂)
    · subst ht₂
      exact absurd (hself n h₂) (hnew t₁ n ht₁ h₁)
    · exact h.apart t₁ t₂ n (hothers t₁ n ht₁ h₁) (hothers t₂ n ht₂ h₂)

theorem Sound.commit (h : x.Sound config stores) {t : ℕ} {op : WriterOp ι} {r : Status}
    (hreply : Reply config t (.commit op) x r x') : x'.Sound config stores ∧ x'.held = x.held := by
  obtain ⟨hup, hgoing, hfits, hadded, hends⟩ := hreply
  have hknown : ∀ n ∈ op.addedNumbers, n < x.versions.nextFileNumber := by
    intro n hn
    rcases hadded n hn with hn | hn
    · exact h.stored n hn
    · exact h.current n hn
  have halone := (h.memory hup hgoing).commit hfits hknown
  rcases hends with ⟨vs, w, hexec, rfl⟩ | ⟨w, hpasses, rfl⟩
  · obtain ⟨hrecorded, hnext, hfrom⟩ := halone.exec hexec
    have hnext : vs.nextFileNumber = x.versions.nextFileNumber := hnext
    have hbelow : ∀ n, n ∈ (x.committed (r, vs) w).acknowledged ∨ n ∈ vs.current.fileNumbers →
        n < vs.nextFileNumber := fun n hn => hrecorded.lt_nextFileNumber hn
    -- the numbers of the new version were in the old one or put by this process
    have hsource : ∀ n ∈ vs.current.fileNumbers,
        n ∈ x.stored ∨ n ∈ x.versions.current.fileNumbers := by
      intro n hn
      rcases hfrom n hn with hn | hn
      · exact .inr hn
      · exact hadded n hn
    refine ⟨⟨fun _ _ => hrecorded, hrecorded.recoverable, hnext ▸ h.counter,
      fun n hn => hbelow n (.inl hn), fun n hn => hbelow n (.inr hn), hnext ▸ h.stored,
      hnext ▸ h.objects, h.distinct, fun t' n hn => ?_, h.apart, h.writes⟩, rfl⟩
    have hfree := h.held t' n hn
    have hnot : n ∉ vs.current.fileNumbers := fun hmem => by
      rcases hsource n hmem with hmem | hmem
      · exact hfree.notStored hmem
      · exact hfree.notCurrent hmem
    refine ⟨hnext ▸ hfree.issued, hfree.short, fun hmem => ?_, hnot, hfree.notStored,
      hfree.noObject⟩
    have hmem : n ∈ if r = .ok then x.acknowledged ++ vs.current.fileNumbers
        else x.acknowledged := hmem
    split_ifs at hmem
    · rcases mem_append.1 hmem with hmem | hmem
      · exact hfree.notAcknowledged hmem
      · exact hnot hmem
    · exact hfree.notAcknowledged hmem
  · exact ⟨{ h with
      memory := nofun
      durable := halone.passes hpasses
      held := fun t' n hn => { h.held t' n hn with } }, rfl⟩

/-- A thread puts under the number it holds, and observes numbers of names. -/
def Proper (stores : List Bytes) (t : ℕ) (x : Site ι σ) : FileCall ι σ → Prop
  | .put storeId name _ => storeId ∈ stores ∧ ∃ n, x.held t = some n ∧ name = sstObjectName n
  | .observeFileNumber n => n < 10 ^ 12
  | _ => True

theorem Sound.reply (h : x.Sound config stores) {t : ℕ} {c : FileCall ι σ} {r : c.Result}
    (hproper : Proper stores t x c) (hreply : Reply config t c x r x') :
    x'.Sound config stores ∧ ∀ t', t' ≠ t → x'.held t' = x.held t' := by
  have htried : ∀ t', t' ≠ t → (x.tried t).held t' = x.held t' :=
    fun t' ht => update_of_ne ht _ _
  cases c with
  | allocateFileNumber =>
    obtain ⟨hshort, rfl, rfl⟩ := hreply
    exact ⟨h.allocated t hshort, fun t' ht => update_of_ne ht _ _⟩
  | observeFileNumber n =>
    obtain rfl := hreply
    rw [observeFileNumber_eq]
    refine ⟨h.counted (le_max_left _ _) (max_lt h.counter ?_), fun _ _ => rfl⟩
    have hn : n < 10 ^ 12 := hproper
    exact (Nat.succ_le_of_lt hn).trans_lt (by decide)
  | createCipher n =>
    obtain rfl := hreply
    exact ⟨h, fun _ _ => rfl⟩
  | sealObject n =>
    obtain rfl := hreply
    exact ⟨h, fun _ _ => rfl⟩
  | put storeId name sst =>
    obtain ⟨hstore, n, hheld, rfl⟩ := hproper
    have hfree := h.held t n hheld
    rcases hreply with ⟨-, -, rfl⟩ | ⟨-, -, rfl⟩ | ⟨-, -, rfl | rfl⟩
    · exact ⟨h.tried t, htried⟩
    · rw [sstFileNumber_sstObjectName hfree.short]
      refine ⟨(h.landed sst hheld hstore).storing hfree.issued fun t' hm => ?_, htried⟩
      obtain ⟨hne, hm⟩ := held_tried.1 hm
      exact hne (h.apart t' t n hm hheld)
    · exact ⟨h.tried t, htried⟩
    · exact ⟨h.landed sst hheld hstore, htried⟩
  | list storeId =>
    obtain ⟨rfl, -⟩ := hreply
    exact ⟨h, fun _ _ => rfl⟩
  | remove gone =>
    obtain rfl := hreply
    exact ⟨h.without gone, fun _ _ => rfl⟩
  | commit op =>
    obtain ⟨hsound, hheld⟩ := h.commit hreply
    exact ⟨hsound, fun t' _ => congrFun hheld t'⟩

end Site

end ElysiumKV
