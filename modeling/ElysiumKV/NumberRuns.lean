import ElysiumKV.FileNumbers

/-!
# Runs of a store, process after process

Threads' programs keep `Site.Sound` among any calls of the others, as do a process that ends between
two calls and one that opens.
-/

namespace ElysiumKV

open Program Program.Prog List VersionSet

variable {ι σ : Type}

namespace Site

variable {config : ManifestConfig} {stores : List Bytes} {x x' : Site ι σ}

/-! ### The programs of the threads -/

/-- What other threads' calls do. -/
def Others (config : ManifestConfig) (stores : List Bytes) (t : ℕ) (x x' : Site ι σ) : Prop :=
  (x.Sound config stores → x'.Sound config stores) ∧ x'.held t = x.held t

/-- What a thread's call does, as others see it. -/
def Own (config : ManifestConfig) (stores : List Bytes) (t : ℕ) (x x' : Site ι σ) : Prop :=
  (x.Sound config stores → x'.Sound config stores) ∧ ∀ t', t' ≠ t → x'.held t' = x.held t'

/-- The thread's program is safe among the others. -/
abbrev SafeFor {α : Type} (config : ManifestConfig) (stores : List Bytes) (t : ℕ)
    (p : FileProg ι σ α) (post : α → Site ι σ → Prop) (x : Site ι σ) : Prop :=
  p.Safe (Reply config t) (Others config stores t) (Own config stores t) (Sound config stores)
    post x

variable {t : ℕ}

variable {α : Type}

theorem safeFor_pure {a : α} {post : α → Site ι σ → Prop} (h : x.Sound config stores)
    (hpost : ∀ x', x'.Sound config stores → x'.held t = x.held t → post a x') :
    SafeFor config stores t (pure a : FileProg ι σ α) post x :=
  Safe.pure fun x' hx' => ⟨hx'.1 h, hpost x' (hx'.1 h) hx'.2⟩

theorem safeFor_ask {c : FileCall ι σ} {f : c.Result → FileProg ι σ α}
    {post : α → Site ι σ → Prop} (h : x.Sound config stores)
    (hproper : ∀ x', x'.held t = x.held t → Proper stores t x' c)
    (hnext : ∀ r x₁ x₂, x₁.held t = x.held t → Reply config t c x₁ r x₂ →
      x₂.Sound config stores → SafeFor config stores t (f r) post x₂) :
    SafeFor config stores t (ask c >>= f) post x := by
  refine Safe.ask fun x₁ hx₁ => ⟨hx₁.1 h, fun r x₂ hreply => ⟨⟨fun h₁ => ?_, ?_⟩, ?_⟩⟩
  · exact (h₁.reply (hproper x₁ hx₁.2) hreply).1
  · exact ((hx₁.1 h).reply (hproper x₁ hx₁.2) hreply).2
  · exact hnext r x₁ x₂ hx₁.2 hreply ((hx₁.1 h).reply (hproper x₁ hx₁.2) hreply).1

theorem safeFor_bind {β : Type} {p : FileProg ι σ α} {f : α → FileProg ι σ β}
    {post : β → Site ι σ → Prop}
    (h : SafeFor config stores t p (fun a x' => SafeFor config stores t (f a) post x') x) :
    SafeFor config stores t (p >>= f) post x :=
  Safe.bind (fun _ => ⟨id, rfl⟩) h

theorem sealFor_safe (h : x.Sound config stores) (sealed : Bool) (n : ℕ) :
    SafeFor config stores t (sealFor config sealed n : FileProg ι σ _)
      (fun _ x' => x'.Sound config stores ∧ x'.held t = x.held t) x := by
  unfold sealFor
  split_ifs
  · exact safeFor_pure h fun x' h' hheld => ⟨h', hheld⟩
  · refine safeFor_ask (c := .createCipher n) h (fun _ _ => trivial)
      fun metadata x₁ x₂ hx₁ hx₂ h₂ => ?_
    obtain rfl : x₂ = x₁ := hx₂
    cases metadata with
    | error status => exact safeFor_pure h₂ fun x' h' hheld => ⟨h', hheld.trans hx₁⟩
    | ok metadata =>
      refine safeFor_ask (c := .sealObject n) h₂ (fun _ _ => trivial)
        fun done x₃ x₄ hx₃ hx₄ h₄ => ?_
      obtain rfl : x₄ = x₃ := hx₄
      have hheld₄ := hx₃.trans hx₁
      cases done with
      | error status => exact safeFor_pure h₄ fun x' h' hheld => ⟨h', hheld.trans hheld₄⟩
      | ok _ => exact safeFor_pure h₄ fun x' h' hheld => ⟨h', hheld.trans hheld₄⟩

theorem listStores_safe (h : x.Sound config stores) (ids : List Bytes) :
    SafeFor config stores t (listStores ids : FileProg ι σ _)
      (fun _ x' => x'.Sound config stores) x := by
  induction ids generalizing x with
  | nil => exact safeFor_pure h fun _ h' _ => h'
  | cons storeId ids ih =>
    unfold listStores
    refine safeFor_ask (c := .list storeId) h (fun _ _ => trivial) fun names x₁ x₂ _ _ h₂ => ?_
    refine safeFor_bind ((ih h₂).weaken fun rest x₃ h₃ => ?_)
    exact safeFor_pure h₃ fun _ h' _ => h'

theorem observeNames_safe (h : x.Sound config stores) (names : List Bytes) :
    SafeFor config stores t (observeNames names : FileProg ι σ _)
      (fun _ x' => x'.Sound config stores) x := by
  induction names generalizing x with
  | nil => exact safeFor_pure h fun _ h' _ => h'
  | cons name names ih =>
    unfold observeNames
    cases hname : sstFileNumber name with
    | none => exact ih h
    | some n =>
      have hn : n < 10 ^ 12 := (sstFileNumber_eq_some hname).1
      exact safeFor_ask (c := .observeFileNumber n) h (fun _ _ => hn) fun _ _ _ _ _ h₂ => ih h₂

theorem observeListings_safe (h : x.Sound config stores)
    (listings : List (Except Status (List Bytes))) :
    SafeFor config stores t (observeListings listings : FileProg ι σ _)
      (fun _ x' => x'.Sound config stores) x := by
  induction listings generalizing x with
  | nil => exact safeFor_pure h fun _ h' _ => h'
  | cons listing listings ih =>
    cases listing with
    | error status => exact safeFor_pure h fun _ h' _ => h'
    | ok names =>
      unfold observeListings
      exact safeFor_bind ((observeNames_safe h names).weaken fun _ x₁ h₁ => ih h₁)

theorem writeAttempts_safe (h : x.Sound config stores) {storeId : Bytes}
    (hstore : storeId ∈ stores) (sst : σ) (sealed : Bool) (attempts : ℕ) :
    SafeFor config stores t (writeAttempts config stores storeId sst sealed attempts :
      FileProg ι σ _) (fun _ x' => x'.Sound config stores) x := by
  have hdone : ∀ {α : Type} {x : Site ι σ} (a : α), x.Sound config stores →
      SafeFor config stores t (pure a : FileProg ι σ α) (fun _ x' => x'.Sound config stores) x :=
    fun a h => safeFor_pure h fun _ h' _ => h'
  induction attempts generalizing x with
  | zero => exact hdone _ h
  | succ attempts ih =>
    unfold writeAttempts
    refine safeFor_ask (c := .allocateFileNumber) h (fun _ _ => trivial) fun n x₁ x₂ _ hx₂ h₂ => ?_
    have hheld₂ : x₂.held t = some n := by
      obtain ⟨-, rfl, rfl⟩ := hx₂
      exact Function.update_self ..
    refine safeFor_bind ((sealFor_safe h₂ sealed n).weaken fun written x₃ h₃ => ?_)
    obtain ⟨h₃, hheld₃⟩ := h₃
    cases written with
    | error status => exact hdone _ h₃
    | ok written =>
      have hproper : ∀ x' : Site ι σ, x'.held t = x₃.held t →
          Proper stores t x' (.put storeId (sstObjectName n) sst) := fun x' hx' =>
        ⟨hstore, n, hx'.trans (hheld₃.trans hheld₂), rfl⟩
      refine safeFor_ask (c := .put storeId (sstObjectName n) sst) h₃ hproper
        fun status x₄ x₅ _ _ h₅ => ?_
      show SafeFor config stores t (if _ then _ else if _ then _ else _) _ _
      split_ifs
      · exact hdone _ h₅
      · exact hdone _ h₅
      · refine safeFor_bind ((listStores_safe h₅ stores).weaken fun listings x₆ h₆ => ?_)
        refine safeFor_bind ((observeListings_safe h₆ listings).weaken fun refreshed x₇ h₇ => ?_)
        show SafeFor config stores t (if _ then _ else _) _ _
        split_ifs
        · exact hdone _ h₇
        · exact ih h₇

theorem program_safe (h : x.Sound config stores) {job : Job ι σ}
    (hstore : ∀ storeId sst sealed, job = .write storeId sst sealed → storeId ∈ stores) :
    SafeFor config stores t (job.program config stores) (fun _ x' => x'.Sound config stores) x := by
  have hdone : ∀ {α : Type} {x : Site ι σ} (a : α), x.Sound config stores →
      SafeFor config stores t (pure a : FileProg ι σ α) (fun _ x' => x'.Sound config stores) x :=
    fun a h => safeFor_pure h fun _ h' _ => h'
  cases job with
  | write storeId sst sealed =>
    have hwrite : SafeFor config stores t (writeNewSst config stores storeId sst sealed :
        FileProg ι σ _) (fun _ x' => x'.Sound config stores) x := by
      unfold writeNewSst
      cases config.registry.find config.registry.primary with
      | none => exact hdone _ h
      | some provider => exact writeAttempts_safe h (hstore storeId sst sealed rfl) sst sealed 16
    exact safeFor_bind (hwrite.weaken fun _ x₁ h₁ => hdone _ h₁)
  | remove gone =>
    exact safeFor_ask (c := .remove gone) (f := pure) h (fun _ _ => trivial)
      fun _ _ _ _ _ h₂ => hdone _ h₂
  | commit op =>
    exact safeFor_ask (c := .commit op) h (fun _ _ => trivial) fun _ _ _ _ _ h₂ => hdone _ h₂

/-- The rely and guarantee of the machine. -/
def machineProof (config : ManifestConfig) (stores : List Bytes) :
    (machine config stores : Machine ℕ (Site ι σ) _ _ _ _).Proof where
  rely := Others config stores
  guar := Own config stores
  mid _ _ _ := Sound config stores
  idle _ _ := Sound config stores
  rely_refl _ _ := ⟨id, rfl⟩
  rely_trans _ _ _ _ h₁ h₂ := ⟨fun h => h₂.1 (h₁.1 h), h₂.2.trans h₁.2⟩
  guar_rely hne h := ⟨h.1, h.2 _ (Ne.symm hne)⟩
  idle_stable h hw := hw.1 h
  safe h henabled := program_safe h henabled

theorem Sound.reaches (h : x.Sound config stores)
    {threads : ℕ → Thread (FileCall ι σ) FileCall.Result Unit (Job ι σ)}
    (hreaches : (machine config stores).Reaches ⟨x, fun _ => .idle ()⟩ ⟨x', threads⟩) :
    x'.Sound config stores := by
  have hholds := hreaches.holds (machineProof config stores) (fun _ => h) 0
  cases hthread : threads 0 with
  | idle s =>
    simp only [hthread] at hholds
    exact hholds
  | busy job s p =>
    simp only [hthread] at hholds
    cases p with
    | done s' => exact (hholds x' ⟨id, rfl⟩).1
    | call c next => exact (hholds x' ⟨id, rfl⟩).1

variable {vs : VersionSet ι} {w : ShakyCatalog ι}

/-- An open that lists the stores is past the numbers of all objects. -/
theorem sound_opened (hrecorded : Recorded config vs w.catalog x.acknowledged)
    (hobjects : ∀ o ∈ x.objects, o.storeId ∈ stores ∧ ∃ n < 10 ^ 12, o.name = sstObjectName n)
    (hdistinct : (x.objects.map SstObject.name).Nodup)
    (hwrites : ∀ e ∈ x.writes, ∀ n, sstFileNumber e.name = some n → n ∉ e.acknowledged) :
    (x.opened stores vs w).Sound config stores := by
  have hshort : ∀ n ∈ (stores.flatMap x.names).filterMap sstFileNumber, n < 10 ^ 12 := by
    intro n hn
    obtain ⟨name, -, hname⟩ := mem_filterMap.1 hn
    exact (sstFileNumber_eq_some hname).1
  have hcounter : vs.nextFileNumber < 2 ^ 64 := by
    obtain ⟨l, p, hcons, -⟩ := hrecorded
    exact hcons.counter
  obtain ⟨counter, heq, hle, hlt, hpast⟩ :=
    exists_foldl_observeFileNumber _ vs hshort hcounter
  have hcounted := hrecorded.counted hle hlt
  unfold opened
  rw [heq]
  refine ⟨fun _ _ => hcounted, hcounted.recoverable, hlt,
    fun n hn => hcounted.lt_nextFileNumber (.inl hn),
    fun n hn => hcounted.lt_nextFileNumber (.inr hn), nofun, fun o ho => ?_, hdistinct, nofun,
    nofun, hwrites⟩
  obtain ⟨hstore, n, hn, hname⟩ := hobjects o ho
  refine ⟨hstore, n, hpast n (mem_filterMap.2 ⟨o.name, ?_, ?_⟩), hn, hname⟩
  · refine mem_flatMap.2 ⟨o.storeId, hstore, mem_map.2 ⟨o, ?_, rfl⟩⟩
    exact mem_filter.2 ⟨ho, decide_eq_true rfl⟩
  · rw [hname]
    exact sstFileNumber_sstObjectName hn

theorem Sound.opened (h : x.Sound config stores)
    (hrecover : ((recover config {}).run Catalog.answer x.world.catalog).1 = (.ok, vs)) :
    (x.opened stores vs x.world).Sound config stores := by
  obtain ⟨vs', hrun, hrecorded⟩ := h.durable
  rw [hrun] at hrecover
  obtain rfl : vs' = vs := (Prod.mk.inj hrecover).2
  refine sound_opened hrecorded (fun o ho => ?_) h.distinct h.writes
  obtain ⟨hstore, n, -, hn, hname⟩ := h.objects o ho
  exact ⟨hstore, n, hn, hname⟩

theorem Sound.crashed (h : x.Sound config stores) : x.crashed.Sound config stores :=
  { h with memory := nofun, stored := nofun, held := nofun, apart := nofun }

/-- Nothing was ever written. -/
structure Unused (x : Site ι σ) : Prop where
  blank : VersionSet.Blank x.world.catalog
  site : x = { world := x.world }

theorem Unused.opened (h : x.Unused)
    (hroom : VersionSet.SnapshotRoom config (({} : VersionSet ι).snapshotOf {}))
    (hcreate : (create config {}).Exec (ShakyCatalog.Reply true) x.world (.ok, vs) w) :
    (x.opened stores vs w).Sound config stores := by
  have halone := create_alone h.blank hroom fun _ => id
  obtain ⟨-, -, hcurrent, l, hl⟩ := halone.exec hcreate rfl
  have hnumbers : vs.current.fileNumbers = [] := congrArg Version.fileNumbers hcurrent
  have hrecorded : Recorded config vs w.catalog [] :=
    ⟨l, none, hl, nofun, hnumbers ▸ nofun, nofun⟩
  rw [h.site]
  exact sound_opened hrecorded nofun nodup_nil nofun

theorem Unused.created (h : x.Unused) (hmade : VersionSet.Resumes config w.catalog {} [] 1) :
    ({ x with world := w } : Site ι σ).Sound config stores := by
  rw [h.site]
  have hone : 1 < 2 ^ 64 := by decide
  exact ⟨nofun, hmade.recoverable nofun nofun, hone, nofun, nofun, nofun, nofun,
    nodup_nil, nofun, nofun, nofun⟩

theorem Unused.recover_eq_notFound (h : x.Unused) (config : ManifestConfig) :
    ((recover config ({} : VersionSet ι)).run Catalog.answer x.world.catalog).1.1 =
      .notFound := by
  have hread : Catalog.answer Call.read x.world.catalog = (.ok none, x.world.catalog) := by
    rw [← h.blank.pointer]
    rfl
  unfold recover recoverAttempts recoverLoop
  rw [run_bind, recoverAttempt, Manifest.read, run_ask_bind hread]
  rfl

/-- Nothing is written before the manifest; then the store is sound. -/
def Settled (config : ManifestConfig) (stores : List Bytes) (x : Site ι σ) : Prop :=
  x.Unused ∨ x.Sound config stores

theorem Sound.recover_ne_notFound (h : x.Sound config stores) :
    ((recover config ({} : VersionSet ι)).run Catalog.answer x.world.catalog).1.1 ≠
      .notFound := by
  obtain ⟨vs, hrun, -⟩ := h.durable
  rw [hrun]
  exact nofun

end Site

/-- Process after process, from an empty store: each creates or recovers the manifest and lists the
stores before its threads run; it may end at any point, and objects may be lost while none runs. -/
inductive NumberRun (config : ManifestConfig) (stores : List Bytes) : Site ι σ → Prop
  | fresh : NumberRun config stores {}
  | creating {x : Site ι σ} {w : ShakyCatalog ι} (h : NumberRun config stores x)
      (hdown : x.running = false)
      (hnone : ((recover config ({} : VersionSet ι)).run Catalog.answer
        x.world.catalog).1.1 = .notFound)
      (hroom : VersionSet.SnapshotRoom config (({} : VersionSet ι).snapshotOf {}))
      (hpasses : (create config {}).Passes (ShakyCatalog.Reply true) x.world w) :
      NumberRun config stores { x with world := w }
  | created {x : Site ι σ} {vs : VersionSet ι} {w : ShakyCatalog ι}
      (h : NumberRun config stores x) (hdown : x.running = false)
      (hnone : ((recover config ({} : VersionSet ι)).run Catalog.answer
        x.world.catalog).1.1 = .notFound)
      (hroom : VersionSet.SnapshotRoom config (({} : VersionSet ι).snapshotOf {}))
      (hcreate : (create config {}).Exec (ShakyCatalog.Reply true) x.world (.ok, vs) w) :
      NumberRun config stores (x.opened stores vs w)
  | reopened {x : Site ι σ} {vs : VersionSet ι} (h : NumberRun config stores x)
      (hdown : x.running = false)
      (hrecover : ((recover config {}).run Catalog.answer x.world.catalog).1 =
        (.ok, vs)) :
      NumberRun config stores (x.opened stores vs x.world)
  | ran {x y : Site ι σ} {threads : ℕ → Thread (FileCall ι σ) FileCall.Result Unit (Site.Job ι σ)}
      (h : NumberRun config stores x) (hup : x.running = true)
      (hreaches : (Site.machine config stores).Reaches ⟨x, fun _ => .idle ()⟩ ⟨y, threads⟩) :
      NumberRun config stores y
  | crashed {x : Site ι σ} (h : NumberRun config stores x) : NumberRun config stores x.crashed
  | lost {x : Site ι σ} (h : NumberRun config stores x) (hdown : x.running = false)
      (gone : Bytes → Bytes → Bool) : NumberRun config stores (x.without gone)

variable {config : ManifestConfig} {stores : List Bytes} {x : Site ι σ}

theorem NumberRun.settled (h : NumberRun config stores x) : x.Settled config stores := by
  induction h with
  | fresh => exact .inl ⟨blank_empty, rfl⟩
  | creating _ _ hnone hroom hpasses ih =>
    rcases ih with ih | ih
    · rcases (create_alone ih.blank hroom fun _ => id).passes hpasses with hblank | hmade
      · exact .inl ⟨hblank, by rw [ih.site]⟩
      · exact .inr (ih.created hmade)
    · exact absurd hnone ih.recover_ne_notFound
  | created _ _ hnone hroom hcreate ih =>
    rcases ih with ih | ih
    · exact .inr (ih.opened hroom hcreate)
    · exact absurd hnone ih.recover_ne_notFound
  | @reopened x vs _ _ hrecover ih =>
    rcases ih with ih | ih
    · have hnone := ih.recover_eq_notFound config
      rw [hrecover] at hnone
      cases hnone
    · exact .inr (ih.opened hrecover)
  | ran _ hup hreaches ih =>
    rcases ih with ih | ih
    · rw [ih.site] at hup
      cases hup
    · exact .inr (ih.reaches hreaches)
  | crashed _ ih =>
    rcases ih with ih | ih
    · exact .inl ⟨ih.blank, by rw [ih.site]; rfl⟩
    · exact .inr ih.crashed
  | lost _ _ gone ih =>
    rcases ih with ih | ih
    · exact .inl ⟨ih.blank, by rw [ih.site]; rfl⟩
    · exact .inr (ih.without gone)

/-- No object is put under an acknowledged number, and no two under one. -/
theorem file_numbers_never_reused {config : ManifestConfig} {stores : List Bytes} {x : Site ι σ}
    (h : NumberRun config stores x) :
    (∀ e ∈ x.writes, ∀ n, sstFileNumber e.name = some n → n ∉ e.acknowledged) ∧
    ∀ o ∈ x.objects, ∀ o' ∈ x.objects, ∀ n, sstFileNumber o.name = some n →
      sstFileNumber o'.name = some n → o = o' := by
  rcases h.settled with hunused | hsound
  · rw [hunused.site]
    exact ⟨nofun, nofun⟩
  · refine ⟨hsound.writes, fun o ho o' ho' n hn hn' => ?_⟩
    have hname : o.name = o'.name :=
      (sstFileNumber_eq_some hn).2.trans (sstFileNumber_eq_some hn').2.symm
    exact inj_on_of_nodup_map hsound.distinct ho ho' hname

namespace Site

/-- An SST was put under the next number. -/
def wrote (x : Site ι σ) (storeId : Bytes) (sst : σ) : Site ι σ :=
  let n := x.versions.nextFileNumber
  let drawn : Site ι σ := { x with
    versions := x.versions.allocateFileNumber.2, held := Function.update x.held 0 (some n) }
  { drawn.landed 0 storeId (sstObjectName n) sst with
    stored := (sstFileNumber (sstObjectName n)).toList ++ x.stored }

/-- An operation returned, on a healthy catalog. -/
def performed (x : Site ι σ) (config : ManifestConfig) (op : WriterOp ι) : Site ι σ :=
  let (result, script) := (op.program config x.versions).run (Script.answer true) ⟨x.world, []⟩
  x.committed result script.world

end Site

theorem NumberRun.did {y : Site ι σ} (h : NumberRun config stores x) (hup : x.running = true)
    (job : Site.Job ι σ)
    (hstore : ∀ storeId sst sealed, job = .write storeId sst sealed → storeId ∈ stores)
    (hexec : (job.program config stores).Exec (Site.Reply config 0) x () y) :
    NumberRun config stores y :=
  .ran h hup (.operation (M := Site.machine config stores) (t := 0) (o := job) rfl hstore hexec)

theorem NumberRun.wrote (h : NumberRun config stores x) (hup : x.running = true) {storeId : Bytes}
    (sst : σ) (hstore : storeId ∈ stores)
    (hprovider : (config.registry.find config.registry.primary).isSome = true)
    (hshort : x.versions.nextFileNumber < 10 ^ 12)
    (hnew : sstObjectName x.versions.nextFileNumber ∉ x.names storeId) :
    NumberRun config stores (x.wrote storeId sst) := by
  obtain ⟨provider, hprovider⟩ := Option.isSome_iff_exists.1 hprovider
  refine h.did hup (.write storeId sst true) ?_ ?_
  · rintro _ _ _ ⟨⟩
    exact hstore
  · unfold Site.Job.program writeNewSst
    rw [hprovider]
    exact ⟨_, _, ⟨hshort, rfl, rfl⟩, _, _, .inr (.inl ⟨hnew, rfl, rfl⟩), rfl, rfl⟩

theorem NumberRun.performed (h : NumberRun config stores x) (hup : x.running = true)
    (hgoing : x.halted = false) {op : WriterOp ι} (hfits : op.Fits config x.versions)
    (hadded : ∀ n ∈ op.addedNumbers, n ∈ x.stored ∨ n ∈ x.versions.current.fileNumbers) :
    NumberRun config stores (x.performed config op) := by
  have hexec := exec_of_run Script.world (Script.reply_answer true) (op.program config x.versions)
    ⟨x.world, []⟩
  refine h.did hup (.commit op) nofun ?_
  exact ⟨_, _, ⟨hup, hgoing, hfits, hadded, .inl ⟨_, _, hexec, rfl⟩⟩, rfl, rfl⟩

/-- A process wrote and committed a file. -/
def committedSite : Site ℕ ℕ :=
  let made := (create (plainConfig 1) ({} : VersionSet ℕ)).run (Script.answer true)
    ⟨{}, []⟩
  let file : FileMetadata := { fileNumber := 1, storeId := [100] }
  ((Site.opened {} [[100]] made.1.2 made.2.world).wrote [100] 7).performed (plainConfig 1)
    (.apply 1 { added := [file] })

theorem committedSite_run : NumberRun (plainConfig 1) [[100]] committedSite := by
  have hexec := exec_of_run Script.world (Script.reply_answer true)
    (create (plainConfig 1) ({} : VersionSet ℕ)) ⟨{}, []⟩
  have hok : ((create (plainConfig 1) ({} : VersionSet ℕ)).run (Script.answer true)
      ⟨{}, []⟩).1.1 = .ok := by decide +kernel
  rw [← Prod.mk.eta (p := (run _ _ _).1), hok] at hexec
  have hopened : NumberRun (plainConfig 1) [[100]] (Site.opened ({} : Site ℕ ℕ) [[100]] _ _) :=
    .created .fresh rfl (by decide +kernel) (plainConfig_snapshotRoom (by decide +kernel)) hexec
  refine (hopened.wrote rfl 7 (mem_singleton_self _) rfl (by decide +kernel)
    (by decide +kernel)).performed rfl rfl ?_ (by decide +kernel)
  refine ⟨⟨⟨by decide +kernel, fun f hf => ?_, nofun, nofun, nofun⟩, by decide +kernel,
    by decide +kernel, rfl⟩, fun _ => plainConfig_snapshotRoom (by decide +kernel)⟩
  obtain rfl := mem_singleton.1 hf
  exact ⟨by decide, by decide, ⟨nofun, nofun⟩⟩

/-- It ended, and the object was lost. -/
def lostSite : Site ℕ ℕ := committedSite.crashed.without fun _ _ => true

/-- The next process writes another. -/
def rewrittenSite : Site ℕ ℕ :=
  let found := (recover (plainConfig 1) ({} : VersionSet ℕ)).run Catalog.answer
    lostSite.world.catalog
  (lostSite.opened [[100]] found.1.2 lostSite.world).wrote [100] 8

/-- The lost file's number is not written under again. -/
theorem lost_file_number_not_reused :
    rewrittenSite.writes.map (fun e => (sstFileNumber e.name, e.acknowledged)) =
      [(some 1, []), (some 2, [1])] ∧
    ∀ e ∈ rewrittenSite.writes, ∀ n, sstFileNumber e.name = some n → n ∉ e.acknowledged := by
  have hlost : NumberRun (plainConfig 1) [[100]] lostSite :=
    .lost committedSite_run.crashed rfl _
  have hok : ((recover (plainConfig 1) ({} : VersionSet ℕ)).run Catalog.answer
      lostSite.world.catalog).1.1 = .ok := by decide +kernel
  have hfound := Prod.mk.eta (p := ((recover (plainConfig 1)
    ({} : VersionSet ℕ)).run Catalog.answer lostSite.world.catalog).1)
  rw [hok] at hfound
  have hopened := NumberRun.reopened hlost rfl hfound.symm
  have hrun : NumberRun (plainConfig 1) [[100]] rewrittenSite :=
    hopened.wrote rfl 8 (mem_singleton_self _) rfl (by decide +kernel) (by decide +kernel)
  exact ⟨by decide +kernel, (file_numbers_never_reused hrun).1⟩

end ElysiumKV
