import ElysiumKV.GenerationRoll

/-!
# One writer and a catalog that fails

The snapshot and edits of the live generation replay to the writer's version, with at most one edit
beyond it, whose put failed (`Consistent`).
-/

namespace ElysiumKV

open Program Program.Prog ManifestPayload List Option

namespace VersionSet

open Catalog

variable {ι : Type}

/-! ### What is stored -/

/-- The live generation: a snapshot for `base`, and the edits after it. -/
structure Ledger (ι : Type) where
  entry : CatalogEntry
  base : List (Record ι)
  snapshot : VersionSnapshot
  records : List (Record ι)

variable (config : ManifestConfig)

/-- What a recovery assembles. -/
def Ledger.assembled (l : Ledger ι) : Assembled ι :=
  assembledFrom config l.base l.snapshot l.records

/-- With further edits. -/
def Ledger.append (l : Ledger ι) (records : List (Record ι)) : Ledger ι :=
  { l with records := l.records ++ records }

theorem Ledger.append_nil (l : Ledger ι) : l.append [] = l := by
  unfold append
  rw [List.append_nil]

theorem Ledger.assembled_append (l : Ledger ι) (r : Record ι) :
    (l.append [r]).assembled config =
      (l.assembled config).replay config r.id r.edit config.registry.primary := by
  simp only [assembled, append, assembledFrom, Assembled.replayAll, foldl_append,
    foldl_cons, foldl_nil]

theorem Ledger.expectedSeq_assembled (l : Ledger ι) :
    (l.assembled config).expectedSeq = l.records.length + 1 := by
  rw [assembled, assembledFrom, Assembled.expectedSeq_replayAll]
  exact Nat.add_comm 1 _

/-- The counter a recovery takes up, a pending edit included. -/
def Ledger.recorded (l : Ledger ι) (pending : Option (Record ι)) : ℕ :=
  ((l.append pending.toList).assembled config).fileNumber

theorem Ledger.recorded_none (l : Ledger ι) :
    l.recorded config none = (l.assembled config).fileNumber := by
  rw [recorded, toList_none, append_nil]

/-- The catalog holds the ledger, and no edit above. -/
structure Stored (config : ManifestConfig) (w : Catalog ι) (l : Ledger ι) : Prop where
  pointer : w.pointer = some l.entry
  holds : Holds config l.entry.generation (w.generation l.entry.generation) l.base l.snapshot
    l.records
  clear : ∀ g, l.entry.generation < g → (w.generation g).edits = ∅

/-- A fresh healthy recovery installs the version, made of `history`. -/
def Recovers (w : Catalog ι) (version : Version) (history : List (Record ι)) : Prop :=
  ∃ vs, (recover config {}).run answer w = ((.ok, vs), w) ∧ vs.current.Same version ∧
    vs.history = history

section Stored

variable {config : ManifestConfig} {w : Catalog ι} {l : Ledger ι}

theorem Stored.recovers (h : Stored config w l) {version : Version}
    (hversion : (l.assembled config).version.Same version) :
    Recovers config w version (l.assembled config).history :=
  ⟨_, h.holds.run_recover h.pointer, hversion, rfl⟩

theorem Stored.edit_eq_none (h : Stored config w l) {seq : ℕ} (hseq : l.records.length < seq) :
    w.edit l.entry.generation seq = none := by
  cases hedit : w.edit l.entry.generation seq with
  | none => rfl
  | some object =>
    have := (h.holds.only seq (by rw [← edit, hedit]; rfl)).2
    omega

theorem Stored.withEdit (h : Stored config w l) {bytes : Bytes} {r : Record ι}
    (hread : ∀ tail, readEdit config l.entry.generation (l.records.length + 1) tail bytes =
      .read r.edit config.registry.primary) :
    Stored config (w.withEdit l.entry.generation (l.records.length + 1) bytes r.id)
      (l.append [r]) where
  pointer := h.pointer
  holds := by
    rw [Catalog.withEdit, Catalog.generation_set, Ledger.append, if_pos rfl]
    refine ⟨h.holds.snapshot, fun i r' hi => ?_, fun seq hseq => ?_⟩
    · by_cases hlast : i = l.records.length
      · subst hlast
        obtain rfl : r = r' := by simpa using hi
        exact ⟨⟨bytes, r.id⟩, AList.lookup_insert _, rfl, hread⟩
      · have hlt : i < l.records.length := by
          have := (List.getElem?_eq_some_iff.1 hi).1
          simp only [length_append, length_cons, length_nil] at this
          omega
        rw [List.getElem?_append_left hlt] at hi
        obtain ⟨object, hobject, hrest⟩ := h.holds.edits i r' hi
        exact ⟨object, by rw [AList.lookup_insert_ne (by omega)]; exact hobject, hrest⟩
    · rw [length_append, length_singleton]
      by_cases hlast : seq = l.records.length + 1
      · omega
      · rw [AList.lookup_insert_ne hlast] at hseq
        have := h.holds.only seq hseq
        omega
  clear g hg := by
    rw [Catalog.withEdit, Catalog.generation_set, if_neg (show g ≠ l.entry.generation from ne_of_gt hg)]
    exact h.clear g hg

variable {w' : ShakyCatalog ι}

theorem Stored.beyond {w : ShakyCatalog ι} (h : Stored config w.catalog l)
    (hbeyond : Beyond l.entry.generation w w') : Stored config w'.catalog l where
  pointer := hbeyond.pointer.trans h.pointer
  holds := by
    rw [hbeyond.below _ le_rfl]
    exact h.holds
  clear g hg := (hbeyond.edits g).trans (h.clear g hg)

theorem Stored.state (h : Stored config w l) :
    ManifestState config w l.entry ⟨l.base, l.snapshot, l.records⟩ :=
  ⟨h.pointer, legible_of_holds h.holds⟩

theorem Stored.published (h : Stored config w l) : Published config w := by
  intro entry hpointer
  obtain rfl := some.inj (h.pointer.symm.trans hpointer)
  exact ⟨_, h.state⟩

theorem Stored.steps_beyond {w : ShakyCatalog ι} (h : Stored config w.catalog l)
    (hbeyond : Beyond l.entry.generation w w') : WriterSteps config w.catalog w'.catalog := by
  have hbelow : ∀ entry g, w.catalog.pointer = some entry → g ≤ entry.generation →
      w'.catalog.generation g = w.catalog.generation g := by
    intro entry g hpointer hg
    obtain rfl := some.inj (h.pointer.symm.trans hpointer)
    exact hbeyond.below g hg
  refine .single (.elsewhere hbeyond.pointer (fun entry hp => hbelow entry _ hp le_rfl)
    fun entry g hp hg => .inl ?_)
  rw [snapshot, snapshot, hbelow entry g hp hg]

theorem RolledTo.stored {vs : VersionSet ι} {snapshot : VersionSnapshot} {floor : ℕ}
    {w : ShakyCatalog ι} {entry : CatalogEntry} (h : RolledTo config vs snapshot floor w entry w')
    (hclear : ∀ g, floor < g → (w.catalog.generation g).edits = ∅) :
    Stored config w'.catalog ⟨entry, vs.history, snapshot, []⟩ where
  pointer := h.pointer
  holds := by
    refine ⟨h.snapshot, fun i r hi => ?_, fun seq hseq => ?_⟩
    · cases hi
    · rw [h.edits _ h.above, hclear _ h.above, AList.lookup_empty] at hseq
      cases hseq
  clear g hg := (h.edits g (h.above.trans hg)).trans (hclear g (h.above.trans hg))

theorem Stored.steps_rolledTo {vs : VersionSet ι} {snapshot : VersionSnapshot}
    {w : ShakyCatalog ι} {entry : CatalogEntry} (h : Stored config w.catalog l)
    (hrolled : RolledTo config vs snapshot l.entry.generation w entry w') :
    WriterSteps config w.catalog w'.catalog := by
  have hpointed : ∀ e, w.catalog.pointer = some e → e = l.entry :=
    fun e he => some.inj (he.symm.trans h.pointer)
  refine .single (.install (fun e he => ?_) (hrolled.stored h.clear).state fun e g he hg => ?_)
  · rw [hpointed e he]
    exact hrolled.above
  · rw [hpointed e he] at hg
    unfold Catalog.snapshot
    rcases hrolled.left g hg with hkept | hgone
    · exact .inl (by rw [hkept])
    · exact .inr (by rw [hgone])

theorem Stored.steps_withEdit (h : Stored config w l) {bytes : Bytes} {r : Record ι}
    (hread : ∀ tail, readEdit config l.entry.generation (l.records.length + 1) tail bytes =
      .read r.edit config.registry.primary) :
    WriterSteps config w (w.withEdit l.entry.generation (l.records.length + 1) bytes r.id) :=
  .single (.append r bytes h.state hread)

end Stored

/-! ### Memory and catalog -/

/-- Memory stands for the ledger; the catalog has one more edit if one is pending. -/
structure Consistent (config : ManifestConfig) (vs : VersionSet ι) (w : Catalog ι) (l : Ledger ι)
    (pending : Option (Record ι)) : Prop where
  stored : Stored config w (l.append pending.toList)
  entry : vs.entry = some l.entry
  nextSeq : vs.nextSeq = l.records.length + 1
  history : vs.history = (l.assembled config).history
  current : vs.current.Same (l.assembled config).version
  fileNumber : (l.assembled config).fileNumber ≤ vs.nextFileNumber
  counter : vs.nextFileNumber < 2 ^ 64
  restorable : Restorable config vs.current
  pending : ∀ r ∈ pending, r.edit.Representable ∧ refusesFiles config r.edit.added = false

/-- Equal but for what `Consistent` ignores. -/
structure Agrees (vs vs' : VersionSet ι) : Prop where
  entry : vs'.entry = vs.entry
  nextSeq : vs'.nextSeq = vs.nextSeq
  history : vs'.history = vs.history
  current : vs'.current = vs.current
  nextFileNumber : vs'.nextFileNumber = vs.nextFileNumber
  fenced : vs'.fenced = vs.fenced

theorem Agrees.refl (vs : VersionSet ι) : Agrees vs vs := ⟨rfl, rfl, rfl, rfl, rfl, rfl⟩

/-- The version with a pending edit. -/
def withPending (v : Version) (pending : Option (Record ι)) : Version :=
  pending.elim v fun r => v.apply r.edit

section Consistent

variable {config : ManifestConfig} {vs : VersionSet ι} {w : Catalog ι} {l : Ledger ι}
  {pending : Option (Record ι)}

theorem Consistent.agrees (h : Consistent config vs w l pending) {vs' : VersionSet ι}
    (hagrees : Agrees vs vs') : Consistent config vs' w l pending where
  stored := h.stored
  entry := hagrees.entry.trans h.entry
  nextSeq := hagrees.nextSeq.trans h.nextSeq
  history := hagrees.history.trans h.history
  current := hagrees.current ▸ h.current
  fileNumber := hagrees.nextFileNumber ▸ h.fileNumber
  counter := hagrees.nextFileNumber ▸ h.counter
  restorable := hagrees.current ▸ h.restorable
  pending := h.pending

theorem Consistent.recovers (h : Consistent config vs w l pending) :
    Recovers config w (withPending vs.current pending) (vs.history ++ pending.toList) := by
  cases pending with
  | none =>
    have hstored : Stored config w l := l.append_nil ▸ h.stored
    rw [h.history, toList_none, append_nil]
    exact hstored.recovers h.current.symm
  | some r =>
    have hstored : Stored config w (l.append [r]) := h.stored
    have hversion : ((l.append [r]).assembled config).version.Same (vs.current.apply r.edit) := by
      rw [l.assembled_append]
      exact (h.current.apply r.edit).symm
    have hhistory : ((l.append [r]).assembled config).history = vs.history ++ [r] := by
      rw [l.assembled_append, h.history]
      rfl
    exact hhistory ▸ hstored.recovers hversion

theorem Consistent.reopens (h : Consistent config vs w l pending)
    (hroom : SnapshotRoom config (vs.snapshotOf vs.current)) :
    Reopens config (vs.snapshotOf vs.current) := fun _ _ _ hseal =>
  readSnapshot_sealed hroom (snapshotOf_representable h.restorable.representable h.counter)
    h.restorable.files hseal

/-- The set after a roll. -/
def rolled (vs : VersionSet ι) (entry : CatalogEntry) : VersionSet ι :=
  { vs.adopted entry with nextSeq := 1 }

theorem Consistent.rolled {w w' : ShakyCatalog ι} (h : Consistent config vs w.catalog l pending)
    {entry : CatalogEntry} (hrolled : RolledTo config vs (vs.snapshotOf vs.current)
      l.entry.generation w entry w') :
    Consistent config (vs.rolled entry) w'.catalog
      ⟨entry, vs.history, vs.snapshotOf vs.current, []⟩ none where
  stored := by
    rw [toList_none, Ledger.append_nil]
    exact hrolled.stored h.stored.clear
  entry := rfl
  nextSeq := rfl
  history := rfl
  current := (ofSnapshot_same vs h.restorable.ordered).symm
  fileNumber := le_rfl
  counter := h.counter
  restorable := h.restorable
  pending := nofun

theorem Consistent.reopened (h : Consistent config vs w l pending) :
    (recover config {}).run answer w = ((.ok, ({} : VersionSet ι).recovered l.entry
      ((l.append pending.toList).assembled config)), w) ∧
    Consistent config (({} : VersionSet ι).recovered l.entry
      ((l.append pending.toList).assembled config)) w (l.append pending.toList) none := by
  have hversion : (withPending vs.current pending).Same
      ((l.append pending.toList).assembled config).version := by
    cases pending with
    | none =>
      rw [toList_none, l.append_nil]
      exact h.current
    | some r =>
      rw [toList_some, l.assembled_append]
      exact h.current.apply r.edit
  have hrestorable : Restorable config (withPending vs.current pending) := by
    cases pending with
    | none => exact h.restorable
    | some r => exact h.restorable.apply (h.pending r rfl).1 (h.pending r rfl).2
  have hcounter : ((l.append pending.toList).assembled config).fileNumber < 2 ^ 64 := by
    have hnumber := h.fileNumber.trans_lt h.counter
    cases pending with
    | none => rwa [toList_none, l.append_nil]
    | some r =>
      rw [toList_some, l.assembled_append]
      show (if _ then _ else _) < 2 ^ 64
      have hedit := (h.pending r rfl).1.nextFileNumber
      split_ifs <;> assumption
  refine ⟨h.stored.holds.run_recover h.stored.pointer, ?_, rfl, ?_, rfl, .refl _, le_rfl, hcounter,
    hrestorable.same hversion, nofun⟩
  · rw [toList_none, Ledger.append_nil]
    exact h.stored
  · exact Ledger.expectedSeq_assembled config _

theorem Consistent.beyond {w w' : ShakyCatalog ι} (h : Consistent config vs w.catalog l pending)
    (hbeyond : Beyond l.entry.generation w w') : Consistent config vs w'.catalog l pending :=
  { h with stored := h.stored.beyond hbeyond }

/-- It also stands for the catalog, with a counter of at least `floor`. -/
def Resumes (config : ManifestConfig) (w : Catalog ι) (version : Version)
    (history : List (Record ι)) (floor : ℕ) : Prop :=
  ∃ vs l, (recover config {}).run answer w = ((.ok, vs), w) ∧
    Consistent config vs w l none ∧ vs.current.Same version ∧ vs.history = history ∧
    floor ≤ (l.assembled config).fileNumber

theorem Resumes.recovers {version : Version} {history : List (Record ι)} {floor : ℕ}
    (h : Resumes config w version history floor) : Recovers config w version history := by
  obtain ⟨vs, l, hrun, -, hcurrent, hhistory, -⟩ := h
  exact ⟨vs, hrun, hcurrent, hhistory⟩

theorem Resumes.mono {version : Version} {history : List (Record ι)} {floor floor' : ℕ}
    (h : Resumes config w version history floor) (hfloor : floor' ≤ floor) :
    Resumes config w version history floor' := by
  obtain ⟨vs, l, hrun, hcons, hcurrent, hhistory, hle⟩ := h
  exact ⟨vs, l, hrun, hcons, hcurrent, hhistory, hfloor.trans hle⟩

theorem Consistent.resumes (h : Consistent config vs w l pending) :
    Resumes config w (withPending vs.current pending) (vs.history ++ pending.toList)
      (l.recorded config pending) := by
  obtain ⟨hrun, hcons⟩ := h.reopened
  obtain ⟨vs', hrun', hcurrent, hhistory⟩ := h.recovers
  obtain rfl : _ = vs' := (Prod.mk.inj (Prod.mk.inj (hrun.symm.trans hrun')).1).2
  exact ⟨_, _, hrun, hcons, hcurrent, hhistory, le_rfl⟩

end Consistent

section Methods

variable {config : ManifestConfig} {vs : VersionSet ι} {w : ShakyCatalog ι} {l : Ledger ι}
  {pending : Option (Record ι)} {mid : ShakyCatalog ι → Prop}

/-- The snapshot alone under a new entry, or all as it was. -/
def RollLeaves (config : ManifestConfig) (vs : VersionSet ι) (w : ShakyCatalog ι) (l : Ledger ι)
    (pending : Option (Record ι)) (result : Status × VersionSet ι) (w' : ShakyCatalog ι) : Prop :=
  w'.failedPuts = w.failedPuts ∧ WriterSteps config w.catalog w'.catalog ∧
    ((∃ entry, result = (.ok, vs.rolled entry) ∧ Consistent config (vs.rolled entry) w'.catalog
        ⟨entry, vs.history, vs.snapshotOf vs.current, []⟩ none) ∨
      FailedRoll vs result ∧ Consistent config vs w'.catalog l pending)

theorem roll_alone (h : Consistent config vs w.catalog l pending)
    (hroom : SnapshotRoom config (vs.snapshotOf vs.current))
    (hmid : ∀ w' p, (p = pending ∨ p = none) → w'.failedPuts = w.failedPuts →
      Resumes config w'.catalog (withPending vs.current p) (vs.history ++ p.toList)
        (l.recorded config p) →
      WriterSteps config w.catalog w'.catalog → mid w') :
    (roll config vs l.entry vs.current).Alone (ShakyCatalog.Reply true) mid
      (RollLeaves config vs w l pending) w := by
  have hbeyond : ∀ w', Beyond l.entry.generation w w' → mid w' := fun w' hw' =>
    hmid w' pending (.inl rfl) hw'.failedPuts (h.beyond hw').resumes (h.stored.steps_beyond hw')
  have hrolled : ∀ w' entry,
      RolledTo config vs (vs.snapshotOf vs.current) l.entry.generation w entry w' → mid w' :=
    fun w' entry hw' => hmid w' none (.inr rfl) hw'.failedPuts
      ((h.rolled hw').resumes.mono (l.recorded_none config ▸ h.fileNumber))
      (h.stored.steps_rolledTo hw')
  have hafter : ∀ e, vs.entry = some e → e.generation ≤ l.entry.generation := by
    intro e he
    obtain rfl := some.inj (he.symm.trans h.entry)
    exact le_rfl
  unfold roll
  refine Alone.bind ((writeSnapshotAndInstall_alone l.entry.generation (h.reopens hroom)
    (h.stored.pointer.trans h.entry.symm) hafter hbeyond hrolled).weaken fun result w' h' => ?_)
  rcases h' with ⟨entry, hto, rfl⟩ | ⟨hfailed, hw'⟩
  · exact Alone.pure (hrolled w' entry hto)
      ⟨hto.failedPuts, h.stored.steps_rolledTo hto, .inl ⟨entry, rfl, h.rolled hto⟩⟩
  · obtain ⟨status, after⟩ := result
    show Alone _ _ (if _ then _ else _) _ _
    rw [if_pos hfailed.1]
    exact Alone.pure (hbeyond w' hw')
      ⟨hw'.failedPuts, h.stored.steps_beyond hw', .inr ⟨hfailed, h.beyond hw'⟩⟩

theorem collectObsoleteLocked_alone
    (hmid : ∀ w', w'.catalog = w.catalog → w'.failedPuts = w.failedPuts → mid w') :
    (collectObsoleteLocked config vs).Alone (ShakyCatalog.Reply true) mid
      (fun vs' w' => Agrees vs vs' ∧ w'.catalog = w.catalog ∧ w'.failedPuts = w.failedPuts)
      w := by
  unfold collectObsoleteLocked
  refine Alone.ask (c := Call.lock vs.liveVersions) (hmid w rfl rfl) fun live w₁ h₁ => ?_
  have hw₁ : w₁.catalog = w.catalog := faulty_lock h₁.1
  have hputs₁ : w₁.failedPuts = w.failedPuts := h₁.2.2.1
  show Alone _ _ (if _ then _ else _) _ _
  split_ifs with hnone
  · exact Alone.pure (hmid _ hw₁ hputs₁) ⟨⟨rfl, rfl, rfl, rfl, rfl, rfl⟩, hw₁, hputs₁⟩
  · refine Alone.ask (c := Call.lock live) (hmid _ hw₁ hputs₁) fun alive w₂ h₂ => ?_
    have hw₂ : w₂.catalog = w.catalog := (faulty_lock h₂.1).trans hw₁
    have hputs₂ : w₂.failedPuts = w.failedPuts := h₂.2.2.1.trans hputs₁
    refine Alone.ask (c := Call.clock) (hmid _ hw₂ hputs₂) fun now w₃ h₃ => ?_
    have hw₃ : w₃.catalog = w.catalog := (faulty_clock h₃.1).trans hw₂
    have hputs₃ : w₃.failedPuts = w.failedPuts := h₃.2.2.1.trans hputs₂
    show Alone _ _ (if _ then _ else _) _ _
    split_ifs with hkeep
    · exact Alone.pure (hmid _ hw₃ hputs₃) ⟨⟨rfl, rfl, rfl, rfl, rfl, rfl⟩, hw₃, hputs₃⟩
    · refine Alone.ask (c := Call.deleteObjects _) (hmid _ hw₃ hputs₃) fun failed w₄ h₄ => ?_
      have hw₄ : w₄.catalog = w.catalog := (faulty_deleteObjects h₄.1).trans hw₃
      have hputs₄ : w₄.failedPuts = w.failedPuts := h₄.2.2.1.trans hputs₃
      exact Alone.pure (hmid _ hw₄ hputs₄) ⟨⟨rfl, rfl, rfl, rfl, rfl, rfl⟩, hw₄, hputs₄⟩

theorem queueDeletions_alone (base : Version) (reAdded : List ℕ) (refs : List FileRef)
    (hmid : ∀ w', w'.catalog = w.catalog → w'.failedPuts = w.failedPuts → mid w') :
    (queueDeletions base reAdded refs : Manifest ι (List PendingDeletion)).Alone
      (ShakyCatalog.Reply true) mid
      (fun _ w' => w'.catalog = w.catalog ∧ w'.failedPuts = w.failedPuts) w := by
  induction refs generalizing w with
  | nil => exact Alone.pure (hmid w rfl rfl) ⟨rfl, rfl⟩
  | cons ref refs ih =>
    unfold queueDeletions
    by_cases hmove : ref.fileNumber ∈ reAdded
    · rw [if_pos hmove]
      exact ih hmid
    · rw [if_neg hmove]
      cases hfind : (base.filesAt ref.level).find? fun f => f.fileNumber = ref.fileNumber with
      | none => exact ih hmid
      | some file =>
        refine Alone.ask (c := Call.clock) (hmid w rfl rfl) fun now w₁ h₁ => ?_
        have hw₁ : w₁.catalog = w.catalog := faulty_clock h₁.1
        have hputs₁ : w₁.failedPuts = w.failedPuts := h₁.2.2.1
        refine Alone.bind ((ih fun w' hw' hputs' =>
          hmid w' (hw'.trans hw₁) (hputs'.trans hputs₁)).weaken fun rest w₂ h₂ => ?_)
        have hw₂ := h₂.1.trans hw₁
        have hputs₂ := h₂.2.trans hputs₁
        exact Alone.pure (hmid w₂ hw₂ hputs₂) ⟨hw₂, hputs₂⟩

/-- The edit as `apply` writes it. -/
def stamped (vs : VersionSet ι) (edit : VersionEdit) : VersionEdit :=
  { edit with nextFileNumber := vs.nextFileNumber }

/-- The record an `apply` adds to the history. -/
def recordOf (vs : VersionSet ι) (id : ι) (edit : VersionEdit) : Record ι :=
  ⟨id, (vs.stamped edit).normalized⟩

theorem apply_recordOf (v : Version) (vs : VersionSet ι) (id : ι) (edit : VersionEdit) :
    v.apply (vs.recordOf id edit).edit = v.apply (vs.stamped edit) :=
  Version.apply_normalized v (vs.stamped edit)

/-- The edit reads back, and so does the snapshot if a roll is due. -/
structure ApplyFits (config : ManifestConfig) (vs : VersionSet ι) (edit : VersionEdit) : Prop where
  fits : EditFits config (vs.stamped edit)
  room : max 1 config.editsPerGeneration < vs.nextSeq + 1 →
    SnapshotRoom config (vs.snapshotOf (vs.current.apply (vs.stamped edit)))

variable {id : ι} {edit : VersionEdit} {w' : Catalog ι}

theorem Consistent.committed {w : Catalog ι} (h : Consistent config vs w l none)
    (hfits : EditFits config (vs.stamped edit)) (queued : List PendingDeletion)
    (hstored : Stored config w' (l.append [vs.recordOf id edit])) :
    Consistent config (vs.committed id (vs.stamped edit) queued) w'
      (l.append [vs.recordOf id edit]) none where
  stored := by rwa [toList_none, Ledger.append_nil]
  entry := h.entry
  nextSeq := by
    show vs.nextSeq + 1 = (l.records ++ [_]).length + 1
    rw [h.nextSeq, length_append, length_singleton]
  history := by
    rw [l.assembled_append]
    show vs.history ++ [_] = (l.assembled config).history ++ [_]
    rw [h.history]
    rfl
  current := by
    rw [l.assembled_append]
    show (vs.current.apply (vs.stamped edit)).Same (Version.apply _ (vs.recordOf id edit).edit)
    rw [apply_recordOf]
    exact h.current.apply (vs.stamped edit)
  fileNumber := by
    rw [l.assembled_append]
    show (if _ < vs.nextFileNumber then vs.nextFileNumber else _) ≤ vs.nextFileNumber
    have := h.fileNumber
    split_ifs <;> omega
  counter := h.counter
  restorable := h.restorable.apply hfits.representable hfits.files
  pending := nofun

theorem Consistent.fileNumber_append {w : Catalog ι} (h : Consistent config vs w l pending) (id : ι)
    (edit : VersionEdit) :
    ((l.append [vs.recordOf id edit]).assembled config).fileNumber = vs.nextFileNumber := by
  rw [l.assembled_append]
  show (if _ < vs.nextFileNumber then vs.nextFileNumber else _) = vs.nextFileNumber
  have := h.fileNumber
  split_ifs <;> omega

/-- What an `apply` that returned `ok` leaves. -/
structure Applied (config : ManifestConfig) (vs : VersionSet ι) (id : ι) (edit : VersionEdit)
    (vs' : VersionSet ι) (w' : Catalog ι) : Prop where
  current : vs'.current = vs.current.apply (vs.stamped edit)
  history : vs'.history = vs.history ++ [vs.recordOf id edit]
  nextFileNumber : vs'.nextFileNumber = vs.nextFileNumber
  fenced : vs'.fenced = vs.fenced
  consistent : ∃ l, Consistent config vs' w' l none ∧
    (l.assembled config).fileNumber = vs.nextFileNumber

theorem Applied.resumes {vs' : VersionSet ι} (h : Applied config vs id edit vs' w') :
    Resumes config w' (withPending vs.current (some (vs.recordOf id edit)))
      (vs.history ++ [vs.recordOf id edit]) vs.nextFileNumber := by
  obtain ⟨l, hl, hfile⟩ := h.consistent
  have hrec := hl.resumes
  rw [toList_none, append_nil, h.history, l.recorded_none, hfile] at hrec
  show Resumes config w' (vs.current.apply (vs.recordOf id edit).edit) _ _
  rw [apply_recordOf, ← h.current]
  exact hrec

theorem Applied.agrees {vs₁ vs₂ : VersionSet ι} (h : Applied config vs id edit vs₁ w')
    (hagrees : Agrees vs₁ vs₂) : Applied config vs id edit vs₂ w' where
  current := hagrees.current.trans h.current
  history := hagrees.history.trans h.history
  nextFileNumber := hagrees.nextFileNumber.trans h.nextFileNumber
  fenced := hagrees.fenced.trans h.fenced
  consistent := by
    obtain ⟨l, hl, hfile⟩ := h.consistent
    exact ⟨l, hl.agrees hagrees, hfile⟩

theorem Consistent.applied {w : Catalog ι} (h : Consistent config vs w l none)
    (hfits : EditFits config (vs.stamped edit)) (queued : List PendingDeletion)
    (hstored : Stored config w' (l.append [vs.recordOf id edit])) :
    Applied config vs id edit (vs.committed id (vs.stamped edit) queued) w' :=
  ⟨rfl, rfl, rfl, rfl, _, h.committed hfits queued hstored, h.fileNumber_append id edit⟩

section Commit

variable {id : ι} {edit : VersionEdit}
  (hmid : ∀ w', w'.failedPuts = w.failedPuts →
    Resumes config w'.catalog (withPending vs.current (some (vs.recordOf id edit)))
      (vs.history ++ [vs.recordOf id edit]) vs.nextFileNumber →
    WriterSteps config w.catalog w'.catalog → mid w')

include hmid

theorem maybeRollGeneration_alone {w₁ : ShakyCatalog ι} {w₀ : Catalog ι}
    (h : Consistent config vs w₀ l none) (hfits : ApplyFits config vs edit)
    (hstored : Stored config w₁.catalog (l.append [vs.recordOf id edit]))
    (hw₁ : w₁.catalog = w.catalog) (hputs : w₁.failedPuts = w.failedPuts)
    (queued : List PendingDeletion) :
    (maybeRollGeneration config (vs.committed id (vs.stamped edit) queued) l.entry
      (vs.current.apply (vs.stamped edit))).Alone (ShakyCatalog.Reply true) mid
      (fun result w' => Applied config vs id edit result.2 w'.catalog ∧
        WriterSteps config w.catalog w'.catalog ∧ w'.failedPuts = w.failedPuts) w₁ := by
  have hcommitted := h.committed hfits.fits queued hstored
  unfold maybeRollGeneration
  by_cases hfull : (vs.committed id (vs.stamped edit) queued).nextSeq ≤
      max 1 config.editsPerGeneration
  · rw [if_pos hfull]
    have happ := h.applied hfits.fits queued hstored
    have hsteps : WriterSteps config w.catalog w₁.catalog := hw₁ ▸ .refl
    exact Alone.pure (hmid w₁ hputs happ.resumes hsteps) ⟨happ, hsteps, hputs⟩
  · rw [if_neg hfull]
    have hroom := hfits.room (not_le.1 hfull)
    refine (roll_alone hcommitted hroom fun w' p hp hputs' hrec hsteps => ?_).weaken
      fun result w' h' => ?_
    · obtain rfl : p = none := or_self_iff.1 hp
      refine hmid w' (hputs'.trans hputs) ?_ (hw₁ ▸ hsteps)
      rw [toList_none, append_nil, Ledger.recorded_none, h.fileNumber_append id edit] at hrec
      show Resumes config w'.catalog (vs.current.apply (vs.recordOf id edit).edit) _ _
      rw [apply_recordOf]
      exact hrec
    · obtain ⟨hputs', hsteps, ⟨entry, rfl, hrolled⟩ | ⟨hfailed, hcons⟩⟩ := h'
      · exact ⟨⟨rfl, rfl, rfl, rfl, _, hrolled, rfl⟩, hw₁ ▸ hsteps, hputs'.trans hputs⟩
      · have happ := h.applied hfits.fits queued (Ledger.append_nil _ ▸ hcons.stored)
        exact ⟨hfailed.2.symm ▸ happ, hw₁ ▸ hsteps, hputs'.trans hputs⟩

theorem commitEdit_alone {w₀ : Catalog ι} (h : Consistent config vs w₀ l none)
    (hfits : ApplyFits config vs edit)
    (hstored : Stored config w.catalog (l.append [vs.recordOf id edit])) :
    (commitEdit config vs l.entry id (vs.stamped edit)).Alone (ShakyCatalog.Reply true) mid
      (fun result w' => result.1 = .ok ∧ Applied config vs id edit result.2 w'.catalog ∧
        w'.failedPuts = w.failedPuts) w := by
  have hsame : ∀ w', w'.catalog = w.catalog → w'.failedPuts = w.failedPuts → mid w' := by
    intro w' hw' hputs
    exact hmid w' hputs (h.applied hfits.fits [] (hw' ▸ hstored)).resumes (hw' ▸ .refl)
  unfold commitEdit
  refine Alone.bind ((queueDeletions_alone _ _ _ hsame).weaken fun queued w₁ h₁ => ?_)
  refine Alone.bind ((maybeRollGeneration_alone hmid h hfits (h₁.1 ▸ hstored) h₁.1 h₁.2
    queued).weaken fun result w₂ h₂ => ?_)
  obtain ⟨status, rolled⟩ := result
  obtain ⟨happlied, hsteps₂, hputs₂⟩ := h₂
  have hnoted : ∀ noted, Agrees rolled noted → (collectObsoleteLocked config noted >>=
      fun collected => pure (Status.ok, collected)).Alone (ShakyCatalog.Reply true) mid
        (fun result w' => result.1 = .ok ∧ Applied config vs id edit result.2 w'.catalog ∧
          w'.failedPuts = w.failedPuts) w₂ := by
    intro noted hagrees
    have hmid₂ : ∀ w', w'.catalog = w₂.catalog → w'.failedPuts = w₂.failedPuts → mid w' :=
      fun w' hw' hputs' =>
        hmid w' (hputs'.trans hputs₂) (hw' ▸ happlied.resumes) (hw' ▸ hsteps₂)
    refine Alone.bind ((collectObsoleteLocked_alone hmid₂).weaken fun collected w₃ h₃ => ?_)
    obtain ⟨hcollected, hw₃, hputs₃⟩ := h₃
    refine Alone.pure (hmid₂ _ hw₃ hputs₃) ⟨rfl, ?_, hputs₃.trans hputs₂⟩
    rw [hw₃]
    exact (happlied.agrees hagrees).agrees hcollected
  by_cases hstatus : status = .ok
  · simp only [hstatus, ne_eq, not_true_eq_false, if_false]
    exact hnoted rolled (.refl rolled)
  · simp only [ne_eq, hstatus, not_false_eq_true, if_true]
    exact hnoted _ ⟨rfl, rfl, rfl, rfl, rfl, rfl⟩

end Commit

theorem Consistent.pending_eq_none {w : Catalog ι} (h : Consistent config vs w l pending)
    (hfree : w.edit l.entry.generation vs.nextSeq = none) : pending = none := by
  cases pending with
  | none => rfl
  | some r =>
    obtain ⟨object, hobject, -⟩ := h.stored.holds.edits l.records.length r (by simp [Ledger.append])
    rw [h.nextSeq] at hfree
    have hedit : w.edit l.entry.generation (l.records.length + 1) = some object := hobject
    rw [hfree] at hedit
    cases hedit

/-- A status that is not `ok`, and no change but the fence. -/
def FailedApply (vs : VersionSet ι) (result : Status × VersionSet ι) : Prop :=
  result.1 ≠ .ok ∧ (result.2 = vs ∨ result.2 = { vs with fenced := true })

variable {result : Status × VersionSet ι}

theorem FailedRoll.failedApply (h : FailedRoll vs result) : FailedApply vs result := ⟨h.1, .inl h.2⟩

theorem failedApply_fenced : FailedApply vs (.fenced, { vs with fenced := true }) :=
  ⟨nofun, .inr rfl⟩

theorem FailedApply.history (h : FailedApply vs result) : result.2.history = vs.history := by
  rcases h.2 with h | h <;> rw [h]

theorem FailedApply.consistent {w : Catalog ι} (h : FailedApply vs result)
    (hcons : Consistent config vs w l pending) : Consistent config result.2 w l pending := by
  rcases h.2 with h | h <;> rw [h]
  · exact hcons
  · exact { hcons with }

/-- The edit applied, or no change and at most this edit put. -/
def ApplyLeaves (config : ManifestConfig) (vs : VersionSet ι) (w : ShakyCatalog ι) (l : Ledger ι)
    (pending : Option (Record ι)) (id : ι) (edit : VersionEdit) (result : Status × VersionSet ι)
    (w' : ShakyCatalog ι) : Prop :=
  w.failedPuts ⊆ w'.failedPuts ∧
    (result.1 = .ok ∧ Applied config vs id edit result.2 w'.catalog ∨
      FailedApply vs result ∧ ∃ p, Consistent config vs w'.catalog l p ∧
        (p = pending ∨ p = some (vs.recordOf id edit) ∧ id ∈ w'.failedPuts))

theorem apply_alone (h : Consistent config vs w.catalog l pending)
    (hfits : ApplyFits config vs edit)
    (hmid : ∀ w' p, (p = pending ∨ p = some (vs.recordOf id edit)) →
      w.failedPuts ⊆ w'.failedPuts →
      Resumes config w'.catalog (withPending vs.current p) (vs.history ++ p.toList)
        (l.recorded config p) →
      WriterSteps config w.catalog w'.catalog → mid w') :
    (apply config vs id edit).Alone (ShakyCatalog.Reply true) mid
      (ApplyLeaves config vs w l pending id edit) w := by
  have hkept : ∀ w', w'.catalog = w.catalog → w.failedPuts ⊆ w'.failedPuts → mid w' :=
    fun w' hw' hputs => hmid w' pending (.inl rfl) hputs (hw' ▸ h.resumes) (hw' ▸ .refl)
  have hfailed : ∀ w' result, w'.catalog = w.catalog → w.failedPuts ⊆ w'.failedPuts →
      FailedApply vs result → ApplyLeaves config vs w l pending id edit result w' :=
    fun w' result hw' hputs hresult => ⟨hputs, .inr ⟨hresult, pending, hw' ▸ h, .inl rfl⟩⟩
  unfold apply
  by_cases hfenced : vs.fenced = true
  · rw [if_pos hfenced]
    exact Alone.pure (hkept w rfl (List.Subset.refl _))
      (hfailed w _ rfl (List.Subset.refl _) ⟨by simp, .inl rfl⟩)
  rw [if_neg hfenced, h.entry]
  refine Alone.ask (c := Call.draw) (hkept w rfl (List.Subset.refl _)) fun draw w₁ h₁ => ?_
  have hw₁ : w₁.catalog = w.catalog := faulty_draw h₁.1
  have hputs₁ : w₁.failedPuts = w.failedPuts := h₁.2.2.1
  have hsub₁ : w.failedPuts ⊆ w₁.failedPuts := hputs₁ ▸ List.Subset.refl _
  rw [show { edit with nextFileNumber := vs.nextFileNumber } = vs.stamped edit from rfl]
  cases hseal : sealPayload config.registry config.codecs l.entry.generation draw
      (editAddress l.entry.generation vs.nextSeq)
      (encodeVersionEdit config.codecs (vs.stamped edit)) with
  | error status =>
    exact Alone.pure (hkept w₁ hw₁ hsub₁)
      (hfailed w₁ _ hw₁ hsub₁ ⟨sealPayload_error hseal, .inl rfl⟩)
  | ok framed =>
    refine Alone.ask (c := Call.putEdit l.entry.generation vs.nextSeq framed id)
      (hkept w₁ hw₁ hsub₁) fun status w₂ h₂ => ?_
    -- where the address was free, the edit is now stored after the ones there were
    have hput : w₁.catalog.edit l.entry.generation vs.nextSeq = none →
        w₂.catalog = w₁.catalog.withEdit l.entry.generation vs.nextSeq framed id →
        pending = none ∧ Stored config w₂.catalog (l.append [vs.recordOf id edit]) ∧
          WriterSteps config w.catalog w₂.catalog := by
      intro hfree hw₂
      rw [hw₁] at hfree
      obtain rfl := h.pending_eq_none hfree
      have hstored : Stored config w.catalog l := l.append_nil ▸ h.stored
      have hread : ∀ tail, readEdit config l.entry.generation (l.records.length + 1) tail framed =
          .read (vs.recordOf id edit).edit config.registry.primary := by
        intro tail
        rw [← h.nextSeq]
        exact readEdit_sealed hfits.fits hseal tail
      rw [hw₂, hw₁, h.nextSeq]
      exact ⟨rfl, hstored.withEdit (r := vs.recordOf id edit) hread,
        hstored.steps_withEdit (r := vs.recordOf id edit) hread⟩
    rcases faulty_putEdit h₂.1 with ⟨hfree, rfl, hw₂⟩ | ⟨rfl, hw₂⟩ | ⟨rfl, hw₂⟩
    · obtain ⟨rfl, hstored, hsteps⟩ := hput hfree hw₂
      have hputs₂ : w₂.failedPuts = w.failedPuts := h₂.2.2.1.trans hputs₁
      refine (commitEdit_alone (w := w₂) (fun w' hputs' hrec hsteps' => ?_) h hfits hstored).weaken
        fun result w' h' => ?_
      · refine hmid w' _ (.inr rfl) (hputs'.trans hputs₂ ▸ List.Subset.refl _) ?_
          (hsteps.trans hsteps')
        exact hrec.mono (h.fileNumber_append id edit).le
      · exact ⟨h'.2.2.trans hputs₂ ▸ List.Subset.refl _, .inl ⟨h'.1, h'.2.1⟩⟩
    · have hputs₂ : w₂.failedPuts = w.failedPuts := h₂.2.2.1.trans hputs₁
      have hsub₂ : w.failedPuts ⊆ w₂.failedPuts := hputs₂ ▸ List.Subset.refl _
      refine Alone.pure (hkept w₂ (hw₂.trans hw₁) hsub₂) (hfailed w₂ _ (hw₂.trans hw₁) hsub₂ ?_)
      rw [← h.entry]
      exact failedApply_fenced
    · have hputs₂ : w₂.failedPuts = id :: w.failedPuts := by
        rw [h₂.2.2.1, hputs₁]
        rfl
      have hsubset : w.failedPuts ⊆ w₂.failedPuts := hputs₂ ▸ subset_cons_self _ _
      rcases hw₂ with hw₂ | ⟨hfree, hw₂⟩
      · exact Alone.pure (hkept w₂ (hw₂.trans hw₁) hsubset)
          (hfailed w₂ _ (hw₂.trans hw₁) hsubset ⟨by simp, .inl rfl⟩)
      · obtain ⟨rfl, hstored, hsteps⟩ := hput hfree hw₂
        have hpending : Consistent config vs w₂.catalog l (some (vs.recordOf id edit)) :=
          { h with
            stored := hstored
            pending := by
              rintro r ⟨⟩
              exact ⟨hfits.fits.representable.normalized, hfits.fits.files⟩ }
        refine Alone.pure (hmid w₂ _ (.inr rfl) hsubset hpending.resumes hsteps) ⟨hsubset, .inr
          ⟨⟨by simp, .inl rfl⟩, _, hpending, .inr ⟨rfl, ?_⟩⟩⟩
        rw [hputs₂]
        exact mem_cons_self ..

/-- Whether `roll_generation_now` has anything to write. -/
def Rolls (vs : VersionSet ι) : Prop :=
  ¬ (vs.nextSeq = 1 ∧ vs.manifestPayloadsPendingReencryption = 0)

instance (vs : VersionSet ι) : Decidable vs.Rolls := inferInstanceAs (Decidable (¬ _))

/-- No change if nothing is to be written or it is fenced, else what a roll leaves. -/
def RollNowLeaves (config : ManifestConfig) (vs : VersionSet ι) (w : ShakyCatalog ι) (l : Ledger ι)
    (pending : Option (Record ι)) (result : Status × VersionSet ι) (w' : ShakyCatalog ι) : Prop :=
  result = (.ok, vs) ∧ w' = w ∧ ¬ vs.Rolls ∨
    vs.Rolls ∧ RollLeaves config vs w l pending result w' ∨ FailedRoll vs result ∧ w' = w

theorem rollGenerationNow_alone (h : Consistent config vs w.catalog l pending)
    (hroom : vs.Rolls → SnapshotRoom config (vs.snapshotOf vs.current))
    (hmid : ∀ w' p, (p = pending ∨ p = none) → w'.failedPuts = w.failedPuts →
      Resumes config w'.catalog (withPending vs.current p) (vs.history ++ p.toList)
        (l.recorded config p) →
      WriterSteps config w.catalog w'.catalog → mid w') :
    (rollGenerationNow config vs).Alone (ShakyCatalog.Reply true) mid
      (RollNowLeaves config vs w l pending) w := by
  have hsame : mid w := hmid w pending (.inl rfl) rfl h.resumes .refl
  unfold rollGenerationNow
  by_cases hfenced : vs.fenced = true
  · rw [if_pos hfenced]
    exact Alone.pure hsame (.inr (.inr ⟨.unchanged nofun, rfl⟩))
  rw [if_neg hfenced, h.entry]
  by_cases hrolls : vs.Rolls
  · show Alone _ _ (if _ then _ else _) _ _
    rw [if_neg hrolls]
    exact (roll_alone h (hroom hrolls) hmid).weaken fun result w' h' => .inr (.inl ⟨hrolls, h'⟩)
  · show Alone _ _ (if _ then _ else _) _ _
    rw [if_pos (not_not.1 hrolls)]
    exact Alone.pure hsame (.inl ⟨rfl, rfl, hrolls⟩)

/-- No pointer, and no edit anywhere. -/
structure Blank (w : Catalog ι) : Prop where
  pointer : w.pointer = none
  clear : ∀ g, (w.generation g).edits = ∅

theorem blank_empty : Blank ({} : Catalog ι) := ⟨rfl, fun _ => rfl⟩

/-- The ledger of a new manifest. -/
def Ledger.created (entry : CatalogEntry) : Ledger ι :=
  ⟨entry, [], ({} : VersionSet ι).snapshotOf {}, []⟩

theorem RolledTo.created {w w' : ShakyCatalog ι} {entry : CatalogEntry}
    (h : RolledTo config ({} : VersionSet ι) (({} : VersionSet ι).snapshotOf {}) 0 w entry w')
    (hblank : Blank w.catalog) {vs : VersionSet ι}
    (hvs : Agrees (({} : VersionSet ι).rolled entry) vs) :
    Consistent config vs w'.catalog (.created entry) none := by
  have hone : 1 < 2 ^ 64 := by decide
  have hempty : Consistent config (({} : VersionSet ι).rolled entry) w'.catalog (.created entry)
      none := by
    refine ⟨?_, rfl, rfl, rfl, ?_, le_rfl, hone, restorable_empty config, nofun⟩
    · rw [toList_none, Ledger.append_nil]
      exact h.stored fun g _ => hblank.clear g
    · exact (ofSnapshot_same _ Version.ordered_empty).symm
  exact hempty.agrees hvs

/-- The new object stands for what it wrote; before, there is no manifest, or that one. -/
theorem create_alone {w : ShakyCatalog ι} (hblank : Blank w.catalog)
    (hroom : SnapshotRoom config (({} : VersionSet ι).snapshotOf {}))
    (hmid : ∀ w', Blank w'.catalog ∨ Resumes config w'.catalog {} [] 1 → mid w') :
    (create config ({} : VersionSet ι)).Alone (ShakyCatalog.Reply true) mid
      (fun result w' => result.1 = .ok → result.2.nextFileNumber = 1 ∧ result.2.history = [] ∧
        result.2.current = {} ∧ ∃ l, Consistent config result.2 w'.catalog l none) w := by
  have hone : 1 < 2 ^ 64 := by decide
  have hreopens : Reopens config (({} : VersionSet ι).snapshotOf {}) := fun _ _ _ hseal =>
    readSnapshot_sealed hroom (snapshotOf_representable Version.representable_empty hone)
      (restorable_empty config).files hseal
  have hbeyond : ∀ w', Beyond 0 w w' → mid w' := fun w' hw' => hmid w' (.inl
    ⟨hw'.pointer.trans hblank.pointer, fun g => (hw'.edits g).trans (hblank.clear g)⟩)
  have hrolled : ∀ w' entry, RolledTo config ({} : VersionSet ι)
      (({} : VersionSet ι).snapshotOf {}) 0 w entry w' → mid w' := fun w' entry hw' =>
    hmid w' (.inr (hw'.created hblank (.refl _)).resumes)
  unfold create
  refine Alone.bind ((writeSnapshotAndInstall_alone 0 hreopens hblank.pointer nofun hbeyond
    hrolled).weaken fun result w' h' => ?_)
  rcases h' with ⟨entry, hto, rfl⟩ | ⟨hfailed, hw'⟩
  · refine Alone.pure (hrolled w' entry hto) fun _ => ⟨rfl, rfl, rfl, .created entry, ?_⟩
    exact hto.created hblank ⟨rfl, rfl, rfl, rfl, rfl, rfl⟩
  · obtain ⟨status, after⟩ := result
    show Alone _ _ (if _ then _ else _) _ _
    rw [if_pos hfailed.1]
    exact Alone.pure (hbeyond w' hw') fun hok => absurd hok hfailed.1

end Methods

end VersionSet

end ElysiumKV
