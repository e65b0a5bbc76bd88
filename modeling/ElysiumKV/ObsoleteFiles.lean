import ElysiumKV.VersionSet
import Mathlib.Data.List.Perm.Subperm

/-!
# Obsolete files

A removed file is queued, and a pass of `collect_obsolete` hands out those no version in use
references that are out of the retention window, while readers move. `apply` publishes its version
in the middle: it is `prepareEdit`, the publication and `finishEdit` (`apply_eq`).
-/

namespace ElysiumKV

open Program Program.Prog ManifestPayload List

/-- The numbers of its files. -/
def Version.fileNumbers (v : Version) : List ℕ := v.allFiles.map FileMetadata.fileNumber

/-- A number is on one level. -/
def Version.OneLevel (v : Version) : Prop :=
  ∀ level level' f f', f ∈ v.filesAt level → f' ∈ v.filesAt level' →
    f.fileNumber = f'.fileNumber → level = level'

namespace Version

theorem mem_fileNumbers {v : Version} {n : ℕ} :
    n ∈ v.fileNumbers ↔ ∃ level, ∃ f ∈ v.filesAt level, f.fileNumber = n := by
  simp only [fileNumbers, mem_map, mem_allFiles]
  constructor
  · rintro ⟨f, ⟨level, hf⟩, hn⟩
    exact ⟨level, f, hf, hn⟩
  · rintro ⟨level, f, hf, hn⟩
    exact ⟨f, ⟨level, hf⟩, hn⟩

theorem mem_fileNumbers_of_mem {v : Version} {level : ℕ} {f : FileMetadata}
    (h : f ∈ v.filesAt level) : f.fileNumber ∈ v.fileNumbers :=
  mem_fileNumbers.2 ⟨level, f, h, rfl⟩

theorem mem_fileNumbers_apply {v : Version} {edit : VersionEdit} {n : ℕ} :
    n ∈ (v.apply edit).fileNumbers ↔
      (∃ level, ∃ f ∈ v.filesAt level, f.fileNumber = n ∧ (⟨level, n⟩ : FileRef) ∉ edit.deleted) ∨
        ∃ f ∈ edit.added, f.fileNumber = n := by
  rw [mem_fileNumbers]
  constructor
  · rintro ⟨level, f, hf, rfl⟩
    rcases mem_filesAt_apply.1 hf with ⟨hf, hkept⟩ | ⟨hf, -⟩
    · exact .inl ⟨level, f, hf, rfl, hkept⟩
    · exact .inr ⟨f, hf, rfl⟩
  · rintro (⟨level, f, hf, rfl, hkept⟩ | ⟨f, hf, rfl⟩)
    · exact ⟨level, f, mem_filesAt_apply.2 (.inl ⟨hf, hkept⟩), rfl⟩
    · exact ⟨f.level, f, mem_filesAt_apply.2 (.inr ⟨hf, rfl⟩), rfl⟩

end Version

/-! ### The edits of a run -/

/-- It deletes files of the base version, each once, and adds numbers never used, or ones it
deletes. -/
structure ValidEdit (used : List ℕ) (base : Version) (edit : VersionEdit) : Prop where
  deletedDistinct : (edit.deleted.map FileRef.fileNumber).Nodup
  deletedLive : ∀ ref ∈ edit.deleted, ∃ f ∈ base.filesAt ref.level, f.fileNumber = ref.fileNumber
  addedDistinct : (edit.added.map FileMetadata.fileNumber).Nodup
  addedFresh : ∀ f ∈ edit.added, f.fileNumber ∉ used ∨
    ∃ ref ∈ edit.deleted, ref.fileNumber = f.fileNumber

namespace ValidEdit

variable {used : List ℕ} {base : Version} {edit : VersionEdit}

theorem mem_of_deleted (h : ValidEdit used base edit) {ref : FileRef} (href : ref ∈ edit.deleted) :
    ref.fileNumber ∈ base.fileNumbers := by
  obtain ⟨f, hf, hn⟩ := h.deletedLive ref href
  exact hn ▸ Version.mem_fileNumbers_of_mem hf

theorem not_mem_apply (h : ValidEdit used base edit) {n : ℕ} (hused : n ∈ used)
    (hgone : n ∉ base.fileNumbers) : n ∉ (base.apply edit).fileNumbers := by
  rw [Version.mem_fileNumbers_apply]
  rintro (⟨level, f, hf, rfl, -⟩ | ⟨f, hf, rfl⟩)
  · exact hgone (Version.mem_fileNumbers_of_mem hf)
  · rcases h.addedFresh f hf with hfresh | ⟨ref, href, hn⟩
    · exact hfresh hused
    · exact hgone (hn ▸ h.mem_of_deleted href)

theorem not_mem_apply_of_deleted (h : ValidEdit used base edit) (hone : base.OneLevel)
    {ref : FileRef} (href : ref ∈ edit.deleted)
    (hadded : ref.fileNumber ∉ edit.added.map FileMetadata.fileNumber) :
    ref.fileNumber ∉ (base.apply edit).fileNumbers := by
  rw [Version.mem_fileNumbers_apply]
  rintro (⟨level, f, hf, hn, hkept⟩ | ⟨f, hf, hn⟩)
  · obtain ⟨f', hf', hn'⟩ := h.deletedLive ref href
    have hlevel := hone _ _ f f' hf hf' (hn.trans hn'.symm)
    subst hlevel
    exact hkept href
  · exact hadded (mem_map.2 ⟨f, hf, hn⟩)

theorem oneLevel_apply (h : ValidEdit used base edit) (hknown : ∀ n ∈ base.fileNumbers, n ∈ used)
    (hone : base.OneLevel) : (base.apply edit).OneLevel := by
  -- a file that stays and one that is added differ in their numbers
  have hapart : ∀ {level : ℕ} {f f' : FileMetadata}, f ∈ base.filesAt level →
      (⟨level, f.fileNumber⟩ : FileRef) ∉ edit.deleted → f' ∈ edit.added →
      f.fileNumber ≠ f'.fileNumber := by
    intro level f f' hf hkept hf' hn
    rcases h.addedFresh f' hf' with hfresh | ⟨ref, href, hre⟩
    · exact hfresh (hn ▸ hknown _ (Version.mem_fileNumbers_of_mem hf))
    · obtain ⟨f₀, hf₀, hn₀⟩ := h.deletedLive ref href
      have hnumber : ref.fileNumber = f.fileNumber := hre.trans hn.symm
      have hlevel := hone _ _ f f₀ hf hf₀ (hnumber.symm.trans hn₀.symm)
      subst hlevel
      exact hkept (hnumber ▸ href)
  intro level level' f f' hf hf' hn
  rcases Version.mem_filesAt_apply.1 hf with ⟨hbase, hkept⟩ | ⟨hadded, rfl⟩ <;>
    rcases Version.mem_filesAt_apply.1 hf' with ⟨hbase', hkept'⟩ | ⟨hadded', rfl⟩
  · exact hone _ _ f f' hbase hbase' hn
  · exact absurd hn (hapart hbase hkept hadded')
  · exact absurd hn.symm (hapart hbase' hkept' hadded)
  · rw [inj_on_of_nodup_map h.addedDistinct hadded hadded' hn]

end ValidEdit

/-! ### What an edit queues -/

/-- A deleted file, unless its number is added again. -/
def queuedFile (base : Version) (reAdded : List ℕ) (ref : FileRef) : Option FileMetadata :=
  if ref.fileNumber ∈ reAdded then none
  else (base.filesAt ref.level).find? fun f => f.fileNumber = ref.fileNumber

/-- The files `apply` queues for deletion. -/
def queuedFiles (base : Version) (reAdded : List ℕ) (refs : List FileRef) : List FileMetadata :=
  refs.filterMap (queuedFile base reAdded)

section Queued

variable {base : Version} {reAdded : List ℕ} {refs : List FileRef} {ref : FileRef}
  {f : FileMetadata}

theorem fileNumber_of_queuedFile (h : queuedFile base reAdded ref = some f) :
    f.fileNumber = ref.fileNumber ∧ ref.fileNumber ∉ reAdded := by
  unfold queuedFile at h
  split_ifs at h with hadded
  exact ⟨by simpa using List.find?_some h, hadded⟩

theorem mem_queuedFiles (h : f ∈ queuedFiles base reAdded refs) :
    f.fileNumber ∉ reAdded ∧ ∃ ref ∈ refs, ref.fileNumber = f.fileNumber := by
  obtain ⟨ref, href, hf⟩ := mem_filterMap.1 h
  obtain ⟨hn, hadded⟩ := fileNumber_of_queuedFile hf
  exact ⟨hn ▸ hadded, ref, href, hn.symm⟩

theorem exists_mem_queuedFiles (href : ref ∈ refs) (hadded : ref.fileNumber ∉ reAdded)
    (hlive : ∃ f ∈ base.filesAt ref.level, f.fileNumber = ref.fileNumber) :
    ∃ f ∈ queuedFiles base reAdded refs, f.fileNumber = ref.fileNumber := by
  obtain ⟨f₀, hf₀, hn₀⟩ := hlive
  cases hfind : (base.filesAt ref.level).find? fun f => f.fileNumber = ref.fileNumber with
  | none =>
    have hnone := List.find?_eq_none.1 hfind f₀ hf₀
    simp [hn₀] at hnone
  | some f =>
    have hqueued : queuedFile base reAdded ref = some f := (if_neg hadded).trans hfind
    exact ⟨f, mem_filterMap.2 ⟨ref, href, hqueued⟩, (fileNumber_of_queuedFile hqueued).1⟩

theorem queuedFiles_sublist (base : Version) (reAdded : List ℕ) (refs : List FileRef) :
    ((queuedFiles base reAdded refs).map FileMetadata.fileNumber).Sublist
      (refs.map FileRef.fileNumber) := by
  induction refs with
  | nil => exact .slnil
  | cons ref refs ih =>
    cases hstep : queuedFile base reAdded ref with
    | none =>
      rw [queuedFiles, filterMap_cons_none hstep]
      exact ih.cons _
    | some f =>
      rw [queuedFiles, filterMap_cons_some hstep, map_cons, map_cons,
        (fileNumber_of_queuedFile hstep).1]
      exact ih.cons_cons _

end Queued

namespace VersionSet

variable {ι : Type}

theorem queueDeletions_only (base : Version) (reAdded : List ℕ) (refs : List FileRef) :
    (queueDeletions base reAdded refs : Manifest ι _).Only (· = .clock)
      fun queued => queued.map PendingDeletion.file = queuedFiles base reAdded refs := by
  induction refs with
  | nil => exact rfl
  | cons ref refs ih =>
    unfold queueDeletions
    by_cases hadded : ref.fileNumber ∈ reAdded
    · have hskip : queuedFile base reAdded ref = none := if_pos hadded
      rw [if_pos hadded, queuedFiles, filterMap_cons_none hskip]
      exact ih
    · rw [if_neg hadded]
      cases hfind : (base.filesAt ref.level).find? fun f => f.fileNumber = ref.fileNumber with
      | none =>
        have hskip : queuedFile base reAdded ref = none := (if_neg hadded).trans hfind
        rw [queuedFiles, filterMap_cons_none hskip]
        exact ih
      | some file =>
        have hqueue : queuedFile base reAdded ref = some file := (if_neg hadded).trans hfind
        rw [queuedFiles, filterMap_cons_some hqueue]
        refine ⟨rfl, fun now => ih.bind fun queued hqueued => ?_⟩
        exact congrArg (file :: ·) hqueued

/-! ### An apply taken apart -/

variable (config : ManifestConfig) (vs : VersionSet ι)

/-- `apply` up to the publication: what it returns, or entry, edit and queued files. -/
def prepareEdit (id : ι) (edit : VersionEdit) :
    Manifest ι (Except (Status × VersionSet ι)
      (CatalogEntry × VersionEdit × List PendingDeletion)) :=
  if vs.fenced then pure (.error (.fenced, vs))
  else match vs.entry with
    | none => pure (.error (.unusable, vs))
    | some entry => do
      let edit := { edit with nextFileNumber := vs.nextFileNumber }
      let draw ← Manifest.draw
      match sealPayload config.registry config.codecs entry.generation draw
          (editAddress entry.generation vs.nextSeq) (encodeVersionEdit config.codecs edit) with
      | .error status => pure (.error (status, vs))
      | .ok framed =>
        let status ← Manifest.putEdit entry.generation vs.nextSeq framed id
        match status with
        | .ok =>
          let queued ← queueDeletions vs.current (edit.added.map FileMetadata.fileNumber)
            edit.deleted
          pure (.ok (entry, edit, queued))
        | .config => pure (.error (.fenced, { vs with fenced := true }))
        | status => pure (.error (status, vs))

/-- A failed roll is noted in `last_error`. -/
def noteRoll (rolled : Status × VersionSet ι) : VersionSet ι :=
  if rolled.1 ≠ .ok then
    { rolled.2 with lastError := "manifest edit committed, but generation roll failed (" ++
        rolled.1.name ++ ")" }
  else rolled.2

/-- `apply` after the publication of its version. -/
def finishEdit (entry : CatalogEntry) (version : Version) : Manifest ι (Status × VersionSet ι) := do
  let rolled ← maybeRollGeneration config vs entry version
  let collected ← collectObsoleteLocked config (noteRoll rolled)
  pure (.ok, collected)

/-- What `apply` makes of that. -/
def publishEdit (id : ι) :
    Except (Status × VersionSet ι) (CatalogEntry × VersionEdit × List PendingDeletion) →
      Manifest ι (Status × VersionSet ι)
  | .error result => pure result
  | .ok (entry, edit, queued) =>
    finishEdit config (vs.committed id edit queued) entry (vs.current.apply edit)

theorem commitEdit_eq (entry : CatalogEntry) (id : ι)
    (edit : VersionEdit) : commitEdit config vs entry id edit =
      (queueDeletions vs.current (edit.added.map FileMetadata.fileNumber) edit.deleted >>=
        fun queued => pure (.ok (entry, edit, queued))) >>= vs.publishEdit config id := by
  rw [bind_assoc, commitEdit]
  rfl

theorem apply_eq (id : ι) (edit : VersionEdit) :
    vs.apply config id edit = vs.prepareEdit config id edit >>= vs.publishEdit config id := by
  unfold apply prepareEdit
  by_cases hfenced : vs.fenced
  · rw [if_pos hfenced, if_pos hfenced]
    rfl
  · rw [if_neg hfenced, if_neg hfenced]
    cases hentry : vs.entry with
    | none => rfl
    | some entry =>
      refine congrArg (Prog.call Call.draw) (funext fun draw => ?_)
      simp only [Prog.bind]
      cases sealPayload config.registry config.codecs entry.generation draw
          (editAddress entry.generation vs.nextSeq)
          (encodeVersionEdit config.codecs { edit with nextFileNumber := vs.nextFileNumber }) with
      | error status => rfl
      | ok framed =>
        refine congrArg (Prog.call (Call.putEdit _ _ _ _)) (funext fun status => ?_)
        cases status
        case ok => exact commitEdit_eq config vs entry id _
        all_goals rfl

end VersionSet

/-! ### What the rest of an apply leaves alone -/

/-- Calls to the catalog, for randomness and the time. -/
def Call.IsPlain {ι : Type} : Call ι → Prop
  | .lock _ | .deleteObjects _ => False
  | _ => True

namespace VersionSet

variable {ι : Type}

/-- The same versions and queue. -/
structure SameVersions (vs vs' : VersionSet ι) : Prop where
  current : vs'.current = vs.current
  liveVersions : vs'.liveVersions = vs.liveVersions
  pendingDeletions : vs'.pendingDeletions = vs.pendingDeletions

theorem SameVersions.rfl {vs : VersionSet ι} : SameVersions vs vs := ⟨Eq.refl _, Eq.refl _, Eq.refl _⟩

theorem adoptEntry_only (vs : VersionSet ι) (entry : CatalogEntry) :
    (adoptEntry vs entry).Only Call.IsPlain fun r => SameVersions vs r.2 := by
  unfold adoptEntry
  cases vs.entry with
  | none => exact ⟨rfl, rfl, rfl⟩
  | some previous => exact ⟨trivial, fun _ => ⟨rfl, rfl, rfl⟩⟩

theorem installGeneration_only (vs : VersionSet ι) (generation : ℕ) :
    (installGeneration vs generation).Only Call.IsPlain fun r => SameVersions vs r.2 := by
  refine ⟨trivial, fun installed => ?_⟩
  match installed with
  | .ok (some entry) => exact adoptEntry_only vs entry
  | .ok none => exact ⟨rfl, rfl, rfl⟩
  | .error status =>
    cases status
    case io =>
      refine ⟨trivial, fun observed => ?_⟩
      match observed with
      | .error status => exact .rfl
      | .ok (some entry) =>
        simp only [Prog.bind]
        split_ifs
        · exact adoptEntry_only vs entry
        · exact .rfl
        · exact ⟨rfl, rfl, rfl⟩
      | .ok none =>
        simp only [Prog.bind]
        split_ifs
        · exact .rfl
        · exact ⟨rfl, rfl, rfl⟩
    all_goals exact .rfl

theorem putSnapshotLoop_only (config : ManifestConfig) (vs : VersionSet ι) (bytes : Bytes)
    (attempts generation : ℕ) :
    (putSnapshotLoop config vs bytes attempts generation).Only Call.IsPlain
      fun r => ∀ result, r = .error result → SameVersions vs result.2 := by
  have hstop : ∀ (status : Status) (result : Status × VersionSet ι),
      (Except.error (status, vs) : Except _ ℕ) = .error result → SameVersions vs result.2 := by
    rintro status _ ⟨⟩
    exact .rfl
  induction attempts generalizing generation with
  | zero => nofun
  | succ attempts ih =>
    refine ⟨trivial, fun draw => ?_⟩
    simp only [Prog.bind]
    cases sealPayload config.registry config.codecs generation draw (snapshotAddress generation)
        bytes with
    | error status => exact hstop status
    | ok framed =>
      refine ⟨trivial, fun status => ?_⟩
      cases status
      case ok => nofun
      case config =>
        refine ⟨trivial, fun pointer => ?_⟩
        match pointer with
        | .error status => exact hstop status
        | .ok pointer =>
          simp only [Prog.bind]
          by_cases hmoved : pointer ≠ vs.entry
          · rw [if_pos hmoved]
            rintro _ ⟨⟩
            exact ⟨rfl, rfl, rfl⟩
          · rw [if_neg hmoved]
            refine ⟨trivial, fun generations => ?_⟩
            match generations with
            | .error status =>
              simp only [Prog.bind]
              split_ifs
              · exact hstop _
              · exact hstop _
              · exact hstop _
              · exact ih _
            | .ok generations =>
              simp only [Prog.bind]
              split_ifs
              · exact hstop _
              · exact hstop _
              · exact ih _
      all_goals exact hstop _

theorem maybeRollGeneration_only (config : ManifestConfig) (vs : VersionSet ι)
    (entry : CatalogEntry) (version : Version) :
    (maybeRollGeneration config vs entry version).Only Call.IsPlain fun r => SameVersions vs r.2 := by
  unfold maybeRollGeneration
  split_ifs
  · exact .rfl
  · have hwritten : (writeSnapshotAndInstall config vs (entry.generation + 1) version).Only
        Call.IsPlain fun r => SameVersions vs r.2 := by
      refine (putSnapshotLoop_only config vs _ _ _).bind fun written hwritten => ?_
      match written with
      | .error result => exact hwritten result rfl
      | .ok generation => exact installGeneration_only vs generation
    refine hwritten.bind fun ⟨status, vs'⟩ hagrees => ?_
    simp only
    split_ifs
    · exact hagrees
    · exact ⟨hagrees.1, hagrees.2, hagrees.3⟩

theorem noteRoll_sameVersions {vs : VersionSet ι} {rolled : Status × VersionSet ι}
    (h : SameVersions vs rolled.2) : SameVersions vs (noteRoll rolled) := by
  unfold noteRoll
  split_ifs
  · exact ⟨h.1, h.2, h.3⟩
  · exact h

/-- The same versions and queue, or the edit and what it queues. -/
def Prepared (vs : VersionSet ι) (edit : VersionEdit) :
    Except (Status × VersionSet ι) (CatalogEntry × VersionEdit × List PendingDeletion) → Prop
  | .error (_, vs') => SameVersions vs vs'
  | .ok (_, written, queued) =>
    written = { edit with nextFileNumber := vs.nextFileNumber } ∧
      queued.map PendingDeletion.file =
        queuedFiles vs.current (edit.added.map FileMetadata.fileNumber) edit.deleted

theorem prepareEdit_only (config : ManifestConfig) (vs : VersionSet ι) (id : ι)
    (edit : VersionEdit) :
    (vs.prepareEdit config id edit).Only Call.IsPlain (Prepared vs edit) := by
  unfold prepareEdit
  split_ifs
  · exact SameVersions.rfl
  · cases vs.entry with
    | none => exact SameVersions.rfl
    | some entry =>
      refine ⟨trivial, fun draw => ?_⟩
      simp only [Prog.bind]
      cases sealPayload config.registry config.codecs entry.generation draw
          (editAddress entry.generation vs.nextSeq)
          (encodeVersionEdit config.codecs { edit with nextFileNumber := vs.nextFileNumber }) with
      | error status => exact SameVersions.rfl
      | ok framed =>
        refine ⟨trivial, fun status => ?_⟩
        cases status
        case ok =>
          have hplain : ∀ c : Call ι, c = .clock → c.IsPlain := by
            rintro _ rfl
            trivial
          exact ((queueDeletions_only _ _ _).mono hplain).bind fun queued hqueued => ⟨rfl, hqueued⟩
        case config => exact ⟨rfl, rfl, rfl⟩
        all_goals exact SameVersions.rfl

end VersionSet

/-! ### The surroundings -/

/-- A read-only instance: its version, and the clock at its refresh. -/
structure Replica where
  version : Version
  refreshedAt : ℕ

/-- A call of the deleter: files given and kept, the pass's clock reading, the versions in use here
and elsewhere. -/
structure Handed where
  files : List FileMetadata
  failed : List FileMetadata
  now : ℕ
  inUse : List Version
  replicas : List Replica

/-- The version handed out, those not released, the clock's last reading, the deleter's calls. -/
structure Surroundings where
  published : Version := {}
  held : List Version := []
  replicas : List Replica := []
  clock : ℕ := 0
  handed : List Handed := []

namespace Surroundings

/-- The versions in use. -/
def inUse (w : Surroundings) : List Version := w.published :: w.held

/-- A version is published. -/
def publish (w : Surroundings) (v : Version) : Surroundings := { w with published := v }

/-- The deleter's next call. -/
def handing (w : Surroundings) (files failed : List FileMetadata) : Handed :=
  ⟨files, failed, w.clock, w.inUse, w.replicas⟩

end Surroundings

/-- Readers take, copy and release versions, and instances elsewhere refresh. -/
structure ReadersMove (w w' : Surroundings) : Prop where
  published : w'.published = w.published
  clock : w'.clock = w.clock
  handed : w'.handed = w.handed
  inUse : w'.inUse ⊆ w.inUse
  replicas : ∀ r ∈ w'.replicas, r ∈ w.replicas ∨ r.version = w.published

/-- What readers may change in a pass. -/
structure Drift (w w' : Surroundings) : Prop where
  published : w'.published = w.published
  handed : w'.handed = w.handed
  inUse : w'.inUse ⊆ w.inUse
  replicas : ∀ r ∈ w'.replicas, r ∈ w.replicas ∨ r.version = w.published

theorem ReadersMove.refl (w : Surroundings) : ReadersMove w w :=
  ⟨rfl, rfl, rfl, List.Subset.refl _, fun _ => .inl⟩

theorem ReadersMove.drift {w w' : Surroundings} (h : ReadersMove w w') : Drift w w' :=
  ⟨h.published, h.handed, h.inUse, h.replicas⟩

theorem Drift.refl (w : Surroundings) : Drift w w := (ReadersMove.refl w).drift

theorem Drift.trans {w₁ w₂ w₃ : Surroundings} (h : Drift w₁ w₂) (h' : Drift w₂ w₃) : Drift w₁ w₃ where
  published := h'.published.trans h.published
  handed := h'.handed.trans h.handed
  inUse := List.Subset.trans h'.inUse h.inUse
  replicas r hr := by
    rcases h'.replicas r hr with hr | hr
    · exact h.replicas r hr
    · exact .inr (hr.trans h.published)

/-- On what the clock reads and the deleter fails on. -/
structure Limits where
  reads : Surroundings → ℕ → Prop := fun _ _ => True
  fails : List FileMetadata → Prop := fun _ => True

/-- Clock and catalog answer anything; a version in use is alive; the deleter gives back some files.
-/
def Limits.Reply {ι : Type} (l : Limits) :
    (c : Call ι) → Surroundings → c.Result → Surroundings → Prop
  | .clock, w, r, w' => l.reads w r ∧ w' = { w with clock := r }
  | .lock tracked, w, r, w' => w' = w ∧ r.Sublist tracked ∧ ∀ v ∈ tracked, v ∈ r ↔ v ∈ w.inUse
  | .deleteObjects files, w, r, w' =>
    l.fails r ∧ r.Subperm files ∧ w' = { w with handed := w.handed ++ [w.handing files r] }
  | _, w, _, w' => w' = w

section Among

variable {ι α : Type} {l : Limits} {Q : α → Prop} {p : Manifest ι α} {w w' : Surroundings} {a : α}
  {seen : List Surroundings}

theorem drift_of_isPlain {c : Call ι} {r : c.Result} (hplain : c.IsPlain) (h : l.Reply c w r w') :
    Drift w w' := by
  cases c with
  | clock =>
    obtain ⟨-, rfl⟩ := h
    exact ⟨rfl, rfl, List.Subset.refl _, fun _ => .inl⟩
  | lock tracked => exact hplain.elim
  | deleteObjects files => exact hplain.elim
  | _ =>
    obtain rfl : w' = w := h
    exact .refl w'

theorem drift_of_among (honly : p.Only Call.IsPlain Q)
    (h : p.Among l.Reply ReadersMove w a seen w') : Drift w w' :=
  h.moved honly (fun _ _ _ => .trans) (fun _ _ => ReadersMove.drift) fun _ _ _ _ => drift_of_isPlain

end Among

/-! ### A pass -/

/-- The numbers in use when the pass read the clock. -/
structure View (l : Limits) (w : Surroundings) (referenced : List ℕ) (now : ℕ)
    (w₁ : Surroundings) : Prop where
  reads : l.reads w₁ now
  inUse : ∀ v ∈ w₁.inUse, ∀ n ∈ v.fileNumbers, n ∈ referenced
  referenced : ∀ n ∈ referenced, ∃ v ∈ w.inUse, n ∈ v.fileNumbers

/-- The queue and the calls a pass leaves. -/
inductive PassEnd (config : ManifestConfig) (l : Limits) (pending : List PendingDeletion)
    (w : Surroundings) : List PendingDeletion → List Handed → Prop
  | idle (h : config.deletes = false ∨ pending = []) : PassEnd config l pending w pending w.handed
  | kept {referenced now w₁} (hview : View l w referenced now w₁)
      (hkept : ∀ p ∈ pending, VersionSet.keeps config referenced now p = true) :
      PassEnd config l pending w pending w.handed
  | handed {referenced w₁} {e : Handed} (hview : View l w referenced e.now w₁)
      (hinUse : e.inUse ⊆ w₁.inUse)
      (hreplicas : ∀ r ∈ e.replicas, r ∈ w.replicas ∨ r.version = w.published)
      (hfiles : e.files = (pending.filter fun p =>
        !VersionSet.keeps config referenced e.now p).map PendingDeletion.file)
      (hfailed : e.failed.Subperm e.files) (hfails : l.fails e.failed) :
      PassEnd config l pending w
        (pending.filter (VersionSet.keeps config referenced e.now) ++
          e.failed.map fun file => ⟨file, 0⟩) (w.handed ++ [e])

/-- What a pass does. -/
structure Pass {ι : Type} (config : ManifestConfig) (l : Limits) (vs vs' : VersionSet ι)
    (w w' : Surroundings) : Prop where
  current : vs'.current = vs.current
  published : w'.published = w.published
  inUse : w'.inUse ⊆ w.inUse
  replicas : ∀ r ∈ w'.replicas, r ∈ w.replicas ∨ r.version = w.published
  tracked : ∀ v ∈ w'.inUse, v ∈ vs'.liveVersions
  ends : PassEnd config l vs.pendingDeletions w vs'.pendingDeletions w'.handed

namespace VersionSet

variable {ι : Type} {config : ManifestConfig} {l : Limits}

theorem collectObsoleteLocked_pass {vs vs' : VersionSet ι} {w w' : Surroundings}
    {seen : List Surroundings} (htracked : ∀ v ∈ w.inUse, v ∈ vs.liveVersions)
    (h : (vs.collectObsoleteLocked config).Among l.Reply ReadersMove w vs' seen w') :
    Pass config l vs vs' w w' := by
  obtain ⟨w₁, live, w₁', _, h₁, ⟨hw₁, -, hlive⟩, -, h⟩ := h
  subst hw₁
  have hlive₁ : ∀ v ∈ w₁'.inUse, v ∈ live :=
    fun v hv => (hlive v (htracked v (h₁.inUse hv))).2 hv
  simp only [Prog.bind] at h
  split_ifs at h with hidle
  · obtain ⟨rfl, -, h₂⟩ := h
    have hdrift := h₁.drift.trans h₂.drift
    refine ⟨rfl, hdrift.published, hdrift.inUse, hdrift.replicas,
      fun v hv => hlive₁ v (h₂.inUse hv), ?_⟩
    rw [hdrift.handed]
    exact .idle hidle
  · obtain ⟨w₂, alive, w₂', _, h₂, ⟨hw₂, hsub, halive⟩, -, h⟩ := h
    subst hw₂
    have halive₂ : ∀ v ∈ w₂'.inUse, v ∈ alive :=
      fun v hv => (halive v (hlive₁ v (h₂.inUse hv))).2 hv
    obtain ⟨w₃, now, w₃', _, h₃, ⟨hreads, hw₃⟩, -, h⟩ := h
    subst hw₃
    have hdrift₂ := h₁.drift.trans h₂.drift
    have hdrift₃ := hdrift₂.trans h₃.drift
    have hview : View l w (alive.flatMap fun v => v.allFiles.map FileMetadata.fileNumber) now w₃ :=
      ⟨hreads, fun v hv n hn => mem_flatMap.2 ⟨v, halive₂ v (h₃.inUse hv), hn⟩, fun n hn => by
        obtain ⟨v, hv, hn⟩ := mem_flatMap.1 hn
        exact ⟨v, hdrift₂.inUse ((halive v (hsub.subset hv)).1 hv), hn⟩⟩
    simp only [Prog.bind] at h
    generalize (alive.flatMap fun v => v.allFiles.map FileMetadata.fileNumber) = referenced at h hview
    have hread : Drift w { w₃ with clock := now } :=
      ⟨hdrift₃.published, hdrift₃.handed, hdrift₃.inUse, hdrift₃.replicas⟩
    split_ifs at h with hnone
    · obtain ⟨rfl, -, h₄⟩ := h
      have hkept : ∀ p ∈ vs.pendingDeletions, keeps config referenced now p = true := by
        intro p hp
        simpa using filter_eq_nil_iff.1 (map_eq_nil_iff.1 hnone) p hp
      have hdrift₄ := hread.trans h₄.drift
      refine ⟨rfl, hdrift₄.published, hdrift₄.inUse, hdrift₄.replicas,
        fun v hv => halive₂ v (h₃.inUse (h₄.inUse hv)), ?_⟩
      rw [hdrift₄.handed, filter_eq_self.2 hkept]
      exact .kept hview hkept
    · obtain ⟨w₄, failed, w₄', _, h₄, ⟨hfails, hfailed, hw₄⟩, -, rfl, -, h₅⟩ := h
      subst hw₄
      have hdrift₄ := hread.trans h₄.drift
      have hto : Drift w₄ { w' with handed := w₄.handed } :=
        ⟨h₅.published, rfl, h₅.inUse, h₅.replicas⟩
      have hdrift₅ := hdrift₄.trans hto
      refine ⟨rfl, hdrift₅.published, hdrift₅.inUse, hdrift₅.replicas,
        fun v hv => halive₂ v (h₃.inUse (h₄.inUse (h₅.inUse hv))), ?_⟩
      have hnow : w₄.clock = now := h₄.clock
      have hin : w₄.inUse ⊆ w₃.inUse := h₄.inUse
      subst hnow
      rw [h₅.handed, hdrift₄.handed]
      exact .handed (e := w₄.handing _ failed) hview hin hdrift₄.replicas rfl hfailed hfails

end VersionSet

end ElysiumKV
