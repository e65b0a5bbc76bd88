import ElysiumKV.ManifestReplay
import ElysiumKV.ObsoleteFiles
import Mathlib.Data.List.Dedup
import Mathlib.Data.List.MinMax

/-!
# Runs of the collector

Applies and collection passes among readers, with a deleter that may fail. `Settled` relates the
queue, the current version and the deleter's calls along a run.
-/

namespace ElysiumKV

open Program Program.Prog List VersionSet

/-! ### The queue and the deleter -/

/-- A deletion of the file was reported `ok`. -/
def Deleted (handed : List Handed) (n : ℕ) : Prop :=
  ∃ e ∈ handed, ∃ f ∈ e.files, f.fileNumber = n ∧ f ∉ e.failed

/-- The queue holds just the files gone and not deleted; the deleter got none in use or deleted. -/
structure Settled (current : Version) (used : List ℕ) (pending : List PendingDeletion)
    (handed : List Handed) : Prop where
  distinct : (pending.map fun p => p.file.fileNumber).Nodup
  gone : ∀ p ∈ pending, p.file.fileNumber ∈ used ∧ p.file.fileNumber ∉ current.fileNumbers
  left : ∀ p ∈ pending, ¬ Deleted handed p.file.fileNumber
  deleted : ∀ n, Deleted handed n → n ∈ used ∧ n ∉ current.fileNumbers
  accounted : ∀ n ∈ used, n ∈ current.fileNumbers ∨
    (∃ p ∈ pending, p.file.fileNumber = n) ∨ Deleted handed n
  harmless : ∀ e ∈ handed, ∀ f ∈ e.files, ∀ v ∈ e.inUse, f.fileNumber ∉ v.fileNumbers
  once : handed.Pairwise fun e e' => ∀ f ∈ e.files, f ∉ e.failed →
    ∀ f' ∈ e'.files, f'.fileNumber ≠ f.fileNumber

theorem deleted_append {handed : List Handed} {e : Handed} {n : ℕ} :
    Deleted (handed ++ [e]) n ↔
      Deleted handed n ∨ ∃ f ∈ e.files, f.fileNumber = n ∧ f ∉ e.failed := by
  simp [Deleted, or_and_right, exists_or]

variable {pending : List PendingDeletion}

theorem leftover_subperm {keep : PendingDeletion → Bool} {failed : List FileMetadata}
    (h : failed.Subperm ((pending.filter fun p => !keep p).map PendingDeletion.file)) :
    ((pending.filter keep ++ failed.map fun file => (⟨file, 0⟩ : PendingDeletion)).map
      PendingDeletion.file).Subperm (pending.map PendingDeletion.file) := by
  have hfailed : (failed.map fun file => (⟨file, 0⟩ : PendingDeletion)).map PendingDeletion.file =
      failed := by
    rw [map_map]
    exact map_id _
  have hboth : ((pending.filter keep).map PendingDeletion.file ++
      (pending.filter fun p => !keep p).map PendingDeletion.file).Perm
        (pending.map PendingDeletion.file) := by
    rw [← map_append]
    exact (filter_append_perm keep pending).map _
  rw [map_append, hfailed]
  exact ((subperm_append_left _).2 h).trans hboth.subperm

theorem nodup_of_subperm {α β : Type} {f : α → β} {l₁ l₂ : List α} (h : l₁.Subperm l₂)
    (hnodup : (l₂.map f).Nodup) : (l₁.map f).Nodup := by
  obtain ⟨l, hperm, hsub⟩ := h
  exact (hperm.map f).nodup_iff.1 (hnodup.sublist (hsub.map f))

theorem exists_of_mem_collectable {keep : PendingDeletion → Bool} {f : FileMetadata}
    (h : f ∈ (pending.filter fun p => !keep p).map PendingDeletion.file) :
    ∃ p ∈ pending, p.file = f ∧ keep p = false := by
  obtain ⟨p, hp, rfl⟩ := mem_map.1 h
  obtain ⟨hp, hkeep⟩ := mem_filter.1 hp
  exact ⟨p, hp, rfl, by simpa using hkeep⟩

theorem Settled.pass {config : ManifestConfig} {l : Limits} {current : Version} {used : List ℕ}
    {pending' : List PendingDeletion} {w : Surroundings} {handed' : List Handed}
    (h : Settled current used pending w.handed)
    (hend : PassEnd config l pending w pending' handed') :
    Settled current used pending' handed' := by
  cases hend with
  | idle => exact h
  | kept => exact h
  | @handed referenced w₁ e hview hinUse hreplicas hfiles hfailed hfails =>
    have hleftover := leftover_subperm (hfiles ▸ hfailed)
    have hnumbers : (pending.map fun p => p.file.fileNumber) =
      (pending.map PendingDeletion.file).map FileMetadata.fileNumber := (map_map ..).symm
    have hunique : ∀ p ∈ pending, ∀ q ∈ pending, p.file.fileNumber = q.file.fileNumber → p = q :=
      fun p hp q hq => inj_on_of_nodup_map h.distinct hp hq
    have hgiven : ∀ f ∈ e.files, ∃ p ∈ pending, p.file = f ∧
        keeps config referenced e.now p = false :=
      fun f hf => exists_of_mem_collectable (hfiles ▸ hf)
    have hqueued : ∀ p ∈ pending.filter (keeps config referenced e.now) ++
        e.failed.map (fun file => (⟨file, 0⟩ : PendingDeletion)), ∃ q ∈ pending, q.file = p.file := by
      intro p hp
      obtain ⟨q, hq, hfile⟩ := mem_map.1 (hleftover.subset (mem_map_of_mem hp))
      exact ⟨q, hq, hfile⟩
    constructor
    case distinct =>
      have hnodup := nodup_of_subperm hleftover (hnumbers ▸ h.distinct)
      rwa [map_map] at hnodup
    case gone =>
      intro p hp
      obtain ⟨q, hq, hfile⟩ := hqueued p hp
      exact hfile ▸ h.gone q hq
    case left =>
      intro p hp hdeleted
      obtain ⟨q, hq, hfile⟩ := hqueued p hp
      rcases deleted_append.1 hdeleted with hdeleted | ⟨f, hf, hn, hremoved⟩
      · exact h.left q hq (hfile ▸ hdeleted)
      · obtain ⟨p', hp', rfl, hkeep⟩ := hgiven f hf
        have hsame : p' = q := hunique p' hp' q hq (hn.trans (hfile ▸ rfl))
        subst hsame
        rcases mem_append.1 hp with hp | hp
        · obtain ⟨hp, hkept⟩ := mem_filter.1 hp
          obtain rfl := hunique p hp p' hq hn.symm
          exact Bool.false_ne_true (hkeep.symm.trans hkept)
        · obtain ⟨f, hf, rfl⟩ := mem_map.1 hp
          exact hremoved (hfile ▸ hf)
    case deleted =>
      intro n hdeleted
      rcases deleted_append.1 hdeleted with hdeleted | ⟨f, hf, rfl, -⟩
      · exact h.deleted n hdeleted
      · obtain ⟨p, hp, rfl, -⟩ := hgiven f hf
        exact h.gone p hp
    case accounted =>
      intro n hn
      rcases h.accounted n hn with hcurrent | ⟨p, hp, rfl⟩ | hdeleted
      · exact .inl hcurrent
      · cases hkeep : keeps config referenced e.now p with
        | true =>
          exact .inr (.inl ⟨p, mem_append_left _ (mem_filter.2 ⟨hp, hkeep⟩), rfl⟩)
        | false =>
          by_cases hremoved : p.file ∈ e.failed
          · exact .inr (.inl ⟨⟨p.file, 0⟩, mem_append_right _ (mem_map_of_mem hremoved), rfl⟩)
          · have hp' : p.file ∈ e.files := by
              rw [hfiles]
              exact mem_map_of_mem (mem_filter.2 ⟨hp, by rw [hkeep]; rfl⟩)
            exact .inr (.inr (deleted_append.2 (.inr ⟨p.file, hp', rfl, hremoved⟩)))
      · exact .inr (.inr (deleted_append.2 (.inl hdeleted)))
    case harmless =>
      intro e' he' f hf v hv hmem
      rcases mem_append.1 he' with he' | he'
      · exact h.harmless e' he' f hf v hv hmem
      · obtain rfl := mem_singleton.1 he'
        obtain ⟨p, hp, rfl, hkeep⟩ := hgiven f hf
        have hreferenced := hview.inUse v (hinUse hv) _ hmem
        simp [keeps, hreferenced] at hkeep
    case once =>
      refine pairwise_append.2 ⟨h.once, pairwise_singleton _ _, ?_⟩
      intro e₁ he₁ e₂ he₂ f hf hremoved f' hf' hn
      obtain rfl := mem_singleton.1 he₂
      obtain ⟨p, hp, rfl, -⟩ := hgiven f' hf'
      exact h.left p hp ⟨e₁, he₁, f, hf, hn.symm, hremoved⟩

section Queued

variable {used : List ℕ} {base : Version} {edit : VersionEdit} {queued : List PendingDeletion}

theorem nodup_queued (hvalid : ValidEdit used base edit)
    (hqueued : queued.map PendingDeletion.file =
      queuedFiles base (edit.added.map FileMetadata.fileNumber) edit.deleted) :
    (queued.map fun q => q.file.fileNumber).Nodup := by
  have hnumbers : (queued.map fun q => q.file.fileNumber) =
      (queuedFiles base (edit.added.map FileMetadata.fileNumber) edit.deleted).map
        FileMetadata.fileNumber := by
    rw [← hqueued, map_map]
    rfl
  rw [hnumbers]
  exact hvalid.deletedDistinct.sublist (queuedFiles_sublist ..)

theorem gone_of_queued (hvalid : ValidEdit used base edit) (hone : base.OneLevel)
    (hqueued : queued.map PendingDeletion.file =
      queuedFiles base (edit.added.map FileMetadata.fileNumber) edit.deleted)
    {q : PendingDeletion} (hq : q ∈ queued) :
    q.file.fileNumber ∈ base.fileNumbers ∧ q.file.fileNumber ∉ (base.apply edit).fileNumbers := by
  have hfile : q.file ∈ queuedFiles base (edit.added.map FileMetadata.fileNumber)
      edit.deleted := hqueued ▸ mem_map_of_mem hq
  obtain ⟨hadded, ref, href, hn⟩ := mem_queuedFiles hfile
  rw [← hn] at hadded ⊢
  exact ⟨hvalid.mem_of_deleted href, hvalid.not_mem_apply_of_deleted hone href hadded⟩

end Queued

theorem Settled.publish {current : Version} {used : List ℕ} {queued : List PendingDeletion}
    {handed : List Handed} {edit : VersionEdit} (h : Settled current used pending handed)
    (hone : current.OneLevel) (hknown : ∀ n ∈ current.fileNumbers, n ∈ used)
    (hvalid : ValidEdit used current edit)
    (hqueued : queued.map PendingDeletion.file =
      queuedFiles current (edit.added.map FileMetadata.fileNumber) edit.deleted) :
    Settled (current.apply edit) (used ++ edit.added.map FileMetadata.fileNumber)
      (pending ++ queued) handed := by
  have hbase : ∀ p ∈ queued, p.file.fileNumber ∈ current.fileNumbers ∧
      p.file.fileNumber ∉ (current.apply edit).fileNumbers :=
    fun p hp => gone_of_queued hvalid hone hqueued hp
  constructor
  case distinct =>
    rw [map_append]
    refine nodup_append.2 ⟨h.distinct, nodup_queued hvalid hqueued, ?_⟩
    intro n hn n' hn' heq
    subst heq
    obtain ⟨p, hp, rfl⟩ := mem_map.1 hn
    obtain ⟨q, hq, hsame⟩ := mem_map.1 hn'
    exact (h.gone p hp).2 (hsame ▸ (hbase q hq).1)
  case gone =>
    intro p hp
    rcases mem_append.1 hp with hp | hp
    · obtain ⟨hused, hgone⟩ := h.gone p hp
      exact ⟨mem_append_left _ hused, hvalid.not_mem_apply hused hgone⟩
    · exact ⟨mem_append_left _ (hknown _ (hbase p hp).1), (hbase p hp).2⟩
  case left =>
    intro p hp hdeleted
    rcases mem_append.1 hp with hp | hp
    · exact h.left p hp hdeleted
    · exact (h.deleted _ hdeleted).2 (hbase p hp).1
  case deleted =>
    intro n hdeleted
    obtain ⟨hused, hgone⟩ := h.deleted n hdeleted
    exact ⟨mem_append_left _ hused, hvalid.not_mem_apply hused hgone⟩
  case accounted =>
    intro n hn
    by_cases hnext : n ∈ (current.apply edit).fileNumbers
    · exact .inl hnext
    rw [Version.mem_fileNumbers_apply, not_or] at hnext
    obtain ⟨hkept, hadded⟩ := hnext
    rcases mem_append.1 hn with hn | hn
    · rcases h.accounted n hn with hcurrent | ⟨p, hp, rfl⟩ | hdeleted
      · obtain ⟨level, f, hf, rfl⟩ := Version.mem_fileNumbers.1 hcurrent
        have href : (⟨level, f.fileNumber⟩ : FileRef) ∈ edit.deleted := by
          by_contra hdeleted
          exact hkept ⟨level, f, hf, rfl, hdeleted⟩
        have hadded' : f.fileNumber ∉ edit.added.map FileMetadata.fileNumber := by
          intro hmem
          obtain ⟨f', hf', hn'⟩ := mem_map.1 hmem
          exact hadded ⟨f', hf', hn'⟩
        obtain ⟨file, hfile, hnumber⟩ := exists_mem_queuedFiles href hadded' ⟨f, hf, rfl⟩
        rw [← hqueued] at hfile
        obtain ⟨p, hp, rfl⟩ := mem_map.1 hfile
        exact .inr (.inl ⟨p, mem_append_right _ hp, hnumber⟩)
      · exact .inr (.inl ⟨p, mem_append_left _ hp, rfl⟩)
      · exact .inr (.inr hdeleted)
    · obtain ⟨f, hf, rfl⟩ := mem_map.1 hn
      exact absurd ⟨f, hf, rfl⟩ hadded
  case harmless => exact h.harmless
  case once => exact h.once

/-- A version set in its surroundings, what its edits removed and the numbers its versions had. -/
structure Collector (ι : Type) where
  vs : VersionSet ι
  world : Surroundings
  removed : List PendingDeletion := []
  used : List ℕ := []

/-- Conditions on a run: on the clock and deleter, given what is removed and queued, and on
removals. -/
structure Guard where
  limits : List PendingDeletion → List PendingDeletion → Limits := fun _ _ => {}
  removes : List PendingDeletion → Surroundings → Prop := fun _ _ => True

/-- As opened: nothing is queued, and the version handed out is tracked. -/
structure Opened {ι : Type} (vs : VersionSet ι) (w : Surroundings) : Prop where
  current : vs.current = w.published
  tracked : ∀ v ∈ w.inUse, v ∈ vs.liveVersions
  oneLevel : vs.current.OneLevel
  pending : vs.pendingDeletions = []
  handed : w.handed = []

section Runs

variable {ι : Type}

/-- A run of applies and passes among readers. Each step holds the manifest mutex, so steps do not
interleave. -/
inductive CollectorRun (config : ManifestConfig) (g : Guard) (vs₀ : VersionSet ι)
    (w₀ : Surroundings) : Collector ι → Prop
  | opened : CollectorRun config g vs₀ w₀ ⟨vs₀, w₀, [], vs₀.current.fileNumbers⟩
  | readers {x w'} (hrun : CollectorRun config g vs₀ w₀ x) (h : ReadersMove x.world w') :
      CollectorRun config g vs₀ w₀ { x with world := w' }
  | other {x vs'} (hrun : CollectorRun config g vs₀ w₀ x) (h : x.vs.SameVersions vs') :
      CollectorRun config g vs₀ w₀ { x with vs := vs' }
  | collected {x vs' w' seen} (hrun : CollectorRun config g vs₀ w₀ x)
      (h : (x.vs.collectObsolete config).Among (g.limits x.removed x.vs.pendingDeletions).Reply
        ReadersMove x.world vs' seen w') :
      CollectorRun config g vs₀ w₀ { x with vs := vs', world := w' }
  | refused {x id edit status vs' w' seen} (hrun : CollectorRun config g vs₀ w₀ x)
      (h : (x.vs.prepareEdit config id edit).Among ({} : Limits).Reply ReadersMove x.world
        (.error (status, vs')) seen w') :
      CollectorRun config g vs₀ w₀ { x with vs := vs', world := w' }
  | applied {x id edit entry written queued w₁ seen status vs' w' seen'}
      (hrun : CollectorRun config g vs₀ w₀ x) (hvalid : ValidEdit x.used x.vs.current edit)
      (h : (x.vs.prepareEdit config id edit).Among ({} : Limits).Reply ReadersMove x.world
        (.ok (entry, written, queued)) seen w₁)
      (hremoves : g.removes queued w₁)
      (hrest : ((x.vs.committed id written queued).finishEdit config entry
          (x.vs.current.apply written)).Among
        (g.limits (x.removed ++ queued) (x.vs.pendingDeletions ++ queued)).Reply ReadersMove
        (w₁.publish (x.vs.current.apply written)) (status, vs') seen' w') :
      CollectorRun config g vs₀ w₀
        ⟨vs', w', x.removed ++ queued, x.used ++ edit.added.map FileMetadata.fileNumber⟩

/-- The invariant of runs. -/
structure Collector.Sound (x : Collector ι) : Prop where
  current : x.vs.current = x.world.published
  tracked : ∀ v ∈ x.world.inUse, v ∈ x.vs.liveVersions
  oneLevel : x.vs.current.OneLevel
  known : ∀ n ∈ x.vs.current.fileNumbers, n ∈ x.used
  settled : Settled x.vs.current x.used x.vs.pendingDeletions x.world.handed

namespace Collector.Sound

variable {config : ManifestConfig} {l : Limits} {x : Collector ι}

theorem drift (h : x.Sound) {w' : Surroundings} (hdrift : Drift x.world w') :
    Sound { x with world := w' } where
  current := h.current.trans hdrift.published.symm
  tracked v hv := h.tracked v (hdrift.inUse hv)
  oneLevel := h.oneLevel
  known := h.known
  settled := by
    simp only
    rw [hdrift.handed]
    exact h.settled

theorem sameVersions (h : x.Sound) {vs' : VersionSet ι} (hagrees : x.vs.SameVersions vs') :
    Sound { x with vs := vs' } := by
  obtain ⟨hcurrent, hlive, hpending⟩ := hagrees
  constructor
  case current => exact hcurrent.trans h.current
  case tracked => exact hlive ▸ h.tracked
  case oneLevel => exact hcurrent ▸ h.oneLevel
  case known => exact hcurrent ▸ h.known
  case settled =>
    simp only
    rw [hcurrent, hpending]
    exact h.settled

theorem pass (h : x.Sound) {vs' : VersionSet ι} {w' : Surroundings}
    (hpass : Pass config l x.vs vs' x.world w') : Sound { x with vs := vs', world := w' } := by
  constructor
  case current => exact hpass.current.trans (h.current.trans hpass.published.symm)
  case tracked => exact hpass.tracked
  case oneLevel => exact hpass.current ▸ h.oneLevel
  case known => exact hpass.current ▸ h.known
  case settled =>
    simp only
    rw [hpass.current]
    exact h.settled.pass hpass.ends

theorem publish (h : x.Sound) (id : ι) {edit : VersionEdit} {queued : List PendingDeletion}
    (hvalid : ValidEdit x.used x.vs.current edit)
    (hqueued : queued.map PendingDeletion.file =
      queuedFiles x.vs.current (edit.added.map FileMetadata.fileNumber) edit.deleted)
    (removed : List PendingDeletion) :
    Sound ⟨x.vs.committed id edit queued, x.world.publish (x.vs.current.apply edit), removed,
      x.used ++ edit.added.map FileMetadata.fileNumber⟩ where
  current := rfl
  tracked v hv := by
    rcases mem_cons.1 hv with rfl | hv
    · exact mem_append_right _ (mem_singleton_self _)
    · exact mem_append_left _ (h.tracked v (mem_cons_of_mem _ hv))
  oneLevel := hvalid.oneLevel_apply h.known h.oneLevel
  known n hn := by
    rcases Version.mem_fileNumbers_apply.1 hn with ⟨level, f, hf, rfl, -⟩ | ⟨f, hf, rfl⟩
    · exact mem_append_left _ (h.known _ (Version.mem_fileNumbers_of_mem hf))
    · exact mem_append_right _ (mem_map_of_mem hf)
  settled := h.settled.publish h.oneLevel h.known hvalid hqueued

end Collector.Sound

variable {config : ManifestConfig} {l : Limits} {vs' : VersionSet ι} {w' : Surroundings}
  {seen : List Surroundings}

theorem finishEdit_pass {vs : VersionSet ι} {entry : CatalogEntry} {version : Version}
    {w : Surroundings} {status : Status} (htracked : ∀ v ∈ w.inUse, v ∈ vs.liveVersions)
    (h : (vs.finishEdit config entry version).Among l.Reply ReadersMove w (status, vs') seen w') :
    ∃ noted w₁, vs.SameVersions noted ∧ Drift w w₁ ∧ Pass config l noted vs' w₁ w' := by
  obtain ⟨rolled, w₁, _, _, hroll, -, h⟩ := among_bind ReadersMove.refl h
  obtain ⟨collected, w₂, _, _, hcollect, -, hdone, -, henv⟩ := among_bind ReadersMove.refl h
  obtain rfl : vs' = collected := congrArg Prod.snd hdone
  have honly := maybeRollGeneration_only config vs entry version
  have hagrees := noteRoll_sameVersions (hroll.result honly)
  have hdrift := drift_of_among honly hroll
  have hpass := collectObsoleteLocked_pass
    (fun v hv => hagrees.liveVersions ▸ htracked v (hdrift.inUse hv)) hcollect
  refine ⟨_, w₁, hagrees, hdrift, hpass.current, henv.published.trans hpass.published,
    List.Subset.trans henv.inUse hpass.inUse, fun r hr => ?_,
    fun v hv => hpass.tracked v (henv.inUse hv), ?_⟩
  · rcases henv.replicas r hr with hr | hr
    · exact hpass.replicas r hr
    · exact .inr (hr.trans hpass.published)
  · rw [henv.handed]
    exact hpass.ends

/-- A successful apply: readers, the publication, the roll with readers during it, a pass. -/
structure AppliedEdit (config : ManifestConfig) (l : Limits) (x : Collector ι) (id : ι)
    (edit : VersionEdit) (queued : List PendingDeletion) (w₁ : Surroundings) (vs' : VersionSet ι)
    (w' : Surroundings) : Prop where
  valid : ValidEdit x.used x.vs.current edit
  queues : queued.map PendingDeletion.file =
    queuedFiles x.vs.current (edit.added.map FileMetadata.fileNumber) edit.deleted
  before : Drift x.world w₁
  passed : ∃ noted w₂, (x.vs.committed id edit queued).SameVersions noted ∧
    Drift (w₁.publish (x.vs.current.apply edit)) w₂ ∧ Pass config l noted vs' w₂ w'

variable {x : Collector ι}

theorem Collector.Sound.published {id : ι} {edit : VersionEdit} {queued : List PendingDeletion}
    {w₁ : Surroundings} (h : x.Sound) (happlied : AppliedEdit config l x id edit queued w₁ vs' w')
    (removed : List PendingDeletion) :
    Sound ⟨x.vs.committed id edit queued, w₁.publish (x.vs.current.apply edit), removed,
      x.used ++ edit.added.map FileMetadata.fileNumber⟩ :=
  (h.drift happlied.before).publish id happlied.valid happlied.queues removed

theorem appliedEdit {id : ι} {edit written : VersionEdit} {entry : CatalogEntry}
    {queued : List PendingDeletion} {w₁ : Surroundings} {status : Status}
    {seen' : List Surroundings} (hsound : x.Sound) (hvalid : ValidEdit x.used x.vs.current edit)
    (h : (x.vs.prepareEdit config id edit).Among ({} : Limits).Reply ReadersMove x.world
      (.ok (entry, written, queued)) seen w₁)
    (hrest : ((x.vs.committed id written queued).finishEdit config entry
        (x.vs.current.apply written)).Among l.Reply ReadersMove
      (w₁.publish (x.vs.current.apply written)) (status, vs') seen' w') :
    written.added = edit.added ∧ AppliedEdit config l x id written queued w₁ vs' w' := by
  have honly := x.vs.prepareEdit_only config id edit
  obtain ⟨rfl, hqueued⟩ : _ ∧ _ := h.result honly
  have hvalid' : ValidEdit x.used x.vs.current { edit with nextFileNumber := x.vs.nextFileNumber } :=
    ⟨hvalid.1, hvalid.2, hvalid.3, hvalid.4⟩
  have hbefore := drift_of_among honly h
  have hpublished := (hsound.drift hbefore).publish id hvalid' hqueued []
  exact ⟨rfl, hvalid', hqueued, hbefore, finishEdit_pass hpublished.tracked hrest⟩

theorem CollectorRun.sound {g : Guard} {vs₀ : VersionSet ι} {w₀ : Surroundings}
    (hopened : Opened vs₀ w₀) (hrun : CollectorRun config g vs₀ w₀ x) : x.Sound := by
  induction hrun with
  | opened =>
    refine ⟨hopened.current, hopened.tracked, hopened.oneLevel, fun n hn => hn, ?_⟩
    simp only
    rw [hopened.pending, hopened.handed]
    exact ⟨nodup_nil, nofun, nofun, nofun, fun n hn => .inl hn, nofun, .nil⟩
  | readers hrun h ih => exact ih.drift h.drift
  | other hrun h ih => exact ih.sameVersions h
  | collected hrun h ih =>
    exact ih.pass (collectObsoleteLocked_pass ih.tracked h)
  | @refused x id edit status vs' w' seen hrun h ih =>
    have honly := x.vs.prepareEdit_only config id edit
    have hsame : x.vs.SameVersions vs' := h.result honly
    exact (ih.drift (drift_of_among honly h)).sameVersions hsame
  | @applied x id edit entry written queued w₁ seen status vs' w' seen' hrun hvalid h hremoves
      hrest ih =>
    obtain ⟨hadded, happlied⟩ := appliedEdit ih hvalid h hrest
    obtain ⟨noted, w₂, hsame, hdrift, hpass⟩ := happlied.passed
    rw [← hadded]
    exact (((ih.published happlied _).drift hdrift).sameVersions hsame).pass hpass

/-! ### Every object goes in the end -/

/-- A reading by which all queued files are out of the window. -/
def drainedBy (config : ManifestConfig) (pending : List PendingDeletion) : ℕ :=
  (pending.map PendingDeletion.unreferencedSinceMs).foldr max 0 + config.obsoleteRetentionMs

theorem keeps_eq_false {referenced : List ℕ} {now : ℕ} {pending : List PendingDeletion}
    {p : PendingDeletion} (hp : p ∈ pending) (hnow : drainedBy config pending ≤ now)
    (hgone : p.file.fileNumber ∉ referenced) :
    keeps config referenced now p = false := by
  have hsince : p.unreferencedSinceMs ≤
      (pending.map PendingDeletion.unreferencedSinceMs).foldr max 0 :=
    le_max_of_le' 0 (mem_map_of_mem hp) le_rfl
  have hout : ¬ now - p.unreferencedSinceMs < config.obsoleteRetentionMs := by
    unfold drainedBy at hnow
    omega
  simp [keeps, hgone, hout]

theorem Collector.Sound.drained (h : x.Sound)
    (hreleased : ∀ v ∈ x.world.held, v = x.world.published) (hdeletes : config.deletes = true)
    (hpass : (x.vs.collectObsolete config).Among
      (⟨fun _ now => drainedBy config x.vs.pendingDeletions ≤ now, (· = [])⟩ : Limits).Reply
      ReadersMove x.world vs' seen w') : vs'.pendingDeletions = [] := by
  have hends := (collectObsoleteLocked_pass h.tracked hpass).ends
  have hnone : ∀ {l : Limits} {referenced : List ℕ} {now : ℕ} {w₁ : Surroundings},
      View l x.world referenced now w₁ → drainedBy config x.vs.pendingDeletions ≤ now →
      ∀ p ∈ x.vs.pendingDeletions, keeps config referenced now p = false := by
    intro l referenced now w₁ hview hnow p hp
    refine keeps_eq_false hp hnow fun hmem => ?_
    obtain ⟨v, hv, hn⟩ := hview.referenced _ hmem
    have hcurrent : v = x.vs.current := by
      rcases mem_cons.1 hv with rfl | hv
      · exact h.current.symm
      · exact (hreleased v hv).trans h.current.symm
    exact (h.settled.gone p hp).2 (hcurrent ▸ hn)
  generalize vs'.pendingDeletions = pending', w'.handed = handed' at hends
  cases hends with
  | idle hidle => exact hidle.resolve_left (by rw [hdeletes]; nofun)
  | kept hview hkept =>
    refine eq_nil_iff_forall_not_mem.2 fun p hp => ?_
    exact Bool.false_ne_true ((hnone hview hview.reads p hp).symm.trans (hkept p hp))
  | handed hview hinUse hreplicas hfiles hfailed hfails =>
    have hkeep := filter_eq_nil_iff.2 fun p hp =>
      Bool.not_eq_true _ ▸ hnone hview hview.reads p hp
    rw [hkeep, hfails]
    rfl

/-- `DbImpl::delete_obsolete`: one bulk call per known store, all of whose files come back if it
fails. -/
def deleteObsolete (known : Bytes → Bool) (removeMany : Bytes → List ℕ → Status)
    (files : List FileMetadata) : List FileMetadata :=
  let stored := files.filter fun f => known f.storeId
  let stores := (stored.map FileMetadata.storeId).dedup.insertionSort (· ≤ ·)
  stores.flatMap fun storeId =>
    let names := (stored.filter fun f => f.storeId = storeId).map FileMetadata.fileNumber
    if removeMany storeId names = .ok then [] else files.filter fun f => f.storeId = storeId

theorem deleteObsolete_subperm (known : Bytes → Bool) (removeMany : Bytes → List ℕ → Status)
    {files : List FileMetadata} (h : files.Nodup) :
    (deleteObsolete known removeMany files).Subperm files := by
  have hback : ∀ {storeId : Bytes} {names : List ℕ} {f : FileMetadata},
      f ∈ (if removeMany storeId names = .ok then [] else files.filter fun f => f.storeId = storeId) →
      f ∈ files ∧ f.storeId = storeId := by
    intro storeId names f hf
    split_ifs at hf
    · exact absurd hf not_mem_nil
    · simpa using hf
  refine List.Nodup.subperm (nodup_flatMap.2 ⟨fun storeId _ => ?_, ?_⟩) fun f hf => ?_
  · simp only
    split_ifs
    · exact nodup_nil
    · exact h.filter _
  · have hstores := (perm_insertionSort (· ≤ ·) _).nodup_iff.2 (nodup_dedup
      ((files.filter fun f => known f.storeId).map FileMetadata.storeId))
    refine hstores.imp fun hne => ?_
    intro f hf hf'
    exact hne ((hback hf).2.symm.trans (hback hf').2)
  · obtain ⟨storeId, -, hf⟩ := mem_flatMap.1 hf
    exact (hback hf).1

/-! ### Runs against given surroundings -/

/-- The clock stands still, and the deleter fails on the given files. -/
def Surroundings.answer (now : ℕ) (failing : List FileMetadata) :
    (c : Call ι) → Surroundings → c.Result × Surroundings
  | .read, w => (.ok none, w)
  | .compareAndSet _ _, w => (.ok none, w)
  | .putSnapshot .., w => (Status.ok, w)
  | .getSnapshot _, w => (.error .notFound, w)
  | .putEdit .., w => (Status.ok, w)
  | .getEdit .., w => (.error .notFound, w)
  | .listEdits _, w => (.ok [], w)
  | .listGenerations, w => (.ok [], w)
  | .deleteGeneration _, w => (Status.ok, w)
  | .draw, w => ((0 : ℕ), w)
  | .clock, w => (now, { w with clock := now })
  | .lock tracked, w => (tracked.filter (· ∈ w.inUse), w)
  | .deleteObjects files, w => (files.filter (· ∈ failing),
      { w with handed := w.handed ++ [w.handing files (files.filter (· ∈ failing))] })

theorem Surroundings.reply_answer {now : ℕ} (failing : List FileMetadata)
    (hreads : ∀ w, l.reads w now) (hfails : ∀ failed, l.fails failed) (c : Call ι)
    (w : Surroundings) : l.Reply c w (answer now failing c w).1 (answer now failing c w).2 := by
  cases c with
  | clock => exact ⟨hreads w, rfl⟩
  | lock tracked => exact ⟨rfl, filter_sublist, by simp +contextual [answer]⟩
  | deleteObjects files => exact ⟨hfails _, filter_sublist.subperm, rfl⟩
  | _ => rfl

/-- One collection pass. -/
def Collector.collect (config : ManifestConfig) (now : ℕ) (failing : List FileMetadata)
    (x : Collector ι) : Collector ι :=
  let r := (x.vs.collectObsolete config).run (Surroundings.answer now failing) x.world
  { x with vs := r.1, world := r.2 }

/-- One apply. -/
def Collector.apply (config : ManifestConfig) (now : ℕ) (failing : List FileMetadata) (id : ι)
    (edit : VersionEdit) (x : Collector ι) : Collector ι :=
  match (x.vs.prepareEdit config id edit).run (Surroundings.answer now failing) x.world with
  | (.error (_, vs'), w') => { x with vs := vs', world := w' }
  | (.ok (entry, written, queued), w₁) =>
    let r := ((x.vs.committed id written queued).finishEdit config entry
      (x.vs.current.apply written)).run (Surroundings.answer now failing)
        (w₁.publish (x.vs.current.apply written))
    ⟨r.1.2, r.2, x.removed ++ queued, x.used ++ edit.added.map FileMetadata.fileNumber⟩

section Given

variable {config : ManifestConfig} {vs₀ : VersionSet ι} {w₀ : Surroundings} {x : Collector ι}

theorem CollectorRun.collect {g : Guard} (hrun : CollectorRun config g vs₀ w₀ x) (now : ℕ)
    (failing : List FileMetadata)
    (hreads : ∀ w, (g.limits x.removed x.vs.pendingDeletions).reads w now)
    (hfails : ∀ failed, (g.limits x.removed x.vs.pendingDeletions).fails failed) :
    CollectorRun config g vs₀ w₀ (x.collect config now failing) := by
  obtain ⟨_, h⟩ := exists_among_of_run (Surroundings.reply_answer failing hreads hfails)
    ReadersMove.refl (ReadersMove.refl x.world) rfl
  exact hrun.collected h

theorem CollectorRun.apply {g : Guard} (hrun : CollectorRun config g vs₀ w₀ x) (now : ℕ)
    (failing : List FileMetadata) (id : ι) {edit : VersionEdit}
    (hvalid : ValidEdit x.used x.vs.current edit)
    (hguard : ∀ entry written queued w₁, (x.vs.prepareEdit config id edit).run
      (Surroundings.answer now failing) x.world = (.ok (entry, written, queued), w₁) →
      let l := g.limits (x.removed ++ queued) (x.vs.pendingDeletions ++ queued)
      g.removes queued w₁ ∧ (∀ w, l.reads w now) ∧ ∀ failed, l.fails failed) :
    CollectorRun config g vs₀ w₀ (x.apply config now failing id edit) := by
  have hanswer : ∀ (c : Call ι) w, ({} : Limits).Reply c w
      (Surroundings.answer now failing c w).1 (Surroundings.answer now failing c w).2 :=
    Surroundings.reply_answer failing (fun _ => trivial) fun _ => trivial
  unfold Collector.apply
  split
  next status vs' w' hprepare =>
    obtain ⟨_, h⟩ := exists_among_of_run hanswer ReadersMove.refl (ReadersMove.refl x.world) hprepare
    exact hrun.refused h
  next entry written queued w₁ hprepare =>
    obtain ⟨hremoves, hreads, hfails⟩ := hguard _ _ _ _ hprepare
    obtain ⟨_, h⟩ := exists_among_of_run hanswer ReadersMove.refl (ReadersMove.refl x.world) hprepare
    obtain ⟨_, hrest⟩ := exists_among_of_run (Surroundings.reply_answer failing hreads hfails)
      ReadersMove.refl (ReadersMove.refl _) rfl
    exact hrun.applied hvalid h hremoves hrest

end Given

/-- Objects are deleted when nothing can read them and only then. -/
theorem object_deleted_iff_unreadable {config : ManifestConfig} {vs₀ : VersionSet ι}
    {w₀ : Surroundings} (hopened : Opened vs₀ w₀) {x : Collector ι}
    (hrun : CollectorRun config {} vs₀ w₀ x) :
    (∀ e ∈ x.world.handed, ∀ f ∈ e.files, ∀ v ∈ e.inUse, f.fileNumber ∉ v.fileNumbers) ∧
    (∀ n ∈ x.used, n ∈ x.vs.current.fileNumbers ∨
      (∃ p ∈ x.vs.pendingDeletions, p.file.fileNumber = n) ∨ Deleted x.world.handed n) ∧
    (∀ p ∈ x.vs.pendingDeletions, ¬ Deleted x.world.handed p.file.fileNumber) ∧
    (x.world.handed.Pairwise fun e e' => ∀ f ∈ e.files, f ∉ e.failed →
      ∀ f' ∈ e'.files, f'.fileNumber ≠ f.fileNumber) ∧
    ((∀ v ∈ x.world.held, v = x.world.published) → config.deletes = true →
      ∃ deadline, ∀ vs' w' seen, (x.vs.collectObsolete config).Among
        (⟨fun _ now => deadline ≤ now, (· = [])⟩ : Limits).Reply ReadersMove x.world vs' seen w' →
        vs'.pendingDeletions = []) := by
  have h := hrun.sound hopened
  refine ⟨h.settled.harmless, h.settled.accounted, h.settled.left, h.settled.once, ?_⟩
  intro hreleased hdeletes
  exact ⟨drainedBy config x.vs.pendingDeletions,
    fun vs' w' seen hpass => h.drained hreleased hdeletes hpass⟩

end Runs

/-! A file is replaced while a reader holds the version before; the reader lets go, a deletion fails
and the next one succeeds. -/

/-- A version of one file. -/
def versionOf (n : ℕ) : Version := ({} : Version).apply { added := [{ fileNumber := n }] }

theorem oneLevel_versionOf (n : ℕ) : (versionOf n).OneLevel := by
  have hempty : ∀ level, ({} : Version).filesAt level = [] := fun level => rfl
  have hnumbers : ({} : Version).fileNumbers = [] := rfl
  have hvalid : ValidEdit [] {} { added := [{ fileNumber := n }] } :=
    ⟨nodup_nil, nofun, nodup_singleton _, fun f _ => .inl not_mem_nil⟩
  refine hvalid.oneLevel_apply (by rw [hnumbers]; nofun) ?_
  intro level level' f f' hf
  rw [hempty] at hf
  exact absurd hf not_mem_nil

/-- A set opened on file 1. -/
def openedSet : VersionSet ℕ :=
  { current := versionOf 1, entry := some ⟨1, 1⟩, liveVersions := [versionOf 1] }

/-- Its surroundings, a reader among them. -/
def openedWorld : Surroundings := { published := versionOf 1, held := [versionOf 1] }

/-- File 2 replaces file 1. -/
def replacement : VersionEdit := { added := [{ fileNumber := 2 }], deleted := [⟨0, 1⟩] }

theorem valid_replacement : ValidEdit (versionOf 1).fileNumbers openedSet.current replacement :=
  ⟨by decide +kernel, by decide +kernel, by decide +kernel, by decide +kernel⟩

/-- After the replacement. -/
def replaced : Collector ℕ :=
  Collector.apply (plainConfig 4) 10 [] 1 replacement
    ⟨openedSet, openedWorld, [], (versionOf 1).fileNumbers⟩

/-- The reader lets go. -/
def released : Collector ℕ :=
  { replaced with world := { replaced.world with held := [] } }

theorem object_deleted_once_released : Opened openedSet openedWorld ∧
    replaced.vs.pendingDeletions.map (fun p => p.file.fileNumber) = [1] ∧
    (released.collect (plainConfig 4) 20 [{ fileNumber := 1 }]).vs.pendingDeletions.map
      (fun p => p.file.fileNumber) = [1] ∧
    Deleted ((released.collect (plainConfig 4) 20 [{ fileNumber := 1 }]).collect
      (plainConfig 4) 30 []).world.handed 1 := by
  have hopened : Opened openedSet openedWorld := by
    exact ⟨rfl, by decide +kernel, oneLevel_versionOf 1, rfl, rfl⟩
  have hreplaced : CollectorRun (plainConfig 4) {} openedSet openedWorld replaced :=
    CollectorRun.opened.apply 10 [] 1 valid_replacement fun _ _ _ _ _ =>
      ⟨trivial, fun _ => trivial, fun _ => trivial⟩
  have hreleased : CollectorRun (plainConfig 4) {} openedSet openedWorld released :=
    hreplaced.readers ⟨rfl, rfl, rfl, by simp [Surroundings.inUse], fun _ => .inl⟩
  have hfailed := hreleased.collect 20 [{ fileNumber := 1 }] (fun _ => trivial) fun _ => trivial
  have hdeleted := hfailed.collect 30 [] (fun _ => trivial) fun _ => trivial
  have hempty : ((released.collect (plainConfig 4) 20 [{ fileNumber := 1 }]).collect
      (plainConfig 4) 30 []).vs.pendingDeletions = [] := by decide +kernel
  refine ⟨hopened, by decide +kernel, by decide +kernel, ?_⟩
  obtain ⟨-, haccounted, -, -, -⟩ := object_deleted_iff_unreadable hopened hdeleted
  rcases haccounted 1 (by decide +kernel) with hcurrent | ⟨p, hp, -⟩ | hdone
  · exact absurd hcurrent (by decide +kernel)
  · rw [hempty] at hp
    exact absurd hp not_mem_nil
  · exact hdone

end ElysiumKV
