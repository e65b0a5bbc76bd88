import ElysiumKV.CollectorRuns

/-!
# The retention window

Readers in other processes rely on the time between a file's removal and its deletion. The clock may
step back, and a file the deleter gave back is queued as of time 0, so the window holds under
conditions (`InTime`, `timely`).
-/

namespace ElysiumKV

open Program Program.Prog List VersionSet

/-- When a queued file may be looked at: untried, from its removal on; tried, before any window or
after its own. -/
def PendingDeletion.InTime (config : ManifestConfig) (p : PendingDeletion) (removedAt now : ℕ) :
    Prop :=
  if p.unreferencedSinceMs = removedAt then removedAt ≤ now
  else now < config.obsoleteRetentionMs ∨ removedAt + config.obsoleteRetentionMs ≤ now

instance (config : ManifestConfig) (p : PendingDeletion) (removedAt now : ℕ) :
    Decidable (p.InTime config removedAt now) := by
  unfold PendingDeletion.InTime
  infer_instance

/-- Queued files not in use are looked at in time, and removed no earlier than the refreshes of
replicas that have them. -/
def timely (config : ManifestConfig) : Guard where
  limits removed pending :=
    { reads := fun w now => ∀ p ∈ pending, ∀ q ∈ removed, q.file = p.file →
        (∀ v ∈ w.inUse, p.file.fileNumber ∉ v.fileNumbers) →
        p.InTime config q.unreferencedSinceMs now }
  removes queued w := ∀ q ∈ queued, ∀ r ∈ w.replicas,
    q.file.fileNumber ∈ r.version.fileNumbers → r.refreshedAt ≤ q.unreferencedSinceMs

section

variable {config : ManifestConfig} {referenced : List ℕ} {now removedAt : ℕ} {p : PendingDeletion}

theorem out_of_window (htime : p.InTime config removedAt now)
    (hsince : p.unreferencedSinceMs = removedAt ∨ p.unreferencedSinceMs = 0)
    (hkeep : keeps config referenced now p = false) :
    removedAt + config.obsoleteRetentionMs ≤ now := by
  unfold PendingDeletion.InTime at htime
  simp only [keeps, Bool.or_eq_false_iff, Bool.and_eq_false_iff, decide_eq_false_iff_not] at hkeep
  split_ifs at htime with hfirst
  · omega
  · omega

theorem not_keeps_of_not_inTime (hgone : p.file.fileNumber ∉ referenced)
    (htime : ¬ p.InTime config removedAt now)
    (hsince : p.unreferencedSinceMs = removedAt ∨ p.unreferencedSinceMs = 0) :
    keeps config referenced now p = false ∧
      now < removedAt + config.obsoleteRetentionMs := by
  unfold PendingDeletion.InTime at htime
  simp only [keeps, Bool.or_eq_false_iff, Bool.and_eq_false_iff, decide_eq_false_iff_not]
  split_ifs at htime with hfirst
  · exact ⟨⟨hgone, by omega⟩, by omega⟩
  · have hzero := hsince.resolve_left hfirst
    exact ⟨⟨hgone, by omega⟩, by omega⟩

end

section Runs

variable {ι : Type} {config : ManifestConfig}

/-- A queued file counts from its removal or from 0. -/
structure Collector.Traced (x : Collector ι) : Prop where
  distinct : (x.removed.map fun q => q.file.fileNumber).Nodup
  gone : ∀ q ∈ x.removed,
    q.file.fileNumber ∈ x.used ∧ q.file.fileNumber ∉ x.vs.current.fileNumbers
  pending : ∀ p ∈ x.vs.pendingDeletions, ∃ q ∈ x.removed, q.file = p.file ∧
    (p.unreferencedSinceMs = q.unreferencedSinceMs ∨ p.unreferencedSinceMs = 0)

/-- No replica refreshed to a removed file, and none was handed out before `R` after its removal and
every such refresh. -/
structure Collector.Retains (config : ManifestConfig) (x : Collector ι) : Prop where
  replicas : ∀ q ∈ x.removed, ∀ r ∈ x.world.replicas,
    q.file.fileNumber ∈ r.version.fileNumbers → r.refreshedAt ≤ q.unreferencedSinceMs
  handed : ∀ e ∈ x.world.handed, ∀ f ∈ e.files, ∃ q ∈ x.removed, q.file = f ∧
    q.unreferencedSinceMs + config.obsoleteRetentionMs ≤ e.now ∧
    ∀ r ∈ e.replicas, f.fileNumber ∈ r.version.fileNumbers →
      r.refreshedAt + config.obsoleteRetentionMs ≤ e.now

namespace Collector

variable {x : Collector ι} {l : Limits}

variable {vs' : VersionSet ι} {w' : Surroundings}

theorem Traced.sameVersions (h : x.Traced) (hsame : x.vs.SameVersions vs') :
    Traced { x with vs := vs', world := w' } := by
  refine ⟨h.distinct, ?_, ?_⟩
  · exact hsame.current ▸ h.gone
  · exact hsame.pendingDeletions ▸ h.pending

theorem Traced.pass (h : x.Traced) (hpass : Pass config l x.vs vs' x.world w') :
    Traced { x with vs := vs', world := w' } := by
  refine ⟨h.distinct, ?_, ?_⟩
  · exact hpass.current ▸ h.gone
  · have hends := hpass.ends
    simp only
    generalize vs'.pendingDeletions = pending', w'.handed = handed' at hends ⊢
    cases hends with
    | idle => exact h.pending
    | kept => exact h.pending
    | @handed referenced w₁ e hview hinUse hreplicas hfiles hfailed hfails =>
      intro p hp
      rcases mem_append.1 hp with hp | hp
      · exact h.pending p (mem_filter.1 hp).1
      · obtain ⟨f, hf, rfl⟩ := mem_map.1 hp
        obtain ⟨p, hpending, rfl, -⟩ := exists_of_mem_collectable (hfiles ▸ hfailed.subset hf)
        obtain ⟨q, hq, hfile, -⟩ := h.pending p hpending
        exact ⟨q, hq, hfile, .inr rfl⟩

theorem Traced.publish (h : x.Traced) (hsound : x.Sound) (id : ι) {edit : VersionEdit}
    {queued : List PendingDeletion} (hvalid : ValidEdit x.used x.vs.current edit)
    (hqueued : queued.map PendingDeletion.file =
      queuedFiles x.vs.current (edit.added.map FileMetadata.fileNumber) edit.deleted)
    (w' : Surroundings) :
    Traced ⟨x.vs.committed id edit queued, w', x.removed ++ queued,
      x.used ++ edit.added.map FileMetadata.fileNumber⟩ := by
  have hbase := fun {q} => gone_of_queued hvalid hsound.oneLevel hqueued (q := q)
  constructor
  case distinct =>
    rw [map_append]
    refine nodup_append.2 ⟨h.distinct, nodup_queued hvalid hqueued, ?_⟩
    intro n hn n' hn' heq
    subst heq
    obtain ⟨p, hp, rfl⟩ := mem_map.1 hn
    obtain ⟨q, hq, hsame⟩ := mem_map.1 hn'
    exact (h.gone p hp).2 (hsame ▸ (hbase hq).1)
  case gone =>
    intro q hq
    rcases mem_append.1 hq with hq | hq
    · obtain ⟨hused, hgone⟩ := h.gone q hq
      exact ⟨mem_append_left _ hused, hvalid.not_mem_apply hused hgone⟩
    · exact ⟨mem_append_left _ (hsound.known _ (hbase hq).1), (hbase hq).2⟩
  case pending =>
    intro p hp
    rcases mem_append.1 hp with hp | hp
    · obtain ⟨q, hq, hfrom⟩ := h.pending p hp
      exact ⟨q, mem_append_left _ hq, hfrom⟩
    · exact ⟨p, mem_append_right _ hp, rfl, .inl rfl⟩

theorem Retains.drift (h : x.Retains config) (hsound : x.Sound) (htraced : x.Traced)
    (hdrift : Drift x.world w') (vs' : VersionSet ι) :
    Retains config { x with vs := vs', world := w' } := by
  refine ⟨fun q hq r hr hmem => ?_, ?_⟩
  · rcases hdrift.replicas r hr with hr | hr
    · exact h.replicas q hq r hr hmem
    · rw [hr, ← hsound.current] at hmem
      exact absurd hmem (htraced.gone q hq).2
  · simp only
    rw [hdrift.handed]
    exact h.handed

theorem Retains.publish (h : x.Retains config) (vs' : VersionSet ι) {queued : List PendingDeletion}
    (hremoves : (timely config).removes queued x.world) (version : Version) (used : List ℕ) :
    Retains config ⟨vs', x.world.publish version, x.removed ++ queued, used⟩ := by
  refine ⟨fun q hq => ?_, fun e he f hf => ?_⟩
  · rcases mem_append.1 hq with hq | hq
    · exact h.replicas q hq
    · exact hremoves q hq
  · obtain ⟨q, hq, hhanded⟩ := h.handed e he f hf
    exact ⟨q, mem_append_left _ hq, hhanded⟩

theorem Retains.pass (h : x.Retains config) (hsound : x.Sound) (htraced : x.Traced)
    (hpass : Pass config ((timely config).limits x.removed x.vs.pendingDeletions) x.vs vs'
      x.world w') : Retains config { x with vs := vs', world := w' } := by
  have hreplicas : ∀ q ∈ x.removed, ∀ r : Replica,
      r ∈ x.world.replicas ∨ r.version = x.world.published →
      q.file.fileNumber ∈ r.version.fileNumbers → r.refreshedAt ≤ q.unreferencedSinceMs := by
    rintro q hq r (hr | hr) hmem
    · exact h.replicas q hq r hr hmem
    · rw [hr, ← hsound.current] at hmem
      exact absurd hmem (htraced.gone q hq).2
  refine ⟨fun q hq r hr => hreplicas q hq r (hpass.replicas r hr), ?_⟩
  have hends := hpass.ends
  simp only
  generalize vs'.pendingDeletions = pending', w'.handed = handed' at hends ⊢
  cases hends with
  | idle => exact h.handed
  | kept => exact h.handed
  | @handed referenced w₁ e hview hinUse hothers hfiles hfailed hfails =>
    intro e' he' f hf
    rcases mem_append.1 he' with he' | he'
    · exact h.handed e' he' f hf
    obtain rfl := mem_singleton.1 he'
    obtain ⟨p, hp, rfl, hkeep⟩ := exists_of_mem_collectable (hfiles ▸ hf)
    obtain ⟨q, hq, hfile, hsince⟩ := htraced.pending p hp
    have hunused : ∀ v ∈ w₁.inUse, p.file.fileNumber ∉ v.fileNumbers := by
      intro v hv hmem
      simp [keeps, hview.inUse v hv _ hmem] at hkeep
    have hwindow := out_of_window (hview.reads p hp q hq hfile hunused) hsince hkeep
    refine ⟨q, hq, hfile, hwindow, fun r hr hmem => ?_⟩
    have hrefresh := hreplicas q hq r (hothers r hr) (hfile ▸ hmem)
    omega

end Collector

variable {vs₀ : VersionSet ι} {w₀ : Surroundings} {x : Collector ι}

theorem CollectorRun.traced {g : Guard} (hopened : Opened vs₀ w₀)
    (hrun : CollectorRun config g vs₀ w₀ x) : x.Traced := by
  induction hrun with
  | opened =>
    refine ⟨nodup_nil, nofun, ?_⟩
    simp only
    rw [hopened.pending]
    nofun
  | readers hrun h ih => exact ih.sameVersions .rfl
  | other hrun h ih => exact ih.sameVersions h
  | collected hrun h ih =>
    exact ih.pass (collectObsoleteLocked_pass (hrun.sound hopened).tracked h)
  | @refused x id edit status vs' w' seen hrun h ih =>
    exact ih.sameVersions (h.result (x.vs.prepareEdit_only config id edit))
  | @applied x id edit entry written queued w₁ seen status vs' w' seen' hrun hvalid h hremoves
      hrest ih =>
    obtain ⟨hadded, happlied⟩ := appliedEdit (hrun.sound hopened) hvalid h hrest
    obtain ⟨noted, w₂, hsame, -, hpass⟩ := happlied.passed
    have hpublished := ih.publish (hrun.sound hopened) id happlied.valid happlied.queues w₂
    rw [← hadded]
    exact (hpublished.sameVersions hsame).pass hpass

theorem CollectorRun.retains (hopened : Opened vs₀ w₀)
    (hrun : CollectorRun config (timely config) vs₀ w₀ x) : x.Retains config := by
  induction hrun with
  | opened =>
    refine ⟨nofun, ?_⟩
    simp only
    rw [hopened.handed]
    nofun
  | @readers x w' hrun h ih =>
    exact ih.drift (hrun.sound hopened) (hrun.traced hopened) h.drift x.vs
  | other hrun h ih => exact ⟨ih.replicas, ih.handed⟩
  | collected hrun h ih =>
    have hsound := hrun.sound hopened
    exact ih.pass hsound (hrun.traced hopened) (collectObsoleteLocked_pass hsound.tracked h)
  | @refused x id edit status vs' w' seen hrun h ih =>
    exact ih.drift (hrun.sound hopened) (hrun.traced hopened)
      (drift_of_among (x.vs.prepareEdit_only config id edit) h) vs'
  | @applied x id edit entry written queued w₁ seen status vs' w' seen' hrun hvalid h hremoves
      hrest ih =>
    have hsound := hrun.sound hopened
    have htraced := hrun.traced hopened
    obtain ⟨hadded, happlied⟩ := appliedEdit hsound hvalid h hrest
    obtain ⟨noted, w₂, hsame, hdrift, hpass⟩ := happlied.passed
    have hsound₁ := hsound.published happlied (x.removed ++ queued)
    have htraced₁ := htraced.publish hsound id happlied.valid happlied.queues
      (w₁.publish (x.vs.current.apply written))
    have hretains₁ := (ih.drift hsound htraced happlied.before x.vs).publish
      (x.vs.committed id written queued) hremoves (x.vs.current.apply written)
      (x.used ++ written.added.map FileMetadata.fileNumber)
    have hpending : x.vs.pendingDeletions ++ queued = noted.pendingDeletions :=
      hsame.pendingDeletions.symm
    rw [hpending] at hpass
    rw [← hadded]
    exact (hretains₁.drift hsound₁ htraced₁ hdrift noted).pass
      ((hsound₁.drift hdrift).sameVersions hsame) (htraced₁.sameVersions hsame) hpass

theorem handed_too_early {g : Guard} (hopened : Opened vs₀ w₀)
    (hrun : CollectorRun config g vs₀ w₀ x) (hdeletes : config.deletes = true) {now : ℕ}
    {p q : PendingDeletion} (hp : p ∈ x.vs.pendingDeletions) (hq : q ∈ x.removed)
    (hfile : q.file = p.file) (hunused : ∀ v ∈ x.world.inUse, p.file.fileNumber ∉ v.fileNumbers)
    (htime : ¬ p.InTime config q.unreferencedSinceMs now) {vs' : VersionSet ι} {w' : Surroundings}
    {seen : List Surroundings}
    (hpass : (x.vs.collectObsolete config).Among ({ reads := fun _ r => r = now } : Limits).Reply
      ReadersMove x.world vs' seen w') :
    ∃ e ∈ w'.handed, p.file ∈ e.files ∧
      e.now < q.unreferencedSinceMs + config.obsoleteRetentionMs := by
  have htraced := hrun.traced hopened
  have hsince : p.unreferencedSinceMs = q.unreferencedSinceMs ∨ p.unreferencedSinceMs = 0 := by
    obtain ⟨q', hq', hfile', hsince⟩ := htraced.pending p hp
    have hsame : q' = q := inj_on_of_nodup_map htraced.distinct hq' hq (by rw [hfile, hfile'])
    exact hsame ▸ hsince
  have hearly : ∀ {referenced : List ℕ} {now' : ℕ} {w₁ : Surroundings},
      View { reads := fun _ r => r = now } x.world referenced now' w₁ → now' = now ∧
      keeps config referenced now' p = false ∧
        now' < q.unreferencedSinceMs + config.obsoleteRetentionMs := by
    intro referenced now' w₁ hview
    obtain rfl : now' = now := hview.reads
    refine ⟨rfl, not_keeps_of_not_inTime (fun hmem => ?_) htime hsince⟩
    obtain ⟨v, hv, hn⟩ := hview.referenced _ hmem
    exact hunused v hv hn
  have hends :=
    (collectObsoleteLocked_pass (hrun.sound hopened).tracked hpass).ends
  generalize vs'.pendingDeletions = pending', w'.handed = handed' at hends ⊢
  cases hends with
  | idle hidle =>
    rcases hidle with hidle | hidle
    · rw [hdeletes] at hidle
      cases hidle
    · rw [hidle] at hp
      cases hp
  | kept hview hkept =>
    exact absurd ((hearly hview).2.1.symm.trans (hkept p hp)) Bool.false_ne_true
  | @handed referenced w₁ e hview hinUse hothers hfiles hfailed hfails =>
    obtain ⟨-, hkeep, hwindow⟩ := hearly hview
    refine ⟨e, mem_append_right _ (mem_singleton_self e), ?_, hwindow⟩
    rw [hfiles]
    exact mem_map_of_mem (mem_filter.2 ⟨hp, by rw [hkeep]; rfl⟩)

/-- Under `timely` an object is handed out at least `R` after its removal and every refresh of a
replica that has it; a pass out of time hands it out too early. -/
theorem retention_holds_when_timely {vs₀ : VersionSet ι} {w₀ : Surroundings}
    (hopened : Opened vs₀ w₀) :
    (∀ x, CollectorRun config (timely config) vs₀ w₀ x →
      ∀ e ∈ x.world.handed, ∀ f ∈ e.files,
        (∀ q ∈ x.removed, q.file.fileNumber = f.fileNumber →
          q.unreferencedSinceMs + config.obsoleteRetentionMs ≤ e.now) ∧
        ∀ r ∈ e.replicas, f.fileNumber ∈ r.version.fileNumbers →
          r.refreshedAt + config.obsoleteRetentionMs ≤ e.now) ∧
    (∀ x, CollectorRun config {} vs₀ w₀ x → config.deletes = true →
      ∀ p ∈ x.vs.pendingDeletions, ∀ q ∈ x.removed, q.file = p.file →
        (∀ v ∈ x.world.inUse, p.file.fileNumber ∉ v.fileNumbers) → ∀ now,
        ¬ p.InTime config q.unreferencedSinceMs now → ∀ vs' w' seen,
        (x.vs.collectObsolete config).Among ({ reads := fun _ r => r = now } : Limits).Reply
          ReadersMove x.world vs' seen w' →
        ∃ e ∈ w'.handed, p.file ∈ e.files ∧
          e.now < q.unreferencedSinceMs + config.obsoleteRetentionMs) := by
  refine ⟨fun x hrun e he f hf => ?_, ?_⟩
  · obtain ⟨q, hq, rfl, hwindow, hreplicas⟩ := (hrun.retains hopened).handed e he f hf
    refine ⟨fun q' hq' hn => ?_, hreplicas⟩
    rw [inj_on_of_nodup_map (hrun.traced hopened).distinct hq' hq hn]
    exact hwindow
  · intro x hrun hdeletes p hp q hq hfile hunused now htime vs' w' seen hpass
    exact handed_too_early hopened hrun hdeletes hp hq hfile hunused htime hpass

end Runs

/-! A file is removed at reading 1000 with a window of 100; the clock steps back to 500 or goes on
to 1100 before the next pass. -/

/-- A window of 100. -/
def windowConfig : ManifestConfig := { plainConfig 4 with obsoleteRetentionMs := 100 }

/-- A replica of file 1, refreshed at 950. -/
def watchedWorld : Surroundings :=
  { published := versionOf 1, replicas := [⟨versionOf 1, 950⟩] }

/-- File 1 is removed at 1000. -/
def removedAt1000 : Collector ℕ :=
  Collector.apply windowConfig 1000 [] 1 replacement
    ⟨openedSet, watchedWorld, [], (versionOf 1).fileNumbers⟩

theorem opened_watchedWorld : Opened openedSet watchedWorld :=
  ⟨rfl, by decide +kernel, oneLevel_versionOf 1, rfl, rfl⟩

/-- The preparation of that edit. -/
def preparedAt1000 := (openedSet.prepareEdit windowConfig 1 replacement).run
  (Surroundings.answer 1000 []) watchedWorld

/-- What it queues. -/
def queuedAt1000 : List PendingDeletion :=
  match preparedAt1000.1 with
  | .error _ => []
  | .ok (_, _, queued) => queued

theorem timely_removedAt1000 :
    CollectorRun windowConfig (timely windowConfig) openedSet watchedWorld removedAt1000 := by
  refine CollectorRun.opened.apply 1000 [] 1 valid_replacement ?_
  intro entry written queued w₁ hprepare
  have hprepared : preparedAt1000 = (.ok (entry, written, queued), w₁) := hprepare
  have hqueued : queued = queuedAt1000 := by rw [queuedAt1000, hprepared]
  have hworld : w₁ = preparedAt1000.2 := by rw [hprepared]
  subst hqueued hworld
  refine ⟨?_, fun w => ?_, fun _ => trivial⟩
  · have hcheck : ∀ q ∈ queuedAt1000, ∀ r ∈ preparedAt1000.2.replicas,
        q.file.fileNumber ∈ r.version.fileNumbers → r.refreshedAt ≤ q.unreferencedSinceMs := by
      decide +kernel
    exact hcheck
  · have hcheck : ∀ p ∈ openedSet.pendingDeletions ++ queuedAt1000, ∀ q ∈ [] ++ queuedAt1000,
        p.InTime windowConfig q.unreferencedSinceMs 1000 := by decide +kernel
    exact fun p hp q hq _ _ => hcheck p hp q hq

theorem retention_kept_at_1100 :
    CollectorRun windowConfig (timely windowConfig) openedSet watchedWorld
      (removedAt1000.collect windowConfig 1100 []) ∧
    ∃ e ∈ (removedAt1000.collect windowConfig 1100 []).world.handed, ∃ f ∈ e.files,
      f.fileNumber = 1 ∧ ∀ q ∈ (removedAt1000.collect windowConfig 1100 []).removed,
        q.file.fileNumber = f.fileNumber →
          q.unreferencedSinceMs + windowConfig.obsoleteRetentionMs ≤ e.now := by
  have hcheck : ∀ p ∈ removedAt1000.vs.pendingDeletions, ∀ q ∈ removedAt1000.removed,
      p.InTime windowConfig q.unreferencedSinceMs 1100 := by decide +kernel
  have hrun := timely_removedAt1000.collect 1100 [] (fun _ p hp q hq _ _ => hcheck p hp q hq)
    fun _ => trivial
  have hhanded : ∃ e ∈ (removedAt1000.collect windowConfig 1100 []).world.handed, ∃ f ∈ e.files,
      f.fileNumber = 1 := by decide +kernel
  obtain ⟨e, he, f, hf, hn⟩ := hhanded
  obtain ⟨hwindow, -⟩ := (retention_holds_when_timely opened_watchedWorld).1 _ hrun e he f hf
  exact ⟨hrun, e, he, f, hf, hn, hwindow⟩

theorem handed_out_after_step_back :
    CollectorRun windowConfig {} openedSet watchedWorld (removedAt1000.collect windowConfig 500 []) ∧
    ∃ e ∈ (removedAt1000.collect windowConfig 500 []).world.handed, ∃ f ∈ e.files,
      ∃ q ∈ (removedAt1000.collect windowConfig 500 []).removed, q.file = f ∧
        e.now < q.unreferencedSinceMs + windowConfig.obsoleteRetentionMs ∧
        ∃ r ∈ e.replicas, f.fileNumber ∈ r.version.fileNumbers ∧
          e.now < r.refreshedAt + windowConfig.obsoleteRetentionMs := by
  have hremoved : CollectorRun windowConfig {} openedSet watchedWorld removedAt1000 :=
    CollectorRun.opened.apply 1000 [] 1 valid_replacement fun _ _ _ _ _ =>
      ⟨trivial, fun _ => trivial, fun _ => trivial⟩
  exact ⟨hremoved.collect 500 [] (fun _ => trivial) fun _ => trivial, by decide +kernel⟩

end ElysiumKV
