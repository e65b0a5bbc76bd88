import ElysiumKV.DurabilityGauge
import ElysiumKV.Scan
import Mathlib.Logic.Relation

/-!
# What an open may drop

Files of whole transient stores that lack one, each store in an edit of its own; the open may be
refused or crash in between (`passes`). The floor in the manifest stays at or below what the dropped
files allow, until a recovery is declared complete.
-/

namespace ElysiumKV

open Opening

open List

namespace Opening

/-! ### The states of an attempt -/

/-- The states `discardStores` goes through. -/
def discardsPass (tiers : ResolvedTiers) (readOnly : Bool) : List Bytes → Opening → List Opening
  | [], x => [x]
  | storeId :: stores, x =>
    x :: if readOnly then []
      else if tiers.storeIsDiscardable storeId then
        discardsPass tiers readOnly stores (x.discard storeId)
      else []

/-- The states `verifyStoresAndDiscard` goes through. -/
def passes (tiers : ResolvedTiers) (readOnly : Bool) (listing : Listing) (x : Opening) :
    List Opening :=
  match observeStores listing tiers.stores x.nextFileNumber with
  | .error _ => [x]
  | .ok next =>
    match x.version.allFiles.find? fun f => f.storeId ∉ tiers.stores with
    | some _ => [x]
    | none =>
      discardsPass tiers readOnly (storesOf (x.version.missingFiles listing))
        { x with nextFileNumber := next }

/-- The state an open ends in. -/
def ending : Except (OpenFault × Opening) Opening → Opening
  | .error (_, x) => x
  | .ok x => x

/-- The version of the manifest. -/
def start (v : Version) : Opening := { version := v, nextFileNumber := v.nextFileNumber }

variable {tiers : ResolvedTiers} {readOnly : Bool} {listing : Listing} {v : Version}

theorem ending_mem_discardsPass (missing : List FileMetadata) (stores : List Bytes) (x : Opening) :
    ending (discardStores tiers readOnly missing stores x) ∈
      discardsPass tiers readOnly stores x := by
  induction stores generalizing x with
  | nil => exact .head _
  | cons s stores ih =>
    rw [discardStores, discardsPass]
    split_ifs
    · exact .head _
    · exact .tail _ (ih _)
    · exact .head _

theorem ending_mem_passes (x : Opening) :
    ending (verifyStoresAndDiscard tiers readOnly listing x) ∈
      passes tiers readOnly listing x := by
  unfold verifyStoresAndDiscard passes
  cases observeStores listing tiers.stores x.nextFileNumber with
  | error fault => exact .head _
  | ok next =>
    cases x.version.allFiles.find? fun f => f.storeId ∉ tiers.stores with
    | some file => exact .head _
    | none => exact ending_mem_discardsPass ..

variable {stores : List Bytes}

theorem mem_discardsPass {x y : Opening} (h : y ∈ discardsPass tiers readOnly stores x) :
    ∃ done, done <+: stores ∧ (∀ s ∈ done, tiers.storeIsDiscardable s = true) ∧
      y = done.foldl discard x := by
  induction stores generalizing x with
  | nil => exact ⟨[], nil_prefix, by simp, mem_singleton.1 h⟩
  | cons s stores ih =>
    rw [discardsPass] at h
    rcases mem_cons.1 h with rfl | h
    · exact ⟨[], nil_prefix, by simp, rfl⟩
    · split_ifs at h with hreader hs
      · cases h
      · obtain ⟨done, hdone, hall, rfl⟩ := ih h
        exact ⟨s :: done, (prefix_cons_inj s).2 hdone, by simpa [hs] using hall, rfl⟩
      · cases h

/-! ### What an attempt has dropped -/

theorem observeStores_listed {next n : ℕ} (h : observeStores listing stores next = .ok n) :
    ∀ s ∈ stores, ∃ names, listing s = .ok names := by
  induction stores generalizing next with
  | nil => simp
  | cons s stores ih =>
    unfold observeStores at h
    split at h
    · cases h
    · next names hnames =>
      intro t ht
      rcases mem_cons.1 ht with rfl | ht
      · exact ⟨names, hnames⟩
      · exact ih h t ht

/-- Its tiers are transient, it was listed, and the listing lacks one of its files. -/
def Droppable (tiers : ResolvedTiers) (listing : Listing) (v : Version) (storeId : Bytes) : Prop :=
  (∀ tier ∈ tiers.tiers, tier.storeId = storeId → tier.durability = .transient) ∧
    ∃ names, listing storeId = .ok names ∧
      ∃ f ∈ v.allFiles, f.storeId = storeId ∧ sstObjectName f.fileNumber ∉ names

variable {storeId : Bytes}

theorem durability_of_storeIsDiscardable (h : tiers.storeIsDiscardable storeId = true) :
    ∀ tier ∈ tiers.tiers, tier.storeId = storeId → tier.durability = .transient := by
  simp only [ResolvedTiers.storeIsDiscardable, Bool.and_eq_true, all_eq_true,
    decide_eq_true_eq] at h
  exact h.2

theorem discarded_of_mem_passes (hv : v.Numbered) {y : Opening}
    (hy : y ∈ passes tiers readOnly listing (start v)) :
    ∃ dropped, Discarded v dropped y ∧ ∀ s ∈ dropped, Droppable tiers listing v s := by
  have hnone : ∃ dropped, Discarded v dropped (start v) ∧
      ∀ s ∈ dropped, Droppable tiers listing v s :=
    ⟨[], discarded_nil hv _, by simp⟩
  unfold passes at hy
  split at hy
  · rwa [mem_singleton.1 hy]
  · next next hnext =>
    split at hy
    · rwa [mem_singleton.1 hy]
    · next hfind =>
      have hconfigured : ∀ f ∈ v.allFiles, f.storeId ∈ tiers.stores := by
        simpa [start] using hfind
      obtain ⟨done, hdone, hall, rfl⟩ := mem_discardsPass hy
      have hmissing : ∀ s ∈ done, ∃ f ∈ v.missingFiles listing, f.storeId = s :=
        fun s hs => mem_storesOf.1 (hdone.subset hs)
      refine ⟨done, ?_, fun s hs => ⟨durability_of_storeIsDiscardable (hall s hs), ?_⟩⟩
      · refine (discarded_nil hv next).foldl ((nodup_storesOf _).sublist hdone.sublist) ?_
        intro s hs
        obtain ⟨f, hf, hstore⟩ := hmissing s hs
        exact ⟨f, mem_of_mem_filter hf, hstore⟩
      · obtain ⟨f, hf, rfl⟩ := hmissing s hs
        obtain ⟨hfile, hnot⟩ := mem_filter.1 hf
        obtain ⟨names, hnames⟩ := observeStores_listed hnext _ (hconfigured f hfile)
        refine ⟨names, hnames, f, hfile, rfl, ?_⟩
        simpa [Listing.holds, hnames] using hnot

theorem verifyStoresAndDiscard_of_unlisted {status : Status} (hstore : storeId ∈ tiers.stores)
    (hlisting : listing storeId = .error status) (x : Opening) :
    ∃ fault, verifyStoresAndDiscard tiers readOnly listing x = .error (fault, x) := by
  unfold verifyStoresAndDiscard
  cases hnext : observeStores listing tiers.stores x.nextFileNumber with
  | error fault => exact ⟨fault, rfl⟩
  | ok next =>
    obtain ⟨names, hnames⟩ := observeStores_listed hnext storeId hstore
    rw [hlisting] at hnames
    cases hnames

theorem discardStores_of_durable {missing : List FileMetadata} (hmem : storeId ∈ stores)
    (hnot : tiers.storeIsDiscardable storeId ≠ true) (x : Opening) :
    ∃ e, discardStores tiers readOnly missing stores x = .error e := by
  induction stores generalizing x with
  | nil => cases hmem
  | cons s stores ih =>
    rw [discardStores]
    split_ifs with hreader hs
    · exact ⟨_, rfl⟩
    · rcases mem_cons.1 hmem with rfl | hmem
      · exact absurd hs hnot
      · exact ih hmem _
    · exact ⟨_, rfl⟩

theorem verifyStoresAndDiscard_of_missing {tier : Tier} (htier : tier ∈ tiers.tiers)
    (hdurable : tier.durability = .durable) {f : FileMetadata} {x : Opening}
    (hf : f ∈ x.version.allFiles) (hstore : f.storeId = tier.storeId)
    (hmissing : listing.holds f = false) :
    ∃ e, verifyStoresAndDiscard tiers readOnly listing x = .error e := by
  unfold verifyStoresAndDiscard
  split
  · exact ⟨_, rfl⟩
  · split
    · exact ⟨_, rfl⟩
    · have hlost : f ∈ x.version.missingFiles listing :=
        mem_filter.2 ⟨hf, by simp [hmissing]⟩
      refine discardStores_of_durable (mem_storesOf.2 ⟨f, hlost, rfl⟩) (fun hs => ?_) _
      have := durability_of_storeIsDiscardable hs tier htier hstore.symm
      rw [hdurable] at this
      cases this

end Opening

/-! ### The floor -/

/-- There is a floor, at or below the bound. -/
def Version.FloorAtOrBelow (v : Version) (bound : Option ℕ) : Prop :=
  ∃ floor ∈ v.watermarkFloor, AtOrBelow floor.position bound

/-- The floor has not risen. -/
def Version.FloorKept (v v' : Version) : Prop :=
  ∀ floor ∈ v.watermarkFloor, v'.FloorAtOrBelow floor.position

namespace Version

variable {v v' v'' : Version} {bound : Option ℕ}

theorem FloorKept.refl (v : Version) : v.FloorKept v :=
  fun floor h => ⟨floor, h, atOrBelow_self _⟩

theorem FloorAtOrBelow.kept (h : v.FloorAtOrBelow bound) (hkept : v.FloorKept v') :
    v'.FloorAtOrBelow bound := by
  obtain ⟨floor, hfloor, hbelow⟩ := h
  obtain ⟨floor', hfloor', hbelow'⟩ := hkept floor hfloor
  exact ⟨floor', hfloor', hbelow'.trans hbelow⟩

theorem FloorKept.trans (h : v.FloorKept v') (h' : v'.FloorKept v'') : v.FloorKept v'' :=
  fun floor hfloor => (h floor hfloor).kept h'

end Version

namespace Opening.Discarded

variable {v : Version} {stores : List Bytes} {x : Opening}

theorem floorKept (h : Discarded v stores x) : v.FloorKept x.version := by
  intro floor hfloor
  rw [Option.mem_def] at hfloor
  rw [Version.FloorAtOrBelow, h.floor, hfloor, floorAfter]
  split_ifs
  · refine ⟨_, rfl, ?_⟩
    rw [Option.getD_some, lowerTo_eq]
    exact (atOrBelow_lowest ..).2 (.inl (atOrBelow_self _))
  · exact ⟨floor, rfl, atOrBelow_self _⟩

theorem floorAtOrBelow (h : Discarded v stores x) {f : FileMetadata} (hf : f ∈ v.allFiles)
    (hgone : f ∉ x.version.allFiles) : x.version.FloorAtOrBelow f.watermark.low := by
  have hstore : f.storeId ∈ stores := by
    by_contra hstore
    exact hgone (h.files.mem_iff.2 (mem_filter.2 ⟨hf, decide_eq_true hstore⟩))
  have hlost : f.watermark ∈
      (v.allFiles.filter fun f => f.storeId ∈ stores).map FileMetadata.watermark :=
    mem_map_of_mem (mem_filter.2 ⟨hf, decide_eq_true hstore⟩)
  have hbound := (RecoveryWatermark.atOrBelow_foldl (ne_nil_of_mem hlost) _).2
    ⟨_, hlost, atOrBelow_self _⟩
  have hany := RecoveryWatermark.bounded_foldl {} (ne_nil_of_mem hlost)
  rw [← h.recovery] at hbound hany
  rw [Version.FloorAtOrBelow, h.floor, floorAfter, if_pos hany.discarded]
  refine ⟨_, rfl, ?_⟩
  rw [lowerTo_eq]
  exact (atOrBelow_lowest ..).2 (.inr hbound)

end Opening.Discarded

/-! ### Losses, crashes and reopens -/

/-- The manifest's version, and every file an open dropped. -/
structure Losses where
  version : Version
  dropped : List FileMetadata := []

namespace Losses

/-- An operation commits an edit silent about the floor, or an open goes as far as one of its
states; tiers and listings may differ from open to open. -/
inductive Step : Losses → Losses → Prop
  | edited (s : Losses) (edit : VersionEdit) (hsilent : edit.floorUpdate = .silent)
      (hnumbered : (s.version.apply edit).Numbered) :
      Step s { s with version := s.version.apply edit }
  | attempted (s : Losses) (tiers : ResolvedTiers) (readOnly : Bool) (listing : Listing)
      (x : Opening) (hx : x ∈ passes tiers readOnly listing (start s.version)) :
      Step s
        { version := x.version
          dropped := s.dropped ++ s.version.allFiles.filter (· ∉ x.version.allFiles) }

/-- The floor is at or below every dropped low. -/
structure Bounded (s : Losses) : Prop where
  numbered : s.version.Numbered
  below : ∀ f ∈ s.dropped, s.version.FloorAtOrBelow f.watermark.low

variable {s t : Losses}

theorem Step.floorKept (hs : s.version.Numbered) (h : Step s t) :
    s.version.FloorKept t.version := by
  cases h with
  | edited edit hsilent hnumbered =>
    intro floor hfloor
    refine ⟨floor, ?_, atOrBelow_self _⟩
    simpa [Version.apply, hsilent] using hfloor
  | attempted tiers readOnly listing x hx =>
    obtain ⟨dropped, hdiscarded, -⟩ := discarded_of_mem_passes hs hx
    exact hdiscarded.floorKept

theorem Step.bounded (hs : s.Bounded) (h : Step s t) : t.Bounded := by
  have hkept := h.floorKept hs.numbered
  cases h with
  | edited edit hsilent hnumbered =>
    exact ⟨hnumbered, fun f hf => (hs.below f hf).kept hkept⟩
  | attempted tiers readOnly listing x hx =>
    obtain ⟨dropped, hdiscarded, -⟩ := discarded_of_mem_passes hs.numbered hx
    refine ⟨hdiscarded.numbered, fun f hf => ?_⟩
    rcases mem_append.1 hf with hf | hf
    · exact (hs.below f hf).kept hkept
    · obtain ⟨hfile, hgone⟩ := mem_filter.1 hf
      exact hdiscarded.floorAtOrBelow hfile (of_decide_eq_true hgone)

/-- Through any losses, crashes and reopens. -/
def Later : Losses → Losses → Prop := Relation.ReflTransGen Step

theorem Later.bounded (hs : s.Bounded) (h : Later s t) :
    t.Bounded ∧ s.version.FloorKept t.version := by
  induction h with
  | refl => exact ⟨hs, .refl _⟩
  | tail _ hstep ih => exact ⟨hstep.bounded ih.1, ih.2.trans (hstep.floorKept ih.1.numbered)⟩

end Losses

/-! ### Losses are handled conservatively -/

namespace Db

/-- Lookups and scans are refused, and recovery is required. -/
def RefusesReads (options : Options) (db : Db) : Prop :=
  db.requiresRecovery = true ∧ (∀ k, db.get options k = .error .recoveryRequired) ∧
    ∀ faults lower upper reverse,
      db.iteratorUnder options faults lower upper reverse = ([], .recoveryRequired)

theorem refusesReads_iff {options : Options} (hoff : options.allowReadsBeforeRecovery = false)
    (db : Db) : db.RefusesReads options ↔ db.requiresRecovery = true := by
  refine ⟨And.left, fun hrequired => ?_⟩
  have hblocked : db.readsAreBlocked options = true := by simp [readsAreBlocked, hoff, hrequired]
  refine ⟨hrequired, fun k => by simp [Db.get, hblocked], fun faults lower upper reverse => ?_⟩
  simp [iteratorUnder, scan, scanWith, hblocked]

end Db

namespace Opening

theorem requiresRecovery_foldl_discard (stores : List Bytes) {x : Opening}
    (h : x.requiresRecovery = decide (x.discardedStores ≠ [])) :
    (stores.foldl discard x).requiresRecovery =
      decide ((stores.foldl discard x).discardedStores ≠ []) := by
  induction stores generalizing x with
  | nil => exact h
  | cons s stores ih => exact ih (by simp [discard])

theorem requiresRecovery_recover {tiers : ResolvedTiers} {listing : Listing} {v : Version}
    {x : Opening} (h : recover tiers false listing v = .ok x) :
    x.requiresRecovery = decide (x.discardedStores ≠ []) := by
  obtain ⟨next, -, -, -, rfl⟩ := recover_eq_ok.1 h
  exact requiresRecovery_foldl_discard _ rfl

theorem verifyStoresAndDiscard_reader {tiers : ResolvedTiers} {listing : Listing} {x y : Opening}
    (h : verifyStoresAndDiscard tiers true listing x = .ok y) :
    y.requiresRecovery = x.requiresRecovery := by
  unfold verifyStoresAndDiscard at h
  split at h
  · cases h
  · split at h
    · cases h
    · simp only at h
      cases hstores : storesOf (x.version.missingFiles listing) with
      | nil =>
        rw [hstores] at h
        cases h
        rfl
      | cons s stores =>
        rw [hstores] at h
        cases h

theorem requiresRecovery_reader {tiers : ResolvedTiers} {listing : Listing} {v : Version}
    {x : Opening} (h : recover tiers true listing v = .ok x) : x.requiresRecovery = false := by
  unfold recover at h
  cases hy : verifyStoresAndDiscard tiers true listing (start v) with
  | error e =>
    rw [start] at hy
    rw [hy] at h
    cases h
  | ok y =>
    rw [start] at hy
    rw [hy] at h
    cases h
    exact verifyStoresAndDiscard_reader hy

end Opening

/-- A store and the writer that has it open, if any. `dropped`: its open dropped a store, and no
`mark_recovery_complete` came since. `pending`: from such an open to the next such call that
succeeds. -/
structure Replay where
  db : Db := {}
  isOpen : Bool := true
  dropped : Bool := false
  pending : Bool := false

namespace Replay

/-- Operations and watermarks; opens, also ones cut short, with losses; `mark_recovery_complete`,
its edit accepted or refused after the flag is cleared. -/
inductive Step : Replay → Replay → Prop
  | did (s : Replay) (options : Options) (env : WriteEnv) (op : Op) (hopen : s.isOpen = true)
      (henabled : op.Enabled Compaction.Drawn s.db) :
      Step s { s with db := (op.run options env s.db).2 }
  | watermarked (s : Replay) (position : ℕ) (hopen : s.isOpen = true) :
      Step s { s with db := (s.db.setWatermark position).2 }
  | opened (s : Replay) (tiers : ResolvedTiers) (lost : Bytes → Bool) (listing : Listing)
      (x : Opening) (nowMs : ℕ) (hlists : (s.db.lose lost).Lists listing)
      (hx : recover tiers false listing s.db.version = .ok x) :
      Step s
        { db := (s.db.lose lost).reopened x nowMs
          dropped := x.discardedStores ≠ []
          pending := s.pending || x.discardedStores ≠ [] }
  | stopped (s : Replay) (tiers : ResolvedTiers) (lost : Bytes → Bool) (listing : Listing)
      (x : Opening) (hlists : (s.db.lose lost).Lists listing)
      (hx : x ∈ passes tiers false listing (start s.db.version)) :
      Step s
        { db := { s.db.lose lost with version := x.version }
          isOpen := false
          pending := s.pending || x.discardedStores ≠ [] }
  | completed (s : Replay) (hopen : s.isOpen = true) : Step s { db := s.db.markRecoveryComplete }
  | refused (s : Replay) (hopen : s.isOpen = true)
      (hfloor : s.db.version.watermarkFloor.isSome = true) :
      Step s { s with db := { s.db with requiresRecovery := false }, dropped := false }

/-- Any number of steps. -/
def Later : Replay → Replay → Prop := Relation.ReflTransGen Step

variable {s t : Replay}

theorem Step.requiresRecovery_eq (h : Step s t)
    (hs : s.isOpen = true → s.db.requiresRecovery = s.dropped) :
    t.isOpen = true → t.db.requiresRecovery = t.dropped := by
  intro hopen
  cases h with
  | did options env op _ henabled =>
    have hedits : Db.Edits (fun _ => True) s.db (op.run options env s.db).2 :=
      Db.edits_run (fun _ => trivial) (fun _ _ _ => trivial) (fun _ _ => id) henabled
        fun _ _ _ => trivial
    exact hedits.requiresRecovery.trans (hs hopen)
  | watermarked position =>
    show (s.db.setWatermark position).2.requiresRecovery = s.dropped
    unfold Db.setWatermark
    split <;> exact hs hopen
  | opened tiers lost listing x nowMs _ hx => exact requiresRecovery_recover hx
  | stopped => cases hopen
  | completed =>
    show s.db.markRecoveryComplete.requiresRecovery = false
    unfold Db.markRecoveryComplete
    simp only
    split_ifs <;> rfl
  | refused => rfl

theorem Later.requiresRecovery_eq (h : Later {} s) (hopen : s.isOpen = true) :
    s.db.requiresRecovery = s.dropped := by
  induction h with
  | refl => rfl
  | tail _ hstep ih => exact hstep.requiresRecovery_eq ih hopen

end Replay

/-- While a loss is pending, a writer refuses reads exactly if its own open dropped a store and no
`mark_recovery_complete` came since; readers never do. -/
theorem reads_refused_iff {options : Options} (hoff : options.allowReadsBeforeRecovery = false)
    {s : Replay} (h : Replay.Later {} s) :
    (s.isOpen = true →
      ((s.pending = true → s.db.RefusesReads options) ↔
        (s.pending = true → s.dropped = true))) ∧
    ∀ (tiers : ResolvedTiers) (listing : Listing) (x : Opening),
      recover tiers true listing s.db.version = .ok x →
      ∀ (nowMs : ℕ) (version : Version) (t : Replay), Replay.Later s t →
        ((t.pending = true → Db.RefusesReads options { s.db.reopened x nowMs with version }) ↔
          t.pending = false) := by
  refine ⟨fun hopen => ?_, fun tiers listing x hx nowMs version t _ => ?_⟩
  · rw [Db.refusesReads_iff hoff, h.requiresRecovery_eq hopen]
  · rw [Db.refusesReads_iff hoff]
    show (t.pending = true → x.requiresRecovery = true) ↔ _
    rw [requiresRecovery_reader hx]
    cases t.pending <;> simp

theorem Life.later {tiers : ResolvedTiers} {options : Options} {db : Db}
    (h : Life Compaction.Drawn tiers options db) :
    ∃ s, Replay.Later {} s ∧ s.db = db ∧ s.isOpen = true := by
  induction h with
  | created => exact ⟨{}, .refl, rfl, rfl⟩
  | did env op _ henabled _ ih =>
    obtain ⟨s, hs, rfl, hopen⟩ := ih
    exact ⟨_, hs.tail (.did s options env op hopen henabled), rfl, hopen⟩
  | watermarked position _ ih =>
    obtain ⟨s, hs, rfl, hopen⟩ := ih
    exact ⟨_, hs.tail (.watermarked s position hopen), rfl, hopen⟩
  | reopened nowMs _ hlists hopen ih =>
    obtain ⟨s, hs, rfl, -⟩ := ih
    exact ⟨_, hs.tail (.opened s tiers _ _ _ nowMs hlists hopen), rfl, rfl⟩
  | completed _ ih =>
    obtain ⟨s, hs, rfl, hopen⟩ := ih
    exact ⟨_, hs.tail (.completed s hopen), rfl, rfl⟩

theorem later_afterFirstLoss :
    Replay.Later {} { db := afterFirstLoss, dropped := true, pending := true } := by
  obtain ⟨s, hs, hdb, -⟩ := twoFiles_life.later
  have hstep := Replay.Step.opened s twoTiers (· = [1]) afterLoss firstOpening 0
    (by rw [hdb]; decide +kernel) (by rw [hdb]; decide +kernel)
  have hdropped : firstOpening.discardedStores ≠ [] := by decide +kernel
  have hlater := hs.tail hstep
  simp only [hdb, hdropped, ne_eq, not_false_eq_true, decide_true, Bool.or_true] at hlater
  exact hlater

/-- The instance that finds the loss refuses reads. -/
theorem reads_refused_afterFirstLoss : afterFirstLoss.RefusesReads plainOptions :=
  ((@reads_refused_iff plainOptions rfl _ later_afterFirstLoss).1 rfl).2 (fun _ => rfl) rfl

/-- After a crash and another open, with the loss pending, the lost key reads as absent. -/
theorem reads_answered_after_crash :
    ∃ s, Replay.Later {} s ∧ s.isOpen = true ∧ s.pending = true ∧
      twoFiles.get plainOptions [1] = .ok [] ∧
      s.db.get plainOptions [1] = .error .notFound := by
  have hstep := Replay.Step.opened { db := afterFirstLoss, dropped := true, pending := true }
    twoTiers (fun _ => false) afterLoss
    ((recover twoTiers false afterLoss afterFirstLoss.version).toOption.getD firstOpening)
    0 (by decide +kernel) (by decide +kernel)
  exact ⟨_, later_afterFirstLoss.tail hstep, rfl, rfl, by decide +kernel, by decide +kernel⟩

end ElysiumKV
