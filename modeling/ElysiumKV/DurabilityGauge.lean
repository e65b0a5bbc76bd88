import ElysiumKV.Lives

/-!
# The durability gauge

`stats().durable_watermark` is meant to be what a reopen would report if every discardable store
were lost now. It folds the files as an open does, but does not look at the floor an earlier loss
left.
-/

namespace ElysiumKV

open List Opening

/-- What `stats` gathers about watermarks over the files. -/
structure Frontier where
  transientLow : Option ℕ := none
  transientLowMissing : Bool := false
  anyTransient : Bool := false
  high : Option ℕ := none

namespace Frontier

/-- One file of the pass. -/
def observe (tiers : ResolvedTiers) (x : Frontier) (file : FileMetadata) : Frontier :=
  let x := { x with high := accumulateMax x.high file.watermark.high }
  if tiers.storeIsDiscardable file.storeId then
    match file.watermark.low with
    | none => { x with anyTransient := true, transientLowMissing := true }
    | some low =>
      { x with anyTransient := true, transientLow := accumulateMin x.transientLow (some low) }
  else x

/-- `durable_watermark`, from what was gathered. -/
def durableWatermark (x : Frontier) : Option ℕ :=
  if x.anyTransient = false then x.high
  else if x.transientLowMissing then none
  else x.transientLow

end Frontier

namespace Version

/-- `stats().durable_watermark`. -/
def durableWatermark (v : Version) (tiers : ResolvedTiers) : Option ℕ :=
  (v.allFiles.foldl (Frontier.observe tiers) {}).durableWatermark

/-- The files on discardable stores. -/
def discardable (v : Version) (tiers : ResolvedTiers) : List FileMetadata :=
  v.allFiles.filter fun f => tiers.storeIsDiscardable f.storeId

/-- The highest `high` of the files. -/
def highest (v : Version) : Option ℕ :=
  v.allFiles.foldl (fun high f => accumulateMax high f.watermark.high) none

/-- What an open learns that drops all of them. -/
def discardsAll (v : Version) (tiers : ResolvedTiers) : RecoveryWatermark :=
  ((v.discardable tiers).map FileMetadata.watermark).foldl .observeDiscarded {}

end Version

theorem foldl_observe (tiers : ResolvedTiers) (files : List FileMetadata) (r : RecoveryWatermark)
    (high : Option ℕ) :
    files.foldl (Frontier.observe tiers)
        ⟨r.discardedLowerBoundSeen, r.discardedLowerBoundAbsent, r.anythingDiscarded, high⟩ =
      let r' := ((files.filter fun f => tiers.storeIsDiscardable f.storeId).map
        FileMetadata.watermark).foldl .observeDiscarded r
      ⟨r'.discardedLowerBoundSeen, r'.discardedLowerBoundAbsent, r'.anythingDiscarded,
        files.foldl (fun high f => accumulateMax high f.watermark.high) high⟩ := by
  induction files generalizing r high with
  | nil => rfl
  | cons f files ih =>
    rw [foldl_cons, filter_cons]
    by_cases hf : tiers.storeIsDiscardable f.storeId = true
    · rw [if_pos hf, map_cons, foldl_cons, foldl_cons, ← ih]
      unfold Frontier.observe RecoveryWatermark.observeDiscarded
      simp only [if_pos hf]
      cases f.watermark.low <;> rfl
    · rw [if_neg hf, foldl_cons, ← ih]
      unfold Frontier.observe
      simp only [if_neg hf]

theorem Version.durableWatermark_eq (v : Version) (tiers : ResolvedTiers) :
    v.durableWatermark tiers =
      if (v.discardsAll tiers).anythingDiscarded then (v.discardsAll tiers).discardedLowerBound
      else v.highest := by
  unfold durableWatermark
  rw [show ({} : Frontier) = ⟨_, _, _, none⟩ from rfl, foldl_observe tiers v.allFiles {}]
  show (if (v.discardsAll tiers).anythingDiscarded = false then v.highest
    else if (v.discardsAll tiers).discardedLowerBoundAbsent then none
    else (v.discardsAll tiers).discardedLowerBoundSeen) = _
  cases (v.discardsAll tiers).anythingDiscarded <;> rfl

theorem Version.anythingDiscarded_discardsAll (v : Version) (tiers : ResolvedTiers) :
    (v.discardsAll tiers).anythingDiscarded = true ↔ v.discardable tiers ≠ [] := by
  unfold discardsAll
  refine ⟨fun hany hnil => ?_, fun hne => ?_⟩
  · rw [hnil] at hany
    cases hany
  · exact (RecoveryWatermark.bounded_foldl {} (by simpa using hne)).discarded

/-- Discardable stores list nothing, the others their files. -/
structure LostDiscardable (tiers : ResolvedTiers) (v : Version) (listing : Listing) : Prop where
  listed : ∀ s ∈ tiers.stores, ∃ names, listing s = .ok names
  lost : ∀ s, tiers.storeIsDiscardable s = true → listing s = .ok []
  intact : ∀ f ∈ v.allFiles, tiers.storeIsDiscardable f.storeId = false → listing.holds f = true

/-- What a reopen after that loss reports. -/
def Version.recoveredAfterLoss (v : Version) (tiers : ResolvedTiers) : Option ℕ :=
  underFloor (floorAfter v.watermarkFloor (v.discardsAll tiers)) (v.durableWatermark tiers)

variable {listing : Listing}

theorem observeStores_of_listed {stores : List Bytes}
    (h : ∀ s ∈ stores, ∃ names, listing s = .ok names) (next : ℕ) :
    ∃ n, observeStores listing stores next = .ok n := by
  induction stores generalizing next with
  | nil => exact ⟨next, rfl⟩
  | cons s stores ih =>
    obtain ⟨names, hnames⟩ := h s (.head _)
    rw [observeStores, hnames]
    exact ih (fun t ht => h t (.tail _ ht)) _

variable {tiers : ResolvedTiers} {v : Version}

theorem LostDiscardable.missingFiles_eq (h : LostDiscardable tiers v listing) :
    v.missingFiles listing = v.discardable tiers := by
  refine filter_congr fun f hf => ?_
  cases hd : tiers.storeIsDiscardable f.storeId with
  | false => rw [h.intact f hf hd, Bool.not_true]
  | true => simp [Listing.holds, h.lost _ hd]

theorem LostDiscardable.recover (h : LostDiscardable tiers v listing) (hnumbered : v.Numbered)
    (hplaced : ∀ f ∈ v.allFiles, f.storeId ∈ tiers.stores) :
    ∃ x, recover tiers false listing v = .ok x ∧
      x.recoveredWatermark = v.recoveredAfterLoss tiers := by
  obtain ⟨next, hnext⟩ := observeStores_of_listed h.listed v.nextFileNumber
  have hstores : ∀ s ∈ storesOf (v.missingFiles listing), tiers.storeIsDiscardable s = true := by
    rw [h.missingFiles_eq]
    intro s hs
    obtain ⟨f, hf, rfl⟩ := mem_storesOf.1 hs
    exact (mem_filter.1 hf).2
  refine ⟨_, recover_eq_ok.2 ⟨next, hnext, hplaced, hstores, rfl⟩, ?_⟩
  have hdiscarded := discarded_missing hnumbered listing next
  rw [h.missingFiles_eq] at hdiscarded hstores ⊢
  -- the files on the stores dropped are those on discardable stores
  have hrecovery := hdiscarded.recovery
  have hfilter : v.allFiles.filter (fun f => f.storeId ∈ storesOf (v.discardable tiers)) =
      v.discardable tiers := by
    refine filter_congr fun f hf => ?_
    rw [Bool.eq_iff_iff, decide_eq_true_iff]
    exact ⟨hstores _, fun hd => mem_storesOf.2 ⟨f, mem_filter.2 ⟨hf, hd⟩, rfl⟩⟩
  rw [hfilter] at hrecovery
  unfold adoptRecoveredWatermark Version.recoveredAfterLoss
  simp only
  rw [RecoveryWatermark.foldl_observeSurvivor, hdiscarded.floor, hrecovery, v.durableWatermark_eq]
  congr 1
  show (if (v.discardsAll tiers).anythingDiscarded then (v.discardsAll tiers).discardedLowerBound
    else _) = _
  split_ifs with hany
  · rfl
  · -- nothing was dropped, so all files survive
    rw [not_not.1 ((v.anythingDiscarded_discardsAll tiers).not.1 hany)]
    rfl

/-! ### When they agree -/

/-- An earlier floor does not bind below the files: of the discardable ones one has no low or a low
at or below it; if there are none, no high is beyond it, and some file has one if it does. -/
def FloorAgrees (tiers : ResolvedTiers) (v : Version) : Prop :=
  ∀ floor ∈ v.watermarkFloor,
    if v.discardable tiers = [] then
      (∀ f ∈ v.allFiles, AtOrBelow f.watermark.high floor.position) ∧
        (floor.position.isSome → ∃ f ∈ v.allFiles, f.watermark.high.isSome)
    else ∃ f ∈ v.discardable tiers, AtOrBelow f.watermark.low floor.position

theorem atOrBelow_highest (files : List FileMetadata) (high c : Option ℕ) :
    AtOrBelow (files.foldl (fun high f => accumulateMax high f.watermark.high) high) c ↔
      AtOrBelow high c ∧ ∀ f ∈ files, AtOrBelow f.watermark.high c := by
  induction files generalizing high with
  | nil => simp
  | cons f files ih =>
    rw [foldl_cons, ih, atOrBelow_accumulateMax, and_assoc, forall_mem_cons]

theorem isSome_highest (files : List FileMetadata) (high : Option ℕ) :
    (files.foldl (fun high f => accumulateMax high f.watermark.high) high).isSome ↔
      high.isSome ∨ ∃ f ∈ files, f.watermark.high.isSome := by
  induction files generalizing high with
  | nil => simp
  | cons f files ih =>
    rw [foldl_cons, ih, exists_mem_cons_iff, ← or_assoc]
    cases high <;> cases f.watermark.high <;> simp [accumulateMax]

theorem recoveredAfterLoss_eq_iff (tiers : ResolvedTiers) (v : Version) :
    v.recoveredAfterLoss tiers = v.durableWatermark tiers ↔ FloorAgrees tiers v := by
  unfold Version.recoveredAfterLoss FloorAgrees
  have hgauge := v.durableWatermark_eq tiers
  have hany := v.anythingDiscarded_discardsAll tiers
  by_cases hnone : v.discardable tiers = []
  · rw [if_neg (by simp [hany, hnone])] at hgauge
    have hbelow : ∀ c, (∀ f ∈ v.allFiles, AtOrBelow f.watermark.high c) ↔
        AtOrBelow (v.durableWatermark tiers) c := by
      intro c
      rw [hgauge, Version.highest, atOrBelow_highest]
      simp [AtOrBelow]
    have hsome : (∃ f ∈ v.allFiles, f.watermark.high.isSome) ↔
        (v.durableWatermark tiers).isSome := by
      rw [hgauge, Version.highest, isSome_highest]
      simp
    simp only [if_pos hnone, hbelow, hsome]
    rw [floorAfter, if_neg (by simp [hany, hnone])]
    obtain _ | ⟨_ | p⟩ := v.watermarkFloor <;> cases v.durableWatermark tiers <;>
      simp [underFloor, AtOrBelow]
  · rw [if_pos (hany.2 hnone)] at hgauge
    have hbelow : ∀ c, (∃ f ∈ v.discardable tiers, AtOrBelow f.watermark.low c) ↔
        AtOrBelow (v.durableWatermark tiers) c := by
      intro c
      rw [hgauge, Version.discardsAll, RecoveryWatermark.atOrBelow_foldl (by simpa using hnone)]
      simp
    simp only [if_neg hnone, hbelow]
    rw [floorAfter, if_pos (hany.2 hnone), ← hgauge, lowerTo_eq]
    obtain _ | ⟨_ | p⟩ := v.watermarkFloor <;> cases v.durableWatermark tiers <;>
      simp [lowest, underFloor, AtOrBelow]

/-- The gauge is what a reopen reports after the loss exactly where an earlier floor does not bind
below the files. -/
theorem durable_watermark_eq_recovered_iff {tiers : ResolvedTiers} {options : Options} {db : Db}
    (h : Life Compaction.Drawn tiers options db) {listing : Listing}
    (hlost : LostDiscardable tiers db.version listing) :
    ∃ x, recover tiers false listing db.version = .ok x ∧
      (x.recoveredWatermark = db.version.durableWatermark tiers ↔
        FloorAgrees tiers db.version) := by
  have hplaced : ∀ f ∈ db.version.allFiles, f.storeId ∈ tiers.stores := by
    intro f hf
    obtain ⟨level, hf⟩ := Version.mem_allFiles.1 hf
    exact h.placed (fun _ _ => id) level f hf
  obtain ⟨x, hrecover, hposition⟩ := hlost.recover (h.counted fun _ _ => id).numbered hplaced
  exact ⟨x, hrecover, hposition ▸ recoveredAfterLoss_eq_iff tiers db.version⟩

/-! ### A floor below the gauge -/

/-- A transient tier over a durable one. -/
def twoTiers : ResolvedTiers where
  tiers :=
    [{ store := some { id := [1] }, durability := .transient, maxAge := some 10,
       stallAge := some 20 },
     { store := some { id := [2] } }]

/-- Every file goes to the store. -/
def onStore (storeId : Bytes) : WriteEnv := { storeId := fun _ => storeId }

/-- A write in `(low, high]`, flushed to a store. -/
def settledOn (storeId : Bytes) (key : Key) (high : ℕ) (db : Db) : Db :=
  let db := (db.put key []).2
  let db := (db.setWatermark high).2
  (db.sealMemtable (onStore storeId)).runOneFlush plainOptions (onStore storeId)

theorem Life.settledOn {safe : Compaction → Version → Prop} {db : Db}
    (h : Life safe tiers plainOptions db) (himm : db.imm = none) {storeId : Bytes}
    (hstore : storeId ∈ tiers.stores) (key : Key) (high : ℕ) :
    Life safe tiers plainOptions (settledOn storeId key high db) := by
  have hplaces : ∀ op : Op, (∀ file target, op ≠ .runMigration file target) →
      op.Places tiers (onStore storeId) := fun op hop =>
    ⟨fun _ => hstore, fun file target heq => absurd heq (hop file target)⟩
  have hput := h.did (onStore storeId) (.put key []) trivial (hplaces _ (by simp))
  have hmarked := hput.watermarked high
  have himm' : ((db.put key []).2.setWatermark high).2.imm = none := by
    obtain hok | ⟨status, -, hrefused⟩ := db.put_result key []
    · rw [hok]
      unfold Db.setWatermark
      split <;> exact himm
    · rw [hrefused]
      unfold Db.setWatermark
      split <;> exact himm
  have hsealed := hmarked.did (onStore storeId) .sealMemtable himm' (hplaces _ (by simp))
  exact hsealed.did (onStore storeId) .runOneFlush trivial (hplaces _ (by simp))

/-- `(0, 50]` on the transient store, `(50, 100]` on the durable one. -/
def twoFiles : Db := settledOn [2] [2] 100 (settledOn [1] [1] 50 (({} : Db).setWatermark 0).2)

theorem twoFiles_life : Life Compaction.Drawn twoTiers plainOptions twoFiles := by
  have hfirst : Life Compaction.Drawn twoTiers plainOptions
      (settledOn [1] [1] 50 (({} : Db).setWatermark 0).2) :=
    Life.settledOn (.watermarked 0 .created) rfl (by decide) [1] 50
  exact hfirst.settledOn rfl (by decide) [2] 100

/-- The listings once the transient store is lost. -/
def afterLoss : Listing := fun storeId => .ok (if storeId = [2] then [sstObjectName 2] else [])

theorem twoTiers_discardable {s : Bytes} : twoTiers.storeIsDiscardable s = true ↔ s = [1] := by
  by_cases h₁ : s = [1]
  · simp [h₁, twoTiers, ResolvedTiers.storeIsDiscardable, Tier.storeId]
  · by_cases h₂ : s = [2]
    · simp [h₂, twoTiers, ResolvedTiers.storeIsDiscardable, Tier.storeId]
    · simp [h₁, Ne.symm h₁, Ne.symm h₂, twoTiers, ResolvedTiers.storeIsDiscardable, Tier.storeId]

theorem afterLoss_lost
    (h : ∀ f ∈ v.allFiles, twoTiers.storeIsDiscardable f.storeId = false →
      afterLoss.holds f = true) : LostDiscardable twoTiers v afterLoss where
  listed s _ := ⟨_, rfl⟩
  lost s hs := by
    rw [twoTiers_discardable.1 hs]
    rfl
  intact := h

/-- With no loss recorded the gauge is what the reopen reports. -/
theorem durable_watermark_eq_recovered_first :
    ∃ x, recover twoTiers false afterLoss twoFiles.version = .ok x ∧
      (x.recoveredWatermark = twoFiles.version.durableWatermark twoTiers ↔
        FloorAgrees twoTiers twoFiles.version) :=
  durable_watermark_eq_recovered_iff twoFiles_life (afterLoss_lost (by decide +kernel))

/-- The open that follows. -/
def firstOpening : Opening :=
  (recover twoTiers false afterLoss twoFiles.version).toOption.getD
    { version := {}, nextFileNumber := 0 }

/-- It leaves the durable file, and a floor at 0. -/
def afterFirstLoss : Db := (twoFiles.lose (· = [1])).reopened firstOpening 0

/-- After a loss that pinned the floor at 0 the gauge reads 100, and a reopen reports 0. -/
theorem gauge_above_floor :
    resolveTiers twoTiers.tiers {} = .ok twoTiers ∧
      Life Compaction.Drawn twoTiers plainOptions afterFirstLoss ∧
      LostDiscardable twoTiers afterFirstLoss.version afterLoss ∧
      afterFirstLoss.version.durableWatermark twoTiers = some 100 ∧
      ∃ x, recover twoTiers false afterLoss afterFirstLoss.version = .ok x ∧
        x.recoveredWatermark = some 0 := by
  have hopen : recover twoTiers false afterLoss twoFiles.version = .ok firstOpening := by
    decide +kernel
  refine ⟨rfl, twoFiles_life.reopened 0 (by decide +kernel) hopen,
    afterLoss_lost (by decide +kernel), by decide +kernel, ?_⟩
  exact ⟨_, rfl, by decide +kernel⟩

end ElysiumKV
