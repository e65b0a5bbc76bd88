import ElysiumKV.ObjectNames
import ElysiumKV.Tiers

/-!
# Opening a store that lost files

A transient store that lacks a file has all its files dropped, in an edit that pins the watermark
floor; a durable one makes the open fail. `Discarded` says what the discards leave.
-/

namespace ElysiumKV

open List

/-- What the stores list. -/
abbrev Listing := Bytes → Except Status (List Bytes)

/-- How `verify_stores_and_discard` refuses. -/
inductive OpenFault
  /-- "store '…' could not be listed: …" -/
  | unlisted (storeId : Bytes) (status : Status)
  /-- "file … names store '…', which is not in this configuration" -/
  | unconfigured (file : FileMetadata)
  /-- "read-only open found store '…' missing files; a writer must discard and repair it first" -/
  | missingForReader (storeId : Bytes)
  /-- "file … is missing from durable store '…'" -/
  | missingFromDurable (file : FileMetadata)
deriving DecidableEq

/-- The status of a refused open. -/
def OpenFault.status : OpenFault → Status
  | unlisted _ status => if status = .notFound then .io else status
  | unconfigured _ => .config
  | missingForReader _ | missingFromDurable _ => .corrupt

/-- An open in progress. -/
structure Opening where
  version : Version
  nextFileNumber : ℕ
  recoveryWatermark : RecoveryWatermark := {}
  recoveredWatermark : Option ℕ := none
  requiresRecovery : Bool := false
  discardedStores : List Bytes := []
  discardedFiles : ℕ := 0
deriving DecidableEq

/-- The file's object is listed. -/
def Listing.holds (listing : Listing) (file : FileMetadata) : Bool :=
  match listing file.storeId with
  | .error _ => false
  | .ok names => sstObjectName file.fileNumber ∈ names

namespace Version

/-- The files of the version that are on the store. -/
def filesOn (v : Version) (storeId : Bytes) : List FileMetadata :=
  v.allFiles.filter fun f => f.storeId = storeId

/-- `missing_files`. -/
def missingFiles (v : Version) (listing : Listing) : List FileMetadata :=
  v.allFiles.filter fun f => !listing.holds f

end Version

/-- The files' stores, by id. -/
def storesOf (files : List FileMetadata) : List Bytes :=
  (files.map FileMetadata.storeId).dedup.insertionSort (· ≤ ·)

namespace Opening

/-- The counter past the numbers listed. -/
def observeNames (next : ℕ) (names : List Bytes) : ℕ :=
  (names.filterMap sstFileNumber).foldl (fun next n => if next ≤ n then n + 1 else next) next

/-- Over the stores, up to one that failed. -/
def observeStores (listing : Listing) : List Bytes → ℕ → Except OpenFault ℕ
  | [], next => .ok next
  | storeId :: stores, next => match listing storeId with
    | .error status => .error (.unlisted storeId status)
    | .ok names => observeStores listing stores (observeNames next names)

/-- Drop the files of a lost store, and pin the floor. -/
def discard (x : Opening) (storeId : Bytes) : Opening :=
  let lost := x.version.filesOn storeId
  let recovery := lost.foldl (fun r f => r.observeDiscarded f.watermark) x.recoveryWatermark
  let bound := recovery.discardedLowerBound
  { x with
    version := x.version.apply
      { nextFileNumber := x.nextFileNumber
        deleted := lost.map fun f => ⟨f.level, f.fileNumber⟩
        floorUpdate := .set
        watermarkFloor := (x.version.watermarkFloor.getD ⟨bound⟩).lowerTo bound }
    recoveryWatermark := recovery
    requiresRecovery := true
    discardedStores := x.discardedStores ++ [storeId]
    discardedFiles := x.discardedFiles + lost.length }

/-- Over the stores that lack files; a refusal comes with what was dropped. -/
def discardStores (tiers : ResolvedTiers) (readOnly : Bool) (missing : List FileMetadata) :
    List Bytes → Opening → Except (OpenFault × Opening) Opening
  | [], x => .ok x
  | storeId :: stores, x =>
    if readOnly then .error (.missingForReader storeId, x)
    else if tiers.storeIsDiscardable storeId then
      discardStores tiers readOnly missing stores (x.discard storeId)
    else .error (.missingFromDurable ((missing.find? fun f => f.storeId = storeId).getD {}), x)

/-- `verify_stores_and_discard`. -/
def verifyStoresAndDiscard (tiers : ResolvedTiers) (readOnly : Bool) (listing : Listing)
    (x : Opening) : Except (OpenFault × Opening) Opening :=
  match observeStores listing tiers.stores x.nextFileNumber with
  | .error fault => .error (fault, x)
  | .ok next =>
    match x.version.allFiles.find? fun f => f.storeId ∉ tiers.stores with
    | some file => .error (.unconfigured file, x)
    | none =>
      let missing := x.version.missingFiles listing
      discardStores tiers readOnly missing (storesOf missing) { x with nextFileNumber := next }

/-- A position under the floor an earlier loss left. -/
def underFloor (floor : Option WatermarkFloor) (position : Option ℕ) : Option ℕ :=
  match floor with
  | none => position
  | some ⟨none⟩ => none
  | some ⟨some p⟩ => match position with
    | none => some p
    | some r => some (min r p)

/-- `adopt_recovered_watermark`, for the position. -/
def adoptRecoveredWatermark (x : Opening) : Opening :=
  let recovery :=
    x.version.allFiles.foldl (fun r f => r.observeSurvivor f.watermark) x.recoveryWatermark
  { x with
    recoveryWatermark := recovery
    recoveredWatermark := underFloor x.version.watermarkFloor recovery.resumeAfter }

/-- `recover`, given the manifest's version. -/
def recover (tiers : ResolvedTiers) (readOnly : Bool) (listing : Listing) (version : Version) :
    Except (OpenFault × Opening) Opening := do
  let x ← verifyStoresAndDiscard tiers readOnly listing
    { version, nextFileNumber := version.nextFileNumber }
  pure x.adoptRecoveredWatermark

end Opening

/-! ### The bound a loss leaves -/

/-- The lower position; an absent one certifies nothing. -/
def lowest (a b : Option ℕ) : Option ℕ := a.bind fun a => b.map (min a)

theorem lowest_self (a : Option ℕ) : lowest a a = a := by
  cases a <;> simp [lowest]

theorem lowest_lowest (a b : Option ℕ) : lowest a (lowest a b) = lowest a b := by
  cases a <;> cases b <;> simp [lowest]

theorem lowest_assoc (a b c : Option ℕ) : lowest (lowest a b) c = lowest a (lowest b c) := by
  cases a <;> cases b <;> cases c <;> simp [lowest, min_assoc]

/-- At or below; an absent position is below all. -/
def AtOrBelow (a b : Option ℕ) : Prop := ∀ p ∈ a, ∃ q ∈ b, p ≤ q

theorem atOrBelow_self (a : Option ℕ) : AtOrBelow a a := fun p hp => ⟨p, hp, le_rfl⟩

theorem AtOrBelow.trans {a b c : Option ℕ} (h : AtOrBelow a b) (h' : AtOrBelow b c) :
    AtOrBelow a c := by
  intro p hp
  obtain ⟨q, hq, hpq⟩ := h p hp
  obtain ⟨r, hr, hqr⟩ := h' q hq
  exact ⟨r, hr, hpq.trans hqr⟩

theorem atOrBelow_lowest (a b c : Option ℕ) :
    AtOrBelow (lowest a b) c ↔ AtOrBelow a c ∨ AtOrBelow b c := by
  cases a <;> cases b <;> cases c <;> simp [AtOrBelow, lowest]

theorem atOrBelow_accumulateMax (a b c : Option ℕ) :
    AtOrBelow (accumulateMax a b) c ↔ AtOrBelow a c ∧ AtOrBelow b c := by
  cases a <;> cases b <;> cases c <;> simp [AtOrBelow, accumulateMax]

theorem lowerTo_eq (floor : WatermarkFloor) (bound : Option ℕ) :
    floor.lowerTo bound = ⟨lowest floor.position bound⟩ := by
  obtain ⟨_ | p⟩ := floor
  · rfl
  · cases bound with
    | none => rfl
    | some b =>
      simp only [WatermarkFloor.lowerTo, lowest, Option.bind_some, Option.map_some]
      split_ifs with h
      · rw [min_eq_right h.le]
      · rw [min_eq_left (not_lt.1 h)]

namespace RecoveryWatermark

theorem accumulateMin_comm (into a b : Option ℕ) :
    accumulateMin (accumulateMin into a) b = accumulateMin (accumulateMin into b) a := by
  cases into <;> cases a <;> cases b <;>
    simp [accumulateMin, min_comm, min_left_comm]

/-- The order in which discarded files are observed does not matter. -/
instance : RightCommutative observeDiscarded where
  right_comm r a b := by
    cases ha : a.low <;> cases hb : b.low <;>
      simp [observeDiscarded, ha, hb, accumulateMin_comm]

/-- Something was discarded, and the bound is at or below its low. -/
structure Bounded (r : RecoveryWatermark) : Prop where
  discarded : r.anythingDiscarded = true
  bound : r.discardedLowerBoundAbsent = true ∨ r.discardedLowerBoundSeen.isSome

theorem bounded_observe (r : RecoveryWatermark) (w : WatermarkInterval) :
    (r.observeDiscarded w).Bounded := by
  unfold observeDiscarded
  cases w.low with
  | none => exact ⟨rfl, .inl rfl⟩
  | some low =>
    refine ⟨rfl, .inr ?_⟩
    cases h : r.discardedLowerBoundSeen <;> simp [accumulateMin]

variable {r : RecoveryWatermark}

theorem Bounded.foldl (h : r.Bounded) (ws : List WatermarkInterval) :
    (ws.foldl observeDiscarded r).Bounded := by
  induction ws generalizing r with
  | nil => exact h
  | cons w ws ih => exact ih (bounded_observe r w)

theorem bounded_foldl (r : RecoveryWatermark) {ws : List WatermarkInterval} (h : ws ≠ []) :
    (ws.foldl observeDiscarded r).Bounded := by
  cases ws with
  | nil => exact absurd rfl h
  | cons w ws => exact (bounded_observe r w).foldl ws

theorem Bounded.discardedLowerBound_observe (h : r.Bounded) (w : WatermarkInterval) :
    (r.observeDiscarded w).discardedLowerBound = lowest r.discardedLowerBound w.low := by
  obtain ⟨-, habsent | hseen⟩ := h
  · cases hlow : w.low <;> simp [observeDiscarded, discardedLowerBound, hlow, habsent, lowest]
  · obtain ⟨seen, hseen⟩ := Option.isSome_iff_exists.1 hseen
    cases hlow : w.low with
    | none => simp [observeDiscarded, discardedLowerBound, hlow, lowest]
    | some low =>
      by_cases habsent : r.discardedLowerBoundAbsent <;>
        simp [observeDiscarded, discardedLowerBound, hlow, habsent, hseen, accumulateMin, lowest]

theorem Bounded.lowest_foldl (h : r.Bounded) (ws : List WatermarkInterval) :
    lowest r.discardedLowerBound (ws.foldl observeDiscarded r).discardedLowerBound =
      (ws.foldl observeDiscarded r).discardedLowerBound := by
  induction ws generalizing r with
  | nil => exact lowest_self _
  | cons w ws ih =>
    have hnext := ih (bounded_observe r w)
    rw [foldl_cons, ← hnext, h.discardedLowerBound_observe, ← lowest_assoc, lowest_lowest]

theorem Bounded.atOrBelow_foldl (h : r.Bounded) (ws : List WatermarkInterval) (c : Option ℕ) :
    AtOrBelow (ws.foldl observeDiscarded r).discardedLowerBound c ↔
      AtOrBelow r.discardedLowerBound c ∨ ∃ w ∈ ws, AtOrBelow w.low c := by
  induction ws generalizing r with
  | nil => simp
  | cons w ws ih =>
    rw [foldl_cons, ih (bounded_observe r w), h.discardedLowerBound_observe,
      atOrBelow_lowest, or_assoc, exists_mem_cons_iff]

/-- The bound of the files dropped is at or below a position if that of one of them is. -/
theorem atOrBelow_foldl {ws : List WatermarkInterval} (hws : ws ≠ []) (c : Option ℕ) :
    AtOrBelow (ws.foldl observeDiscarded {}).discardedLowerBound c ↔
      ∃ w ∈ ws, AtOrBelow w.low c := by
  cases ws with
  | nil => exact absurd rfl hws
  | cons w ws =>
    have hfirst : (observeDiscarded {} w).discardedLowerBound = w.low := by
      unfold observeDiscarded
      cases h : w.low <;> simp [discardedLowerBound, accumulateMin]
    rw [foldl_cons, (bounded_observe {} w).atOrBelow_foldl, hfirst, exists_mem_cons_iff]

theorem foldl_observeSurvivor (files : List FileMetadata) (r : RecoveryWatermark) :
    files.foldl (fun r f => r.observeSurvivor f.watermark) r =
      { r with
        survivingUpperBound :=
          files.foldl (fun high f => accumulateMax high f.watermark.high)
            r.survivingUpperBound } := by
  induction files generalizing r with
  | nil => rfl
  | cons f files ih => exact ih _

end RecoveryWatermark

/-! ### What the discards leave -/

/-- Files are on the level they record, and numbers identify them. -/
structure Version.Numbered (v : Version) : Prop where
  levelOf : ∀ level, ∀ f ∈ v.filesAt level, f.level = level
  unique : ∀ f ∈ v.allFiles, ∀ g ∈ v.allFiles, f.fileNumber = g.fileNumber → f = g

theorem Version.Numbered.apply {v : Version} (h : v.Numbered) {edit : VersionEdit}
    (hdistinct : (edit.added.map FileMetadata.fileNumber).Nodup)
    (hnew : ∀ f ∈ edit.added, ∀ level, ∀ g ∈ v.filesAt level, g.fileNumber = f.fileNumber →
      (⟨level, g.fileNumber⟩ : FileRef) ∈ edit.deleted) : (v.apply edit).Numbered where
  levelOf level f hf := by
    rcases mem_filesAt_apply.1 hf with ⟨hf, -⟩ | ⟨-, hf⟩
    · exact h.levelOf level f hf
    · exact hf
  unique f hf g hg hnumber := by
    obtain ⟨l, hf⟩ := mem_allFiles.1 hf
    obtain ⟨m, hg⟩ := mem_allFiles.1 hg
    rcases mem_filesAt_apply.1 hf with ⟨hf, hfstays⟩ | ⟨hf, -⟩ <;>
      rcases mem_filesAt_apply.1 hg with ⟨hg, hgstays⟩ | ⟨hg, -⟩
    · exact h.unique f (mem_allFiles.2 ⟨l, hf⟩) g (mem_allFiles.2 ⟨m, hg⟩) hnumber
    · exact absurd (hnew g hg l f hf hnumber) hfstays
    · exact absurd (hnew f hf m g hg hnumber.symm) hgstays
    · exact inj_on_of_nodup_map hdistinct hf hg hnumber

/-- The floor the discards leave. -/
def floorAfter (floor : Option WatermarkFloor) (r : RecoveryWatermark) : Option WatermarkFloor :=
  if r.anythingDiscarded then
    some ((floor.getD ⟨r.discardedLowerBound⟩).lowerTo r.discardedLowerBound)
  else floor

theorem floorAfter_foldl (floor : Option WatermarkFloor) (r : RecoveryWatermark)
    {ws : List WatermarkInterval} (hws : ws ≠ [])
    (hr : r.anythingDiscarded = true → r.Bounded) :
    some (((floorAfter floor r).getD ⟨(ws.foldl .observeDiscarded r).discardedLowerBound⟩).lowerTo
        (ws.foldl .observeDiscarded r).discardedLowerBound) =
      floorAfter floor (ws.foldl .observeDiscarded r) := by
  have hnext := RecoveryWatermark.bounded_foldl r hws
  by_cases hany : r.anythingDiscarded = true
  · have hlowest := (hr hany).lowest_foldl ws
    simp only [floorAfter, if_pos hany, if_pos hnext.discarded, Option.getD_some, lowerTo_eq]
    cases floor with
    | none =>
      simp only [Option.getD_none, lowest_self]
      rw [hlowest]
    | some floor =>
      simp only [Option.getD_some]
      rw [lowest_assoc, hlowest]
  · simp only [floorAfter, if_neg hany, if_pos hnext.discarded]

/-- What is known once these stores are dropped. -/
structure Opening.Discarded (v : Version) (stores : List Bytes) (x : Opening) : Prop where
  numbered : x.version.Numbered
  files : x.version.allFiles.Perm (v.allFiles.filter fun f => f.storeId ∉ stores)
  recovery : x.recoveryWatermark =
    ((v.allFiles.filter fun f => f.storeId ∈ stores).map FileMetadata.watermark).foldl
      .observeDiscarded {}
  floor : x.version.watermarkFloor = floorAfter v.watermarkFloor x.recoveryWatermark

namespace Opening

variable {x : Opening}

theorem allFiles_discard_perm (h : x.version.Numbered) (storeId : Bytes) :
    (x.discard storeId).version.allFiles.Perm
      (x.version.allFiles.filter fun f => f.storeId ≠ storeId) := by
  refine (Version.allFiles_apply_perm h.levelOf _).trans (.of_eq ?_)
  rw [append_nil]
  refine filter_congr fun f hf => decide_eq_decide.2 (not_congr ?_)
  simp only [Version.filesOn, mem_map, mem_filter, decide_eq_true_eq, FileRef.mk.injEq]
  constructor
  · rintro ⟨g, ⟨hg, hstore⟩, -, hnumber⟩
    rw [← h.unique g hg f hf hnumber, hstore]
  · exact fun hstore => ⟨f, ⟨hf, hstore⟩, rfl, rfl⟩

theorem numbered_discard (h : x.version.Numbered) (storeId : Bytes) :
    (x.discard storeId).version.Numbered :=
  h.apply nodup_nil nofun

variable {v : Version} {stores : List Bytes}

theorem Discarded.discard (h : Discarded v stores x) {storeId : Bytes} (hnew : storeId ∉ stores)
    (hfile : ∃ f ∈ v.allFiles, f.storeId = storeId) :
    Discarded v (stores ++ [storeId]) (x.discard storeId) := by
  have hlost : (x.version.filesOn storeId).Perm
      (v.allFiles.filter fun f => f.storeId = storeId) := by
    refine (h.files.filter _).trans (.of_eq ?_)
    rw [filter_filter]
    refine filter_congr fun f _ => ?_
    by_cases hstore : f.storeId = storeId <;> simp [hstore, hnew]
  have hnonempty : (x.version.filesOn storeId).map FileMetadata.watermark ≠ [] := by
    obtain ⟨f, hf, hstore⟩ := hfile
    have hmem := hlost.mem_iff.2 (mem_filter.2 ⟨hf, decide_eq_true hstore⟩)
    exact ne_nil_of_mem (mem_map_of_mem hmem)
  have hrecovery : (x.discard storeId).recoveryWatermark =
      ((x.version.filesOn storeId).map FileMetadata.watermark).foldl .observeDiscarded
        x.recoveryWatermark := by
    rw [foldl_map]
    rfl
  refine ⟨numbered_discard h.numbered storeId, ?_, ?_, ?_⟩
  · refine (allFiles_discard_perm h.numbered storeId).trans ((h.files.filter _).trans (.of_eq ?_))
    rw [filter_filter]
    refine filter_congr fun f _ => ?_
    simp only [mem_append, mem_singleton, not_or]
    grind
  · rw [hrecovery, h.recovery, ← foldl_append, ← map_append]
    refine List.Perm.foldl_eq ((List.Perm.append_left _ hlost).trans ?_ |>.map _) _
    have hsplit := filter_append_perm (fun f : FileMetadata => decide (f.storeId ∈ stores))
      (v.allFiles.filter fun f => f.storeId ∈ stores ++ [storeId])
    rw [filter_filter, filter_filter] at hsplit
    refine .trans (.of_eq ?_) hsplit
    congr 1 <;> refine filter_congr fun f _ => ?_
    · by_cases hf : f.storeId ∈ stores <;> simp [hf]
    · by_cases hf : f.storeId = storeId <;> simp [hf, hnew]
  · show some _ = _
    rw [hrecovery, ← floorAfter_foldl v.watermarkFloor x.recoveryWatermark hnonempty, ← h.floor,
      ← hrecovery]
    · rfl
    · intro hany
      rw [h.recovery] at hany ⊢
      refine RecoveryWatermark.bounded_foldl _ fun hnil => ?_
      rw [hnil] at hany
      cases hany

theorem Discarded.foldl {done : List Bytes} (h : Discarded v done x)
    (hnodup : (done ++ stores).Nodup) (hfiles : ∀ s ∈ stores, ∃ f ∈ v.allFiles, f.storeId = s) :
    Discarded v (done ++ stores) (stores.foldl Opening.discard x) := by
  induction stores generalizing done x with
  | nil => rwa [append_nil]
  | cons s stores ih =>
    have hnew : s ∉ done := fun hs => (disjoint_of_nodup_append hnodup) hs (.head _)
    rw [append_cons] at hnodup ⊢
    exact ih (h.discard hnew (hfiles s (.head _))) hnodup fun t ht => hfiles t (.tail _ ht)

/-! ### When an open succeeds -/

theorem discardStores_eq_ok {tiers : ResolvedTiers} {missing : List FileMetadata} {y : Opening} :
    discardStores tiers false missing stores x = .ok y ↔
      (∀ s ∈ stores, tiers.storeIsDiscardable s = true) ∧ y = stores.foldl discard x := by
  induction stores generalizing x with
  | nil =>
    rw [discardStores, Except.ok.injEq, foldl_nil, eq_comm]
    simp
  | cons s stores ih =>
    rw [discardStores, if_neg Bool.false_ne_true]
    by_cases hs : tiers.storeIsDiscardable s = true
    · rw [if_pos hs, ih]
      simp [hs]
    · simp [hs]

theorem le_observeNames (names : List Bytes) (next : ℕ) : next ≤ observeNames next names := by
  unfold observeNames
  induction names.filterMap sstFileNumber generalizing next with
  | nil => exact le_rfl
  | cons n numbers ih =>
    refine le_trans ?_ (ih _)
    show next ≤ if next ≤ n then n + 1 else next
    split_ifs <;> omega

theorem le_observeStores {listing : Listing} {next n : ℕ}
    (h : observeStores listing stores next = .ok n) : next ≤ n := by
  induction stores generalizing next with
  | nil => exact (Except.ok.inj h).le
  | cons s stores ih =>
    unfold observeStores at h
    split at h
    · cases h
    · exact (le_observeNames _ next).trans (ih h)

theorem recover_eq_ok {tiers : ResolvedTiers} {listing : Listing} :
    recover tiers false listing v = .ok x ↔
      ∃ next, observeStores listing tiers.stores v.nextFileNumber = .ok next ∧
        (∀ f ∈ v.allFiles, f.storeId ∈ tiers.stores) ∧
        (∀ s ∈ storesOf (v.missingFiles listing), tiers.storeIsDiscardable s = true) ∧
        x = ((storesOf (v.missingFiles listing)).foldl discard
          { version := v, nextFileNumber := next }).adoptRecoveredWatermark := by
  unfold recover verifyStoresAndDiscard
  cases hnext : observeStores listing tiers.stores v.nextFileNumber with
  | error fault => simp [bind, Except.bind]
  | ok next =>
    simp only [bind, Except.bind]
    cases hfind : v.allFiles.find? fun f => f.storeId ∉ tiers.stores with
    | some file =>
      have hmem := mem_of_find?_eq_some hfind
      have hnot := List.find?_some hfind
      refine iff_of_false (by simp) ?_
      rintro ⟨-, -, hall, -⟩
      exact (of_decide_eq_true hnot) (hall file hmem)
    | none =>
      have hall : ∀ f ∈ v.allFiles, f.storeId ∈ tiers.stores := by simpa using hfind
      constructor
      · intro h
        split at h
        · cases h
        · next y hy =>
          obtain ⟨hdiscardable, rfl⟩ := discardStores_eq_ok.1 hy
          exact ⟨next, rfl, hall, hdiscardable, (Except.ok.inj h).symm⟩
      · rintro ⟨-, ⟨⟩, -, hdiscardable, rfl⟩
        rw [discardStores_eq_ok.2 ⟨hdiscardable, rfl⟩]
        rfl

end Opening

end ElysiumKV
