import ElysiumKV.StoreLoss
import Mathlib.Algebra.Group.Action.Defs

/-!
# Migration between tiers

`pickMigration` moves a file off a transient tier, out of a full one, or to the tier of its age. A
file counts in the first tier that names its store, so it can be sent round
(`migration_sends_file_round`) unless each move goes to a store first named by a colder tier
(`migration_converges`).
-/

namespace ElysiumKV

open List

/-- `Migration`. -/
structure Migration where
  file : FileMetadata
  fromTier : ℕ
  toTier : ℕ
  leavesTransient : Bool
  capacityEviction : Bool
deriving DecidableEq, Repr

/-- The files counted in a tier. -/
structure TierContents where
  tier : ℕ
  files : List FileMetadata

/-- Their size, as a 64-bit sum. -/
def TierContents.bytes (contents : TierContents) : ℕ :=
  (contents.files.map FileMetadata.fileBytes).sum % 2 ^ 64

/-- `group_by_tier`: files below level 0 by the first tier that names their store. -/
def groupByTier (version : Version) (tiers : ResolvedTiers) : List TierContents :=
  (List.range tiers.tiers.length).filterMap fun tier =>
    let files := version.allFiles.filter fun f =>
      f.level ≠ 0 && tiers.tierOfStore f.storeId = some tier
    if files = [] then none else some ⟨tier, files⟩

/-- The first file with the earliest write. -/
def oldest (files : List FileMetadata) : Option FileMetadata :=
  files.foldl (fun found file => match found with
    | none => some file
    | some f => if file.minWriteTimeMs < f.minWriteTimeMs then some file else found) none

namespace ResolvedTiers

variable (tiers : ResolvedTiers) (nowMs : ℕ)

/-- The tier its age asks for. -/
def placementOf (file : FileMetadata) : ℕ :=
  tiers.placement file.fileNumber file.minWriteTimeMs nowMs

variable (contents : TierContents)

/-- The tier holds more than its `max_bytes`. -/
def overCapacity : Bool :=
  match (tiers.tier contents.tier).maxBytes with
  | none => false
  | some maxBytes => maxBytes < contents.bytes

/-- The oldest file of a full tier, to the next tier. -/
def evict (leavesTransient : Bool) (contents : TierContents) : Option Migration :=
  if tiers.last ≤ contents.tier then none
  else match oldest contents.files with
    | none => none
    | some victim =>
      if (tiers.tier (contents.tier + 1)).storeId = victim.storeId then none
      else some ⟨victim, contents.tier, contents.tier + 1, leavesTransient, true⟩

/-- Off a transient tier: the oldest file outgrown, or one over capacity. -/
def rescue : Option Migration :=
  if (tiers.tier contents.tier).durability ≠ .transient then none
  else match oldest (contents.files.filter fun f => contents.tier < tiers.placementOf nowMs f) with
    | some candidate =>
      let target := tiers.placementOf nowMs candidate
      if (tiers.tier target).storeId = candidate.storeId then none
      else some ⟨candidate, contents.tier, target, true, false⟩
    | none => if tiers.overCapacity contents then tiers.evict true contents else none

/-- Out of a tier over its capacity. -/
def relieve : Option Migration :=
  if tiers.overCapacity contents then tiers.evict false contents else none

/-- To the tier the age asks for. -/
def settle : Option Migration :=
  contents.files.findSome? fun file =>
    let target := tiers.placementOf nowMs file
    if contents.tier < target ∧ (tiers.tier target).storeId ≠ file.storeId then
      some ⟨file, contents.tier, target, false, false⟩
    else none

end ResolvedTiers

/-- `pick_migration`. -/
def pickMigration (version : Version) (tiers : ResolvedTiers) (nowMs : ℕ) : Option Migration :=
  if tiers.tiers.length < 2 then none
  else
    let byTier := groupByTier version tiers
    (byTier.findSome? (tiers.rescue nowMs)).or
      ((byTier.findSome? tiers.relieve).or (byTier.findSome? (tiers.settle nowMs)))

/-! ### What is chosen -/

theorem mem_of_oldest {files : List FileMetadata} {file : FileMetadata}
    (h : oldest files = some file) : file ∈ files := by
  have hfold : ∀ (files : List FileMetadata) (found : Option FileMetadata),
      files.foldl (fun found file => match found with
        | none => some file
        | some f => if file.minWriteTimeMs < f.minWriteTimeMs then some file else found) found =
        some file → file ∈ files ∨ found = some file := by
    intro files
    induction files with
    | nil => exact fun _ => .inr
    | cons f files ih =>
      intro found hfound
      rcases ih _ hfound with hmem | hnext
      · exact .inl (.tail _ hmem)
      · cases found with
        | none =>
          obtain rfl := Option.some.inj hnext
          exact .inl (.head _)
        | some g =>
          simp only at hnext
          split_ifs at hnext
          · obtain rfl := Option.some.inj hnext
            exact .inl (.head _)
          · exact .inr hnext
  exact (hfold files none h).resolve_right nofun

/-- A file below level 0 counted in a tier, and a colder tier of another store. -/
structure Migration.Chosen (version : Version) (tiers : ResolvedTiers) (m : Migration) : Prop where
  mem : m.file ∈ version.allFiles
  level : m.file.level ≠ 0
  counted : tiers.tierOfStore m.file.storeId = some m.fromTier
  colder : m.fromTier < m.toTier
  target : m.toTier < tiers.tiers.length
  moves : (tiers.tier m.toTier).storeId ≠ m.file.storeId

section Chosen

variable {version : Version} {tiers : ResolvedTiers} {nowMs : ℕ} {contents : TierContents}
  {m : Migration}

theorem mem_groupByTier (h : contents ∈ groupByTier version tiers) {file : FileMetadata}
    (hfile : file ∈ contents.files) : file ∈ version.allFiles ∧ file.level ≠ 0 ∧
      tiers.tierOfStore file.storeId = some contents.tier := by
  obtain ⟨tier, -, htier⟩ := mem_filterMap.1 h
  simp only at htier
  split_ifs at htier
  obtain rfl := Option.some.inj htier
  simpa using hfile

theorem placementOf_lt (h : tiers.tiers ≠ []) (file : FileMetadata) :
    tiers.placementOf nowMs file < tiers.tiers.length := by
  have hlength := length_pos_iff.2 h
  unfold ResolvedTiers.placementOf ResolvedTiers.placement
  cases hfind : tiers.tiers.findIdx? (tiers.fits file.fileNumber file.minWriteTimeMs nowMs) with
  | none => exact Nat.sub_lt hlength Nat.one_pos
  | some i => exact (List.findIdx?_eq_some_iff_findIdx_eq.1 hfind).1

theorem chosen_of_evict {leavesTransient : Bool} (hgroup : contents ∈ groupByTier version tiers)
    (h : tiers.evict leavesTransient contents = some m) : m.Chosen version tiers := by
  unfold ResolvedTiers.evict at h
  split_ifs at h with hlast
  split at h
  · cases h
  · next victim hvictim =>
    split_ifs at h with hstore
    obtain rfl := Option.some.inj h
    obtain ⟨hmem, hlevel, hcounted⟩ := mem_groupByTier hgroup (mem_of_oldest hvictim)
    refine ⟨hmem, hlevel, hcounted, Nat.lt_succ_self _, ?_, hstore⟩
    simp only [ResolvedTiers.last] at hlast ⊢
    omega

theorem chosen_of_rescue (htiers : tiers.tiers ≠ []) (hgroup : contents ∈ groupByTier version tiers)
    (h : tiers.rescue nowMs contents = some m) : m.Chosen version tiers := by
  unfold ResolvedTiers.rescue at h
  split at h
  · cases h
  split at h
  · next candidate hcandidate =>
    simp only at h
    split_ifs at h with hstore
    obtain rfl := Option.some.inj h
    obtain ⟨hmem, htier⟩ := mem_filter.1 (mem_of_oldest hcandidate)
    obtain ⟨hfile, hlevel, hcounted⟩ := mem_groupByTier hgroup hmem
    exact ⟨hfile, hlevel, hcounted, of_decide_eq_true htier, placementOf_lt htiers _, hstore⟩
  · split_ifs at h
    exact chosen_of_evict hgroup h

theorem chosen_of_settle (htiers : tiers.tiers ≠ []) (hgroup : contents ∈ groupByTier version tiers)
    (h : tiers.settle nowMs contents = some m) : m.Chosen version tiers := by
  obtain ⟨file, hmem, hfile⟩ := exists_of_findSome?_eq_some h
  simp only at hfile
  split_ifs at hfile with htarget
  obtain rfl := Option.some.inj hfile
  obtain ⟨hversion, hlevel, hcounted⟩ := mem_groupByTier hgroup hmem
  exact ⟨hversion, hlevel, hcounted, htarget.1, placementOf_lt htiers _, htarget.2⟩

theorem chosen_of_pickMigration (h : pickMigration version tiers nowMs = some m) :
    m.Chosen version tiers := by
  unfold pickMigration at h
  split_ifs at h with hlength
  have htiers : tiers.tiers ≠ [] := by
    intro hnil
    simp [hnil] at hlength
  simp only [Option.or_eq_some_iff] at h
  rcases h with h | ⟨-, h | ⟨-, h⟩⟩
  · obtain ⟨contents, hgroup, hm⟩ := exists_of_findSome?_eq_some h
    exact chosen_of_rescue htiers hgroup hm
  · obtain ⟨contents, hgroup, hm⟩ := exists_of_findSome?_eq_some h
    unfold ResolvedTiers.relieve at hm
    split_ifs at hm
    exact chosen_of_evict hgroup hm
  · obtain ⟨contents, hgroup, hm⟩ := exists_of_findSome?_eq_some h
    exact chosen_of_settle htiers hgroup hm

end Chosen

variable (tiers : ResolvedTiers)

/-- The edit of `run_migration`: a copy under a fresh number on the target's store. -/
def migrationEdit (m : Migration) (number : ℕ) : VersionEdit where
  nextFileNumber := number + 1
  deleted := [⟨m.file.level, m.file.fileNumber⟩]
  added := [{ m.file with fileNumber := number, storeId := (tiers.tier m.toTier).storeId }]

/-- A version, and the stores copies of each file have left. -/
structure Migrating where
  version : Version
  left : ℕ → List Bytes := fun _ => []

/-- After a migration. -/
def Migrating.moved (x : Migrating) (m : Migration) (number : ℕ) : Migrating where
  version := x.version.apply (migrationEdit tiers m number)
  left := Function.update x.left number (m.file.storeId :: x.left m.file.fileNumber)

/-- So many migrations, each as picked, under fresh numbers. -/
inductive Migrates (tiers : ResolvedTiers) (nowMs : ℕ) (x : Migrating) : ℕ → Migrating → Prop
  | start : Migrates tiers nowMs x 0 x
  | step {n : ℕ} {y : Migrating} {m : Migration} {number : ℕ} (h : Migrates tiers nowMs x n y)
      (hpick : pickMigration y.version tiers nowMs = some m)
      (hfresh : ∀ f ∈ y.version.allFiles, f.fileNumber < number) :
      Migrates tiers nowMs x (n + 1) (y.moved tiers m number)

/-- The target store is first named by a colder tier. -/
def Migration.Descends (m : Migration) : Prop :=
  ∃ tier, tiers.tierOfStore (tiers.tier m.toTier).storeId = some tier ∧ m.fromTier < tier

/-- How far a file may still descend. -/
def ResolvedTiers.height (file : FileMetadata) : ℕ :=
  if file.level = 0 then 0
  else match tiers.tierOfStore file.storeId with
    | none => 0
    | some tier => tiers.tiers.length - tier

namespace Migrating

variable {tiers : ResolvedTiers} {nowMs : ℕ} {x : Migrating} {m : Migration} {number : ℕ}

/-- The same for all files. -/
def height (tiers : ResolvedTiers) (x : Migrating) : ℕ :=
  (x.version.allFiles.map tiers.height).sum

theorem left_moved (x : Migrating) (m : Migration) (number n : ℕ) :
    (x.moved tiers m number).left n =
      if n = number then m.file.storeId :: x.left m.file.fileNumber else x.left n :=
  Function.update_apply ..

theorem allFiles_moved_perm (h : x.version.Numbered) :
    (x.moved tiers m number).version.allFiles.Perm
      ((x.version.allFiles.filter fun f => (⟨f.level, f.fileNumber⟩ : FileRef) ≠
        ⟨m.file.level, m.file.fileNumber⟩) ++
        [{ m.file with fileNumber := number, storeId := (tiers.tier m.toTier).storeId }]) := by
  refine (Version.allFiles_apply_perm h.levelOf _).trans (.of_eq ?_)
  simp [migrationEdit]

theorem mem_allFiles_moved (h : x.version.Numbered) {f : FileMetadata}
    (hf : f ∈ (x.moved tiers m number).version.allFiles) : f ∈ x.version.allFiles ∨
      f = { m.file with fileNumber := number, storeId := (tiers.tier m.toTier).storeId } := by
  rcases mem_append.1 ((allFiles_moved_perm h).mem_iff.1 hf) with hf | hf
  · exact .inl (mem_of_mem_filter hf)
  · exact .inr (mem_singleton.1 hf)

theorem numbered_moved (h : x.version.Numbered)
    (hfresh : ∀ f ∈ x.version.allFiles, f.fileNumber < number) :
    (x.moved tiers m number).version.Numbered := by
  refine h.apply (nodup_singleton _) fun f hf level g hg hnumber => ?_
  obtain rfl := mem_singleton.1 hf
  exact absurd hnumber (hfresh g (Version.mem_allFiles.2 ⟨level, hg⟩)).ne

theorem height_moved_lt (h : x.version.Numbered) (hm : m.Chosen x.version tiers)
    (hdescends : m.Descends tiers) : (x.moved tiers m number).height tiers < x.height tiers := by
  obtain ⟨tier, htier, hcolder⟩ := hdescends
  have hfrom : m.fromTier < tiers.tiers.length := hm.colder.trans hm.target
  have hmoved : tiers.height
      { m.file with fileNumber := number, storeId := (tiers.tier m.toTier).storeId } <
      tiers.height m.file := by
    simp only [ResolvedTiers.height, if_neg hm.level, htier, hm.counted]
    omega
  -- the file itself is among those the edit deletes
  let kept : FileMetadata → Bool := fun f =>
    (⟨f.level, f.fileNumber⟩ : FileRef) ≠ ⟨m.file.level, m.file.fileNumber⟩
  have hsplit := ((filter_append_perm kept x.version.allFiles).map tiers.height).sum_eq
  have hgone : tiers.height m.file ≤
      ((x.version.allFiles.filter fun f => !kept f).map tiers.height).sum := by
    refine le_sum_of_mem (mem_map_of_mem (mem_filter.2 ⟨hm.mem, ?_⟩))
    simp [kept]
  have hnew : ((x.moved tiers m number).version.allFiles.map tiers.height).sum = _ :=
    ((allFiles_moved_perm h).map tiers.height).sum_eq
  rw [map_append, sum_append] at hsplit hnew
  rw [height, height, hnew, ← hsplit, map_singleton, sum_singleton]
  show ((x.version.allFiles.filter kept).map tiers.height).sum + _ < _
  omega

theorem height_le (tiers : ResolvedTiers) (x : Migrating) :
    x.height tiers ≤ tiers.tiers.length * x.version.allFiles.length := by
  have hfile : ∀ h ∈ x.version.allFiles.map tiers.height, h ≤ tiers.tiers.length := by
    intro h hh
    obtain ⟨f, -, rfl⟩ := mem_map.1 hh
    unfold ResolvedTiers.height
    split_ifs
    · exact Nat.zero_le _
    · split
      · exact Nat.zero_le _
      · exact Nat.sub_le _ _
  have hsum := sum_le_card_nsmul _ _ hfile
  rwa [length_map, smul_eq_mul, Nat.mul_comm] at hsum

/-- What a copy has left is first named by a hotter tier. -/
def Descended (tiers : ResolvedTiers) (x : Migrating) : Prop :=
  ∀ f ∈ x.version.allFiles, ∀ s ∈ x.left f.fileNumber, ∃ before tier,
    tiers.tierOfStore s = some before ∧ tiers.tierOfStore f.storeId = some tier ∧ before < tier

theorem Descended.moved (h : x.Descended tiers) (hnumbered : x.version.Numbered)
    (hm : m.Chosen x.version tiers) (hdescends : m.Descends tiers)
    (hfresh : ∀ f ∈ x.version.allFiles, f.fileNumber < number) :
    (x.moved tiers m number).Descended tiers := by
  intro f hf s hs
  rcases mem_allFiles_moved hnumbered hf with hf | rfl
  · refine h f hf s ?_
    rwa [left_moved, if_neg (hfresh f hf).ne] at hs
  · obtain ⟨tier, htier, hcolder⟩ := hdescends
    rw [left_moved, if_pos rfl] at hs
    rcases mem_cons.1 hs with rfl | hs
    · exact ⟨m.fromTier, tier, hm.counted, htier, hcolder⟩
    · obtain ⟨before, tier', hbefore, htier', hlt⟩ := h m.file hm.mem s hs
      obtain rfl := Option.some.inj (hm.counted.symm.trans htier')
      exact ⟨before, tier, hbefore, htier, hlt.trans hcolder⟩

theorem Descended.not_returns (h : x.Descended tiers) (hm : m.Chosen x.version tiers)
    (hdescends : m.Descends tiers) :
    (tiers.tier m.toTier).storeId ∉ m.file.storeId :: x.left m.file.fileNumber := by
  obtain ⟨tier, htier, hcolder⟩ := hdescends
  intro hs
  rcases mem_cons.1 hs with hs | hs
  · exact hm.moves hs
  · obtain ⟨before, tier', hbefore, htier', hlt⟩ := h m.file hm.mem _ hs
    obtain rfl := Option.some.inj (htier.symm.trans hbefore)
    obtain rfl := Option.some.inj (hm.counted.symm.trans htier')
    omega

end Migrating

section Runs

variable {tiers : ResolvedTiers} {nowMs n : ℕ} {x y : Migrating}

theorem exists_fresh (files : List FileMetadata) :
    ∃ number, ∀ f ∈ files, f.fileNumber < number := by
  induction files with
  | nil => exact ⟨0, nofun⟩
  | cons f files ih =>
    obtain ⟨number, hnumber⟩ := ih
    refine ⟨max number (f.fileNumber + 1), fun g hg => ?_⟩
    rcases mem_cons.1 hg with rfl | hg
    · exact lt_max_of_lt_right (Nat.lt_succ_self _)
    · exact lt_max_of_lt_left (hnumber g hg)

/-- The next migration always descends. -/
def DescendsThroughout (tiers : ResolvedTiers) (nowMs : ℕ) (x : Migrating) : Prop :=
  ∀ n y m, Migrates tiers nowMs x n y → pickMigration y.version tiers nowMs = some m →
    m.Descends tiers

theorem Migrates.numbered (hnumbered : x.version.Numbered) (h : Migrates tiers nowMs x n y) :
    y.version.Numbered := by
  induction h with
  | start => exact hnumbered
  | step _ _ hfresh ih => exact Migrating.numbered_moved ih hfresh

theorem Migrates.add_height_le (hnumbered : x.version.Numbered)
    (hdescends : DescendsThroughout tiers nowMs x) (h : Migrates tiers nowMs x n y) :
    n + y.height tiers ≤ x.height tiers := by
  induction h with
  | start => exact (Nat.zero_add _).le
  | @step n y m number h hpick hfresh ih =>
    have hlt : (y.moved tiers m number).height tiers < y.height tiers :=
      Migrating.height_moved_lt (h.numbered hnumbered) (chosen_of_pickMigration hpick)
        (hdescends n y m h hpick)
    omega

theorem Migrates.descended (hnumbered : x.version.Numbered) (hleft : ∀ n, x.left n = [])
    (hdescends : DescendsThroughout tiers nowMs x) (h : Migrates tiers nowMs x n y) :
    y.Descended tiers := by
  induction h with
  | start =>
    intro f _ s hs
    rw [hleft] at hs
    cases hs
  | @step n y m number h hpick hfresh ih =>
    exact ih.moved (h.numbered hnumbered) (chosen_of_pickMigration hpick)
      (hdescends n y m h hpick) hfresh

theorem Migrates.reaches_end (hnumbered : x.version.Numbered)
    (hdescends : DescendsThroughout tiers nowMs x) (h : Migrates tiers nowMs x n y) :
    ∃ n' z, Migrates tiers nowMs x n' z ∧ pickMigration z.version tiers nowMs = none := by
  induction hheight : y.height tiers using Nat.strong_induction_on generalizing n y with
  | _ height ih =>
    cases hpick : pickMigration y.version tiers nowMs with
    | none => exact ⟨n, y, h, hpick⟩
    | some m =>
      obtain ⟨number, hfresh⟩ := exists_fresh y.version.allFiles
      have hlt : (y.moved tiers m number).height tiers < y.height tiers :=
        Migrating.height_moved_lt (h.numbered hnumbered) (chosen_of_pickMigration hpick)
          (hdescends n y m h hpick)
      exact ih _ (hheight ▸ hlt) (h.step hpick hfresh) rfl

/-- Where migrations descend they end, within tiers times files, and no file returns to a store. -/
theorem migration_converges (hnumbered : x.version.Numbered) (hleft : ∀ n, x.left n = [])
    (hdescends : DescendsThroughout tiers nowMs x) :
    (∃ n y, Migrates tiers nowMs x n y ∧ pickMigration y.version tiers nowMs = none) ∧
      ∀ n y, Migrates tiers nowMs x n y →
        n ≤ tiers.tiers.length * x.version.allFiles.length ∧
        ∀ m, pickMigration y.version tiers nowMs = some m →
          (tiers.tier m.toTier).storeId ∉ m.file.storeId :: y.left m.file.fileNumber := by
  refine ⟨Migrates.start.reaches_end hnumbered hdescends, fun n y h => ⟨?_, fun m hpick => ?_⟩⟩
  · have hheight := h.add_height_le hnumbered hdescends
    have hle := Migrating.height_le tiers x
    omega
  · exact (h.descended hnumbered hleft hdescends).not_returns (chosen_of_pickMigration hpick)
      (hdescends n y m h hpick)

end Runs

/-! ### Two tiers that share a store -/

/-- Each store is named by tiers next to each other. -/
def ResolvedTiers.Adjacent : Prop :=
  ∀ i j k, i < j → j < k → k < tiers.tiers.length →
    (tiers.tier i).storeId = (tiers.tier k).storeId →
    (tiers.tier j).storeId = (tiers.tier k).storeId

variable {tiers}

theorem tierOfStore_eq_some {storeId : Bytes} {tier : ℕ}
    (h : tiers.tierOfStore storeId = some tier) :
    tier < tiers.tiers.length ∧ (tiers.tier tier).storeId = storeId := by
  obtain ⟨hlt, hnames, -⟩ := List.findIdx?_eq_some_iff_getElem.1 h
  refine ⟨hlt, ?_⟩
  rw [ResolvedTiers.tier, getD_eq_getElem?_getD, List.getElem?_eq_getElem hlt]
  exact of_decide_eq_true hnames

theorem exists_tierOfStore {tier : ℕ} (h : tier < tiers.tiers.length) :
    ∃ first, tiers.tierOfStore (tiers.tier tier).storeId = some first := by
  refine Option.isSome_iff_exists.1 (List.findIdx?_isSome.trans (any_eq_true.2 ?_))
  rw [ResolvedTiers.tier, getD_eq_getElem?_getD, List.getElem?_eq_getElem h]
  exact ⟨_, getElem_mem h, decide_eq_true rfl⟩

variable {m : Migration}

theorem descends_of_adjacent {version : Version} (hadjacent : tiers.Adjacent)
    (hm : m.Chosen version tiers) : m.Descends tiers := by
  obtain ⟨first, hfirst⟩ := exists_tierOfStore hm.target
  refine ⟨first, hfirst, ?_⟩
  have hcounted := tierOfStore_eq_some hm.counted
  have hnamed := tierOfStore_eq_some hfirst
  by_contra hhotter
  have hlt : first < m.fromTier := by
    refine lt_of_le_of_ne (not_lt.1 hhotter) ?_
    rintro rfl
    exact hm.moves (hnamed.2.symm.trans hcounted.2)
  exact hm.moves ((hadjacent first m.fromTier m.toTier hlt hm.colder hm.target hnamed.2).symm.trans
    hcounted.2)

theorem descendsThroughout_of_adjacent (hadjacent : tiers.Adjacent) (nowMs : ℕ) (x : Migrating) :
    DescendsThroughout tiers nowMs x := fun _ _ _ _ hpick =>
  descends_of_adjacent hadjacent (chosen_of_pickMigration hpick)

/-- A capped tier and the last one share a store, another lies between. -/
def roundTiers : ResolvedTiers where
  tiers :=
    [{ store := some { id := [1] }, maxAge := some 10, maxBytes := some 0 },
     { store := some { id := [2] }, maxAge := some 20 },
     { store := some { id := [1] } }]

/-- A file at level 1. -/
def soloFile (storeId : Bytes) (number : ℕ) : FileMetadata :=
  { level := 1, fileNumber := number, storeId, fileBytes := 1 }

/-- A version of one file. -/
def solo (storeId : Bytes) (number : ℕ) : Version :=
  { levels := [[], [soloFile storeId number]], nextFileNumber := number + 1 }

theorem numbered_solo (storeId : Bytes) (number : ℕ) : (solo storeId number).Numbered where
  levelOf level f hf := by
    match level with
    | 0 => simp [Version.filesAt, solo] at hf
    | 1 =>
      obtain rfl := mem_singleton.1 hf
      rfl
    | level + 2 => simp [Version.filesAt, solo] at hf
  unique f hf g hg _ := by
    rw [mem_singleton.1 hf, mem_singleton.1 hg]

/-- Two tiers on two stores. -/
def pairTiers : ResolvedTiers where
  tiers := roundTiers.tiers.drop 1

theorem pairTiers_adjacent : pairTiers.Adjacent := by
  intro i j k hij hjk hk
  simp [pairTiers, roundTiers] at hk
  omega

theorem migration_converges_on_pairTiers :
    (∃ n y, Migrates pairTiers 100 { version := solo [2] 1 } n y ∧
        pickMigration y.version pairTiers 100 = none) ∧
      ∀ n y, Migrates pairTiers 100 { version := solo [2] 1 } n y →
        n ≤ pairTiers.tiers.length * (solo [2] 1).allFiles.length ∧
        ∀ m, pickMigration y.version pairTiers 100 = some m →
          (pairTiers.tier m.toTier).storeId ∉ m.file.storeId :: y.left m.file.fileNumber :=
  migration_converges (numbered_solo [2] 1) (fun _ => rfl)
    (descendsThroughout_of_adjacent pairTiers_adjacent 100 _)

theorem pick_evicts (number : ℕ) : pickMigration (solo [1] number) roundTiers 100 =
    some ⟨soloFile [1] number, 0, 1, false, true⟩ := by
  rfl

theorem placement_of_no_jitter (h : tiers.ageJitter.fraction = some 0)
    (number minWriteTimeMs nowMs : ℕ) :
    tiers.placement number minWriteTimeMs nowMs = tiers.placement 0 minWriteTimeMs nowMs := by
  have hjitter : ∀ n span, tiers.tierAgeJitterMs n minWriteTimeMs span = 0 := by
    simp [ResolvedTiers.tierAgeJitterMs, jitterWindowMs, jitterOffset, h]
  have hfits : tiers.fits number minWriteTimeMs nowMs = tiers.fits 0 minWriteTimeMs nowMs := by
    funext tier
    simp only [ResolvedTiers.fits, ResolvedTiers.ageBound, hjitter]
  rw [ResolvedTiers.placement, hfits, ResolvedTiers.placement]

theorem pick_settles (number : ℕ) : pickMigration (solo [2] number) roundTiers 100 =
    some ⟨soloFile [2] number, 1, 2, false, false⟩ := by
  have hplaced : roundTiers.placementOf 100 (soloFile [2] number) = 2 :=
    (placement_of_no_jitter rfl number 0 100).trans rfl
  have hgroups : groupByTier (solo [2] number) roundTiers = [⟨1, [soloFile [2] number]⟩] := rfl
  have hsettles : roundTiers.settle 100 ⟨1, [soloFile [2] number]⟩ =
      some ⟨soloFile [2] number, 1, 2, false, false⟩ := by
    rw [ResolvedTiers.settle, List.findSome?_singleton, hplaced]
    rfl
  have hrescue : roundTiers.rescue 100 ⟨1, [soloFile [2] number]⟩ = none := rfl
  have hrelieve : roundTiers.relieve ⟨1, [soloFile [2] number]⟩ = none := rfl
  rw [pickMigration, if_neg (by decide), hgroups]
  simp only [List.findSome?_singleton, hrescue, hrelieve, hsettles, Option.none_or]

theorem apply_solo {storeId : Bytes} {n number : ℕ} (h : n < number)
    (hm : m.file = soloFile storeId n) :
    (solo storeId n).apply (migrationEdit roundTiers m number) =
      solo (roundTiers.tier m.toTier).storeId number := by
  have hmax : max (n + 1) (number + 1) = number + 1 := max_eq_right (Nat.succ_le_succ h.le)
  simp [Version.apply, migrationEdit, solo, soloFile, hm, Version.erase, Version.push, sortLevel,
    hmax]

/-- The file is on either store. -/
def OnRound (x : Migrating) : Prop :=
  ∃ number, x.version = solo [1] number ∨ x.version = solo [2] number

theorem OnRound.picks {x : Migrating} (h : OnRound x) :
    ∃ m, pickMigration x.version roundTiers 100 = some m := by
  obtain ⟨number, h | h⟩ := h <;> rw [h]
  · exact ⟨_, pick_evicts number⟩
  · exact ⟨_, pick_settles number⟩

theorem OnRound.moved {x : Migrating} (h : OnRound x) {number : ℕ}
    (hpick : pickMigration x.version roundTiers 100 = some m)
    (hfresh : ∀ f ∈ x.version.allFiles, f.fileNumber < number) :
    OnRound (x.moved roundTiers m number) := by
  obtain ⟨n, h | h⟩ := h <;> rw [h] at hpick hfresh
  · obtain rfl := Option.some.inj ((pick_evicts n).symm.trans hpick)
    refine ⟨number, .inr ?_⟩
    rw [Migrating.moved, h]
    exact apply_solo (hfresh (soloFile [1] n) (by simp [solo, Version.allFiles])) rfl
  · obtain rfl := Option.some.inj ((pick_settles n).symm.trans hpick)
    refine ⟨number, .inl ?_⟩
    rw [Migrating.moved, h]
    exact apply_solo (hfresh (soloFile [2] n) (by simp [solo, Version.allFiles])) rfl

theorem Migrates.onRound {n : ℕ} {y : Migrating}
    (h : Migrates roundTiers 100 { version := solo [1] 1 } n y) : OnRound y := by
  induction h with
  | start => exact ⟨1, .inl rfl⟩
  | step _ hpick hfresh ih => exact ih.moved hpick hfresh

/-- Out of the capped tier, then back to the same store as the last tier's, where it is counted as
capped. -/
theorem migration_sends_file_round :
    resolveTiers roundTiers.tiers {} = .ok roundTiers ∧
      (∀ n y, Migrates roundTiers 100 { version := solo [1] 1 } n y →
        pickMigration y.version roundTiers 100 ≠ none) ∧
      ∃ y m, Migrates roundTiers 100 { version := solo [1] 1 } 1 y ∧
        pickMigration y.version roundTiers 100 = some m ∧
        (roundTiers.tier m.toTier).storeId ∈ y.left m.file.fileNumber := by
  refine ⟨rfl, fun n y h hnone => ?_, ?_⟩
  · obtain ⟨m, hm⟩ := h.onRound.picks
    rw [hnone] at hm
    cases hm
  · have hfresh : ∀ f ∈ (solo [1] 1).allFiles, f.fileNumber < 2 := by decide
    have hversion : (solo [1] 1).apply
        (migrationEdit roundTiers ⟨soloFile [1] 1, 0, 1, false, true⟩ 2) =
        solo (roundTiers.tier 1).storeId 2 := apply_solo (by decide) rfl
    refine ⟨_, ⟨soloFile [2] 2, 1, 2, false, false⟩, Migrates.start.step (pick_evicts 1) hfresh,
      ?_, by decide⟩
    rw [Migrating.moved, hversion]
    exact pick_settles 2

end ElysiumKV
