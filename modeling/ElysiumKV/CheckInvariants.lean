import ElysiumKV.LevelSpans
import ElysiumKV.Lives
import ElysiumKV.Picker
import ElysiumKV.ScanReads
import Mathlib.Data.List.Chain

/-!
# The engine's own check

`check_invariants` walks the current version. Below level 0 it compares data spans; a file of range
tombstones alone has an empty one, as if it held the empty key, so the check refuses a level with
two such files.
-/

namespace ElysiumKV

/-- `Invariant`. -/
inductive Invariant
  | none
  | storeMissing
  | objectMissing
  | entryCount
  | keyRange
  | levelOverlap
deriving DecidableEq, Repr

namespace Db

section Check

variable (tiers : ResolvedTiers) (listing : Listing) (options : Options) (faults : Faults) (db : Db)

/-- The check of one file, unless it goes on. -/
def checkFile (file : FileMetadata) : Option (Status × Invariant) :=
  if file.storeId ∉ tiers.stores then some (.corrupt, .storeMissing)
  else if listing.holds file = false then some (.corrupt, .objectMissing)
  else match db.readerFor options faults file with
    | .error status => some (status, .none)
    | .ok sst =>
      let read := cutShort (faults.reading file) sst.entries
      let held : Sst := { entries := read.1 }
      if read.2 ≠ .ok then some (read.2, .none)
      else if held.entries.length ≠ file.numEntries then some (.corrupt, .entryCount)
      else if held.entries ≠ [] ∧
          (held.smallestKey ≠ file.smallestKey ∨ held.largestKey ≠ file.largestKey) then
        some (.corrupt, .keyRange)
      else none

/-- The loop over a level; `previous` is the file before. -/
def checkFiles (level : ℕ) :
    Option FileMetadata → List FileMetadata → Option (Status × Invariant)
  | _, [] => none
  | previous, file :: files => match db.checkFile tiers listing options faults file with
    | some result => some result
    | none =>
      if 0 < level ∧ previous.any fun p => !(p.largestKey < file.smallestKey) then
        some (.corrupt, .levelOverlap)
      else checkFiles level (some file) files

/-- `check_invariants`. -/
def checkInvariants : Status × Invariant :=
  let unlisted := tiers.stores.findSome? fun storeId => match listing storeId with
    | .error status => some (status, .none)
    | .ok _ => none
  let broken := (List.range db.version.numLevels).findSome? fun level =>
    db.checkFiles tiers listing options faults level none (db.version.filesAt level)
  (unlisted.or broken).getD (.ok, .none)

end Check

variable {tiers : ResolvedTiers} {listing : Listing} {options : Options} {db : Db}

theorem Stored.checkFile {f : FileMetadata} (hf : db.Stored f) (hplaced : f.storeId ∈ tiers.stores)
    (hholds : listing.holds f = true) : db.checkFile tiers listing options {} f = none := by
  have hwhole : cutShort (({} : Faults).reading f) (db.sstOf f).entries =
      ((db.sstOf f).entries, .ok) := rfl
  have hsmallest : Sst.smallestKey { entries := (db.sstOf f).entries } = f.smallestKey :=
    hf.describes.smallestKey.symm
  have hlargest : Sst.largestKey { entries := (db.sstOf f).entries } = f.largestKey :=
    hf.describes.largestKey.symm
  simp [Db.checkFile, hplaced, hholds, hf.readerFor, hwhole, hf.describes.numEntries, hsmallest,
    hlargest]

theorem checkFiles_eq_none_iff {level : ℕ} {files : List FileMetadata}
    (hfiles : ∀ f ∈ files, db.checkFile tiers listing options {} f = none)
    (previous : Option FileMetadata) :
    db.checkFiles tiers listing options {} level previous files = none ↔
      (level ≠ 0 →
        (previous.toList ++ files).IsChain fun f g => f.largestKey < g.smallestKey) := by
  induction files generalizing previous with
  | nil => cases previous <;> simp [checkFiles]
  | cons f files ih =>
    have hrest := ih (fun g hg => hfiles g (.tail _ hg)) (some f)
    have hlevel : 0 < level ↔ level ≠ 0 := Nat.pos_iff_ne_zero
    unfold checkFiles
    rw [hfiles f (.head _)]
    simp only
    cases previous with
    | none =>
      rw [if_neg (by simp), hrest]
      simp
    | some p =>
      by_cases hlt : p.largestKey < f.smallestKey
      · rw [if_neg (by simp [hlt]), hrest]
        simp [hlt]
      · by_cases hl : level = 0
        · rw [if_neg (by simp [hl]), hrest]
          simp [hl]
        · rw [if_pos ⟨Nat.pos_of_ne_zero hl, by simp [hlt]⟩]
          simp [hl, hlt]

theorem status_of_checkFile {faults : Faults} {file : FileMetadata} {result : Status × Invariant}
    (h : db.checkFile tiers listing options faults file = some result) : result.1 ≠ .ok := by
  unfold checkFile at h
  by_cases hstore : file.storeId ∉ tiers.stores
  · rw [if_pos hstore] at h
    obtain rfl := Option.some_inj.1 h
    nofun
  rw [if_neg hstore] at h
  by_cases hholds : listing.holds file = false
  · rw [if_pos hholds] at h
    obtain rfl := Option.some_inj.1 h
    nofun
  rw [if_neg hholds] at h
  cases hread : db.readerFor options faults file with
  | error status =>
    rw [hread] at h
    obtain rfl := Option.some_inj.1 h
    exact status.2
  | ok sst =>
    rw [hread] at h
    simp only at h
    by_cases hstatus : (cutShort (faults.reading file) sst.entries).2 ≠ .ok
    · rw [if_pos hstatus] at h
      obtain rfl := Option.some_inj.1 h
      exact hstatus
    · rw [if_neg hstatus] at h
      split_ifs at h <;>
      · obtain rfl := Option.some_inj.1 h
        nofun

theorem status_of_checkFiles {faults : Faults} {level : ℕ} {files : List FileMetadata}
    {previous : Option FileMetadata} {result : Status × Invariant}
    (h : db.checkFiles tiers listing options faults level previous files = some result) :
    result.1 ≠ .ok := by
  induction files generalizing previous with
  | nil => cases h
  | cons f files ih =>
    unfold checkFiles at h
    cases hfile : db.checkFile tiers listing options faults f with
    | none =>
      rw [hfile] at h
      simp only at h
      split_ifs at h
      · obtain rfl := Option.some_inj.1 h
        nofun
      · exact ih h
    | some found =>
      rw [hfile] at h
      obtain rfl := Option.some_inj.1 h
      exact status_of_checkFile hfile

/-- Below level 0 files pass the comparison exactly if no two have an empty smallest key. -/
theorem Tidy.isChain_iff (h : Tidy db) {level : ℕ} (hl : level ≠ 0) :
    ((db.version.filesAt level).IsChain fun f g => f.largestKey < g.smallestKey) ↔
      ∀ f ∈ db.version.filesAt level, ∀ g ∈ db.version.filesAt level,
        f.smallestKey = [] → g.smallestKey = [] → f = g := by
  constructor
  · intro hchain
    have hstrict : (db.version.filesAt level).IsChain fun f g => f.smallestKey < g.smallestKey :=
      hchain.imp_of_mem_imp fun f g hf _ hfg =>
        (h.stored level f hf).smallest_le_largest.trans_lt hfg
    have hpair : ((db.version.filesAt level).map FileMetadata.smallestKey).Pairwise (· < ·) := by
      rw [← List.isChain_iff_pairwise, List.isChain_map]
      exact hstrict
    have hnodup := (hpair.imp fun hlt => ne_of_lt hlt : List.Nodup _)
    intro f hf g hg hfe hge
    exact List.inj_on_of_nodup_map hnodup hf hg (hfe.trans hge.symm)
  · intro hone
    refine (((h.keyOrder level hl).and (h.nodup level)).imp_of_mem ?_).isChain
    rintro f g hf hg ⟨horder, hne⟩
    have hfs := h.stored level f hf
    have hgs := h.stored level g hg
    have hle : f.smallestKey ≤ g.smallestKey := horder.elim le_of_lt fun heq => heq.1.le
    by_cases hfe : f.numEntries = 0
    · obtain ⟨hsmall, hlarge⟩ := hfs.spans_of_bare hfe
      rw [hlarge]
      refine lt_of_le_of_ne (ByteOrder.nil_le _) fun hnil => ?_
      exact hne (hone f hf g hg hsmall hnil.symm)
    · by_cases hge : g.numEntries = 0
      · have hsmall := (hgs.spans_of_bare hge).1
        have hnil : f.smallestKey = [] := le_antisymm (hsmall ▸ hle) (ByteOrder.nil_le _)
        exact absurd (hone f hf g hg hnil hsmall) hne
      · rcases (h.levelSpans hl).dataDisjoint f hf g hg hne hfe hge with hlt | hlt
        · exact hlt
        · exact absurd ((hgs.smallest_le_largest.trans_lt hlt).trans_le hle) (lt_irrefl _)

end Db

/-- With healthy stores, the check passes exactly when no deeper level has two files with an empty
smallest key. -/
theorem check_invariants_ok_iff {tiers : ResolvedTiers} {options : Options} {listing : Listing}
    {db : Db} (h : Life Compaction.Admissible tiers options db) (hlists : db.Lists listing)
    (hlisted : ∀ storeId ∈ tiers.stores, ∃ names, listing storeId = .ok names) :
    (db.checkInvariants tiers listing options {}).1 = .ok ↔
      ∀ level, level ≠ 0 → ∀ f ∈ db.version.filesAt level, ∀ g ∈ db.version.filesAt level,
        f.smallestKey = [] → g.smallestKey = [] → f = g := by
  have htidy := h.tidy
  have hunlisted : (tiers.stores.findSome? fun storeId => match listing storeId with
      | .error status => some (status, Invariant.none)
      | .ok _ => none) = none := by
    rw [List.findSome?_eq_none_iff]
    intro storeId hstore
    obtain ⟨names, hnames⟩ := hlisted storeId hstore
    rw [hnames]
  have hfile : ∀ level, ∀ f ∈ db.version.filesAt level,
      db.checkFile tiers listing options {} f = none := by
    intro level f hf
    have hstored := htidy.stored level f hf
    refine hstored.checkFile (h.placed (fun _ _ hc => hc.drawn) level f hf) ?_
    rw [hlists f (Version.mem_allFiles.2 ⟨level, hf⟩), hstored.object]
    rfl
  have hlevel : ∀ level, db.checkFiles tiers listing options {} level none
      (db.version.filesAt level) = none ↔ (level ≠ 0 → ∀ f ∈ db.version.filesAt level,
        ∀ g ∈ db.version.filesAt level, f.smallestKey = [] → g.smallestKey = [] → f = g) := by
    intro level
    rw [Db.checkFiles_eq_none_iff (hfile level)]
    exact forall_congr' fun hl => htidy.isChain_iff hl
  have hok : (db.checkInvariants tiers listing options {}).1 = .ok ↔
      ∀ level ∈ List.range db.version.numLevels, db.checkFiles tiers listing options {} level none
        (db.version.filesAt level) = none := by
    unfold Db.checkInvariants
    simp only [hunlisted, Option.none_or]
    rw [← List.findSome?_eq_none_iff]
    cases hfound : (List.range db.version.numLevels).findSome? fun level =>
        db.checkFiles tiers listing options {} level none (db.version.filesAt level) with
    | none => simp
    | some result =>
      obtain ⟨level, -, hresult⟩ := List.exists_of_findSome?_eq_some hfound
      have hne := Db.status_of_checkFiles hresult
      simp [hne]
  rw [hok]
  constructor
  · intro hall level hl f hf
    have hrange : level < db.version.numLevels := by
      by_contra hge
      rw [Version.filesAt, List.getElem?_eq_none (not_lt.1 hge)] at hf
      cases hf
    exact (hlevel level).1 (hall level (List.mem_range.2 hrange)) hl f hf
  · intro hall level _
    exact (hlevel level).2 (hall level)

/-! ### Three lives -/

/-- One durable tier, with the empty id. -/
def oneTier : ResolvedTiers where
  tiers := [{ store := some {} }]

theorem Life.play {safe : Compaction → Version → Prop} (script : List (Db → Op))
    (hmoves : ∀ op ∈ script, ∀ db file target, op db ≠ .runMigration file target) :
    ∀ {db : Db} {log : List Event}, Life safe oneTier plainOptions db →
    Playable safe plainOptions {} script db →
    Life safe oneTier plainOptions (play plainOptions {} script (db, log)).1 := by
  induction script with
  | nil => exact fun h _ => h
  | cons op script ih =>
    intro db log h hplay
    have hplaces : (op db).Places oneTier {} := ⟨fun _ => .head _,
      fun file target hop => absurd hop (hmoves op (.head _) db file target)⟩
    exact ih (fun op hop => hmoves op (.tail _ hop)) (h.did {} (op db) hplay.1 hplaces) hplay.2

/-- Every store lists the objects up to nine. -/
def nineObjects : Listing := fun _ => .ok ((List.range 10).map sstObjectName)

/-- Write a batch and flush it. -/
def flushBatch (batch : List Db.BatchOp) : List (Db → Op) :=
  [fun _ => .write batch, fun _ => .sealMemtable, fun _ => .runOneFlush]

/-- A key and a range delete, each in a file of its own at level 1. -/
def besideScript : List (Db → Op) :=
  settle [1] [10] ++ flushBatch [.deleteRange [2] [3]] ++ [moveDown 0]

/-- Two ranges over keys at level 2, each in a file that moves to level 1. -/
def twoRangesScript : List (Db → Op) :=
  settle [2] [20] ++ [moveDown 1] ++ settle [5] [50] ++ [moveDown 1] ++
    flushBatch [.deleteRange [2] [3]] ++ [moveDown 0] ++
    flushBatch [.deleteRange [5] [6]] ++ [moveDown 0]

/-- One file is allowed at level 0. -/
def oneFile : PickConfig where
  levels := [{ maxFiles := some 1 }, {}]
  maxCompactionBytes := 0

/-- The compaction that is picked next. -/
def picked (db : Db) : Op :=
  match oneFile.pickCompaction plainOptions db.version 9 with
  | some (some c) => .runCompaction c
  | _ => .reclaimDeadFiles

theorem picked_ne (db : Db) (file : FileMetadata) (target : Bytes) :
    picked db ≠ .runMigration file target := by
  unfold picked
  split <;> nofun

/-- The second pick merges files from 5 to 9 and from the empty key to 6, with a hull from 5 on that
misses the file of 2 at level 1. -/
def pickedScript : List (Db → Op) :=
  flushBatch [.put [2] []] ++ flushBatch [.put [5] [], .put [9] []] ++ [picked] ++
    flushBatch [.put [] [], .put [6] []] ++ [picked]

theorem check_invariants_ok_iff_beside :
    let db := (play plainOptions {} besideScript ({}, [])).1
    (db.version.filesAt 1).length = 2 ∧
      (db.checkInvariants oneTier nineObjects plainOptions {}).1 = .ok ∧
      ∀ level, level ≠ 0 → ∀ f ∈ db.version.filesAt level, ∀ g ∈ db.version.filesAt level,
        f.smallestKey = [] → g.smallestKey = [] → f = g := by
  have hlife : Life Compaction.Admissible oneTier plainOptions
      (play plainOptions {} besideScript ({}, [])).1 :=
    Life.created.play besideScript (by simp [besideScript, settle, moveDown, flushBatch])
      (by decide)
  have hok : ((play plainOptions {} besideScript ({}, [])).1.checkInvariants oneTier nineObjects
      plainOptions {}).1 = .ok := by decide +kernel
  exact ⟨by decide, hok,
    (check_invariants_ok_iff hlife (by decide +kernel) fun _ _ => ⟨_, rfl⟩).1 hok⟩

/-- Two files of range tombstones alone fail the check; so does what two picks leave, one file from
the empty key to 9 and one of 2. -/
theorem check_invariants_refuses_ranges :
    (∃ db, Life Compaction.Admissible oneTier plainOptions db ∧ db.Lists nineObjects ∧
      db.checkInvariants oneTier nineObjects plainOptions {} = (.corrupt, .levelOverlap)) ∧
    ∃ db, Life (fun c v => oneFile.pickCompaction plainOptions v 9 = some (some c)) oneTier
        plainOptions db ∧ db.Lists nineObjects ∧
      (db.version.filesAt 1).map FileMetadata.smallestKey = [[], [2]] ∧
      db.checkInvariants oneTier nineObjects plainOptions {} = (.corrupt, .levelOverlap) := by
  have hranges : Life Compaction.Admissible oneTier plainOptions
      (play plainOptions {} twoRangesScript ({}, [])).1 :=
    Life.created.play twoRangesScript (by simp [twoRangesScript, settle, moveDown, flushBatch])
      (by decide +kernel)
  have hpicked : Life (fun c v => oneFile.pickCompaction plainOptions v 9 = some (some c)) oneTier
      plainOptions (play plainOptions {} pickedScript ({}, [])).1 :=
    Life.created.play pickedScript (by simp [pickedScript, flushBatch, picked_ne])
      (by decide +kernel)
  exact ⟨⟨_, hranges, by decide +kernel, by decide +kernel⟩,
    ⟨_, hpicked, by decide +kernel, by decide +kernel, by decide +kernel⟩⟩

end ElysiumKV
