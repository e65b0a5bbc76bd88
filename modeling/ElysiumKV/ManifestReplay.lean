import ElysiumKV.VersionSet

/-!
# Replaying a manifest

A version that edits produced keeps levels sorted and files on the levels they record, so its
snapshot restores the same files in order (`ofSnapshot_same`), and sealed objects within the limits
read back.
-/

namespace ElysiumKV

open Program Program.Prog ManifestPayload List

namespace Version

/-! ### Versions that look the same -/

/-- Equal files in order at every level, pointers, truncation point and floor. -/
structure Same (v v' : Version) : Prop where
  files : ∀ level, v.filesAt level = v'.filesAt level
  pointers : v.compactionPointers = v'.compactionPointers
  truncation : v.truncationPoint = v'.truncationPoint
  floor : v.watermarkFloor = v'.watermarkFloor

theorem Same.refl (v : Version) : v.Same v := ⟨fun _ => rfl, rfl, rfl, rfl⟩

variable {v v' : Version}

theorem Same.symm (h : v.Same v') : v'.Same v :=
  ⟨fun level => (h.files level).symm, h.pointers.symm, h.truncation.symm, h.floor.symm⟩

theorem Same.apply (h : v.Same v') (edit : VersionEdit) : (v.apply edit).Same (v'.apply edit) where
  files level := by rw [filesAt_apply, filesAt_apply, h.files]
  pointers := by
    show edit.compactionPointers.foldl _ _ = edit.compactionPointers.foldl _ _
    rw [h.pointers]
  truncation := by
    show (if _ then _ else _) = if _ then _ else _
    rw [h.truncation]
  floor := by simp only [Version.apply, h.floor]

/-! ### Versions an edit history produces -/

/-- Sorted levels, files on the level they record, pointers a map. -/
structure Ordered (v : Version) : Prop where
  sorted : ∀ level, sortLevel level (v.filesAt level) = v.filesAt level
  levels : ∀ level, ∀ f ∈ v.filesAt level, f.level = level
  pointers : SortedMap.Sorted Prod.fst v.compactionPointers

theorem sortLevel_sortLevel (level : ℕ) (files : List FileMetadata) :
    sortLevel level (sortLevel level files) = sortLevel level files := by
  unfold sortLevel
  split_ifs
  · exact (pairwise_insertionSort NewerFirst files).insertionSort_eq
  · exact (pairwise_insertionSort KeyOrder files).insertionSort_eq

theorem ordered_empty : Ordered {} where
  sorted level := by simp [filesAt]
  levels level f hf := by simp [filesAt] at hf
  pointers := .nil

theorem Ordered.apply (h : v.Ordered) (edit : VersionEdit) : (v.apply edit).Ordered where
  sorted level := by rw [filesAt_apply, sortLevel_sortLevel]
  levels level f hf := by
    rcases mem_filesAt_apply.1 hf with ⟨hold, -⟩ | ⟨-, hlevel⟩
    · exact h.levels level f hold
    · exact hlevel
  pointers := by
    exact h.pointers.foldl_insert Prod.fst edit.compactionPointers

theorem Same.ordered (h : v.Same v') (hv : v.Ordered) : v'.Ordered where
  sorted level := h.files level ▸ hv.sorted level
  levels level := h.files level ▸ hv.levels level
  pointers := h.pointers ▸ hv.pointers

theorem filter_flatten_level {levels : List (List FileMetadata)} {base : ℕ}
    (h : ∀ i, ∀ f ∈ (levels[i]?).getD [], f.level = base + i) (level : ℕ) :
    (levels.flatten.filter fun f => f.level = base + level) = (levels[level]?).getD [] := by
  induction levels generalizing base level with
  | nil => rfl
  | cons files levels ih =>
    have hfiles : ∀ f ∈ files, f.level = base := fun f hf => h 0 f hf
    have hrest : ∀ i, ∀ f ∈ (levels[i]?).getD [], f.level = base + 1 + i := by
      intro i f hf
      have := h (i + 1) f (by simpa using hf)
      omega
    rw [flatten_cons, filter_append]
    cases level with
    | zero =>
      have hnone : levels.flatten.filter (fun f => f.level = base + 0) = [] := by
        refine filter_eq_nil_iff.2 fun f hf => ?_
        obtain ⟨l, hl, hfl⟩ := mem_flatten.1 hf
        obtain ⟨i, hi⟩ := mem_iff_getElem?.1 hl
        have := hrest i f (by simpa [hi] using hfl)
        simp only [decide_eq_true_eq]
        omega
      have hall : files.filter (fun f => f.level = base + 0) = files :=
        filter_eq_self.2 fun f hf => by simpa using hfiles f hf
      rw [hnone, hall, append_nil]
      rfl
    | succ level =>
      have hnone : files.filter (fun f => f.level = base + (level + 1)) = [] := by
        refine filter_eq_nil_iff.2 fun f hf => ?_
        have := hfiles f hf
        simp only [decide_eq_true_eq]
        omega
      have hnext := ih hrest level
      rw [hnone, nil_append, Nat.add_right_comm base 1 level] at *
      simpa [Nat.add_assoc] using hnext

theorem Ordered.filter_allFiles (h : v.Ordered) (level : ℕ) :
    (v.allFiles.filter fun f => f.level = level) = v.filesAt level := by
  have hbase : ∀ i, ∀ f ∈ (v.levels[i]?).getD [], f.level = 0 + i := by
    intro i f hf
    rw [Nat.zero_add]
    exact h.levels i f hf
  have hfilter := filter_flatten_level hbase level
  rwa [Nat.zero_add] at hfilter

/-! ### Versions that fit the format -/

/-- The values fit the format. -/
structure Representable (v : Version) : Prop where
  files : ∀ level, ∀ f ∈ v.filesAt level, f.Representable
  pointers : ∀ p ∈ v.compactionPointers, p.1 ≤ maxLevels
  floor : ∀ floor ∈ v.watermarkFloor, floor.Representable

theorem representable_empty : Representable {} where
  files level f hf := by simp [filesAt] at hf
  pointers p hp := by cases hp
  floor floor hfloor := by cases hfloor

theorem Same.representable (h : v.Same v') (hv : v.Representable) : v'.Representable where
  files level := h.files level ▸ hv.files level
  pointers := h.pointers ▸ hv.pointers
  floor := h.floor ▸ hv.floor

theorem mem_foldl_insert {edits pointers : List (ℕ × Key)} {p : ℕ × Key}
    (h : p ∈ edits.foldl (fun ps p => SortedMap.insert Prod.fst p ps) pointers) :
    p ∈ edits ∨ p ∈ pointers := by
  induction edits generalizing pointers with
  | nil => exact .inr h
  | cons q edits ih =>
    rcases ih h with h | h
    · exact .inl (mem_cons_of_mem _ h)
    · rcases SortedMap.mem_insert Prod.fst h with rfl | h
      · exact .inl (mem_cons_self ..)
      · exact .inr h

theorem Representable.apply (h : v.Representable) {edit : VersionEdit}
    (hedit : edit.Representable) : (v.apply edit).Representable where
  files level f hf := by
    rcases mem_filesAt_apply.1 hf with ⟨hold, -⟩ | ⟨hnew, -⟩
    · exact h.files level f hold
    · exact hedit.added f hnew
  pointers p hp := by
    rcases mem_foldl_insert hp with hnew | hold
    · exact hedit.pointers p hnew
    · exact h.pointers p hold
  floor floor hfloor := by
    simp only [Version.apply] at hfloor
    cases hupdate : edit.floorUpdate with
    | silent => exact h.floor floor (by simpa [hupdate] using hfloor)
    | set =>
      rw [hupdate] at hfloor
      obtain rfl := Option.some.inj hfloor
      exact hedit.floor
    | clear =>
      rw [hupdate] at hfloor
      cases hfloor

end Version

namespace VersionSet

variable {ι : Type}

variable {v : Version}

theorem ofSnapshot_same (vs : VersionSet ι) (h : v.Ordered) :
    (ofSnapshot (vs.snapshotOf v)).Same v where
  files level := by
    rw [ofSnapshot, Version.filesAt_apply]
    show sortLevel level (List.filter _ [] ++ v.allFiles.filter _) = _
    rw [filter_nil, nil_append, h.filter_allFiles, h.sorted]
  pointers := by
    have hpointers : SortedMap.Sorted Prod.fst ([] ++ v.compactionPointers) := h.pointers
    exact SortedMap.foldl_insert_append Prod.fst hpointers
  truncation := by
    show (if v.truncationPoint < [] then _ else v.truncationPoint) = _
    rw [if_neg (not_lt_nil _)]
  floor := rfl

/-! ### Objects that read back -/

/-- The edit reads back: its values, the limits of decoder and payload, and its files' providers. -/
structure EditFits (config : ManifestConfig) (edit : VersionEdit) : Prop where
  representable : edit.Representable
  content : (editContent edit).length ≤ maxManifestBytes
  payload : (encodeVersionEdit config.codecs edit).length ≤ maxPayloadBytes
  files : refusesFiles config edit.added = false

/-- A snapshot keeps the limits, and compression does not fail. -/
structure SnapshotRoom (config : ManifestConfig) (snapshot : VersionSnapshot) : Prop where
  content : (snapshotContent snapshot).length ≤ maxManifestBytes
  payload : (encodeVersionSnapshot config.codecs snapshot).length ≤ maxPayloadBytes
  compresses : config.codecs.zstd.compress (snapshotContent snapshot) ≠ none

variable {edit : VersionEdit}

theorem readEdit_sealed {config : ManifestConfig} (fits : EditFits config edit)
    {generation seq draw : ℕ} {framed : Bytes}
    (h : sealPayload config.registry config.codecs generation draw (editAddress generation seq)
      (encodeVersionEdit config.codecs edit) = .ok framed) (tail : Bool) :
    readEdit config generation seq tail framed = .read edit.normalized config.registry.primary := by
  have hfiles : refusesFiles config edit.normalized.added = false := fits.files
  unfold readEdit
  simp only [openPayload_sealPayload h fits.payload,
    decodeVersionEdit_encode config.codecs fits.representable fits.content, hfiles]
  rfl

theorem readSnapshot_sealed {config : ManifestConfig} {snapshot : VersionSnapshot}
    (room : SnapshotRoom config snapshot) (hrep : snapshot.Representable)
    (hfiles : refusesFiles config snapshot.files = false) {generation draw : ℕ} {framed : Bytes}
    (h : sealPayload config.registry config.codecs generation draw (snapshotAddress generation)
      (encodeVersionSnapshot config.codecs snapshot) = .ok framed) :
    readSnapshot config generation framed = .ok (snapshot, config.registry.primary) := by
  unfold readSnapshot
  simp only [openPayload_sealPayload h room.payload,
    decodeVersionSnapshot_encode hrep room.content room.compresses, hfiles]
  rfl

theorem refusesFiles_eq_false {config : ManifestConfig} {files : List FileMetadata} :
    refusesFiles config files = false ↔
      (config.registry.refusesPlaintext = true → ∀ f ∈ files, f.encryptionProvider ≠ []) := by
  unfold refusesFiles
  cases config.registry.refusesPlaintext <;> simp

theorem refusesFiles_apply {config : ManifestConfig} (h : refusesFiles config v.allFiles = false)
    (hedit : refusesFiles config edit.added = false) :
    refusesFiles config (v.apply edit).allFiles = false := by
  rw [refusesFiles_eq_false] at *
  intro hrefuses f hf
  obtain ⟨level, hlevel⟩ := Version.mem_allFiles.1 hf
  rcases Version.mem_filesAt_apply.1 hlevel with ⟨hold, -⟩ | ⟨hnew, -⟩
  · exact h hrefuses f (Version.mem_allFiles.2 ⟨level, hold⟩)
  · exact hedit hrefuses f hnew

/-- A snapshot within the limits reads back as the version. -/
structure Restorable (config : ManifestConfig) (v : Version) : Prop where
  ordered : v.Ordered
  representable : v.Representable
  files : refusesFiles config v.allFiles = false

theorem restorable_empty (config : ManifestConfig) : Restorable config {} :=
  ⟨Version.ordered_empty, Version.representable_empty,
    refusesFiles_eq_false.2 fun _ f hf => by cases hf⟩

theorem Restorable.apply {config : ManifestConfig} (h : Restorable config v)
    (hrep : edit.Representable) (hfiles : refusesFiles config edit.added = false) :
    Restorable config (v.apply edit) :=
  ⟨h.ordered.apply edit, h.representable.apply hrep, refusesFiles_apply h.files hfiles⟩

theorem Restorable.same {config : ManifestConfig} {v' : Version} (h : Restorable config v)
    (hsame : v.Same v') : Restorable config v' := by
  refine ⟨hsame.ordered h.ordered, hsame.representable h.representable,
    refusesFiles_eq_false.2 fun hrefuses f hf => ?_⟩
  obtain ⟨level, hlevel⟩ := Version.mem_allFiles.1 hf
  rw [← hsame.files] at hlevel
  exact refusesFiles_eq_false.1 h.files hrefuses f (Version.mem_allFiles.2 ⟨level, hlevel⟩)

theorem snapshotOf_representable {vs : VersionSet ι} (h : v.Representable)
    (hnumber : vs.nextFileNumber < 2 ^ 64) : (vs.snapshotOf v).Representable where
  nextFileNumber := hnumber
  files f hf := by
    obtain ⟨level, hlevel⟩ := Version.mem_allFiles.1 hf
    exact h.files level f hlevel
  pointers := h.pointers
  floor := h.floor

/-! ### The replay loop -/

/-- The edits of a generation, replayed one by one. -/
def Assembled.replayAll (a : Assembled ι) (config : ManifestConfig) (records : List (Record ι)) :
    Assembled ι :=
  records.foldl (fun a r => a.replay config r.id r.edit config.registry.primary) a

theorem Assembled.expectedSeq_replayAll (a : Assembled ι) (config : ManifestConfig)
    (records : List (Record ι)) :
    (a.replayAll config records).expectedSeq = a.expectedSeq + records.length := by
  induction records generalizing a with
  | nil => rfl
  | cons r records ih =>
    refine (ih _).trans ?_
    rw [length_cons]
    show a.expectedSeq + 1 + _ = _
    omega

section Run

variable {W : Type} {answer : (c : Call ι) → W → c.Result × W} {w : W} {config : ManifestConfig}

/-- The catalog serves a record's edit at an address. -/
def ServesEdit (config : ManifestConfig) (answer : (c : Call ι) → W → c.Result × W) (w : W)
    (generation seq : ℕ) (r : Record ι) : Prop :=
  ∃ object : Object ι, answer (.getEdit generation seq) w = (.ok object, w) ∧ object.label = r.id ∧
    ∀ tail, readEdit config generation seq tail object.bytes = .read r.edit config.registry.primary

theorem run_replayEdits (generation : ℕ) (last : Option ℕ) (rest : List ℕ) (a : Assembled ι)
    {records : List (Record ι)}
    (h : ∀ i r, records[i]? = some r →
      ServesEdit config answer w generation (a.expectedSeq + i) r) :
    (replayEdits config generation last (List.range' a.expectedSeq records.length ++ rest) a).run
        answer w =
      (replayEdits config generation last rest (a.replayAll config records)).run answer w := by
  induction records generalizing a with
  | nil => rfl
  | cons r records ih =>
    obtain ⟨object, hget, hlabel, hread⟩ := h 0 r rfl
    rw [Nat.add_zero] at hget hread
    have hnext : ∀ i r', records[i]? = some r' → ServesEdit config answer w generation
        ((a.replay config r.id r.edit config.registry.primary).expectedSeq + i) r' := by
      intro i r' hi
      have hserves := h (i + 1) r' (by simpa using hi)
      rwa [show a.expectedSeq + (i + 1) = a.expectedSeq + 1 + i by omega] at hserves
    have hrest := ih _ hnext
    rw [length_cons, List.range'_succ, cons_append, replayEdits, if_neg (not_not.2 rfl)]
    refine (run_ask_bind hget _).trans ?_
    simp only [hread, hlabel]
    exact hrest

section Recover

-- a catalog that serves the pointer, the snapshot it names and the list of the edits after it
variable {entry : CatalogEntry} {object : Object (List (Record ι))} {snapshot : VersionSnapshot}
  {provider : Bytes} {seqs : List ℕ} {vs : VersionSet ι}
  (hread : answer .read w = (.ok (some entry), w))
  (hsnapshot : answer (.getSnapshot entry.generation) w = (.ok object, w))
  (hopen : readSnapshot config entry.generation object.bytes = .ok (snapshot, provider))
  (hlist : answer (.listEdits entry.generation) w = (.ok seqs, w))

include hread hsnapshot hopen hlist

theorem run_recover {a : Assembled ι}
    (hreplay : (replayEdits config entry.generation (seqs.insertionSort (· ≤ ·)).getLast?
      (seqs.insertionSort (· ≤ ·)) (assembledSnapshot config snapshot provider object.label)).run
        answer w = (.assembled a, w))
    (hbehind : vs.behind entry.generation a.expectedSeq = false) :
    (recover config vs).run answer w = ((.ok, vs.recovered entry a), w) := by
  have hattempt : (recoverAttempt config vs).run answer w =
      (.returned (.ok, vs.recovered entry a), w) := by
    unfold recoverAttempt
    refine (run_ask_bind hread _).trans ?_
    refine (run_ask_bind hsnapshot _).trans ?_
    simp only [hopen]
    refine (run_ask_bind hlist _).trans ?_
    rw [run_bind, hreplay]
    refine (run_ask_bind hread _).trans ?_
    simp [hbehind]
  unfold recover recoverAttempts recoverLoop
  rw [run_bind, hattempt]
  rfl

theorem run_recover_unreadable
    (hreplay : (replayEdits config entry.generation (seqs.insertionSort (· ≤ ·)).getLast?
      (seqs.insertionSort (· ≤ ·)) (assembledSnapshot config snapshot provider object.label)).run
        answer w = (.unreadable, w)) :
    (recover config vs).run answer w = ((.io, vs), w) := by
  have hattempt : (recoverAttempt config vs).run answer w = (.returned (.io, vs), w) := by
    unfold recoverAttempt
    refine (run_ask_bind hread _).trans ?_
    refine (run_ask_bind hsnapshot _).trans ?_
    simp only [hopen]
    refine (run_ask_bind hlist _).trans ?_
    rw [run_bind, hreplay]
    refine (run_ask_bind hread _).trans ?_
    simp [movedFrom]
  unfold recover recoverAttempts recoverLoop
  rw [run_bind, hattempt]
  rfl

end Recover

end Run

/-! ### What a generation holds -/

/-- The generation's snapshot stands for `base` and reads back. -/
def HoldsSnapshot (config : ManifestConfig) (generation : ℕ) (contents : Generation ι)
    (base : List (Record ι)) (snapshot : VersionSnapshot) : Prop :=
  ∃ object, contents.snapshot = some object ∧ object.label = base ∧
    readSnapshot config generation object.bytes = .ok (snapshot, config.registry.primary)

/-- After it come the edits of `records`, all legible, and no other. -/
structure Holds (config : ManifestConfig) (generation : ℕ) (contents : Generation ι)
    (base : List (Record ι)) (snapshot : VersionSnapshot) (records : List (Record ι)) : Prop where
  snapshot : HoldsSnapshot config generation contents base snapshot
  edits : ∀ i r, records[i]? = some r → ∃ object, contents.edits.lookup (i + 1) = some object ∧
    object.label = r.id ∧ ∀ tail, readEdit config generation (i + 1) tail object.bytes =
      .read r.edit config.registry.primary
  only : ∀ seq, (contents.edits.lookup seq).isSome → 1 ≤ seq ∧ seq ≤ records.length

variable {config : ManifestConfig} {generation : ℕ} {contents : Generation ι}
  {base records : List (Record ι)} {snapshot : VersionSnapshot}

theorem Holds.mem_keys (h : Holds config generation contents base snapshot records) (seq : ℕ) :
    seq ∈ contents.edits.keys ↔ 1 ≤ seq ∧ seq ≤ records.length := by
  rw [← AList.mem_keys, ← AList.lookup_isSome]
  constructor
  · exact h.only seq
  · rintro ⟨hpos, hle⟩
    obtain ⟨i, rfl⟩ := Nat.exists_eq_add_of_le' hpos
    obtain ⟨object, hobject, -⟩ := h.edits i records[i] (List.getElem?_eq_getElem hle)
    simp [hobject]

theorem insertionSort_eq_range' {seqs : List ℕ} {n : ℕ} (hnodup : seqs.Nodup)
    (h : ∀ seq, seq ∈ seqs ↔ 1 ≤ seq ∧ seq ≤ n) :
    seqs.insertionSort (· ≤ ·) = List.range' 1 n := by
  have hperm : seqs.Perm (List.range' 1 n) := by
    rw [perm_ext_iff_of_nodup hnodup (nodup_range' ..)]
    intro seq
    rw [h, mem_range'_1]
    omega
  refine List.Perm.eq_of_pairwise' (r := (· ≤ ·)) (pairwise_insertionSort _ _) ?_
    ((perm_insertionSort _ _).trans hperm)
  exact (pairwise_lt_range' ..).imp Nat.le_of_lt

/-- What a recovery assembles. -/
def assembledFrom (config : ManifestConfig) (base : List (Record ι)) (snapshot : VersionSnapshot)
    (records : List (Record ι)) : Assembled ι :=
  (assembledSnapshot config snapshot config.registry.primary base).replayAll config records

theorem Holds.serves {w : Catalog ι} {entry : CatalogEntry}
    (h : Holds config entry.generation (w.generation entry.generation) base snapshot records)
    (i : ℕ) (r : Record ι) (hr : records[i]? = some r) :
    ServesEdit config Catalog.answer w entry.generation (1 + i) r := by
  obtain ⟨object, hlookup, hlabel, hread⟩ := h.edits i r hr
  rw [Nat.add_comm 1 i]
  refine ⟨object, ?_, hlabel, hread⟩
  have hedit : w.edit entry.generation (i + 1) = some object := hlookup
  simp only [Catalog.answer, hedit]

theorem Holds.run_recover {w : Catalog ι} {entry : CatalogEntry} (hpointer : w.pointer = some entry)
    (h : Holds config entry.generation (w.generation entry.generation) base snapshot records) :
    (recover config {}).run Catalog.answer w =
      ((.ok, ({} : VersionSet ι).recovered entry (assembledFrom config base snapshot records)),
        w) := by
  obtain ⟨object, hobject, hlabel, hread⟩ := h.snapshot
  have hsnapshot : w.snapshot entry.generation = some object := hobject
  have hreplay : (replayEdits config entry.generation
      ((w.generation entry.generation).edits.keys.insertionSort (· ≤ ·)).getLast?
      ((w.generation entry.generation).edits.keys.insertionSort (· ≤ ·))
      (assembledSnapshot config snapshot config.registry.primary object.label)).run Catalog.answer w =
        (.assembled (assembledFrom config base snapshot records), w) := by
    rw [insertionSort_eq_range' (AList.keys_nodup _) h.mem_keys, hlabel]
    rw [← append_nil (List.range' 1 records.length)]
    exact run_replayEdits _ _ [] (assembledSnapshot config snapshot _ base) h.serves
  refine VersionSet.run_recover ?_ ?_ hread ?_ hreplay rfl
  · simp [Catalog.answer, hpointer]
  · simp [Catalog.answer, hsnapshot]
  · rfl

end VersionSet

/-! ### A plain configuration -/

/-- No encryption, no compression. -/
def plainConfig (editsPerGeneration : ℕ) : ManifestConfig where
  registry := passthroughRegistry
  codecs := ⟨verbatim, verbatim⟩
  editsPerGeneration := editsPerGeneration

theorem plainConfig_snapshotRoom {n : ℕ} {snapshot : VersionSnapshot}
    (h : (snapshotContent snapshot).length ≤ maxManifestBytes ∧
      (encodeVersionSnapshot (plainConfig n).codecs snapshot).length ≤ maxPayloadBytes) :
    VersionSet.SnapshotRoom (plainConfig n) snapshot := ⟨h.1, h.2, nofun⟩

end ElysiumKV
