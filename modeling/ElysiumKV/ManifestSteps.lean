import ElysiumKV.ManifestReplay
import Mathlib.Logic.Relation

/-!
# What a writer does to the catalog

Whatever the writer is in the middle of, the pointer's generation only rises, and the objects of the
one it names only grow (`Advances`).
-/

namespace ElysiumKV

open Program VersionSet

variable {ι : Type}

/-! ### The manifest at an instant -/

/-- A generation: a snapshot, what it stands for, the edits after it. -/
structure Manifested (ι : Type) where
  base : List (Record ι)
  snapshot : VersionSnapshot
  records : List (Record ι)

/-- What it replays to. -/
def Manifested.version (m : Manifested ι) : Version :=
  m.records.foldl (fun v r => v.apply r.edit) (ofSnapshot m.snapshot)

/-- Its objects read back, whichever providers sealed them. -/
structure Legible (config : ManifestConfig) (generation : ℕ) (contents : Generation ι)
    (m : Manifested ι) : Prop where
  snapshot : ∃ object provider, contents.snapshot = some object ∧ object.label = m.base ∧
    readSnapshot config generation object.bytes = .ok (m.snapshot, provider)
  edits : ∀ i r, m.records[i]? = some r → ∃ object provider,
    contents.edits.lookup (i + 1) = some object ∧ object.label = r.id ∧
      ∀ tail, readEdit config generation (i + 1) tail object.bytes = .read r.edit provider
  only : ∀ seq, (contents.edits.lookup seq).isSome → 1 ≤ seq ∧ seq ≤ m.records.length

theorem legible_of_holds {config : ManifestConfig} {generation : ℕ} {contents : Generation ι}
    {base records : List (Record ι)} {snapshot : VersionSnapshot}
    (h : Holds config generation contents base snapshot records) :
    Legible config generation contents ⟨base, snapshot, records⟩ where
  snapshot := by
    obtain ⟨object, hobject, hlabel, hread⟩ := h.snapshot
    exact ⟨object, _, hobject, hlabel, hread⟩
  edits i r hi := by
    obtain ⟨object, hobject, hlabel, hread⟩ := h.edits i r hi
    exact ⟨object, _, hobject, hlabel, hread⟩
  only := h.only

/-- The pointed generation, its snapshot and all its edits. -/
def ManifestState (config : ManifestConfig) (w : Catalog ι) (entry : CatalogEntry)
    (m : Manifested ι) : Prop :=
  w.pointer = some entry ∧ Legible config entry.generation (w.generation entry.generation) m

/-- The generation the pointer names reads back. -/
def Published (config : ManifestConfig) (w : Catalog ι) : Prop :=
  ∀ entry, w.pointer = some entry → ∃ m, ManifestState config w entry m

/-- The pointer names no generation, or one below. -/
def PointsBelow (w : Catalog ι) (g : ℕ) : Prop :=
  ∀ entry, w.pointer = some entry → entry.generation < g

/-- Snapshots up to the pointed one are as they were, or gone. -/
def LeavesSnapshots (w w' : Catalog ι) : Prop :=
  ∀ entry g, w.pointer = some entry → g ≤ entry.generation →
    w'.snapshot g = w.snapshot g ∨ w'.snapshot g = none

/-- It appends an edit to the pointed generation, installs a legible one above, or works in others.
-/
inductive WriterStep (config : ManifestConfig) : Catalog ι → Catalog ι → Prop
  | append {w : Catalog ι} {entry : CatalogEntry} {m : Manifested ι} (r : Record ι) (bytes : Bytes)
      {provider : Bytes} (hstate : ManifestState config w entry m)
      (hread : ∀ tail, readEdit config entry.generation (m.records.length + 1) tail bytes =
        .read r.edit provider) :
      WriterStep config w (w.withEdit entry.generation (m.records.length + 1) bytes r.id)
  | install {w w' : Catalog ι} {entry : CatalogEntry} {m : Manifested ι}
      (habove : PointsBelow w entry.generation) (hstate : ManifestState config w' entry m)
      (hleft : LeavesSnapshots w w') : WriterStep config w w'
  | elsewhere {w w' : Catalog ι} (hpointer : w'.pointer = w.pointer)
      (hlive : ∀ entry, w.pointer = some entry →
        w'.generation entry.generation = w.generation entry.generation)
      (hleft : LeavesSnapshots w w') : WriterStep config w w'

/-- The pointer does not fall, no installed snapshot is replaced, and a generation that stays
installed is not touched. -/
structure Advances (w w' : Catalog ι) : Prop where
  forward : ∀ entry, w.pointer = some entry →
    ∃ entry', w'.pointer = some entry' ∧ entry.generation ≤ entry'.generation
  kept : LeavesSnapshots w w'
  grown : ∀ entry entry', w.pointer = some entry → w'.pointer = some entry' →
    entry'.generation = entry.generation → entry' = entry ∧
      w'.snapshot entry.generation = w.snapshot entry.generation ∧
      ∀ seq object, w.edit entry.generation seq = some object →
        w'.edit entry.generation seq = some object

theorem Advances.refl (w : Catalog ι) : Advances w w where
  forward entry h := ⟨entry, h, le_rfl⟩
  kept _ _ _ _ := .inl rfl
  grown _ _ h h' _ := ⟨Option.some.inj (h'.symm.trans h), rfl, fun _ _ => id⟩

theorem Advances.trans {w w' w'' : Catalog ι} (h : Advances w w') (h' : Advances w' w'') :
    Advances w w'' where
  forward entry hp := by
    obtain ⟨entry', hp', hle⟩ := h.forward entry hp
    obtain ⟨entry'', hp'', hle'⟩ := h'.forward entry' hp'
    exact ⟨entry'', hp'', hle.trans hle'⟩
  kept entry g hp hg := by
    obtain ⟨entry', hp', hle⟩ := h.forward entry hp
    rcases h'.kept entry' g hp' (hg.trans hle) with hk | hk
    · rw [hk]
      exact h.kept entry g hp hg
    · exact .inr hk
  grown entry entry'' hp hp'' heq := by
    obtain ⟨entry', hp', hle⟩ := h.forward entry hp
    obtain ⟨e, he, hle'⟩ := h'.forward entry' hp'
    obtain rfl := Option.some.inj (he.symm.trans hp'')
    obtain ⟨rfl, hsnapshot, hedits⟩ := h.grown entry entry' hp hp' (by omega)
    obtain ⟨rfl, hsnapshot', hedits'⟩ := h'.grown _ e hp' hp'' heq
    exact ⟨rfl, hsnapshot'.trans hsnapshot, fun seq object ho => hedits' _ _ (hedits _ _ ho)⟩

theorem Advances.between {w w₁ w' : Catalog ι} {entry entry' : CatalogEntry} (h : Advances w w₁)
    (h' : Advances w₁ w') (hpointer : w.pointer = some entry) (hpointer' : w'.pointer = some entry')
    (hstays : entry'.generation = entry.generation) : w₁.pointer = some entry := by
  obtain ⟨e, hp, hle⟩ := h.forward entry hpointer
  obtain ⟨e', hp', hle'⟩ := h'.forward e hp
  obtain rfl := Option.some.inj (hp'.symm.trans hpointer')
  obtain ⟨rfl, -⟩ := h.grown entry e hpointer hp (by omega)
  exact hp

section Step

variable {config : ManifestConfig} {w w' : Catalog ι}

theorem snapshot_withEdit (w : Catalog ι) (g g' seq : ℕ) (bytes : Bytes) (id : ι) :
    (w.withEdit g seq bytes id).snapshot g' = w.snapshot g' := by
  unfold Catalog.snapshot Catalog.withEdit
  rw [Catalog.generation_set]
  split_ifs with h
  · rw [h]
  · rfl

theorem ManifestState.edit_eq_none {entry : CatalogEntry} {m : Manifested ι}
    (h : ManifestState config w entry m) {seq : ℕ} (hseq : m.records.length < seq) :
    w.edit entry.generation seq = none := by
  cases hedit : w.edit entry.generation seq with
  | none => rfl
  | some object =>
    have := (h.2.only seq (by rw [← Catalog.edit, hedit]; rfl)).2
    omega

theorem WriterStep.advances (h : WriterStep config w w') : Advances w w' := by
  cases h with
  | @append entry m r bytes provider hstate hread =>
    refine ⟨fun e he => ⟨e, he, le_rfl⟩, fun _ _ _ _ => .inl (snapshot_withEdit ..),
      fun e e' he he' _ => ⟨Option.some.inj (he'.symm.trans he), snapshot_withEdit ..,
        fun seq object hobject => ?_⟩⟩
    rw [Catalog.edit_withEdit]
    split_ifs with heq
    · obtain ⟨hg, hseq⟩ := Prod.mk.inj heq
      rw [hg, hseq, hstate.edit_eq_none (Nat.lt_succ_self _)] at hobject
      cases hobject
    · exact hobject
  | @install _ entry m habove hstate hleft =>
    refine ⟨fun e he => ⟨entry, hstate.1, (habove e he).le⟩, hleft, fun e e' he he' heq => ?_⟩
    obtain rfl := Option.some.inj (hstate.1.symm.trans he')
    exact absurd heq (habove e he).ne'
  | elsewhere hpointer hlive hleft =>
    refine ⟨fun e he => ⟨e, hpointer.trans he, le_rfl⟩, hleft, fun e e' he he' _ =>
      ⟨Option.some.inj (he'.symm.trans (hpointer.trans he)), ?_, fun seq object hobject => ?_⟩⟩
    · rw [Catalog.snapshot, Catalog.snapshot, hlive e he]
    · rw [Catalog.edit, hlive e he]
      exact hobject

theorem ManifestState.withEdit {entry : CatalogEntry} {m : Manifested ι} {r : Record ι}
    {bytes provider : Bytes} (h : ManifestState config w entry m)
    (hread : ∀ tail, readEdit config entry.generation (m.records.length + 1) tail bytes =
      .read r.edit provider) :
    ManifestState config (w.withEdit entry.generation (m.records.length + 1) bytes r.id) entry
      { m with records := m.records ++ [r] } := by
  refine ⟨h.1, ?_⟩
  rw [Catalog.withEdit, Catalog.generation_set, if_pos rfl]
  refine ⟨h.2.snapshot, fun i r' hi => ?_, fun seq hseq => ?_⟩
  · by_cases hlast : i = m.records.length
    · subst hlast
      obtain rfl : r = r' := by simpa using hi
      exact ⟨⟨bytes, r.id⟩, provider, AList.lookup_insert _, rfl, hread⟩
    · have hlt : i < m.records.length := by
        have := (List.getElem?_eq_some_iff.1 hi).1
        simp only [List.length_append, List.length_cons, List.length_nil] at this
        omega
      rw [List.getElem?_append_left hlt] at hi
      obtain ⟨object, provider', hobject, hrest⟩ := h.2.edits i r' hi
      exact ⟨object, provider', by rw [AList.lookup_insert_ne (by omega)]; exact hobject, hrest⟩
  · rw [List.length_append, List.length_singleton]
    by_cases hlast : seq = m.records.length + 1
    · omega
    · rw [AList.lookup_insert_ne hlast] at hseq
      have := h.2.only seq hseq
      omega

theorem WriterStep.published (h : WriterStep config w w') (hw : Published config w) :
    Published config w' := by
  intro e he
  cases h with
  | @append entry m r bytes provider hstate hread =>
    obtain rfl := Option.some.inj (hstate.1.symm.trans he)
    exact ⟨_, hstate.withEdit hread⟩
  | @install _ entry m habove hstate hleft =>
    obtain rfl := Option.some.inj (hstate.1.symm.trans he)
    exact ⟨m, hstate⟩
  | elsewhere hpointer hlive hleft =>
    obtain ⟨m, hm⟩ := hw e (hpointer.symm.trans he)
    exact ⟨m, he, hlive e hm.1 ▸ hm.2⟩

/-- Any number of steps. -/
abbrev WriterSteps (config : ManifestConfig) : Catalog ι → Catalog ι → Prop :=
  Relation.ReflTransGen (WriterStep config)

theorem WriterSteps.advances (h : WriterSteps config w w') : Advances w w' := by
  induction h with
  | refl => exact .refl w
  | tail _ hstep ih => exact ih.trans hstep.advances

theorem WriterSteps.published (h : WriterSteps config w w') (hw : Published config w) :
    Published config w' := by
  induction h with
  | refl => exact hw
  | tail _ hstep ih => exact hstep.published ih

end Step

end ElysiumKV
