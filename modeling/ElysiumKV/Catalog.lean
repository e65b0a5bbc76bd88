import ElysiumKV.Lib.Program
import ElysiumKV.ManifestPayload
import Mathlib.Data.List.AList

/-!
# The manifest catalog

A pointer moved by compare-and-set, and for each generation a snapshot and a sequence of edits,
written once. The labels of objects, which no operation looks at, say which `apply` wrote an edit
and which history a snapshot stands for.
-/

namespace ElysiumKV

open Program

/-- `ManifestCatalog::Entry` -/
structure CatalogEntry where
  generation : ℕ
  token : ℕ
deriving DecidableEq, Repr

/-- An edit as replayed, and which `apply` wrote it. -/
structure Record (ι : Type) where
  id : ι
  edit : VersionEdit
deriving DecidableEq

/-- A stored object with its label. -/
structure Object (β : Type) where
  bytes : Bytes
  label : β

/-- The snapshot and the edits of one generation. -/
structure Generation (ι : Type) where
  snapshot : Option (Object (List (Record ι))) := none
  edits : AList (fun _ : ℕ => Object ι) := ∅

/-- The pointer and the objects. -/
structure Catalog (ι : Type) where
  pointer : Option CatalogEntry := none
  generations : AList (fun _ : ℕ => Generation ι) := ∅

/-- What a `VersionSet` asks of its catalog and then of its surroundings: randomness, the clock, the
versions still held, the deleter. -/
inductive Call (ι : Type) : Type
  | read
  | compareAndSet (expected : Option CatalogEntry) (generation : ℕ)
  | putSnapshot (generation : ℕ) (bytes : Bytes) (history : List (Record ι))
  | getSnapshot (generation : ℕ)
  | putEdit (generation seq : ℕ) (bytes : Bytes) (id : ι)
  | getEdit (generation seq : ℕ)
  | listEdits (generation : ℕ)
  | listGenerations
  | deleteGeneration (generation : ℕ)
  | draw
  | clock
  | lock (tracked : List Version)
  | deleteObjects (files : List FileMetadata)

/-- What a call answers. -/
@[reducible] def Call.Result {ι : Type} : Call ι → Type
  | .read => Except Status (Option CatalogEntry)
  | .compareAndSet .. => Except Status (Option CatalogEntry)
  | .putSnapshot .. => Status
  | .getSnapshot _ => Except Status (Object (List (Record ι)))
  | .putEdit .. => Status
  | .getEdit .. => Except Status (Object ι)
  | .listEdits _ => Except Status (List ℕ)
  | .listGenerations => Except Status (List ℕ)
  | .deleteGeneration _ => Status
  | .draw => ℕ
  | .clock => ℕ
  | .lock _ => List Version
  | .deleteObjects _ => List FileMetadata

namespace Catalog

variable {ι : Type}

/-- A generation, empty if absent. -/
def generation (w : Catalog ι) (g : ℕ) : Generation ι := (w.generations.lookup g).getD {}

/-- Its snapshot. -/
def snapshot (w : Catalog ι) (g : ℕ) : Option (Object (List (Record ι))) := (w.generation g).snapshot

/-- Its edit at a sequence number. -/
def edit (w : Catalog ι) (g seq : ℕ) : Option (Object ι) := (w.generation g).edits.lookup seq

/-- Replace a generation. -/
def set (w : Catalog ι) (g : ℕ) (contents : Generation ι) : Catalog ι :=
  { w with generations := w.generations.insert g contents }

/-- Remove a generation. -/
def erase (w : Catalog ι) (g : ℕ) : Catalog ι :=
  { w with generations := w.generations.erase g }

/-- The entry an install leaves; the token counts installs. -/
def installed (w : Catalog ι) (g : ℕ) : CatalogEntry :=
  ⟨g, match w.pointer with
    | none => 1
    | some entry => entry.token + 1⟩

/-- Put a snapshot. -/
def withSnapshot (w : Catalog ι) (g : ℕ) (bytes : Bytes) (history : List (Record ι)) : Catalog ι :=
  w.set g { w.generation g with snapshot := some ⟨bytes, history⟩ }

/-- Put an edit. -/
def withEdit (w : Catalog ι) (g seq : ℕ) (bytes : Bytes) (id : ι) : Catalog ι :=
  w.set g { w.generation g with edits := (w.generation g).edits.insert seq ⟨bytes, id⟩ }

/-- Install a generation. -/
def withPointer (w : Catalog ι) (g : ℕ) : Catalog ι := { w with pointer := w.installed g }

/-- A healthy catalog. -/
def answer : (c : Call ι) → Catalog ι → c.Result × Catalog ι
  | .read, w => (.ok w.pointer, w)
  | .compareAndSet expected g, w =>
    if w.pointer = expected then (.ok (some (w.installed g)), w.withPointer g) else (.ok none, w)
  | .putSnapshot g bytes history, w =>
    if (w.snapshot g).isSome then (Status.config, w)
    else (Status.ok, w.withSnapshot g bytes history)
  | .getSnapshot g, w => match w.snapshot g with
    | none => (.error .notFound, w)
    | some object => (.ok object, w)
  | .putEdit g seq bytes id, w =>
    if (w.edit g seq).isSome then (Status.config, w)
    else (Status.ok, w.withEdit g seq bytes id)
  | .getEdit g seq, w => match w.edit g seq with
    | none => (.error .notFound, w)
    | some object => (.ok object, w)
  | .listEdits g, w => (.ok (w.generation g).edits.keys, w)
  | .listGenerations, w => (.ok w.generations.keys, w)
  | .deleteGeneration g, w => (Status.ok, w.erase g)
  | .draw, w => ((0 : ℕ), w)
  | .clock, w => ((0 : ℕ), w)
  | .lock tracked, w => (tracked, w)
  | .deleteObjects _, w => (([] : List FileMetadata), w)

/-- What a healthy catalog may answer: listings may be incomplete, and what is held or deleted is
some of what was asked about. -/
def Reply : (c : Call ι) → Catalog ι → c.Result → Catalog ι → Prop
  | .listGenerations, w, r, w' =>
    (r = .error .unsupported ∨ ∃ l, l ⊆ w.generations.keys ∧ r = .ok l) ∧ w' = w
  | .draw, w, _, w' => w' = w
  | .clock, w, _, w' => w' = w
  | .lock tracked, w, r, w' => List.Sublist r tracked ∧ w' = w
  | .deleteObjects files, w, r, w' => List.Sublist r files ∧ w' = w
  | c, w, r, w' => (r, w') = answer c w

/-- The answer is a failure. -/
def Failed : (c : Call ι) → c.Result → Prop
  | .read, r => r = .error .io
  | .compareAndSet .., r => r = .error .io
  | .putSnapshot .., r => r = Status.io
  | .getSnapshot _, r => r = .error .io
  | .putEdit .., r => r = Status.io
  | .getEdit .., r => r = .error .io
  | .listEdits _, r => r = .error .io
  | .listGenerations, r => r = .error .io
  | .deleteGeneration _, r => r = Status.io
  | _, _ => False

/-- A call may report a failure before or after it took effect. -/
def Faulty (c : Call ι) (w : Catalog ι) (r : c.Result) (w' : Catalog ι) : Prop :=
  Reply c w r w' ∨ Failed c r ∧ (w' = w ∨ ∃ r', Reply c w r' w')

/-! ### What the updates leave -/

@[simp] theorem pointer_erase (w : Catalog ι) (g : ℕ) : (w.erase g).pointer = w.pointer := rfl

@[simp] theorem generation_set (w : Catalog ι) (g g' : ℕ) (contents : Generation ι) :
    (w.set g contents).generation g' = if g' = g then contents else w.generation g' := by
  unfold generation set
  split_ifs with h
  · subst h
    simp
  · simp [AList.lookup_insert_ne h]

@[simp] theorem generation_erase (w : Catalog ι) (g g' : ℕ) :
    (w.erase g).generation g' = if g' = g then {} else w.generation g' := by
  unfold generation erase
  split_ifs with h
  · subst h
    simp
  · simp [AList.lookup_erase_ne h]

@[simp] theorem generation_withPointer (w : Catalog ι) (g g' : ℕ) :
    (w.withPointer g).generation g' = w.generation g' := rfl

@[simp] theorem pointer_withPointer (w : Catalog ι) (g : ℕ) :
    (w.withPointer g).pointer = some (w.installed g) := rfl

theorem edit_withEdit (w : Catalog ι) (g seq g' seq' : ℕ) (bytes : Bytes) (id : ι) :
    (w.withEdit g seq bytes id).edit g' seq' =
      if (g', seq') = (g, seq) then some ⟨bytes, id⟩ else w.edit g' seq' := by
  unfold edit withEdit
  rw [generation_set]
  by_cases hg : g' = g
  · subst hg
    by_cases hseq : seq' = seq
    · subst hseq
      simp
    · simp [hseq, AList.lookup_insert_ne hseq]
  · simp [hg]

theorem pointer_withPointer_ne (w : Catalog ι) (g : ℕ) : (w.withPointer g).pointer ≠ w.pointer := by
  rw [pointer_withPointer]
  unfold installed
  intro h
  cases hp : w.pointer with
  | none => simp [hp] at h
  | some entry =>
    simp only [hp, Option.some.injEq] at h
    have htoken := congrArg CatalogEntry.token h
    simp at htoken

/-! ### What each call may answer -/

theorem answer_putEdit_of_none {w : Catalog ι} {g seq : ℕ} (h : w.edit g seq = none) (bytes : Bytes)
    (id : ι) : answer (.putEdit g seq bytes id) w = (Status.ok, w.withEdit g seq bytes id) := by
  simp [answer, h]

theorem answer_putEdit_of_some {w : Catalog ι} {g seq : ℕ} {object : Object ι}
    (h : w.edit g seq = some object) (bytes : Bytes) (id : ι) :
    answer (.putEdit g seq bytes id) w = (Status.config, w) := by
  simp [answer, h]

variable {w w' : Catalog ι} {g seq : ℕ}

theorem reply_read {r : Except Status (Option CatalogEntry)} (h : Reply .read w r w') :
    r = .ok w.pointer ∧ w' = w := Prod.mk.inj h

theorem reply_compareAndSet {expected : Option CatalogEntry}
    {r : Except Status (Option CatalogEntry)} (h : Reply (.compareAndSet expected g) w r w') :
    w.pointer = expected ∧ r = .ok (some (w.installed g)) ∧ w' = w.withPointer g ∨
      w.pointer ≠ expected ∧ r = .ok none ∧ w' = w := by
  change (r, w') = if w.pointer = expected then _ else _ at h
  by_cases hp : w.pointer = expected
  · rw [if_pos hp] at h
    exact .inl ⟨hp, Prod.mk.inj h⟩
  · rw [if_neg hp] at h
    exact .inr ⟨hp, Prod.mk.inj h⟩

variable {r : Status} {bytes : Bytes}

theorem reply_putSnapshot {history : List (Record ι)}
    (h : Reply (.putSnapshot g bytes history) w r w') :
    w.snapshot g = none ∧ r = .ok ∧ w' = w.withSnapshot g bytes history ∨
      (w.snapshot g).isSome ∧ r = .config ∧ w' = w := by
  change (r, w') = if (w.snapshot g).isSome then _ else _ at h
  by_cases hp : (w.snapshot g).isSome
  · rw [if_pos hp] at h
    exact .inr ⟨hp, Prod.mk.inj h⟩
  · rw [if_neg hp] at h
    exact .inl ⟨by simpa using hp, Prod.mk.inj h⟩

theorem reply_putEdit {id : ι} (h : Reply (.putEdit g seq bytes id) w r w') :
    w.edit g seq = none ∧ r = .ok ∧ w' = w.withEdit g seq bytes id ∨
      (w.edit g seq).isSome ∧ r = .config ∧ w' = w := by
  change (r, w') = if (w.edit g seq).isSome then _ else _ at h
  by_cases hp : (w.edit g seq).isSome
  · rw [if_pos hp] at h
    exact .inr ⟨hp, Prod.mk.inj h⟩
  · rw [if_neg hp] at h
    exact .inl ⟨by simpa using hp, Prod.mk.inj h⟩

theorem reply_getSnapshot {r : Except Status (Object (List (Record ι)))}
    (h : Reply (.getSnapshot g) w r w') :
    w' = w ∧ (w.snapshot g = none ∧ r = .error .notFound ∨
      ∃ object, w.snapshot g = some object ∧ r = .ok object) := by
  change (r, w') = (match w.snapshot g with
    | none => (.error .notFound, w)
    | some object => (.ok object, w)) at h
  cases hs : w.snapshot g with
  | none =>
    rw [hs] at h
    exact ⟨(Prod.mk.inj h).2, .inl ⟨rfl, (Prod.mk.inj h).1⟩⟩
  | some object =>
    rw [hs] at h
    exact ⟨(Prod.mk.inj h).2, .inr ⟨object, rfl, (Prod.mk.inj h).1⟩⟩

theorem reply_getEdit {r : Except Status (Object ι)} (h : Reply (.getEdit g seq) w r w') :
    w' = w ∧ (w.edit g seq = none ∧ r = .error .notFound ∨
      ∃ object, w.edit g seq = some object ∧ r = .ok object) := by
  change (r, w') = (match w.edit g seq with
    | none => (.error .notFound, w)
    | some object => (.ok object, w)) at h
  cases hs : w.edit g seq with
  | none =>
    rw [hs] at h
    exact ⟨(Prod.mk.inj h).2, .inl ⟨rfl, (Prod.mk.inj h).1⟩⟩
  | some object =>
    rw [hs] at h
    exact ⟨(Prod.mk.inj h).2, .inr ⟨object, rfl, (Prod.mk.inj h).1⟩⟩

theorem reply_listEdits {r : Except Status (List ℕ)} (h : Reply (.listEdits g) w r w') :
    r = .ok (w.generation g).edits.keys ∧ w' = w := Prod.mk.inj h

theorem reply_listGenerations {r : Except Status (List ℕ)} (h : Reply .listGenerations w r w') :
    w' = w ∧ (r = .error .unsupported ∨ ∃ l, l ⊆ w.generations.keys ∧ r = .ok l) := ⟨h.2, h.1⟩

theorem reply_deleteGeneration (h : Reply (.deleteGeneration g) w r w') :
    r = .ok ∧ w' = w.erase g := Prod.mk.inj h

theorem reply_answer (c : Call ι) (w : Catalog ι) : Reply c w (answer c w).1 (answer c w).2 := by
  cases c with
  | listGenerations => exact ⟨.inr ⟨_, List.Subset.refl _, rfl⟩, rfl⟩
  | lock tracked => exact ⟨List.Sublist.refl _, rfl⟩
  | deleteObjects files => exact ⟨List.nil_sublist _, rfl⟩
  | _ => rfl

theorem not_failed_of_reply {c : Call ι} {r : c.Result} (h : Reply c w r w') : ¬ Failed c r := by
  intro hfailed
  cases c with
  | read => cases (reply_read h).1.symm.trans hfailed
  | compareAndSet expected g =>
    rcases reply_compareAndSet h with ⟨-, hr, -⟩ | ⟨-, hr, -⟩ <;> cases hr.symm.trans hfailed
  | putSnapshot g bytes history =>
    rcases reply_putSnapshot h with ⟨-, hr, -⟩ | ⟨-, hr, -⟩ <;> cases hr.symm.trans hfailed
  | getSnapshot g =>
    rcases (reply_getSnapshot h).2 with ⟨-, hr⟩ | ⟨object, -, hr⟩ <;> cases hr.symm.trans hfailed
  | putEdit g seq bytes id =>
    rcases reply_putEdit h with ⟨-, hr, -⟩ | ⟨-, hr, -⟩ <;> cases hr.symm.trans hfailed
  | getEdit g seq =>
    rcases (reply_getEdit h).2 with ⟨-, hr⟩ | ⟨object, -, hr⟩ <;> cases hr.symm.trans hfailed
  | listEdits g => cases (reply_listEdits h).1.symm.trans hfailed
  | listGenerations =>
    rcases (reply_listGenerations h).2 with hr | ⟨l, -, hr⟩ <;> cases hr.symm.trans hfailed
  | deleteGeneration g => cases (reply_deleteGeneration h).1.symm.trans hfailed
  | draw => exact hfailed
  | clock => exact hfailed
  | lock tracked => exact hfailed
  | deleteObjects files => exact hfailed

/-! ### What each call may answer when it may fail -/

theorem faulty_read {r : Except Status (Option CatalogEntry)} (h : Faulty .read w r w') :
    w' = w ∧ (r = .ok w.pointer ∨ r = .error .io) := by
  rcases h with h | ⟨hr, rfl | ⟨r', h⟩⟩
  · exact ⟨(reply_read h).2, .inl (reply_read h).1⟩
  · exact ⟨rfl, .inr hr⟩
  · exact ⟨(reply_read h).2, .inr hr⟩

theorem faulty_compareAndSet {expected : Option CatalogEntry}
    {r : Except Status (Option CatalogEntry)} (h : Faulty (.compareAndSet expected g) w r w') :
    w.pointer = expected ∧ r = .ok (some (w.installed g)) ∧ w' = w.withPointer g ∨
      w.pointer ≠ expected ∧ r = .ok none ∧ w' = w ∨
      r = .error .io ∧ (w' = w ∨ w.pointer = expected ∧ w' = w.withPointer g) := by
  rcases h with h | ⟨hr, rfl | ⟨r', h⟩⟩
  · exact (reply_compareAndSet h).imp_right .inl
  · exact .inr (.inr ⟨hr, .inl rfl⟩)
  · rcases reply_compareAndSet h with ⟨hp, -, rfl⟩ | ⟨-, -, rfl⟩
    · exact .inr (.inr ⟨hr, .inr ⟨hp, rfl⟩⟩)
    · exact .inr (.inr ⟨hr, .inl rfl⟩)

theorem faulty_putSnapshot {history : List (Record ι)}
    (h : Faulty (.putSnapshot g bytes history) w r w') :
    w.snapshot g = none ∧ r = .ok ∧ w' = w.withSnapshot g bytes history ∨
      r = .config ∧ w' = w ∨
      r = .io ∧ (w' = w ∨ w.snapshot g = none ∧ w' = w.withSnapshot g bytes history) := by
  rcases h with h | ⟨hr, rfl | ⟨r', h⟩⟩
  · exact (reply_putSnapshot h).imp_right fun h => .inl h.2
  · exact .inr (.inr ⟨hr, .inl rfl⟩)
  · rcases reply_putSnapshot h with ⟨hp, -, rfl⟩ | ⟨-, -, rfl⟩
    · exact .inr (.inr ⟨hr, .inr ⟨hp, rfl⟩⟩)
    · exact .inr (.inr ⟨hr, .inl rfl⟩)

theorem faulty_putEdit {id : ι} (h : Faulty (.putEdit g seq bytes id) w r w') :
    w.edit g seq = none ∧ r = .ok ∧ w' = w.withEdit g seq bytes id ∨
      r = .config ∧ w' = w ∨
      r = .io ∧ (w' = w ∨ w.edit g seq = none ∧ w' = w.withEdit g seq bytes id) := by
  rcases h with h | ⟨hr, rfl | ⟨r', h⟩⟩
  · exact (reply_putEdit h).imp_right fun h => .inl h.2
  · exact .inr (.inr ⟨hr, .inl rfl⟩)
  · rcases reply_putEdit h with ⟨hp, -, rfl⟩ | ⟨-, -, rfl⟩
    · exact .inr (.inr ⟨hr, .inr ⟨hp, rfl⟩⟩)
    · exact .inr (.inr ⟨hr, .inl rfl⟩)

theorem faulty_getSnapshot {r : Except Status (Object (List (Record ι)))}
    (h : Faulty (.getSnapshot g) w r w') :
    w' = w ∧ (r = .error .io ∨ w.snapshot g = none ∧ r = .error .notFound ∨
      ∃ object, w.snapshot g = some object ∧ r = .ok object) := by
  rcases h with h | ⟨hr, rfl | ⟨r', h⟩⟩
  · exact (reply_getSnapshot h).imp_right .inr
  · exact ⟨rfl, .inl hr⟩
  · exact ⟨(reply_getSnapshot h).1, .inl hr⟩

theorem faulty_getEdit {r : Except Status (Object ι)} (h : Faulty (.getEdit g seq) w r w') :
    w' = w ∧ (r = .error .io ∨ w.edit g seq = none ∧ r = .error .notFound ∨
      ∃ object, w.edit g seq = some object ∧ r = .ok object) := by
  rcases h with h | ⟨hr, rfl | ⟨r', h⟩⟩
  · exact (reply_getEdit h).imp_right .inr
  · exact ⟨rfl, .inl hr⟩
  · exact ⟨(reply_getEdit h).1, .inl hr⟩

theorem faulty_listEdits {r : Except Status (List ℕ)} (h : Faulty (.listEdits g) w r w') :
    w' = w ∧ (r = .error .io ∨ r = .ok (w.generation g).edits.keys) := by
  rcases h with h | ⟨hr, rfl | ⟨r', h⟩⟩
  · exact ⟨(reply_listEdits h).2, .inr (reply_listEdits h).1⟩
  · exact ⟨rfl, .inl hr⟩
  · exact ⟨(reply_listEdits h).2, .inl hr⟩

theorem faulty_listGenerations {r : Except Status (List ℕ)} (h : Faulty .listGenerations w r w') :
    w' = w ∧ ((∃ l, r = .ok l) ∨ r = .error .unsupported ∨ r = .error .io) := by
  rcases h with h | ⟨hr, rfl | ⟨r', h⟩⟩
  · rcases reply_listGenerations h with ⟨rfl, hr | ⟨l, -, hr⟩⟩
    · exact ⟨rfl, .inr (.inl hr)⟩
    · exact ⟨rfl, .inl ⟨l, hr⟩⟩
  · exact ⟨rfl, .inr (.inr hr)⟩
  · exact ⟨h.2, .inr (.inr hr)⟩

theorem faulty_deleteGeneration (h : Faulty (.deleteGeneration g) w r w') :
    w' = w ∨ w' = w.erase g := by
  rcases h with h | ⟨-, h | ⟨r', h⟩⟩
  · exact .inr (reply_deleteGeneration h).2
  · exact .inl h
  · exact .inr (reply_deleteGeneration h).2

theorem faulty_draw {r : ℕ} (h : Faulty .draw w r w') : w' = w := h.elim id fun h => h.1.elim

theorem faulty_clock {r : ℕ} (h : Faulty .clock w r w') : w' = w := h.elim id fun h => h.1.elim

theorem faulty_lock {tracked r : List Version} (h : Faulty (.lock tracked) w r w') : w' = w :=
  h.elim And.right fun h => h.1.elim

theorem faulty_deleteObjects {files r : List FileMetadata}
    (h : Faulty (.deleteObjects files) w r w') : w' = w :=
  h.elim And.right fun h => h.1.elim

end Catalog

end ElysiumKV
