import ElysiumKV.Lib.Schedule
import ElysiumKV.WriterRuns

/-!
# Writers that roll from the same pointer

A snapshot is stored under an attempt, which the compare-and-set records; in the DynamoDB catalog
two instances may both put one for a generation. After an install that reported a failure the engine
takes a pointer at its generation for its own: right where no other attempt is installed there
(`Resolves`).
-/

namespace ElysiumKV

open Program Program.Prog ManifestPayload Function

/-- `fresh_id`: no two instances draw the same. -/
structure Attempt (T : Type) where
  writer : T
  number : ℕ
deriving DecidableEq

/-- What a roll touches of a shared catalog. `written`: each instance's own puts; `unresolved`: the
generation whose install it saw fail in its last call. -/
structure SnapshotTable (T ι : Type) where
  pointer : Option CatalogEntry := none
  attempt : Option (Attempt T) := none
  snapshots : AList (fun _ : ℕ => AList fun _ : Attempt T => Object (List (Record ι))) := ∅
  fresh : ℕ := 0
  written : T → ℕ → Option (Attempt T) := fun _ _ => none
  unresolved : T → Option ℕ := fun _ => none

namespace SnapshotTable

variable {T ι : Type} [DecidableEq T]

/-- The complete attempts at a generation's snapshot. -/
def attempts (w : SnapshotTable T ι) (g : ℕ) : AList fun _ : Attempt T => Object (List (Record ι)) :=
  (w.snapshots.lookup g).getD ∅

/-- The snapshot of an attempt. -/
def snapshot (w : SnapshotTable T ι) (g : ℕ) (a : Attempt T) : Option (Object (List (Record ι))) :=
  (w.attempts g).lookup a

/-- What a reader loads: `get_snapshot_attempt` after `read`. -/
def load (w : SnapshotTable T ι) : Except Status (Object (List (Record ι))) :=
  match w.pointer with
  | none => .error .notFound
  | some entry => match w.attempt with
    | some a => match w.snapshot entry.generation a with
      | none => .error .corrupt
      | some object => .ok object
    | none => match (w.attempts entry.generation).keys with
      | [a] => match w.snapshot entry.generation a with
        | none => .error .corrupt
        | some object => .ok object
      | [] => .error .notFound
      | _ => .error .corrupt

/-- A complete snapshot under a new attempt. -/
def put (w : SnapshotTable T ι) (t : T) (g : ℕ) (object : Object (List (Record ι))) :
    SnapshotTable T ι :=
  { w with
    snapshots := w.snapshots.insert g ((w.attempts g).insert ⟨t, w.fresh⟩ object)
    fresh := w.fresh + 1 }

/-- The instance notes its put. -/
def noteWritten (w : SnapshotTable T ι) (t : T) (g : ℕ) (a : Attempt T) : SnapshotTable T ι :=
  { w with written := update w.written t (update (w.written t) g (some a)) }

/-- The entry an install leaves. -/
def installed (w : SnapshotTable T ι) (g : ℕ) : CatalogEntry :=
  ⟨g, match w.pointer with
    | none => 1
    | some entry => entry.token + 1⟩

/-- The conditional update: generation, token and the instance's attempt. -/
def install (w : SnapshotTable T ι) (t : T) (g : ℕ) : SnapshotTable T ι :=
  { w with
    pointer := some (w.installed g)
    attempt := match w.written t g with
      | none => w.attempt
      | some a => some a }

/-- `delete_generation` -/
def erase (w : SnapshotTable T ι) (g : ℕ) : SnapshotTable T ι :=
  { w with snapshots := w.snapshots.erase g }

/-- Note a failed install, or none. -/
def setUnresolved (w : SnapshotTable T ι) (t : T) (g : Option ℕ) : SnapshotTable T ι :=
  { w with unresolved := update w.unresolved t g }

/-- No attempt is complete. -/
def Vacant (w : SnapshotTable T ι) (g : ℕ) : Prop := ∀ a, w.snapshot g a = none

/-- A pointer at the generation whose install failed names the instance's own attempt. -/
def Resolves (w : SnapshotTable T ι) (t : T) : Prop :=
  ∀ g entry, w.unresolved t = some g → w.pointer = some entry → entry.generation = g →
    w.attempt = w.written t g

/-- A call may report a failure before or after it took effect. Unless `writeOnce`, a snapshot may
be put beside another; where `careful`, a failed install is followed by a pointer read only if it
`Resolves`. -/
def Reply (writeOnce careful : Bool) (t : T) :
    (c : Call ι) → SnapshotTable T ι → c.Result → SnapshotTable T ι → Prop
  | .read, w, r, w' => w' = w.setUnresolved t none ∧
      (r = .ok w.pointer ∧ (careful = true → w.Resolves t) ∨ r = .error .io)
  | .compareAndSet expected g, w, r, w' =>
      w.pointer = expected ∧ r = .ok (some (w.installed g)) ∧
        w' = (w.install t g).setUnresolved t none ∨
      w.pointer ≠ expected ∧ r = .ok none ∧ w' = w.setUnresolved t none ∨
      r = .error .io ∧ (w' = w.setUnresolved t (some g) ∨
        w.pointer = expected ∧ w' = (w.install t g).setUnresolved t (some g))
  | .putSnapshot g bytes history, w, r, w' =>
      r = Status.ok ∧ (writeOnce = true → w.Vacant g) ∧
        w' = ((w.put t g ⟨bytes, history⟩).noteWritten t g ⟨t, w.fresh⟩).setUnresolved t none ∨
      r = Status.config ∧ ¬ w.Vacant g ∧ w' = w.setUnresolved t none ∨
      r = Status.io ∧ (w' = w.setUnresolved t none ∨
        (writeOnce = true → w.Vacant g) ∧ w' = (w.put t g ⟨bytes, history⟩).setUnresolved t none)
  | .deleteGeneration g, w, _, w' =>
      w' = w.setUnresolved t none ∨ w' = (w.erase g).setUnresolved t none
  | .listGenerations, w, r, w' => w' = w.setUnresolved t none ∧
      ((∃ generations, r = .ok generations) ∨ r = .error .unsupported ∨ r = .error .io)
  | _, w, _, w' => w' = w.setUnresolved t none

/-! ### What the updates leave -/

variable (w : SnapshotTable T ι) (t : T) (g : ℕ)

omit [DecidableEq T] in
theorem attempts_insert (m : AList fun _ : Attempt T => Object (List (Record ι))) (g' : ℕ) :
    ({ w with snapshots := w.snapshots.insert g m } : SnapshotTable T ι).attempts g' =
      if g' = g then m else w.attempts g' := by
  unfold attempts
  split_ifs with h
  · subst h
    simp
  · simp [AList.lookup_insert_ne h]

theorem snapshot_put (object : Object (List (Record ι))) (g' : ℕ) (a : Attempt T) :
    (w.put t g object).snapshot g' a =
      if g' = g ∧ a = ⟨t, w.fresh⟩ then some object else w.snapshot g' a := by
  have hput : (w.put t g object).attempts g' =
      if g' = g then (w.attempts g).insert ⟨t, w.fresh⟩ object else w.attempts g' :=
    attempts_insert w g _ g'
  unfold snapshot
  rw [hput]
  by_cases hg : g' = g
  · subst hg
    by_cases ha : a = ⟨t, w.fresh⟩
    · subst ha
      simp
    · simp [ha, AList.lookup_insert_ne ha]
  · simp [hg]

theorem snapshot_erase (g' : ℕ) (a : Attempt T) :
    (w.erase g).snapshot g' a = if g' = g then none else w.snapshot g' a := by
  unfold snapshot attempts erase
  split_ifs with h
  · subst h
    simp
  · simp [AList.lookup_erase_ne h]

omit [DecidableEq T] in
theorem attempt_install {a : Attempt T} (h : w.written t g = some a) :
    (w.install t g).attempt = some a := by
  unfold install
  rw [h]

end SnapshotTable

/-- The generation named, or 0. -/
def namedGeneration (entry : Option CatalogEntry) : ℕ := entry.elim 0 CatalogEntry.generation

theorem VersionSet.generation_eq {ι : Type} (vs : VersionSet ι) :
    vs.generation = namedGeneration vs.entry := by
  unfold VersionSet.generation
  cases vs.entry <;> rfl

namespace SnapshotTable

section Rely

variable {T ι : Type} [DecidableEq T] (start : Option CatalogEntry) (writeOnce : Bool)

/-- The pointer is as found, or names a snapshot that is there; `writeOnce` means one attempt a
generation. -/
structure Sound (w : SnapshotTable T ι) : Prop where
  pointer : w.pointer = start ∨ ∃ entry a object, w.pointer = some entry ∧ w.attempt = some a ∧
    w.snapshot entry.generation a = some object ∧ namedGeneration start < entry.generation
  single : writeOnce = true → ∀ g a a', (w.snapshot g a).isSome → (w.snapshot g a').isSome → a = a'

/-- The pointer moved to a generation of the instance. -/
def Leads (t : T) (w : SnapshotTable T ι) : Prop :=
  w.pointer ≠ start ∧ ∃ a, w.attempt = some a ∧ a.writer = t

/-- The others leave alone a pointer the instance moved, and its snapshots not below the pointer. -/
structure Others (t : T) (w w' : SnapshotTable T ι) : Prop where
  sound : Sound start writeOnce w → Sound start writeOnce w'
  written : w'.written t = w.written t
  unresolved : w'.unresolved t = w.unresolved t
  pointer : Leads start t w → w'.pointer = w.pointer ∧ w'.attempt = w.attempt
  leads : Leads start t w' → Leads start t w
  kept : ∀ g a, a.writer = t → namedGeneration w'.pointer ≤ g → w'.snapshot g a = w.snapshot g a
  forward : namedGeneration w.pointer ≤ namedGeneration w'.pointer

variable {start writeOnce} {t t' : T} {w w' w'' : SnapshotTable T ι}

theorem Others.refl (t : T) (w : SnapshotTable T ι) : Others start writeOnce t w w :=
  ⟨id, rfl, rfl, fun _ => ⟨rfl, rfl⟩, id, fun _ _ _ _ => rfl, le_rfl⟩

theorem Others.lead (h : Others start writeOnce t w w') (hleads : Leads start t w) :
    Leads start t w' := by
  obtain ⟨hpointer, hattempt⟩ := h.pointer hleads
  unfold Leads
  rw [hpointer, hattempt]
  exact hleads

theorem Others.trans (h : Others start writeOnce t w w') (h' : Others start writeOnce t w' w'') :
    Others start writeOnce t w w'' where
  sound := h'.sound ∘ h.sound
  written := h'.written.trans h.written
  unresolved := h'.unresolved.trans h.unresolved
  pointer hleads := by
    obtain ⟨hpointer, hattempt⟩ := h.pointer hleads
    obtain ⟨hpointer', hattempt'⟩ := h'.pointer (h.lead hleads)
    exact ⟨hpointer'.trans hpointer, hattempt'.trans hattempt⟩
  leads := h.leads ∘ h'.leads
  kept g a ha hg := (h'.kept g a ha hg).trans (h.kept g a ha (h'.forward.trans hg))
  forward := h.forward.trans h'.forward

/-- To all others it is one of the others. -/
def Guards (start : Option CatalogEntry) (writeOnce : Bool) (t : T) (w w' : SnapshotTable T ι) :
    Prop := ∀ t', t' ≠ t → Others start writeOnce t' w w'

theorem Guards.trans (h : Guards start writeOnce t w w') (h' : Guards start writeOnce t w' w'') :
    Guards start writeOnce t w w'' := fun t' ht' => (h t' ht').trans (h' t' ht')

theorem guards_setUnresolved (g : Option ℕ) :
    Guards start writeOnce t w (w.setUnresolved t g) := fun _ ht' =>
  ⟨fun h => ⟨h.pointer, h.single⟩, rfl, update_of_ne ht' .., fun _ => ⟨rfl, rfl⟩, id,
    fun _ _ _ _ => rfl, le_rfl⟩

theorem guards_noteWritten (g : ℕ) (a : Attempt T) :
    Guards start writeOnce t w (w.noteWritten t g a) := fun _ ht' =>
  ⟨fun h => ⟨h.pointer, h.single⟩, update_of_ne ht' .., rfl, fun _ => ⟨rfl, rfl⟩, id,
    fun _ _ _ _ => rfl, le_rfl⟩

variable {g : ℕ} {object : Object (List (Record ι))}

theorem Sound.put (h : Sound start writeOnce w) (hvacant : writeOnce = true → w.Vacant g) :
    Sound start writeOnce (w.put t g object) where
  pointer := by
    rcases h.pointer with hstart | ⟨entry, a, o, hpointer, hattempt, ho, habove⟩
    · exact .inl hstart
    · by_cases hsame : entry.generation = g ∧ a = ⟨t, w.fresh⟩
      · exact .inr ⟨entry, a, object, hpointer, hattempt, by rw [snapshot_put, if_pos hsame], habove⟩
      · exact .inr ⟨entry, a, o, hpointer, hattempt, by rw [snapshot_put, if_neg hsame, ho], habove⟩
  single hwrite g' a a' ha ha' := by
    rw [snapshot_put] at ha ha'
    by_cases hg : g' = g
    · subst hg
      have hnone := hvacant hwrite
      have hwas : ∀ b, (if g' = g' ∧ b = ⟨t, w.fresh⟩ then some object
          else w.snapshot g' b).isSome → b = ⟨t, w.fresh⟩ := by
        intro b hb
        by_contra hne
        rw [if_neg (fun h => hne h.2), hnone b] at hb
        cases hb
      rw [hwas a ha, hwas a' ha']
    · rw [if_neg (fun h => hg h.1)] at ha ha'
      exact h.single hwrite g' a a' ha ha'

theorem guards_put (hvacant : writeOnce = true → w.Vacant g) :
    Guards start writeOnce t w (w.put t g object) := by
  intro t' ht'
  refine ⟨fun h => h.put hvacant, rfl, rfl, fun _ => ⟨rfl, rfl⟩, id, fun g' a ha _ => ?_, le_rfl⟩
  rw [snapshot_put, if_neg]
  rintro ⟨-, rfl⟩
  exact ht' ha.symm

/-- At the entry all found, or at one of its own. -/
structure Stands (start : Option CatalogEntry) (writeOnce : Bool) (t : T) (vs : VersionSet ι)
    (w : SnapshotTable T ι) : Prop where
  sound : Sound start writeOnce w
  entry : vs.entry = start ∨ Leads start t w ∧ namedGeneration start < namedGeneration vs.entry

theorem Stands.others {vs : VersionSet ι} (h : Stands start writeOnce t vs w)
    (hothers : Others start writeOnce t w w') : Stands start writeOnce t vs w' :=
  ⟨hothers.sound h.sound, h.entry.imp_right fun ⟨hleads, hlt⟩ => ⟨hothers.lead hleads, hlt⟩⟩

/-- Its snapshot is there unless the pointer has passed it. -/
structure Placed (t : T) (g : ℕ) (a : Attempt T) (object : Object (List (Record ι)))
    (w : SnapshotTable T ι) : Prop where
  written : w.written t g = some a
  writer : a.writer = t
  snapshot : namedGeneration w.pointer ≤ g → w.snapshot g a = some object

variable {a : Attempt T}

theorem Placed.others (h : Placed t g a object w) (hothers : Others start writeOnce t w w') :
    Placed t g a object w' where
  written := by rw [hothers.written, h.written]
  writer := h.writer
  snapshot hg := by rw [hothers.kept g a h.writer hg, h.snapshot (hothers.forward.trans hg)]

/-- The pointer names the entry it installed with the snapshot. -/
structure Held (start : Option CatalogEntry) (t : T) (entry : CatalogEntry) (a : Attempt T)
    (object : Object (List (Record ι))) (w : SnapshotTable T ι) : Prop where
  pointer : w.pointer = some entry
  above : namedGeneration start < entry.generation
  attempt : w.attempt = some a
  writer : a.writer = t
  snapshot : w.snapshot entry.generation a = some object

theorem Held.leads {entry : CatalogEntry} (h : Held start t entry a object w) :
    Leads start t w := by
  refine ⟨fun hstart => ?_, a, h.attempt, h.writer⟩
  have habove := h.above
  rw [← hstart, h.pointer] at habove
  exact lt_irrefl _ habove

theorem Held.others {entry : CatalogEntry} (h : Held start t entry a object w)
    (hothers : Others start writeOnce t w w') : Held start t entry a object w' := by
  obtain ⟨hpointer, hattempt⟩ := hothers.pointer h.leads
  refine ⟨hpointer.trans h.pointer, h.above, hattempt.trans h.attempt, h.writer, ?_⟩
  rw [hothers.kept _ a h.writer, h.snapshot]
  rw [hpointer, h.pointer]
  exact le_rfl

section Own

variable {vs : VersionSet ι} {g : ℕ} {a : Attempt T} {object : Object (List (Record ι))}
  {entry : CatalogEntry}

theorem Sound.setUnresolved (h : Sound start writeOnce w) (g : Option ℕ) :
    Sound start writeOnce (w.setUnresolved t g) := ⟨h.pointer, h.single⟩

theorem Stands.setUnresolved (h : Stands start writeOnce t vs w) (g : Option ℕ) :
    Stands start writeOnce t vs (w.setUnresolved t g) := ⟨h.sound.setUnresolved g, h.entry⟩

theorem Stands.noteWritten (h : Stands start writeOnce t vs w) (g : ℕ) (a : Attempt T) :
    Stands start writeOnce t vs (w.noteWritten t g a) := ⟨⟨h.sound.pointer, h.sound.single⟩, h.entry⟩

theorem Stands.put (h : Stands start writeOnce t vs w) (hvacant : writeOnce = true → w.Vacant g) :
    Stands start writeOnce t vs (w.put t g object) := ⟨h.sound.put hvacant, h.entry⟩

theorem Placed.setUnresolved (h : Placed t g a object w) (g' : Option ℕ) :
    Placed t g a object (w.setUnresolved t g') := ⟨h.written, h.writer, h.snapshot⟩

theorem Held.setUnresolved (h : Held start t entry a object w) (g : Option ℕ) :
    Held start t entry a object (w.setUnresolved t g) :=
  ⟨h.pointer, h.above, h.attempt, h.writer, h.snapshot⟩

theorem placed_put (t : T) (g : ℕ) (object : Object (List (Record ι))) (w : SnapshotTable T ι) :
    Placed t g ⟨t, w.fresh⟩ object ((w.put t g object).noteWritten t g ⟨t, w.fresh⟩) where
  written := by
    show update w.written t _ t g = _
    rw [update_self, update_self]
  writer := rfl
  snapshot _ := by
    show (w.put t g object).snapshot g _ = _
    rw [snapshot_put, if_pos ⟨rfl, rfl⟩]

end Own

section Install

variable {vs : VersionSet ι} {g : ℕ} {a : Attempt T} {object : Object (List (Record ι))}
  {entry : CatalogEntry}

theorem Stands.install (h : Stands start writeOnce t vs w) (hpointer : w.pointer = vs.entry)
    (hg : namedGeneration vs.entry < g) (hplaced : Placed t g a object w) :
    Held start t (w.installed g) a object (w.install t g) where
  pointer := rfl
  above := by
    rcases h.entry with hstart | ⟨-, hlt⟩
    · rw [← hstart]
      exact hg
    · exact hlt.trans hg
  attempt := attempt_install w t g hplaced.written
  writer := hplaced.writer
  snapshot := hplaced.snapshot (by rw [hpointer]; exact hg.le)

theorem Stands.after_install (h : Stands start writeOnce t vs w) (hpointer : w.pointer = vs.entry)
    (hg : namedGeneration vs.entry < g) (hplaced : Placed t g a object w) :
    Stands start writeOnce t vs (w.install t g) ∧ Placed t g a object (w.install t g) := by
  have hheld := h.install hpointer hg hplaced
  refine ⟨⟨⟨.inr ⟨_, a, object, rfl, hheld.attempt, hheld.snapshot, hheld.above⟩, h.sound.single⟩,
    h.entry.imp_right fun hentry => ⟨hheld.leads, hentry.2⟩⟩, hplaced.written, hplaced.writer,
    fun _ => hheld.snapshot⟩

theorem guards_install (h : Stands start writeOnce t vs w) (hpointer : w.pointer = vs.entry)
    (hg : namedGeneration vs.entry < g) (hplaced : Placed t g a object w) :
    Guards start writeOnce t w (w.install t g) := by
  intro t' ht'
  have hheld := h.install hpointer hg hplaced
  refine ⟨fun hsound => ⟨.inr ⟨_, a, object, rfl, hheld.attempt, hheld.snapshot, hheld.above⟩,
    hsound.single⟩, rfl, rfl, fun hleads => ?_, fun hleads => ?_, fun _ _ _ _ => rfl, ?_⟩
  · -- the pointer another moved is not the entry of this instance
    obtain ⟨hmoved, b, hb, hwriter⟩ := hleads
    rcases h.entry with hstart | ⟨⟨-, b', hb', hwriter'⟩, -⟩
    · exact absurd (hpointer.trans hstart) hmoved
    · obtain rfl := Option.some.inj (hb.symm.trans hb')
      exact absurd (hwriter.symm.trans hwriter') ht'
  · obtain ⟨-, b, hb, hwriter⟩ := hleads
    obtain rfl := Option.some.inj (hb.symm.trans hheld.attempt)
    exact absurd (hwriter.symm.trans hplaced.writer) ht'
  · rw [hpointer]
    exact hg.le

theorem Held.erase (h : Held start t entry a object w) (hg : g ≠ entry.generation) :
    Held start t entry a object (w.erase g) :=
  ⟨h.pointer, h.above, h.attempt, h.writer, by rw [snapshot_erase, if_neg hg.symm, h.snapshot]⟩

theorem Sound.erase (hsound : Sound start writeOnce w) (h : Held start t entry a object w)
    (hg : g ≠ entry.generation) : Sound start writeOnce (w.erase g) where
  pointer := .inr ⟨entry, a, object, h.pointer, h.attempt, (h.erase hg).snapshot, h.above⟩
  single hwrite g' b b' hb hb' := by
    rw [snapshot_erase] at hb hb'
    split_ifs at hb hb'
    · cases hb
    · exact hsound.single hwrite g' b b' hb hb'

theorem guards_erase (h : Held start t entry a object w) (hg : g < entry.generation) :
    Guards start writeOnce t w (w.erase g) := by
  intro t' _
  refine ⟨fun hsound => hsound.erase h hg.ne, rfl, rfl, fun _ => ⟨rfl, rfl⟩, id,
    fun g' b _ hle => ?_, le_rfl⟩
  have hpointer : (w.erase g).pointer = some entry := h.pointer
  rw [hpointer] at hle
  have hge : entry.generation ≤ g' := hle
  rw [snapshot_erase, if_neg (by omega)]

end Install

end Rely

end SnapshotTable

namespace VersionSet

open SnapshotTable

variable {T ι : Type} [DecidableEq T] {config : ManifestConfig} {start : Option CatalogEntry}
  {writeOnce careful : Bool} {t : T} {vs : VersionSet ι} {version : Version}
  {w : SnapshotTable T ι}

/-- The weakest precondition of an instance's program. -/
def Amid {α : Type} (start : Option CatalogEntry) (writeOnce careful : Bool) (t : T)
    (p : Manifest ι α) (post : α → SnapshotTable T ι → Prop) (w : SnapshotTable T ι) : Prop :=
  p.Safe (Reply writeOnce careful t) (Others start writeOnce t) (Guards start writeOnce t)
    (fun _ => True) post w

theorem Amid.ask {α : Type} {c : Call ι} {f : c.Result → Manifest ι α}
    {post : α → SnapshotTable T ι → Prop}
    (h : ∀ w₁, Others start writeOnce t w w₁ → ∀ r w₂, Reply writeOnce careful t c w₁ r w₂ →
      Guards start writeOnce t w₁ w₂ ∧ Amid start writeOnce careful t (f r) post w₂) :
    Amid start writeOnce careful t (Prog.ask c >>= f) post w :=
  Safe.ask fun w₁ hw₁ => ⟨trivial, h w₁ hw₁⟩

theorem Amid.pure {α : Type} {a : α} {post : α → SnapshotTable T ι → Prop}
    (h : ∀ w₁, Others start writeOnce t w w₁ → post a w₁) :
    Amid start writeOnce careful t (Pure.pure a) post w :=
  Safe.pure fun w₁ hw₁ => ⟨trivial, h w₁ hw₁⟩

/-- The instance sealed it from a version. -/
def SealedFrom (config : ManifestConfig) (vs : VersionSet ι) (version : Version) (g : ℕ)
    (object : Object (List (Record ι))) : Prop :=
  object.label = vs.history ∧ ∃ draw, sealPayload config.registry config.codecs g draw
    (snapshotAddress g) (encodeVersionSnapshot config.codecs (vs.snapshotOf version)) =
      .ok object.bytes

/-- A failed roll: the status says so, and it stands as before. -/
def Unrolled (vs : VersionSet ι) (result : Status × VersionSet ι) : Prop :=
  result.1 ≠ .ok ∧ result.2.entry = vs.entry

/-- How the loop that puts the snapshot ends. -/
def Found (config : ManifestConfig) (start : Option CatalogEntry) (writeOnce : Bool) (t : T)
    (vs : VersionSet ι) (version : Version) (r : Except (Status × VersionSet ι) ℕ)
    (w : SnapshotTable T ι) : Prop :=
  Stands start writeOnce t vs w ∧ match r with
    | .error result => Unrolled vs result
    | .ok g => namedGeneration vs.entry < g ∧ ∃ a object, Placed t g a object w ∧
      SealedFrom config vs version g object

theorem putSnapshotLoop_amid (attempts : ℕ) : ∀ {g : ℕ} {w : SnapshotTable T ι}, 0 < attempts →
    namedGeneration vs.entry < g → Stands start writeOnce t vs w →
    Amid start writeOnce careful t (putSnapshotLoop config vs
      (encodeVersionSnapshot config.codecs (vs.snapshotOf version)) attempts g)
      (Found config start writeOnce t vs version) w := by
  induction attempts with
  | zero =>
    intro g w hpos
    omega
  | succ attempts ih =>
    intro g w _ hg hstands
    unfold putSnapshotLoop
    refine Amid.ask (c := Call.draw) fun w₁ hw₁ draw w₂ hw₂ => ?_
    obtain rfl : w₂ = w₁.setUnresolved t none := hw₂
    refine ⟨guards_setUnresolved none, ?_⟩
    have hstands₂ := (hstands.others hw₁).setUnresolved none
    cases hseal : sealPayload config.registry config.codecs g draw (snapshotAddress g)
        (encodeVersionSnapshot config.codecs (vs.snapshotOf version)) with
    | error status =>
      exact Amid.pure fun w₃ hw₃ => ⟨hstands₂.others hw₃, sealPayload_error hseal, rfl⟩
    | ok framed =>
      refine Amid.ask (c := Call.putSnapshot g framed vs.history) fun w₃ hw₃ status w₄ hw₄ => ?_
      have hstands₃ := hstands₂.others hw₃
      rcases hw₄ with ⟨rfl, hvacant, rfl⟩ | ⟨rfl, -, rfl⟩ | ⟨rfl, hw₄⟩
      · refine ⟨((guards_put hvacant).trans (guards_noteWritten _ _)).trans
          (guards_setUnresolved none), Amid.pure fun w₅ hw₅ => ⟨?_, hg, ⟨t, w₃.fresh⟩,
            ⟨framed, vs.history⟩, ?_, rfl, draw, hseal⟩⟩
        · exact (((hstands₃.put hvacant).noteWritten ..).setUnresolved none).others hw₅
        · exact ((placed_put ..).setUnresolved none).others hw₅
      · refine ⟨guards_setUnresolved none, ?_⟩
        have hstands₄ := hstands₃.setUnresolved none
        refine Amid.ask (c := Call.read) fun w₅ hw₅ pointer w₆ hw₆ => ?_
        obtain ⟨rfl, hpointer⟩ := hw₆
        refine ⟨guards_setUnresolved none, ?_⟩
        have hstands₆ := (hstands₄.others hw₅).setUnresolved none
        rcases hpointer with ⟨rfl, -⟩ | rfl
        swap
        · exact Amid.pure fun w₇ hw₇ => ⟨hstands₆.others hw₇, by simp, rfl⟩
        by_cases hmoved : w₅.pointer ≠ vs.entry
        · show Amid _ _ _ _ (if _ then _ else _) _ _
          rw [if_pos hmoved]
          exact Amid.pure fun w₇ hw₇ => ⟨hstands₆.others hw₇, by simp, rfl⟩
        show Amid _ _ _ _ (if _ then _ else _) _ _
        rw [if_neg hmoved]
        refine Amid.ask (c := Call.listGenerations) fun w₇ hw₇ generations w₈ hw₈ => ?_
        obtain ⟨rfl, hgenerations⟩ := hw₈
        refine ⟨guards_setUnresolved none, ?_⟩
        have hstands₈ := (hstands₆.others hw₇).setUnresolved none
        have hunusable : Amid start writeOnce careful t (pure (.error (.unusable, vs)))
            (Found config start writeOnce t vs version) (w₇.setUnresolved t none) :=
          Amid.pure fun w₉ hw₉ => ⟨hstands₈.others hw₉, by simp, rfl⟩
        rcases hgenerations with ⟨l, rfl⟩ | rfl | rfl
        · have hhighest : g ≤ l.foldl max g := le_foldl_max l g
          show Amid _ _ _ _ (if _ then _ else if _ then _ else _) _ _
          split_ifs with hmax hlast
          · exact hunusable
          · exact hunusable
          · exact ih (by omega) (by omega) hstands₈
        · show Amid _ _ _ _ (if _ then _ else if _ then _ else if _ then _ else _) _ _
          rw [if_neg (not_not.2 rfl)]
          split_ifs with hmax hlast
          · exact hunusable
          · exact hunusable
          · exact ih (by omega) (by omega) hstands₈
        · exact Amid.pure fun w₉ hw₉ => ⟨hstands₈.others hw₉, by simp, rfl⟩
      · rcases hw₄ with rfl | ⟨hvacant, rfl⟩
        · exact ⟨guards_setUnresolved none, Amid.pure fun w₅ hw₅ =>
            ⟨(hstands₃.setUnresolved none).others hw₅, by simp, rfl⟩⟩
        · exact ⟨(guards_put hvacant).trans (guards_setUnresolved none), Amid.pure fun w₅ hw₅ =>
            ⟨((hstands₃.put hvacant).setUnresolved none).others hw₅, by simp, rfl⟩⟩

/-- The pointer at its snapshot and its entry adopted, or a failure. -/
def Committed (config : ManifestConfig) (start : Option CatalogEntry) (writeOnce : Bool) (t : T)
    (vs : VersionSet ι) (version : Version) (result : Status × VersionSet ι)
    (w : SnapshotTable T ι) : Prop :=
  Stands start writeOnce t result.2 w ∧
    ((∃ entry a object, result = (.ok, { vs with
        entry := some entry, manifestPayloadsPendingReencryption := 0 }) ∧
      Held start t entry a object w ∧ SealedFrom config vs version entry.generation object) ∨
      Unrolled vs result)

variable {a : Attempt T} {object : Object (List (Record ι))}

theorem adoptEntry_amid {entry : CatalogEntry} (hsound : Sound start writeOnce w)
    (hheld : Held start t entry a object w) (hg : namedGeneration vs.entry < entry.generation)
    (hsealed : SealedFrom config vs version entry.generation object) :
    Amid start writeOnce careful t (adoptEntry vs entry)
      (Committed config start writeOnce t vs version) w := by
  have hend : ∀ w', Sound start writeOnce w' → Held start t entry a object w' →
      Committed config start writeOnce t vs version (.ok, { vs with
        entry := some entry, manifestPayloadsPendingReencryption := 0 }) w' := by
    intro w' hsound' hheld'
    exact ⟨⟨hsound', .inr ⟨hheld'.leads, hheld'.above⟩⟩, .inl ⟨entry, a, object, rfl, hheld', hsealed⟩⟩
  unfold adoptEntry
  cases hentry : vs.entry with
  | none => exact Amid.pure fun w₁ hw₁ => hend w₁ (hw₁.sound hsound) (hheld.others hw₁)
  | some previous =>
    refine Amid.ask (c := Call.deleteGeneration previous.generation) fun w₁ hw₁ r w₂ hw₂ => ?_
    have hheld₁ := hheld.others hw₁
    have hsound₁ := hw₁.sound hsound
    have hbelow : previous.generation < entry.generation := by
      rw [hentry] at hg
      exact hg
    rcases hw₂ with rfl | rfl
    · exact ⟨guards_setUnresolved none, Amid.pure fun w₃ hw₃ =>
        hend w₃ (hw₃.sound (hsound₁.setUnresolved none)) ((hheld₁.setUnresolved none).others hw₃)⟩
    · have hheld₂ := (hheld₁.erase hbelow.ne).setUnresolved none
      refine ⟨(guards_erase hheld₁ hbelow).trans (guards_setUnresolved none),
        Amid.pure fun w₃ hw₃ => hend w₃ (hw₃.sound ?_) (hheld₂.others hw₃)⟩
      exact (hsound₁.erase hheld₁ hbelow.ne).setUnresolved none

theorem held_of_resolves (hcond : writeOnce = true ∨ careful = true) {g : ℕ}
    {entry : CatalogEntry} (hstands : Stands start writeOnce t vs w)
    (hg : namedGeneration vs.entry < g) (hplaced : Placed t g a object w)
    (hunresolved : w.unresolved t = some g) (hresolves : careful = true → w.Resolves t)
    (hpointer : w.pointer = some entry) (hgeneration : entry.generation = g) :
    Held start t entry a object w := by
  subst hgeneration
  have habove : namedGeneration start < entry.generation := by
    rcases hstands.entry with hstart | ⟨-, hlt⟩
    · rw [← hstart]
      exact hg
    · exact hlt.trans hg
  have hsnapshot : w.snapshot entry.generation a = some object :=
    hplaced.snapshot (by rw [hpointer]; exact le_rfl)
  refine ⟨hpointer, habove, ?_, hplaced.writer, hsnapshot⟩
  rcases hcond with hwrite | hcareful
  · -- the generation has one attempt, and it is the one the pointer names
    rcases hstands.sound.pointer with hstart | ⟨e, b, o, he, hb, ho, -⟩
    · rw [← hstart, hpointer] at habove
      exact absurd habove (lt_irrefl _)
    · obtain rfl := Option.some.inj (he.symm.trans hpointer)
      rw [hb, hstands.sound.single hwrite e.generation b a (by rw [ho]; rfl) (by rw [hsnapshot]; rfl)]
  · rw [hresolves hcareful _ _ hunresolved hpointer rfl, hplaced.written]

/-- A failed compare-and-set counts as a success only if the pointer names this instance's snapshot.
-/
theorem installGeneration_amid (hcond : writeOnce = true ∨ careful = true) {g : ℕ}
    (hstands : Stands start writeOnce t vs w) (hg : namedGeneration vs.entry < g)
    (hplaced : Placed t g a object w) (hsealed : SealedFrom config vs version g object) :
    Amid start writeOnce careful t (installGeneration vs g)
      (Committed config start writeOnce t vs version) w := by
  unfold installGeneration
  refine Amid.ask (c := Call.compareAndSet vs.entry g) fun w₁ hw₁ installed w₂ hw₂ => ?_
  have hstands₁ := hstands.others hw₁
  have hplaced₁ := hplaced.others hw₁
  have hfenced : ∀ {w'}, Stands start writeOnce t vs w' →
      Amid start writeOnce careful t (pure (.fenced, { vs with fenced := true }))
        (Committed config start writeOnce t vs version) w' := fun hs =>
    Amid.pure fun w₃ hw₃ => ⟨⟨hw₃.sound hs.sound, (hs.others hw₃).entry⟩, .inr ⟨nofun, rfl⟩⟩
  have hio : ∀ {w'}, Stands start writeOnce t vs w' → Amid start writeOnce careful t
      (pure (.io, vs)) (Committed config start writeOnce t vs version) w' := fun hs =>
    Amid.pure fun w₃ hw₃ => ⟨hs.others hw₃, .inr ⟨nofun, rfl⟩⟩
  rcases hw₂ with ⟨hpointer, rfl, rfl⟩ | ⟨-, rfl, rfl⟩ | ⟨rfl, hw₂⟩
  · have hheld := (hstands₁.install hpointer hg hplaced₁).setUnresolved none
    refine ⟨(guards_install hstands₁ hpointer hg hplaced₁).trans (guards_setUnresolved none), ?_⟩
    obtain ⟨hafter, -⟩ := hstands₁.after_install hpointer hg hplaced₁
    exact adoptEntry_amid (hafter.setUnresolved none).sound hheld hg hsealed
  · exact ⟨guards_setUnresolved none, hfenced (hstands₁.setUnresolved none)⟩
  · -- whether it took effect or not, the instance stands and its snapshot is in place
    obtain ⟨hguards, hstands₂, hplaced₂, hunresolved⟩ : Guards start writeOnce t w₁ w₂ ∧
        Stands start writeOnce t vs w₂ ∧ Placed t g a object w₂ ∧ w₂.unresolved t = some g := by
      rcases hw₂ with rfl | ⟨hpointer, rfl⟩
      · exact ⟨guards_setUnresolved _, hstands₁.setUnresolved _, hplaced₁.setUnresolved _,
          update_self ..⟩
      · obtain ⟨hafter, hplaced'⟩ := hstands₁.after_install hpointer hg hplaced₁
        exact ⟨(guards_install hstands₁ hpointer hg hplaced₁).trans (guards_setUnresolved _),
          hafter.setUnresolved _, hplaced'.setUnresolved _, update_self ..⟩
    refine ⟨hguards, Amid.ask (c := Call.read) fun w₃ hw₃ observed w₄ hw₄ => ?_⟩
    obtain ⟨rfl, hobserved⟩ := hw₄
    refine ⟨guards_setUnresolved none, ?_⟩
    have hstands₃ := hstands₂.others hw₃
    have hstands₄ := hstands₃.setUnresolved none
    rcases hobserved with ⟨rfl, hresolves⟩ | rfl
    swap
    · exact hio hstands₄
    cases hpointer : w₃.pointer with
    | none =>
      show Amid _ _ _ _ (if _ then _ else _) _ _
      split_ifs
      · exact hio hstands₄
      · exact hfenced hstands₄
    | some entry =>
      show Amid _ _ _ _ (if _ then _ else if _ then _ else _) _ _
      split_ifs with hgeneration hsame
      · have hheld := held_of_resolves hcond hstands₃ hg (hplaced₂.others hw₃)
          (hw₃.unresolved.trans hunresolved) hresolves hpointer hgeneration
        refine adoptEntry_amid hstands₄.sound (hheld.setUnresolved none) ?_ ?_
        · rw [hgeneration]
          exact hg
        · rw [hgeneration]
          exact hsealed
      · exact hio hstands₄
      · exact hfenced hstands₄

theorem writeSnapshotAndInstall_amid (hcond : writeOnce = true ∨ careful = true)
    (hstands : Stands start writeOnce t vs w) :
    Amid start writeOnce careful t
      (writeSnapshotAndInstall config vs (vs.generation + 1) version)
      (Committed config start writeOnce t vs version) w := by
  unfold writeSnapshotAndInstall
  have hg : namedGeneration vs.entry < vs.generation + 1 := by
    rw [vs.generation_eq]
    exact Nat.lt_succ_self _
  refine Safe.bind (fun w => .refl t w) (Safe.weaken (putSnapshotLoop_amid snapshotAttempts
    (by decide) hg hstands) fun written w₁ hw₁ => ?_)
  obtain ⟨hstands₁, hwritten⟩ := hw₁
  cases written with
  | error result =>
    exact Amid.pure fun w₂ hw₂ => ⟨⟨hw₂.sound hstands₁.sound,
      hwritten.2 ▸ (hstands₁.others hw₂).entry⟩, .inr hwritten⟩
  | ok g =>
    obtain ⟨hg, a, object, hplaced, hsealed⟩ := hwritten
    exact installGeneration_amid hcond hstands₁ hg hplaced hsealed

end VersionSet

/-! ### Instances that roll -/

/-- What an instance holds when it rolls. -/
structure Holding (ι : Type) where
  current : Version := {}
  history : List (Record ι) := []
  nextFileNumber : ℕ := 1

/-- An instance between rolls, with the last result. -/
structure Roller (ι : Type) where
  vs : VersionSet ι := {}
  last : Option Status := none

section Rollers

open SnapshotTable VersionSet

variable {T ι : Type} [DecidableEq T]

/-- The set with what it holds. -/
def VersionSet.holding (vs : VersionSet ι) (o : Holding ι) : VersionSet ι :=
  { vs with current := o.current, history := o.history, nextFileNumber := o.nextFileNumber }

/-- Instances that roll again and again, with whatever they hold then. -/
def rollers (config : ManifestConfig) (writeOnce careful : Bool) :
    Machine T (SnapshotTable T ι) (Roller ι) (Holding ι) (Call ι) Call.Result where
  Enabled _ _ _ := True
  start _ o s := do
    let (status, vs) ←
      (s.vs.holding o).writeSnapshotAndInstall config (s.vs.generation + 1) o.current
    pure ⟨vs, some status⟩
  reply := Reply writeOnce careful

/-- After a successful roll the pointer names its entry and its attempt, sealed from its version. -/
def Roller.Owns (config : ManifestConfig) (start : Option CatalogEntry) (t : T) (s : Roller ι)
    (w : SnapshotTable T ι) : Prop :=
  ∃ entry a object, s.vs.entry = some entry ∧ Held start t entry a object w ∧
    SealedFrom config s.vs s.vs.current entry.generation object

/-- The rely and guarantee of the rolls. -/
def rollersProof (config : ManifestConfig) (start : Option CatalogEntry) {writeOnce careful : Bool}
    (hcond : writeOnce = true ∨ careful = true) :
    (rollers config writeOnce careful : Machine T (SnapshotTable T ι) (Roller ι) (Holding ι)
      (Call ι) Call.Result).Proof where
  rely := Others start writeOnce
  guar := Guards start writeOnce
  mid _ _ _ _ := True
  idle t s w := Stands start writeOnce t s.vs w ∧ (s.last = some .ok → s.Owns config start t w)
  rely_refl := Others.refl
  rely_trans _ _ _ _ := Others.trans
  guar_rely hne h := h _ hne.symm
  idle_stable h hothers := by
    refine ⟨h.1.others hothers, fun hok => ?_⟩
    obtain ⟨entry, a, object, hentry, hheld, hsealed⟩ := h.2 hok
    exact ⟨entry, a, object, hentry, hheld.others hothers, hsealed⟩
  safe := by
    intro t o s w h _
    have hstands : Stands start writeOnce t (s.vs.holding o) w := ⟨h.1.sound, h.1.entry⟩
    refine Safe.bind (fun w => .refl t w) (Safe.weaken (writeSnapshotAndInstall_amid hcond hstands)
      fun result w₁ hw₁ => ?_)
    obtain ⟨hstands₁, ⟨entry, a, object, rfl, hheld, hsealed⟩ | hfailed⟩ := hw₁
    · exact Safe.pure fun w₂ hw₂ => ⟨trivial, hstands₁.others hw₂, fun _ =>
        ⟨entry, a, object, rfl, hheld.others hw₂, hsealed⟩⟩
    · exact Safe.pure fun w₂ hw₂ => ⟨trivial, hstands₁.others hw₂, fun hok =>
        absurd (Option.some.inj hok) hfailed.1⟩

/-- All instances stand at one entry. -/
structure Begins (start : Option CatalogEntry) (writeOnce : Bool)
    (x : Machine.State T (SnapshotTable T ι) (Roller ι) (Holding ι) (Call ι) Call.Result) :
    Prop where
  pointer : x.world.pointer = start
  single : writeOnce = true → ∀ g a a', (x.world.snapshot g a).isSome →
    (x.world.snapshot g a').isSome → a = a'
  idle : ∀ t, ∃ vs, x.threads t = .idle ⟨vs, none⟩ ∧ vs.entry = start

/-- After a successful roll the pointer names the instance's entry, and a reader loads the snapshot
sealed from its version; two share a generation only if neither installed one. -/
theorem roll_commits_own_snapshot {config : ManifestConfig} {start : Option CatalogEntry}
    {writeOnce careful : Bool} (hcond : writeOnce = true ∨ careful = true)
    {x y : Machine.State T (SnapshotTable T ι) (Roller ι) (Holding ι) (Call ι) Call.Result}
    (hx : Begins start writeOnce x) (hreach : (rollers config writeOnce careful).Reaches x y) :
    (∀ t s, y.threads t = .idle s → s.last = some .ok → y.world.pointer = s.vs.entry ∧
      ∃ object, y.world.load = .ok object ∧
        SealedFrom config s.vs s.vs.current s.vs.generation object) ∧
    (∀ t t' s s', t ≠ t' → y.threads t = .idle s → y.threads t' = .idle s' →
      s.vs.generation = s'.vs.generation → s.vs.entry = start ∧ s'.vs.entry = start) := by
  have hidle : ∀ t s, y.threads t = .idle s → Stands start writeOnce t s.vs y.world ∧
      (s.last = some .ok → s.Owns config start t y.world) := by
    intro t s hs
    have hholds := hreach.holds (rollersProof config start hcond) (fun t => ?_) t
    · rw [hs] at hholds
      exact hholds
    · obtain ⟨vs, hvs, hentry⟩ := hx.idle t
      rw [hvs]
      exact ⟨⟨⟨.inl hx.pointer, hx.single⟩, .inl hentry⟩, nofun⟩
  refine ⟨fun t s hs hok => ?_, fun t t' s s' hne hs hs' hsame => ?_⟩
  · obtain ⟨entry, a, object, hentry, hheld, hsealed⟩ := (hidle t s hs).2 hok
    refine ⟨hheld.pointer.trans hentry.symm, object, ?_, ?_⟩
    · unfold SnapshotTable.load
      rw [hheld.pointer, hheld.attempt]
      show (match y.world.snapshot entry.generation a with | none => _ | some object => _) = _
      rw [hheld.snapshot]
    · rw [s.vs.generation_eq, hentry]
      exact hsealed
  · rw [s.vs.generation_eq, s'.vs.generation_eq] at hsame
    rcases (hidle t s hs).1.entry with hstart | ⟨⟨-, a, ha, hwriter⟩, hlt⟩
    · rcases (hidle t' s' hs').1.entry with hstart' | ⟨-, hlt'⟩
      · exact ⟨hstart, hstart'⟩
      · rw [← hsame, hstart] at hlt'
        exact absurd hlt' (lt_irrefl _)
    · rcases (hidle t' s' hs').1.entry with hstart' | ⟨⟨-, a', ha', hwriter'⟩, -⟩
      · rw [hsame, hstart'] at hlt
        exact absurd hlt (lt_irrefl _)
      · obtain rfl := Option.some.inj (ha.symm.trans ha')
        exact absurd (hwriter.symm.trans hwriter') hne

/-! ### Two instances -/

/-- A compare-and-set that fails on demand, before or after its effect. -/
def SnapshotTable.answer (writeOnce : Bool) (outcome : Outcome) (t : T) :
    (c : Call ι) → SnapshotTable T ι → c.Result × SnapshotTable T ι
  | .read, w => (.ok w.pointer, w.setUnresolved t none)
  | .compareAndSet expected g, w =>
    match outcome with
    | .failsBefore => (.error .io, w.setUnresolved t (some g))
    | .failsAfter =>
      (.error .io, (if w.pointer = expected then w.install t g else w).setUnresolved t (some g))
    | .healthy =>
      if w.pointer = expected then
        (.ok (some (w.installed g)), (w.install t g).setUnresolved t none)
      else (.ok none, w.setUnresolved t none)
  | .putSnapshot g bytes history, w =>
    if (w.attempts g).keys = [] ∨ writeOnce = false then
      (Status.ok, ((w.put t g ⟨bytes, history⟩).noteWritten t g ⟨t, w.fresh⟩).setUnresolved t none)
    else (Status.config, w.setUnresolved t none)
  | .deleteGeneration g, w => (Status.ok, (w.erase g).setUnresolved t none)
  | .listGenerations, w => (.error .unsupported, w.setUnresolved t none)
  | .getSnapshot _, w => (.error .io, w.setUnresolved t none)
  | .putEdit .., w => (Status.io, w.setUnresolved t none)
  | .getEdit .., w => (.error .io, w.setUnresolved t none)
  | .listEdits _, w => (.error .io, w.setUnresolved t none)
  | .draw, w => ((0 : ℕ), w.setUnresolved t none)
  | .clock, w => ((0 : ℕ), w.setUnresolved t none)
  | .lock tracked, w => (tracked, w.setUnresolved t none)
  | .deleteObjects _, w => (([] : List FileMetadata), w.setUnresolved t none)

theorem vacant_iff {w : SnapshotTable T ι} {g : ℕ} : w.Vacant g ↔ (w.attempts g).keys = [] := by
  have hmem : ∀ a, w.snapshot g a = none ↔ a ∉ (w.attempts g).keys := fun a => by
    rw [SnapshotTable.snapshot, AList.lookup_eq_none, AList.mem_keys]
  rw [List.eq_nil_iff_forall_not_mem]
  exact forall_congr' hmem

theorem SnapshotTable.reply_answer {writeOnce careful : Bool} {outcome : Outcome} {t : T}
    {c : Call ι} {w : SnapshotTable T ι} (hread : careful = true → c = .read → w.Resolves t) :
    Reply writeOnce careful t c w (answer writeOnce outcome t c w).1
      (answer writeOnce outcome t c w).2 := by
  cases c with
  | read => exact ⟨rfl, .inl ⟨rfl, fun hcareful => hread hcareful rfl⟩⟩
  | compareAndSet expected g =>
    by_cases hp : w.pointer = expected
    · cases outcome with
      | healthy => exact .inl ⟨hp, by simp [answer, hp]⟩
      | failsBefore => exact .inr (.inr ⟨rfl, .inl rfl⟩)
      | failsAfter => exact .inr (.inr ⟨rfl, .inr ⟨hp, by simp [answer, hp]⟩⟩)
    · cases outcome with
      | healthy => exact .inr (.inl ⟨hp, by simp [answer, hp]⟩)
      | failsBefore => exact .inr (.inr ⟨rfl, .inl rfl⟩)
      | failsAfter => exact .inr (.inr ⟨rfl, .inl (by simp [answer, hp])⟩)
  | putSnapshot g bytes history =>
    by_cases hfree : (w.attempts g).keys = [] ∨ writeOnce = false
    · have hanswer : answer writeOnce outcome t (.putSnapshot g bytes history) w = (Status.ok, _) :=
        if_pos hfree
      rw [hanswer]
      refine .inl ⟨rfl, fun hwrite => vacant_iff.2 (hfree.resolve_right ?_), rfl⟩
      rw [hwrite]
      exact Bool.noConfusion
    · have hanswer : answer writeOnce outcome t (.putSnapshot g bytes history) w =
          (Status.config, w.setUnresolved t none) := if_neg hfree
      rw [hanswer]
      exact .inr (.inl ⟨rfl, fun hvacant => hfree (.inl (vacant_iff.1 hvacant)), rfl⟩)
  | deleteGeneration g => exact .inr rfl
  | listGenerations => exact ⟨rfl, .inr (.inl rfl)⟩
  | _ => rfl

end Rollers

section Race

open SnapshotTable VersionSet Machine

/-- Two instances at generation 1. -/
def raceStart : Machine.State Bool (SnapshotTable Bool ℕ) (Roller ℕ) (Holding ℕ) (Call ℕ)
    Call.Result where
  world := { pointer := some ⟨1, 1⟩ }
  threads _ := .idle { vs := { entry := some ⟨1, 1⟩ } }

/-- An edit the other does not have. -/
def heldByFirst : Holding ℕ := {}

/-- Another edit. -/
def heldBySecond : Holding ℕ :=
  { current := { truncationPoint := [1] }, history := [⟨7, { truncationPoint := [1] }⟩] }

theorem raceStart_begins (writeOnce : Bool) : Begins (some ⟨1, 1⟩) writeOnce raceStart :=
  ⟨rfl, fun _ _ _ _ h => (by cases h), fun _ => ⟨_, rfl, rfl⟩⟩

/-- `Resolves`, computed. -/
def resolves (w : SnapshotTable Bool ℕ) (t : Bool) : Bool :=
  match w.unresolved t, w.pointer with
  | some g, some entry => entry.generation ≠ g || w.attempt = w.written t g
  | _, _ => true

theorem resolves_of_check {w : SnapshotTable Bool ℕ} {t : Bool} (h : resolves w t = true) :
    w.Resolves t := by
  intro g entry hg hentry hsame
  simpa [resolves, hg, hentry, hsame] using h

/-- A careful instance reads the pointer where it resolves. -/
def mayRead (careful : Bool) (c : Call ℕ) (w : SnapshotTable Bool ℕ) : Bool :=
  match c with
  | .read => !careful || resolves w true && resolves w false
  | _ => true

/-- Where a schedule takes them. -/
def raceAfter (writeOnce careful : Bool) (acts : List (Act Bool (Holding ℕ) Outcome)) :
    Machine.State Bool (SnapshotTable Bool ℕ) (Roller ℕ) (Holding ℕ) (Call ℕ) Call.Result :=
  acts.foldl ((rollers (plainConfig 1) writeOnce careful).perform (mayRead careful)
    (SnapshotTable.answer writeOnce)) raceStart

theorem reaches_raceAfter (writeOnce careful : Bool) (acts : List (Act Bool (Holding ℕ) Outcome)) :
    (rollers (plainConfig 1) writeOnce careful).Reaches raceStart
      (raceAfter writeOnce careful acts) := by
  have hreply : ∀ f t c w, mayRead careful c w = true →
      (rollers (plainConfig 1) writeOnce careful).reply t c w
        (SnapshotTable.answer writeOnce f t c w).1 (SnapshotTable.answer writeOnce f t c w).2 := by
    refine fun f t c w hmay => SnapshotTable.reply_answer fun hcareful hc => ?_
    rw [hc, mayRead, hcareful, Bool.not_true, Bool.false_or, Bool.and_eq_true] at hmay
    cases t
    · exact resolves_of_check hmay.2
    · exact resolves_of_check hmay.1
  obtain ⟨been, hrun⟩ := Runs.schedule hreply (fun _ _ _ => trivial) acts (fun _ _ _ _ => trivial)
    (checks_true ..) ⟨_, .refl⟩
  exact hrun.reaches

/-- Both put snapshots. The first installs its own, is told it failed, and finds it in the pointer;
the second is late. -/
def resolvedActs : List (Act Bool (Holding ℕ) Outcome) :=
  [.start true heldByFirst, .start false heldBySecond, .go true .healthy, .go false .healthy,
    .go true .healthy, .go false .healthy, .go true .failsAfter] ++
    List.replicate 4 (.go true .healthy) ++ List.replicate 4 (.go false .healthy)

theorem ambiguous_roll_commits_own : ∃ s s',
    (raceAfter false true resolvedActs).threads true = .idle s ∧
    (raceAfter false true resolvedActs).threads false = .idle s' ∧ s.vs.entry = some ⟨2, 2⟩ ∧
    s'.last = some .fenced ∧ ∃ object, (raceAfter false true resolvedActs).world.load = .ok object ∧
      SealedFrom (plainConfig 1) s.vs s.vs.current s.vs.generation object := by
  have hfirst : (raceAfter false true resolvedActs).threads true = .idle _ :=
    Thread.eq_idle (by decide +kernel)
  have hsecond : (raceAfter false true resolvedActs).threads false = .idle _ :=
    Thread.eq_idle (by decide +kernel)
  obtain ⟨-, hload⟩ := (roll_commits_own_snapshot (.inr rfl) (raceStart_begins false)
    (reaches_raceAfter false true resolvedActs)).1 true _ hfirst (by decide +kernel)
  exact ⟨_, _, hfirst, hsecond, by decide +kernel, by decide +kernel, hload⟩

/-- Both put snapshots, the second installs its own, and the first's compare-and-set fails without
effect. -/
def racedActs : List (Act Bool (Holding ℕ) Outcome) :=
  [.start true heldByFirst, .start false heldBySecond, .go true .healthy, .go false .healthy,
    .go true .healthy, .go false .healthy, .go false .healthy, .go false .healthy,
    .go false .healthy, .go true .failsBefore] ++ List.replicate 3 (.go true .healthy)

/-- The first takes the second's generation for its own: one entry, two versions, and a reader loads
the second's. -/
theorem two_instances_hold_one_generation : Begins (some ⟨1, 1⟩) false raceStart ∧
    (rollers (plainConfig 1) false false).Reaches raceStart (raceAfter false false racedActs) ∧
    ∃ s s', (raceAfter false false racedActs).threads true = .idle s ∧
      (raceAfter false false racedActs).threads false = .idle s' ∧
      s.last = some .ok ∧ s'.last = some .ok ∧ s.vs.entry = s'.vs.entry ∧
      s.vs.entry = some ⟨2, 2⟩ ∧ s.vs.current ≠ s'.vs.current ∧
      ∀ object, (raceAfter false false racedActs).world.load = .ok object →
        ¬ SealedFrom (plainConfig 1) s.vs s.vs.current s.vs.generation object := by
  refine ⟨raceStart_begins false, reaches_raceAfter false false racedActs, _, _,
    Thread.eq_idle ?_, Thread.eq_idle ?_, ?_, ?_, ?_, ?_, ?_, fun object hload hsealed => ?_⟩
  · decide +kernel
  · decide +kernel
  · decide +kernel
  · decide +kernel
  · decide +kernel
  · decide +kernel
  · decide +kernel
  · have hlabel : (raceAfter false false racedActs).world.load.toOption.map Object.label =
        some heldBySecond.history := by decide +kernel
    have hown : ((raceAfter false false racedActs).threads true).state.vs.history = [] := by
      decide +kernel
    rw [hload] at hlabel
    have hobject : object.label = heldBySecond.history := Option.some.inj hlabel
    rw [hsealed.1, hown] at hobject
    cases hobject

end Race

end ElysiumKV
