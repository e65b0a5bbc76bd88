import ElysiumKV.ManifestSteps

/-!
# Rolling a generation on a catalog that fails

A single writer's roll ends with the pointer at a generation of the snapshot alone, or with a status
that is not `ok` and nothing changed (`writeSnapshotAndInstall_alone`).
-/

namespace ElysiumKV

open Program Program.Prog ManifestPayload

/-- A failing catalog, with the edits whose put failed and whether the last call moved the pointer
yet reported a failure. -/
structure ShakyCatalog (ι : Type) where
  catalog : Catalog ι := {}
  unresolved : Bool := false
  failedPuts : List ι := []

namespace ShakyCatalog

variable {ι : Type}

/-- The edit whose put failed. -/
def reported : (c : Call ι) → c.Result → List ι
  | .putEdit _ _ _ id, r => if r = Status.io then [id] else []
  | _, _ => []

/-- A careful service answers the pointer read that follows such a move. -/
def Reply (careful : Bool) (c : Call ι) (w : ShakyCatalog ι) (r : c.Result)
    (w' : ShakyCatalog ι) : Prop :=
  Catalog.Faulty c w.catalog r w'.catalog ∧
    (w'.unresolved = true ↔ Catalog.Failed c r ∧ w'.catalog.pointer ≠ w.catalog.pointer) ∧
    w'.failedPuts = reported c r ++ w.failedPuts ∧
    (careful = true → w.unresolved = true → c = .read → ¬ Catalog.Failed c r)

theorem reported_eq_nil {c : Call ι} {r : c.Result} (h : ¬ Catalog.Failed c r) :
    reported c r = [] := by
  cases c with
  | putEdit g seq bytes id => exact if_neg h
  | _ => rfl

theorem reply_of_healthy (careful unresolved : Bool) (puts : List ι) {c : Call ι} {r : c.Result}
    {w w' : Catalog ι} (h : Catalog.Reply c w r w') :
    Reply careful c ⟨w, unresolved, puts⟩ r ⟨w', false, puts⟩ := by
  have hfailed := Catalog.not_failed_of_reply h
  refine ⟨.inl h, ⟨nofun, fun hr => absurd hr.1 hfailed⟩, ?_, fun _ _ _ => hfailed⟩
  rw [reported_eq_nil hfailed, List.nil_append]

end ShakyCatalog

namespace VersionSet

open Catalog

variable {ι : Type}

/-! ### What a roll may change before its commit point -/

/-- Only snapshots above `floor` were added, and no edit's put failed. -/
structure Beyond (floor : ℕ) (w w' : ShakyCatalog ι) : Prop where
  pointer : w'.catalog.pointer = w.catalog.pointer
  below : ∀ g ≤ floor, w'.catalog.generation g = w.catalog.generation g
  edits : ∀ g, (w'.catalog.generation g).edits = (w.catalog.generation g).edits
  failedPuts : w'.failedPuts = w.failedPuts

theorem Beyond.refl (floor : ℕ) (w : ShakyCatalog ι) : Beyond floor w w :=
  ⟨rfl, fun _ _ => rfl, fun _ => rfl, rfl⟩

variable {floor : ℕ} {w w' : ShakyCatalog ι}

theorem Beyond.trans {w'' : ShakyCatalog ι} (h : Beyond floor w w') (h' : Beyond floor w' w'') :
    Beyond floor w w'' :=
  ⟨h'.pointer.trans h.pointer, fun g hg => (h'.below g hg).trans (h.below g hg),
    fun g => (h'.edits g).trans (h.edits g), h'.failedPuts.trans h.failedPuts⟩

theorem Beyond.of_eq (hcatalog : w'.catalog = w.catalog) (hputs : w'.failedPuts = w.failedPuts) :
    Beyond floor w w' := by
  refine ⟨?_, fun g _ => ?_, fun g => ?_, hputs⟩ <;> rw [hcatalog]

theorem Beyond.withSnapshot {g : ℕ} {bytes : Bytes} {history : List (Record ι)} (hg : floor < g)
    (hcatalog : w'.catalog = w.catalog.withSnapshot g bytes history)
    (hputs : w'.failedPuts = w.failedPuts) : Beyond floor w w' := by
  refine ⟨by rw [hcatalog]; rfl, fun g' hg' => ?_, fun g' => ?_, hputs⟩
  · rw [hcatalog, Catalog.withSnapshot, Catalog.generation_set, if_neg (by omega)]
  · rw [hcatalog, Catalog.withSnapshot, Catalog.generation_set]
    split_ifs with h
    · rw [h]
    · rfl

section Roll

variable {config : ManifestConfig} {vs : VersionSet ι} {snapshot : VersionSnapshot}
  {mid : ShakyCatalog ι → Prop}

/-- A roll fails with a status, the object as it was. -/
def FailedRoll (vs : VersionSet ι) (result : Status × VersionSet ι) : Prop :=
  result.1 ≠ .ok ∧ result.2 = vs

theorem FailedRoll.unchanged {status : Status} (h : status ≠ .ok) : FailedRoll vs (status, vs) :=
  ⟨h, rfl⟩

/-- The snapshot reads back at any generation. -/
def Reopens (config : ManifestConfig) (snapshot : VersionSnapshot) : Prop :=
  ∀ generation draw framed, sealPayload config.registry config.codecs generation draw
    (snapshotAddress generation) (encodeVersionSnapshot config.codecs snapshot) = .ok framed →
    readSnapshot config generation framed = .ok (snapshot, config.registry.primary)

/-- How the loop that puts the snapshot ends. -/
def WroteSnapshot (config : ManifestConfig) (vs : VersionSet ι) (snapshot : VersionSnapshot)
    (floor : ℕ) (w : ShakyCatalog ι) (r : Except (Status × VersionSet ι) ℕ)
    (w' : ShakyCatalog ι) : Prop :=
  Beyond floor w w' ∧ match r with
    | .error result => FailedRoll vs result
    | .ok g => floor < g ∧
      HoldsSnapshot config g (w'.catalog.generation g) vs.history snapshot

variable {floor : ℕ} {w w' : ShakyCatalog ι}

theorem WroteSnapshot.trans {w'' : ShakyCatalog ι} {r : Except (Status × VersionSet ι) ℕ}
    (h : Beyond floor w w') (h' : WroteSnapshot config vs snapshot floor w' r w'') :
    WroteSnapshot config vs snapshot floor w r w'' := ⟨h.trans h'.1, h'.2⟩

theorem putSnapshotLoop_alone (hreopens : Reopens config snapshot) (attempts : ℕ) :
    ∀ {g : ℕ} {w : ShakyCatalog ι}, 0 < attempts → floor < g → w.catalog.pointer = vs.entry →
      (∀ w', Beyond floor w w' → mid w') →
      (putSnapshotLoop config vs (encodeVersionSnapshot config.codecs snapshot) attempts g).Alone
        (ShakyCatalog.Reply true) mid (WroteSnapshot config vs snapshot floor w) w := by
  induction attempts with
  | zero =>
    intro g w hpos
    omega
  | succ attempts ih =>
    intro g w _ hg hpointer hmid
    unfold putSnapshotLoop
    refine Alone.ask (c := Call.draw) (hmid w (.refl _ _)) fun draw w₁ h₁ => ?_
    have hb₁ : Beyond floor w w₁ := .of_eq (faulty_draw h₁.1) h₁.2.2.1
    cases hseal : sealPayload config.registry config.codecs g draw (snapshotAddress g)
        (encodeVersionSnapshot config.codecs snapshot) with
    | error status => exact Alone.pure (hmid _ hb₁) ⟨hb₁, .unchanged (sealPayload_error hseal)⟩
    | ok framed =>
      refine Alone.ask (c := Call.putSnapshot g framed vs.history) (hmid _ hb₁) fun status w₂ h₂ => ?_
      have hputs₂ : w₂.failedPuts = w₁.failedPuts := h₂.2.2.1
      rcases faulty_putSnapshot h₂.1 with ⟨-, rfl, hw₂⟩ | ⟨rfl, hw₂⟩ | ⟨rfl, hw₂⟩
      · -- the address was free
        have hb₂ : Beyond floor w w₂ := hb₁.trans (.withSnapshot hg hw₂ hputs₂)
        refine Alone.pure (hmid _ hb₂) ⟨hb₂, hg, ⟨framed, vs.history⟩, ?_, rfl,
          hreopens _ _ _ hseal⟩
        rw [hw₂, withSnapshot, generation_set, if_pos rfl]
      · -- residue at the address
        have hb₂ : Beyond floor w w₂ := hb₁.trans (.of_eq hw₂ hputs₂)
        refine Alone.ask (c := Call.read) (hmid _ hb₂) fun pointer w₃ h₃ => ?_
        have hb₃ : Beyond floor w w₃ := hb₂.trans (.of_eq (faulty_read h₃.1).1 h₃.2.2.1)
        rcases (faulty_read h₃.1).2 with rfl | rfl
        · show Alone _ _ (if _ then _ else _) _ _
          rw [if_neg (not_not.2 (hb₂.pointer.trans hpointer))]
          refine Alone.ask (c := Call.listGenerations) (hmid _ hb₃) fun generations w₄ h₄ => ?_
          have hb₄ : Beyond floor w w₄ :=
            hb₃.trans (.of_eq (faulty_listGenerations h₄.1).1 h₄.2.2.1)
          have hunusable : WroteSnapshot config vs snapshot floor w (.error (.unusable, vs)) w₄ :=
            ⟨hb₄, .unchanged (by decide)⟩
          have hagain : ∀ g', floor < g' → attempts ≠ 0 →
              (putSnapshotLoop config vs (encodeVersionSnapshot config.codecs snapshot) attempts
                g').Alone (ShakyCatalog.Reply true) mid
                (WroteSnapshot config vs snapshot floor w) w₄ := fun g' hg' hne =>
            (ih (by omega) hg' (hb₄.pointer.trans hpointer) fun w' hw' =>
              hmid w' (hb₄.trans hw')).weaken fun r w' hr => hr.trans hb₄
          rcases (faulty_listGenerations h₄.1).2 with ⟨l, rfl⟩ | rfl | rfl
          · have hhighest : g ≤ l.foldl max g := le_foldl_max l g
            show Alone _ _ (if _ then _ else if _ then _ else _) _ _
            split_ifs with hmax hlast
            · exact Alone.pure (hmid _ hb₄) hunusable
            · exact Alone.pure (hmid _ hb₄) hunusable
            · exact hagain _ (by omega) hlast
          · show Alone _ _ (if _ then _ else if _ then _ else if _ then _ else _) _ _
            rw [if_neg (not_not.2 rfl)]
            split_ifs with hmax hlast
            · exact Alone.pure (hmid _ hb₄) hunusable
            · exact Alone.pure (hmid _ hb₄) hunusable
            · exact hagain _ (by omega) hlast
          · exact Alone.pure (hmid _ hb₄) ⟨hb₄, .unchanged (by decide)⟩
        · exact Alone.pure (hmid _ hb₃) ⟨hb₃, .unchanged (by decide)⟩
      · have hb₂ : Beyond floor w w₂ := by
          rcases hw₂ with hw₂ | ⟨-, hw₂⟩
          · exact hb₁.trans (.of_eq hw₂ hputs₂)
          · exact hb₁.trans (.withSnapshot hg hw₂ hputs₂)
        exact Alone.pure (hmid _ hb₂) ⟨hb₂, .unchanged (by decide)⟩

/-- The pointer moved; at most its former generation is gone. -/
structure Moved (vs : VersionSet ι) (g : ℕ) (w : ShakyCatalog ι) (entry : CatalogEntry)
    (w' : ShakyCatalog ι) : Prop where
  generation : entry.generation = g
  pointer : w'.catalog.pointer = some entry
  others : ∀ g', (∀ e, vs.entry = some e → g' ≠ e.generation) →
    w'.catalog.generation g' = w.catalog.generation g'
  left : ∀ e, vs.entry = some e → w'.catalog.generation e.generation =
    w.catalog.generation e.generation ∨ w'.catalog.generation e.generation = {}
  failedPuts : w'.failedPuts = w.failedPuts

/-- The set after its install. -/
def adopted (vs : VersionSet ι) (entry : CatalogEntry) : VersionSet ι :=
  { vs with entry := some entry, manifestPayloadsPendingReencryption := 0 }

/-- How an install ends. -/
def Installed (vs : VersionSet ι) (g : ℕ) (w : ShakyCatalog ι) (result : Status × VersionSet ι)
    (w' : ShakyCatalog ι) : Prop :=
  (∃ entry, Moved vs g w entry w' ∧ result = (.ok, vs.adopted entry)) ∨
    FailedRoll vs result ∧ w'.catalog = w.catalog ∧ w'.failedPuts = w.failedPuts

variable {g : ℕ}

theorem adoptEntry_alone {w₁ : ShakyCatalog ι} {entry : CatalogEntry}
    (hmoved : Moved vs g w entry w₁) (hmid : ∀ w', Moved vs g w entry w' → mid w') :
    (adoptEntry vs entry).Alone (ShakyCatalog.Reply true) mid (Installed vs g w) w₁ := by
  unfold adoptEntry
  cases hentry : vs.entry with
  | none => exact Alone.pure (hmid _ hmoved) (.inl ⟨entry, hmoved, rfl⟩)
  | some previous =>
    refine Alone.ask (c := Call.deleteGeneration previous.generation) (hmid _ hmoved)
      fun r w₂ h₂ => ?_
    have hmoved₂ : Moved vs g w entry w₂ := by
      have hputs : w₂.failedPuts = w.failedPuts := h₂.2.2.1.trans hmoved.failedPuts
      rcases faulty_deleteGeneration h₂.1 with hw₂ | hw₂
      · refine ⟨hmoved.generation, ?_, fun g' hg' => ?_, fun e he => ?_, hputs⟩
        · rw [hw₂, hmoved.pointer]
        · rw [hw₂, hmoved.others g' hg']
        · rw [hw₂]
          exact hmoved.left e he
      · refine ⟨hmoved.generation, ?_, fun g' hg' => ?_, fun e he => .inr ?_, hputs⟩
        · rw [hw₂, pointer_erase, hmoved.pointer]
        · rw [hw₂, generation_erase, if_neg (hg' previous hentry), hmoved.others g' hg']
        · obtain rfl := Option.some.inj (hentry.symm.trans he)
          rw [hw₂, generation_erase, if_pos rfl]
    exact Alone.pure (hmid _ hmoved₂) (.inl ⟨entry, hmoved₂, rfl⟩)

theorem moved_withPointer (hcatalog : w'.catalog = w.catalog.withPointer g)
    (hputs : w'.failedPuts = w.failedPuts) : Moved vs g w (w.catalog.installed g) w' := by
  refine ⟨rfl, ?_, fun g' _ => ?_, fun e _ => .inl ?_, hputs⟩
  · rw [hcatalog, pointer_withPointer]
  · rw [hcatalog, generation_withPointer]
  · rw [hcatalog, generation_withPointer]

/-- The pointer is moved, or the catalog left alone; after a move that reported a failure the next
read finds the new generation. -/
theorem installGeneration_alone (hpointer : w.catalog.pointer = vs.entry)
    (hafter : ∀ e, vs.entry = some e → e.generation < g)
    (hsame : ∀ w', w'.catalog = w.catalog → w'.failedPuts = w.failedPuts → mid w')
    (hmid : ∀ w' entry, Moved vs g w entry w' → mid w') :
    (installGeneration vs g).Alone (ShakyCatalog.Reply true) mid (Installed vs g w) w := by
  unfold installGeneration
  refine Alone.ask (c := Call.compareAndSet vs.entry g) (hsame w rfl rfl) fun installed w₁ h₁ => ?_
  have hputs₁ : w₁.failedPuts = w.failedPuts := h₁.2.2.1
  rcases faulty_compareAndSet h₁.1 with ⟨-, rfl, hw₁⟩ | ⟨hne, -, -⟩ | ⟨rfl, hw₁⟩
  · exact adoptEntry_alone (moved_withPointer hw₁ hputs₁) fun w' hw' => hmid w' _ hw'
  · exact absurd hpointer hne
  · rcases hw₁ with hw₁ | ⟨-, hw₁⟩
    · -- nothing happened: whatever the read says, the object stays as it is
      refine Alone.ask (c := Call.read) (hsame _ hw₁ hputs₁) fun observed w₂ h₂ => ?_
      have hw₂ : w₂.catalog = w.catalog := (faulty_read h₂.1).1.trans hw₁
      have hputs₂ : w₂.failedPuts = w.failedPuts := h₂.2.2.1.trans hputs₁
      have hio : Installed vs g w (.io, vs) w₂ := .inr ⟨.unchanged (by decide), hw₂, hputs₂⟩
      rcases (faulty_read h₂.1).2 with rfl | rfl
      · rw [hw₁, hpointer]
        cases hentry : vs.entry with
        | none =>
          show Alone _ _ (if _ then _ else _) _ _
          rw [if_pos rfl]
          exact Alone.pure (hsame _ hw₂ hputs₂) hio
        | some entry =>
          show Alone _ _ (if _ then _ else if _ then _ else _) _ _
          rw [if_neg (hafter entry hentry).ne, if_pos rfl]
          exact Alone.pure (hsame _ hw₂ hputs₂) hio
      · exact Alone.pure (hsame _ hw₂ hputs₂) hio
    · -- the pointer moved, so the read does not fail and finds the new generation
      have hmoved₁ : Moved vs g w _ w₁ := moved_withPointer hw₁ hputs₁
      have hunresolved : w₁.unresolved = true := by
        refine h₁.2.1.2 ⟨rfl, ?_⟩
        rw [hw₁]
        exact pointer_withPointer_ne _ _
      refine Alone.ask (c := Call.read) (hmid _ _ hmoved₁) fun observed w₂ h₂ => ?_
      have hw₂ : w₂.catalog = w.catalog.withPointer g := (faulty_read h₂.1).1.trans hw₁
      have hputs₂ : w₂.failedPuts = w.failedPuts := h₂.2.2.1.trans hputs₁
      rcases (faulty_read h₂.1).2 with rfl | rfl
      · rw [hw₁, pointer_withPointer]
        show Alone _ _ (if g = g then _ else _) _ _
        rw [if_pos rfl]
        exact adoptEntry_alone (moved_withPointer hw₂ hputs₂) fun w' hw' => hmid w' _ hw'
      · exact absurd rfl (h₂.2.2.2 rfl hunresolved rfl)

/-- The pointer names a generation above `floor` with the snapshot; edits above `floor` are as
before, and of generations up to it at most some are gone. -/
structure RolledTo (config : ManifestConfig) (vs : VersionSet ι) (snapshot : VersionSnapshot)
    (floor : ℕ) (w : ShakyCatalog ι) (entry : CatalogEntry) (w' : ShakyCatalog ι) : Prop where
  above : floor < entry.generation
  pointer : w'.catalog.pointer = some entry
  snapshot : HoldsSnapshot config entry.generation (w'.catalog.generation entry.generation)
    vs.history snapshot
  edits : ∀ g, floor < g → (w'.catalog.generation g).edits = (w.catalog.generation g).edits
  left : ∀ g ≤ floor, w'.catalog.generation g = w.catalog.generation g ∨
    w'.catalog.generation g = {}
  failedPuts : w'.failedPuts = w.failedPuts

theorem Moved.rolledTo {w₁ : ShakyCatalog ι} {entry : CatalogEntry}
    (hmoved : Moved vs g w₁ entry w') (hafter : ∀ e, vs.entry = some e → e.generation ≤ floor)
    (hbeyond : Beyond floor w w₁) (habove : floor < g)
    (hsnapshot : HoldsSnapshot config g (w₁.catalog.generation g) vs.history snapshot) :
    RolledTo config vs snapshot floor w entry w' := by
  have hothers : ∀ g', floor < g' → w'.catalog.generation g' = w₁.catalog.generation g' := by
    intro g' hg'
    refine hmoved.others g' fun e he => ?_
    have := hafter e he
    omega
  obtain rfl := hmoved.generation
  refine ⟨habove, hmoved.pointer, ?_, fun g' hg' => ?_, fun g' hg' => ?_,
    hmoved.failedPuts.trans hbeyond.failedPuts⟩
  · rwa [hothers _ habove]
  · rw [hothers _ hg', hbeyond.edits]
  · rw [← hbeyond.below g' hg']
    by_cases hprevious : ∃ e, vs.entry = some e ∧ g' = e.generation
    · obtain ⟨e, he, rfl⟩ := hprevious
      exact hmoved.left e he
    · exact .inl (hmoved.others g' fun e he heq => hprevious ⟨e, he, heq⟩)

/-- How a roll ends. -/
def RollEnds (config : ManifestConfig) (vs : VersionSet ι) (snapshot : VersionSnapshot)
    (floor : ℕ) (w : ShakyCatalog ι) (result : Status × VersionSet ι) (w' : ShakyCatalog ι) : Prop :=
  (∃ entry, RolledTo config vs snapshot floor w entry w' ∧ result = (.ok, vs.adopted entry)) ∨
    FailedRoll vs result ∧ Beyond floor w w'

theorem writeSnapshotAndInstall_alone {version : Version} (floor : ℕ)
    (hreopens : Reopens config (vs.snapshotOf version)) (hpointer : w.catalog.pointer = vs.entry)
    (hafter : ∀ e, vs.entry = some e → e.generation ≤ floor)
    (hbeyond : ∀ w', Beyond floor w w' → mid w')
    (hrolled : ∀ w' entry, RolledTo config vs (vs.snapshotOf version) floor w entry w' → mid w') :
    (writeSnapshotAndInstall config vs (floor + 1) version).Alone (ShakyCatalog.Reply true) mid
      (RollEnds config vs (vs.snapshotOf version) floor w) w := by
  unfold writeSnapshotAndInstall
  refine Alone.bind ((putSnapshotLoop_alone hreopens snapshotAttempts (by decide)
    (Nat.lt_succ_self floor) hpointer hbeyond).weaken fun written w₁ h₁ => ?_)
  obtain ⟨hb₁, h₁⟩ := h₁
  cases written with
  | error result => exact Alone.pure (hbeyond _ hb₁) (.inr ⟨h₁, hb₁⟩)
  | ok g =>
    obtain ⟨habove, hsnapshot⟩ := h₁
    have hinstall : (installGeneration vs g).Alone (ShakyCatalog.Reply true) mid
        (Installed vs g w₁) w₁ := by
      refine installGeneration_alone (hb₁.pointer.trans hpointer) (fun e he => ?_)
        (fun w' hw' hputs => hbeyond _ (hb₁.trans (.of_eq hw' hputs)))
        (fun w' entry hmoved => hrolled w' entry (hmoved.rolledTo hafter hb₁ habove hsnapshot))
      exact (hafter e he).trans_lt habove
    refine hinstall.weaken fun result w' h' => ?_
    rcases h' with ⟨entry, hmoved, rfl⟩ | ⟨hfailed, hw', hputs⟩
    · exact .inl ⟨entry, hmoved.rolledTo hafter hb₁ habove hsnapshot, rfl⟩
    · exact .inr ⟨hfailed, hb₁.trans (.of_eq hw' hputs)⟩

end Roll

end VersionSet

end ElysiumKV
