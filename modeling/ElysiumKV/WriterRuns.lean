import ElysiumKV.SingleWriter

/-!
# Runs of one writer

Over a catalog that fails (`WriterRun`) a recovery finds what the writer holds, with at most one
edit more, as long as the read after an ambiguous compare-and-set answers. Over a healthy one
(`HealthyRun`) it reproduces the writer.
-/

namespace ElysiumKV

open Program Program.Prog List VersionSet

variable {ι : Type}

/-! ### A catalog that fails -/

/-- What a writer does. -/
inductive WriterOp (ι : Type)
  | apply (id : ι) (edit : VersionEdit)
  | roll

namespace WriterOp

/-- Its program. -/
def program (config : ManifestConfig) (vs : VersionSet ι) :
    WriterOp ι → Manifest ι (Status × VersionSet ι)
  | .apply id edit => vs.apply config id edit
  | .roll => vs.rollGenerationNow config

/-- What it writes can be recovered. -/
def Fits (config : ManifestConfig) (vs : VersionSet ι) : WriterOp ι → Prop
  | .apply _ edit => vs.ApplyFits config edit
  | .roll => vs.Rolls → VersionSet.SnapshotRoom config (vs.snapshotOf vs.current)

/-- The edit it issues. -/
def record (vs : VersionSet ι) : WriterOp ι → Option (Record ι)
  | .apply id edit => some (vs.recordOf id edit)
  | .roll => none

end WriterOp

/-- A writer between operations, with the edits issued and those acknowledged. -/
structure Writer (ι : Type) where
  vs : VersionSet ι
  world : ShakyCatalog ι
  issued : List (Record ι) := []
  acked : List ι := []

namespace Writer

/-- After an operation. -/
def after (x : Writer ι) (op : WriterOp ι) (result : Status × VersionSet ι) (w : ShakyCatalog ι) :
    Writer ι where
  vs := result.2
  world := w
  issued := x.issued ++ (op.record x.vs).toList
  acked := if result.1 = .ok then x.acked ++ (op.record x.vs).toList.map Record.id else x.acked

/-- A fresh healthy recovery installs the version in memory, perhaps with one edit in flight or
failed; all acknowledged edits are in it. -/
def Tracked (config : ManifestConfig) (x : Writer ι) (inFlight : Option (Record ι)) : Prop :=
  ∃ vs, (recover config {}).run Catalog.answer x.world.catalog =
      ((.ok, vs), x.world.catalog) ∧
    (vs.current.Same x.vs.current ∧ vs.history = x.vs.history ∨
      ∃ r, (inFlight = some r ∨ r ∈ x.issued ∧ r.id ∈ x.world.failedPuts) ∧
        vs.current.Same (x.vs.current.apply r.edit) ∧ vs.history = x.vs.history ++ [r]) ∧
    ∀ id ∈ x.acked, ∃ r ∈ vs.history, r.id = id

end Writer

/-- Runs over a failing catalog. Where `careful`, a pointer read does not fail right after a
compare-and-set that moved it and reported a failure. -/
inductive WriterRun (careful : Bool) (config : ManifestConfig) : Writer ι → Prop
  | opened {vs : VersionSet ι} {w : ShakyCatalog ι}
      (hroom : VersionSet.SnapshotRoom config (({} : VersionSet ι).snapshotOf {}))
      (hcreate : (create config {}).Exec (ShakyCatalog.Reply careful) {} (.ok, vs) w) :
      WriterRun careful config { vs := vs, world := w }
  | reopened {x : Writer ι} {vs : VersionSet ι} (h : WriterRun careful config x)
      (hrecover : (recover config {}).run Catalog.answer x.world.catalog =
        ((.ok, vs), x.world.catalog)) :
      WriterRun careful config { x with vs := vs }
  | allocated {x : Writer ι} (h : WriterRun careful config x)
      (hcounter : x.vs.nextFileNumber + 1 < 2 ^ 64) :
      WriterRun careful config { x with vs := x.vs.allocateFileNumber.2 }
  | did {x : Writer ι} {op : WriterOp ι} {result : Status × VersionSet ι} {w : ShakyCatalog ι}
      (h : WriterRun careful config x) (hfits : op.Fits config x.vs)
      (hexec : (op.program config x.vs).Exec (ShakyCatalog.Reply careful) x.world result w) :
      WriterRun careful config (x.after op result w)

namespace Writer

variable {config : ManifestConfig} {x : Writer ι}

/-- Memory stands for the catalog, a pending edit's put failed, and acknowledged edits are in the
history. -/
def Good (config : ManifestConfig) (x : Writer ι) : Prop :=
  (∃ l pending, VersionSet.Consistent config x.vs x.world.catalog l pending ∧
    ∀ r ∈ pending, r ∈ x.issued ∧ r.id ∈ x.world.failedPuts) ∧
  ∀ id ∈ x.acked, ∃ r ∈ x.vs.history, r.id = id

theorem tracked_of_recovers {w : ShakyCatalog ι} {pending inFlight : Option (Record ι)}
    (hrec : VersionSet.Recovers config w.catalog (withPending x.vs.current pending)
      (x.vs.history ++ pending.toList))
    (hacked : ∀ id ∈ x.acked, ∃ r ∈ x.vs.history, r.id = id)
    (hpending : ∀ r ∈ pending, inFlight = some r ∨ r ∈ x.issued ∧ r.id ∈ w.failedPuts) :
    Tracked config { x with world := w } inFlight := by
  obtain ⟨vs, hrun, hcurrent, hhistory⟩ := hrec
  refine ⟨vs, hrun, ?_, fun id hid => ?_⟩
  · cases pending with
    | none =>
      rw [Option.toList_none, append_nil] at hhistory
      exact .inl ⟨hcurrent, hhistory⟩
    | some r => exact .inr ⟨r, hpending r rfl, hcurrent, hhistory⟩
  · obtain ⟨r, hr, hid⟩ := hacked id hid
    exact ⟨r, hhistory ▸ mem_append_left _ hr, hid⟩

theorem Good.tracked (h : x.Good config) : x.Tracked config none := by
  obtain ⟨⟨l, pending, hcons, hpending⟩, hacked⟩ := h
  exact tracked_of_recovers hcons.recovers hacked fun r hr => .inr (hpending r hr)

/-- An operation keeps the writer good, and a recovery at any point finds its version or one edit
more. -/
theorem Good.alone (h : x.Good config) {op : WriterOp ι} (hfits : op.Fits config x.vs) :
    (op.program config x.vs).Alone (ShakyCatalog.Reply true)
      (fun w => Tracked config { x with world := w } (op.record x.vs) ∧
        WriterSteps config x.world.catalog w.catalog)
      (fun result w => (x.after op result w).Good config ∧
        (result.1 ≠ .ok → VersionSet.FailedApply x.vs result)) x.world := by
  obtain ⟨⟨l, pending, hcons, hpending⟩, hacked⟩ := h
  cases op with
  | apply id edit =>
    refine (apply_alone hcons hfits fun w p hp hputs hrec hsteps => ?_).weaken fun result w h' => ?_
    · refine ⟨tracked_of_recovers hrec.recovers hacked fun r hr => ?_, hsteps⟩
      rcases hp with rfl | rfl
      · exact .inr ⟨(hpending r hr).1, hputs (hpending r hr).2⟩
      · exact .inl hr
    · obtain ⟨hputs, ⟨hok, happlied⟩ | ⟨hfailed, p, hp, hwhich⟩⟩ := h'
      · refine ⟨⟨?_, fun i hi => ?_⟩, fun hne => absurd hok hne⟩
        · obtain ⟨l', hl', -⟩ := happlied.consistent
          exact ⟨l', none, hl', nofun⟩
        · simp only [after, if_pos hok, mem_append] at hi
          show ∃ r ∈ result.2.history, r.id = i
          rw [happlied.history]
          rcases hi with hi | hi
          · obtain ⟨r, hr, hid⟩ := hacked i hi
            exact ⟨r, mem_append_left _ hr, hid⟩
          · obtain ⟨r, hr, hid⟩ := mem_map.1 hi
            exact ⟨r, mem_append_right _ hr, hid⟩
      · refine ⟨⟨⟨l, p, hfailed.consistent hp, fun r hr => ?_⟩, fun i hi => ?_⟩, fun _ => hfailed⟩
        · rcases hwhich with rfl | ⟨rfl, hid⟩
          · exact ⟨mem_append_left _ (hpending r hr).1, hputs (hpending r hr).2⟩
          · obtain rfl := Option.some.inj hr
            exact ⟨mem_append_right _ (mem_singleton_self _), hid⟩
        · simp only [after, if_neg hfailed.1] at hi
          show ∃ r ∈ result.2.history, r.id = i
          rw [hfailed.history]
          exact hacked i hi
  | roll =>
    have hgood : ∀ result w l' p, VersionSet.Consistent config result.2 w.catalog l' p →
        (p = pending ∨ p = none) → w.failedPuts = x.world.failedPuts →
        result.2.history = x.vs.history → (x.after .roll result w).Good config := by
      intro result w l' p hp hwhich hputs hhistory
      refine ⟨⟨l', p, hp, fun r hr => ?_⟩, fun i hi => ?_⟩
      · rcases hwhich with rfl | rfl
        · exact ⟨mem_append_left _ (hpending r hr).1, hputs.symm ▸ (hpending r hr).2⟩
        · cases hr
      · simp only [after, WriterOp.record, Option.toList_none, map_nil, append_nil, ite_self] at hi
        show ∃ r ∈ result.2.history, r.id = i
        rw [hhistory]
        exact hacked i hi
    refine (rollGenerationNow_alone hcons hfits fun w p hp hputs hrec hsteps => ?_).weaken
      fun result w h' => ?_
    · refine ⟨tracked_of_recovers hrec.recovers hacked fun r hr => ?_, hsteps⟩
      rcases hp with rfl | rfl
      · exact .inr ⟨(hpending r hr).1, hputs.symm ▸ (hpending r hr).2⟩
      · cases hr
    · rcases h' with ⟨rfl, rfl, -⟩ | ⟨-, hputs, -, ⟨entry, rfl, hrolled⟩ | ⟨hfailed, hkept⟩⟩ |
        ⟨hfailed, rfl⟩
      · exact ⟨hgood _ _ l pending hcons (.inl rfl) rfl rfl, fun hne => absurd rfl hne⟩
      · exact ⟨hgood _ _ _ none hrolled (.inr rfl) hputs rfl, fun hne => absurd rfl hne⟩
      · exact ⟨hgood _ _ l pending (hfailed.2.symm ▸ hkept) (.inl rfl) hputs
          hfailed.failedApply.history, fun _ => hfailed.failedApply⟩
      · exact ⟨hgood _ _ l pending (hfailed.2.symm ▸ hcons) (.inl rfl) rfl
          hfailed.failedApply.history, fun _ => hfailed.failedApply⟩

end Writer

variable {config : ManifestConfig}

theorem WriterRun.good {x : Writer ι} (h : WriterRun true config x) : x.Good config := by
  induction h with
  | @opened vs w hroom hcreate =>
    have halone := create_alone (w := {}) blank_empty hroom fun _ => id
    obtain ⟨-, -, -, l, hl⟩ := halone.exec hcreate rfl
    exact ⟨⟨l, none, hl, nofun⟩, nofun⟩
  | @reopened x vs _ hrecover ih =>
    obtain ⟨⟨l, pending, hcons, -⟩, hacked⟩ := ih
    obtain ⟨hrun, hnew⟩ := hcons.reopened
    obtain rfl : _ = vs := (Prod.mk.inj (Prod.mk.inj (hrun.symm.trans hrecover)).1).2
    refine ⟨⟨_, none, hnew, nofun⟩, fun id hid => ?_⟩
    obtain ⟨r, hr, hid⟩ := hacked id hid
    refine ⟨r, ?_, hid⟩
    obtain ⟨vs', hrun', -, hhistory⟩ := hcons.recovers
    obtain rfl : _ = vs' := (Prod.mk.inj (Prod.mk.inj (hrun.symm.trans hrun')).1).2
    exact hhistory ▸ mem_append_left _ hr
  | @allocated x _ hcounter ih =>
    obtain ⟨⟨l, pending, hcons, hpending⟩, hacked⟩ := ih
    refine ⟨⟨l, pending, { hcons with fileNumber := ?_, counter := hcounter }, hpending⟩, hacked⟩
    exact hcons.fileNumber.trans (Nat.le_succ _)
  | did _ hfits hexec ih => exact ((ih.alone hfits).exec hexec).1

/-- A writer survives a failing catalog, where the read after an ambiguous compare-and-set answers.
-/
theorem writer_survives_failures {config : ManifestConfig} {x : Writer ι}
    (h : WriterRun true config x) :
    x.Tracked config none ∧ ∀ op : WriterOp ι, op.Fits config x.vs →
      (∀ w, (op.program config x.vs).Passes (ShakyCatalog.Reply true) x.world w →
        Writer.Tracked config { x with world := w } (op.record x.vs)) ∧
      (∀ result w, (op.program config x.vs).Exec (ShakyCatalog.Reply true) x.world result w →
        result.1 ≠ .ok → result.2.current = x.vs.current ∧ result.2.nextSeq = x.vs.nextSeq ∧
          result.2.pendingDeletions = x.vs.pendingDeletions) := by
  refine ⟨h.good.tracked, fun op hfits => ⟨fun w hw => ?_, fun result w hexec hne => ?_⟩⟩
  · exact ((h.good.alone hfits).passes hw).1
  · rcases (((h.good.alone hfits).exec hexec).2 hne).2 with hsame | hsame <;> rw [hsame] <;>
      exact ⟨rfl, rfl, rfl⟩

/-! ### Scripted failures -/

/-- A call is answered, or fails before or after its effect. -/
inductive Outcome
  | healthy
  | failsBefore
  | failsAfter

/-- A catalog with its next outcomes, then healthy. -/
structure Script (ι : Type) where
  world : ShakyCatalog ι
  outcomes : List Outcome

namespace Script

/-- What a failing catalog call reports. -/
def failure : (c : Call ι) → Option c.Result
  | .read => some (.error .io)
  | .compareAndSet .. => some (.error .io)
  | .putSnapshot .. => some Status.io
  | .getSnapshot _ => some (.error .io)
  | .putEdit .. => some Status.io
  | .getEdit .. => some (.error .io)
  | .listEdits _ => some (.error .io)
  | .listGenerations => some (.error .io)
  | .deleteGeneration _ => some Status.io
  | .draw => none
  | .clock => none
  | .lock _ => none
  | .deleteObjects _ => none

theorem failed_of_failure {c : Call ι} {r : c.Result} (h : failure c = some r) :
    Catalog.Failed c r := by
  cases c <;> first | exact (Option.some.inj h).symm | cases h

/-- A careful service does not fail right after a compare-and-set that moved the pointer and
reported a failure. -/
def answer (careful : Bool) (c : Call ι) (s : Script ι) : c.Result × Script ι :=
  let healthy := Catalog.answer c s.world.catalog
  match if careful = true ∧ s.world.unresolved = true then none else failure c, s.outcomes with
  | some r, .failsBefore :: rest =>
    (r, ⟨⟨s.world.catalog, false, ShakyCatalog.reported c r ++ s.world.failedPuts⟩, rest⟩)
  | some r, .failsAfter :: rest =>
    (r, ⟨⟨healthy.2, healthy.2.pointer ≠ s.world.catalog.pointer,
      ShakyCatalog.reported c r ++ s.world.failedPuts⟩, rest⟩)
  | some _, .healthy :: rest => (healthy.1, ⟨⟨healthy.2, false, s.world.failedPuts⟩, rest⟩)
  | _, rest => (healthy.1, ⟨⟨healthy.2, false, s.world.failedPuts⟩, rest⟩)

theorem reply_answer (careful : Bool) (c : Call ι) (s : Script ι) :
    ShakyCatalog.Reply careful c s.world (answer careful c s).1 (answer careful c s).2.world := by
  have hhealthy := ShakyCatalog.reply_of_healthy careful s.world.unresolved s.world.failedPuts
    (Catalog.reply_answer c s.world.catalog)
  have hfails : ∀ {r}, (if careful = true ∧ s.world.unresolved = true then none else failure c) =
      some r → ¬ (careful = true ∧ s.world.unresolved = true) ∧ Catalog.Failed c r := by
    intro r hr
    by_cases hsettled : careful = true ∧ s.world.unresolved = true
    · rw [if_pos hsettled] at hr
      cases hr
    · rw [if_neg hsettled] at hr
      exact ⟨hsettled, failed_of_failure hr⟩
  unfold answer
  split
  · next r rest hr houtcomes =>
    refine ⟨.inr ⟨(hfails hr).2, .inl rfl⟩, ⟨nofun, fun h => absurd rfl h.2⟩, rfl, ?_⟩
    exact fun hc hu => absurd ⟨hc, hu⟩ (hfails hr).1
  · next r rest hr houtcomes =>
    refine ⟨.inr ⟨(hfails hr).2, .inr ⟨_, Catalog.reply_answer c _⟩⟩, ?_, rfl, ?_⟩
    · simp [(hfails hr).2]
    · exact fun hc hu => absurd ⟨hc, hu⟩ (hfails hr).1
  · exact hhealthy
  · exact hhealthy

end Script

/-- After an operation on a scripted catalog. -/
def Writer.perform (careful : Bool) (config : ManifestConfig) (x : Writer ι) (op : WriterOp ι)
    (outcomes : List Outcome) : Writer ι :=
  let (result, script) := (op.program config x.vs).run (Script.answer careful) ⟨x.world, outcomes⟩
  x.after op result script.world

theorem WriterRun.perform {careful : Bool} {x : Writer ι} (h : WriterRun careful config x)
    (op : WriterOp ι) (hfits : op.Fits config x.vs) (outcomes : List Outcome) :
    WriterRun careful config (x.perform careful config op outcomes) :=
  .did h hfits (exec_of_run Script.world (Script.reply_answer careful) _ ⟨x.world, outcomes⟩)

/-- A manifest created on an empty catalog. -/
def Writer.created (careful : Bool) (config : ManifestConfig) : Writer ι :=
  let (result, script) := (create config {}).run (Script.answer careful) ⟨{}, []⟩
  { vs := result.2, world := script.world }

theorem WriterRun.created {careful : Bool}
    (hroom : VersionSet.SnapshotRoom config (({} : VersionSet ι).snapshotOf {}))
    (hok : ((create config ({} : VersionSet ι)).run (Script.answer careful)
      ⟨{}, []⟩).1.1 = .ok) :
    WriterRun careful config (Writer.created careful config : Writer ι) := by
  refine .opened hroom ?_
  have hexec := exec_of_run Script.world (Script.reply_answer careful)
    (create config ({} : VersionSet ι)) ⟨{}, []⟩
  rwa [← Prod.mk.eta (p := (run _ _ _).1), hok] at hexec

/-- An edit that adds a file of two keys. -/
def fileEdit (number : ℕ) : VersionEdit where
  added := [{ fileNumber := number, smallestKey := [1], largestKey := [3], numEntries := 2 }]

theorem applyFits_fileEdit {n number : ℕ} {vs : VersionSet ι} (hnumber : number < 2 ^ 64)
    (hfits : vs.nextFileNumber < 2 ^ 64 ∧
      (editContent (vs.stamped (fileEdit number))).length ≤ maxManifestBytes ∧
      (encodeVersionEdit (plainConfig n).codecs (vs.stamped (fileEdit number))).length ≤
        ManifestPayload.maxPayloadBytes)
    (hroom : (snapshotContent (vs.snapshotOf
        (vs.current.apply (vs.stamped (fileEdit number))))).length ≤ maxManifestBytes ∧
      (encodeVersionSnapshot (plainConfig n).codecs
        (vs.snapshotOf (vs.current.apply (vs.stamped (fileEdit number))))).length ≤
        ManifestPayload.maxPayloadBytes) : vs.ApplyFits (plainConfig n) (fileEdit number) where
  fits := by
    refine ⟨⟨hfits.1, fun f hf => ?_, nofun, nofun, nofun⟩, hfits.2.1, hfits.2.2, rfl⟩
    obtain rfl := mem_singleton.1 hf
    exact ⟨Nat.zero_le _, by simpa using hnumber, nofun, nofun⟩
  room _ := plainConfig_snapshotRoom hroom

/-- The roll in the first `apply` moves the pointer and reports a failure; the read after it
answers. -/
def resolvedWriter : Writer ℕ :=
  (Writer.created true (plainConfig 1)).perform true (plainConfig 1) (.apply 1 (fileEdit 1))
    [.healthy, .healthy, .failsAfter]

theorem writer_survives_ambiguous_install :
    WriterRun true (plainConfig 1) resolvedWriter ∧ resolvedWriter.acked = [1] ∧
      resolvedWriter.Tracked (plainConfig 1) none := by
  have hcreated : WriterRun true (plainConfig 1) (Writer.created true (plainConfig 1) : Writer ℕ) :=
    .created (plainConfig_snapshotRoom (by decide +kernel)) (by decide +kernel)
  have hrun : WriterRun true (plainConfig 1) resolvedWriter :=
    hcreated.perform (.apply 1 (fileEdit 1))
      (applyFits_fileEdit (by decide) (by decide +kernel) (by decide +kernel)) _
  exact ⟨hrun, by decide +kernel, (writer_survives_failures hrun).1⟩

/-- That read fails as well: the writer goes on in the old generation, and acknowledges an edit no
recovery finds. -/
def misledWriter : Writer ℕ :=
  ((Writer.created false (plainConfig 1)).perform false (plainConfig 1) (.apply 1 (fileEdit 1))
    [.healthy, .healthy, .failsAfter, .failsBefore]).perform false (plainConfig 1)
    (.apply 2 (fileEdit 2)) []

theorem failed_read_loses_edit : WriterRun false (plainConfig 1) misledWriter ∧
    misledWriter.acked = [1, 2] ∧ ¬ misledWriter.Tracked (plainConfig 1) none := by
  have hcreated : WriterRun false (plainConfig 1) (Writer.created false (plainConfig 1) : Writer ℕ) :=
    .created (plainConfig_snapshotRoom (by decide +kernel)) (by decide +kernel)
  have hfirst := hcreated.perform (.apply 1 (fileEdit 1))
    (applyFits_fileEdit (by decide) (by decide +kernel) (by decide +kernel))
    [.healthy, .healthy, .failsAfter, .failsBefore]
  have hrun : WriterRun false (plainConfig 1) misledWriter :=
    hfirst.perform (.apply 2 (fileEdit 2))
      (applyFits_fileEdit (by decide) (by decide +kernel) (by decide +kernel)) []
  have hacked : misledWriter.acked = [1, 2] := by decide +kernel
  have hids : ((recover (plainConfig 1) {}).run Catalog.answer
      misledWriter.world.catalog).1.2.history.map Record.id = [1] := by decide +kernel
  refine ⟨hrun, hacked, ?_⟩
  rintro ⟨vs, hrecover, -, hall⟩
  obtain ⟨r, hr, hid⟩ := hall 2 (by rw [hacked]; decide)
  rw [hrecover] at hids
  have hmem := mem_map_of_mem (f := Record.id) hr
  rw [hids, hid] at hmem
  exact absurd hmem (by decide)

/-! ### A healthy catalog -/

/-- Runs in which all returns `ok`, with the numbers allocated, and those allocated before the last
write to the catalog. -/
inductive HealthyRun (config : ManifestConfig) :
    VersionSet ι → Catalog ι → List ℕ → List ℕ → Prop
  | created {vs : VersionSet ι} {w : Catalog ι}
      (hroom : VersionSet.SnapshotRoom config (({} : VersionSet ι).snapshotOf {}))
      (hexec : (create config {}).Exec Catalog.Reply {} (.ok, vs) w) :
      HealthyRun config vs w [] []
  | allocated {vs : VersionSet ι} {w : Catalog ι} {allocated recorded : List ℕ}
      (h : HealthyRun config vs w allocated recorded)
      (hcounter : vs.nextFileNumber + 1 < 2 ^ 64) :
      HealthyRun config vs.allocateFileNumber.2 w (allocated ++ [vs.allocateFileNumber.1]) recorded
  | applied {vs vs' : VersionSet ι} {w w' : Catalog ι} {allocated recorded : List ℕ} {id : ι}
      {edit : VersionEdit} (h : HealthyRun config vs w allocated recorded)
      (hfits : vs.ApplyFits config edit)
      (hexec : (vs.apply config id edit).Exec Catalog.Reply w (.ok, vs') w') :
      HealthyRun config vs' w' allocated allocated
  | rolled {vs vs' : VersionSet ι} {w w' : Catalog ι} {allocated recorded : List ℕ}
      (h : HealthyRun config vs w allocated recorded)
      (hroom : vs.Rolls → VersionSet.SnapshotRoom config (vs.snapshotOf vs.current))
      (hexec : (vs.rollGenerationNow config).Exec Catalog.Reply w (.ok, vs') w') :
      HealthyRun config vs' w' allocated (if vs.Rolls then allocated else recorded)

theorem exec_shaky {α : Type} {p : Manifest ι α} {w w' : Catalog ι} {a : α}
    (h : p.Exec Catalog.Reply w a w') :
    p.Exec (ShakyCatalog.Reply true) ⟨w, false, []⟩ a ⟨w', false, []⟩ :=
  h.mono (fun w => (⟨w, false, []⟩ : ShakyCatalog ι)) fun _ _ _ _ hr =>
    ShakyCatalog.reply_of_healthy true false [] hr

theorem HealthyRun.consistent {vs : VersionSet ι} {w : Catalog ι} {allocated recorded : List ℕ}
    (h : HealthyRun config vs w allocated recorded) :
    (∀ n ∈ allocated, n < vs.nextFileNumber) ∧ ∃ l, VersionSet.Consistent config vs w l none ∧
      ∀ n ∈ recorded, n < (l.assembled config).fileNumber := by
  induction h with
  | created hroom hexec =>
    have halone := create_alone (w := {}) blank_empty hroom fun _ => id
    obtain ⟨-, -, -, l, hl⟩ := halone.exec (exec_shaky hexec) rfl
    exact ⟨nofun, l, hl, nofun⟩
  | @allocated vs w allocated recorded _ hcounter ih =>
    obtain ⟨hall, l, hl, hrec⟩ := ih
    refine ⟨fun n hn => ?_, l, { hl with fileNumber := ?_, counter := hcounter }, hrec⟩
    · show n < vs.nextFileNumber + 1
      rcases mem_append.1 hn with hn | hn
      · exact (hall n hn).trans (Nat.lt_succ_self _)
      · rw [mem_singleton.1 hn]
        exact Nat.lt_succ_self _
    · exact hl.fileNumber.trans (Nat.le_succ _)
  | @applied vs vs' w w' allocated recorded id edit _ hfits hexec ih =>
    obtain ⟨hall, l, hl, -⟩ := ih
    have halone : (vs.apply config id edit).Alone (ShakyCatalog.Reply true) (fun _ => True)
        (VersionSet.ApplyLeaves config vs ⟨w, false, []⟩ l none id edit) ⟨w, false, []⟩ :=
      apply_alone hl hfits fun _ _ _ _ _ _ => trivial
    obtain ⟨-, ⟨-, happlied⟩ | ⟨hfailed, -⟩⟩ := halone.exec (exec_shaky hexec)
    · obtain ⟨l', hl', hfile⟩ := happlied.consistent
      exact ⟨fun n hn => happlied.nextFileNumber.symm ▸ hall n hn, l', hl',
        fun n hn => hfile.symm ▸ hall n hn⟩
    · exact absurd rfl hfailed.1
  | @rolled vs vs' w w' allocated recorded _ hroom hexec ih =>
    obtain ⟨hall, l, hl, hrec⟩ := ih
    have halone : (vs.rollGenerationNow config).Alone (ShakyCatalog.Reply true) (fun _ => True)
        (VersionSet.RollNowLeaves config vs ⟨w, false, []⟩ l none) ⟨w, false, []⟩ :=
      rollGenerationNow_alone hl hroom fun _ _ _ _ _ _ => trivial
    rcases halone.exec (exec_shaky hexec) with ⟨hsame, hw, hrolls⟩ |
      ⟨hrolls, -, -, ⟨entry, hresult, hrolled⟩ | ⟨hfailed, -⟩⟩ | ⟨hfailed, -⟩
    · obtain ⟨-, rfl⟩ := Prod.mk.inj hsame
      obtain rfl : w' = w := congrArg ShakyCatalog.catalog hw
      rw [if_neg hrolls]
      exact ⟨hall, l, hl, hrec⟩
    · obtain ⟨-, rfl⟩ := Prod.mk.inj hresult
      rw [if_pos hrolls]
      exact ⟨hall, _, hrolled, hall⟩
    · exact absurd rfl hfailed.1
    · exact absurd rfl hfailed.1

/-- Replaying the manifest reproduces the writer's memory. -/
theorem recover_reproduces_writer {config : ManifestConfig} {vs : VersionSet ι} {w : Catalog ι}
    {allocated recorded : List ℕ} (h : HealthyRun config vs w allocated recorded) :
    ∃ vs', (recover config {}).run Catalog.answer w = ((.ok, vs'), w) ∧
      vs'.current.Same vs.current ∧ vs'.generation = vs.generation ∧ vs'.nextSeq = vs.nextSeq ∧
      ∀ n ∈ recorded, n < vs'.nextFileNumber := by
  obtain ⟨-, l, hl, hrec⟩ := h.consistent
  obtain ⟨hrun, hnew⟩ := hl.reopened
  rw [Option.toList_none, l.append_nil] at hrun hnew
  refine ⟨_, hrun, hl.current.symm, ?_, hnew.nextSeq.trans hl.nextSeq.symm, hrec⟩
  unfold generation
  rw [hl.entry]
  rfl

/-- A new manifest, and a number allocated. -/
def allocatedObject : VersionSet ℕ × Catalog ℕ :=
  let (made, w) := (create (plainConfig 1) {}).run Catalog.answer {}
  (made.2.allocateFileNumber.2, w)

theorem allocatedObject_healthyRun :
    HealthyRun (plainConfig 1) allocatedObject.1 allocatedObject.2 [1] [] := by
  have hexec := exec_of_run id Catalog.reply_answer (create (plainConfig 1) ({} : VersionSet ℕ)) {}
  have hok : ((create (plainConfig 1) ({} : VersionSet ℕ)).run Catalog.answer {}).1.1 =
      .ok := by decide +kernel
  rw [← Prod.mk.eta (p := (run _ _ _).1), hok] at hexec
  have hcreated := HealthyRun.created (plainConfig_snapshotRoom (by decide +kernel)) hexec
  exact hcreated.allocated (by decide +kernel)

/-- An edit rolls the generation, and the recovered counter is past the number. -/
theorem recover_reproduces_rolled_writer :
    ∃ (vs : VersionSet ℕ) (w : Catalog ℕ), HealthyRun (plainConfig 1) vs w [1] [1] ∧
      vs.generation = 2 ∧
      ∃ vs', (recover (plainConfig 1) {}).run Catalog.answer w = ((.ok, vs'), w) ∧
        vs'.current.Same vs.current ∧ vs'.generation = vs.generation ∧ vs'.nextSeq = vs.nextSeq ∧
        ∀ n ∈ [1], n < vs'.nextFileNumber := by
  have hexec := exec_of_run id Catalog.reply_answer
    (allocatedObject.1.apply (plainConfig 1) 1 (fileEdit 1)) allocatedObject.2
  have hok : ((allocatedObject.1.apply (plainConfig 1) 1 (fileEdit 1)).run Catalog.answer
      allocatedObject.2).1.1 = .ok := by decide +kernel
  rw [← Prod.mk.eta (p := (run _ _ _).1), hok] at hexec
  have hrun := allocatedObject_healthyRun.applied
    (applyFits_fileEdit (by decide) (by decide +kernel) (by decide +kernel)) hexec
  exact ⟨_, _, hrun, by decide +kernel, recover_reproduces_writer hrun⟩

/-- A roll without edits writes nothing, so a number allocated before it is allocated again. -/
theorem idle_roll_keeps_counter :
    ∃ (vs : VersionSet ℕ) (w : Catalog ℕ), HealthyRun (plainConfig 1) vs w [1] [] ∧
      (vs.rollGenerationNow (plainConfig 1)).Exec Catalog.Reply w (.ok, vs) w ∧
      ∀ vs', (recover (plainConfig 1) {}).run Catalog.answer w = ((.ok, vs'), w) →
        vs'.nextFileNumber = 1 := by
  refine ⟨allocatedObject.1, allocatedObject.2, allocatedObject_healthyRun, ?_, fun vs' hrun => ?_⟩
  · have hidle : allocatedObject.1.rollGenerationNow (plainConfig 1) =
        pure (.ok, allocatedObject.1) := rfl
    rw [hidle]
    exact ⟨rfl, rfl⟩
  · have hnumber : ((recover (plainConfig 1) {}).run Catalog.answer
        allocatedObject.2).1.2.nextFileNumber = 1 := by decide +kernel
    rwa [hrun] at hnumber

end ElysiumKV
