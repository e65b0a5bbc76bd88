import ElysiumKV.WriterRuns

/-!
# A reader among the writer's steps

A recovery that finds the pointer at one generation before and after has read the state in which it
listed the edits (`recoverLoop_among`).
-/

namespace ElysiumKV

open Program Program.Prog VersionSet List

variable {ι : Type}

/-! ### The writer's steps -/

variable {config : ManifestConfig}

theorem WriterRun.published {x : Writer ι} (h : WriterRun true config x) :
    Published config x.world.catalog := by
  obtain ⟨⟨l, pending, hcons, -⟩, -⟩ := h.good
  exact hcons.stored.published

theorem WriterRun.steps {x : Writer ι} (h : WriterRun true config x) {op : WriterOp ι}
    (hfits : op.Fits config x.vs) {w : ShakyCatalog ι}
    (hpasses : (op.program config x.vs).Passes (ShakyCatalog.Reply true) x.world w) :
    WriterSteps config x.world.catalog w.catalog := ((h.good.alone hfits).passes hpasses).2

/-- Reads of the catalog. -/
def Call.IsRead : Call ι → Prop
  | .read | .getSnapshot _ | .getEdit .. | .listEdits _ => True
  | _ => False

theorem eq_of_isRead {c : Call ι} {w w' : Catalog ι} {r : c.Result} (hread : c.IsRead)
    (h : Catalog.Faulty c w r w') : w' = w := by
  cases c with
  | read => exact (Catalog.faulty_read h).1
  | getSnapshot g => exact (Catalog.faulty_getSnapshot h).1
  | getEdit g seq => exact (Catalog.faulty_getEdit h).1
  | listEdits g => exact (Catalog.faulty_listEdits h).1
  | _ => exact hread.elim

section Moved

variable {config : ManifestConfig} {α : Type} {Q : α → Prop} {p : Manifest ι α} {w w' : Catalog ι}
  {a : α} {seen : List (Catalog ι)}

theorem steps_of_isRead {c : Call ι} {r : c.Result} (hread : c.IsRead)
    (h : Catalog.Faulty c w r w') : WriterSteps config w w' := by
  rw [eq_of_isRead hread h]

theorem steps_of_among (honly : p.Only Call.IsRead Q)
    (h : p.Among Catalog.Faulty (WriterSteps config) w a seen w') : WriterSteps config w w' :=
  h.moved honly (fun _ _ _ => .trans) (fun _ _ => id) fun _ _ _ _ => steps_of_isRead

theorem steps_between (honly : p.Only Call.IsRead Q)
    (h : p.Among Catalog.Faulty (WriterSteps config) w a seen w') {now : Catalog ι}
    (hnow : now ∈ seen) : WriterSteps config w now ∧ WriterSteps config now w' :=
  h.between hnow honly (fun _ _ _ => .trans) (fun _ _ => id) fun _ _ _ _ => steps_of_isRead

end Moved

/-- Not a refusal with the status of success. -/
def ReplayEnd.Sound : ReplayEnd ι → Prop
  | .refused status _ => status ≠ .ok
  | _ => True

theorem readEdit_refused {generation seq : ℕ} {tail : Bool} {bytes : Bytes} {status : Status}
    {why : String} (h : readEdit config generation seq tail bytes = .refused status why) :
    status ≠ .ok := by
  unfold readEdit at h
  split at h
  · split_ifs at h with hstatus
    · obtain ⟨rfl, -⟩ := EditReading.refused.inj h
      rcases hstatus with hstatus | hstatus <;> simp [hstatus]
    · obtain ⟨rfl, -⟩ := EditReading.refused.inj h
      decide
  · split at h
    · split_ifs at h <;> obtain ⟨rfl, -⟩ := EditReading.refused.inj h <;> decide
    · split_ifs at h
      obtain ⟨rfl, -⟩ := EditReading.refused.inj h
      decide

theorem replayEdits_only (config : ManifestConfig) (generation : ℕ) (last : Option ℕ)
    (seqs : List ℕ) (a : Assembled ι) :
    (replayEdits config generation last seqs a).Only Call.IsRead ReplayEnd.Sound := by
  induction seqs generalizing a with
  | nil => trivial
  | cons seq seqs ih =>
    unfold replayEdits
    by_cases hseq : seq ≠ a.expectedSeq
    · rw [if_pos hseq]
      trivial
    · rw [if_neg hseq]
      refine ⟨trivial, fun object => ?_⟩
      obtain status | object := object
      · by_cases hlast : last = some seq
        · cases status <;> simp only [hlast, if_true] <;> trivial
        · cases status <;> simp only [hlast, if_false] <;> trivial
      · simp only [Prog.bind]
        cases hread : readEdit config generation seq (decide (last = some seq)) object.bytes with
        | torn => trivial
        | refused status why => exact readEdit_refused hread
        | read edit provider => exact ih _

theorem recoverAttempt_only (config : ManifestConfig) (vs : VersionSet ι) :
    (recoverAttempt config vs).Only Call.IsRead fun _ => True := by
  have hagain : ∀ (again : Prop) [Decidable again] (result : AttemptEnd ι),
      Only Call.IsRead (fun _ => True)
        (if again then pure .again else pure result : Manifest ι (AttemptEnd ι)) := by
    intro again _ result
    split_ifs <;> trivial
  unfold recoverAttempt
  refine ⟨trivial, fun pointer => ?_⟩
  obtain status | - | entry := pointer
  · trivial
  · trivial
  refine ⟨trivial, fun object => ?_⟩
  obtain status | object := object
  · cases status
    case notFound =>
      refine ⟨trivial, fun moved => ?_⟩
      obtain status | moved := moved
      · trivial
      · exact hagain _ _
    all_goals trivial
  · simp only [Prog.bind]
    obtain ⟨status, why⟩ | ⟨snapshot, provider⟩ :=
      readSnapshot config entry.generation object.bytes
    · trivial
    refine ⟨trivial, fun seqs => ?_⟩
    obtain status | seqs := seqs
    · trivial
    show Only _ _ (replayEdits _ _ _ _ _ >>= _)
    refine Only.bind (replayEdits_only ..) fun replayed _ => ?_
    obtain a | - | seq | ⟨status, why⟩ := replayed
    · refine ⟨trivial, fun after => ?_⟩
      obtain status | - | after := after
      · trivial
      · trivial
      · show Only _ _ (if _ then _ else if _ then _ else _)
        split_ifs <;> trivial
    · refine ⟨trivial, fun moved => ?_⟩
      obtain status | moved := moved
      · trivial
      · exact hagain _ _
    · refine ⟨trivial, fun moved => ?_⟩
      obtain status | moved := moved
      · trivial
      · exact hagain _ _
    · trivial

theorem recoverLoop_only (config : ManifestConfig) (vs : VersionSet ι) (attempts : ℕ) :
    (recoverLoop config vs attempts).Only Call.IsRead fun _ => True := by
  induction attempts with
  | zero => trivial
  | succ attempts ih =>
    refine Only.bind (recoverAttempt_only config vs) fun ended _ => ?_
    cases ended with
    | returned result => trivial
    | again => exact ih
    | usesFailed => trivial

theorem replayEdits_among {entry entry' : CatalogEntry} (last : Option ℕ)
    {records : List (Record ι)} {a : Assembled ι} {w w' : Catalog ι} {seen : List (Catalog ι)}
    {result : ReplayEnd ι}
    (h : (replayEdits config entry.generation last (List.range' a.expectedSeq records.length)
      a).Among Catalog.Faulty (WriterSteps config) w result seen w')
    (hpointer : w.pointer = some entry) (hpointer' : w'.pointer = some entry')
    (hstays : entry'.generation = entry.generation)
    (hserves : ∀ i r, records[i]? = some r → ∃ object provider,
      w.edit entry.generation (a.expectedSeq + i) = some object ∧ object.label = r.id ∧
        ∀ tail, readEdit config entry.generation (a.expectedSeq + i) tail object.bytes =
          .read r.edit provider) :
    result = .unreadable ∨ ∃ a', result = .assembled a' ∧
      a'.version = records.foldl (fun v r => v.apply r.edit) a.version ∧
      a'.expectedSeq = a.expectedSeq + records.length ∧ a'.history = a.history ++ records := by
  induction records generalizing a w seen with
  | nil =>
    obtain ⟨rfl, -, -⟩ := h
    exact .inr ⟨a, rfl, rfl, rfl, (append_nil _).symm⟩
  | cons r records ih =>
    have honly := replayEdits_only config entry.generation last
      (List.range' a.expectedSeq (r :: records).length) a
    rw [length_cons, List.range'_succ, replayEdits, if_neg (not_not.2 rfl)] at h honly
    obtain ⟨w₁, reply, w₂, rest, hsteps, hreply, rfl, hrest⟩ := h
    obtain ⟨rfl, hreply⟩ := Catalog.faulty_getEdit hreply
    -- the pointer is at the generation before and after, hence also at this call
    have hafter : WriterSteps config w₂ w' :=
      steps_of_among (honly.2 reply) hrest
    have hpointer₂ := hsteps.advances.between hafter.advances hpointer hpointer' hstays
    obtain ⟨-, -, hkept⟩ := hsteps.advances.grown entry entry hpointer hpointer₂ rfl
    obtain ⟨object, provider, hobject, hlabel, hread⟩ := hserves 0 r rfl
    rw [Nat.add_zero] at hobject hread
    rcases hreply with rfl | ⟨hnone, -⟩ | ⟨object', hobject', rfl⟩
    · exact .inl (among_pure.1 hrest).1
    · rw [hkept _ _ hobject] at hnone
      cases hnone
    obtain rfl := Option.some.inj ((hkept _ _ hobject).symm.trans hobject')
    simp only [Prog.bind, hread] at hrest
    obtain hend | ⟨a', rfl, hversion, hseq, hhistory⟩ :=
      ih (a := a.replay config object.label r.edit provider) hrest hpointer₂ fun i r' hi => by
        obtain ⟨o, p, ho, hreads⟩ := hserves (i + 1) r' hi
        rw [show a.expectedSeq + (i + 1) = a.expectedSeq + 1 + i by omega] at ho hreads
        exact ⟨o, p, hkept _ _ ho, hreads⟩
    · exact .inl hend
    · refine .inr ⟨a', rfl, hversion, ?_, ?_⟩
      · rw [hseq, length_cons]
        show a.expectedSeq + 1 + _ = _
        omega
      · rw [hhistory, hlabel]
        exact append_assoc ..

section Recovery

variable {config : ManifestConfig} {vs vs' : VersionSet ι} {w w' : Catalog ι}
  {seen : List (Catalog ι)} {status : Status}

variable {m : Manifested ι}

theorem Legible.sorted_keys {generation : ℕ} {contents : Generation ι}
    (h : Legible config generation contents m) :
    contents.edits.keys.insertionSort (· ≤ ·) = List.range' 1 m.records.length := by
  refine insertionSort_eq_range' contents.edits.keys_nodup fun seq => ?_
  have hmem : seq ∈ contents.edits.keys ↔ (contents.edits.lookup seq).isSome :=
    AList.lookup_isSome.symm
  rw [hmem]
  refine ⟨fun hseq => h.only seq hseq, fun ⟨hone, hle⟩ => ?_⟩
  obtain ⟨r, hr⟩ : ∃ r, m.records[seq - 1]? = some r := ⟨_, List.getElem?_eq_getElem (by omega)⟩
  obtain ⟨object, provider, hobject, -⟩ := h.edits _ _ hr
  rw [Nat.sub_add_cancel hone] at hobject
  rw [hobject]
  rfl

/-- The object holds the manifest of a world. -/
def ViewOf (config : ManifestConfig) (vs : VersionSet ι) (now : Catalog ι) (entry : CatalogEntry)
    (m : Manifested ι) : Prop :=
  ManifestState config now entry m ∧ vs.entry = some entry ∧ vs.current = m.version ∧
    vs.nextSeq = m.records.length + 1 ∧ vs.history = m.base ++ m.records

/-- The object holds the same view. -/
def SameView (vs vs' : VersionSet ι) : Prop :=
  vs'.current = vs.current ∧ vs'.entry = vs.entry ∧ vs'.nextSeq = vs.nextSeq ∧
    vs'.history = vs.history

theorem sameView_noteError (vs : VersionSet ι) (why : String) : SameView vs (vs.noteError why) := by
  unfold noteError
  split_ifs
  · exact ⟨rfl, rfl, rfl, rfl⟩
  · exact ⟨rfl, rfl, rfl, rfl⟩

/-- The view of a world it made a call in, or a failure that left the object alone. -/
def RecoveryOutcome (config : ManifestConfig) (vs : VersionSet ι) (seen : List (Catalog ι))
    (result : Status × VersionSet ι) : Prop :=
  result.1 = .ok ∧ (∃ now ∈ seen, ∃ entry m, ViewOf config result.2 now entry m) ∨
    result.1 ≠ .ok ∧ SameView vs result.2

variable {seen' : List (Catalog ι)} {result : Status × VersionSet ι}

theorem RecoveryOutcome.mono (h : RecoveryOutcome config vs seen result) (hsub : seen ⊆ seen') :
    RecoveryOutcome config vs seen' result :=
  h.imp_left fun ⟨hok, now, hnow, hview⟩ => ⟨hok, now, hsub hnow, hview⟩

theorem among_read {α : Type} {f : Except Status (Option CatalogEntry) → Manifest ι α} {a : α}
    (h : (Manifest.read >>= f).Among Catalog.Faulty (WriterSteps config) w a seen w') :
    ∃ w₁ rest, WriterSteps config w w₁ ∧ seen = w₁ :: rest ∧
      ((f (.ok w₁.pointer)).Among Catalog.Faulty (WriterSteps config) w₁ a rest w' ∨
        (f (.error .io)).Among Catalog.Faulty (WriterSteps config) w₁ a rest w') := by
  obtain ⟨w₁, r, w₂, rest, hsteps, hreply, rfl, hrest⟩ := among_ask_bind.1 h
  obtain ⟨rfl, rfl | rfl⟩ := Catalog.faulty_read hreply
  · exact ⟨w₂, rest, hsteps, rfl, .inl hrest⟩
  · exact ⟨w₂, rest, hsteps, rfl, .inr hrest⟩

/-- An outcome, or nothing decided. -/
def AttemptOutcome (config : ManifestConfig) (vs : VersionSet ι) (seen : List (Catalog ι)) :
    AttemptEnd ι → Prop
  | .returned result => RecoveryOutcome config vs seen result
  | .again | .usesFailed => True

variable {ended : AttemptEnd ι}

theorem outcome_pure (s : Status) {vs₁ : VersionSet ι}
    (h : (pure (.returned (s, vs₁)) : Manifest ι _).Among Catalog.Faulty (WriterSteps config) w ended
      seen w') (hs : s ≠ .ok) (hvs : SameView vs vs₁) : AttemptOutcome config vs seen' ended := by
  obtain ⟨rfl, -, -⟩ := among_pure.1 h
  exact .inr ⟨hs, hvs⟩

theorem outcome_reread {generation : ℕ} (s : Status) {vs₁ : VersionSet ι}
    {f : Except Status (Option CatalogEntry) → Manifest ι (AttemptEnd ι)}
    (h : (Manifest.read >>= f).Among Catalog.Faulty (WriterSteps config) w ended seen w')
    (herror : f (.error .io) = pure (.returned (.io, vs)) ∨ f (.error .io) = pure .usesFailed)
    (hok : ∀ moved, f (.ok moved) = if movedFrom generation moved then pure .again
      else pure (.returned (s, vs₁))) (hs : s ≠ .ok) (hvs : SameView vs vs₁) :
    AttemptOutcome config vs seen' ended := by
  obtain ⟨w₁, rest, hsteps, rfl, hrest | hrest⟩ := among_read h
  · rw [hok] at hrest
    split_ifs at hrest
    · obtain ⟨rfl, -, -⟩ := among_pure.1 hrest
      trivial
    · exact outcome_pure s hrest hs hvs
  · rcases herror with herror | herror
    · rw [herror] at hrest
      exact outcome_pure .io hrest (by decide) ⟨rfl, rfl, rfl, rfl⟩
    · rw [herror] at hrest
      obtain ⟨rfl, -, -⟩ := among_pure.1 hrest
      trivial

variable {entry : CatalogEntry}

/-- A replay of a generation still pointed at assembles what it held when listed. -/
theorem viewOf_recovered {w₃ w₄ : Catalog ι} {after : CatalogEntry}
    {object : Object (List (Record ι))} {snapshot : VersionSnapshot} {provider : Bytes}
    {a : Assembled ι} (hstate : ManifestState config w₃ entry m)
    (hobject : w₃.snapshot entry.generation = some object)
    (hread : readSnapshot config entry.generation object.bytes = .ok (snapshot, provider))
    (hreplay : (replayEdits config entry.generation
      ((w₃.generation entry.generation).edits.keys.insertionSort (· ≤ ·)).getLast?
      ((w₃.generation entry.generation).edits.keys.insertionSort (· ≤ ·))
      (assembledSnapshot config snapshot provider object.label)).Among Catalog.Faulty
        (WriterSteps config) w₃ (.assembled a) seen w₄) (hpointer : w₄.pointer = some after)
    (hstays : after.generation = entry.generation) :
    ViewOf config (vs.recovered entry a) w₃ entry m := by
  obtain ⟨hp, ⟨object', provider', hobject', hlabel, hread'⟩, hedits, -⟩ := id hstate
  obtain rfl : object' = object := Option.some.inj (hobject'.symm.trans hobject)
  obtain ⟨rfl, -⟩ := Prod.mk.inj (Except.ok.inj (hread'.symm.trans hread))
  rw [hstate.2.sorted_keys] at hreplay
  have hserves : ∀ i r, m.records[i]? = some r → ∃ o p, w₃.edit entry.generation (1 + i) = some o ∧
      o.label = r.id ∧ ∀ tail, readEdit config entry.generation (1 + i) tail o.bytes =
        .read r.edit p := by
    intro i r hi
    rw [Nat.add_comm 1 i]
    exact hedits i r hi
  obtain hend | ⟨a', ha', hversion, hseq, hhistory⟩ :=
    replayEdits_among (a := assembledSnapshot config m.snapshot provider object'.label) _ hreplay hp
      hpointer hstays hserves
  · cases hend
  · obtain rfl := ReplayEnd.assembled.inj ha'
    refine ⟨hstate, rfl, hversion, hseq.trans (Nat.add_comm _ _), ?_⟩
    rw [← hlabel]
    exact hhistory

theorem recoverAttempt_among (hw : Published config w)
    (h : (recoverAttempt config vs).Among Catalog.Faulty (WriterSteps config) w ended seen w') :
    AttemptOutcome config vs seen ended := by
  have hsame : SameView vs vs := ⟨rfl, rfl, rfl, rfl⟩
  unfold recoverAttempt at h
  obtain ⟨w₁, seen₁, hsteps₁, rfl, h | h⟩ := among_read h
  swap
  · exact outcome_pure .io h (by decide) hsame
  have hw₁ := hsteps₁.published hw
  cases hpointer₁ : w₁.pointer with
  | none =>
    rw [hpointer₁] at h
    exact outcome_pure .notFound h (by decide) hsame
  | some entry =>
    rw [hpointer₁] at h
    obtain ⟨w₂, reply, w₂', seen₂, hsteps₂, hreply, rfl, h⟩ := h
    obtain ⟨rfl, hreply⟩ := Catalog.faulty_getSnapshot hreply
    have hw₂ := hsteps₂.published hw₁
    rcases hreply with rfl | ⟨-, rfl⟩ | ⟨object, hobject, rfl⟩
    · exact outcome_pure .io h (by decide) hsame
    · exact outcome_reread .corrupt h (.inl rfl) (fun _ => rfl) (by decide) hsame
    -- the snapshot read is the one the pointer named, for it is never replaced
    obtain ⟨m₁, -, ⟨object₁, provider, hobject₁, hlabel, hread⟩, -⟩ := hw₁ entry hpointer₁
    obtain rfl : object₁ = object := by
      rcases hsteps₂.advances.kept entry entry.generation hpointer₁ le_rfl with hkept | hkept
      · exact Option.some.inj (hobject₁.symm.trans (hkept.symm.trans hobject))
      · cases hkept.symm.trans hobject
    simp only [Prog.bind, hread] at h
    obtain ⟨w₃, reply, w₃', seen₃, hsteps₃, hreply, rfl, h⟩ := h
    obtain ⟨rfl, hreply⟩ := Catalog.faulty_listEdits hreply
    rcases hreply with rfl | rfl
    · exact outcome_pure .io h (by decide) hsame
    change Among _ _ (replayEdits _ _ _ _ _ >>= _) _ _ _ _ at h
    obtain ⟨replayed, w₄, first, seen₄, hreplay, rfl, h⟩ :=
      among_bind (fun _ => Relation.ReflTransGen.refl) h
    have honly := replayEdits_only config entry.generation
      ((w₃'.generation entry.generation).edits.keys.insertionSort (· ≤ ·)).getLast?
      ((w₃'.generation entry.generation).edits.keys.insertionSort (· ≤ ·))
      (assembledSnapshot config m₁.snapshot provider object₁.label)
    have hsteps₄ : WriterSteps config w₃' w₄ := steps_of_among honly hreplay
    have hw₃ := hsteps₃.published hw₂
    cases replayed with
    | refused status why =>
      exact outcome_pure status h (hreplay.result honly) (sameView_noteError vs why)
    | unreadable => exact outcome_reread .io h (.inr rfl) (fun _ => rfl) (by decide) hsame
    | missing seq =>
      exact outcome_reread .corrupt h (.inl rfl) (fun _ => rfl) (by decide) ⟨rfl, rfl, rfl, rfl⟩
    | assembled a =>
      obtain ⟨w₅, seen₅, hsteps₅, rfl, h | h⟩ := among_read h
      swap
      · exact outcome_pure .io h (by decide) hsame
      cases hpointer₅ : w₅.pointer with
      | none =>
        rw [hpointer₅] at h
        exact outcome_pure .notFound h (by decide) hsame
      | some after =>
        rw [hpointer₅] at h
        change Among _ _ (if after.generation ≠ entry.generation then _ else
          if vs.behind entry.generation a.expectedSeq then _ else _) _ _ _ _ at h
        split_ifs at h with hmoved hbehind
        · obtain ⟨rfl, -, -⟩ := among_pure.1 h
          trivial
        · exact outcome_pure .corrupt h (by decide) hsame
        -- the pointer was at the generation all along
        · obtain ⟨rfl, -, -⟩ := among_pure.1 h
          have hstays := not_not.1 hmoved
          have hto₃ := hsteps₂.advances.trans hsteps₃.advances
          have hpointer₄ := (hto₃.trans hsteps₄.advances).between hsteps₅.advances hpointer₁
            hpointer₅ hstays
          have hpointer₃ := hto₃.between hsteps₄.advances hpointer₁ hpointer₄ rfl
          obtain ⟨m, hm⟩ := hw₃ entry hpointer₃
          obtain ⟨-, hsnapshot, -⟩ := hto₃.grown entry entry hpointer₁ hpointer₃ rfl
          refine .inl ⟨rfl, w₃', by simp, entry, m, ?_⟩
          exact viewOf_recovered hm (hsnapshot.trans hobject₁) hread hreplay hpointer₄ rfl

theorem recoverLoop_among {attempts : ℕ} (hw : Published config w)
    (h : (recoverLoop config vs attempts).Among Catalog.Faulty (WriterSteps config) w result seen
      w') : RecoveryOutcome config vs seen result := by
  induction attempts generalizing w seen with
  | zero =>
    obtain ⟨rfl, -, -⟩ := among_pure.1 h
    exact .inr ⟨nofun, rfl, rfl, rfl, rfl⟩
  | succ attempts ih =>
    obtain ⟨ended, w₁, first, rest, hattempt, rfl, h⟩ :=
      among_bind (fun _ => Relation.ReflTransGen.refl) h
    have houtcome := recoverAttempt_among hw hattempt
    cases ended with
    | returned result =>
      obtain ⟨rfl, -, -⟩ := among_pure.1 h
      exact houtcome.mono (subset_append_left _ _)
    | again =>
      have hsteps := steps_of_among (recoverAttempt_only config vs) hattempt
      exact (ih (hsteps.published hw) h).mono (subset_append_right _ _)
    | usesFailed =>
      obtain ⟨rfl, -, -⟩ := among_pure.1 h
      exact .inr ⟨nofun, rfl, rfl, rfl, rfl⟩

/-! ### A reader's run -/

theorem ManifestState.extends {entry' : CatalogEntry} {m' : Manifested ι}
    (h : ManifestState config w entry m) (h' : ManifestState config w' entry' m')
    (hadvances : Advances w w') (hstays : entry'.generation = entry.generation) :
    entry' = entry ∧ m'.base = m.base ∧ m'.snapshot = m.snapshot ∧ m.records <+: m'.records := by
  obtain ⟨rfl, hsnapshot, hkept⟩ := hadvances.grown entry entry' h.1 h'.1 hstays
  obtain ⟨object, provider, hobject, hlabel, hread⟩ := h.2.snapshot
  obtain ⟨object', provider', hobject', hlabel', hread'⟩ := h'.2.snapshot
  obtain rfl := Option.some.inj (hobject'.symm.trans (hsnapshot.trans hobject))
  obtain ⟨hm, -⟩ := Prod.mk.inj (Except.ok.inj (hread'.symm.trans hread))
  refine ⟨rfl, hlabel'.symm.trans hlabel, hm, prefix_iff_getElem?.2 fun i hi => ?_⟩
  obtain ⟨o, p, ho, hid, hedit⟩ := h.2.edits i _ (List.getElem?_eq_getElem hi)
  have ho' : (w'.generation entry'.generation).edits.lookup (i + 1) = some o := hkept _ _ ho
  have hlt : i < m'.records.length := (h'.2.only (i + 1) (by rw [ho']; rfl)).2
  obtain ⟨o', p', ho'', hid', hedit'⟩ := h'.2.edits i _ (List.getElem?_eq_getElem hlt)
  obtain rfl := Option.some.inj (ho'.symm.trans ho'')
  obtain ⟨hsame, -⟩ := EditReading.read.inj ((hedit' true).symm.trans (hedit true))
  rw [List.getElem?_eq_getElem hlt, Option.some.injEq]
  exact congrArg₂ Record.mk (hid'.symm.trans hid) hsame

/-- Of a later generation, or the same with further edits. -/
def AsNew (old new : VersionSet ι) : Prop :=
  ∃ entry entry', old.entry = some entry ∧ new.entry = some entry' ∧
    (entry.generation < entry'.generation ∨ entry' = entry ∧ ∃ records,
      new.nextSeq = old.nextSeq + records.length ∧ new.history = old.history ++ records ∧
        new.current = records.foldl (fun v r => v.apply r.edit) old.current)

theorem ViewOf.asNew {entry' : CatalogEntry} {m' : Manifested ι} {old new : VersionSet ι}
    (h : ViewOf config old w entry m) (h' : ViewOf config new w' entry' m')
    (hadvances : Advances w w') : AsNew old new := by
  obtain ⟨hstate, hentry, hcurrent, hseq, hhistory⟩ := h
  obtain ⟨hstate', hentry', hcurrent', hseq', hhistory'⟩ := h'
  refine ⟨entry, entry', hentry, hentry', ?_⟩
  obtain ⟨e, he, hle⟩ := hadvances.forward entry hstate.1
  obtain rfl := Option.some.inj (he.symm.trans hstate'.1)
  rcases hle.lt_or_eq with hlt | heq
  · exact .inl hlt
  · obtain ⟨rfl, hbase, hsnapshot, records, hrecords⟩ := hstate.extends hstate' hadvances heq.symm
    refine .inr ⟨rfl, records, ?_, ?_, ?_⟩
    · rw [hseq, hseq', ← hrecords, length_append]
      omega
    · rw [hhistory, hhistory', hbase, ← hrecords, append_assoc]
    · rw [hcurrent, hcurrent', Manifested.version, Manifested.version, hsnapshot, ← hrecords,
        foldl_append]

/-- `refresh`. -/
def refresh (config : ManifestConfig) (unusable readOnly : Bool) (vs : VersionSet ι) :
    Manifest ι (Status × VersionSet ι) :=
  if unusable then pure (.unusable, vs)
  -- a writer's version is the newest already
  else if !readOnly then pure (.ok, vs)
  else recover config vs

/-- A reader begins with nothing and refreshes while a writer goes on, and may be found unusable;
`views` are those it took. -/
inductive ReaderRun (config : ManifestConfig) :
    List (VersionSet ι) → Catalog ι → VersionSet ι → Prop
  | opened {w : Catalog ι} {vs : VersionSet ι} (hw : Published config w) (hvs : vs.entry = none) :
      ReaderRun config [] w vs
  | refreshed {views : List (VersionSet ι)} {w w' : Catalog ι} {vs vs' : VersionSet ι}
      {status : Status} {seen : List (Catalog ι)} (unusable : Bool)
      (hrun : ReaderRun config views w vs)
      (h : (refresh config unusable true vs).Among Catalog.Faulty (WriterSteps config) w
        (status, vs') seen w') :
      ReaderRun config (if status = .ok then vs' :: views else views) w' vs'

theorem refresh_only (config : ManifestConfig) (unusable : Bool) (vs : VersionSet ι) :
    (refresh config unusable true vs).Only Call.IsRead fun _ => True := by
  cases unusable
  · exact recoverLoop_only config vs recoverAttempts
  · trivial

theorem refresh_among (unusable : Bool) (hw : Published config w)
    (h : (refresh config unusable true vs).Among Catalog.Faulty (WriterSteps config) w result seen
      w') : RecoveryOutcome config vs seen result := by
  cases unusable
  · exact recoverLoop_among hw h
  · obtain ⟨rfl, -, -⟩ := among_pure.1 h
    exact .inr ⟨nofun, rfl, rfl, rfl, rfl⟩

theorem ReaderRun.views {views : List (VersionSet ι)} (h : ReaderRun config views w vs) :
    Published config w ∧ ∀ old ∈ views, ∃ before entry m, ViewOf config old before entry m ∧
      Advances before w := by
  induction h with
  | opened hw hvs => exact ⟨hw, nofun⟩
  | @refreshed views w w' vs vs' status seen unusable hrun h ih =>
    obtain ⟨hw, hviews⟩ := ih
    have honly := refresh_only config unusable vs
    have hsteps : WriterSteps config w w' := steps_of_among honly h
    have hold : ∀ old ∈ views, ∃ before entry m, ViewOf config old before entry m ∧
        Advances before w' := by
      intro old hmem
      obtain ⟨before, entry, m, hview, hadvances⟩ := hviews old hmem
      exact ⟨before, entry, m, hview, hadvances.trans hsteps.advances⟩
    refine ⟨hsteps.published hw, ?_⟩
    rcases refresh_among unusable hw h with ⟨hok, now, hnow, entry, m, hview⟩ | ⟨hfailed, -⟩
    · rw [if_pos hok]
      intro old hmem
      rcases mem_cons.1 hmem with rfl | hmem
      · have hafter := (steps_between honly h hnow).2
        exact ⟨now, entry, m, hview, WriterSteps.advances hafter⟩
      · exact hold old hmem
    · rw [if_neg hfailed]
      exact hold

end Recovery

/-- A refresh that succeeds holds the manifest of a world it made a call in, as new as every view
before; otherwise what it held. -/
theorem refresh_atomic_and_monotone {config : ManifestConfig} {views : List (VersionSet ι)}
    {w w' : Catalog ι} {vs vs' : VersionSet ι} {status : Status} {seen : List (Catalog ι)}
    (unusable : Bool) (hrun : ReaderRun config views w vs)
    (h : (refresh config unusable true vs).Among Catalog.Faulty (WriterSteps config) w (status, vs')
      seen w') :
    (status = .ok → (∃ now ∈ seen, ∃ entry m, ManifestState config now entry m ∧
        vs'.entry = some entry ∧ vs'.current = m.version ∧ vs'.nextSeq = m.records.length + 1) ∧
      ∀ old ∈ views, AsNew old vs') ∧
    (status ≠ .ok → vs'.current = vs.current ∧ vs'.generation = vs.generation ∧
      vs'.entry = vs.entry ∧ vs'.nextSeq = vs.nextSeq) := by
  obtain ⟨hw, hviews⟩ := hrun.views
  rcases refresh_among unusable hw h with ⟨hok, now, hnow, entry, m, hview⟩ | ⟨hfailed, hsame⟩
  · refine ⟨fun _ => ⟨⟨now, hnow, entry, m, ?_⟩, fun old hmem => ?_⟩, fun hne => absurd hok hne⟩
    · exact ⟨hview.1, hview.2.1, hview.2.2.1, hview.2.2.2.1⟩
    · obtain ⟨before, entry₀, m₀, hview₀, hadvances⟩ := hviews old hmem
      have hto := (steps_between (refresh_only config unusable vs) h hnow).1
      exact hview₀.asNew hview (hadvances.trans (WriterSteps.advances hto))
  · refine ⟨fun hok => absurd hok hfailed, fun _ => ⟨hsame.1, ?_, hsame.2.1, hsame.2.2.1⟩⟩
    rw [generation, generation, hsame.2.1]

/-- A writer that created the manifest. -/
def writerBefore : Writer ℕ := Writer.created true (plainConfig 4)

/-- One edit later. -/
def writerAfter : Writer ℕ := writerBefore.perform true (plainConfig 4) (.apply 1 (fileEdit 1)) []

/-- What a recovery leaves. -/
def taken (vs : VersionSet ℕ) (w : Catalog ℕ) : VersionSet ℕ :=
  ((recover (plainConfig 4) vs).run Catalog.answer w).1.2

theorem run_refresh_taken (vs : VersionSet ℕ) (w : Catalog ℕ)
    (hok : ((recover (plainConfig 4) vs).run Catalog.answer w).1.1 = .ok) :
    (refresh (plainConfig 4) false true vs).run Catalog.answer w = ((.ok, taken vs w), w) := by
  have hrun : (refresh (plainConfig 4) false true vs).run Catalog.answer w =
      ((.ok, taken vs w), ((recover (plainConfig 4) vs).run Catalog.answer w).2) :=
    Prod.ext (Prod.ext hok rfl) rfl
  obtain ⟨_, halone⟩ : ∃ seen, (refresh (plainConfig 4) false true vs).Among Catalog.Faulty Eq w
      (.ok, taken vs w) seen ((recover (plainConfig 4) vs).run Catalog.answer w).2 :=
    exists_among_of_run (fun c w => .inl (Catalog.reply_answer c w)) Eq.refl rfl hrun
  have hstill : w = ((recover (plainConfig 4) vs).run Catalog.answer w).2 :=
    halone.moved (refresh_only (plainConfig 4) false vs) (fun _ _ _ => Eq.trans) (fun _ _ => id)
      fun _ _ _ _ hread hr => (eq_of_isRead hread hr).symm
  rw [hrun, ← hstill]

/-- The view before the edit. -/
def viewBefore : VersionSet ℕ := taken {} writerBefore.world.catalog

/-- The view after it. -/
def viewAfter : VersionSet ℕ := taken viewBefore writerAfter.world.catalog

theorem refresh_follows_the_writer : viewBefore.nextSeq = 1 ∧ viewAfter.nextSeq = 2 ∧
    AsNew viewBefore viewAfter ∧ ∃ (now : Catalog ℕ) (entry : CatalogEntry) (m : Manifested ℕ),
      ManifestState (plainConfig 4) now entry m ∧ viewAfter.entry = some entry ∧
        viewAfter.current = m.version := by
  have hcreated : WriterRun true (plainConfig 4) writerBefore :=
    .created (plainConfig_snapshotRoom (by decide +kernel)) (by decide +kernel)
  have hfits : (WriterOp.apply 1 (fileEdit 1)).Fits (plainConfig 4) writerBefore.vs :=
    applyFits_fileEdit (by decide) (by decide +kernel) (by decide +kernel)
  have hsteps : WriterSteps (plainConfig 4) writerBefore.world.catalog writerAfter.world.catalog :=
    hcreated.steps hfits
      (exec_of_run Script.world (Script.reply_answer true) _ ⟨writerBefore.world, []⟩).passes
  have hreply : ∀ (c : Call ℕ) w, Catalog.Faulty c w (Catalog.answer c w).1 (Catalog.answer c w).2 :=
    fun c w => .inl (Catalog.reply_answer c w)
  have hrefl : ∀ w : Catalog ℕ, WriterSteps (plainConfig 4) w w := fun w => .refl
  have hrun₁ := run_refresh_taken {} writerBefore.world.catalog (by decide +kernel)
  have hrun₂ := run_refresh_taken viewBefore writerAfter.world.catalog (by decide +kernel)
  obtain ⟨_, hfirst⟩ := exists_among_of_run hreply hrefl (hrefl _) hrun₁
  have hrun : ReaderRun (plainConfig 4) [viewBefore] writerBefore.world.catalog viewBefore :=
    .refreshed false (.opened hcreated.published rfl) hfirst
  obtain ⟨seen, hsecond⟩ := exists_among_of_run hreply hrefl hsteps hrun₂
  obtain ⟨⟨now, -, entry, m, hstate, hentry, hcurrent, -⟩, hnewer⟩ :=
    (refresh_atomic_and_monotone false hrun hsecond).1 rfl
  exact ⟨by decide +kernel, by decide +kernel, hnewer viewBefore (mem_singleton_self _), now,
    entry, m, hstate, hentry, hcurrent⟩

end ElysiumKV
