import ElysiumKV.ReaderRecovery
import Mathlib.Data.List.Chain

/-!
# What a recovery makes of failing reads

Each read's result is asked for its failure before it is used, but for the pointer read after an
edit that could not be read. Where that one answers, a recovery succeeds only with a snapshot and
edits that were read, up to a torn or absent tail (`recover_reports_failures`).
-/

namespace ElysiumKV

open Program Program.Prog VersionSet ManifestPayload List

namespace VersionSet

variable {ι : Type}

/-- The attempts left; nothing if one looks into a failed result. -/
def recoverDefined (config : ManifestConfig) (vs : VersionSet ι) :
    ℕ → Manifest ι (Option (Status × VersionSet ι))
  | 0 => pure (some (.stale, vs))
  | attempts + 1 => do
    match ← recoverAttempt config vs with
    | .returned result => pure (some result)
    | .again => recoverDefined config vs attempts
    | .usesFailed => pure none

theorem recoverLoop_eq (config : ManifestConfig) (vs : VersionSet ι) (attempts : ℕ) :
    recoverLoop config vs attempts =
      recoverDefined config vs attempts >>= fun ended => pure (ended.getD (.io, vs)) := by
  induction attempts with
  | zero => rfl
  | succ attempts ih =>
    unfold recoverLoop recoverDefined
    rw [Prog.bind_assoc]
    refine congrArg (recoverAttempt config vs >>= ·) (funext fun ended => ?_)
    cases ended with
    | returned result => rfl
    | again => exact ih
    | usesFailed => rfl

end VersionSet

variable {ι : Type}

/-- A call and its reply. -/
abbrev Exchange (ι : Type) : Type := Σ c : Call ι, c.Result

namespace Exchange

/-- An edit is there but was not read. -/
def UnreadEdit : Exchange ι → Prop
  | ⟨.getEdit _ _, .error status⟩ => status ≠ .notFound
  | _ => False

/-- The pointer was not read. -/
def FailedPointer : Exchange ι → Prop
  | ⟨.read, .error _⟩ => True
  | _ => False

/-- A failure is not reported as `ok`. -/
def Reported : Exchange ι → Prop
  | ⟨.read, .error status⟩ => status ≠ .ok
  | ⟨.getSnapshot _, .error status⟩ => status ≠ .ok
  | ⟨.listEdits _, .error status⟩ => status ≠ .ok
  | ⟨.getEdit _ _, .error status⟩ => status ≠ .ok
  | _ => True

end Exchange

/-- No such edit is followed by a failed pointer read. -/
def PointerReadable (events : List (Exchange ι)) : Prop :=
  events.IsChain fun e f => e.UnreadEdit → ¬ f.FailedPointer

/-- Edits read one after the other, to the end, to a gap in the listing, or to a last one torn or
absent. -/
inductive Replayed (config : ManifestConfig) (generation : ℕ) (last : Option ℕ) :
    List ℕ → Assembled ι → List (Exchange ι) → Assembled ι → Prop
  | all (a : Assembled ι) : Replayed config generation last [] a [] a
  | gap {seq : ℕ} (seqs : List ℕ) {a : Assembled ι} (hseq : seq ≠ a.expectedSeq) :
      Replayed config generation last (seq :: seqs) a [] a
  | absent {seq : ℕ} (seqs : List ℕ) {a : Assembled ι} (hseq : seq = a.expectedSeq)
      (hlast : last = some seq) :
      Replayed config generation last (seq :: seqs) a
        [⟨.getEdit generation seq, .error .notFound⟩] a
  | torn {seq : ℕ} (seqs : List ℕ) {a : Assembled ι} {object : Object ι}
      (hseq : seq = a.expectedSeq) (hlast : last = some seq)
      (hread : readEdit config generation seq true object.bytes = .torn) :
      Replayed config generation last (seq :: seqs) a [⟨.getEdit generation seq, .ok object⟩] a
  | read {seq : ℕ} {seqs : List ℕ} {a a' : Assembled ι} {object : Object ι} {edit : VersionEdit}
      {provider : Bytes} {events : List (Exchange ι)} (hseq : seq = a.expectedSeq)
      (hread : readEdit config generation seq (last = some seq) object.bytes = .read edit provider)
      (hrest : Replayed config generation last seqs (a.replay config object.label edit provider)
        events a') :
      Replayed config generation last (seq :: seqs) a
        (⟨.getEdit generation seq, .ok object⟩ :: events) a'

/-- The last attempt read pointer, snapshot, listing, edits and pointer again, and left what they
make. -/
def ReadWhole (config : ManifestConfig) (vs : VersionSet ι) (events : List (Exchange ι))
    (vs' : VersionSet ι) : Prop :=
  ∃ (before : List (Exchange ι)) (entry after : CatalogEntry) (object : Object (List (Record ι)))
    (snapshot : VersionSnapshot) (provider : Bytes) (seqs : List ℕ) (edits : List (Exchange ι))
    (a : Assembled ι),
    events = before ++ (⟨.read, .ok (some entry)⟩ :: ⟨.getSnapshot entry.generation, .ok object⟩ ::
      ⟨.listEdits entry.generation, .ok seqs⟩ :: edits ++ [⟨.read, .ok (some after)⟩]) ∧
    readSnapshot config entry.generation object.bytes = .ok (snapshot, provider) ∧
    Replayed config entry.generation (seqs.insertionSort (· ≤ ·)).getLast?
      (seqs.insertionSort (· ≤ ·)) (assembledSnapshot config snapshot provider object.label) edits
      a ∧
    after.generation = entry.generation ∧ vs' = vs.recovered entry a

/-- As it was but for the text of the last error. -/
def Untouched (vs vs' : VersionSet ι) : Prop := vs' = { vs with lastError := vs'.lastError }

/-- A failure to open is not reported as success. -/
def ProviderRegistry.OpenFailures (registry : ProviderRegistry) : Prop :=
  ∀ id provider, registry.find id = some provider →
    ∀ generation metadata, (∀ status, provider.openObject generation metadata = .error status →
      status ≠ .ok) ∧ ∀ cipher, provider.openObject generation metadata = .ok cipher →
        ∀ chunk bytes aad status, cipher.openChunk chunk bytes aad = .error status → status ≠ .ok

variable {codecs : Compressors} {status : Status}

theorem decompress_error {packed : Bytes} {codec plainLen : ℕ}
    (h : decompress codecs packed codec plainLen = .error status) : status ≠ .ok := by
  unfold decompress at h
  repeat' split at h
  all_goals cases h
  all_goals decide

theorem openChunks_error {cipher : ObjectCipher}
    (hcipher : ∀ chunk bytes aad status, cipher.openChunk chunk bytes aad = .error status →
      status ≠ .ok) {address header : Bytes} {logical count chunk : ℕ} {rest : Bytes}
    (h : openChunks cipher address header logical count chunk rest = .error status) :
    status ≠ .ok := by
  induction count generalizing chunk rest with
  | zero => cases h
  | succ count ih =>
    unfold openChunks at h
    simp only at h
    split at h
    next status' hchunk =>
      obtain rfl := Except.error.inj h
      exact hcipher _ _ _ _ hchunk
    next plain _ =>
      split at h
      next status' hothers =>
        obtain rfl := Except.error.inj h
        exact ih hothers
      · cases h

variable {generation : ℕ}

theorem openPayload_error {registry : ProviderRegistry} (hopen : registry.OpenFailures)
    {address framed : Bytes} {refusal : Refusal}
    (h : openPayload registry codecs generation address framed = .error refusal) :
    refusal.status ≠ .ok := by
  unfold openPayload at h
  split at h
  · cases h
    nofun
  simp only at h
  split_ifs at h
  iterate 5
    · cases h
      nofun
  split at h
  · cases h
    nofun
  next provider hfind =>
  split at h
  next status hobject =>
    cases h
    exact (hopen _ provider hfind _ _).1 _ hobject
  next cipher hobject =>
  split at h
  next status hbody =>
    cases h
    unfold openBody at hbody
    simp only at hbody
    split_ifs at hbody
    · cases hbody
      nofun
    · split at hbody
      next hchunks =>
        cases hbody
        exact openChunks_error ((hopen _ provider hfind _ _).2 cipher hobject) hchunks
      · exact decompress_error hbody
  · cases h

variable {bytes : Bytes}

theorem decodeRecord_error {α : Type} {body : Codec.Parser α}
    (h : decodeRecord codecs body bytes = .error status) : status ≠ .ok := by
  have hunframe : ∀ {status}, unframeBlock codecs bytes maxManifestBytes = .error status →
      status ≠ .ok := by
    intro status h
    unfold unframeBlock unpackBlock at h
    simp only at h
    repeat' split at h
    all_goals cases h
    all_goals decide
  unfold decodeRecord at h
  repeat' split at h
  · cases h
    exact hunframe (by assumption)
  all_goals cases h
  all_goals decide

variable {config : ManifestConfig}

theorem readSnapshot_error (hopen : config.registry.OpenFailures) {why : String}
    (h : readSnapshot config generation bytes = .error (status, why)) : status ≠ .ok := by
  unfold readSnapshot at h
  split at h
  next refusal hpayload =>
    cases h
    exact openPayload_error hopen hpayload
  split at h
  next hdecode =>
    cases h
    exact decodeRecord_error hdecode
  split_ifs at h
  cases h
  nofun

theorem readEdit_torn {seq : ℕ} {tail : Bool}
    (h : readEdit config generation seq tail bytes = .torn) : tail = true := by
  unfold readEdit at h
  repeat' split at h
  all_goals cases h
  all_goals exact And.left (by assumption)

/-- A replay reads edits, is unreadable if the last was, and assembles what it read. -/
structure ReplaySpec (config : ManifestConfig) (generation : ℕ) (last : Option ℕ) (seqs : List ℕ)
    (a : Assembled ι) (events : List (Exchange ι)) (ended : ReplayEnd ι) : Prop where
  edits : ∀ e ∈ events, ¬ e.FailedPointer
  unreadable : (∃ e ∈ events.getLast?, e.UnreadEdit) ↔ ended = .unreadable
  assembled : ∀ a', ended = .assembled a' → Replayed config generation last seqs a events a'

variable {events : List (Exchange ι)}

theorem replayEdits_follows {last : Option ℕ} {seqs : List ℕ} {a : Assembled ι}
    {ended : ReplayEnd ι} (h : (replayEdits config generation last seqs a).Follows events ended) :
    ReplaySpec config generation last seqs a events ended := by
  induction seqs generalizing a events with
  | nil =>
    obtain ⟨rfl, rfl⟩ := h
    refine ⟨by simp, by simp, ?_⟩
    rintro a' ⟨⟩
    exact .all a
  | cons seq seqs ih =>
    unfold replayEdits at h
    by_cases hseq : seq ≠ a.expectedSeq
    · rw [if_pos hseq] at h
      obtain ⟨rfl, rfl⟩ := h
      refine ⟨by simp, by simp, ?_⟩
      rintro a' ⟨⟩
      exact .gap seqs hseq
    rw [if_neg hseq] at h
    have hseq := not_not.1 hseq
    obtain ⟨reply, rest, rfl, h⟩ := h
    obtain status | object := reply
    · -- the read failed: with the tail not there, with an edit missing, or unreadable
      by_cases hstatus : status = .notFound
      · subst hstatus
        by_cases hlast : last = some seq
        · simp only [hlast, if_true] at h
          obtain ⟨rfl, rfl⟩ := h
          refine ⟨by simp [Exchange.FailedPointer], by simp [Exchange.UnreadEdit], ?_⟩
          rintro a' ⟨⟩
          exact .absent seqs hseq hlast
        · simp only [hlast, if_false] at h
          obtain ⟨rfl, rfl⟩ := h
          exact ⟨by simp [Exchange.FailedPointer], by simp [Exchange.UnreadEdit], by simp⟩
      · have hend : rest = [] ∧ ended = .unreadable := by
          cases status <;> first | exact h | exact absurd rfl hstatus
        obtain ⟨rfl, rfl⟩ := hend
        exact ⟨by simp [Exchange.FailedPointer], by simp [Exchange.UnreadEdit, hstatus], by simp⟩
    · simp only [Prog.bind] at h
      cases hread : readEdit config generation seq (decide (last = some seq)) object.bytes with
      | torn =>
        rw [hread] at h
        obtain ⟨rfl, rfl⟩ := h
        refine ⟨by simp [Exchange.FailedPointer], by simp [Exchange.UnreadEdit], ?_⟩
        rintro a' ⟨⟩
        have htail := readEdit_torn hread
        rw [htail] at hread
        exact .torn seqs hseq (of_decide_eq_true htail) hread
      | refused status why =>
        rw [hread] at h
        obtain ⟨rfl, rfl⟩ := h
        exact ⟨by simp [Exchange.FailedPointer], by simp [Exchange.UnreadEdit], by simp⟩
      | read edit provider =>
        rw [hread] at h
        have hrest := ih h
        refine ⟨?_, ?_, fun a' ha' => .read hseq hread (hrest.assembled a' ha')⟩
        · intro e he
          rcases mem_cons.1 he with rfl | he
          · exact id
          · exact hrest.edits e he
        · rw [← hrest.unreadable]
          cases rest with
          | nil => simp [Exchange.UnreadEdit]
          | cons e rest => simp

theorem replayEdits_sound {last : Option ℕ} {seqs : List ℕ} {a : Assembled ι}
    {ended : ReplayEnd ι} (h : (replayEdits config generation last seqs a).Follows events ended) :
    ReplayEnd.Sound ended :=
  (replayEdits_only config generation last seqs a).of_follows h

variable {reads : List (Exchange ι)}

theorem pointerReadable_of_reads (hreads : ∀ e ∈ reads, ¬ e.UnreadEdit) : PointerReadable reads :=
  (pairwise_of_forall_mem_list fun e he _ _ hunread => (hreads e he hunread).elim).isChain

variable {edits : List (Exchange ι)}

theorem pointerReadable_append (hreads : ∀ e ∈ reads, ¬ e.UnreadEdit)
    (hedits : ∀ e ∈ edits, ¬ e.FailedPointer) : PointerReadable (reads ++ edits) := by
  refine isChain_append.2 ⟨pointerReadable_of_reads hreads, ?_, fun e he _ _ hunread => ?_⟩
  · refine List.Pairwise.isChain (pairwise_of_forall_mem_list ?_)
    exact fun _ _ f hf _ => hedits f hf
  · exact (hreads e (mem_of_mem_getLast? he) hunread).elim

theorem pointerReadable_append_iff {e : Exchange ι} (hreads : ∀ e ∈ reads, ¬ e.UnreadEdit)
    (hedits : ∀ e ∈ edits, ¬ e.FailedPointer) :
    PointerReadable (reads ++ edits ++ [e]) ↔
      ((∃ f ∈ edits.getLast?, f.UnreadEdit) → ¬ e.FailedPointer) := by
  have hchain := pointerReadable_append hreads hedits
  unfold PointerReadable at hchain ⊢
  rw [isChain_append]
  constructor
  · rintro ⟨-, -, hjoin⟩ ⟨f, hf, hunread⟩
    refine hjoin f ?_ e rfl hunread
    rw [List.getLast?_append]
    simp [Option.mem_def.1 hf]
  · refine fun h => ⟨hchain, .singleton e, fun f hf g hg hunread => ?_⟩
    obtain rfl : e = g := by simpa using hg
    refine h ⟨f, ?_, hunread⟩
    cases hlast : edits.getLast? with
    | none =>
      have hf : f ∈ reads.getLast? := by simpa [List.getLast?_append, hlast] using hf
      exact (hreads f (mem_of_mem_getLast? hf) hunread).elim
    | some last => simpa [List.getLast?_append, hlast] using hf

/-- What an attempt does with its replies. -/
structure AttemptSpec (config : ManifestConfig) (vs : VersionSet ι) (events : List (Exchange ι))
    (ended : AttemptEnd ι) : Prop where
  checked : PointerReadable events ↔ ended ≠ .usesFailed
  last : ∀ e ∈ events.getLast?, ¬ e.UnreadEdit
  ok : ∀ vs', ended = .returned (.ok, vs') → ReadWhole config vs events vs'
  failed : ∀ status vs', ended = .returned (status, vs') → status ≠ .ok → Untouched vs vs'

/-- Every read was asked for its failure, and the last was no unreadable edit. -/
structure Checked (events : List (Exchange ι)) : Prop where
  readable : PointerReadable events
  last : ∀ e ∈ events.getLast?, ¬ e.UnreadEdit

theorem Checked.of_reads (hreads : ∀ e ∈ reads, ¬ e.UnreadEdit) : Checked reads :=
  ⟨pointerReadable_of_reads hreads, fun e he => hreads e (mem_of_mem_getLast? he)⟩

theorem Checked.of_edits (hreads : ∀ e ∈ reads, ¬ e.UnreadEdit)
    (hedits : ∀ e ∈ edits, ¬ e.FailedPointer) (hlast : ¬ ∃ e ∈ edits.getLast?, e.UnreadEdit) :
    Checked (reads ++ edits) := by
  refine ⟨pointerReadable_append hreads hedits, fun e he hunread => ?_⟩
  rw [List.getLast?_append] at he
  cases hsome : edits.getLast? with
  | none => exact hreads e (mem_of_mem_getLast? (by simpa [hsome] using he)) hunread
  | some last => exact hlast ⟨e, by simpa [hsome] using he, hunread⟩

theorem not_unreadEdit_of_pointer (events : List (Exchange ι)) (reply : Call.read.Result) :
    ∀ e ∈ (events ++ [(⟨.read, reply⟩ : Exchange ι)]).getLast?, ¬ e.UnreadEdit := by
  rintro e he
  rw [List.getLast?_concat] at he
  obtain rfl := Option.some.inj he
  exact id

theorem Checked.of_pointer (hreads : ∀ e ∈ reads, ¬ e.UnreadEdit)
    (hedits : ∀ e ∈ edits, ¬ e.FailedPointer) (reply : Call.read.Result)
    (h : (∃ e ∈ edits.getLast?, e.UnreadEdit) → ¬ Exchange.FailedPointer (ι := ι) ⟨.read, reply⟩) :
    Checked (reads ++ edits ++ [⟨.read, reply⟩]) :=
  ⟨(pointerReadable_append_iff hreads hedits).2 h, not_unreadEdit_of_pointer _ reply⟩

namespace AttemptSpec

variable {config : ManifestConfig} {vs vs' : VersionSet ι} {events : List (Exchange ι)}
  {status : Status}

theorem of_failed (hchecked : Checked events) (hstatus : status ≠ .ok)
    (huntouched : Untouched vs vs') : AttemptSpec config vs events (.returned (status, vs')) := by
  refine ⟨iff_of_true hchecked.readable (by simp), hchecked.last, ?_, ?_⟩
  · rintro - ⟨⟩
    exact absurd rfl hstatus
  · intro status' vs'' h _
    cases h
    exact huntouched

theorem of_again (hchecked : Checked events) : AttemptSpec config vs events .again :=
  ⟨iff_of_true hchecked.readable (by simp), hchecked.last, by simp, by simp⟩

end AttemptSpec

theorem Untouched.refl (vs : VersionSet ι) : Untouched vs vs := rfl

theorem untouched_noteError (vs : VersionSet ι) (why : String) :
    Untouched vs (vs.noteError why) := by
  unfold noteError
  split_ifs
  · rfl
  · rfl

theorem follows_moved {again : Prop} [Decidable again] {result : Status × VersionSet ι}
    {ended : AttemptEnd ι}
    (h : (if again then pure .again else pure (.returned result) :
      Manifest ι (AttemptEnd ι)).Follows events ended) :
    events = [] ∧ (ended = .again ∨ ended = .returned result) := by
  split_ifs at h
  · exact ⟨h.1, .inl h.2⟩
  · exact ⟨h.1, .inr h.2⟩

theorem recoverAttempt_follows (hopen : config.registry.OpenFailures) {vs : VersionSet ι}
    {ended : AttemptEnd ι} (hreported : ∀ e ∈ events, e.Reported)
    (h : (recoverAttempt config vs).Follows events ended) : AttemptSpec config vs events ended := by
  unfold recoverAttempt at h
  obtain ⟨pointer, rest, rfl, h⟩ := h
  obtain status | - | entry := pointer
  · obtain ⟨rfl, rfl⟩ := h
    exact .of_failed (.of_reads (by simp [Exchange.UnreadEdit]))
      (hreported _ mem_cons_self) (.refl vs)
  · obtain ⟨rfl, rfl⟩ := h
    exact .of_failed (.of_reads (by simp [Exchange.UnreadEdit])) (by decide) (.refl vs)
  obtain ⟨object, rest, rfl, h⟩ := h
  obtain status | object := object
  · by_cases hstatus : status = .notFound
    · subst hstatus
      obtain ⟨moved, rest, rfl, h⟩ := h
      obtain status | moved := moved
      · obtain ⟨rfl, rfl⟩ := h
        exact .of_failed (.of_reads (by simp [Exchange.UnreadEdit]))
          (hreported ⟨.read, .error status⟩ (by simp)) (.refl vs)
      · obtain ⟨rfl, rfl | rfl⟩ := follows_moved h
        · exact .of_again (.of_reads (by simp [Exchange.UnreadEdit]))
        · exact .of_failed (.of_reads (by simp [Exchange.UnreadEdit])) (by decide) (.refl vs)
    · have hend : rest = [] ∧ ended = .returned (status, vs) := by
        cases status <;> first | exact h | exact absurd rfl hstatus
      obtain ⟨rfl, rfl⟩ := hend
      exact .of_failed (.of_reads (by simp [Exchange.UnreadEdit]))
        (hreported ⟨.getSnapshot entry.generation, .error status⟩ (by simp)) (.refl vs)
  cases hsnapshot : readSnapshot config entry.generation object.bytes with
  | error refusal =>
    simp only [Prog.bind, hsnapshot] at h
    obtain ⟨rfl, rfl⟩ := h
    exact .of_failed (.of_reads (by simp [Exchange.UnreadEdit]))
      (readSnapshot_error hopen hsnapshot) (untouched_noteError vs _)
  | ok read =>
  obtain ⟨snapshot, provider⟩ := read
  simp only [Prog.bind, hsnapshot] at h
  obtain ⟨seqs, rest, rfl, h⟩ := h
  obtain status | seqs := seqs
  · obtain ⟨rfl, rfl⟩ := h
    exact .of_failed (.of_reads (by simp [Exchange.UnreadEdit]))
      (hreported ⟨.listEdits entry.generation, .error status⟩ (by simp)) (.refl vs)
  simp only [Prog.bind] at h
  replace h := follows_bind.1 h
  obtain ⟨replayed, edits, rest, hreplay, rfl, h⟩ := h
  have hedits := replayEdits_follows hreplay
  change AttemptSpec config vs ([⟨.read, .ok (some entry)⟩,
    ⟨.getSnapshot entry.generation, .ok object⟩, ⟨.listEdits entry.generation, .ok seqs⟩] ++
      (edits ++ rest)) ended
  rw [← append_assoc]
  have hreads : ∀ e ∈ ([⟨.read, .ok (some entry)⟩, ⟨.getSnapshot entry.generation, .ok object⟩,
      ⟨.listEdits entry.generation, .ok seqs⟩] : List (Exchange ι)), ¬ e.UnreadEdit := by
    simp [Exchange.UnreadEdit]
  obtain a | - | seq | ⟨status, why⟩ := replayed
  · have hnone := mt hedits.unreadable.1 (by simp)
    obtain ⟨after, rest, rfl, h⟩ := h
    have hchecked := Checked.of_pointer hreads hedits.edits after fun h => (hnone h).elim
    obtain status | - | after := after
    · obtain ⟨rfl, rfl⟩ := h
      exact .of_failed hchecked (hreported ⟨.read, .error status⟩ (by simp)) (.refl vs)
    · obtain ⟨rfl, rfl⟩ := h
      exact .of_failed hchecked (by decide) (.refl vs)
    simp only [Prog.bind] at h
    split_ifs at h with hmoved hbehind
    · obtain ⟨rfl, rfl⟩ := h
      exact .of_again hchecked
    · obtain ⟨rfl, rfl⟩ := h
      exact .of_failed hchecked (by decide) (.refl vs)
    · obtain ⟨rfl, rfl⟩ := h
      refine ⟨iff_of_true hchecked.readable (by simp), hchecked.last, ?_, ?_⟩
      · rintro vs' ⟨⟩
        exact ⟨[], entry, after, object, snapshot, provider, seqs, edits, a, rfl, hsnapshot,
          hedits.assembled a rfl, not_not.1 hmoved, rfl⟩
      · rintro - - ⟨⟩ hstatus
        exact absurd rfl hstatus
  · have hsome := hedits.unreadable.2 rfl
    obtain ⟨moved, rest, rfl, h⟩ := h
    obtain status | moved := moved
    · -- the failed result is looked into
      obtain ⟨rfl, rfl⟩ := h
      refine ⟨iff_of_false ?_ (not_not.2 rfl), not_unreadEdit_of_pointer _ _, by simp, by simp⟩
      exact fun hreadable =>
        (pointerReadable_append_iff hreads hedits.edits).1 hreadable hsome trivial
    · have hchecked := Checked.of_pointer hreads hedits.edits (.ok moved) fun _ => id
      obtain ⟨rfl, rfl | rfl⟩ := follows_moved h
      · exact .of_again hchecked
      · exact .of_failed hchecked (by decide) (.refl vs)
  · have hnone := mt hedits.unreadable.1 (by simp)
    obtain ⟨moved, rest, rfl, h⟩ := h
    have hchecked := Checked.of_pointer hreads hedits.edits moved fun h => (hnone h).elim
    obtain status | moved := moved
    · obtain ⟨rfl, rfl⟩ := h
      exact .of_failed hchecked (hreported ⟨.read, .error status⟩ (by simp)) (.refl vs)
    · obtain ⟨rfl, rfl | rfl⟩ := follows_moved h
      · exact .of_again hchecked
      · exact .of_failed hchecked (by decide) rfl
  · have hnone := mt hedits.unreadable.1 (by simp)
    obtain ⟨rfl, rfl⟩ := h
    rw [append_nil]
    exact .of_failed (.of_edits hreads hedits.edits hnone) (replayEdits_sound hreplay)
      (untouched_noteError vs why)

theorem ReadWhole.append {vs vs' : VersionSet ι} (h : ReadWhole config vs events vs')
    (first : List (Exchange ι)) : ReadWhole config vs (first ++ events) vs' := by
  obtain ⟨before, entry, after, object, snapshot, provider, seqs, edits, a, rfl, h⟩ := h
  exact ⟨first ++ before, entry, after, object, snapshot, provider, seqs, edits, a,
    (append_assoc ..).symm, h⟩

/-- Defined exactly if no failed edit read is followed by a failed pointer read; then it succeeds
only with what it read, and a failure changes nothing. -/
theorem recover_reports_failures {config : ManifestConfig}
    (hopen : config.registry.OpenFailures) {vs : VersionSet ι} {attempts : ℕ}
    {events : List (Exchange ι)} (hreported : ∀ e ∈ events, e.Reported)
    {ended : Option (Status × VersionSet ι)}
    (h : (recoverDefined config vs attempts).Follows events ended) :
    (ended.isSome ↔ PointerReadable events) ∧
    (∀ vs', ended = some (.ok, vs') → ReadWhole config vs events vs') ∧
    ∀ status vs', ended = some (status, vs') → status ≠ .ok → Untouched vs vs' := by
  induction attempts generalizing events with
  | zero =>
    obtain ⟨rfl, rfl⟩ := h
    refine ⟨iff_of_true rfl .nil, by simp, ?_⟩
    rintro status vs' ⟨⟩ -
    exact .refl vs
  | succ attempts ih =>
    obtain ⟨tried, first, rest, hfirst, rfl, hrest⟩ := follows_bind.1 h
    have hspec := recoverAttempt_follows hopen
      (fun e he => hreported e (mem_append_left _ he)) hfirst
    cases tried with
    | returned result =>
      obtain ⟨rfl, rfl⟩ := hrest
      rw [append_nil]
      refine ⟨iff_of_true rfl (hspec.checked.2 (by simp)), ?_, ?_⟩
      · rintro vs' ⟨⟩
        exact hspec.ok vs' rfl
      · rintro status vs' ⟨⟩
        exact hspec.failed status vs' rfl
    | again =>
      obtain ⟨hdefined, hok, hfailed⟩ :=
        ih (fun e he => hreported e (mem_append_right _ he)) hrest
      refine ⟨hdefined.trans ?_, fun vs' hvs' => (hok vs' hvs').append first, hfailed⟩
      unfold PointerReadable
      rw [isChain_append]
      refine ⟨fun hreadable => ⟨hspec.checked.2 (by simp), hreadable, ?_⟩, fun h => h.2.1⟩
      exact fun e he _ _ hunread => (hspec.last e he hunread).elim
    | usesFailed =>
      obtain ⟨rfl, rfl⟩ := hrest
      rw [append_nil]
      exact ⟨iff_of_false (by simp) fun hreadable => hspec.checked.1 hreadable rfl, by simp, by simp⟩

/-- A writer's one edit cannot be read; nor, if `pointerFails`, the pointer after that. -/
def unreadable (pointerFails : Bool) : (c : Call ℕ) → Bool → c.Result × Bool
  | .getEdit _ _, _ => (.error .io, pointerFails)
  | .read, true => (.error .io, true)
  | c, failed => ((Catalog.answer c writerAfter.world.catalog).1, failed)

theorem reported_answer (c : Call ℕ) (w : Catalog ℕ) :
    Exchange.Reported ⟨c, (Catalog.answer c w).1⟩ := by
  cases c with
  | getSnapshot g => cases h : w.snapshot g <;> simp [Catalog.answer, h, Exchange.Reported]
  | getEdit g seq => cases h : w.edit g seq <;> simp [Catalog.answer, h, Exchange.Reported]
  | _ => trivial

theorem reported_unreadable (pointerFails : Bool) (c : Call ℕ) (failed : Bool) :
    Exchange.Reported ⟨c, (unreadable pointerFails c failed).1⟩ := by
  cases c with
  | getEdit g seq => simp [unreadable, Exchange.Reported]
  | read => cases failed <;> simp [unreadable, Catalog.answer, Exchange.Reported]
  | _ => exact reported_answer _ writerAfter.world.catalog

theorem openFailures_passthrough : passthroughRegistry.OpenFailures := by
  intro id provider hfind generation metadata
  obtain ⟨-, rfl⟩ : id = [] ∧ noEncryptionProvider = provider := by
    simpa [passthroughRegistry] using hfind
  unfold noEncryptionProvider
  constructor
  · intro status h
    simp only at h
    split_ifs at h
    cases h
    decide
  · intro cipher h
    simp only at h
    split_ifs at h
    cases h
    rintro - - - - ⟨⟩

/-- The edit cannot be read and the pointer can: a failure that changes nothing. -/
theorem recover_reports_failures_unread :
    PointerReadable ((recoverDefined (plainConfig 4) {} recoverAttempts).log (unreadable false)
      false) ∧
    ∃ vs', ((recoverDefined (plainConfig 4) {} recoverAttempts).run (unreadable false) false).1 =
      some (.io, vs') ∧ Untouched {} vs' := by
  have hstatus : ((recoverDefined (plainConfig 4) {} recoverAttempts).run (unreadable false)
      false).1.map Prod.fst = some .io := by decide +kernel
  obtain ⟨⟨status, vs'⟩, hended, rfl⟩ := Option.map_eq_some_iff.1 hstatus
  obtain ⟨hdefined, -, hfailed⟩ := @recover_reports_failures ℕ (plainConfig 4)
    openFailures_passthrough _ _ _ (of_mem_log (reported_unreadable false) _ _) _
    (follows_log (unreadable false) _ _)
  rw [hended] at hdefined hfailed
  exact ⟨hdefined.1 rfl, vs', hended, hfailed _ vs' rfl (by simp)⟩

theorem recover_uses_failed_result :
    (∀ e ∈ (recoverDefined (plainConfig 4) {} recoverAttempts).log (unreadable true) false,
      Exchange.Reported e) ∧
    (recoverDefined (plainConfig 4) {} recoverAttempts).Follows
      ((recoverDefined (plainConfig 4) {} recoverAttempts).log (unreadable true) false) none := by
  have hnone :
      ((recoverDefined (plainConfig 4) {} recoverAttempts).run (unreadable true) false).1 = none :=
    Option.isNone_iff_eq_none.1 (by decide +kernel)
  exact ⟨of_mem_log (reported_unreadable true) _ _, hnone ▸ follows_log (unreadable true) _ _⟩

end ElysiumKV
