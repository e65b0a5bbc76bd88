import ElysiumKV.DynamoCatalog
import ElysiumKV.WriterRuns

/-!
# A crash inside `put_edit`

A recovery from disk takes the acknowledged edits, but where a part of the file is left the next
address is taken, and every later `apply` is fenced. A recovery from the DynamoDB table fails where
some chunks are missing.
-/

namespace ElysiumKV

open Program Program.Prog ManifestPayload VersionSet

variable {ι : Type}

/-- What is on disk of an interrupted `write_object`: nothing, or the first bytes. -/
def Catalog.leave (w : Catalog ι) (g seq : ℕ) (bytes : Bytes) (id : ι) : Option ℕ → Catalog ι
  | none => w
  | some n => w.withEdit g seq (bytes.take n) id

/-- A part of the file is there, but not all of it. -/
def Torn (bytes : Bytes) (left : Option ℕ) : Prop := ∃ n, left = some n ∧ n < bytes.length

namespace VersionSet

variable {config : ManifestConfig} {w : Catalog ι} {l : Ledger ι}

/-! ### The next `apply` -/

/-- The edit can be sealed. -/
def Seals (config : ManifestConfig) (vs : VersionSet ι) (edit : VersionEdit) : Prop :=
  ∀ entry, vs.entry = some entry → ∀ draw, ∃ framed,
    sealPayload config.registry config.codecs entry.generation draw
      (editAddress entry.generation vs.nextSeq)
      (encodeVersionEdit config.codecs (vs.stamped edit)) = .ok framed

variable {vs : VersionSet ι} {entry : CatalogEntry} {id : ι} {edit : VersionEdit} {w' : Catalog ι}
  {result : Status × VersionSet ι}

theorem commitEdit_ok {reply : (c : Call ι) → Catalog ι → c.Result → Catalog ι → Prop}
    {w : Catalog ι} (h : (commitEdit config vs entry id edit).Exec reply w result w') :
    result.1 = .ok := by
  obtain ⟨queued, w₁, -, h⟩ := (exec_bind reply).1 h
  obtain ⟨rolled, w₂, -, h⟩ := (exec_bind reply).1 h
  obtain ⟨collected, w₃, -, h⟩ := (exec_bind reply).1 h
  obtain ⟨rfl, -⟩ := h
  rfl

theorem apply_exec {w : Catalog ι} (hfenced : vs.fenced = false) (hentry : vs.entry = some entry)
    (hseals : Seals config vs edit) (h : (vs.apply config id edit).Exec Catalog.Reply w result w') :
    w.edit entry.generation vs.nextSeq = none ∧ result.1 = .ok ∨
      (w.edit entry.generation vs.nextSeq).isSome ∧
        result = (.fenced, { vs with fenced := true }) ∧ w' = w := by
  unfold apply at h
  rw [if_neg (by simp [hfenced]), hentry] at h
  obtain ⟨draw, w₁, hdraw, hsealing⟩ := (exec_ask_bind Catalog.Reply).1 h
  obtain rfl : w₁ = w := hdraw
  obtain ⟨framed, hseal⟩ := hseals entry hentry draw
  unfold stamped at hseal
  simp only [hseal] at hsealing
  obtain ⟨status, w₂, hput, hrest⟩ := (exec_ask_bind Catalog.Reply).1 hsealing
  rcases Catalog.reply_putEdit hput with ⟨hfree, rfl, rfl⟩ | ⟨htaken, rfl, rfl⟩
  · exact .inl ⟨hfree, commitEdit_ok hrest⟩
  · obtain ⟨rfl, rfl⟩ := hrest
    refine .inr ⟨htaken, ?_, rfl⟩
    rw [← hentry]

theorem apply_taken {w : Catalog ι} (hentry : vs.entry = some entry)
    (hseals : Seals config vs edit) (htaken : (w.edit entry.generation vs.nextSeq).isSome)
    (h : (vs.apply config id edit).Exec Catalog.Reply w result w') :
    result.1 = .fenced ∧ w' = w ∧ result.2.entry = vs.entry ∧ result.2.nextSeq = vs.nextSeq := by
  by_cases hfenced : vs.fenced = true
  · unfold apply at h
    rw [if_pos hfenced] at h
    obtain ⟨rfl, rfl⟩ := h
    exact ⟨rfl, rfl, rfl, rfl⟩
  · rcases apply_exec (by simpa using hfenced) hentry hseals h with ⟨hfree, -⟩ | ⟨-, rfl, rfl⟩
    · rw [hfree] at htaken
      cases htaken
    · exact ⟨rfl, rfl, rfl, rfl⟩

/-! ### A torn file -/

theorem Stored.run_recover_torn (h : Stored config w l) {bytes : Bytes} (id : ι)
    (htorn : readEdit config l.entry.generation (l.records.length + 1) true bytes = .torn) :
    (recover config {}).run Catalog.answer
        (w.withEdit l.entry.generation (l.records.length + 1) bytes id) =
      ((.ok, ({} : VersionSet ι).recovered l.entry (l.assembled config)),
        w.withEdit l.entry.generation (l.records.length + 1) bytes id) := by
  set w' := w.withEdit l.entry.generation (l.records.length + 1) bytes id with hw'
  obtain ⟨object, hobject, hlabel, hread⟩ := h.holds.snapshot
  have hedits : ∀ seq, w'.edit l.entry.generation seq = if seq = l.records.length + 1 then
      some ⟨bytes, id⟩ else w.edit l.entry.generation seq := by
    intro seq
    rw [hw', Catalog.edit_withEdit]
    simp
  have hmem : ∀ seq, seq ∈ (w'.generation l.entry.generation).edits.keys ↔
      1 ≤ seq ∧ seq ≤ l.records.length + 1 := by
    intro seq
    rw [← AList.mem_keys, ← AList.lookup_isSome]
    show (w'.edit l.entry.generation seq).isSome ↔ _
    rw [hedits]
    split_ifs with hseq
    · simp only [Option.isSome_some, true_iff]
      omega
    · rw [Catalog.edit, AList.lookup_isSome, AList.mem_keys, h.holds.mem_keys]
      omega
  have hserves : ∀ i r, l.records[i]? = some r →
      ServesEdit config Catalog.answer w' l.entry.generation (1 + i) r := by
    intro i r hr
    have hlt : i < l.records.length := (List.getElem?_eq_some_iff.1 hr).1
    obtain ⟨object, hlookup, hlabel, hread⟩ := h.holds.edits i r hr
    have hedit : w'.edit l.entry.generation (1 + i) = some object := by
      rw [hedits, if_neg (by omega), Nat.add_comm 1 i]
      exact hlookup
    refine ⟨object, by simp only [Catalog.answer, hedit], hlabel, ?_⟩
    rwa [Nat.add_comm 1 i]
  have hget : Catalog.answer (.getEdit l.entry.generation (1 + l.records.length)) w' =
      (.ok ⟨bytes, id⟩, w') := by
    have hedit := hedits (1 + l.records.length)
    rw [if_pos (Nat.add_comm 1 _)] at hedit
    simp only [Catalog.answer, hedit]
  have hpointer : Catalog.answer .read w' = (.ok (some l.entry), w') := by
    simp only [Catalog.answer, show w'.pointer = some l.entry from h.pointer]
  have hsnapshot : Catalog.answer (.getSnapshot l.entry.generation) w' = (.ok object, w') := by
    have hstill : w'.snapshot l.entry.generation = some object := by
      rw [hw', Catalog.snapshot, Catalog.withEdit, Catalog.generation_set, if_pos rfl]
      exact hobject
    simp only [Catalog.answer, hstill]
  refine run_recover hpointer hsnapshot hread rfl ?_ rfl
  rw [insertionSort_eq_range' (AList.keys_nodup _) hmem, hlabel, List.range'_1_concat]
  refine (run_replayEdits _ _ _ (assembledSnapshot config l.snapshot _ l.base) hserves).trans ?_
  rw [replayEdits, if_neg]
  · refine (run_ask_bind hget _).trans ?_
    rw [Nat.add_comm] at htorn
    simp only [List.getLast?_concat, decide_true, htorn]
    rfl
  · rw [Assembled.expectedSeq_replayAll]
    exact fun hne => hne rfl

theorem readEdit_torn (fits : EditFits config edit) {generation seq draw : ℕ} {framed : Bytes}
    (h : sealPayload config.registry config.codecs generation draw (editAddress generation seq)
      (encodeVersionEdit config.codecs edit) = .ok framed) {n : ℕ} (hcut : n < framed.length) :
    readEdit config generation seq true (framed.take n) = .torn := by
  unfold readEdit
  simp [openPayload_interrupted h fits.payload hcut]

/-! ### After the crash -/

/-- After a crash: the store is opened, applies edits and is opened again. -/
inductive Reopened (config : ManifestConfig) (w₀ : Catalog ι) : VersionSet ι → Catalog ι → Prop
  | opened {vs : VersionSet ι}
      (h : (recover config {}).run Catalog.answer w₀ = ((.ok, vs), w₀)) : Reopened config w₀ vs w₀
  | again {vs vs' : VersionSet ι} {w : Catalog ι} (h : Reopened config w₀ vs w)
      (hrecover : (recover config {}).run Catalog.answer w = ((.ok, vs'), w)) :
      Reopened config w₀ vs' w
  | applied {vs : VersionSet ι} {w w' : Catalog ι} {id : ι} {edit : VersionEdit}
      {result : Status × VersionSet ι} (h : Reopened config w₀ vs w)
      (hfits : vs.ApplyFits config edit) (hseals : Seals config vs edit)
      (hexec : (vs.apply config id edit).Exec Catalog.Reply w result w') :
      Reopened config w₀ result.2 w'

theorem Consistent.apply_ok (h : Consistent config vs w l none) (hfenced : vs.fenced = false)
    (hseals : Seals config vs edit)
    (hexec : (vs.apply config id edit).Exec Catalog.Reply w result w') : result.1 = .ok := by
  have hstored : Stored config w l := l.append_nil ▸ h.stored
  have hfree : w.edit l.entry.generation vs.nextSeq = none :=
    hstored.edit_eq_none (by rw [h.nextSeq]; exact Nat.lt_succ_self _)
  rcases apply_exec hfenced h.entry hseals hexec with ⟨-, hok⟩ | ⟨htaken, -⟩
  · exact hok
  · rw [hfree] at htaken
    cases htaken

/-- Where nothing torn is left, the store stays consistent and is never fenced. -/
theorem Reopened.consistent {w₀ : Catalog ι} {vs₀ : VersionSet ι} {l₀ : Ledger ι}
    (h₀ : Consistent config vs₀ w₀ l₀ none) {w : Catalog ι} (h : Reopened config w₀ vs w) :
    vs.fenced = false ∧ ∃ l, Consistent config vs w l none := by
  induction h with
  | opened hrecover =>
    obtain ⟨hrun, hnew⟩ := h₀.reopened
    obtain rfl := (Prod.mk.inj (Prod.mk.inj (hrun.symm.trans hrecover)).1).2
    exact ⟨rfl, _, hnew⟩
  | again _ hrecover ih =>
    obtain ⟨-, l, hl⟩ := ih
    obtain ⟨hrun, hnew⟩ := hl.reopened
    obtain rfl := (Prod.mk.inj (Prod.mk.inj (hrun.symm.trans hrecover)).1).2
    exact ⟨rfl, _, hnew⟩
  | @applied vs w w' id edit result _ hfits hseals hexec ih =>
    obtain ⟨hfenced, l, hl⟩ := ih
    have halone : (vs.apply config id edit).Alone (ShakyCatalog.Reply true) (fun _ => True)
        (ApplyLeaves config vs ⟨w, false, []⟩ l none id edit) ⟨w, false, []⟩ :=
      apply_alone hl hfits fun _ _ _ _ _ _ => trivial
    have hok : result.1 = .ok := hl.apply_ok hfenced hseals hexec
    obtain ⟨-, ⟨-, happlied⟩ | ⟨hfailed, -⟩⟩ := halone.exec (exec_shaky hexec)
    · obtain ⟨l', hl', -⟩ := happlied.consistent
      exact ⟨happlied.fenced.trans hfenced, l', hl'⟩
    · exact absurd hok hfailed.1

/-- The catalog never changes again, and every instance wants to put its next edit there. -/
theorem Reopened.torn (h₀ : Stored config w l) {bytes : Bytes}
    (htorn : readEdit config l.entry.generation (l.records.length + 1) true bytes = .torn)
    (h : Reopened config (w.withEdit l.entry.generation (l.records.length + 1) bytes id) vs w') :
    w' = w.withEdit l.entry.generation (l.records.length + 1) bytes id ∧
      vs.entry = some l.entry ∧ vs.nextSeq = l.records.length + 1 := by
  have hrun := h₀.run_recover_torn id htorn
  have hseq := l.expectedSeq_assembled config
  induction h with
  | opened hrecover =>
    obtain rfl := (Prod.mk.inj (Prod.mk.inj (hrun.symm.trans hrecover)).1).2
    exact ⟨rfl, rfl, hseq⟩
  | again _ hrecover ih =>
    obtain ⟨rfl, -⟩ := ih
    obtain rfl := (Prod.mk.inj (Prod.mk.inj (hrun.symm.trans hrecover)).1).2
    exact ⟨rfl, rfl, hseq⟩
  | @applied vs w₁ w₂ id' edit result _ hfits hseals hexec ih =>
    obtain ⟨rfl, hentry, hnext⟩ := ih
    have htaken : ((w.withEdit l.entry.generation (l.records.length + 1) bytes id).edit
        l.entry.generation vs.nextSeq).isSome := by
      rw [hnext, Catalog.edit_withEdit, if_pos rfl]
      rfl
    obtain ⟨-, rfl, hentry', hnext'⟩ := apply_taken hentry hseals htaken hexec
    exact ⟨rfl, hentry'.trans hentry, hnext'.trans hnext⟩

/-- It holds the acknowledged edits, and at most the interrupted one, if all of it was written. -/
def TakesIn (vs : VersionSet ι) (id : ι) (edit : VersionEdit) (whole : Prop) (vs' : VersionSet ι) :
    Prop :=
  vs'.current.Same vs.current ∧ vs'.history = vs.history ∨
    whole ∧ vs'.current.Same (vs.current.apply (vs.stamped edit)) ∧
      vs'.history = vs.history ++ [vs.recordOf id edit]

section Crash

variable {vs : VersionSet ι} {id : ι} {edit : VersionEdit}

theorem Consistent.takesIn_kept (h : Consistent config vs w l none) (whole : Prop) :
    TakesIn vs id edit whole (({} : VersionSet ι).recovered l.entry (l.assembled config)) :=
  .inl ⟨h.current.symm, h.history.symm⟩

variable (id) in
theorem Consistent.pendingEdit (h : Consistent config vs w l none)
    (hfits : EditFits config (vs.stamped edit)) {draw : ℕ} {framed : Bytes}
    (hseal : sealPayload config.registry config.codecs l.entry.generation draw
      (editAddress l.entry.generation vs.nextSeq)
      (encodeVersionEdit config.codecs (vs.stamped edit)) = .ok framed) :
    Consistent config vs (w.withEdit l.entry.generation vs.nextSeq framed id) l
      (some (vs.recordOf id edit)) := by
  have hstored : Stored config w l := l.append_nil ▸ h.stored
  refine { h with stored := ?_, pending := ?_ }
  · rw [h.nextSeq] at hseal ⊢
    exact hstored.withEdit (r := vs.recordOf id edit) fun tail => readEdit_sealed hfits hseal tail
  · rintro r ⟨⟩
    exact ⟨hfits.representable.normalized, hfits.files⟩

theorem Consistent.takesIn_whole {w' : Catalog ι}
    (h : Consistent config vs w' l (some (vs.recordOf id edit))) {whole : Prop} (hwhole : whole) :
    TakesIn vs id edit whole (({} : VersionSet ι).recovered l.entry
      ((l.append [vs.recordOf id edit]).assembled config)) := by
  refine .inr ⟨hwhole, ?_, ?_⟩
  · rw [l.assembled_append]
    show (Version.apply _ (vs.recordOf id edit).edit).Same _
    rw [apply_recordOf]
    exact (h.current.apply (vs.stamped edit)).symm
  · rw [l.assembled_append, h.history]
    rfl

variable {draw : ℕ} {framed : Bytes}

variable (id) in
theorem Consistent.leave (h : Consistent config vs w l none)
    (hfits : EditFits config (vs.stamped edit))
    (hseal : sealPayload config.registry config.codecs l.entry.generation draw
      (editAddress l.entry.generation vs.nextSeq)
      (encodeVersionEdit config.codecs (vs.stamped edit)) = .ok framed)
    {left : Option ℕ} (hleft : ∀ n ∈ left, n ≤ framed.length) :
    ∃ vs', (recover config {}).run Catalog.answer
        (w.leave l.entry.generation vs.nextSeq framed id left) =
          ((.ok, vs'), w.leave l.entry.generation vs.nextSeq framed id left) ∧
        TakesIn vs id edit (left = some framed.length) vs' ∧
        (¬ Torn framed left → ∃ vs₀ l₀, Consistent config vs₀
          (w.leave l.entry.generation vs.nextSeq framed id left) l₀ none) := by
  have hstored : Stored config w l := l.append_nil ▸ h.stored
  cases left with
  | none =>
    obtain ⟨hrun, hnew⟩ := h.reopened
    rw [Option.toList_none, l.append_nil] at hrun hnew
    exact ⟨_, hrun, h.takesIn_kept _, fun _ => ⟨_, _, hnew⟩⟩
  | some n =>
    rcases Nat.lt_or_ge n framed.length with hcut | hall
    · have htorn := h.nextSeq ▸ readEdit_torn hfits hseal hcut
      have hrun := hstored.run_recover_torn id htorn
      rw [← h.nextSeq] at hrun
      exact ⟨_, hrun, h.takesIn_kept _, fun hnot => absurd ⟨n, rfl, hcut⟩ hnot⟩
    · have hn : n = framed.length := le_antisymm (hleft n rfl) hall
      have hwhole : w.leave l.entry.generation vs.nextSeq framed id (some n) =
          w.withEdit l.entry.generation vs.nextSeq framed id := by
        rw [Catalog.leave, List.take_of_length_le hall]
      have hpending : Consistent config vs _ l (some (vs.recordOf id edit)) :=
        h.pendingEdit id hfits hseal
      obtain ⟨hrun, hnew⟩ := hpending.reopened
      rw [hwhole]
      exact ⟨_, hrun, hpending.takesIn_whole (congrArg some hn), fun _ => ⟨_, _, hnew⟩⟩

end Crash

end VersionSet

/-- From disk the acknowledged edits are recovered, and applies succeed exactly where the file is
whole or absent; from the table exactly where no or all chunks are there. -/
theorem crashed_edit_recovers_iff {config : ManifestConfig} {vs : VersionSet ι} {w : Catalog ι}
    {allocated recorded : List ℕ} (h : HealthyRun config vs w allocated recorded) {id : ι}
    {edit : VersionEdit} {entry : CatalogEntry} {draw : ℕ} {framed : Bytes}
    (hentry : vs.entry = some entry) (hfits : VersionSet.EditFits config (vs.stamped edit))
    (hseal : sealPayload config.registry config.codecs entry.generation draw
      (editAddress entry.generation vs.nextSeq)
      (encodeVersionEdit config.codecs (vs.stamped edit)) = .ok framed) :
    (∀ left : Option ℕ, (∀ n ∈ left, n ≤ framed.length) →
      (∃ vs', (recover config {}).run Catalog.answer
          (w.leave entry.generation vs.nextSeq framed id left) =
            ((.ok, vs'), w.leave entry.generation vs.nextSeq framed id left) ∧
          vs.TakesIn id edit (left = some framed.length) vs') ∧
      ∀ vs₁ w₁, VersionSet.Reopened config (w.leave entry.generation vs.nextSeq framed id left)
          vs₁ w₁ →
        ∀ id₁ edit₁ result w₂, vs₁.ApplyFits config edit₁ → vs₁.Seals config edit₁ →
          (vs₁.apply config id₁ edit₁).Exec Catalog.Reply w₁ result w₂ →
          (result.1 = .ok ↔ ¬ Torn framed left)) ∧
    ∀ (d : DynamoCatalog ι) (writer writer' k : ℕ), d.Represents w → k ≤ ChunkItem.chunks framed →
      ((∃ vs', (recover config {}).run (DynamoCatalog.answer writer)
          (d.withItems entry.generation vs.nextSeq ((ChunkItem.all writer' framed id).take k)) =
            ((.ok, vs'), d.withItems entry.generation vs.nextSeq
              ((ChunkItem.all writer' framed id).take k)) ∧
          vs.TakesIn id edit (k = ChunkItem.chunks framed) vs') ↔
        k = 0 ∨ k = ChunkItem.chunks framed) := by
  obtain ⟨-, l, hl, -⟩ := h.consistent
  obtain rfl : l.entry = entry := Option.some.inj (hl.entry.symm.trans hentry)
  have hstored : VersionSet.Stored config w l := l.append_nil ▸ hl.stored
  refine ⟨fun left hleft => ?_, fun d writer writer' k hd hk => ⟨fun hok => ?_, fun hk' => ?_⟩⟩
  · obtain ⟨vs', hrun, htakes, hconsistent⟩ := hl.leave id hfits hseal hleft
    refine ⟨⟨vs', hrun, htakes⟩, fun vs₁ w₁ hre id₁ edit₁ result w₂ hfits₁ hseals₁ hexec => ?_⟩
    by_cases htorn : Torn framed left
    · obtain ⟨n, rfl, hcut⟩ := htorn
      have hread := readEdit_torn hfits hseal hcut
      rw [hl.nextSeq] at hread
      rw [Catalog.leave, hl.nextSeq] at hre
      obtain ⟨rfl, hentry₁, hnext₁⟩ := hre.torn hstored hread
      have htaken : ((w.withEdit l.entry.generation (l.records.length + 1) (framed.take n) id).edit
          l.entry.generation vs₁.nextSeq).isSome := by
        rw [hnext₁, Catalog.edit_withEdit, if_pos rfl]
        rfl
      have hfenced := (apply_taken hentry₁ hseals₁ htaken hexec).1
      rw [hfenced]
      exact ⟨nofun, fun hnot => absurd ⟨n, rfl, hcut⟩ hnot⟩
    · obtain ⟨vs₀, l₀, h₀⟩ := hconsistent htorn
      obtain ⟨hfenced, l₁, hl₁⟩ := hre.consistent h₀
      refine ⟨fun _ => htorn, fun _ => ?_⟩
      exact hl₁.apply_ok hfenced hseals₁ hexec
  · by_contra hne
    have hpartial := hd.run_recover_partial hstored writer writer' id
      (Nat.pos_of_ne_zero fun h => hne (.inl h)) (lt_of_le_of_ne hk fun h => hne (.inr h))
    obtain ⟨vs', hrun, -⟩ := hok
    rw [hl.nextSeq, hpartial] at hrun
    cases (Prod.mk.inj (Prod.mk.inj hrun).1).1
  · rcases hk' with rfl | rfl
    · -- no chunk is there: the table is as it was
      have hfree : d.items l.entry.generation vs.nextSeq = [] := by
        refine hd.absent _ _ (hstored.edit_eq_none ?_)
        rw [hl.nextSeq]
        exact Nat.lt_succ_self _
      have hsame : (d.withItems l.entry.generation vs.nextSeq
          ((ChunkItem.all writer' framed id).take 0)).Represents w := by
        refine hd.same fun g seq => (DynamoCatalog.items_withItems ..).trans ?_
        split_ifs with hkey
        · obtain ⟨rfl, rfl⟩ := Prod.mk.inj hkey
          exact hfree.symm
        · rfl
      exact ⟨_, hsame.run_recover hstored writer, hl.takesIn_kept _⟩
    · have hpending : VersionSet.Consistent config vs _ l (some (vs.recordOf id edit)) :=
        hl.pendingEdit id hfits hseal
      have hall : (ChunkItem.all writer' framed id).take (ChunkItem.chunks framed) =
          ChunkItem.all writer' framed id := by
        rw [List.take_of_length_le (ChunkItem.length_all ..).le]
      rw [hall]
      exact ⟨_, (hd.withItems writer' _ _ framed id).run_recover hpending.stored writer,
        hpending.takesIn_whole rfl⟩

/-- What was being put at the crash. -/
def interruptedFrame : Bytes :=
  match sealPayload (plainConfig 1).registry (plainConfig 1).codecs 1 0 (editAddress 1 1)
      (encodeVersionEdit (plainConfig 1).codecs (allocatedObject.1.stamped (fileEdit 1))) with
  | .ok framed => framed
  | .error _ => []

theorem sealPayload_interrupted :
    sealPayload (plainConfig 1).registry (plainConfig 1).codecs 1 0
      (editAddress 1 allocatedObject.1.nextSeq)
      (encodeVersionEdit (plainConfig 1).codecs (allocatedObject.1.stamped (fileEdit 1))) =
        .ok interruptedFrame := by decide +kernel

/-- Where the whole file was written, the next open takes the edit in. -/
theorem interrupted_edit_recovers :
    ∃ vs', (recover (plainConfig 1) {}).run Catalog.answer
        (allocatedObject.2.leave 1 allocatedObject.1.nextSeq interruptedFrame 1
          (some interruptedFrame.length)) =
          ((.ok, vs'), allocatedObject.2.leave 1 allocatedObject.1.nextSeq interruptedFrame 1
            (some interruptedFrame.length)) ∧
      allocatedObject.1.TakesIn 1 (fileEdit 1)
        (some interruptedFrame.length = some interruptedFrame.length) vs' := by
  have hentry : allocatedObject.1.entry = some ⟨1, 1⟩ := by decide +kernel
  have hfits : allocatedObject.1.ApplyFits (plainConfig 1) (fileEdit 1) :=
    applyFits_fileEdit (by decide) (by decide +kernel) (by decide +kernel)
  refine ((crashed_edit_recovers_iff allocatedObject_healthyRun hentry hfits.fits
    sealPayload_interrupted).1 (some interruptedFrame.length) ?_).1
  rintro n ⟨⟩
  exact le_rfl

/-- The crash left ten bytes of the file. -/
def tornDisk : Catalog ℕ :=
  allocatedObject.2.leave 1 allocatedObject.1.nextSeq interruptedFrame 1 (some 10)

/-- The next open succeeds, and its first `apply` finds the address taken. -/
theorem torn_edit_fences_store :
    HealthyRun (plainConfig 1) allocatedObject.1 allocatedObject.2 [1] [] ∧
      10 < interruptedFrame.length ∧
      ((recover (plainConfig 1) {}).run Catalog.answer tornDisk).1.1 = .ok ∧
      ((((recover (plainConfig 1) {}).run Catalog.answer tornDisk).1.2.apply
        (plainConfig 1) 2 (fileEdit 1)).run Catalog.answer tornDisk).1.1 = .fenced :=
  ⟨allocatedObject_healthyRun, by decide +kernel, by decide +kernel, by decide +kernel⟩

end ElysiumKV
