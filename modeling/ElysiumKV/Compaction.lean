import ElysiumKV.MergingIterator

/-!
# Writing the outputs of a compaction

An output is closed at the first key after it filled up, and the carried range tombstones are
clipped at those cuts. So the outputs tile the key space, hold the kept entries, and together tell
what these and the tombstones tell.
-/

namespace ElysiumKV

open List MergingIterator

/-- Inputs at `level`, and the overlapping files at `outputLevel`. -/
structure Compaction where
  level : ℕ
  outputLevel : ℕ
  inputs : List FileMetadata
  overlaps : List FileMetadata
  grandparents : List FileMetadata := []
  outputIsBottommost : Bool := false
  trivialMove : Bool := false
deriving DecidableEq, Repr

namespace Compaction

variable (c : Compaction)

/-- `all_inputs`: newest source first. -/
def allInputs : List FileMetadata := c.inputs ++ c.overlaps

/-- `min_write_time_ms`. -/
def minWriteTimeMs : ℕ :=
  c.allInputs.foldl
    (fun oldest f => if oldest = 0 ∨ f.minWriteTimeMs < oldest then f.minWriteTimeMs else oldest) 0

/-- `max_write_time_ms`. -/
def maxWriteTimeMs : ℕ :=
  c.allInputs.foldl (fun newest f => if newest < f.maxWriteTimeMs then f.maxWriteTimeMs else newest) 0

/-- `watermark`: the intervals of the inputs, merged. -/
def watermark : WatermarkInterval :=
  match c.allInputs with
  | [] => {}
  | f :: fs => fs.foldl (fun w g => w.merge g.watermark) f.watermark

/-- `largest_key`. -/
def largestKey : Key :=
  c.allInputs.foldl
    (fun largest f => if largest = [] ∨ largest < f.largestKey then f.largestKey else largest) []

end Compaction

/-- The engine's settings. `estimatedBytes level entries` is a writer's `estimated_bytes`,
`fileBytes` the size of the built file; `storeIsDiscardable` if all tiers of the store are
transient. -/
structure Options where
  targetFileBytes : ℕ → ℕ
  compression : ℕ → Compression
  estimatedBytes : ℕ → List Entry → ℕ
  fileBytes : ℕ → Sst → ℕ
  storeIsDiscardable : Bytes → Bool
  allowReadsBeforeRecovery : Bool

/-- `max_grandparent_overlap_bytes`. -/
def Options.maxGrandparentOverlapBytes (options : Options) (level : ℕ) : ℕ :=
  options.targetFileBytes level * 10

namespace Compaction

/-- The variables of the output loop; `outputs` are the closed files. -/
structure OutputState where
  writer : Option SstWriter := none
  outputLower : Option Key := none
  cutPending : Bool := false
  grandparents : List FileMetadata
  grandparentBytes : ℕ := 0
  outputs : List SstBuildResult := []

variable (carried : List RangeTombstone)

/-- `finish_output`: close the writer with its slice of the carried tombstones. -/
def finishOutput (upper : Option Key) (st : OutputState) :
    OutputState :=
  match st.writer with
  | none => st
  | some writer =>
    let built :=
      ((clipRanges carried st.outputLower upper).foldl SstWriter.addRangeTombstone writer).finish
    if built.numEntries = 0 ∧ built.numRangeTombstones = 0 then { st with writer := none }
    else { st with writer := none, outputs := st.outputs ++ [built] }

/-- The grandparents that end before the key, and their bytes. -/
def passGrandparents (key : Key) : List FileMetadata → ℕ → List FileMetadata × ℕ
  | [], bytes => ([], bytes)
  | f :: fs, bytes =>
    if f.largestKey < key then passGrandparents key fs (bytes + f.fileBytes) else (f :: fs, bytes)

/-- Close the output at `key` if a cut is pending. -/
def cutAt (key : Key) (st : OutputState) : OutputState :=
  if st.cutPending then
    { finishOutput carried (some key) st with outputLower := some key, cutPending := false }
  else st

/-- The loop body. -/
def addEntry (options : Options) (level : ℕ) (carried : List RangeTombstone) (st : OutputState)
    (e : Entry) : OutputState :=
  let st := cutAt carried e.key st
  let writer := (st.writer.getD {}).add e
  let (grandparents, bytes) := passGrandparents e.key st.grandparents st.grandparentBytes
  let full := options.targetFileBytes level ≤ options.estimatedBytes level writer.entries
  let grandparentHeavy := options.maxGrandparentOverlapBytes level < bytes
  if full ∨ grandparentHeavy then
    { st with writer := some writer, grandparents, grandparentBytes := 0, cutPending := true }
  else { st with writer := some writer, grandparents, grandparentBytes := bytes }

/-- The last output; carried tombstones without an entry get a file of their own. -/
def finishLast (st : OutputState) : List SstBuildResult :=
  let writer := if carried ≠ [] ∧ st.writer = none then some {} else st.writer
  (finishOutput carried none { st with writer }).outputs

/-- Tombstones go at the bottommost level, truncated keys at every level. -/
def keeps (dropTombstones : Bool) (truncationPoint : Key) (e : Entry) : Bool :=
  !(dropTombstones && e.type = .delete) && !(truncationPoint ≠ [] && e.key < truncationPoint)

/-- The range tombstones a compaction carries down. -/
def carriedRanges (dropTombstones : Bool) (sources : List Sst) : List RangeTombstone :=
  if dropTombstones then [] else mergeRanges (allRanges sources)

/-- `write_compaction_outputs` up to the naming of files; `sources` are the contents of `allInputs`.
-/
def writeCompactionOutputs (c : Compaction) (options : Options) (truncationPoint : Key)
    (sources : List Sst) : List SstBuildResult :=
  let carried := carriedRanges c.outputIsBottommost sources
  let kept := (merged sources).filter (keeps c.outputIsBottommost truncationPoint)
  finishLast carried
    (kept.foldl (addEntry options c.outputLevel carried) { grandparents := c.grandparents })

/-! ### Tiling

The invariant of the loop.  `keys` are the keys of the whole merge; cuts are made only at them. -/

/-- The key lies below a bound that is present. -/
def BelowCut (cut : Option Key) (k : Key) : Prop := ∃ b ∈ cut, k < b

/-- The range's bounds are keys of the merge or bounds of carried ranges. -/
def BoundedBy (keys : List Key) (r : RangeTombstone) : Prop :=
  (r.lower ∈ keys ∨ ∃ u ∈ carried, r.lower = u.lower) ∧
    (r.upper ∈ keys ∨ ∃ u ∈ carried, r.upper = u.upper)

/-- Closed outputs hold the entries `done` and the part of `carried` in `covers`. -/
structure Tiles (carried : List RangeTombstone) (keys : List Key) (done : List Entry)
    (covers : Key → Prop) (outs : List SstBuildResult) : Prop where
  entries : (outs.flatMap fun o => o.sst.entries) = done
  closed : ∀ o ∈ outs, o.Describes ∧ o.sst.WellFormed
  before : outs.Pairwise fun o p => Span.Before o.sst.cells p.sst.cells
  covered : ∀ k, (∃ o ∈ outs, Span.Covered o.sst.ranges k) ↔ Span.Covered carried k ∧ covers k
  bounds : ∀ o ∈ outs, ∀ r ∈ o.sst.ranges, BoundedBy carried keys r

/-- The closed outputs hold `closed`, the open one `current`. -/
structure Tiling (carried : List RangeTombstone) (keys : List Key) (closed current : List Entry)
    (st : OutputState) : Prop where
  tiles : Tiles carried keys closed (BelowCut st.outputLower) st.outputs
  below : ∀ o ∈ st.outputs, ∀ c ∈ o.sst.cells, ∃ b ∈ st.outputLower, c.upper ≤ atKey b
  above : ∀ e ∈ current, ∀ b ∈ st.outputLower, b ≤ e.key
  lower : ∀ b ∈ st.outputLower, b ∈ keys
  accurate : (st.writer.getD {}).Accurate
  writerEntries : (st.writer.getD {}).entries = current
  writerRanges : (st.writer.getD {}).ranges = []
  open_iff : st.writer = none ↔ current = []
  fresh : st.writer = none → st.outputLower = none
  pending : st.cutPending = true → current ≠ []

/-- The output that `finish_output` builds. -/
def slice (upper : Option Key) (st : OutputState) :
    SstBuildResult :=
  ((clipRanges carried st.outputLower upper).foldl SstWriter.addRangeTombstone
    (st.writer.getD {})).finish

variable {carried} {keys : List Key} {closed current : List Entry}
  {st : OutputState}

theorem Tiling.slice_spec (h : Tiling carried keys closed current st) (upper : Option Key) :
    (slice carried upper st).Describes ∧
      (slice carried upper st).sst = ⟨current, clipRanges carried st.outputLower upper⟩ := by
  obtain ⟨hacc, hentries, hranges⟩ :=
    SstWriter.foldl_addRangeTombstone_spec (clipRanges carried st.outputLower upper) h.accurate
  refine ⟨hacc.finish_describes, ?_⟩
  simp only [slice, SstWriter.finish, hentries, hranges, h.writerEntries, h.writerRanges,
    nil_append]

variable {lower upper : Option Key}

theorem slice_wellFormed (hc : Span.Tidy carried) (hs : SortedMap.Sorted Entry.key current)
    (hne : current ≠ [] ∨ clipRanges carried lower upper ≠ []) :
    Sst.WellFormed ⟨current, clipRanges carried lower upper⟩ :=
  ⟨hs, hc.clip lower upper, hne⟩

theorem slice_above (h : ∀ e ∈ current, ∀ b ∈ lower, b ≤ e.key) {c : Span Edge}
    (hc : c ∈ Sst.cells ⟨current, clipRanges carried lower upper⟩) :
    ∀ b ∈ lower, atKey b ≤ c.lower := by
  intro b hb
  rcases Sst.mem_cells.1 hc with ⟨e, he, rfl⟩ | ⟨r, hr, rfl⟩
  · exact atKey_le_atKey.2 (h e he b hb)
  · obtain ⟨u, -, hu⟩ := Span.mem_clip.1 hr
    exact atKey_le_atKey.2 ((Span.clipOne_sub hu).2.2.2.1 b hb)

theorem slice_below (h : ∀ e ∈ current, ∀ u ∈ upper, e.key < u) {c : Span Edge}
    (hc : c ∈ Sst.cells ⟨current, clipRanges carried lower upper⟩) :
    ∀ u ∈ upper, c.upper ≤ atKey u := by
  intro u hu
  rcases Sst.mem_cells.1 hc with ⟨e, he, rfl⟩ | ⟨r, hr, rfl⟩
  · exact aboveKey_le_atKey.2 (h e he u hu)
  · obtain ⟨v, -, hv⟩ := Span.mem_clip.1 hr
    exact atKey_le_atKey.2 ((Span.clipOne_sub hv).2.2.2.2 u hu)

theorem Tiling.close (h : Tiling carried keys closed current st) (hc : Span.Tidy carried)
    (hs : SortedMap.Sorted Entry.key current)
    (hne : current ≠ [] ∨ clipRanges carried st.outputLower upper ≠ [])
    (hupper : ∀ u ∈ upper, u ∈ keys ∧ ∀ b ∈ st.outputLower, b ≤ u) :
    Tiles carried keys (closed ++ current) (fun k => ∀ u ∈ upper, k < u)
      (st.outputs ++ [slice carried upper st]) := by
  obtain ⟨hdesc, hsst⟩ := h.slice_spec upper
  have hslice : ∀ o ∈ st.outputs ++ [slice carried upper st],
      o ∈ st.outputs ∨ o = slice carried upper st := by simp
  refine ⟨?_, ?_, ?_, ?_, ?_⟩
  · simp [h.tiles.entries, hsst]
  · intro o ho
    rcases hslice o ho with ho | rfl
    · exact h.tiles.closed o ho
    · exact ⟨hdesc, hsst ▸ slice_wellFormed hc hs hne⟩
  · refine pairwise_append.2 ⟨h.tiles.before, pairwise_singleton _ _, ?_⟩
    intro o ho p hp
    obtain rfl := mem_singleton.1 hp
    intro c hcell d hd
    obtain ⟨b, hb, hle⟩ := h.below o ho c hcell
    rw [hsst] at hd
    exact hle.trans (slice_above h.above hd b hb)
  · intro k
    have hnew : Span.Covered (slice carried upper st).sst.ranges k ↔
        Span.Covered carried k ∧ Span.Within st.outputLower upper k := by
      rw [hsst]
      exact Span.covered_clip _ _ _ _
    have hsplit : (∃ o ∈ st.outputs ++ [slice carried upper st], Span.Covered o.sst.ranges k) ↔
        (∃ o ∈ st.outputs, Span.Covered o.sst.ranges k) ∨
          Span.Covered (slice carried upper st).sst.ranges k := by
      simp only [mem_append, mem_singleton, or_and_right, exists_or, exists_eq_left]
    rw [hsplit, h.tiles.covered, hnew, ← and_or_left]
    refine and_congr_right fun _ => ?_
    constructor
    · rintro (⟨b, hb, hkb⟩ | hw)
      · exact fun u hu => hkb.trans_le ((hupper u hu).2 b hb)
      · exact hw.2
    · intro hk
      cases hlower : st.outputLower with
      | none => exact .inr ⟨by simp, hk⟩
      | some b =>
        rcases lt_or_ge k b with hkb | hkb
        · exact .inl ⟨b, rfl, hkb⟩
        · exact .inr ⟨by simpa using hkb, hk⟩
  · intro o ho r hr
    rcases hslice o ho with ho | rfl
    · exact h.tiles.bounds o ho r hr
    · rw [hsst] at hr
      obtain ⟨u, hu, hur⟩ := Span.mem_clip.1 hr
      obtain ⟨hlow, hhigh⟩ := Span.clipOne_bounds hur
      exact ⟨hlow.elim (fun h => .inr ⟨u, hu, h⟩) fun hm => .inl (h.lower _ hm),
        hhigh.elim (fun h => .inr ⟨u, hu, h⟩) fun hm => .inl (hupper _ hm).1⟩

theorem Tiling.slice_nonempty (h : Tiling carried keys closed current st)
    (hne : current ≠ [] ∨ clipRanges carried st.outputLower upper ≠ []) :
    ¬ ((slice carried upper st).numEntries = 0 ∧
      (slice carried upper st).numRangeTombstones = 0) := by
  obtain ⟨hdesc, hsst⟩ := h.slice_spec upper
  rw [hdesc.numEntries, hdesc.numRangeTombstones, hsst]
  simp only [length_eq_zero_iff]
  rintro ⟨hcur, hclip⟩
  exact hne.elim (absurd hcur) (absurd hclip)

theorem finishOutput_eq (hw : st.writer ≠ none)
    (hne : ¬ ((slice carried upper st).numEntries = 0 ∧
      (slice carried upper st).numRangeTombstones = 0)) :
    finishOutput carried upper st =
      { st with writer := none, outputs := st.outputs ++ [slice carried upper st] } := by
  obtain ⟨w, hw⟩ := Option.ne_none_iff_exists'.1 hw
  have hslice : slice carried upper st =
      ((clipRanges carried st.outputLower upper).foldl SstWriter.addRangeTombstone w).finish := by
    simp [slice, hw]
  unfold finishOutput
  simp only [hw, ← hslice]
  rw [if_neg hne]

section Loop

variable (options : Options) (level : ℕ)

theorem addEntry_fields (carried : List RangeTombstone) (st : OutputState) (e : Entry) :
    (addEntry options level carried st e).outputs = (cutAt carried e.key st).outputs ∧
      (addEntry options level carried st e).outputLower = (cutAt carried e.key st).outputLower ∧
      (addEntry options level carried st e).writer =
        some (((cutAt carried e.key st).writer.getD {}).add e) := by
  unfold addEntry
  simp only
  split_ifs <;> exact ⟨rfl, rfl, rfl⟩

theorem Tiling.cutAt_pending (h : Tiling carried keys closed current st)
    (hp : st.cutPending = true) (key : Key) :
    cutAt carried key st =
      { st with
        writer := none
        outputs := st.outputs ++ [slice carried (some key) st]
        outputLower := some key
        cutPending := false } := by
  have hcur : current ≠ [] := h.pending hp
  have hw : st.writer ≠ none := fun hw => hcur (h.open_iff.1 hw)
  unfold cutAt
  rw [if_pos hp, finishOutput_eq hw (h.slice_nonempty (.inl hcur))]

theorem Tiling.addEntry (h : Tiling carried keys closed current st) (hc : Span.Tidy carried)
    {e : Entry} (hs : SortedMap.Sorted Entry.key (closed ++ current ++ [e])) (he : e.key ∈ keys) :
    ∃ closed' current', closed' ++ current' = closed ++ current ++ [e] ∧
      Tiling carried keys closed' current' (addEntry options level carried st e) := by
  obtain ⟨houtputs, hlower, hwriter⟩ := addEntry_fields options level carried st e
  obtain ⟨hsdone, -, hlt⟩ := pairwise_append.1 hs
  have hscur : SortedMap.Sorted Entry.key current := (pairwise_append.1 hsdone).2.1
  have hkey : ∀ f ∈ current, f.key < e.key :=
    fun f hf => hlt f (mem_append_right _ hf) e (by simp)
  cases hp : st.cutPending with
  | false =>
    have hcut : cutAt carried e.key st = st := by simp [cutAt, hp]
    rw [hcut] at houtputs hlower hwriter
    have hbound : ∀ b ∈ st.outputLower, b ≤ e.key := by
      intro b hb
      cases hcur : current with
      | nil => simp [h.fresh (h.open_iff.2 hcur)] at hb
      | cons f fs =>
        have hf : f ∈ current := by simp [hcur]
        exact (h.above f hf b hb).trans (hkey f hf).le
    refine ⟨closed, current ++ [e], by simp, ?_⟩
    refine ⟨?_, ?_, ?_, ?_, ?_, ?_, ?_, ?_, ?_, ?_⟩
    · rw [houtputs, hlower]
      exact h.tiles
    · rw [houtputs, hlower]
      exact h.below
    · rw [hlower]
      intro f hf b hb
      rcases mem_append.1 hf with hf | hf
      · exact h.above f hf b hb
      · obtain rfl := mem_singleton.1 hf
        exact hbound b hb
    · rw [hlower]
      exact h.lower
    · rw [hwriter]
      exact h.accurate.add e
    · rw [hwriter]
      simp [SstWriter.add, h.writerEntries]
    · rw [hwriter]
      exact h.writerRanges
    · simp [hwriter]
    · simp [hwriter]
    · simp
  | true =>
    rw [h.cutAt_pending hp e.key] at houtputs hlower hwriter
    have hcur : current ≠ [] := h.pending hp
    have hupper : ∀ u ∈ some e.key, u ∈ keys ∧ ∀ b ∈ st.outputLower, b ≤ u := by
      intro u hu
      obtain rfl := Option.some.inj hu
      obtain ⟨f, hf⟩ := exists_mem_of_ne_nil current hcur
      exact ⟨he, fun b hb => (h.above f hf b hb).trans (hkey f hf).le⟩
    have htiles := h.close hc hscur (.inl hcur) hupper
    refine ⟨closed ++ current, [e], rfl, ?_⟩
    refine ⟨?_, ?_, ?_, ?_, ?_, ?_, ?_, ?_, ?_, ?_⟩
    · rw [houtputs, hlower]
      have hcovers : (fun k => ∀ u ∈ some e.key, k < u) = BelowCut (some e.key) := by
        funext k
        simp [BelowCut]
      rwa [hcovers] at htiles
    · rw [houtputs, hlower]
      intro o ho c hcell
      refine ⟨e.key, rfl, ?_⟩
      rcases mem_append.1 ho with ho | ho
      · obtain ⟨b, hb, hle⟩ := h.below o ho c hcell
        exact hle.trans (atKey_le_atKey.2 ((hupper e.key rfl).2 b hb))
      · obtain rfl := mem_singleton.1 ho
        rw [(h.slice_spec (some e.key)).2] at hcell
        refine slice_below (fun f hf u hu => ?_) hcell e.key rfl
        obtain rfl := Option.some.inj hu
        exact hkey f hf
    · rw [hlower]
      intro f hf b hb
      obtain rfl := mem_singleton.1 hf
      obtain rfl := Option.some.inj hb
      exact le_rfl
    · rw [hlower]
      intro b hb
      obtain rfl := Option.some.inj hb
      exact he
    · rw [hwriter]
      exact SstWriter.accurate_empty.add e
    · rw [hwriter]
      rfl
    · rw [hwriter]
      rfl
    · simp [hwriter]
    · simp [hwriter]
    · simp

theorem tiling_initial (carried : List RangeTombstone) (keys : List Key)
    (grandparents : List FileMetadata) : Tiling carried keys [] [] { grandparents } where
  tiles := ⟨rfl, by simp, List.Pairwise.nil, by simp [BelowCut], by simp⟩
  below := by simp
  above := by simp
  lower := by simp
  accurate := SstWriter.accurate_empty
  writerEntries := rfl
  writerRanges := rfl
  open_iff := by simp
  fresh := fun _ => rfl
  pending := by simp

theorem Tiling.foldl (hc : Span.Tidy carried) (entries : List Entry) {closed current : List Entry}
    {st : OutputState} (h : Tiling carried keys closed current st)
    (hs : SortedMap.Sorted Entry.key (closed ++ current ++ entries))
    (hkeys : ∀ e ∈ entries, e.key ∈ keys) :
    ∃ closed' current', closed' ++ current' = closed ++ current ++ entries ∧
      Tiling carried keys closed' current'
        (entries.foldl (Compaction.addEntry options level carried) st) := by
  induction entries generalizing closed current st with
  | nil => exact ⟨closed, current, by simp, h⟩
  | cons e entries ih =>
    have hs' : SortedMap.Sorted Entry.key ((closed ++ current ++ [e]) ++ entries) := by
      simpa using hs
    obtain ⟨closed₁, current₁, heq, h₁⟩ := h.addEntry options level hc
      (pairwise_append.1 hs').1 (hkeys e (by simp))
    rw [← heq] at hs'
    obtain ⟨closed₂, current₂, heq₂, h₂⟩ :=
      ih h₁ hs' fun f hf => hkeys f (mem_cons_of_mem _ hf)
    refine ⟨closed₂, current₂, ?_, h₂⟩
    rw [heq₂, heq]
    simp

end Loop

section Outputs

variable (c : Compaction) (options : Options) (truncationPoint : Key) {sources : List Sst}

/-- The entries the compaction keeps of its sources. -/
def kept (sources : List Sst) : List Entry :=
  (merged sources).filter (keeps c.outputIsBottommost truncationPoint)

theorem tidy_carriedRanges (dropTombstones : Bool) (sources : List Sst) :
    Span.Tidy (carriedRanges dropTombstones sources) := by
  unfold carriedRanges
  split_ifs
  · exact Span.tidy_nil
  · exact Span.tidy_unite _

theorem sorted_kept (h : MergingIterator.Ordered sources) :
    SortedMap.Sorted Entry.key (kept c truncationPoint sources) :=
  (merges_merged h).sorted.filter _

theorem clipRanges_ne_nil (hc : Span.Tidy carried) (hne : carried ≠ []) :
    clipRanges carried none none ≠ [] := by
  obtain ⟨r, hr⟩ := exists_mem_of_ne_nil carried hne
  have hclip : Span.clipOne none none r = some r :=
    Span.clipOne_eq_some.2 ⟨hc.nonempty r hr, rfl, rfl⟩
  exact ne_nil_of_mem (Span.mem_clip.2 ⟨r, hr, hclip⟩)

theorem Tiling.finishLast (h : Tiling carried keys closed current st) (hc : Span.Tidy carried)
    (hs : SortedMap.Sorted Entry.key current) :
    Tiles carried keys (closed ++ current) (fun _ => True) (finishLast carried st) := by
  have hall : (fun k : Key => ∀ u ∈ (none : Option Key), k < u) = fun _ => True := by
    funext k
    simp
  unfold Compaction.finishLast
  cases hw : st.writer with
  | some w =>
    have hcur : current ≠ [] := fun hcur => by simp [h.open_iff.2 hcur] at hw
    have hne : st.writer ≠ none := by simp [hw]
    simp only [reduceCtorEq, and_false, if_false]
    rw [← hw, finishOutput_eq hne (h.slice_nonempty (.inl hcur)), ← hall]
    exact h.close hc hs (.inl hcur) (by simp)
  | none =>
    have hcur := h.open_iff.1 hw
    by_cases hcarried : carried = []
    · -- nothing is open and nothing is carried
      subst hcarried
      simp only [ne_eq, not_true_eq_false, false_and, if_false, finishOutput]
      rw [hcur, append_nil]
      exact ⟨h.tiles.entries, h.tiles.closed, h.tiles.before,
        fun k => by simp [h.tiles.covered], h.tiles.bounds⟩
    · have hne : current ≠ [] ∨ clipRanges carried st.outputLower none ≠ [] := by
        rw [h.fresh hw]
        exact .inr (clipRanges_ne_nil hc hcarried)
      simp only [ne_eq, hcarried, not_false_eq_true, and_self, if_true]
      have hslice : slice carried none { st with writer := some {} } = slice carried none st := by
        simp [slice, hw]
      rw [finishOutput_eq (by simp) (hslice ▸ h.slice_nonempty hne), hslice, ← hall]
      exact h.close hc hs hne (by simp)

/-- The outputs hold exactly the kept entries and the carried range tombstones. -/
theorem tiles_writeCompactionOutputs (h : MergingIterator.Ordered sources) :
    Tiles (carriedRanges c.outputIsBottommost sources)
      ((kept c truncationPoint sources).map Entry.key) (kept c truncationPoint sources)
      (fun _ => True) (writeCompactionOutputs c options truncationPoint sources) := by
  have hc := tidy_carriedRanges c.outputIsBottommost sources
  have hs := sorted_kept c truncationPoint h
  obtain ⟨closed, current, heq, htiling⟩ :=
    (tiling_initial (carriedRanges c.outputIsBottommost sources)
      ((kept c truncationPoint sources).map Entry.key) c.grandparents).foldl options c.outputLevel
      hc (kept c truncationPoint sources) (by simpa using hs) fun e he => mem_map_of_mem he
  rw [nil_append, nil_append] at heq
  have hscur : SortedMap.Sorted Entry.key current := (pairwise_append.1 (heq ▸ hs)).2.1
  have htiles := htiling.finishLast hc hscur
  rwa [heq] at htiles

theorem Tiles.findSome?_tells {done : List Entry} {outs : List SstBuildResult}
    (h : Tiles carried keys done (fun _ => True) outs) (hs : SortedMap.Sorted Entry.key done)
    (k : Key) :
    (outs.map SstBuildResult.sst).findSome? (fun s => s.tells k) = tells done carried k := by
  cases hfind : findEntry k done with
  | some e =>
    obtain ⟨hmem, hek⟩ := (SortedMap.find_eq_some_iff Entry.key hs).1 hfind
    rw [← h.entries, mem_flatMap] at hmem
    obtain ⟨o, ho, heo⟩ := hmem
    have hotells : o.sst.tells k = some e.found :=
      tells_of_find ((SortedMap.find_eq_some_iff Entry.key (h.closed o ho).2.sorted).2 ⟨heo, hek⟩) _
    -- no other tile speaks about the key
    have hagree : ∀ p ∈ outs, p.sst.tells k = none ∨ p.sst.tells k = o.sst.tells k := by
      intro p hp
      have hpair : ∀ x ∈ outs, ∀ y ∈ outs,
          x.sst.tells k = none ∨ y.sst.tells k = none ∨ x.sst.tells k = y.sst.tells k := by
        intro x hx y hy
        have hR : outs.Pairwise fun x y =>
            x.sst.tells k = none ∨ y.sst.tells k = none ∨ x.sst.tells k = y.sst.tells k :=
          h.before.imp fun hxy => (Sst.tells_of_before hxy k).imp_right .inl
        refine hR.forall_of_forall_of_flip (fun x _ => .inr (.inr rfl)) ?_ hx hy
        exact hR.imp fun hxy => by tauto
      rcases hpair p hp o ho with hnone | hnone | heq
      · exact .inl hnone
      · rw [hotells] at hnone
        cases hnone
      · exact .inr heq
    rw [tells_of_find hfind, List.findSome?_map]
    refine Newest.findSome?_eq_of_agree _ ho hotells fun p hp b hb => ?_
    simp only [Function.comp_apply] at hb
    rcases hagree p hp with hnone | heq
    · rw [hnone] at hb
      cases hb
    · rw [heq, hotells] at hb
      exact (Option.some.inj hb).symm
  | none =>
    have hno : ∀ s ∈ outs.map SstBuildResult.sst, ∀ e ∈ s.entries, e.key ≠ k := by
      intro s hs' e he
      obtain ⟨o, ho, rfl⟩ := mem_map.1 hs'
      have hmem : e ∈ done := h.entries ▸ mem_flatMap.2 ⟨o, ho, he⟩
      exact (SortedMap.find_eq_none_iff Entry.key).1 hfind e hmem
    have hcov : Span.Covered (allRanges (outs.map SstBuildResult.sst)) k ↔
        Span.Covered carried k := by
      rw [covered_allRanges]
      simpa using h.covered k
    rw [findSome?_tells_of_no_entry hno, tells_of_find_none hfind]
    simp only [hcov]

variable {k : Key}

theorem findEntry_kept_of_put (h : MergingIterator.Ordered sources) {e : Entry}
    (hk : truncationPoint ≤ k) (hfind : findEntry k (merged sources) = some e)
    (he : c.outputIsBottommost = false ∨ e.type = .put) :
    findEntry k (kept c truncationPoint sources) = some e := by
  have hm := (merges_merged h).sorted
  obtain ⟨hmem, rfl⟩ := (SortedMap.find_eq_some_iff Entry.key hm).1 hfind
  refine (SortedMap.find_eq_some_iff Entry.key (sorted_kept c truncationPoint h)).2 ⟨?_, rfl⟩
  have hnlt : ¬ e.key < truncationPoint := not_lt.2 hk
  refine mem_filter.2 ⟨hmem, ?_⟩
  rcases he with hb | ht
  · simp [keeps, hb, hnlt]
  · simp [keeps, ht, hnlt]

theorem findEntry_kept_of_none (hfind : findEntry k (merged sources) = none) :
    findEntry k (kept c truncationPoint sources) = none := by
  rw [findEntry, SortedMap.find_eq_none_iff] at hfind ⊢
  exact fun e he => hfind e (mem_of_mem_filter he)

/-- Above the bottom, the outputs tell what a newest-first search of the sources finds. -/
theorem findSome?_outputs (h : MergingIterator.Ordered sources)
    (hb : c.outputIsBottommost = false) (hk : truncationPoint ≤ k) :
    ((writeCompactionOutputs c options truncationPoint sources).map SstBuildResult.sst).findSome?
        (fun s => s.tells k) = sources.findSome? fun s => s.tells k := by
  rw [(tiles_writeCompactionOutputs c options truncationPoint h).findSome?_tells
    (sorted_kept c truncationPoint h), ← (merges_merged h).tells k]
  have hcarried : carriedRanges c.outputIsBottommost sources =
      mergeRanges (allRanges sources) := by simp [carriedRanges, hb]
  refine tells_congr ?_ (by rw [hcarried, mergeRanges, Span.covered_unite])
  cases hfind : findEntry k (merged sources) with
  | none => exact findEntry_kept_of_none c truncationPoint hfind
  | some e => exact findEntry_kept_of_put c truncationPoint h hk hfind (.inl hb)

theorem findSome?_outputs_bottommost (h : MergingIterator.Ordered sources)
    (hb : c.outputIsBottommost = true) (hk : truncationPoint ≤ k) :
    ((writeCompactionOutputs c options truncationPoint sources).map SstBuildResult.sst).findSome?
        (fun s => s.tells k) =
      dropGone (sources.findSome? fun s => s.tells k) := by
  rw [(tiles_writeCompactionOutputs c options truncationPoint h).findSome?_tells
    (sorted_kept c truncationPoint h), ← (merges_merged h).tells k]
  have hcarried : carriedRanges c.outputIsBottommost sources = [] := by simp [carriedRanges, hb]
  rw [hcarried]
  cases hfind : findEntry k (merged sources) with
  | none =>
    rw [tells_of_find_none (findEntry_kept_of_none c truncationPoint hfind),
      tells_of_find_none hfind]
    split_ifs <;> simp_all [dropGone]
  | some e =>
    rw [tells_of_find hfind]
    cases ht : e.type with
    | put =>
      rw [tells_of_find (findEntry_kept_of_put c truncationPoint h hk hfind (.inr ht))]
      simp [Entry.found, ht, dropGone]
    | delete =>
      have hnone : findEntry k (kept c truncationPoint sources) = none := by
        have hm := (merges_merged h).sorted
        obtain ⟨-, hek⟩ := (SortedMap.find_eq_some_iff Entry.key hm).1 hfind
        rw [findEntry, SortedMap.find_eq_none_iff]
        intro f hf hfk
        obtain ⟨hfm, hkeep⟩ := mem_filter.1 hf
        have : findEntry k (merged sources) = some f :=
          (SortedMap.find_eq_some_iff Entry.key hm).2 ⟨hfm, hfk⟩
        obtain rfl : e = f := Option.some.inj (hfind.symm.trans this)
        simp [keeps, hb, ht] at hkeep
      rw [tells_of_find_none hnone]
      simp [Entry.found, ht, dropGone]

theorem outputs_within_sources (h : MergingIterator.Ordered sources) {o : SstBuildResult}
    (ho : o ∈ writeCompactionOutputs c options truncationPoint sources) {x : Span Edge}
    (hx : x ∈ o.sst.cells) :
    (∃ s ∈ sources, ∃ d ∈ s.cells, d.lower ≤ x.lower) ∧
      ∃ s ∈ sources, ∃ d ∈ s.cells, x.upper ≤ d.upper := by
  have htiles := tiles_writeCompactionOutputs c options truncationPoint h
  have hentry : ∀ e ∈ kept c truncationPoint sources, ∃ s ∈ sources, entryCell e ∈ s.cells := by
    intro e he
    obtain ⟨s, hs, hes⟩ := (merges_merged h).mem e (mem_of_mem_filter he)
    exact ⟨s, hs, Sst.mem_cells.2 (.inl ⟨e, hes, rfl⟩)⟩
  have hkey : ∀ k ∈ (kept c truncationPoint sources).map Entry.key,
      ∃ s ∈ sources, ∃ d ∈ s.cells, d.lower = atKey k ∧ atKey k ≤ d.upper := by
    intro k hk
    obtain ⟨e, he, rfl⟩ := mem_map.1 hk
    obtain ⟨s, hs, hd⟩ := hentry e he
    exact ⟨s, hs, entryCell e, hd, rfl, atKey_le_aboveKey.2 le_rfl⟩
  have hrange : ∀ u ∈ allRanges sources, ∃ s ∈ sources, rangeCell u ∈ s.cells := by
    intro u hu
    obtain ⟨s, hs, hus⟩ := mem_flatMap.1 hu
    exact ⟨s, hs, Sst.mem_cells.2 (.inr ⟨u, hus, rfl⟩)⟩
  have hcarried : ∀ u ∈ carriedRanges c.outputIsBottommost sources,
      (∃ v ∈ allRanges sources, u.lower = v.lower) ∧
        ∃ v ∈ allRanges sources, u.upper = v.upper := by
    intro u hu
    unfold carriedRanges at hu
    split_ifs at hu
    · simp at hu
    · exact Span.mem_unite hu
  rcases Sst.mem_cells.1 hx with ⟨e, he, rfl⟩ | ⟨r, hr, rfl⟩
  · have hmem : e ∈ kept c truncationPoint sources :=
      htiles.entries ▸ mem_flatMap.2 ⟨o, ho, he⟩
    obtain ⟨s, hs, hd⟩ := hentry e hmem
    exact ⟨⟨s, hs, _, hd, le_rfl⟩, s, hs, _, hd, le_rfl⟩
  · obtain ⟨hlow, hhigh⟩ := htiles.bounds o ho r hr
    constructor
    · rcases hlow with hk | ⟨u, hu, heq⟩
      · obtain ⟨s, hs, d, hd, hdk, -⟩ := hkey _ hk
        exact ⟨s, hs, d, hd, hdk.le⟩
      · obtain ⟨⟨v, hv, hvu⟩, -⟩ := hcarried u hu
        obtain ⟨s, hs, hd⟩ := hrange v hv
        exact ⟨s, hs, _, hd, atKey_le_atKey.2 (heq.trans hvu).ge⟩
    · rcases hhigh with hk | ⟨u, hu, heq⟩
      · obtain ⟨s, hs, d, hd, -, hdk⟩ := hkey _ hk
        exact ⟨s, hs, d, hd, hdk⟩
      · obtain ⟨-, v, hv, hvu⟩ := hcarried u hu
        obtain ⟨s, hs, hd⟩ := hrange v hv
        exact ⟨s, hs, _, hd, atKey_le_atKey.2 (heq.trans hvu).le⟩

end Outputs

end Compaction

end ElysiumKV
