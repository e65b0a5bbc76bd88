import ElysiumKV.Sst
import ElysiumKV.Lib.Merge

/-!
# The merging iterator, forward

Over children ordered newest first. What it yields, with the children's range tombstones, tells of
every key what a newest-first search finds (`merges_merged`).
-/

namespace ElysiumKV

open List

/-- A child is the entries it has ahead and its range tombstones. -/
structure MergingIterator where
  children : List Sst
  current : Option ℕ
deriving DecidableEq, Repr

namespace MergingIterator

variable (children : List Sst)

/-- The entry a child stands on. -/
def headAt (i : ℕ) : Option Entry :=
  (children[i]?).bind fun c => c.entries.head?

/-- One iteration of `pick_smallest_raw`: a tie stays on the earlier child. -/
def pickStep (current : Option ℕ) (i : ℕ) : Option ℕ :=
  match headAt children i with
  | none => current
  | some e => match current.bind (headAt children) with
    | none => some i
    | some c => if e.key < c.key then some i else current

/-- `pick_smallest_raw`. -/
def pickSmallestRaw : Option ℕ :=
  (List.range children.length).foldl (pickStep children) none

/-- A child steps over the key. -/
def advance (key : Key) (c : Sst) : Sst :=
  match c.entries with
  | [] => c
  | e :: rest => if e.key = key then { c with entries := rest } else c

/-- `step_forward`. -/
def stepForward (key : Key) : List Sst := children.map (advance key)

/-- `shadowed`: a strictly newer child's range covers the key. -/
def shadowed (current : ℕ) (key : Key) : Bool :=
  (children.take current).any fun c => c.rangeDeletes key

/-- The entries left. -/
def ahead : ℕ := (children.map fun c => c.entries.length).sum

/-- `pick_smallest`; it skips at most what is ahead. -/
def pickSmallest : ℕ → List Sst → MergingIterator
  | 0, children => ⟨children, none⟩
  | fuel + 1, children =>
    match pickSmallestRaw children with
    | none => ⟨children, none⟩
    | some i => match headAt children i with
      | none => ⟨children, none⟩
      | some e =>
        if shadowed children i e.key then pickSmallest fuel (stepForward children e.key)
        else ⟨children, some i⟩

/-- `seek_to_first`. -/
def seekToFirst : MergingIterator := pickSmallest (ahead children) children

variable (it : MergingIterator)

/-- The entry it stands on, if valid. -/
def currentEntry : Option Entry := it.current.bind (headAt it.children)

/-- `next`. -/
def next : MergingIterator :=
  match it.currentEntry with
  | none => it
  | some e =>
    let children := stepForward it.children e.key
    pickSmallest (ahead children) children

/-- The entries of so many steps. -/
def yields : ℕ → MergingIterator → List Entry
  | 0, _ => []
  | fuel + 1, it => match it.currentEntry with
    | none => []
    | some e => e :: yields fuel it.next

/-- All entries of a pass. -/
def merged : List Entry := yields (ahead children) (seekToFirst children)

/-! ### As a newest-first merge -/

/-- A child covers the keys of its range tombstones. -/
def child (c : Sst) : Merge.Child (List Entry) Key := ⟨c.entries, c.rangeDeletes⟩

/-- As a state of the library's merge. -/
def toMerge : Merge.State (List Entry) Key :=
  ⟨it.children.map child, it.current⟩

/-- A list of entries as a cursor. -/
abbrev entryCursor : Merge.Cursor (List Entry) Entry := Merge.listCursor Entry

theorem headAt_eq (i : ℕ) :
    headAt children i = Merge.headAt entryCursor (children.map child) i := by
  unfold headAt Merge.headAt
  rw [List.getElem?_map, Option.bind_map]
  rfl

theorem pickSmallestRaw_eq :
    pickSmallestRaw children = Merge.pickRaw entryCursor Entry.key (children.map child) := by
  have hstep : pickStep children = Merge.pickStep entryCursor Entry.key (children.map child) := by
    funext current i
    unfold pickStep Merge.pickStep
    rw [headAt_eq, funext (headAt_eq children)]
    cases Merge.headAt entryCursor (children.map child) i with
    | none => rfl
    | some e => cases current.bind (Merge.headAt entryCursor (children.map child)) with
      | none => rfl
      | some c => by_cases h : e.key < c.key <;> simp [h]
  unfold pickSmallestRaw Merge.pickRaw
  rw [hstep, length_map]

theorem child_advance (key : Key) (c : Sst) :
    child (advance key c) = Merge.advance entryCursor Entry.key key (child c) := by
  unfold advance Merge.advance
  cases hent : c.entries with
  | nil => simp [child, hent, Merge.listCursor]
  | cons e rest =>
    simp only [child, hent, Merge.listCursor, List.head?_cons]
    split_ifs
    · rfl
    · rw [hent]

theorem stepForward_eq (key : Key) :
    (stepForward children key).map child =
      Merge.step entryCursor Entry.key (children.map child) key := by
  unfold stepForward Merge.step
  rw [map_map, map_map]
  exact map_congr_left fun c _ => child_advance key c

theorem shadowed_eq (current : ℕ) (key : Key) :
    shadowed children current key = Merge.shadowed (children.map child) current key := by
  unfold shadowed Merge.shadowed
  rw [← map_take, any_map]
  rfl

theorem ahead_eq : ahead children = Merge.remaining entryCursor (children.map child) := by
  unfold ahead Merge.remaining
  rw [map_map]
  rfl

theorem pickSmallest_eq (fuel : ℕ) (children : List Sst) :
    (pickSmallest fuel children).toMerge =
      Merge.pick entryCursor Entry.key fuel (children.map child) := by
  induction fuel generalizing children with
  | zero => rfl
  | succ fuel ih =>
    unfold pickSmallest Merge.pick
    rw [← pickSmallestRaw_eq]
    cases pickSmallestRaw children with
    | none => rfl
    | some i =>
      simp only
      rw [← headAt_eq]
      cases headAt children i with
      | none => rfl
      | some e =>
        simp only
        rw [← shadowed_eq, ← stepForward_eq, ← ih]
        split_ifs <;> rfl

theorem currentEntry_eq : it.currentEntry = it.toMerge.element entryCursor := by
  unfold currentEntry Merge.State.element
  rw [funext (headAt_eq it.children)]
  rfl

theorem next_eq : it.next.toMerge = it.toMerge.next entryCursor Entry.key := by
  unfold next Merge.State.next
  rw [← currentEntry_eq]
  cases it.currentEntry with
  | none => rfl
  | some e =>
    have hchildren := stepForward_eq it.children e.key
    simp only [pickSmallest_eq, ahead_eq, hchildren]
    rfl

theorem yields_eq (fuel : ℕ) (it : MergingIterator) :
    yields fuel it = Merge.yields entryCursor Entry.key fuel it.toMerge := by
  induction fuel generalizing it with
  | zero => rfl
  | succ fuel ih =>
    unfold yields Merge.yields
    rw [← currentEntry_eq, ih, next_eq]
    cases it.currentEntry <;> rfl

theorem merged_eq : merged children = Merge.merged entryCursor Entry.key (children.map child) := by
  unfold merged seekToFirst Merge.merged
  rw [yields_eq, pickSmallest_eq, ahead_eq]

/-! ### What a pass yields -/

/-- The children's range tombstones. -/
def allRanges : List RangeTombstone := children.flatMap Sst.ranges

variable {children}

theorem covered_allRanges {k : Key} :
    Span.Covered (allRanges children) k ↔ ∃ c ∈ children, Span.Covered c.ranges k := by
  unfold allRanges
  rw [flatMap_def, Span.covered_flatten]
  simp

theorem findSome?_tells_of_no_entry {k : Key} (h : ∀ c ∈ children, ∀ e ∈ c.entries, e.key ≠ k) :
    children.findSome? (fun c => c.tells k) =
      if Span.Covered (allRanges children) k then some .gone else none := by
  have htells : ∀ c ∈ children, c.tells k = if Span.Covered c.ranges k then some .gone else none :=
    fun c hc => tells_of_find_none ((SortedMap.find_eq_none_iff Entry.key).2 (h c hc)) _
  split_ifs with hcov
  · obtain ⟨c, hc, hck⟩ := covered_allRanges.1 hcov
    refine Newest.findSome?_eq_of_agree _ hc (by rw [htells c hc, if_pos hck]) fun d hd b hb => ?_
    rw [htells d hd] at hb
    split_ifs at hb
    exact (Option.some.inj hb).symm
  · refine List.findSome?_eq_none_iff.2 fun c hc => ?_
    rw [htells c hc, if_neg fun hck => hcov (covered_allRanges.2 ⟨c, hc, hck⟩)]

/-- Entries in order, ranges tidy. -/
def Ordered (children : List Sst) : Prop :=
  ∀ c ∈ children, SortedMap.Sorted Entry.key c.entries ∧ Span.Tidy c.ranges

/-- What a pass yields. -/
structure Merges (children : List Sst) (out : List Entry) : Prop where
  sorted : SortedMap.Sorted Entry.key out
  mem : ∀ e ∈ out, ∃ c ∈ children, e ∈ c.entries
  tells : ∀ k, ElysiumKV.tells out (allRanges children) k = children.findSome? fun c => c.tells k

theorem tells_eq_speaks {c : Sst} (h : Span.Tidy c.ranges) (k : Key) :
    c.tells k = (Merge.speaks entryCursor Entry.key k (child c)).map heard := by
  unfold Merge.speaks Sst.tells ElysiumKV.tells
  have hcovers : (child c).covers k = true ↔ Span.Covered c.ranges k := Sst.rangeDeletes_iff h
  have hstream : (entryCursor).ahead (child c).stream = c.entries := rfl
  rw [hstream, ← findEntry]
  cases findEntry k c.entries with
  | some e => rfl
  | none =>
    by_cases hk : Span.Covered c.ranges k
    · simp [hk, hcovers.2 hk, heard]
    · have hno : ¬ (child c).covers k = true := fun hyes => hk (hcovers.1 hyes)
      simp [hk, hno]

theorem Ordered.toMerge (h : Ordered children) :
    Merge.Ordered entryCursor Entry.key (children.map child) := by
  intro c hc
  obtain ⟨d, hd, rfl⟩ := mem_map.1 hc
  exact (h d hd).1

theorem findEntry_merged (h : Ordered children) (k : Key) :
    findEntry k (merged children) =
      (children.findSome? fun c => Merge.speaks entryCursor Entry.key k (child c)).join := by
  rw [findEntry, merged_eq, (Merge.merges_merged h.toMerge).find k, Merge.newest,
    List.findSome?_map]
  rfl

theorem merges_merged (h : Ordered children) : Merges children (merged children) := by
  have hmerges := Merge.merges_merged h.toMerge
  rw [← merged_eq] at hmerges
  refine ⟨hmerges.sorted, fun e he => ?_, fun k => ?_⟩
  · obtain ⟨c, hc, hec⟩ := hmerges.mem e he
    obtain ⟨d, hd, rfl⟩ := mem_map.1 hc
    exact ⟨d, hd, hec⟩
  · have hfind := findEntry_merged h k
    have htells : children.findSome? (fun c => c.tells k) =
        (children.findSome? fun c => Merge.speaks entryCursor Entry.key k (child c)).map heard := by
      rw [map_findSome?]
      exact Newest.findSome?_congr fun c hc => tells_eq_speaks (h c hc).2 k
    rw [htells]
    cases hsaid : children.findSome? fun c => Merge.speaks entryCursor Entry.key k (child c) with
    | none =>
      rw [hsaid] at hfind htells
      rw [tells_of_find_none hfind, if_neg fun hcov => ?_]
      · rfl
      · obtain ⟨c, hc, hck⟩ := covered_allRanges.1 hcov
        have hnone := List.findSome?_eq_none_iff.1 htells c hc
        exact tells_ne_none_iff.2 (covered_cells.2 (.inr hck)) hnone
    | some said =>
      rw [hsaid] at hfind
      cases said with
      | some e => exact tells_of_find hfind _
      | none =>
        obtain ⟨c, hc, hsays⟩ := exists_of_findSome?_eq_some hsaid
        have hck : Span.Covered c.ranges k := by
          unfold Merge.speaks at hsays
          split at hsays
          · cases hsays
          · split_ifs at hsays with hcovers
            exact (Sst.rangeDeletes_iff (h c hc).2).1 hcovers
        rw [tells_of_find_none hfind, if_pos (covered_allRanges.2 ⟨c, hc, hck⟩)]
        rfl

end MergingIterator

end ElysiumKV
