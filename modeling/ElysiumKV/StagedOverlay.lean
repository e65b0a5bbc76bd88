import ElysiumKV.Streams.Engine

/-!
# A transaction reads its own writes

What a transaction stages waits in a `StagedOverlay`, which lookups ask first, until the changelog
has committed; `into` gives the batch then written.
-/

namespace ElysiumKV

open Db Streams List

namespace StagedOverlay

/-- A staged put or delete. -/
structure Point where
  key : Key
  /-- `none` deletes the key -/
  mutation : Option Value
  sequence : ℕ

/-- A staged range delete. -/
structure Range where
  lower : Key
  upper : Key
  sequence : ℕ

/-- As a batch operation. -/
def Point.op (p : Point) : ℕ × BatchOp :=
  (p.sequence, p.mutation.elim (.remove p.key) (.put p.key))

/-- As a batch operation. -/
def Range.op (r : Range) : ℕ × BatchOp := (r.sequence, .deleteRange r.lower r.upper)

/-- The range holds the key. -/
def Range.covers (r : Range) (key : Key) : Bool :=
  Engine.inRange (some r.lower) (some r.upper) key

end StagedOverlay

/-- Staged mutations: points by key, ranges as they came. -/
structure StagedOverlay where
  points : List StagedOverlay.Point := []
  ranges : List StagedOverlay.Range := []
  sequence : ℕ := 0
  sorted : SortedMap.Sorted StagedOverlay.Point.key points := by exact List.Pairwise.nil
  point_lt : ∀ p ∈ points, p.sequence < sequence := by grind
  range_lt : ∀ r ∈ ranges, r.sequence < sequence := by grind
  apart : ∀ p ∈ points, ∀ r ∈ ranges, p.sequence ≠ r.sequence := by grind

namespace StagedOverlay

attribute [local grind →] point_lt range_lt SortedMap.mem_insert
attribute [local grind .] apart

/-- `put`. -/
def put (o : StagedOverlay) (key : Key) (mutation : Option Value) : StagedOverlay where
  points := SortedMap.insert Point.key ⟨key, mutation, o.sequence⟩ o.points
  ranges := o.ranges
  sequence := o.sequence + 1
  sorted := o.sorted.insert Point.key _

/-- `deleteRange`. -/
def deleteRange (o : StagedOverlay) (lower upper : Key) : StagedOverlay where
  points := o.points
  ranges := o.ranges ++ [⟨lower, upper, o.sequence⟩]
  sequence := o.sequence + 1
  sorted := o.sorted

/-- `PartitionedStore.put` and `deleteRange`: an empty range stages nothing. -/
def stage (o : StagedOverlay) : BatchOp → StagedOverlay
  | .put key value => o.put key (some value)
  | .remove key => o.put key none
  | .deleteRange lower upper => if lower < upper then o.deleteRange lower upper else o

/-- The highest range covering the key, or -1. -/
def covering (o : StagedOverlay) (key : Key) : ℤ :=
  o.ranges.foldl (fun highest r =>
    if r.covers key ∧ highest < r.sequence then r.sequence else highest) (-1)

/-- `UNSTAGED` is `none`, `ABSENT` is `some none`. -/
def resolve (o : StagedOverlay) (key : Key) : Option (Option Value) :=
  match SortedMap.find Point.key key o.points with
  | none => if 0 ≤ o.covering key then some none else none
  | some point =>
    if point.sequence < o.covering key ∨ point.mutation = none then some none
    else some point.mutation

/-- The staged operations. -/
def pending (o : StagedOverlay) : List (ℕ × BatchOp) :=
  o.points.map Point.op ++ o.ranges.map Range.op

/-- Every operation in the order it was staged. -/
def into (o : StagedOverlay) : List BatchOp :=
  (o.pending.insertionSort fun a b => a.1 ≤ b.1).map Prod.snd

/-- `PartitionedStore.get` -/
def get (o : StagedOverlay) (db : Engine) (key : Key) : Option Value :=
  (o.resolve key).getD (db.getCopy key)

/-! ### The batch and the answers -/

variable (o : StagedOverlay) {k : Key}

theorem overwrite_point (p : Point) (current : Option Value) :
    overwrite k current p.op.2 = if p.key = k then p.mutation else current := by
  rcases p with ⟨key, _ | value, n⟩ <;> rfl

theorem overwrite_range (r : Range) (current : Option Value) :
    overwrite k current r.op.2 = if r.covers k then none else current := by
  simp [Range.op, overwrite, Range.covers, Engine.inRange]

theorem forall_mem_pending {P : ℕ × BatchOp → Prop} : (∀ q ∈ o.pending, P q) ↔
    (∀ p ∈ o.points, P p.op) ∧ ∀ r ∈ o.ranges, P r.op := by
  simp [pending, or_imp, forall_and]

theorem lt_covering {n : ℤ} (hn : -1 ≤ n) :
    n < o.covering k ↔ ∃ r ∈ o.ranges, r.covers k = true ∧ n < r.sequence := by
  have hfold (ranges : List Range) (highest : ℤ) : n < ranges.foldl (fun highest r =>
      if r.covers k ∧ highest < r.sequence then (r.sequence : ℤ) else highest) highest ↔
        n < highest ∨ ∃ r ∈ ranges, r.covers k = true ∧ n < r.sequence := by
    induction ranges generalizing highest with
    | nil => simp
    | cons r ranges ih =>
      rw [foldl_cons, ih]
      grind
  exact (hfold o.ranges (-1)).trans (or_iff_right hn.not_gt)

theorem foldl_unchanged {batch : List (ℕ × BatchOp)} {value : Option Value}
    (h : ∀ q ∈ batch, overwrite k value q.2 = value) :
    (batch.map Prod.snd).foldl (overwrite k) value = value := by
  rw [foldl_map]
  exact List.foldlRecOn (motive := (· = value)) batch _ rfl fun x hx q hq => hx ▸ h q hq

/-- An operation decides the key when what follows it leaves its effect as it is. -/
theorem foldl_into {p : ℕ × BatchOp} {value : Option Value} (hp : p ∈ o.pending)
    (hvalue : ∀ current, overwrite k current p.2 = value)
    (hlater : ∀ q ∈ o.pending, p.1 ≤ q.1 → overwrite k value q.2 = value)
    (current : Option Value) : o.into.foldl (overwrite k) current = value := by
  have hsorted := pairwise_insertionSort (fun a b => a.1 ≤ b.1) o.pending
  have hmem := @mem_insertionSort _ (fun a b => a.1 ≤ b.1) _ o.pending
  obtain ⟨before, after, hsplit⟩ := append_of_mem (hmem.2 hp)
  rw [hsplit, pairwise_append, pairwise_cons] at hsorted
  rw [into, hsplit, map_append, foldl_append, map_cons, foldl_cons, hvalue]
  exact foldl_unchanged fun q hq =>
    hlater q (hmem.1 (by simp [hsplit, hq])) (hsorted.2.1.1 q hq)

theorem foldl_into_eq (k : Key) (current : Option Value) :
    o.into.foldl (overwrite k) current = (o.resolve k).getD current := by
  have hrange {r : Range} (hr : r ∈ o.ranges) (hcovers : r.covers k = true)
      (hp : ∀ p ∈ o.points, p.key = k → p.sequence < r.sequence) :
      o.into.foldl (overwrite k) current = none := by
    refine o.foldl_into (mem_append_right _ (mem_map_of_mem hr))
      (fun x => by rw [overwrite_range, if_pos hcovers]) (o.forall_mem_pending.2 ⟨?_, ?_⟩) current
    · intro q hq (hle : r.sequence ≤ q.sequence)
      rw [overwrite_point, if_neg fun hk => (hp q hq hk).not_ge hle]
    · intro r' _ _
      rw [overwrite_range, ite_self]
  have hfind (point : Point) := SortedMap.find_eq_some_iff Point.key (k := k) (x := point) o.sorted
  unfold resolve
  cases hpoint : SortedMap.find Point.key k o.points with
  | none =>
    have hpoints := (SortedMap.find_eq_none_iff Point.key).1 hpoint
    have hcovering := o.lt_covering (k := k) le_rfl
    by_cases hc : 0 ≤ o.covering k
    · obtain ⟨r, hr, hcovers, -⟩ := hcovering.1 (by omega)
      simpa [hc] using hrange hr hcovers fun p hp hk => absurd hk (hpoints p hp)
    · have hall := (o.forall_mem_pending (P := fun q => overwrite k current q.2 = current)).2
        ⟨by grind [overwrite_point], by grind [overwrite_range]⟩
      simp only [hc, if_false]
      exact foldl_unchanged fun q hq => hall q ((mem_insertionSort _).1 hq)
  | some point =>
    obtain ⟨hmem, hkey⟩ := (hfind point).1 hpoint
    have hcovering := o.lt_covering (k := k) (n := point.sequence) (by omega)
    by_cases hlater : point.sequence < o.covering k
    · obtain ⟨r, hr, hcovers, hlt⟩ := hcovering.1 hlater
      simp only [hlater, true_or, if_true]
      exact hrange hr hcovers (by grind)
    · have hvalue : o.into.foldl (overwrite k) current = point.mutation := by
        refine o.foldl_into (mem_append_left _ (mem_map_of_mem hmem))
          (fun x => by rw [overwrite_point, if_pos hkey]) (o.forall_mem_pending.2 ⟨?_, ?_⟩) current
        · grind [overwrite_point]
        · intro r hr (hle : point.sequence ≤ r.sequence)
          grind [overwrite_range]
      rw [hvalue]
      cases hmutation : point.mutation <;> simp [hlater, hmutation]

/-- What a transaction reads is what everyone reads once its batch has been written. -/
theorem staged_reads_survive_commit {db db' : Engine} (h : db.write o.into = .ok db') (key : Key) :
    o.get db key = db'.getCopy key := by
  rw [Engine.getCopy_write h, o.foldl_into_eq, get]

/-- A put, a range delete over it, and a put into the range. -/
def stagedThrice : StagedOverlay :=
  [.put [2] [20], .deleteRange [1] [8], .put [7] [77]].foldl stage {}

theorem staged_reads_survive_commit_stagedThrice :
    ∃ db, ({} : Engine).write stagedThrice.into = .ok db ∧ db.getCopy [2] = none ∧
      db.getCopy [7] = some [77] := by
  obtain ⟨db, h⟩ := @Engine.write_of_check {} stagedThrice.into (by decide)
  have hreads := stagedThrice.staged_reads_survive_commit h
  exact ⟨db, h, (hreads [2]).symm.trans (by decide), (hreads [7]).symm.trans (by decide)⟩

end StagedOverlay

end ElysiumKV
