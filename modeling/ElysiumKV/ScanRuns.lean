import ElysiumKV.Scan

/-!
# Runs of a scan

Over any children, a scan yields the keys in its bounds of which the newest child that speaks holds
a value (`runScan_spec`), and ends with only keys out of range ahead.
-/

namespace ElysiumKV

open Merge List ScanStream

/-- The order of the scan. -/
def Precedes (reverse : Bool) (a b : Key) : Prop := if reverse then b < a else a < b

instance : Std.Antisymm fun a b : Key × Value => a.1 < b.1 :=
  ⟨fun _ _ hab hba => absurd hba hab.not_gt⟩

instance : Std.Irrefl fun a b : Key × Value => a.1 < b.1 := ⟨fun a => lt_irrefl a.1⟩

theorem eq_of_precedes {reverse : Bool} {l l' : List (Key × Value)}
    (h : l.Pairwise fun a b => Precedes reverse a.1 b.1)
    (h' : l'.Pairwise fun a b => Precedes reverse a.1 b.1) (hmem : ∀ pair, pair ∈ l ↔ pair ∈ l') :
    l = l' := by
  cases reverse with
  | false => exact List.Pairwise.eq_of_mem_iff (r := fun a b => a.1 < b.1) h h' hmem
  | true =>
    refine reverse_injective ((pairwise_reverse.2 h).eq_of_mem_iff
      (r := fun a b => a.1 < b.1) (pairwise_reverse.2 h') fun pair => ?_)
    rw [mem_reverse, mem_reverse, hmem]

section Direction

variable {κ : Type} [LinearOrder κ] {dir : Key ≃ κ} {reverse : Bool}

/-- `dir` orders the keys as a scan meets them. -/
def Directs (dir : Key ≃ κ) (reverse : Bool) : Prop :=
  ∀ a b, dir a < dir b ↔ Precedes reverse a b

theorem directs_forward : Directs (Equiv.refl Key) false := fun _ _ => Iff.rfl

theorem directs_reverse : Directs (OrderDual.toDual : Key ≃ Keyᵒᵈ) true := fun _ _ => Iff.rfl

theorem mem_orient {α : Type} {l : List α} {a : α} : a ∈ orient reverse l ↔ a ∈ l := by
  unfold orient
  split_ifs
  · exact mem_reverse
  · exact Iff.rfl

theorem sorted_orient (h : Directs dir reverse) {entries : List Entry}
    (hs : SortedMap.Sorted Entry.key entries) :
    SortedMap.Sorted (scanKey dir) (orient reverse entries) := by
  have hlt : ∀ a b : Entry, scanKey dir a < scanKey dir b ↔ Precedes reverse a.key b.key :=
    fun a b => h a.key b.key
  unfold SortedMap.Sorted orient
  simp only [hlt]
  cases reverse with
  | false => exact hs
  | true => exact pairwise_reverse.2 hs

theorem find_orient (h : Directs dir reverse) {entries : List Entry}
    (hs : SortedMap.Sorted Entry.key entries) (k : Key) :
    SortedMap.find (scanKey dir) (dir k) (orient reverse entries) = findEntry k entries := by
  refine Option.ext fun e => ?_
  rw [SortedMap.find_eq_some_iff _ (sorted_orient h hs), SortedMap.find_eq_some_iff _ hs,
    mem_orient]
  exact and_congr_right fun _ => dir.injective.eq_iff

variable {l : List Entry}

theorem mem_position {target : Option Key} (hs : SortedMap.Sorted (scanKey dir) l) {e : Entry} :
    e ∈ position dir target l ↔ e ∈ l ∧ ∀ t ∈ target, ¬ dir e.key < dir t := by
  cases target with
  | none => simp [position]
  | some t =>
    simp only [position, Option.mem_some_iff, forall_eq']
    induction l with
    | nil => simp
    | cons f l ih =>
      obtain ⟨hf, hs⟩ := pairwise_cons.1 hs
      rw [dropWhile_cons]
      split_ifs with hlt
      · rw [ih hs, mem_cons]
        refine and_congr_left fun hne => (or_iff_right ?_).symm
        rintro rfl
        exact hne (of_decide_eq_true hlt)
      · refine (and_iff_left_of_imp fun he hbefore => ?_).symm
        have hle : dir f.key ≤ dir e.key := by
          rcases mem_cons.1 he with rfl | he
          · exact le_rfl
          · exact (hf e he).le
        exact hlt (decide_eq_true (hle.trans_lt hbefore))

theorem sorted_position (target : Option Key) (hs : SortedMap.Sorted (scanKey dir) l) :
    SortedMap.Sorted (scanKey dir) (position dir target l) := by
  cases target with
  | none => exact hs
  | some t => exact hs.sublist (dropWhile_sublist _)

theorem find_position {target : Option Key} (hs : SortedMap.Sorted (scanKey dir) l) {k : Key}
    (hk : ∀ t ∈ target, ¬ dir k < dir t) :
    SortedMap.find (scanKey dir) (dir k) (position dir target l) =
      SortedMap.find (scanKey dir) (dir k) l := by
  refine Option.ext fun e => ?_
  rw [SortedMap.find_eq_some_iff _ (sorted_position target hs), SortedMap.find_eq_some_iff _ hs,
    mem_position hs, and_assoc]
  refine and_congr_right fun _ => and_iff_right_of_imp fun he => ?_
  rw [← dir.injective he] at hk
  exact hk

end Direction

namespace Db

section Drain

variable {κ : Type} [LinearOrder κ] {dir : Key ≃ κ} {reverse : Bool}

/-- A drain over the entries the merge yields. -/
def drainList (out : Key → Bool) : List Entry → List (Key × Value)
  | [] => []
  | e :: rest =>
    if out e.key then []
    else match e.type with
      | .put => (e.key, e.value) :: drainList out rest
      | .delete => drainList out rest

theorem drain_fst (out : Key → Bool) (n : ℕ) (x : State ScanStream κ) :
    (drain dir out n x).1 = drainList out (yields cursor (scanKey dir) n x) := by
  induction n generalizing x with
  | zero => rfl
  | succ n ih =>
    unfold drain yields
    cases x.element cursor with
    | none => rfl
    | some e =>
      simp only [drainList]
      split_ifs
      · rfl
      · cases e.type with
        | put => simp only [ih]
        | delete => simp only [ih]

theorem mem_drainList {out : Key → Bool} (hout : ∀ a b, dir a < dir b → out a = true → out b = true)
    {l : List Entry} (hs : SortedMap.Sorted (scanKey dir) l) {k : Key} {v : Value} :
    (k, v) ∈ drainList out l ↔ out k = false ∧ ⟨k, .put, v⟩ ∈ l := by
  induction l with
  | nil => simp [drainList]
  | cons e rest ih =>
    obtain ⟨hlt, hrest⟩ := pairwise_cons.1 hs
    unfold drainList
    split_ifs with he
    · simp only [not_mem_nil, false_iff, not_and]
      intro hk hmem
      rcases mem_cons.1 hmem with rfl | hmem
      · simp [he] at hk
      · have := hout _ _ (hlt _ hmem) he
        simp [this] at hk
    · obtain ⟨key, type, value⟩ := e
      cases type with
      | put =>
        rw [mem_cons, ih hrest, mem_cons, and_or_left]
        refine or_congr ?_ Iff.rfl
        simp only [Prod.mk.injEq, Entry.mk.injEq, true_and]
        refine ⟨fun h => ⟨?_, h⟩, fun h => h.2⟩
        rw [h.1]
        simpa using he
      | delete =>
        rw [ih hrest, mem_cons]
        simp

theorem sorted_drainList (out : Key → Bool) {l : List Entry}
    (hs : SortedMap.Sorted (scanKey dir) l) :
    (drainList out l).Pairwise fun a b => dir a.1 < dir b.1 := by
  have hmem : ∀ {l : List Entry} {p : Key × Value}, p ∈ drainList out l → ∃ e ∈ l, e.key = p.1 := by
    intro l p hp
    induction l with
    | nil => nomatch hp
    | cons e rest ih =>
      unfold drainList at hp
      split_ifs at hp
      · nomatch hp
      · cases htype : e.type with
        | put =>
          rw [htype] at hp
          rcases mem_cons.1 hp with rfl | hp
          · exact ⟨e, .head _, rfl⟩
          · obtain ⟨f, hf, hkey⟩ := ih hp
            exact ⟨f, .tail _ hf, hkey⟩
        | delete =>
          rw [htype] at hp
          obtain ⟨f, hf, hkey⟩ := ih hp
          exact ⟨f, .tail _ hf, hkey⟩
  induction l with
  | nil => exact List.Pairwise.nil
  | cons e rest ih =>
    obtain ⟨hlt, hs⟩ := pairwise_cons.1 hs
    unfold drainList
    split_ifs
    · exact List.Pairwise.nil
    · cases e.type with
      | put =>
        refine pairwise_cons.2 ⟨fun p hp => ?_, ih hs⟩
        obtain ⟨f, hf, hkey⟩ := hmem hp
        rw [← hkey]
        exact hlt f hf
      | delete => exact ih hs

end Drain

/-- In `[lower, upper)`; an empty `upper` is no bound. -/
def Within (lower upper k : Key) : Prop := lower ≤ k ∧ (upper ≠ [] → k < upper)

/-- At or above `lower`, and below any upper bound. -/
def InBounds (lower upper : Key) (hasUpper : Bool) (k : Key) : Prop :=
  lower ≤ k ∧ (hasUpper = true → k < upper)

theorem InBounds.within {lower upper k : Key} {hasUpper : Bool}
    (h : InBounds lower upper hasUpper k) (hupper : hasUpper = false → upper = []) :
    Within lower upper k := by
  refine ⟨h.1, fun hne => h.2 ?_⟩
  by_contra hno
  exact hne (hupper (Bool.eq_false_of_not_eq_true hno))

section Whole

variable {κ : Type} [LinearOrder κ] {dir : Key ≃ κ} {reverse : Bool}

theorem inBounds_iff (hdir : Directs dir reverse) {lower upper k : Key} {hasUpper : Bool} :
    InBounds lower upper hasUpper k ↔
      (∀ t ∈ scanTarget reverse lower upper hasUpper, ¬ dir k < dir t) ∧
        outOfRange reverse lower upper hasUpper k = false ∧
          (reverse = true → hasUpper = true → k < upper) := by
  unfold InBounds scanTarget outOfRange
  simp only [hdir _ _, Precedes]
  cases reverse with
  | false =>
    by_cases hnil : lower = []
    · simp [hnil, ByteOrder.nil_le]
    · simp [hnil]
  | true => cases hasUpper with
    | false => simp
    | true =>
      simp only [if_true, Option.mem_some_iff, forall_eq', not_lt, decide_eq_false_iff_not,
        true_imp_iff]
      exact ⟨fun h => ⟨h.2.le, h.1, h.2⟩, fun h => ⟨h.2.1, h.2.2⟩⟩

theorem outOfRange_mono (hdir : Directs dir reverse) {lower upper : Key} {hasUpper : Bool}
    (a b : Key) (hab : dir a < dir b) (ha : outOfRange reverse lower upper hasUpper a = true) :
    outOfRange reverse lower upper hasUpper b = true := by
  have hab := (hdir a b).1 hab
  unfold outOfRange at ha ⊢
  cases reverse with
  | false =>
    simp only [Bool.false_eq_true, if_false, Bool.and_eq_true, Bool.not_eq_true',
      decide_eq_false_iff_not, not_lt] at ha ⊢
    exact ⟨ha.1, ha.2.trans (le_of_lt hab)⟩
  | true =>
    simp only [if_true, decide_eq_true_eq] at ha ⊢
    exact lt_trans hab ha

variable {x : State ScanStream κ}

theorem mem_yields_startScan (hdir : Directs dir reverse) (upper : Key) (hasUpper : Bool) {n : ℕ}
    (hn : remaining cursor x.children ≤ n)
    (hs : SortedMap.Sorted (scanKey dir) (yields cursor (scanKey dir) n x))
    (htarget : reverse = true → hasUpper = true →
      ∀ e ∈ yields cursor (scanKey dir) n x, ¬ dir e.key < dir upper) :
    SortedMap.Sorted (scanKey dir)
      (yields cursor (scanKey dir) n (startScan dir reverse upper hasUpper x)) ∧
    ∀ e, e ∈ yields cursor (scanKey dir) n (startScan dir reverse upper hasUpper x) ↔
      e ∈ yields cursor (scanKey dir) n x ∧
        (reverse = true → hasUpper = true → e.key < upper) := by
  unfold startScan
  split_ifs with hboth
  · obtain ⟨rfl, rfl⟩ : reverse = true ∧ hasUpper = true := by simpa using hboth
    have hhead := head?_yields (scanKey dir) hn
    have htarget := htarget rfl rfl
    have hle : ∀ e ∈ yields cursor (scanKey dir) n x, e.key ≤ upper := fun e he =>
      not_lt.1 fun hlt => htarget e he ((hdir _ _).2 hlt)
    cases hx : x.element cursor with
    | none =>
      rw [hx, List.head?_eq_none_iff] at hhead
      simp only [hhead]
      exact ⟨List.Pairwise.nil, fun e => by simp⟩
    | some e₀ =>
      rw [hx] at hhead
      obtain ⟨rest, hrest⟩ : ∃ rest, yields cursor (scanKey dir) n x = e₀ :: rest :=
        ⟨_, eq_cons_of_mem_head? hhead⟩
      have hnext := yields_next (scanKey dir) hn
      rw [hrest] at hs hle hnext
      have hbelow : ∀ e ∈ rest, e.key < e₀.key := fun e he =>
        (hdir _ _).1 ((pairwise_cons.1 hs).1 e he)
      simp only
      split_ifs with hlt
      · rw [hrest]
        refine ⟨hs, fun e => (and_iff_left_of_imp fun he _ _ => ?_).symm⟩
        rcases mem_cons.1 he with rfl | he
        · exact hlt
        · exact (hbelow e he).trans hlt
      · rw [hnext, hrest, tail_cons]
        refine ⟨(pairwise_cons.1 hs).2, fun e => ⟨fun he => ⟨.tail _ he, fun _ _ => ?_⟩, ?_⟩⟩
        · exact (hbelow e he).trans_le (hle e₀ (.head _))
        · rintro ⟨he, hlt'⟩
          rcases mem_cons.1 he with rfl | he
          · exact absurd (hlt' trivial trivial) hlt
          · exact he
  · refine ⟨hs, fun e => (and_iff_left ?_).symm⟩
    intro hr hu
    simp [hr, hu] at hboth

/-! ### Whole scans -/

/-- In the scan's order, from its target on. -/
structure Scannable (dir : Key ≃ κ) (target : Option Key) (children : List (Child ScanStream κ)) :
    Prop where
  ordered : Ordered cursor (scanKey dir) children
  past : ∀ c ∈ children, ∀ e ∈ cursor.ahead c.stream, ∀ t ∈ target,
    ¬ dir e.key < dir t

section Run

variable {lower upper : Key} {hasUpper : Bool} {children : List (Child ScanStream κ)}

/-- The merge a scan starts with. -/
def started (dir : Key ≃ κ) (reverse : Bool) (upper : Key) (hasUpper : Bool)
    (children : List (Child ScanStream κ)) : State ScanStream κ :=
  startScan dir reverse upper hasUpper
    (pick cursor (scanKey dir) (remaining cursor children) children)

theorem Scannable.yields_started
    (h : Scannable dir (scanTarget reverse lower upper hasUpper) children)
    (hdir : Directs dir reverse) :
    SortedMap.Sorted (scanKey dir) (yields cursor (scanKey dir)
      (remaining cursor children) (started dir reverse upper hasUpper children)) ∧
    ∀ e, e ∈ yields cursor (scanKey dir) (remaining cursor children)
        (started dir reverse upper hasUpper children) ↔
      e ∈ merged cursor (scanKey dir) children ∧
        (reverse = true → hasUpper = true → e.key < upper) := by
  have hmerges := merges_merged h.ordered
  refine mem_yields_startScan hdir upper hasUpper
    (remaining_pick_le cursor (scanKey dir) _ children) hmerges.sorted ?_
  intro hr hu e he
  obtain ⟨c, hc, hec⟩ := hmerges.mem e he
  exact h.past c hc e hec upper (by simp [scanTarget, hr, hu])

theorem runScan_spec (h : Scannable dir (scanTarget reverse lower upper hasUpper) children)
    (hdir : Directs dir reverse) :
    ((runScan dir reverse lower upper hasUpper children).1.Pairwise
      fun a b => Precedes reverse a.1 b.1) ∧
    ∀ k v, (k, v) ∈ (runScan dir reverse lower upper hasUpper children).1 ↔
      InBounds lower upper hasUpper k ∧
        newest cursor (scanKey dir) children (dir k) = some ⟨k, .put, v⟩ := by
  have hmerges := merges_merged h.ordered
  obtain ⟨hsorted, hmem⟩ := h.yields_started hdir
  unfold runScan
  simp only
  rw [← started, drain_fst]
  refine ⟨(sorted_drainList _ hsorted).imp fun hab => (hdir _ _).1 hab, fun k v => ?_⟩
  have hfind : ⟨k, .put, v⟩ ∈ merged cursor (scanKey dir) children ↔
      newest cursor (scanKey dir) children (dir k) = some ⟨k, .put, v⟩ := by
    rw [← hmerges.find, SortedMap.find_eq_some_iff _ hmerges.sorted]
    exact (and_iff_left rfl).symm
  rw [mem_drainList (outOfRange_mono hdir) hsorted, hmem, ← hfind]
  constructor
  · rintro ⟨hout, hin, hlt⟩
    obtain ⟨c, hc, hec⟩ := hmerges.mem _ hin
    exact ⟨(inBounds_iff hdir).2 ⟨h.past c hc _ hec, hout, hlt⟩, hin⟩
  · rintro ⟨hk, hin⟩
    obtain ⟨-, hout, hlt⟩ := (inBounds_iff hdir).1 hk
    exact ⟨hout, hin, hlt⟩

/-- What a newest-first search of the children tells. -/
def told (dir : Key ≃ κ) (children : List (Child ScanStream κ)) (k : Key) : Option Found :=
  (children.findSome? (speaks cursor (scanKey dir) (dir k))).map heard

theorem newest_eq_put_iff (h : Ordered cursor (scanKey dir) children) {k : Key}
    {v : Value} :
    newest cursor (scanKey dir) children (dir k) = some ⟨k, .put, v⟩ ↔
      told dir children k = some (.live v) := by
  have hmerges := merges_merged h
  have hfind := hmerges.find (dir k)
  unfold told
  rw [Merge.newest] at hfind ⊢
  cases hsaid : children.findSome? (speaks cursor (scanKey dir) (dir k)) with
  | none => simp
  | some said => cases said with
    | none => simp [heard]
    | some e =>
      rw [hsaid] at hfind
      have hkey : e.key = k :=
        dir.injective ((SortedMap.find_eq_some_iff _ hmerges.sorted).1 hfind).2
      obtain ⟨key, type, value⟩ := e
      obtain rfl : key = k := hkey
      cases type <;> simp [heard, Entry.found]

theorem mem_runScan (h : Scannable dir (scanTarget reverse lower upper hasUpper) children)
    (hdir : Directs dir reverse) {k : Key} {v : Value} :
    (k, v) ∈ (runScan dir reverse lower upper hasUpper children).1 ↔
      InBounds lower upper hasUpper k ∧ told dir children k = some (.live v) := by
  rw [(runScan_spec h hdir).2, newest_eq_put_iff h.ordered]

end Run

/-! ### Where a scan ends -/

/-- The stream, read further. -/
def ReadOn (stream later : ScanStream) : Prop :=
  ∃ n, later.whole = (stream.whole.1.drop n, stream.whole.2)

theorem ReadOn.refl (stream : ScanStream) : ReadOn stream stream := ⟨0, rfl⟩

theorem ReadOn.next (stream later : ScanStream) (h : ReadOn stream later) :
    ReadOn stream (cursor.next later) := by
  obtain ⟨n, hn⟩ := h
  refine ⟨n + 1, (later.whole_next).trans ?_⟩
  rw [hn, tail_drop]

variable (dir) in
theorem readOn_drain (out : Key → Bool) (n : ℕ) {streams : List ScanStream}
    (h : List.Forall₂ (fun s c => ReadOn s c.stream) streams x.children) :
    List.Forall₂ (fun s c => ReadOn s c.stream) streams (drain dir out n x).2.children := by
  induction n generalizing x with
  | zero => exact h
  | succ n ih =>
    have hnext := ih (State.forall₂_next cursor (scanKey dir) ReadOn ReadOn.next h)
    unfold drain
    cases x.element cursor with
    | none => exact h
    | some e =>
      simp only
      split_ifs
      · exact h
      · cases e.type with
        | put => exact hnext
        | delete => exact hnext

theorem drain_stops (out : Key → Bool) (n : ℕ)
    (hsettled : x.Settled cursor (scanKey dir))
    (hn : remaining cursor x.children ≤ n) :
    (drain dir out n x).2.Settled cursor (scanKey dir) ∧
      ∀ e, (drain dir out n x).2.element cursor = some e → out e.key = true := by
  induction n generalizing x with
  | zero =>
    refine ⟨hsettled, fun e (he : x.element cursor = some e) => ?_⟩
    have := State.remaining_next_lt (scanKey dir) he
    omega
  | succ n ih =>
    unfold drain
    cases hx : x.element cursor with
    | none =>
      refine ⟨hsettled, fun e he => ?_⟩
      rw [hx] at he
      cases he
    | some e =>
      have hlt := State.remaining_next_lt (scanKey dir) hx
      have hnext := ih hsettled.next (by omega)
      simp only
      split_ifs with hout
      · refine ⟨hsettled, fun f hf => ?_⟩
        obtain rfl := Option.some_inj.1 (hx.symm.trans hf)
        exact hout
      · cases e.type with
        | put => exact hnext
        | delete => exact hnext

variable (dir reverse) in
theorem started_spec (upper : Key) (hasUpper : Bool) (children : List (Child ScanStream κ)) :
    (started dir reverse upper hasUpper children).Settled cursor (scanKey dir) ∧
      remaining cursor (started dir reverse upper hasUpper children).children ≤
        remaining cursor children ∧
      List.Forall₂ (fun s c => ReadOn s c.stream) (children.map Child.stream)
        (started dir reverse upper hasUpper children).children := by
  set x := pick cursor (scanKey dir) (remaining cursor children) children
    with hx
  have hsettled : x.Settled cursor (scanKey dir) := settled_pick le_rfl
  have hremaining : remaining cursor x.children ≤ remaining cursor children :=
    remaining_pick_le cursor (scanKey dir) _ children
  have hread : List.Forall₂ (fun s c => ReadOn s c.stream) (children.map Child.stream)
      x.children := by
    refine forall₂_pick cursor (scanKey dir) ReadOn ReadOn.next ?_ _
    rw [forall₂_map_left_iff, forall₂_same]
    exact fun c _ => .refl c.stream
  unfold started startScan
  rw [← hx]
  split_ifs
  · cases he : x.element cursor with
    | none => exact ⟨hsettled, hremaining, hread⟩
    | some e =>
      simp only
      split_ifs
      · exact ⟨hsettled, hremaining, hread⟩
      · exact ⟨hsettled.next, (State.remaining_next_lt (scanKey dir) he).le.trans hremaining,
          State.forall₂_next cursor (scanKey dir) ReadOn ReadOn.next hread⟩
  · exact ⟨hsettled, hremaining, hread⟩

omit [LinearOrder κ] in
theorem scanStatus_eq_ok_iff {children : List (Child ScanStream κ)} :
    scanStatus children = .ok ↔ ∀ c ∈ children, c.stream.status = .ok := by
  unfold scanStatus
  cases hfind : (children.map fun c => c.stream.status).find? (· ≠ .ok) with
  | none =>
    rw [List.find?_eq_none] at hfind
    simpa using hfind
  | some status =>
    have hne := List.find?_some hfind
    obtain ⟨c, hc, rfl⟩ := mem_map.1 (mem_of_find?_eq_some hfind)
    simp only [Option.getD_some]
    exact ⟨fun hok => absurd hok (by simpa using hne), fun h => h c hc⟩

theorem exists_final {children : List (Child ScanStream κ)}
    (h : Ordered cursor (scanKey dir) children) (hdir : Directs dir reverse)
    (lower upper : Key) (hasUpper : Bool) :
    ∃ final : List (Child ScanStream κ),
      (runScan dir reverse lower upper hasUpper children).2 = scanStatus final ∧
      List.Forall₂ (fun c d => ReadOn c.stream d.stream) children final ∧
      ∀ c ∈ final, ∀ e ∈ cursor.ahead c.stream,
        outOfRange reverse lower upper hasUpper e.key = true := by
  obtain ⟨hsettled, hremaining, hread⟩ :=
    started_spec dir reverse upper hasUpper children
  set out := outOfRange reverse lower upper hasUpper
  have hfinal := readOn_drain dir out (remaining cursor children) hread
  obtain ⟨hstop, helement⟩ := drain_stops out _ hsettled hremaining
  set final := (drain dir out (remaining cursor children)
    (started dir reverse upper hasUpper children)).2
  rw [forall₂_map_left_iff] at hfinal
  have hordered : Ordered cursor (scanKey dir) final.children := by
    intro d hd
    obtain ⟨c, hc, n, hn⟩ := exists_of_mem_right hfinal hd
    have hahead : cursor.ahead d.stream = (cursor.ahead c.stream).drop n :=
      congrArg Prod.fst hn
    rw [hahead]
    exact (h c hc).sublist (drop_sublist _ _)
  refine ⟨final.children, rfl, hfinal, fun c hc e he => ?_⟩
  cases hx : final.element cursor with
  | none =>
    rw [hstop.ahead_eq_nil hx c hc] at he
    cases he
  | some f =>
    rcases (hstop.le hordered hx c hc e he).lt_or_eq with hlt | heq
    · exact outOfRange_mono hdir _ _ hlt (helement f hx)
    · rw [← dir.injective heq]
      exact helement f hx

end Whole

end Db

end ElysiumKV
