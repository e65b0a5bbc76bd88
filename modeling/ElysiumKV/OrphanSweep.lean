import ElysiumKV.Lib.Program
import ElysiumKV.ObjectNames
import Mathlib.Logic.Relation

/-!
# The orphan sweep

`sweep_orphans` removes objects seen unreferenced for `orphan_retention`. A pass takes the
referenced numbers, reads the clock and lists last, so an object put meanwhile is first seen at a
reading before its put; `Calm` excludes that.
-/

namespace ElysiumKV

open Program Program.Prog List Function

/-- What the sweep reads of the options. -/
structure SweepConfig where
  /-- the instance writes and has a sweep interval -/
  enabled : Bool := true
  /-- the ids of the stores, in order -/
  stores : List Bytes
  orphanRetention : ℕ

/-- What a pass asks of version set, clock and stores. -/
inductive SweepCall : Type
  | manifestAdvanced
  | markFenced
  | referencedFileNumbers
  | pendingFileNumbers
  | nowMs
  | list (storeId : Bytes)
  | removeMany (storeId : Bytes) (names : List Bytes)

/-- The answer to each call. -/
@[reducible] def SweepCall.Result : SweepCall → Type
  | .manifestAdvanced => Bool
  | .markFenced => Unit
  | .referencedFileNumbers => List ℕ
  | .pendingFileNumbers => List ℕ
  | .nowMs => ℕ
  | .list _ => Except Status (List Bytes)
  | .removeMany .. => Status

/-- A part of a pass. -/
abbrev Sweep (α : Type) := Prog SweepCall SweepCall.Result α

/-- `orphan_first_seen_`: names seen unreferenced, and when first. -/
abbrev FirstSeen := Bytes → List (Bytes × ℕ)

/-- Named as an SST, not referenced and not pending. -/
def isCandidate (referenced pending : List ℕ) (name : Bytes) : Bool :=
  match sstFileNumber name with
  | none => false
  | some number => number ∉ referenced && number ∉ pending

/-- When first seen; now if never. -/
def firstSeen (seen : List (Bytes × ℕ)) (now : ℕ) (name : Bytes) : ℕ := (seen.lookup name).getD now

/-- The clock may have stepped back since. -/
def isAged (retention now firstSeen : ℕ) : Bool := firstSeen ≤ now && retention ≤ now - firstSeen

variable (config : SweepConfig)

/-- `collectable`: the candidates that have aged. -/
def collectableNames (referenced pending : List ℕ) (now : ℕ)
    (seen : List (Bytes × ℕ)) (names : List Bytes) : List Bytes :=
  names.filter fun name => isCandidate referenced pending name &&
    isAged config.orphanRetention now (firstSeen seen now name)

/-- `still_present`: those that have not. -/
def stillPresent (referenced pending : List ℕ) (now : ℕ)
    (seen : List (Bytes × ℕ)) (names : List Bytes) : List (Bytes × ℕ) :=
  (names.filter fun name => isCandidate referenced pending name &&
    !isAged config.orphanRetention now (firstSeen seen now name)).map
      fun name => (name, firstSeen seen now name)

/-- `list_all_stores`. -/
def listAllStores : List Bytes → Sweep (List (Bytes × Except Status (List Bytes)))
  | [] => pure []
  | storeId :: stores => do
    let names ← ask (.list storeId)
    let rest ← listAllStores stores
    pure ((storeId, names) :: rest)

/-- Over the listings, up to one that failed. -/
def sweepStores (config : SweepConfig) (referenced pending : List ℕ) (now : ℕ) :
    List (Bytes × Except Status (List Bytes)) → FirstSeen → Sweep (Status × FirstSeen)
  | [], seen => pure (.ok, seen)
  | (_, .error status) :: _, seen => pure (if status = .notFound then .io else status, seen)
  | (storeId, .ok names) :: listings, seen => do
    let collectable := collectableNames config referenced pending now (seen storeId) names
    let seen' := update seen storeId
      (stillPresent config referenced pending now (seen storeId) names)
    if collectable = [] then sweepStores config referenced pending now listings seen'
    else
      let _ ← ask (.removeMany storeId collectable)
      sweepStores config referenced pending now listings seen'

/-- `DbImpl::sweep_orphans`, one pass. -/
def sweepOrphans (seen : FirstSeen) : Sweep (Status × FirstSeen) :=
  if config.enabled = false then pure (.ok, seen)
  else do
    let advanced ← ask .manifestAdvanced
    if advanced = true then
      let _ ← ask .markFenced
      pure (.fenced, seen)
    else
      let referenced ← ask .referencedFileNumbers
      let pending ← ask .pendingFileNumbers
      let now ← ask .nowMs
      let listings ← listAllStores config.stores
      sweepStores config referenced pending now listings seen

/-- A call of `remove_many`, and the numbers current then. -/
structure Removal where
  storeId : Bytes
  names : List Bytes
  current : List ℕ
deriving DecidableEq

/-- What sweep and workers share: numbers of the current version and the queue, those with an edit
under way, all used, the clock at each put, the names in each store. The last two fields say where a
pass is: before its clock reading, or awaiting so many listings. -/
structure Premises where
  current : List ℕ := []
  pending : List ℕ := []
  underWay : List ℕ := []
  used : List ℕ := []
  putAt : List (ℕ × ℕ) := []
  stored : Bytes → List Bytes := fun _ => []
  clock : ℕ := 0
  removed : List Removal := []
  taken : Bool := false
  awaited : ℕ := 0

/-- Edits under way are within the retention of their put. -/
def Premises.Punctual (retention : ℕ) (w : Premises) : Prop :=
  ∀ n ∈ w.underWay, ∀ x ∈ w.putAt, x.1 = n → w.clock ≤ x.2 + retention

instance (retention : ℕ) (w : Premises) : Decidable (w.Punctual retention) := by
  unfold Premises.Punctual
  infer_instance

/-- An object is put, its edit under way. -/
def Premises.put (w : Premises) (n : ℕ) (storeId : Bytes) : Premises :=
  { w with underWay := n :: w.underWay
           used := n :: w.used
           putAt := (n, w.clock) :: w.putAt
           stored := update w.stored storeId (sstObjectName n :: w.stored storeId) }

/-- An edit adds objects and queues what it deletes. -/
def Premises.commit (w : Premises) (added deleted : List ℕ) : Premises :=
  { w with current := (w.current.filter (· ∉ deleted)) ++ added
           pending := w.pending ++ w.current.filter (· ∈ deleted)
           underWay := w.underWay.filter (· ∉ added) }

/-- A worker puts an object under a new number, commits an edit or gives up; queued files are
deleted; the clock moves. -/
inductive WorkerStep : Premises → Premises → Prop
  | put {w} (n : ℕ) (storeId : Bytes) (hfresh : n ∉ w.used) : WorkerStep w (w.put n storeId)
  | commit {w} (added deleted : List ℕ) (hadded : added ⊆ w.underWay) :
      WorkerStep w (w.commit added deleted)
  | abandon {w} (n : ℕ) : WorkerStep w { w with underWay := w.underWay.filter (· ≠ n) }
  | collect {w} (left : List ℕ) (hleft : left ⊆ w.pending) : WorkerStep w { w with pending := left }
  | tick {w} (now : ℕ) : WorkerStep w { w with clock := now }

/-- The clock does not step back, nothing is put while listings are awaited or added before the
clock is read, and no edit under way is past the retention. -/
@[mk_iff] structure Premises.Calm (retention : ℕ) (w w' : Premises) : Prop where
  clock : w.clock ≤ w'.clock
  put : w.awaited ≠ 0 → w'.putAt = w.putAt
  commit : w.taken = true → w'.current ⊆ w.current
  underWay : ∀ n ∈ w'.underWay, ∀ x ∈ w'.putAt, x.1 = n → w'.clock < x.2 + retention

instance (retention : ℕ) (w w' : Premises) : Decidable (w.Calm retention w') :=
  decidable_of_iff' _ (Premises.calm_iff ..)

/-- Workers' steps between two calls, calm ones with `calm`. -/
def Work (calm : Bool) (retention : ℕ) : Premises → Premises → Prop :=
  Relation.ReflTransGen fun w w' =>
    WorkerStep w w' ∧ w'.Punctual retention ∧ (calm = true → w.Calm retention w')

/-- A listing names objects that have been in the store; it may miss some and name some gone. -/
def Premises.Reply : (c : SweepCall) → Premises → c.Result → Premises → Prop
  | .referencedFileNumbers, w, r, w' => r = w.current ∧ w' = { w with taken := true }
  | .pendingFileNumbers, w, r, w' => r = w.pending ∧ w' = w
  | .nowMs, w, r, w' =>
    r = w.clock ∧ w' = { w with taken := false, awaited := config.stores.length }
  | .list storeId, w, r, w' => w' = { w with awaited := w.awaited - 1 } ∧
      ∀ names, r = .ok names → names ⊆ w.stored storeId
  | .removeMany storeId names, w, _, w' =>
    w' = { w with removed := w.removed ++ [⟨storeId, names, w.current⟩] }
  | _, w, _, w' => w' = w

/-! ### Dead objects -/

/-- No version or edit under way has the number. -/
def Dead (w : Premises) (n : ℕ) : Prop := n ∈ w.used ∧ n ∉ w.current ∧ n ∉ w.underWay

variable {w w' : Premises}

theorem Dead.step {n : ℕ} (h : Dead w n) (hstep : WorkerStep w w') : Dead w' n := by
  obtain ⟨hused, hcurrent, hunderWay⟩ := h
  cases hstep with
  | put m storeId hfresh =>
    have hne : n ≠ m := fun heq => hfresh (heq ▸ hused)
    exact ⟨mem_cons_of_mem _ hused, hcurrent, by simp [Premises.put, hne, hunderWay]⟩
  | commit added deleted hadded =>
    refine ⟨hused, fun hmem => ?_, fun hmem => hunderWay (mem_filter.1 hmem).1⟩
    rcases mem_append.1 hmem with hmem | hmem
    · exact hcurrent (mem_filter.1 hmem).1
    · exact hunderWay (hadded hmem)
  | abandon m => exact ⟨hused, hcurrent, fun hmem => hunderWay (mem_filter.1 hmem).1⟩
  | collect left hleft => exact ⟨hused, hcurrent, hunderWay⟩
  | tick now => exact ⟨hused, hcurrent, hunderWay⟩

/-- The object was put by this reading. -/
def Premises.PutBy (w : Premises) (name : Bytes) (time : ℕ) : Prop :=
  ∀ n, sstFileNumber name = some n → n ∈ w.used ∧ ∀ p, (n, p) ∈ w.putAt → p ≤ time

theorem Premises.PutBy.step {name : Bytes} {time : ℕ} (h : w.PutBy name time)
    (hstep : WorkerStep w w') : w'.PutBy name time := by
  intro n hn
  obtain ⟨hused, hput⟩ := h n hn
  cases hstep with
  | put m storeId hfresh =>
    refine ⟨mem_cons_of_mem _ hused, fun p hp => ?_⟩
    rcases mem_cons.1 hp with hp | hp
    · exact absurd ((Prod.mk.inj hp).1 ▸ hused) hfresh
    · exact hput p hp
  | commit | abandon | collect | tick => exact ⟨hused, hput⟩

/-- Nothing was first seen before it was put. -/
def Premises.Seen (w : Premises) (seen : FirstSeen) : Prop :=
  ∀ storeId, ∀ x ∈ seen storeId, w.PutBy x.1 x.2

/-- What is listed was put by this reading. -/
def Premises.Listed (w : Premises) (now : ℕ)
    (listings : List (Bytes × Except Status (List Bytes))) : Prop :=
  ∀ x ∈ listings, ∀ names, x.2 = .ok names → ∀ name ∈ names, w.PutBy name now

/-- In a calm run edits are punctual, objects have used numbers and were put by now, and what was
removed is dead. -/
structure Premises.Sound (retention : ℕ) (w : Premises) : Prop where
  underWay : ∀ n ∈ w.underWay, ∃ p, (n, p) ∈ w.putAt ∧ w.clock < p + retention
  put : ∀ n p, (n, p) ∈ w.putAt → n ∈ w.used ∧ p ≤ w.clock
  stored : ∀ storeId, ∀ name ∈ w.stored storeId, ∀ n, sstFileNumber name = some n → n ∈ w.used
  removed : ∀ r ∈ w.removed, ∀ name ∈ r.names, ∀ n, sstFileNumber name = some n →
    n ∉ r.current ∧ Dead w n

namespace Premises.Sound

variable {retention : ℕ} {w w' : Premises}

theorem step (h : w.Sound retention) (hstep : WorkerStep w w') (hcalm : w.Calm retention w') :
    w'.Sound retention := by
  have hremoved : ∀ r ∈ w.removed, ∀ name ∈ r.names, ∀ n, sstFileNumber name = some n →
      n ∉ r.current ∧ Dead w' n :=
    fun r hr name hname n hn => (h.removed r hr name hname n hn).imp_right fun hdead => hdead.step hstep
  have hprompt : ∀ n ∈ w'.underWay, (∃ p, (n, p) ∈ w'.putAt) →
      ∃ p, (n, p) ∈ w'.putAt ∧ w'.clock < p + retention :=
    fun n hn ⟨p, hp⟩ => ⟨p, hp, hcalm.underWay n hn (n, p) hp rfl⟩
  cases hstep with
  | put m storeId hfresh =>
    refine ⟨fun n hn => hprompt n hn ?_, ?_, ?_, hremoved⟩
    · rcases mem_cons.1 hn with rfl | hn
      · exact ⟨w.clock, mem_cons_self⟩
      · obtain ⟨p, hp, -⟩ := h.underWay n hn
        exact ⟨p, mem_cons_of_mem _ hp⟩
    · intro n p hp
      rcases mem_cons.1 hp with hp | hp
      · obtain ⟨rfl, rfl⟩ := Prod.mk.inj hp
        exact ⟨mem_cons_self, le_rfl⟩
      · exact (h.put n p hp).imp_left (mem_cons_of_mem _)
    · intro storeId' name hname n hn
      by_cases hstore : storeId' = storeId
      · subst hstore
        simp only [Premises.put, update_self] at hname
        rcases mem_cons.1 hname with rfl | hname
        · have hname := (sstFileNumber_eq_some hn).2
          rw [sstObjectName_injective hname]
          exact mem_cons_self
        · exact mem_cons_of_mem _ (h.stored _ name hname n hn)
      · simp only [Premises.put, update_of_ne hstore] at hname
        exact mem_cons_of_mem _ (h.stored _ name hname n hn)
  | commit added deleted hadded =>
    refine ⟨fun n hn => ?_, h.put, h.stored, hremoved⟩
    exact h.underWay n (mem_filter.1 hn).1
  | abandon m =>
    refine ⟨fun n hn => ?_, h.put, h.stored, hremoved⟩
    exact h.underWay n (mem_filter.1 hn).1
  | collect left hleft => exact ⟨h.underWay, h.put, h.stored, hremoved⟩
  | tick now =>
    refine ⟨fun n hn => hprompt n hn ?_, fun n p hp => ?_, h.stored, hremoved⟩
    · exact (h.underWay n hn).imp fun p hp => hp.1
    · exact (h.put n p hp).imp_right fun hle => hle.trans hcalm.clock

end Premises.Sound

/-! ### A pass

Each stage of a pass has its invariant, kept by every calm step of the workers. -/

section Stages

variable {retention : ℕ} {referenced : List ℕ} {now : ℕ} {I : Premises → Prop}

theorem work_keeps (hkeeps : ∀ w w', I w → WorkerStep w w' → w.Calm retention w' → I w')
    (h : I w) (hwork : Work true retention w w') : I w' := by
  induction hwork with
  | refl => exact h
  | tail _ hstep ih => exact hkeeps _ _ ih hstep.1 (hstep.2.2 rfl)

/-- Between two passes. -/
structure Premises.Between (retention : ℕ) (seen : FirstSeen) (w : Premises) : Prop where
  sound : w.Sound retention
  seen : w.Seen seen

/-- The stages do not speak of where the pass is. -/
theorem Premises.Between.moved {seen : FirstSeen} (h : w.Between retention seen) (taken : Bool)
    (awaited : ℕ) : Between retention seen { w with taken := taken, awaited := awaited } :=
  ⟨⟨h.sound.underWay, h.sound.put, h.sound.stored, h.sound.removed⟩, h.seen⟩

theorem Premises.Between.work {seen : FirstSeen} (h : w.Between retention seen)
    (hwork : Work true retention w w') : w'.Between retention seen :=
  work_keeps (fun _ _ h hstep hcalm => ⟨h.sound.step hstep hcalm,
    fun storeId x hx => (h.seen storeId x hx).step hstep⟩) h hwork

/-- The referenced numbers are taken, the clock not read. -/
structure Premises.Taken (retention : ℕ) (seen : FirstSeen) (referenced : List ℕ) (w : Premises) :
    Prop extends w.Between retention seen where
  taken : w.taken = true
  current : w.current ⊆ referenced

theorem Premises.Taken.work {seen : FirstSeen} (h : w.Taken retention seen referenced)
    (hwork : Work true retention w w') : w'.Taken retention seen referenced := by
  refine work_keeps (fun w w' h hstep hcalm => ⟨?_, ?_, ?_⟩) h hwork
  · exact ⟨h.sound.step hstep hcalm, fun storeId x hx => (h.seen storeId x hx).step hstep⟩
  · cases hstep with
    | put | commit | abandon | collect | tick => exact h.taken
  · exact List.Subset.trans (hcalm.commit h.taken) h.current

/-- What was put the retention before this reading and not referenced is dead. -/
structure Premises.Read (retention : ℕ) (seen : FirstSeen) (referenced : List ℕ) (now : ℕ)
    (w : Premises) : Prop extends w.Between retention seen where
  read : now ≤ w.clock
  dead : ∀ n ∈ w.used, n ∉ referenced → (∀ p, (n, p) ∈ w.putAt → p + retention ≤ now) → Dead w n

theorem Premises.Read.moved {seen : FirstSeen} (h : w.Read retention seen referenced now)
    (taken : Bool) (awaited : ℕ) :
    Read retention seen referenced now { w with taken := taken, awaited := awaited } :=
  ⟨h.toBetween.moved taken awaited, h.read, h.dead⟩

theorem Premises.Taken.read {seen : FirstSeen} (h : w.Taken retention seen referenced) :
    w.Read retention seen referenced w.clock := by
  refine ⟨h.toBetween, le_rfl, fun n hused hgone hold =>
    ⟨hused, fun hcurrent => ?_, fun hunderWay => ?_⟩⟩
  · exact hgone (h.current hcurrent)
  · obtain ⟨p, hp, hlate⟩ := h.sound.underWay n hunderWay
    have hle := hold p hp
    omega

theorem Premises.Read.work {seen : FirstSeen} (h : w.Read retention seen referenced now)
    (hwork : Work true retention w w') : w'.Read retention seen referenced now := by
  refine work_keeps (fun w w' h hstep hcalm => ?_) h hwork
  have hbetween : w'.Between retention seen :=
    ⟨h.sound.step hstep hcalm, fun storeId x hx => (h.seen storeId x hx).step hstep⟩
  have hdead : ∀ n ∈ w.used, n ∉ referenced →
      (∀ p, (n, p) ∈ w.putAt → p + retention ≤ now) → Dead w' n :=
    fun n hused hgone hold => (h.dead n hused hgone hold).step hstep
  refine ⟨hbetween, h.read.trans hcalm.clock, ?_⟩
  cases hstep with
  | put m storeId hfresh =>
    intro n hused hgone hold
    rcases mem_cons.1 hused with rfl | hused
    · -- what is put after the reading is younger than the retention
      have hlate := hcalm.underWay n mem_cons_self (n, w.clock) mem_cons_self rfl
      have hle := hold w.clock mem_cons_self
      have hnow := h.read
      simp only [Premises.put] at hlate
      omega
    · exact hdead n hused hgone fun p hp => hold p (mem_cons_of_mem _ hp)
  | commit | abandon | collect | tick => exact hdead

theorem Premises.PutBy.work {name : Bytes} {time : ℕ} (h : w.PutBy name time)
    (hwork : Work true retention w w') : w'.PutBy name time :=
  work_keeps (I := (·.PutBy name time)) (fun _ _ h hstep _ => h.step hstep) h hwork

theorem Premises.Listed.work {listings : List (Bytes × Except Status (List Bytes))}
    (h : w.Listed now listings) (hwork : Work true retention w w') : w'.Listed now listings :=
  fun x hx names hok name hname => (h x hx names hok name hname).work hwork

/-- All that was put was put by the pass's reading. -/
structure Premises.Awaiting (now count : ℕ) (w : Premises) : Prop where
  left : w.awaited = count
  put : count ≠ 0 → ∀ x ∈ w.putAt, x.2 ≤ now

theorem Premises.Awaiting.work {count : ℕ} (h : w.Awaiting now count)
    (hwork : Work true retention w w') : w'.Awaiting now count := by
  refine work_keeps (fun w w' h hstep hcalm => ⟨?_, fun hcount => ?_⟩) h hwork
  · cases hstep with
    | put | commit | abandon | collect | tick => exact h.left
  · rw [hcalm.put (h.left.trans_ne hcount)]
    exact h.put hcount

variable {seen : FirstSeen} {config : SweepConfig}

theorem listAllStores_safe (stores : List Bytes) {listed : List (Bytes × Except Status (List Bytes))}
    (h : w.Read retention seen referenced now) (hlisted : w.Listed now listed)
    (hawaiting : w.Awaiting now stores.length) :
    (listAllStores stores).Safe (Premises.Reply config) (Work true retention)
      (fun _ _ => True) (fun _ => True)
      (fun listings w' => w'.Read retention seen referenced now ∧
        w'.Listed now (listed ++ listings)) w := by
  induction stores generalizing w listed with
  | nil =>
    refine Safe.pure fun w₁ hwork => ⟨trivial, h.work hwork, ?_⟩
    rw [append_nil]
    exact hlisted.work hwork
  | cons storeId stores ih =>
    refine Safe.ask fun w₁ hwork => ⟨trivial, ?_⟩
    rintro names _ ⟨rfl, hnames⟩
    have h₁ := h.work hwork
    have hawaiting₁ := hawaiting.work hwork
    set w₂ : Premises := { w₁ with awaited := w₁.awaited - 1 } with hw₂
    -- the listing was awaited until now, so what it names was put by the reading
    have hlisted₂ : w₂.Listed now (listed ++ [(storeId, names)]) := by
      intro x hx names' hok name hname
      rcases mem_append.1 hx with hx | hx
      · exact hlisted.work hwork x hx names' hok name hname
      · obtain rfl := mem_singleton.1 hx
        intro n hn
        exact ⟨h₁.sound.stored storeId name (hnames names' hok hname) n hn,
          fun p hp => hawaiting₁.put (Nat.succ_ne_zero _) (n, p) hp⟩
    have hawaiting₂ : w₂.Awaiting now stores.length :=
      ⟨by rw [hw₂, hawaiting₁.left]; rfl, fun _ => hawaiting₁.put (Nat.succ_ne_zero _)⟩
    refine ⟨trivial, Safe.bind (fun w => .refl)
      ((ih (h₁.moved w₂.taken _) hlisted₂ hawaiting₂).weaken ?_)⟩
    rintro listings w₃ ⟨h₃, hlisted₃⟩
    refine Safe.pure fun w₄ hwork' => ⟨trivial, h₃.work hwork', ?_⟩
    rw [append_cons]
    exact hlisted₃.work hwork'

theorem of_mem_collectableNames {pending : List ℕ} {seen : List (Bytes × ℕ)}
    {names : List Bytes} {name : Bytes}
    (h : name ∈ collectableNames config referenced pending now seen names) {n : ℕ}
    (hn : sstFileNumber name = some n) :
    name ∈ names ∧ n ∉ referenced ∧ firstSeen seen now name + config.orphanRetention ≤ now := by
  obtain ⟨hname, hcollect⟩ := mem_filter.1 h
  simp only [isCandidate, isAged, hn, Bool.and_eq_true, decide_eq_true_eq] at hcollect
  exact ⟨hname, hcollect.1.1, by omega⟩

theorem putBy_firstSeen {seen : List (Bytes × ℕ)} (hseen : ∀ x ∈ seen, w.PutBy x.1 x.2) {name : Bytes}
    (hname : w.PutBy name now) : w.PutBy name (firstSeen seen now name) := by
  unfold firstSeen
  cases hlookup : seen.lookup name with
  | none => exact hname
  | some time =>
    obtain ⟨before, after, rfl, -⟩ := lookup_eq_some_iff.1 hlookup
    exact hseen (name, time) (mem_append_right _ mem_cons_self)

/-- What a listing leaves in `orphan_first_seen_` was put by its first sight too. -/
theorem seen_stillPresent (hseen : w.Seen seen) {storeId : Bytes} {names : List Bytes}
    (hnames : ∀ name ∈ names, w.PutBy name now) (pending : List ℕ) :
    w.Seen (update seen storeId
      (stillPresent config referenced pending now (seen storeId) names)) := by
  intro storeId' x hx
  by_cases hstore : storeId' = storeId
  · subst hstore
    rw [update_self] at hx
    obtain ⟨name, hname, rfl⟩ := mem_map.1 hx
    exact putBy_firstSeen (hseen _) (hnames name (mem_filter.1 hname).1)
  · rw [update_of_ne hstore] at hx
    exact hseen storeId' x hx

/-- Ageing: what a listing yields for removal is dead. -/
theorem Premises.Read.dead_of_collectable (h : w.Read config.orphanRetention seen referenced now)
    {storeId : Bytes} {names : List Bytes} (hnames : ∀ name ∈ names, w.PutBy name now)
    {pending : List ℕ} {name : Bytes}
    (hname : name ∈ collectableNames config referenced pending now (seen storeId) names) {n : ℕ}
    (hn : sstFileNumber name = some n) : Dead w n := by
  obtain ⟨hmem, hgone, haged⟩ := of_mem_collectableNames hname hn
  obtain ⟨hused, hput⟩ := putBy_firstSeen (h.seen storeId) (hnames name hmem) n hn
  refine h.dead n hused hgone fun p hp => ?_
  have hle := hput p hp
  omega

theorem Premises.Read.remove (h : w.Read retention seen referenced now) {storeId : Bytes}
    {names : List Bytes}
    (hdead : ∀ name ∈ names, ∀ n, sstFileNumber name = some n → Dead w n) :
    Read retention seen referenced now
      { w with removed := w.removed ++ [⟨storeId, names, w.current⟩] } := by
  refine ⟨⟨⟨h.sound.underWay, h.sound.put, h.sound.stored, ?_⟩, h.seen⟩, h.read, h.dead⟩
  intro r hr name hname n hn
  rcases mem_append.1 hr with hr | hr
  · exact h.sound.removed r hr name hname n hn
  · obtain rfl := mem_singleton.1 hr
    exact ⟨(hdead name hname n hn).2.1, hdead name hname n hn⟩

theorem sweepStores_safe (pending : List ℕ) {listings : List (Bytes × Except Status (List Bytes))}
    (h : w.Read config.orphanRetention seen referenced now) (hlisted : w.Listed now listings) :
    (sweepStores config referenced pending now listings seen).Safe
      (Premises.Reply config) (Work true config.orphanRetention) (fun _ _ => True) (fun _ => True)
      (fun x w' => w'.Between config.orphanRetention x.2) w := by
  induction listings generalizing seen w with
  | nil => exact Safe.pure fun w₁ hwork => ⟨trivial, h.toBetween.work hwork⟩
  | cons x listings ih =>
    obtain ⟨storeId, names⟩ := x
    have hrest : w.Listed now listings := fun x hx => hlisted x (mem_cons_of_mem _ hx)
    match names with
    | .error status => exact Safe.pure fun w₁ hwork => ⟨trivial, h.toBetween.work hwork⟩
    | .ok names =>
      have hnames : ∀ name ∈ names, w.PutBy name now := hlisted _ mem_cons_self names rfl
      have hseen : w.Read config.orphanRetention (update seen storeId
          (stillPresent config referenced pending now (seen storeId) names)) referenced now :=
        { h with seen := seen_stillPresent h.seen hnames pending }
      unfold sweepStores
      simp only
      split_ifs
      · exact ih hseen hrest
      · refine Safe.ask fun w₁ hwork => ⟨trivial, ?_⟩
        rintro status _ rfl
        have hrest₁ := hrest.work hwork
        refine ⟨trivial, ih ((hseen.work hwork).remove fun name hname n hn => ?_) hrest₁⟩
        exact (h.work hwork).dead_of_collectable (fun name hname => (hnames name hname).work hwork)
          hname hn

theorem sweepOrphans_safe (h : w.Between config.orphanRetention seen) :
    (sweepOrphans config seen).Safe (Premises.Reply config)
      (Work true config.orphanRetention) (fun _ _ => True) (fun _ => True)
      (fun x w' => w'.Between config.orphanRetention x.2) w := by
  unfold sweepOrphans
  split_ifs
  · exact Safe.pure fun w₁ hwork => ⟨trivial, h.work hwork⟩
  · refine Safe.ask fun w₁ hwork₁ => ⟨trivial, ?_⟩
    rintro advanced _ rfl
    refine ⟨trivial, ?_⟩
    have h₁ := h.work hwork₁
    split_ifs
    · refine Safe.ask fun w₂ hwork₂ => ⟨trivial, ?_⟩
      rintro _ _ rfl
      exact ⟨trivial, Safe.pure fun w₃ hwork₃ => ⟨trivial, (h₁.work hwork₂).work hwork₃⟩⟩
    · refine Safe.ask fun w₂ hwork₂ => ⟨trivial, ?_⟩
      rintro referenced _ ⟨rfl, rfl⟩
      have htaken : Premises.Taken config.orphanRetention seen w₂.current
          { w₂ with taken := true } :=
        ⟨(h₁.work hwork₂).moved _ _, rfl, List.Subset.refl _⟩
      refine ⟨trivial, Safe.ask fun w₃ hwork₃ => ⟨trivial, ?_⟩⟩
      rintro pending _ ⟨rfl, rfl⟩
      refine ⟨trivial, Safe.ask fun w₄ hwork₄ => ⟨trivial, ?_⟩⟩
      rintro now _ ⟨rfl, rfl⟩
      have hread := ((htaken.work hwork₃).work hwork₄).read
      have hawaiting : Premises.Awaiting w₄.clock config.stores.length
          { w₄ with taken := false, awaited := config.stores.length } :=
        ⟨rfl, fun _ x hx => (hread.sound.put x.1 x.2 hx).2⟩
      refine ⟨trivial, Safe.bind (fun w => .refl)
        ((listAllStores_safe config.stores (hread.moved _ _) (nofun : Premises.Listed _ _ [])
          hawaiting).weaken ?_)⟩
      rintro listings w₅ ⟨hread₅, hlisted⟩
      exact sweepStores_safe _ hread₅ hlisted

end Stages

/-- Nothing is under way, and all numbers there are used. -/
structure Premises.Opened (w : Premises) : Prop where
  underWay : w.underWay = []
  putAt : w.putAt = []
  removed : w.removed = []
  current : w.current ⊆ w.used
  pending : w.pending ⊆ w.used
  stored : ∀ storeId, ∀ name ∈ w.stored storeId, ∀ n, sstFileNumber name = some n → n ∈ w.used

theorem Premises.Opened.between (h : w.Opened) (retention : ℕ) :
    w.Between retention fun _ => [] := by
  refine ⟨⟨?_, ?_, h.stored, ?_⟩, fun _ => nofun⟩
  · rw [h.underWay]
    nofun
  · rw [h.putAt]
    nofun
  · rw [h.removed]
    nofun

/-- Passes among the workers, calm ones with `calm`. -/
inductive SweepRun (calm : Bool) (config : SweepConfig) (w₀ : Premises) :
    FirstSeen → Premises → Prop
  | opened : SweepRun calm config w₀ (fun _ => []) w₀
  | work {seen w w'} (hrun : SweepRun calm config w₀ seen w)
      (hwork : Work calm config.orphanRetention w w') : SweepRun calm config w₀ seen w'
  | swept {seen seen' w w' status worlds} (hrun : SweepRun calm config w₀ seen w)
      (hpass : (sweepOrphans config seen).Among (Premises.Reply config)
        (Work calm config.orphanRetention) w (status, seen') worlds w') :
      SweepRun calm config w₀ seen' w'

theorem SweepRun.between {config : SweepConfig} {w₀ : Premises} (hopened : w₀.Opened)
    {seen : FirstSeen} (hrun : SweepRun true config w₀ seen w) :
    w.Between config.orphanRetention seen := by
  induction hrun with
  | opened => exact hopened.between _
  | work _ hwork ih => exact ih.work hwork
  | swept _ hpass ih => exact (sweepOrphans_safe ih).among hpass

/-- In calm runs no object removed was current then or is in a later version. -/
theorem sweep_spares_referenced {config : SweepConfig} {w₀ : Premises} (hopened : w₀.Opened)
    {seen : FirstSeen} (hrun : SweepRun true config w₀ seen w) :
    ∀ r ∈ w.removed, ∀ name ∈ r.names, ∀ n, sstFileNumber name = some n →
      n ∉ r.current ∧ n ∉ w.current := by
  intro r hr name hname n hn
  obtain ⟨hcurrent, -, hgone, -⟩ := (hrun.between hopened).sound.removed r hr name hname n hn
  exact ⟨hcurrent, hgone⟩

/-! An object is put while a pass lists, so it is first seen at the reading before its put. -/

/-- Nothing changes in between. -/
def Premises.answer : (c : SweepCall) → Premises → c.Result × Premises
  | .manifestAdvanced, w => (false, w)
  | .markFenced, w => ((), w)
  | .referencedFileNumbers, w => (w.current, { w with taken := true })
  | .pendingFileNumbers, w => (w.pending, w)
  | .nowMs, w => (w.clock, { w with taken := false, awaited := config.stores.length })
  | .list storeId, w => (.ok (w.stored storeId), { w with awaited := w.awaited - 1 })
  | .removeMany storeId names, w =>
    (Status.ok, { w with removed := w.removed ++ [⟨storeId, names, w.current⟩] })

theorem Premises.reply_answer (c : SweepCall) (w : Premises) :
    Premises.Reply config c w (answer config c w).1 (answer config c w).2 := by
  cases c with
  | list storeId => exact ⟨rfl, fun names hok => by cases hok; exact List.Subset.refl _⟩
  | referencedFileNumbers | pendingFileNumbers | nowMs => exact ⟨rfl, rfl⟩
  | manifestAdvanced | markFenced | removeMany => rfl

/-- One store and a retention of 100. -/
def sweepConfig : SweepConfig := { stores := [[1]], orphanRetention := 100 }

/-- Object 7 is put while the first pass lists. -/
def putAt50 : Premises := ({ clock := 50, awaited := 1 } : Premises).put 7 [1]

theorem work_putAt50 : Work false 100 { awaited := 1 } putAt50 := by
  have htick : WorkerStep { awaited := 1 } { clock := 50, awaited := 1 } := .tick 50
  have hput : WorkerStep { clock := 50, awaited := 1 } putAt50 := .put 7 [1] (by decide)
  exact .tail (.single ⟨htick, by decide +kernel, nofun⟩) ⟨hput, by decide +kernel, nofun⟩

/-- The rest of the first pass, from its listing on. -/
def firstListing := (listAllStores [[1]] >>= fun listings =>
  sweepStores sweepConfig [] [] 0 listings fun _ => []).run (Premises.answer sweepConfig) putAt50

/-- The second pass, at reading 100. -/
def secondPass := (sweepOrphans sweepConfig firstListing.1.2).run (Premises.answer sweepConfig)
  { firstListing.2 with clock := 100 }

theorem opened_empty : ({} : Premises).Opened :=
  ⟨rfl, rfl, rfl, nil_subset _, nil_subset _, nofun⟩

theorem sweep_removes_referenced : ({} : Premises).Opened ∧
    SweepRun false sweepConfig {} secondPass.1.2 (secondPass.2.commit [7] []) ∧
    ∃ r ∈ (secondPass.2.commit [7] []).removed, ∃ name ∈ r.names, sstFileNumber name = some 7 ∧
      7 ∈ (secondPass.2.commit [7] []).current := by
  have hanswer := Premises.reply_answer sweepConfig
  have hrefl : ∀ w, Work false sweepConfig.orphanRetention w w := fun w => .refl
  obtain ⟨worlds, hlisting⟩ := exists_among_of_run hanswer hrefl work_putAt50
    (rfl : _ = (firstListing.1, firstListing.2))
  have hfirst : ∃ worlds, (sweepOrphans sweepConfig fun _ => []).Among
      (Premises.Reply sweepConfig) (Work false sweepConfig.orphanRetention) {}
      firstListing.1 worlds firstListing.2 :=
    ⟨_, {}, false, {}, _, hrefl _, rfl, rfl, {}, [], { taken := true }, _, hrefl _, ⟨rfl, rfl⟩, rfl,
      _, [], _, _, hrefl _, ⟨rfl, rfl⟩, rfl, _, 0, _, _, hrefl _, ⟨rfl, rfl⟩, rfl, hlisting⟩
  obtain ⟨_, hfirst⟩ := hfirst
  have hrun₁ : SweepRun false sweepConfig {} firstListing.1.2 firstListing.2 :=
    .swept .opened hfirst
  have hticked : Work false sweepConfig.orphanRetention firstListing.2
      { firstListing.2 with clock := 100 } := .single ⟨.tick 100, by decide +kernel, nofun⟩
  obtain ⟨_, hsecond⟩ := exists_among_of_run hanswer hrefl hticked
    (rfl : _ = (secondPass.1, secondPass.2))
  have hcommitted : Work false sweepConfig.orphanRetention secondPass.2
      (secondPass.2.commit [7] []) :=
    .single ⟨.commit [7] [] (by decide +kernel), by decide +kernel, nofun⟩
  exact ⟨opened_empty, (hrun₁.swept hsecond).work hcommitted, by decide +kernel⟩

/-! The flush puts the object before the first pass and gives up; a second flush's object 8 is
committed between the passes. -/

/-- Objects 7 and 8 are put at 50, and the first flush gave up. -/
def bothPut : Premises :=
  let put := (({ clock := 50 } : Premises).put 7 [1]).put 8 [1]
  { put with underWay := [8] }

/-- The first pass, and the commit of object 8. -/
def passAt50 := (sweepOrphans sweepConfig fun _ => []).run (Premises.answer sweepConfig) bothPut

/-- The second pass, at reading 150. -/
def passAt150 := (sweepOrphans sweepConfig passAt50.1.2).run (Premises.answer sweepConfig)
  { passAt50.2.commit [8] [] with clock := 150 }

theorem sweep_spares_committed :
    SweepRun true sweepConfig {} passAt150.1.2 passAt150.2 ∧
    passAt150.2.removed = [⟨[1], [sstObjectName 7], [8]⟩] ∧ passAt150.2.current = [8] ∧
    ∀ r ∈ passAt150.2.removed, ∀ name ∈ r.names, ∀ n, sstFileNumber name = some n →
      n ∉ r.current ∧ n ∉ passAt150.2.current := by
  have hanswer := Premises.reply_answer sweepConfig
  have hrefl : ∀ w, Work true sweepConfig.orphanRetention w w := fun w => .refl
  have hput : Work true sweepConfig.orphanRetention {} bothPut :=
    (((Relation.ReflTransGen.single ⟨.tick 50, by decide +kernel, by decide +kernel⟩).tail
      ⟨.put 7 [1] (by decide +kernel), by decide +kernel, by decide +kernel⟩).tail
      ⟨.put 8 [1] (by decide +kernel), by decide +kernel, by decide +kernel⟩).tail
      ⟨.abandon 7, by decide +kernel, by decide +kernel⟩
  obtain ⟨_, hfirst⟩ := exists_among_of_run hanswer hrefl (hrefl _)
    (rfl : _ = (passAt50.1, passAt50.2))
  have hcommit : Work true sweepConfig.orphanRetention passAt50.2
      { passAt50.2.commit [8] [] with clock := 150 } :=
    (Relation.ReflTransGen.single
      ⟨.commit [8] [] (by decide +kernel), by decide +kernel, by decide +kernel⟩).tail
      ⟨.tick 150, by decide +kernel, by decide +kernel⟩
  obtain ⟨_, hsecond⟩ := exists_among_of_run hanswer hrefl (hrefl _)
    (rfl : _ = (passAt150.1, passAt150.2))
  have hrun : SweepRun true sweepConfig {} passAt150.1.2 passAt150.2 :=
    ((SweepRun.opened.work hput).swept hfirst |>.work hcommit).swept hsecond
  exact ⟨hrun, by decide +kernel, by decide +kernel, sweep_spares_referenced opened_empty hrun⟩

end ElysiumKV
