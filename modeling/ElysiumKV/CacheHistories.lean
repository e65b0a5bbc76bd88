import ElysiumKV.CacheStores
import ElysiumKV.Lib.Tally
import Mathlib.Algebra.Order.BigOperators.Group.Finset

/-!
# Histories of a cache store

One operation after another. Each shard stays coherent with the delegate, and the budget adds up
(`Sound`); so a get gives what the object has, or the error of its read.
-/

namespace ElysiumKV

open Program Prog List Function CacheProg

variable {ε σ β : Type} {config : CacheConfig}

namespace CacheWorld

variable (P : Payload ε σ β)

/-- A store that has been made, with nothing cached. -/
def fresh (config : CacheConfig) (contents : Bytes → Option Bytes)
    (shared : β) : CacheWorld config σ β where
  shards _ := { payload := P.empty, maxBytes := config.shardBytes }
  shared := shared
  contents := contents

/-- What the shards hold of the budget. -/
def charge (P : Payload ε σ β) (w : CacheWorld config σ β) : ℕ :=
  ∑ i, P.charge (w.shards i).payload

/-- The bytes the shards count. -/
def cachedBytes (w : CacheWorld config σ β) : ℕ := ∑ i, (w.shards i).cachedBytes

/-- The bytes the payloads hold. -/
def heldBytes (w : CacheWorld config σ β) : ℕ :=
  ∑ i, Chunks.total (P.chunks (w.shards i).payload)

/-- Between two operations, others holding `others` bytes of the budget. -/
structure Sound (P : Payload ε σ β) (w : CacheWorld config σ β) (others : ℕ) : Prop where
  coherent : ∀ i, (w.shards i).Coherent P w.contents
  maxBytes : ∀ i, (w.shards i).maxBytes = config.shardBytes
  placed : ∀ i name, config.shardFor name ≠ i → (w.shards i).Lacks P name
  used : P.used w.shared = others + w.charge P

variable {P} {w : CacheWorld config σ β} {others : ℕ}

theorem sound_fresh (contents : Bytes → Option Bytes) (shared : β) :
    (fresh P config contents shared).Sound P (P.used shared) where
  coherent _ := by
    refine ⟨nodup_nil, nofun, nofun, rfl, ?_, ?_, nofun, Nat.zero_le _, P.wf_empty⟩
    · rw [fresh, P.chunks_empty]
      exact .nil
    · rw [fresh, P.chunks_empty]
      nofun
  maxBytes _ := rfl
  placed _ _ _ := by
    rw [Shard.Lacks, fresh, P.chunks_empty]
    nofun
  used := by simp [charge, fresh, P.charge_empty]

variable {name : Bytes}

theorem Sound.onShard (h : w.Sound P others) {f : Shard σ → β → Shard σ × β}
    (hkept : Shard.Kept P w.contents (w.shards (config.shardFor name)) w.shared
      (f (w.shards (config.shardFor name)) w.shared))
    (hlacks : ∀ n, name ≠ n → (w.shards (config.shardFor name)).Lacks P n →
      (f (w.shards (config.shardFor name)) w.shared).1.Lacks P n) :
    (w.onShard name f).Sound P others := by
  refine ⟨?_, ?_, ?_, ?_⟩
  · exact forall_onShard (p := fun _ c => c.Coherent P w.contents) hkept.coherent h.coherent
  · exact forall_onShard (p := fun _ c => c.maxBytes = config.shardBytes)
      (hkept.maxBytes.trans (h.maxBytes _)) h.maxBytes
  · refine forall_onShard (p := fun i c => ∀ n, config.shardFor n ≠ i → c.Lacks P n) ?_ h.placed
    intro n hn
    exact hlacks n (fun heq => hn (heq ▸ rfl)) (h.placed _ n hn)
  · have hused := h.used
    have hsum := Tally.sum_update (fun c : Shard σ => P.charge c.payload) w.shards (config.shardFor name)
      (f (w.shards (config.shardFor name)) w.shared).1
    have hle : P.charge (w.shards (config.shardFor name)).payload ≤ w.charge P :=
      Finset.single_le_sum (f := fun i => P.charge (w.shards i).payload) (fun _ _ => Nat.zero_le _)
        (Finset.mem_univ (config.shardFor name))
    have hbalance := hkept.balanced (by omega)
    show P.used (f (w.shards (config.shardFor name)) w.shared).2 = others +
      ∑ i, P.charge (update w.shards (config.shardFor name) _ i).payload
    unfold charge at hused
    omega

theorem Sound.of_agree (h : w.Sound P others) {contents : Bytes → Option Bytes}
    (hagree : ∀ name, contents name = w.contents name ∨ w.Lacks P name) :
    { w with contents }.Sound P others := by
  refine ⟨fun i => (h.coherent i).of_agree fun name => ?_, h.maxBytes, h.placed, h.used⟩
  by_cases hi : config.shardFor name = i
  · exact hi ▸ hagree name
  · exact .inr (h.placed i name hi)

theorem Sound.with_flights (h : w.Sound P others) (flights : List Flight) :
    { w with flights }.Sound P others :=
  ⟨h.coherent, h.maxBytes, h.placed, h.used⟩

/-- The call is answered so. -/
def Replies (P : Payload ε σ β) (o : Outside ε) (c : CacheCall) (w : CacheWorld config σ β)
    (r : c.Reply) (w' : CacheWorld config σ β) : Prop := answer P o c w = (r, w')

/-- No fetch is under way. -/
def Landed (w : CacheWorld config σ β) : Prop := ∀ f ∈ w.flights, f.listed = false

/-- What a get may return: bytes of the object, or the error of its read. -/
def Answers (contents : Bytes → Option Bytes) (fault : Option Failure) (granularity : ℕ)
    (name : Bytes) (offset len : ℕ) (result : Except Status Bytes) : Prop :=
  (∃ data, contents name = some data ∧ result = .ok (readRange data offset len)) ∨
    ∃ s, delegateGet contents fault name (planFetch offset len granularity).offset
        (planFetch offset len granularity).len = .error s ∧ result = .error s

theorem window_eq_readRange (fetched : Bytes) (skip len : ℕ) :
    window fetched skip len = readRange fetched skip len := by
  unfold window readRange
  split_ifs with hskip hlen hlen
  · rw [drop_eq_nil_of_le hskip]
  · rw [drop_eq_nil_of_le hskip, take_nil]
  · rw [← length_drop, take_length]
  · dsimp only
    rw [← length_drop, Nat.min_comm, ← take_take, take_length]

variable {offset len : ℕ}

theorem readRange_readRange (data : Bytes) {granularity : ℕ} (h : InRange offset len granularity) :
    readRange (readRange data (planFetch offset len granularity).offset
        (planFetch offset len granularity).len)
      (offset - (planFetch offset len granularity).offset) len = readRange data offset len := by
  obtain ⟨hle, hcovers⟩ := planFetch_covers h
  generalize planFetch offset len granularity = plan at hle hcovers
  obtain ⟨start, size⟩ := plan
  dsimp only at hle hcovers ⊢
  have hskip : start + (offset - start) = offset := by omega
  by_cases hsize : size = readToEnd
  · simp only [readRange, if_pos hsize, drop_drop, hskip]
  · obtain ⟨hlen, hend⟩ := hcovers.resolve_left hsize
    have hwithin : min len (size - (offset - start)) = len := by omega
    simp only [readRange, if_neg hsize, if_neg hlen, drop_take, drop_drop, hskip,
      take_take, hwithin]

variable {o : Outside ε}

theorem fetch_alone (h : w.Sound P others) (name : Bytes) (plan : FetchPlan) :
    (fetch name plan).Alone (Replies P o) (fun _ => True) (fun r w' =>
      w'.Sound P others ∧ w'.contents = w.contents ∧ w'.flights = w.flights ∧
        r = delegateGet w.contents o.read name plan.offset plan.len) w := by
  unfold fetch
  refine Alone.ask trivial fun r w' hr => ?_
  obtain ⟨rfl, rfl⟩ := Prod.mk.inj hr
  cases hget : delegateGet w.contents o.read name plan.offset plan.len with
  | error s => exact Alone.pure trivial ⟨h, rfl, rfl, rfl⟩
  | ok bytes =>
    obtain ⟨data, hdata, rfl⟩ := mem_of_delegateGet hget
    refine Alone.ask trivial fun r w' hr => Alone.pure trivial ?_
    obtain ⟨-, rfl⟩ := Prod.mk.inj hr
    have hkept := Shard.insert_kept (b := w.shared) (h.coherent (config.shardFor name)) o.payload
      hdata (Range.of_readRange data plan.offset plan.len)
    exact ⟨h.onShard hkept fun n hn hlacks => hlacks.insert _ hn _ _ _, rfl, rfl, rfl⟩

theorem join_of_landed (h : w.Landed) (key : FlightKey) :
    answer P o (.join key) w = ((w.flights.length, true),
      { w with flights := w.flights ++ [{ key, gone := (w.contents key.name).isNone }] }) := by
  have hnone : w.flights.findIdx? (fun f => f.listed ∧ f.key = key) = none := by
    refine List.findIdx?_eq_none_iff.2 fun f hf => ?_
    simp [h f hf]
  simp only [answer, hnone]
  rfl

theorem singleFlight_alone (h : w.Sound P others) (hlanded : w.Landed) (name : Bytes)
    (plan : FetchPlan) :
    (singleFlight ⟨name, plan.offset, plan.len⟩ (fetch name plan)).Alone
      (Replies P o) (fun _ => True) (fun r w' => w'.Sound P others ∧ w'.Landed ∧
        w'.contents = w.contents ∧
        r = delegateGet w.contents o.read name plan.offset plan.len) w := by
  unfold singleFlight
  refine Alone.ask trivial fun r w' hr => ?_
  rw [Replies, join_of_landed hlanded] at hr
  obtain ⟨rfl, rfl⟩ := Prod.mk.inj hr
  show (lead _ w.flights.length _).Alone _ _ _ _
  unfold lead
  refine Alone.bind ((fetch_alone (h.with_flights _) name plan).weaken ?_)
  rintro result w₁ ⟨hsound, hcontents, hflights, rfl⟩
  refine Alone.ask trivial fun r w₂ hr => ?_
  obtain ⟨-, rfl⟩ := Prod.mk.inj hr
  refine Alone.ask trivial fun r w₃ hr => ?_
  obtain ⟨-, rfl⟩ := Prod.mk.inj hr
  refine Alone.ask trivial fun r w₄ hr => ?_
  obtain ⟨-, rfl⟩ := Prod.mk.inj hr
  refine Alone.pure trivial ⟨hsound.with_flights _, ?_, hcontents, rfl⟩
  -- only the caller's own flight was listed, and its key is retired
  let own : Flight → Prop := fun f => f.listed = true → f.key = ⟨name, plan.offset, plan.len⟩
  have hown : ∀ f ∈ w₁.flights, own f := by
    intro f hf hlisted
    rw [hflights] at hf
    rcases mem_append.1 hf with hf | hf
    · simp [hlanded f hf] at hlisted
    · rw [mem_singleton.1 hf]
  intro f hf
  obtain ⟨x, hx, rfl⟩ := mem_map.1 hf
  split_ifs with hkey
  · rfl
  · have hlater : own x := of_mem_onFlight (p := own) hx
      (fun y hy => of_mem_onFlight (p := own) hy hown fun _ h => h) fun _ h => h
    exact Bool.eq_false_iff.2 fun hlisted => hkey (hlater hlisted)

theorem serveGet_alone (h : w.Sound P others) (hlanded : w.Landed)
    (hin : InRange offset len config.fetchGranularity) :
    (serveGet config name offset len).Alone (Replies P o) (fun _ => True) (fun r w' =>
      w'.Sound P others ∧ w'.Landed ∧ Answers w.contents o.read config.fetchGranularity name offset
        len r) w := by
  have hbound : len = readToEnd ∨ offset + len < 2 ^ 64 :=
    or_iff_not_imp_left.2 hin.add_lt
  unfold serveGet
  refine Alone.ask trivial fun r w' hr => ?_
  obtain ⟨rfl, rfl⟩ := Prod.mk.inj hr
  have hcoherent := h.coherent (config.shardFor name)
  have hkept := Shard.lookup_kept (b := w.shared) hcoherent o.payload name offset len
  have hsound := h.onShard (f := fun c b => (c.lookup P o.payload name offset len b).2) hkept
    fun n _ hlacks => hlacks.lookup _ _ _ _
  cases hfound : (w.shards (config.shardFor name)).lookup P o.payload name offset len w.shared with
  | mk found after => cases found with
    | some bytes =>
      obtain ⟨data, hdata, rfl⟩ := Shard.lookup_eq hcoherent hbound hfound
      exact Alone.pure trivial ⟨hsound, hlanded, .inl ⟨data, hdata, rfl⟩⟩
    | none =>
      refine Alone.bind ((singleFlight_alone hsound hlanded name _).weaken ?_)
      rintro result w₁ ⟨hsound₁, hlanded₁, -, hget⟩
      cases result with
      | error s => exact Alone.pure trivial ⟨hsound₁, hlanded₁, .inr ⟨s, hget.symm, rfl⟩⟩
      | ok fetched =>
        obtain ⟨data, hdata, rfl⟩ := mem_of_delegateGet hget.symm
        refine Alone.pure trivial ⟨hsound₁, hlanded₁, .inl ⟨data, hdata, ?_⟩⟩
        exact congrArg Except.ok ((window_eq_readRange ..).trans (readRange_readRange data hin))

theorem put_alone (h : w.Sound P others) (hlanded : w.Landed) (name bytes : Bytes) :
    (put config name bytes).Alone (Replies P o) (fun _ => True)
      (fun _ w' => w'.Sound P others ∧ w'.Landed) w := by
  have hnew (hnone : w.contents name = none) (left : Option Bytes) :
      { w with contents := update w.contents name left }.Sound P others := by
    refine h.of_agree fun n => ?_
    by_cases hn : n = name
    · subst hn
      exact .inr ((h.coherent _).lacks_of_none hnone)
    · exact .inl (update_of_ne hn ..)
  unfold put
  refine Alone.ask trivial fun status w' hr => ?_
  simp only [Replies, answer] at hr
  split at hr <;> obtain ⟨rfl, rfl⟩ := Prod.mk.inj hr
  next hnone _ =>
    have hsound := hnew hnone (some bytes)
    rw [if_neg (not_not_intro rfl)]
    split_ifs
    · refine Alone.ask trivial fun r w' hr => Alone.pure trivial ?_
      obtain ⟨-, rfl⟩ := Prod.mk.inj hr
      have hwhole : Range.Of ⟨0, bytes.length, true⟩ bytes bytes := ⟨by simp, rfl, by simp⟩
      have hdata : update w.contents name (some bytes) name = some bytes :=
        update_self ..
      have hkept := Shard.insert_kept (b := w.shared) (hsound.coherent (config.shardFor name))
        o.payload hdata hwhole
      exact ⟨hsound.onShard hkept fun n hn hlacks => hlacks.insert _ hn _ _ _, hlanded⟩
    · exact Alone.pure trivial ⟨hsound, hlanded⟩
  next s left hnone _ =>
    rw [if_pos s.2]
    exact Alone.pure trivial ⟨hnew hnone left, hlanded⟩
  next =>
    rw [if_pos nofun]
    exact Alone.pure trivial ⟨h, hlanded⟩
  next s _ _ _ =>
    rw [if_pos s.2]
    exact Alone.pure trivial ⟨h, hlanded⟩

theorem Sound.invalidate (h : w.Sound P others) (name : Bytes) :
    (w.onShard name fun c b => c.invalidate P name b).Sound P others ∧
      (w.onShard name fun c b => c.invalidate P name b).Lacks P name ∧
        ∀ n, w.Lacks P n → (w.onShard name fun c b => c.invalidate P name b).Lacks P n := by
  have hkept := Shard.invalidate_kept (b := w.shared) (h.coherent (config.shardFor name)) name
  refine ⟨h.onShard hkept fun n _ hlacks => hlacks.invalidate _, ?_, fun n hn => ?_⟩
  · rw [Lacks, onShard_self]
    exact Shard.lacks_invalidate
  · exact forall_onShard (p := fun i c => i = config.shardFor n → c.Lacks P n)
      (fun hi => Shard.Lacks.invalidate (hi ▸ hn) name) (fun i hi => hi ▸ hn) _ rfl

theorem invalidateAll_alone (names : List Bytes) :
    ∀ {w : CacheWorld config σ β}, w.Sound P others → w.Landed →
      (invalidateAll names).Alone (Replies P o) (fun _ => True) (fun _ w' =>
        w'.Sound P others ∧ w'.Landed ∧ (∀ n ∈ names, w'.Lacks P n) ∧
          ∀ n, w.Lacks P n → w'.Lacks P n) w := by
  induction names with
  | nil => exact fun h hlanded => Alone.pure trivial ⟨h, hlanded, nofun, fun _ => id⟩
  | cons name names ih =>
    intro w h hlanded
    refine Alone.ask trivial fun r w' hr => ?_
    obtain ⟨-, rfl⟩ := Prod.mk.inj hr
    obtain ⟨hsound, hlacks, hkeep⟩ := h.invalidate name
    refine (ih hsound hlanded).weaken ?_
    rintro - w₁ ⟨hsound₁, hlanded₁, hnames, hkeep₁⟩
    exact ⟨hsound₁, hlanded₁, forall_mem_cons.2 ⟨hkeep₁ name hlacks, hnames⟩,
      fun n hn => hkeep₁ n (hkeep n hn)⟩

theorem delegateRemove_alone (h : w.Sound P others) (hlanded : w.Landed) {names : List Bytes}
    (hlacks : ∀ n ∈ names, w.Lacks P n) :
    (delegateRemove names).Alone (Replies P o) (fun _ => True)
      (fun _ w' => w'.Sound P others ∧ w'.Landed) w := by
  have hgone {gone : List Bytes} (hsub : gone ⊆ names) : (w.without gone).Sound P others := by
    refine h.of_agree fun n => ?_
    by_cases hn : n ∈ gone
    · exact .inr (hlacks n (hsub hn))
    · exact .inl (if_neg hn)
  refine Alone.ask trivial fun status w' hr => ?_
  simp only [Replies, answer] at hr
  split at hr <;> obtain ⟨rfl, rfl⟩ := Prod.mk.inj hr
  · exact Alone.pure trivial ⟨hgone (List.Subset.refl _), hlanded⟩
  · exact Alone.pure trivial ⟨hgone (filter_subset_self _), hlanded⟩

theorem remove_alone (h : w.Sound P others) (hlanded : w.Landed) (name : Bytes) :
    (remove name).Alone (Replies P o) (fun _ => True)
      (fun _ w' => w'.Sound P others ∧ w'.Landed) w := by
  refine Alone.ask trivial fun r w' hr => ?_
  obtain ⟨-, rfl⟩ := Prod.mk.inj hr
  obtain ⟨hsound, hlacks, -⟩ := h.invalidate name
  exact delegateRemove_alone hsound hlanded (forall_mem_singleton.2 hlacks)

theorem removeMany_alone (h : w.Sound P others) (hlanded : w.Landed) (names : List Bytes) :
    (removeMany names).Alone (Replies P o) (fun _ => True)
      (fun _ w' => w'.Sound P others ∧ w'.Landed) w := by
  refine Alone.bind ((invalidateAll_alone names h hlanded).weaken ?_)
  rintro - w₁ ⟨hsound, hlanded₁, hlacks, -⟩
  exact delegateRemove_alone hsound hlanded₁ hlacks

/-- One operation, run alone. -/
def perform (P : Payload ε σ β) (o : Outside ε) (op : CacheOp) (w : CacheWorld config σ β) :
    CacheResult × CacheWorld config σ β :=
  (op.program config).run (answer P o) w

theorem exec_perform (P : Payload ε σ β) (o : Outside ε) (op : CacheOp)
    (w : CacheWorld config σ β) :
    (op.program config).Exec (Replies P o) w (w.perform P o op).1 (w.perform P o op).2 :=
  exec_of_run id (fun _ _ => rfl) _ w

end CacheWorld

/-- The far edge, rounded up, is a 64-bit number. -/
def CacheOp.InRange (config : CacheConfig) : CacheOp → Prop
  | get _ offset len => ElysiumKV.InRange offset len config.fetchGranularity
  | _ => True

/-- The states a store comes to, with what others hold of the budget. -/
inductive CacheHistory (P : Payload ε σ β) : CacheWorld config σ β → ℕ → Prop
  | created (contents : Bytes → Option Bytes) (shared : β) :
      CacheHistory P (.fresh P config contents shared) (P.used shared)
  | performed {w : CacheWorld config σ β} {others : ℕ} (op : CacheOp) (o : Outside ε)
      (hin : op.InRange config) :
      CacheHistory P w others → CacheHistory P (w.perform P o op).2 others
  | moved {w : CacheWorld config σ β} {others others' : ℕ} (shared : β)
      (hmoved : P.used shared + others = P.used w.shared + others') :
      CacheHistory P w others → CacheHistory P { w with shared } others'

namespace CacheWorld

variable {P : Payload ε σ β} {w : CacheWorld config σ β} {others : ℕ}

theorem Sound.perform (h : w.Sound P others) (hlanded : w.Landed) (o : Outside ε) {op : CacheOp}
    (hin : op.InRange config) :
    (w.perform P o op).2.Sound P others ∧ (w.perform P o op).2.Landed := by
  have halone : (op.program config).Alone (Replies P o) (fun _ => True)
      (fun _ w' => w'.Sound P others ∧ w'.Landed) w := by
    cases op with
    | get name offset len =>
      refine Alone.bind ((serveGet_alone h hlanded hin).weaken ?_)
      exact fun _ _ hpost => Alone.pure trivial ⟨hpost.1, hpost.2.1⟩
    | put name bytes =>
      refine Alone.bind ((put_alone h hlanded name bytes).weaken ?_)
      exact fun _ _ hpost => Alone.pure trivial hpost
    | remove name =>
      refine Alone.bind ((remove_alone h hlanded name).weaken ?_)
      exact fun _ _ hpost => Alone.pure trivial hpost
    | removeMany names =>
      refine Alone.bind ((removeMany_alone h hlanded names).weaken ?_)
      exact fun _ _ hpost => Alone.pure trivial hpost
    | invalidate name =>
      refine Alone.ask trivial fun r w' hr => Alone.pure trivial ?_
      obtain ⟨-, rfl⟩ := Prod.mk.inj hr
      exact ⟨(h.invalidate name).1, hlanded⟩
  exact halone.exec (exec_perform P o _ w)

theorem Sound.get_answers (h : w.Sound P others) (hlanded : w.Landed) (o : Outside ε) {name : Bytes}
    {offset len : ℕ} (hin : ElysiumKV.InRange offset len config.fetchGranularity) :
    ∃ result, (w.perform P o (.get name offset len)).1 = .got result ∧
      Answers w.contents o.read config.fetchGranularity name offset len result := by
  have halone : ((CacheOp.get name offset len).program config).Alone (Replies P o) (fun _ => True)
      (fun r _ => ∃ result, r = .got result ∧
        Answers w.contents o.read config.fetchGranularity name offset len result) w := by
    refine Alone.bind ((serveGet_alone h hlanded hin).weaken ?_)
    exact fun result _ hpost => Alone.pure trivial ⟨result, rfl, hpost.2.2⟩
  exact halone.exec (exec_perform P o _ w)

end CacheWorld

theorem CacheHistory.sound {P : Payload ε σ β} {w : CacheWorld config σ β} {others : ℕ}
    (h : CacheHistory P w others) : w.Sound P others ∧ w.Landed := by
  induction h with
  | created contents shared => exact ⟨CacheWorld.sound_fresh contents shared, nofun⟩
  | performed op o hin _ ih => exact ih.1.perform ih.2 o hin
  | @moved w others others' shared hmoved _ ih =>
    refine ⟨⟨ih.1.coherent, ih.1.maxBytes, ih.1.placed, ?_⟩, ih.2⟩
    have hused := ih.1.used
    show P.used shared = others' + w.charge P
    omega

namespace CacheWorld

variable {P : Payload ε σ β} {w : CacheWorld config σ β} {others : ℕ}

theorem Sound.cachedBytes_eq (h : w.Sound P others) : w.cachedBytes = w.heldBytes P :=
  Finset.sum_congr rfl fun i _ => (h.coherent i).cachedBytes_eq

theorem Sound.cachedBytes_le (h : w.Sound P others) : w.cachedBytes ≤ config.maxCacheBytes := by
  have hshards : ∀ i ∈ Finset.univ, (w.shards i).cachedBytes ≤ config.shardBytes :=
    fun i _ => (h.coherent i).limit.trans (h.maxBytes i).le
  calc w.cachedBytes
    _ ≤ Finset.univ.card • config.shardBytes := Finset.sum_le_card_nsmul _ _ _ hshards
    _ = shardCount config.maxCacheBytes * config.shardBytes := by
      rw [Finset.card_univ, Fintype.card_fin, smul_eq_mul]
    _ ≤ config.maxCacheBytes := Nat.mul_div_le _ _

theorem Sound.charge_eq {w : CacheWorld config MemoryPayload MemoryBudget}
    (h : w.Sound (memoryPayload true) others) : w.charge (memoryPayload true) = w.cachedBytes :=
  Finset.sum_congr rfl fun i _ => (h.coherent i).wf.held.trans (h.coherent i).cachedBytes_eq.symm

end CacheWorld

/-- Every get gives what the delegate's object has, or the error of its read; the bytes accounted
are those held, within the limit and charged to the budget. -/
theorem range_caching_transparent (config : CacheConfig) :
    (∀ (budgeted : Bool) (w : CacheWorld config MemoryPayload MemoryBudget) (others : ℕ),
      CacheHistory (memoryPayload budgeted) w others →
        (∀ o name offset len, InRange offset len config.fetchGranularity →
          ∃ result, (w.perform (memoryPayload budgeted) o (.get name offset len)).1 = .got result ∧
            CacheWorld.Answers w.contents o.read config.fetchGranularity name offset len result) ∧
        w.cachedBytes = w.heldBytes (memoryPayload budgeted) ∧
        w.cachedBytes ≤ config.maxCacheBytes ∧
        (budgeted = true → w.shared.used = others + w.cachedBytes)) ∧
    ∀ (w : CacheWorld config (List Chunk) Unit) (others : ℕ), CacheHistory diskPayload w others →
      (∀ o name offset len, InRange offset len config.fetchGranularity →
        ∃ result, (w.perform diskPayload o (.get name offset len)).1 = .got result ∧
          CacheWorld.Answers w.contents o.read config.fetchGranularity name offset len result) ∧
      w.cachedBytes = w.heldBytes diskPayload ∧ w.cachedBytes ≤ config.maxCacheBytes := by
  refine ⟨fun budgeted w others h => ?_, fun w others h => ?_⟩
  · obtain ⟨hsound, hlanded⟩ := h.sound
    refine ⟨fun o name offset len hin => hsound.get_answers hlanded o hin, hsound.cachedBytes_eq,
      hsound.cachedBytes_le, ?_⟩
    rintro rfl
    rw [← hsound.charge_eq]
    exact hsound.used
  · obtain ⟨hsound, hlanded⟩ := h.sound
    exact ⟨fun o name offset len hin => hsound.get_answers hlanded o hin, hsound.cachedBytes_eq,
      hsound.cachedBytes_le⟩

/-- One shard, fetching four bytes at a time. -/
def smallCache : CacheConfig where
  maxCacheBytes := 64
  cacheOnWrite := false
  fetchGranularity := 4
  hash _ := 0

/-- A memory cache over six bytes, after a get of one. -/
def afterOneGet : CacheWorld smallCache MemoryPayload MemoryBudget :=
  ((CacheWorld.fresh (memoryPayload true) smallCache
    (fun name => if name = [1] then some [10, 11, 12, 13, 14, 15] else none) ⟨100, 7⟩).perform
      (memoryPayload true) ⟨(), none, none, none⟩ (.get [1] 1 1)).2

theorem range_caching_transparent_afterOneGet :
    CacheHistory (memoryPayload true) afterOneGet 7 ∧ afterOneGet.cachedBytes = 4 ∧
      afterOneGet.shared.used = 7 + afterOneGet.cachedBytes ∧
      ∃ result, (afterOneGet.perform (memoryPayload true) ⟨(), none, none, none⟩
        (.get [1] 2 readToEnd)).1 = .got result ∧
          CacheWorld.Answers afterOneGet.contents none 4 [1] 2 readToEnd result := by
  have hhistory : CacheHistory (memoryPayload true) afterOneGet 7 := by
    refine .performed (.get [1] 1 1) _ ⟨by decide, .inr (by decide)⟩ ?_
    exact .created _ (⟨100, 7⟩ : MemoryBudget)
  have hin : InRange 2 readToEnd smallCache.fetchGranularity := ⟨by decide, .inl rfl⟩
  obtain ⟨hgets, -, -, hused⟩ := (range_caching_transparent smallCache).1 true _ _ hhistory
  exact ⟨hhistory, by decide +kernel, hused rfl, hgets _ _ _ _ hin⟩

end ElysiumKV
