import ElysiumKV.RangeCache
import ElysiumKV.Lib.Program

/-!
# Memory and disk caches

`MemoryCacheBlobStore` and `DiskCacheBlobStore` over a delegate of immutable named objects: range
caches by the hash of the name. A call is what is done under one lock, or asked of the delegate;
`answer` is what it does, given its surroundings (`Outside`).
-/

namespace ElysiumKV

open List Function

/-- `MemoryBudget`. -/
structure MemoryBudget where
  total : ℕ
  used : ℕ
deriving DecidableEq, Repr

namespace MemoryBudget

/-- `try_acquire`. -/
def tryAcquire (bytes : ℕ) (b : MemoryBudget) : Bool × MemoryBudget :=
  if b.total < b.used + bytes then (false, b) else (true, { b with used := b.used + bytes })

/-- `release`. -/
def release (bytes : ℕ) (b : MemoryBudget) : MemoryBudget := { b with used := b.used - bytes }

end MemoryBudget

/-- A shard's entries in memory, and what they hold of the budget. -/
structure MemoryPayload where
  chunks : List Chunk := []
  held : ℕ := 0
deriving DecidableEq, Repr

namespace MemoryPayload

open Chunks

/-- The bytes held at the offset. -/
def existing (name : Bytes) (offset : ℕ) (s : MemoryPayload) : ℕ :=
  ((find name offset s.chunks).map List.length).getD 0

/-- `store`: the budget decides, if there is one. -/
def store (budgeted : Bool) (name : Bytes) (offset : ℕ) (bytes : Bytes) (s : MemoryPayload)
    (b : MemoryBudget) : Bool × MemoryPayload × MemoryBudget :=
  let acquired := if budgeted then b.tryAcquire bytes.length else (true, b)
  if acquired.1 then
    let replaced := s.existing name offset
    (true,
      { chunks := Chunks.store name offset bytes s.chunks
        held := s.held - replaced + bytes.length },
      if budgeted then acquired.2.release replaced else acquired.2)
  else (false, s, acquired.2)

/-- `load`. -/
def load (name : Bytes) (offset skip len : ℕ) (s : MemoryPayload) : Option Bytes :=
  (find name offset s.chunks).map fun bytes =>
    if bytes.length < skip then []
    else (bytes.drop skip).take (min len (bytes.length - skip))

/-- `drop`. -/
def drop (budgeted : Bool) (name : Bytes) (s : MemoryPayload) (b : MemoryBudget) :
    MemoryPayload × MemoryBudget :=
  let bytes := Chunks.total (s.chunks.filter fun k => k.name = name)
  ({ chunks := Chunks.drop name s.chunks, held := s.held - bytes },
    if budgeted then b.release bytes else b)

/-- What the entries and the counter beside them keep. -/
structure Wf (s : MemoryPayload) : Prop where
  distinct : Keyed.Distinct (fun k : Chunk => (k.name, k.offset)) s.chunks
  held : s.held = total s.chunks

end MemoryPayload

namespace Chunks

theorem total_filter_add (p : Chunk → Prop) [DecidablePred p] (chunks : List Chunk) :
    total (chunks.filter p) + total (chunks.filter fun k => ¬ p k) = total chunks := by
  unfold total
  rw [← sum_append, ← map_append]
  have hperm := filter_append_perm (fun k => decide (p k)) chunks
  have hsum := (hperm.map fun k : Chunk => k.bytes.length).sum_eq
  simpa using hsum

theorem total_store (name : Bytes) (offset : ℕ) (bytes : Bytes) (chunks : List Chunk) :
    total (store name offset bytes chunks) = bytes.length +
      total (chunks.filter fun k => ¬ (k.name = name ∧ k.offset = offset)) := rfl

theorem distinct_store {name : Bytes} {offset : ℕ} {bytes : Bytes} {chunks : List Chunk}
    (h : Keyed.Distinct (fun k : Chunk => (k.name, k.offset)) chunks) :
    Keyed.Distinct (fun k : Chunk => (k.name, k.offset)) (store name offset bytes chunks) := by
  have hcons := h.cons_filter (x := (⟨name, offset, bytes⟩ : Chunk))
  simpa [store] using hcons

end Chunks

namespace MemoryPayload

variable {s : MemoryPayload}

theorem Wf.total_eq (h : s.Wf) (name : Bytes) (offset : ℕ) :
    Chunks.total s.chunks = s.existing name offset +
      Chunks.total (s.chunks.filter fun k => ¬ (k.name = name ∧ k.offset = offset)) := by
  unfold existing Chunks.find
  cases hfind : s.chunks.find? fun k => k.name = name ∧ k.offset = offset with
  | none =>
    have hall : s.chunks.filter (fun k => ¬ (k.name = name ∧ k.offset = offset)) = s.chunks := by
      refine filter_eq_self.2 fun k hk => ?_
      have hne := List.find?_eq_none.1 hfind k hk
      simpa [not_and_or, imp_iff_not_or] using hne
    rw [hall]
    exact (Nat.zero_add _).symm
  | some k =>
    obtain ⟨rfl, rfl⟩ : k.name = name ∧ k.offset = offset := by simpa using List.find?_some hfind
    have hsum := ((h.distinct.perm_cons_filter (mem_of_find?_eq_some hfind)).map
      fun k : Chunk => k.bytes.length).sum_eq
    simpa [Chunks.total] using hsum

theorem Wf.store (h : s.Wf) (budgeted : Bool) (name : Bytes) (offset : ℕ) (bytes : Bytes)
    (b : MemoryBudget) : (store budgeted name offset bytes s b).2.1.Wf := by
  unfold MemoryPayload.store
  generalize (if budgeted then b.tryAcquire bytes.length else (true, b)) = acquired
  obtain ⟨_ | _, left⟩ := acquired
  · exact h
  · refine ⟨Chunks.distinct_store h.distinct, ?_⟩
    have hsum := h.total_eq name offset
    have hheld := h.held
    show s.held - s.existing name offset + bytes.length =
      Chunks.total (Chunks.store name offset bytes s.chunks)
    rw [Chunks.total_store]
    omega

theorem Wf.drop (h : s.Wf) (budgeted : Bool) (name : Bytes) (b : MemoryBudget) :
    (drop budgeted name s b).1.Wf := by
  refine ⟨h.distinct.filter _, ?_⟩
  have hsum := Chunks.total_filter_add (fun k => k.name = name) s.chunks
  have hheld := h.held
  show s.held - Chunks.total (s.chunks.filter fun k => k.name = name) =
    Chunks.total (s.chunks.filter fun k => k.name ≠ name)
  simp only [ne_eq] at hsum ⊢
  omega

theorem Wf.balance_store (h : s.Wf) (name : Bytes) (offset : ℕ) (bytes : Bytes) {b : MemoryBudget}
    (hle : s.held ≤ b.used) :
    (MemoryPayload.store true name offset bytes s b).2.2.used + s.held =
      b.used + (MemoryPayload.store true name offset bytes s b).2.1.held := by
  have hsum := h.total_eq name offset
  have hheld := h.held
  unfold MemoryPayload.store MemoryBudget.tryAcquire
  simp only [if_true]
  by_cases hfull : b.total < b.used + bytes.length
  · simp [hfull]
  · simp only [hfull, if_false, if_true, MemoryBudget.release]
    omega

theorem Wf.balance_drop (h : s.Wf) (name : Bytes) {b : MemoryBudget} (hle : s.held ≤ b.used) :
    (MemoryPayload.drop true name s b).2.used + s.held =
      b.used + (MemoryPayload.drop true name s b).1.held := by
  have hsum := Chunks.total_filter_add (fun k => k.name = name) s.chunks
  have hheld := h.held
  simp only [MemoryPayload.drop, if_true, MemoryBudget.release]
  omega

end MemoryPayload

/-- The memory payload. -/
def memoryPayload (budgeted : Bool) : Payload Unit MemoryPayload MemoryBudget where
  store _ := MemoryPayload.store budgeted
  load _ := MemoryPayload.load
  drop := MemoryPayload.drop budgeted
  chunks := MemoryPayload.chunks
  charge s := if budgeted then s.held else 0
  used := MemoryBudget.used
  Wf := MemoryPayload.Wf
  empty := {}
  chunks_empty := rfl
  charge_empty := by split <;> rfl
  wf_empty := ⟨nodup_nil, rfl⟩
  store_chunks _ name offset bytes s b := by
    unfold MemoryPayload.store
    generalize (if budgeted then b.tryAcquire bytes.length else (true, b)) = acquired
    obtain ⟨_ | _, left⟩ := acquired <;> rfl
  load_eq _ name offset skip len s out h := by
    obtain ⟨bytes, hfind, rfl⟩ := Option.map_eq_some_iff.1 h
    refine ⟨bytes, hfind, ?_⟩
    split_ifs with hskip
    · rw [drop_eq_nil_of_le hskip.le, take_nil]
    · rw [← take_take, ← length_drop, take_length]
  drop_chunks _ _ _ := rfl
  wf_store _ name offset bytes s b h := h.store budgeted name offset bytes b
  wf_drop name s b h := h.drop budgeted name b
  balance_store _ name offset bytes s b h hle := by
    cases budgeted with
    | false => simp [MemoryPayload.store]
    | true => exact h.balance_store name offset bytes hle
  balance_drop name s b h hle := by
    cases budgeted with
    | false => simp [MemoryPayload.drop]
    | true => exact h.balance_drop name hle

/-- Which files can be written, and which are there when read. -/
structure Disk where
  writes : Bytes → ℕ → Bool
  present : Bytes → ℕ → Bool

/-- The disk payload: one file per chunk, complete if there at all. -/
def diskPayload : Payload Disk (List Chunk) Unit where
  store disk name offset bytes s b :=
    if disk.writes name offset then (true, Chunks.store name offset bytes s, b) else (false, s, b)
  load disk name offset skip len s :=
    if disk.present name offset then
      (Chunks.find name offset s).map fun bytes => (bytes.drop skip).take len
    else none
  drop name s b := (Chunks.drop name s, b)
  chunks := id
  charge _ := 0
  used _ := 0
  Wf _ := True
  empty := []
  chunks_empty := rfl
  charge_empty := rfl
  wf_empty := trivial
  store_chunks disk name offset bytes s b := by split <;> simp
  load_eq disk name offset skip len s out h := by
    split_ifs at h
    obtain ⟨bytes, hfind, rfl⟩ := Option.map_eq_some_iff.1 h
    exact ⟨bytes, hfind, rfl⟩
  drop_chunks _ _ _ := rfl
  wf_store _ _ _ _ _ _ h := h
  wf_drop _ _ _ h := h
  balance_store _ _ _ _ _ _ _ _ := rfl
  balance_drop _ _ _ _ _ := rfl

/-- The settings of a cache store. -/
structure CacheConfig where
  maxCacheBytes : ℕ
  cacheOnWrite : Bool
  fetchGranularity : ℕ
  /-- `std::hash` -/
  hash : Bytes → ℕ

/-- `shard_count`: one for every MiB, up to eight. -/
def shardCount (maxBytes : ℕ) : ℕ :=
  let affordable := maxBytes / 2 ^ 20
  if affordable < 8 then if affordable = 0 then 1 else affordable else 8

theorem shardCount_pos (maxBytes : ℕ) : 0 < shardCount maxBytes := by
  unfold shardCount
  dsimp only
  split_ifs <;> omega

namespace CacheConfig

/-- The indices of the shards. -/
abbrev Index (config : CacheConfig) : Type := Fin (shardCount config.maxCacheBytes)

/-- `shard_for`. -/
def shardFor (config : CacheConfig) (name : Bytes) : config.Index :=
  ⟨config.hash name % shardCount config.maxCacheBytes, Nat.mod_lt _ (shardCount_pos _)⟩

/-- The bytes a shard may hold. -/
def shardBytes (config : CacheConfig) : ℕ := config.maxCacheBytes / shardCount config.maxCacheBytes

end CacheConfig

/-- `SingleFlight::Key` -/
structure FlightKey where
  name : Bytes
  offset : ℕ
  len : ℕ
deriving DecidableEq, Repr

/-- `SingleFlight::Call`, `listed` while in `calls_`. `gone` is a ghost: the object was gone when it
began. -/
structure Flight where
  key : FlightKey
  gone : Bool
  result : Except Status Bytes := .error .io
  done : Bool := false
  listed : Bool := true

/-- A cache store and the objects of its delegate. -/
structure CacheWorld (config : CacheConfig) (σ β : Type) where
  shards : config.Index → Shard σ
  shared : β
  flights : List Flight := []
  contents : Bytes → Option Bytes

/-- What payload and delegate do in a call. A failed put may leave any bytes, a failed removal may
remove names. -/
structure Outside (ε : Type) where
  payload : ε
  read : Option Failure := none
  put : Option (Failure × Option Bytes) := none
  remove : Option (Failure × List Bytes) := none

/-- `get` of the delegate. -/
def delegateGet (contents : Bytes → Option Bytes) (fault : Option Failure) (name : Bytes)
    (offset len : ℕ) : Except Status Bytes :=
  match fault with
  | some s => .error s
  | none => match contents name with
    | none => .error .notFound
    | some data => .ok (readRange data offset len)

theorem mem_of_delegateGet {contents : Bytes → Option Bytes} {fault : Option Failure}
    {name bytes : Bytes} {offset len : ℕ}
    (h : delegateGet contents fault name offset len = .ok bytes) :
    ∃ data ∈ contents name, bytes = readRange data offset len := by
  cases fault with
  | some e => cases h
  | none => cases hdata : contents name with
    | none => simp [delegateGet, hdata] at h
    | some data => exact ⟨data, rfl, by simpa [delegateGet, hdata] using h.symm⟩

/-- What an operation does in one step. -/
inductive CacheCall
  | lookup (name : Bytes) (offset len : ℕ)
  | insert (name : Bytes) (offset : ℕ) (bytes : Bytes) (toEnd : Bool)
  | invalidate (name : Bytes)
  | join (key : FlightKey)
  | await (flight : ℕ)
  | publish (flight : ℕ) (result : Except Status Bytes)
  | complete (flight : ℕ)
  | retire (key : FlightKey)
  | read (name : Bytes) (offset len : ℕ)
  | put (name bytes : Bytes)
  | remove (names : List Bytes)

/-- A `join` gives the flight and whether the caller leads it. -/
def CacheCall.Reply : CacheCall → Type
  | lookup .. => Option Bytes
  | join _ => ℕ × Bool
  | await _ => Except Status Bytes
  | read .. => Except Status Bytes
  | put .. => Status
  | remove _ => Status
  | _ => Unit

namespace CacheWorld

variable {config : CacheConfig}

variable (w : CacheWorld config σ β)

/-- What is done under the shard's lock. -/
def onShard (name : Bytes) (f : Shard σ → β → Shard σ × β) : CacheWorld config σ β :=
  let after := f (w.shards (config.shardFor name)) w.shared
  { w with shards := update w.shards (config.shardFor name) after.1, shared := after.2 }

/-- Nothing of the object is cached. -/
def Lacks (P : Payload ε σ β) (w : CacheWorld config σ β) (name : Bytes) : Prop :=
  (w.shards (config.shardFor name)).Lacks P name

theorem onShard_self (name : Bytes) (f : Shard σ → β → Shard σ × β) :
    (w.onShard name f).shards (config.shardFor name) =
      (f (w.shards (config.shardFor name)) w.shared).1 :=
  update_self ..

theorem onShard_of_ne {name : Bytes} (f : Shard σ → β → Shard σ × β)
    {i : config.Index} (h : i ≠ config.shardFor name) : (w.onShard name f).shards i = w.shards i :=
  update_of_ne h ..

theorem forall_onShard {w : CacheWorld config σ β} {name : Bytes} {f : Shard σ → β → Shard σ × β}
    {p : config.Index → Shard σ → Prop}
    (hself : p (config.shardFor name) (f (w.shards (config.shardFor name)) w.shared).1)
    (hothers : ∀ i, p i (w.shards i)) (i : config.Index) : p i ((w.onShard name f).shards i) := by
  by_cases hi : i = config.shardFor name
  · subst hi
    rwa [onShard_self]
  · rw [onShard_of_ne w f hi]
    exact hothers i

/-- The world with one flight changed. -/
def onFlight (flight : ℕ) (f : Flight → Flight) : CacheWorld config σ β :=
  { w with flights := w.flights.modify flight f }

theorem of_mem_onFlight {w : CacheWorld config σ β} {p : Flight → Prop} {f : Flight → Flight}
    {flight : ℕ} {x : Flight} (hx : x ∈ (w.onFlight flight f).flights) (h : ∀ x ∈ w.flights, p x)
    (hf : ∀ x, p x → p (f x)) : p x := by
  obtain ⟨i, hi⟩ := mem_iff_getElem?.1 hx
  rw [onFlight, List.getElem?_modify] at hi
  obtain ⟨y, hy, rfl⟩ := Option.map_eq_some_iff.1 hi
  have hp := h y (mem_of_getElem? hy)
  split_ifs
  · exact hf y hp
  · exact hp

/-- The delegate without some objects. -/
def without (names : List Bytes) : CacheWorld config σ β :=
  { w with contents := fun name => if name ∈ names then none else w.contents name }

/-- What a call does; an object that is there is never overwritten. -/
def answer (P : Payload ε σ β) (o : Outside ε) :
    (c : CacheCall) → CacheWorld config σ β → c.Reply × CacheWorld config σ β
  | .lookup name offset len, w =>
    (((w.shards (config.shardFor name)).lookup P o.payload name offset len w.shared).1,
      w.onShard name fun c b => (c.lookup P o.payload name offset len b).2)
  | .insert name offset bytes toEnd, w =>
    ((), w.onShard name fun c b => c.insert P o.payload name offset bytes toEnd b)
  | .invalidate name, w => ((), w.onShard name fun c b => c.invalidate P name b)
  | .join key, w => match w.flights.findIdx? fun f => f.listed ∧ f.key = key with
    | some flight => ((flight, false), w)
    | none => ((w.flights.length, true),
        { w with flights := w.flights ++ [{ key, gone := (w.contents key.name).isNone }] })
  | .await flight, w => (match w.flights[flight]? with
    | some f => f.result
    | none => .error .io, w)
  | .publish flight result, w => ((), w.onFlight flight fun f => { f with result })
  | .complete flight, w => ((), w.onFlight flight fun f => { f with done := true })
  | .retire key, w => ((), { w with
      flights := w.flights.map fun f => if f.key = key then { f with listed := false } else f })
  | .read name offset len, w => (delegateGet w.contents o.read name offset len, w)
  | .put name bytes, w => match w.contents name, o.put with
    | none, none => (Status.ok, { w with contents := update w.contents name (some bytes) })
    | none, some (s, left) =>
      (s.1, { w with contents := update w.contents name left })
    | some _, none => (Status.unusable, w)
    | some _, some (s, _) => (s.1, w)
  | .remove names, w => match o.remove with
    | none => (Status.ok, w.without names)
    | some (s, gone) => (s.1, w.without (names.filter fun name => name ∈ gone))

end CacheWorld

open Program Prog

/-- Programs of such calls. -/
abbrev CacheProg : Type → Type := Prog CacheCall CacheCall.Reply

namespace CacheProg

/-- `RangeCacheCore::lookup`. -/
abbrev lookup (name : Bytes) (offset len : ℕ) : CacheProg (Option Bytes) :=
  ask (CacheCall.lookup name offset len)

/-- `RangeCacheCore::insert`. -/
abbrev insert (name : Bytes) (offset : ℕ) (bytes : Bytes) (toEnd : Bool) : CacheProg Unit :=
  ask (CacheCall.insert name offset bytes toEnd)

/-- `RangeCacheCore::invalidate`. -/
abbrev invalidate (name : Bytes) : CacheProg Unit := ask (CacheCall.invalidate name)

/-- Join or begin a flight. -/
abbrev join (key : FlightKey) : CacheProg (ℕ × Bool) := ask (CacheCall.join key)

/-- Wait for the flight's result. -/
abbrev await (flight : ℕ) : CacheProg (Except Status Bytes) := ask (CacheCall.await flight)

/-- The leader sets the result. -/
abbrev publish (flight : ℕ) (result : Except Status Bytes) : CacheProg Unit :=
  ask (CacheCall.publish flight result)

/-- The leader wakes the others. -/
abbrev complete (flight : ℕ) : CacheProg Unit := ask (CacheCall.complete flight)

/-- The key leaves `calls_`. -/
abbrev retire (key : FlightKey) : CacheProg Unit := ask (CacheCall.retire key)

/-- `get` of the delegate. -/
abbrev delegateRead (name : Bytes) (offset len : ℕ) : CacheProg (Except Status Bytes) :=
  ask (CacheCall.read name offset len)

/-- `put` of the delegate. -/
abbrev delegatePut (name bytes : Bytes) : CacheProg Status := ask (CacheCall.put name bytes)

/-- `remove` of the delegate. -/
abbrev delegateRemove (names : List Bytes) : CacheProg Status := ask (CacheCall.remove names)

/-- The leader publishes its result before it wakes the others and frees the key. -/
def lead (key : FlightKey) (flight : ℕ) (fetch : CacheProg (Except Status Bytes)) :
    CacheProg (Except Status Bytes) := do
  let result ← fetch
  publish flight result
  complete flight
  retire key
  pure result

/-- `SingleFlight::run` -/
def singleFlight (key : FlightKey) (fetch : CacheProg (Except Status Bytes)) :
    CacheProg (Except Status Bytes) := do
  let (flight, leader) ← join key
  if leader then lead key flight fetch else await flight

/-- What is fetched: a truncated answer runs to the end of the object. -/
def fetch (name : Bytes) (plan : FetchPlan) : CacheProg (Except Status Bytes) := do
  match ← delegateRead name plan.offset plan.len with
  | .error s => pure (.error s)
  | .ok bytes =>
    insert name plan.offset bytes (plan.len = readToEnd ∨ bytes.length < plan.len)
    pure (.ok bytes)

/-- The part of the fetched bytes asked for. -/
def window (fetched : Bytes) (skip len : ℕ) : Bytes :=
  if fetched.length ≤ skip then []
  else
    let available := fetched.length - skip
    (fetched.drop skip).take (if len = readToEnd then available else min available len)

/-- `get`. -/
def serveGet (config : CacheConfig) (name : Bytes) (offset len : ℕ) :
    CacheProg (Except Status Bytes) := do
  match ← lookup name offset len with
  | some bytes => pure (.ok bytes)
  | none =>
    let plan := planFetch offset len config.fetchGranularity
    let fetched ← singleFlight ⟨name, plan.offset, plan.len⟩ (fetch name plan)
    pure (fetched.map fun bytes => window bytes (offset - plan.offset) len)

/-- `put`. -/
def put (config : CacheConfig) (name bytes : Bytes) : CacheProg Status := do
  let status ← delegatePut name bytes
  if status ≠ .ok then pure status
  else if config.cacheOnWrite then do
    insert name 0 bytes true
    pure .ok
  else pure .ok

/-- `remove`. -/
def remove (name : Bytes) : CacheProg Status := do
  invalidate name
  delegateRemove [name]

/-- The names are invalidated one after the other. -/
def invalidateAll : List Bytes → CacheProg Unit
  | [] => pure ()
  | name :: names => do
    invalidate name
    invalidateAll names

/-- `remove_many`. -/
def removeMany (names : List Bytes) : CacheProg Status := do
  invalidateAll names
  delegateRemove names

end CacheProg

/-- The operations of a cache store. -/
inductive CacheOp
  | get (name : Bytes) (offset len : ℕ)
  | put (name bytes : Bytes)
  | remove (name : Bytes)
  | removeMany (names : List Bytes)
  | invalidate (name : Bytes)
deriving DecidableEq, Repr

/-- What an operation returns. -/
inductive CacheResult
  | got (result : Except Status Bytes)
  | status (s : Status)
  | nothing

/-- The program of an operation. -/
def CacheOp.program (config : CacheConfig) : CacheOp → CacheProg CacheResult
  | get name offset len => do
    let result ← CacheProg.serveGet config name offset len
    pure (.got result)
  | put name bytes => do
    let s ← CacheProg.put config name bytes
    pure (.status s)
  | remove name => do
    let s ← CacheProg.remove name
    pure (.status s)
  | removeMany names => do
    let s ← CacheProg.removeMany names
    pure (.status s)
  | invalidate name => do
    CacheProg.invalidate name
    pure .nothing

end ElysiumKV
