import ElysiumKV.Lib.Keyed
import ElysiumKV.Lib.Schedule
import ElysiumKV.Lib.Tally
import Mathlib.Algebra.Order.BigOperators.Group.Finset

/-!
# The block cache and the shared budget

`ShardedLruBlockCache` and the `MemoryBudget` it shares, used by several threads. An entry is in
before its charge is acquired, and out before it is released. `used` counts exactly; the code's
counter is `used` modulo `2 ^ 64`.
-/

namespace ElysiumKV

open Program Prog Machine List Function

/-- `ShardedLruBlockCache::Key` -/
structure BlockKey where
  fileNumber : ℕ
  blockOffset : ℕ
deriving DecidableEq, Repr

/-- `KeyHash`, over 64-bit integers. -/
def BlockKey.hash (key : BlockKey) : ℕ :=
  let h := (key.fileNumber * 0x9E3779B97F4A7C15 + key.blockOffset) % 2 ^ 64
  let h := h ^^^ (h >>> 33)
  let h := h * 0xFF51AFD7ED558CCD % 2 ^ 64
  let h := h ^^^ (h >>> 33)
  let h := h * 0xC4CEB9FE1A85EC53 % 2 ^ 64
  h ^^^ (h >>> 33)

/-- `shard_for` -/
def BlockKey.shard (key : BlockKey) : Fin 16 := ⟨key.hash % 16, Nat.mod_lt _ (by decide)⟩

/-- `ShardedLruBlockCache::Entry`; `owner`, a ghost, is the thread still to acquire the charge. -/
structure BlockEntry (T : Type) where
  key : BlockKey
  charge : ℕ
  owner : Option T
deriving DecidableEq

/-- `ShardedLruBlockCache::Shard`, the entry used last first. -/
structure LruShard (T : Type) where
  lru : List (BlockEntry T) := []
  bytes : ℕ := 0

namespace LruShard

section

variable {T : Type}

/-- The `index` lookup. -/
def find (s : LruShard T) (key : BlockKey) : Option (BlockEntry T) :=
  s.lru.find? fun e => e.key = key

/-- The loop of `evict_locked`, from the entry used longest ago: what stays and what goes. -/
def evictBack (capacity : ℕ) : List (BlockEntry T) → ℕ → List (BlockEntry T) × List (BlockEntry T)
  | [], _ => ([], [])
  | e :: rest, bytes =>
    if capacity < bytes then
      let evicted := evictBack capacity rest (bytes - e.charge)
      (evicted.1, e :: evicted.2)
    else (e :: rest, [])

/-- The charges of the entries together. -/
def charges (entries : List (BlockEntry T)) : ℕ := (entries.map BlockEntry.charge).sum

/-- `evict_locked`: what goes, and what stays. -/
def evictLocked (capacity : ℕ) (s : LruShard T) : List (BlockEntry T) × LruShard T :=
  let evicted := evictBack capacity s.lru.reverse s.bytes
  (evicted.2, { lru := evicted.1.reverse, bytes := s.bytes - charges evicted.2 })

/-- `evict_file` in one shard. -/
def evictFile (fileNumber : ℕ) (s : LruShard T) : List (BlockEntry T) × LruShard T :=
  let gone := s.lru.filter fun e => e.key.fileNumber = fileNumber
  (gone, { lru := s.lru.filter fun e => e.key.fileNumber ≠ fileNumber
           bytes := s.bytes - charges gone })

/-- The step of `evict_at_least` in one shard. -/
def evictOne (s : LruShard T) : List (BlockEntry T) × LruShard T :=
  match s.lru.getLast? with
  | none => ([], s)
  | some e => ([e], { lru := s.lru.dropLast, bytes := s.bytes - e.charge })

/-- The sum of `g` over the entries. -/
def weigh (g : BlockEntry T → ℕ) (s : LruShard T) : ℕ := (s.lru.map g).sum

variable (g : BlockEntry T → ℕ) (s : LruShard T)

theorem sum_evictBack (capacity : ℕ) (entries : List (BlockEntry T)) (bytes : ℕ) :
    ((evictBack capacity entries bytes).1.map g).sum +
      ((evictBack capacity entries bytes).2.map g).sum = (entries.map g).sum := by
  induction entries generalizing bytes with
  | nil => rfl
  | cons e rest ih =>
    unfold evictBack
    split_ifs
    · have hrest := ih (bytes - e.charge)
      simp only [map_cons, sum_cons]
      omega
    · simp

theorem weigh_evictLocked (capacity : ℕ) :
    (s.evictLocked capacity).2.weigh g + ((s.evictLocked capacity).1.map g).sum = s.weigh g := by
  have hsum := sum_evictBack g capacity s.lru.reverse s.bytes
  simpa [evictLocked, weigh, map_reverse, sum_reverse] using hsum

theorem weigh_evictFile (fileNumber : ℕ) :
    (s.evictFile fileNumber).2.weigh g + ((s.evictFile fileNumber).1.map g).sum = s.weigh g := by
  have hperm := filter_append_perm
    (fun e : BlockEntry T => decide (e.key.fileNumber = fileNumber)) s.lru
  have hsum := (hperm.map g).sum_eq
  rw [map_append, sum_append] at hsum
  simp only [evictFile, weigh, ne_eq, decide_not] at hsum ⊢
  omega

theorem weigh_evictOne : s.evictOne.2.weigh g + (s.evictOne.1.map g).sum = s.weigh g := by
  unfold evictOne
  split
  · simp
  next e hlast =>
    have hconcat := congrArg (fun l => (l.map g).sum) (dropLast_append_getLast? e hlast)
    simpa only [weigh, map_append, sum_append] using hconcat

end

variable {T : Type} [DecidableEq T]

/-- The entry becomes the one used last. -/
def touch (s : LruShard T) (e : BlockEntry T) : LruShard T := { s with lru := e :: s.lru.erase e }

/-- `get` under the lock. -/
def get (key : BlockKey) (s : LruShard T) : Bool × LruShard T :=
  match s.find key with
  | none => (false, s)
  | some e => (true, s.touch e)

/-- `insert` under the lock: the entries evicted for it, or nothing if the block is there. -/
def insert (capacity : ℕ) (t : T) (key : BlockKey) (charge : ℕ) (s : LruShard T) :
    Option (List (BlockEntry T)) × LruShard T :=
  match s.find key with
  | some e => (none, s.touch e)
  | none =>
    let evicted := evictLocked capacity
      { lru := ⟨key, charge, some t⟩ :: s.lru, bytes := s.bytes + charge }
    (some evicted.1, evicted.2)

/-- The thread's entries are paid for. -/
def settle (t : T) (s : LruShard T) : LruShard T :=
  { s with lru := s.lru.map fun e => if e.owner = some t then { e with owner := none } else e }

variable (g : BlockEntry T → ℕ) (s : LruShard T)

theorem weigh_touch {e : BlockEntry T} (he : e ∈ s.lru) : (s.touch e).weigh g = s.weigh g :=
  ((perm_cons_erase he).map g).sum_eq.symm

theorem weigh_get (key : BlockKey) : (s.get key).2.weigh g = s.weigh g := by
  unfold get
  split
  · rfl
  next e hfind => exact s.weigh_touch g (mem_of_find?_eq_some hfind)

variable {t : T}

theorem weigh_insert_none {capacity : ℕ} {key : BlockKey} {charge : ℕ}
    (h : (s.insert capacity t key charge).1 = none) :
    (s.insert capacity t key charge).2.weigh g = s.weigh g := by
  unfold insert at h ⊢
  split
  next e hfind => exact s.weigh_touch g (mem_of_find?_eq_some hfind)
  next hfind =>
    rw [hfind] at h
    cases h

theorem weigh_insert_some {capacity : ℕ} {key : BlockKey} {charge : ℕ}
    {evicted : List (BlockEntry T)} (h : (s.insert capacity t key charge).1 = some evicted) :
    (s.insert capacity t key charge).2.weigh g + (evicted.map g).sum =
      s.weigh g + g ⟨key, charge, some t⟩ := by
  unfold insert at h ⊢
  split
  next e hfind =>
    rw [hfind] at h
    cases h
  next hfind =>
    rw [hfind] at h
    obtain rfl := Option.some.inj h
    have hsum := weigh_evictLocked g
      ({ lru := ⟨key, charge, some t⟩ :: s.lru, bytes := s.bytes + charge } : LruShard T) capacity
    rw [hsum, weigh, weigh, map_cons, sum_cons, Nat.add_comm]

theorem weigh_settle (hg : ∀ e, e.owner = some t → g { e with owner := none } = g e) :
    (s.settle t).weigh g = s.weigh g := by
  unfold settle weigh
  rw [map_map]
  congr 1
  refine map_congr_left fun e _ => ?_
  rw [Function.comp_apply]
  split_ifs with ht
  · exact hg e ht
  · rfl

end LruShard

/-! ### The cache, the budget and what threads do with them -/

/-- The sizes the cache and the budget are made with. -/
structure BlockCacheConfig where
  capacityBytes : ℕ
  /-- The total of the budget. -/
  total : ℕ

/-- `shard_capacity_`. -/
def BlockCacheConfig.shardCapacity (config : BlockCacheConfig) : ℕ :=
  max 1 (config.capacityBytes / 16)

/-- The shards, and what has been acquired of the budget and not released. -/
structure BlockCacheWorld (T : Type) where
  shards : Fin 16 → LruShard T
  used : ℤ

/-- `used_`, a 64-bit integer. -/
def BlockCacheWorld.counter {T : Type} (w : BlockCacheWorld T) : ℕ := (w.used % 2 ^ 64).toNat

/-- What an operation does in one step. -/
inductive BlockCall
  | get (key : BlockKey)
  | insert (key : BlockKey) (charge : ℕ)
  | evictFile (shard : Fin 16) (fileNumber : ℕ)
  | evictOne (shard : Fin 16)
  /-- The `try_acquire_over` of an insert. -/
  | acquireCharge (bytes : ℕ)
  | tryAcquire (bytes : ℕ)
  | tryAcquireOver (bytes : ℕ)
  | release (bytes : ℕ)

/-- What a call answers; taken out bytes, or whether a charge was granted. -/
abbrev BlockCall.Reply : BlockCall → Type
  | .get _ => Bool
  | .insert _ _ => Option ℕ
  | .evictFile _ _ => ℕ
  | .evictOne _ => Option ℕ
  | .acquireCharge _ => Bool
  | .tryAcquire _ => Bool
  | .tryAcquireOver _ => Bool
  | .release _ => Unit

/-- Programs of such calls. -/
abbrev BlockProg := Prog BlockCall BlockCall.Reply

namespace BlockCacheWorld

variable {T : Type} [DecidableEq T]

/-- The world with one shard replaced. -/
def onShard (w : BlockCacheWorld T) (i : Fin 16) (s : LruShard T) : BlockCacheWorld T :=
  { w with shards := update w.shards i s }

/-- The thread's entries are paid for, in every shard. -/
def settle (t : T) (w : BlockCacheWorld T) : BlockCacheWorld T :=
  { w with shards := fun i => (w.shards i).settle t }

variable (config : BlockCacheConfig)

/-- Whether `bytes` more are within the total, by the counter. -/
def within (w : BlockCacheWorld T) (bytes : ℕ) : Bool :=
  (w.counter + bytes) % 2 ^ 64 ≤ config.total

/-- What a call of the thread does and answers. -/
def answer (t : T) :
    (c : BlockCall) → BlockCacheWorld T → c.Reply × BlockCacheWorld T
  | .get key, w =>
    let found := (w.shards key.shard).get key
    (found.1, w.onShard key.shard found.2)
  | .insert key charge, w =>
    let inserted := (w.shards key.shard).insert config.shardCapacity t key charge
    (inserted.1.map LruShard.charges, w.onShard key.shard inserted.2)
  | .evictFile i fileNumber, w =>
    let evicted := (w.shards i).evictFile fileNumber
    (LruShard.charges evicted.1, w.onShard i evicted.2)
  | .evictOne i, w =>
    let evicted := (w.shards i).evictOne
    (evicted.1.head?.map BlockEntry.charge, w.onShard i evicted.2)
  | .acquireCharge bytes, w =>
    (w.within config bytes, { w.settle t with used := w.used + bytes })
  | .tryAcquire bytes, w =>
    if w.within config bytes then (true, { w with used := w.used + bytes }) else (false, w)
  | .tryAcquireOver bytes, w => (w.within config bytes, { w with used := w.used + bytes })
  | .release bytes, w => ((), { w with used := w.used - bytes })

/-- The entries that a call takes out of the cache. -/
def evicted (t : T) :
    BlockCall → BlockCacheWorld T → List (BlockEntry T)
  | .insert key charge, w =>
    ((w.shards key.shard).insert config.shardCapacity t key charge).1.getD []
  | .evictFile i fileNumber, w => ((w.shards i).evictFile fileNumber).1
  | .evictOne i, w => (w.shards i).evictOne.1
  | _, _ => []

/-- The entry a call puts in. -/
def inserted (t : T) :
    BlockCall → BlockCacheWorld T → List (BlockEntry T)
  | .insert key charge, w =>
    if ((w.shards key.shard).insert config.shardCapacity t key charge).1.isSome then
      [⟨key, charge, some t⟩]
    else []
  | _, _ => []

end BlockCacheWorld

/-- `sizeof(Entry)`. -/
def entrySize : ℕ := 40

/-- `if (released > 0) budget_->release(released)` -/
def releaseAll (released s : ℕ) : BlockProg ℕ :=
  if 0 < released then do
    let _ ← ask (.release released)
    pure s
  else pure s

/-- `insert`, of a block of `size` bytes. -/
def insertBlock (key : BlockKey) (size s : ℕ) : BlockProg ℕ := do
  let evicted : Option ℕ ← ask (BlockCall.insert key (size + entrySize))
  match evicted with
  | none => pure s
  | some released =>
    let _within ← ask (.acquireCharge (size + entrySize))
    releaseAll released s

/-- The loop of `evict_file`. -/
def evictFileFrom (fileNumber : ℕ) : List (Fin 16) → ℕ → BlockProg ℕ
  | [], released => pure released
  | i :: rest, released => do
    let freed ← ask (.evictFile i fileNumber)
    evictFileFrom fileNumber rest (released + freed)

/-- `evict_file`. -/
def evictFile (fileNumber s : ℕ) : BlockProg ℕ := do
  let released ← evictFileFrom fileNumber (List.finRange 16) 0
  releaseAll released s

/-- One round of `evict_at_least`: what was released, and whether anything was. -/
def evictRound (bytes : ℕ) : List (Fin 16) → ℕ → Bool → BlockProg (ℕ × Bool)
  | [], released, progress => pure (released, progress)
  | i :: rest, released, progress =>
    if bytes ≤ released then pure (released, progress)
    else do
      let evicted : Option ℕ ← ask (BlockCall.evictOne i)
      match evicted with
      | none => evictRound bytes rest released progress
      | some charge => evictRound bytes rest (released + charge) true

/-- The rounds of `evict_at_least`; one that makes progress releases a byte or more. -/
def evictRounds (bytes : ℕ) : ℕ → ℕ → BlockProg ℕ
  | 0, released => pure released
  | rounds + 1, released =>
    if released < bytes then do
      let (released, progress) ← evictRound bytes (List.finRange 16) released false
      if progress then evictRounds bytes rounds released else pure released
    else pure released

/-- `evict_at_least`. -/
def evictAtLeast (bytes s : ℕ) : BlockProg ℕ :=
  if bytes = 0 then pure s
  else do
    let released ← evictRounds bytes bytes 0
    releaseAll released s

/-- The operations of the cache, and those of another holder of the budget. -/
inductive BlockOp
  | get (key : BlockKey)
  | insert (key : BlockKey) (size : ℕ)
  | evictFile (fileNumber : ℕ)
  | evictAtLeast (bytes : ℕ)
  | tryAcquire (bytes : ℕ)
  | tryAcquireOver (bytes : ℕ)
  | release (bytes : ℕ)

/-- An operation of a thread that holds `s` bytes itself: what it holds after. -/
def BlockOp.program : BlockOp → ℕ → BlockProg ℕ
  | .get key, s => do
    let _found ← ask (.get key)
    pure s
  | .insert key size, s => insertBlock key size s
  | .evictFile fileNumber, s => ElysiumKV.evictFile fileNumber s
  | .evictAtLeast bytes, s => ElysiumKV.evictAtLeast bytes s
  | .tryAcquire bytes, s => do
    let acquired ← ask (.tryAcquire bytes)
    pure (if acquired = true then s + bytes else s)
  | .tryAcquireOver bytes, s => do
    let _within ← ask (.tryAcquireOver bytes)
    pure (s + bytes)
  | .release bytes, s => do
    let _ ← ask (.release bytes)
    pure (s - bytes)

/-- Threads over one cache and budget; a holder releases no more than it holds. -/
def blockMachine (T : Type) [DecidableEq T] (config : BlockCacheConfig) :
    Machine T (BlockCacheWorld T) ℕ BlockOp BlockCall BlockCall.Reply where
  Enabled _ o s := match o with
    | .release bytes => bytes ≤ s
    | _ => True
  start _ o s := o.program s
  reply t c w r w' := (r, w') = w.answer config t c

/-! ### What a call does to the account -/

/-- What a call adds to what is acquired. -/
def BlockCall.paid : BlockCall → ℤ
  | .acquireCharge bytes => bytes
  | .tryAcquireOver bytes => bytes
  | .release bytes => -bytes
  | _ => 0

/-- What an answer leaves to settle: what was taken out or granted, less what was put in. -/
def BlockCall.due : (c : BlockCall) → c.Reply → ℤ
  | .insert _ charge, some released => released - charge
  | .evictFile _ _, freed => (freed : ℕ)
  | .evictOne _, some charge => (charge : ℕ)
  | .tryAcquire bytes, true => bytes
  | _, _ => 0

theorem BlockCall.paid_nonneg {c : BlockCall} (hc : ∀ bytes, c ≠ .release bytes) : 0 ≤ c.paid := by
  cases c with
  | release bytes => exact absurd rfl (hc bytes)
  | acquireCharge bytes | tryAcquireOver bytes => exact Int.natCast_nonneg bytes
  | get _ | insert _ _ | evictFile _ _ | evictOne _ | tryAcquire _ => exact le_rfl

theorem BlockCall.due_nonneg {c : BlockCall} (hc : ∀ key charge, c ≠ .insert key charge)
    (r : c.Reply) : 0 ≤ c.due r := by
  cases c with
  | insert key charge => exact absurd rfl (hc key charge)
  | evictFile _ _ => exact Int.natCast_nonneg _
  | evictOne _ => cases r with
    | none => exact le_rfl
    | some charge => exact Int.natCast_nonneg _
  | tryAcquire bytes => cases r with
    | false => exact le_rfl
    | true => exact Int.natCast_nonneg bytes
  | get _ | acquireCharge _ | tryAcquireOver _ | release _ => exact le_rfl

/-- The answer of a call that found nothing to do. -/
def BlockCall.idleReply : (c : BlockCall) → c.Reply
  | .get _ => false
  | .insert _ _ => none
  | .evictFile _ _ => (0 : ℕ)
  | .evictOne _ => none
  | .acquireCharge _ => true
  | .tryAcquire _ => false
  | .tryAcquireOver _ => true
  | .release _ => ()

namespace BlockCacheWorld

variable {T : Type} [DecidableEq T]

/-- The sum of `g` over the cache. -/
def weigh (g : BlockEntry T → ℕ) (w : BlockCacheWorld T) : ℕ := ∑ i, (w.shards i).weigh g

/-- The charges of the entries that the cache holds. -/
def cached (w : BlockCacheWorld T) : ℕ := w.weigh BlockEntry.charge

/-- What the entry weighs for the thread still to acquire its charge. -/
def ownedBy (t : T) (e : BlockEntry T) : ℕ := if e.owner = some t then e.charge else 0

/-- The charges the thread has still to acquire. -/
def owned (t : T) (w : BlockCacheWorld T) : ℕ := w.weigh (ownedBy t)

omit [DecidableEq T] in
theorem weigh_onShard (g : BlockEntry T → ℕ) (w : BlockCacheWorld T) (i : Fin 16) (s : LruShard T) :
    (w.onShard i s).weigh g + (w.shards i).weigh g = w.weigh g + s.weigh g :=
  Tally.sum_update (LruShard.weigh g) w.shards i s

theorem weigh_settle (g : BlockEntry T → ℕ) {t : T}
    (hg : ∀ e, e.owner = some t → g { e with owner := none } = g e) (w : BlockCacheWorld T) :
    (w.settle t).weigh g = w.weigh g :=
  Finset.sum_congr rfl fun i _ => (w.shards i).weigh_settle g hg

theorem weigh_answer (g : BlockEntry T → ℕ) (config : BlockCacheConfig) (t : T) {c : BlockCall}
    (hc : ∀ bytes, c ≠ .acquireCharge bytes) (w : BlockCacheWorld T) :
    (w.answer config t c).2.weigh g + ((w.evicted config t c).map g).sum =
      w.weigh g + ((w.inserted config t c).map g).sum := by
  cases c with
  | get key =>
    have hshard := (w.shards key.shard).weigh_get g key
    have hworld := w.weigh_onShard g key.shard ((w.shards key.shard).get key).2
    simp only [answer, evicted, inserted, map_nil, sum_nil]
    omega
  | insert key charge =>
    have hworld := w.weigh_onShard g key.shard
      ((w.shards key.shard).insert config.shardCapacity t key charge).2
    cases h : ((w.shards key.shard).insert config.shardCapacity t key charge).1 with
    | none =>
      have hshard := (w.shards key.shard).weigh_insert_none g h
      simp only [answer, evicted, inserted, h, Option.getD_none, Option.isSome_none,
        Bool.false_eq_true, if_false, map_nil, sum_nil]
      omega
    | some gone =>
      have hshard := (w.shards key.shard).weigh_insert_some g h
      simp only [answer, evicted, inserted, h, Option.getD_some, Option.isSome_some, if_true,
        map_cons, map_nil, sum_cons, sum_nil]
      omega
  | evictFile i fileNumber =>
    have hshard := (w.shards i).weigh_evictFile g fileNumber
    have hworld := w.weigh_onShard g i ((w.shards i).evictFile fileNumber).2
    simp only [answer, evicted, inserted, map_nil, sum_nil]
    omega
  | evictOne i =>
    have hshard := (w.shards i).weigh_evictOne g
    have hworld := w.weigh_onShard g i (w.shards i).evictOne.2
    simp only [answer, evicted, inserted, map_nil, sum_nil]
    omega
  | acquireCharge bytes => exact absurd rfl (hc bytes)
  | tryAcquire bytes =>
    simp only [answer]
    split_ifs <;> rfl
  | tryAcquireOver bytes => rfl
  | release bytes => rfl

theorem balance_answer (config : BlockCacheConfig) (t : T) (c : BlockCall) (w : BlockCacheWorld T) :
    ((w.answer config t c).2.used : ℤ) - (w.answer config t c).2.cached =
      w.used - w.cached + c.paid + c.due (w.answer config t c).1 := by
  cases c with
  | acquireCharge bytes =>
    have hcached : (w.settle t).cached = w.cached :=
      w.weigh_settle BlockEntry.charge fun _ _ => rfl
    simp only [answer, BlockCall.paid, BlockCall.due]
    rw [← hcached]
    simp only [cached, weigh]
    omega
  | get key =>
    have hweigh := w.weigh_answer BlockEntry.charge config t (c := .get key) nofun
    simp only [evicted, inserted, map_nil, sum_nil] at hweigh
    simp only [cached, BlockCall.paid, BlockCall.due]
    simp only [answer, onShard] at hweigh ⊢
    omega
  | insert key charge =>
    have hweigh := w.weigh_answer BlockEntry.charge config t (c := .insert key charge) nofun
    simp only [cached, BlockCall.paid]
    cases h : ((w.shards key.shard).insert config.shardCapacity t key charge).1 with
    | none =>
      simp only [evicted, inserted, answer, onShard, h, Option.map_none, Option.getD_none,
        Option.isSome_none, Bool.false_eq_true, if_false, map_nil, sum_nil,
        BlockCall.due] at hweigh ⊢
      omega
    | some gone =>
      simp only [evicted, inserted, answer, onShard, h, Option.map_some, Option.getD_some,
        Option.isSome_some, if_true, map_cons, map_nil, sum_cons, sum_nil,
        BlockCall.due, LruShard.charges] at hweigh ⊢
      omega
  | evictFile i fileNumber =>
    have hweigh := w.weigh_answer BlockEntry.charge config t (c := .evictFile i fileNumber) nofun
    simp only [cached, BlockCall.paid]
    simp only [evicted, inserted, answer, onShard, map_nil, sum_nil, BlockCall.due,
      LruShard.charges] at hweigh ⊢
    omega
  | evictOne i =>
    have hweigh := w.weigh_answer BlockEntry.charge config t (c := .evictOne i) nofun
    simp only [cached, BlockCall.paid]
    simp only [evicted, inserted, answer, onShard, map_nil, sum_nil] at hweigh ⊢
    cases h : (w.shards i).lru.getLast? with
    | none =>
      simp only [LruShard.evictOne, h, map_nil, sum_nil, List.head?_nil, Option.map_none,
        BlockCall.due] at hweigh ⊢
      omega
    | some e =>
      simp only [LruShard.evictOne, h, map_cons, map_nil, sum_cons, sum_nil,
        List.head?_cons, Option.map_some, BlockCall.due] at hweigh ⊢
      omega
  | tryAcquire bytes =>
    simp only [answer]
    split_ifs
    · simp only [BlockCall.paid, BlockCall.due, cached, weigh]
      omega
    · simp only [BlockCall.paid, BlockCall.due, add_zero]
  | tryAcquireOver bytes =>
    simp only [answer, BlockCall.paid, BlockCall.due, cached, weigh]
    omega
  | release bytes =>
    simp only [answer, BlockCall.paid, BlockCall.due, cached, weigh]
    omega

end BlockCacheWorld

namespace BlockProg

variable {α β : Type} {val : α → ℤ}

/-- What the program ends with, less what it acquires and plus what it releases. -/
def worth (val : α → ℤ) : BlockProg α → ℤ
  | .done a => val a
  | .call c next => worth val (next c.idleReply) - c.paid

/-- A program goes on worth what its answer leaves to settle; an insert acquires its charge next. -/
def Settles (val : α → ℤ) (c : BlockCall) (next : c.Reply → BlockProg α) : Prop :=
  (∀ r, worth val (next r) = worth val (next c.idleReply) + c.due r) ∧
    match c, next with
    | .release _, next => 0 ≤ worth val (next ())
    | .insert _ charge, next =>
      ∀ released, ∃ rest, next (some released) = .call (.acquireCharge charge) rest
    | _, _ => True

/-- The program settles after each of its calls. -/
def Fair (val : α → ℤ) (p : BlockProg α) : Prop := p.Each (Settles val)

theorem worth_bind (p : BlockProg α) (f : α → BlockProg β) (val : β → ℤ) :
    worth val (p >>= f) = worth (fun a => worth val (f a)) p := by
  induction p with
  | done a => rfl
  | call c next ih => exact congrArg (· - c.paid) (ih _)

theorem Fair.bind {p : BlockProg α} {f : α → BlockProg β} {val : β → ℤ}
    (hp : Fair (fun a => worth val (f a)) p) (hf : ∀ a, Fair val (f a)) : Fair val (p >>= f) := by
  induction p with
  | done a => exact hf a
  | call c next ih =>
    refine ⟨⟨fun r => ?_, ?_⟩, fun r => ih r (hp.2 r)⟩
    · have hworth := hp.1.1 r
      rwa [← worth_bind, ← worth_bind] at hworth
    · have hnext := hp.1.2
      cases c with
      | release bytes => exact hnext.trans_eq (worth_bind (next ()) f val).symm
      | insert key charge =>
        intro released
        obtain ⟨rest, hrest⟩ := hnext released
        exact ⟨fun r => (rest r).bind f, congrArg (·.bind f) hrest⟩
      | get _ | evictFile _ _ | evictOne _ | acquireCharge _ | tryAcquire _ | tryAcquireOver _ =>
        trivial

/-- A program that is fair and worth `n`. -/
def Exact (val : α → ℤ) (n : ℤ) (p : BlockProg α) : Prop := Fair val p ∧ worth val p = n

theorem Exact.bind {p : BlockProg α} {f : α → BlockProg β} {val : β → ℤ} {n : ℤ}
    (hp : Exact (fun a => worth val (f a)) n p) (hf : ∀ a, Fair val (f a)) :
    Exact val n (p >>= f) :=
  ⟨hp.1.bind hf, (worth_bind p f val).trans hp.2⟩

theorem worth_releaseAll (released s : ℕ) :
    worth Nat.cast (releaseAll released s) = (s : ℤ) + released := by
  unfold releaseAll
  split_ifs with h
  · show (s : ℤ) - -(released : ℤ) = s + released
    omega
  · show (s : ℤ) = s + released
    omega

theorem fair_releaseAll (released s : ℕ) : Fair Nat.cast (releaseAll released s) := by
  unfold releaseAll
  split_ifs
  · refine ⟨⟨fun r => ?_, Int.natCast_nonneg s⟩, fun _ => trivial⟩
    exact (add_zero _).symm
  · trivial

theorem fair_insertBlock (key : BlockKey) (size s : ℕ) :
    Fair Nat.cast (insertBlock key size s) := by
  refine ⟨⟨fun r => ?_, fun released => ⟨_, rfl⟩⟩, fun r => ?_⟩
  · cases r with
    | none => exact (add_zero _).symm
    | some released =>
      show worth Nat.cast (releaseAll released s) - ((size + entrySize : ℕ) : ℤ) =
        s + (released - (size + entrySize : ℕ))
      rw [worth_releaseAll]
      omega
  · cases r with
    | none => trivial
    | some released =>
      exact ⟨⟨fun _ => (add_zero _).symm, trivial⟩, fun _ => fair_releaseAll released s⟩

section Loops

-- what the loop has released so far counts for as much as it ends with
variable {val : ℕ → ℤ} {s : ℤ} (hval : ∀ released, val released = s + released)

include hval

theorem exact_evictFileFrom (fileNumber : ℕ) (shards : List (Fin 16)) (released : ℕ) :
    Exact val (s + released) (evictFileFrom fileNumber shards released) := by
  induction shards generalizing released with
  | nil => exact ⟨trivial, hval released⟩
  | cons i rest ih =>
    refine ⟨⟨⟨fun (freed : ℕ) => ?_, trivial⟩, fun (freed : ℕ) => (ih (released + freed)).1⟩,
      (sub_zero _).trans (ih released).2⟩
    show worth val (evictFileFrom fileNumber rest (released + freed)) =
      worth val (evictFileFrom fileNumber rest (released + 0)) + freed
    rw [(ih _).2, (ih _).2]
    omega

omit hval in
theorem exact_evictRound {val : ℕ × Bool → ℤ} {s : ℤ}
    (hval : ∀ released progress, val (released, progress) = s + released) (bytes : ℕ)
    (shards : List (Fin 16)) (released : ℕ) (progress : Bool) :
    Exact val (s + released) (evictRound bytes shards released progress) := by
  induction shards generalizing released progress with
  | nil => exact ⟨trivial, hval released progress⟩
  | cons i rest ih =>
    unfold evictRound
    split_ifs
    · exact ⟨trivial, hval released progress⟩
    · refine ⟨⟨⟨fun r => ?_, trivial⟩, fun r => ?_⟩, (sub_zero _).trans (ih released progress).2⟩
      · cases r with
        | none => exact (add_zero _).symm
        | some charge =>
          show worth val (evictRound bytes rest (released + charge) true) =
            worth val (evictRound bytes rest released progress) + (charge : ℕ)
          rw [(ih _ _).2, (ih _ _).2]
          omega
      · cases r with
        | none => exact (ih released progress).1
        | some charge => exact (ih (released + charge) true).1

theorem exact_evictRounds (bytes rounds released : ℕ) :
    Exact val (s + released) (evictRounds bytes rounds released) := by
  induction rounds generalizing released with
  | zero => exact ⟨trivial, hval released⟩
  | succ rounds ih =>
    unfold evictRounds
    split_ifs
    · refine Exact.bind (exact_evictRound (fun released progress => ?_) bytes _ released false)
        fun r => ?_
      · cases progress with
        | false => exact hval released
        | true => exact (ih released).2
      · obtain ⟨released, progress⟩ := r
        cases progress with
        | false => trivial
        | true => exact (ih released).1
    · exact ⟨trivial, hval released⟩

end Loops

theorem exact_program (o : BlockOp) (s : ℕ) (henabled : ∀ bytes, o = .release bytes → bytes ≤ s) :
    Exact Nat.cast s (o.program s) := by
  have hrelease : ∀ p : BlockProg ℕ, Exact (fun released => worth Nat.cast (releaseAll released s))
      (s + (0 : ℕ)) p → Exact Nat.cast s (p >>= (releaseAll · s)) := fun p hp => by
    rw [Nat.cast_zero, add_zero] at hp
    exact hp.bind (fair_releaseAll · s)
  cases o with
  | get key => exact ⟨⟨⟨fun _ => (add_zero _).symm, trivial⟩, fun _ => trivial⟩, sub_zero _⟩
  | insert key size => exact ⟨fair_insertBlock key size s, sub_zero _⟩
  | evictFile fileNumber =>
    exact hrelease _ (exact_evictFileFrom (worth_releaseAll · s) fileNumber _ 0)
  | evictAtLeast bytes =>
    simp only [BlockOp.program, ElysiumKV.evictAtLeast]
    split_ifs
    · exact ⟨trivial, rfl⟩
    · exact hrelease _ (exact_evictRounds (worth_releaseAll · s) bytes bytes 0)
  | tryAcquire bytes =>
    refine ⟨⟨⟨fun r => ?_, trivial⟩, fun _ => trivial⟩, sub_zero _⟩
    cases r with
    | false => exact (add_zero _).symm
    | true => exact Nat.cast_add s bytes
  | tryAcquireOver bytes =>
    refine ⟨⟨⟨fun _ => (add_zero _).symm, trivial⟩, fun _ => trivial⟩, ?_⟩
    show ((s + bytes : ℕ) : ℤ) - bytes = s
    omega
  | release bytes =>
    have hle := henabled bytes rfl
    refine ⟨⟨⟨fun _ => (add_zero _).symm, Int.natCast_nonneg _⟩, fun _ => trivial⟩, ?_⟩
    show ((s - bytes : ℕ) : ℤ) - -(bytes : ℤ) = s
    omega

end BlockProg

/-! ### The account over whole runs -/

/-- The states of the machine. -/
abbrev BlockState (T : Type) :=
  State T (BlockCacheWorld T) ℕ BlockOp BlockCall BlockCall.Reply

/-- What a thread holds of the budget, or stands for in mid-operation. -/
def standing : Thread BlockCall BlockCall.Reply ℕ BlockOp → ℤ
  | .idle s => s
  | .busy _ _ p => BlockProg.worth Nat.cast p

section Runs

variable {T : Type} [Fintype T] [DecidableEq T] {config : BlockCacheConfig}

/-- What is acquired is what the cache holds and the threads stand for. -/
structure Balanced (x : BlockState T) : Prop where
  used : x.world.used = x.world.cached + ∑ t, standing (x.threads t)
  fair : ∀ t o s p, x.threads t = .busy o s p → BlockProg.Fair Nat.cast p

variable {w : BlockCacheWorld T} {threads : T → Thread BlockCall BlockCall.Reply ℕ BlockOp} {t : T}
  {thread : Thread BlockCall BlockCall.Reply ℕ BlockOp}

theorem Balanced.update {w' : BlockCacheWorld T} (h : Balanced ⟨w, threads⟩)
    (hused : w'.used - w'.cached - standing thread = w.used - w.cached - standing (threads t))
    (hfair : ∀ o s p, thread = .busy o s p → BlockProg.Fair Nat.cast p) :
    Balanced ⟨w', update threads t thread⟩ := by
  refine ⟨?_, fun t' o s p hp => ?_⟩
  · have hsum := Tally.sum_update standing threads t thread
    have hbefore := h.used
    dsimp only at hbefore ⊢
    omega
  · rcases of_update_eq_busy hp with ⟨-, hp⟩ | ⟨-, hp⟩
    · exact hfair o s p hp
    · exact h.fair t' o s p hp

variable {x y : BlockState T}

theorem Balanced.step (h : Balanced x) (hstep : (blockMachine T config).Step x y) : Balanced y := by
  cases hstep with
  | start t o s hidle henabled =>
    have hexact := BlockProg.exact_program o s (by rintro bytes rfl; exact henabled)
    refine h.update ?_ ?_
    · rw [hidle]
      exact congrArg (_ - ·) hexact.2
    · rintro o s p hp
      cases hp
      exact hexact.1
  | @call w w' threads t o s c next r hbusy hreply =>
    have hfair := h.fair t o s _ hbusy
    obtain rfl : r = (w.answer config t c).1 := congrArg Prod.fst hreply
    obtain rfl : w' = (w.answer config t c).2 := congrArg Prod.snd hreply
    refine h.update ?_ ?_
    · have hworth := hfair.1.1 (w.answer config t c).1
      have hbalance := w.balance_answer config t c
      rw [hbusy]
      simp only [standing, BlockProg.worth]
      omega
    · rintro o s p hp
      cases hp
      exact hfair.2 _
  | finish t o s s' hbusy =>
    refine h.update ?_ nofun
    rw [hbusy]
    rfl

theorem Balanced.reaches (h : Balanced x) (hreach : (blockMachine T config).Reaches x y) :
    Balanced y := by
  induction hreach with
  | refl => exact h
  | step _ hstep ih => exact ih.step hstep

namespace BlockCacheWorld

variable {t : T}

omit [Fintype T] in
theorem owner_of_mem_inserted {c : BlockCall} {w : BlockCacheWorld T} {e : BlockEntry T}
    (he : e ∈ w.inserted config t c) : e.owner = some t := by
  unfold inserted at he
  split at he
  · split_ifs at he
    · rw [mem_singleton.1 he]
    · cases he
  · cases he

omit [Fintype T] in
theorem sum_ownedBy_eq_zero {entries : List (BlockEntry T)} (h : ∀ e ∈ entries, e.owner ≠ some t) :
    (entries.map (ownedBy t)).sum = 0 := by
  refine sum_eq_zero fun n hn => ?_
  obtain ⟨e, he, rfl⟩ := mem_map.1 hn
  exact if_neg (h e he)

omit [Fintype T] in
theorem sum_ownedBy_le (t : T) (entries : List (BlockEntry T)) :
    (entries.map (ownedBy t)).sum ≤ LruShard.charges entries := by
  induction entries with
  | nil => exact le_rfl
  | cons e entries ih =>
    have he : ownedBy t e ≤ e.charge := by
      unfold ownedBy
      split_ifs
      · exact le_rfl
      · exact Nat.zero_le _
    exact Nat.add_le_add he ih

omit [Fintype T] in
theorem owned_answer_of_ne {t' : T} (htt : t ≠ t') {c : BlockCall} {w : BlockCacheWorld T}
    (hcareful : ∀ e ∈ w.evicted config t' c, e.owner = none ∨ e.owner = some t') :
    owned t (w.answer config t' c).2 = w.owned t := by
  by_cases hc : ∃ bytes, c = .acquireCharge bytes
  · obtain ⟨bytes, rfl⟩ := hc
    refine weigh_settle (ownedBy t) (t := t') (fun e he => ?_) w
    rw [ownedBy, ownedBy, he, if_neg nofun, if_neg]
    exact fun h => htt (Option.some.inj h).symm
  · have hweigh := w.weigh_answer (ownedBy t) config t' (c := c) fun bytes h => hc ⟨bytes, h⟩
    have hother : ∀ e : BlockEntry T, e.owner = some t' → e.owner ≠ some t :=
      fun e he h => htt (Option.some.inj (h.symm.trans he))
    have hinserted : ((w.inserted config t' c).map (ownedBy t)).sum = 0 :=
      sum_ownedBy_eq_zero fun e he => hother e (owner_of_mem_inserted he)
    have hevicted : ((w.evicted config t' c).map (ownedBy t)).sum = 0 := by
      refine sum_ownedBy_eq_zero fun e he => ?_
      rcases hcareful e he with hnone | hown
      · rw [hnone]
        nofun
      · exact hother e hown
    rw [hinserted, hevicted, add_zero, add_zero] at hweigh
    exact hweigh

omit [Fintype T] in
theorem owned_settle (t : T) (w : BlockCacheWorld T) : (w.settle t).owned t = 0 := by
  unfold owned weigh
  refine Finset.sum_eq_zero fun i _ => sum_ownedBy_eq_zero fun e he => ?_
  obtain ⟨e, -, rfl⟩ := mem_map.1 he
  split_ifs with h
  · nofun
  · exact h

theorem sum_owned_le (w : BlockCacheWorld T) : ∑ t, w.owned t ≤ w.cached := by
  have hentry : ∀ e : BlockEntry T, ∑ t, ownedBy t e ≤ e.charge := by
    intro e
    unfold ownedBy
    cases e.owner with
    | none => simp
    | some t => simp
  have hentries : ∀ entries : List (BlockEntry T),
      ∑ t, (entries.map (ownedBy t)).sum ≤ (entries.map BlockEntry.charge).sum := by
    intro entries
    induction entries with
    | nil => simp
    | cons e entries ih =>
      simp only [map_cons, sum_cons, Finset.sum_add_distrib]
      exact Nat.add_le_add (hentry e) ih
  unfold owned cached weigh
  rw [Finset.sum_comm]
  exact Finset.sum_le_sum fun i _ => hentries (w.shards i).lru

end BlockCacheWorld

/-- A thread makes up for the charges it has still to acquire. -/
structure Covered (w : BlockCacheWorld T) (t : T)
    (thread : Thread BlockCall BlockCall.Reply ℕ BlockOp) : Prop where
  nonneg : 0 ≤ standing thread + w.owned t
  owes : w.owned t = 0 ∨
    ∃ bytes, thread.next = some (.acquireCharge bytes) ∧ w.owned t ≤ bytes

omit [Fintype T] in
theorem Covered.call {o : BlockOp} {s : ℕ} {c : BlockCall} {next : c.Reply → BlockProg ℕ}
    (h : Covered w t (.busy o s (.call c next))) (hfair : BlockProg.Fair Nat.cast (.call c next)) :
    Covered (w.answer config t c).2 t (.busy o s (next (w.answer config t c).1)) := by
  have hworth := hfair.1.1 (w.answer config t c).1
  have hnonneg := h.nonneg
  simp only [standing, BlockProg.worth] at hnonneg
  have hpaid := BlockCall.paid_nonneg (c := c)
  have hdue := fun hc => BlockCall.due_nonneg (c := c) hc (w.answer config t c).1
  have hnone (hc : ∀ bytes, c ≠ .acquireCharge bytes) : w.owned t = 0 := by
    rcases h.owes with hzero | ⟨bytes, hnext, -⟩
    · exact hzero
    · exact absurd (Option.some.inj hnext) (hc bytes)
  have hplain (hc : ∀ bytes, c ≠ .acquireCharge bytes) (hinserted : w.inserted config t c = [])
      (hpaid : 0 ≤ BlockProg.worth Nat.cast (next (w.answer config t c).1)) :
      Covered (w.answer config t c).2 t (.busy o s (next (w.answer config t c).1)) := by
    have hweigh := w.weigh_answer (BlockCacheWorld.ownedBy t) config t hc
    have hzero : (w.answer config t c).2.owned t = 0 := by
      have hbefore := hnone hc
      rw [hinserted, map_nil, sum_nil] at hweigh
      unfold BlockCacheWorld.owned at hbefore ⊢
      omega
    refine ⟨?_, .inl hzero⟩
    rw [hzero]
    exact hpaid.trans_eq (add_zero _).symm
  cases c with
  | acquireCharge bytes =>
    have hzero : (w.answer config t (.acquireCharge bytes)).2.owned t = 0 := w.owned_settle t
    refine ⟨?_, .inl hzero⟩
    rw [hzero]
    have hle : w.owned t ≤ bytes := by
      rcases h.owes with hzero | ⟨bytes', hnext, hle⟩
      · omega
      · cases hnext
        exact hle
    simp only [standing, BlockCall.paid, BlockCall.due] at hworth hnonneg ⊢
    omega
  | insert key charge =>
    have hbefore := hnone nofun
    have hweigh := w.weigh_answer (BlockCacheWorld.ownedBy t) config t (c := .insert key charge)
      nofun
    have hgone := BlockCacheWorld.sum_ownedBy_le t (w.evicted config t (.insert key charge))
    cases hi : ((w.shards key.shard).insert config.shardCapacity t key charge).1 with
    | none =>
      refine hplain nofun ?_ ?_
      · simp only [BlockCacheWorld.inserted, hi, Option.isSome_none, Bool.false_eq_true, if_false]
      · simp only [BlockCacheWorld.answer, hi, Option.map_none, BlockCall.due, BlockCall.paid]
          at hworth hnonneg ⊢
        omega
    | some gone =>
      obtain ⟨rest, hrest⟩ := hfair.1.2 (LruShard.charges gone)
      have hanswer : (w.answer config t (.insert key charge)).1 = some (LruShard.charges gone) := by
        simp only [BlockCacheWorld.answer, hi, Option.map_some]
      simp only [BlockCacheWorld.inserted, BlockCacheWorld.evicted, hi, Option.isSome_some, if_true,
        Option.getD_some, map_cons, map_nil, sum_cons, sum_nil,
        BlockCacheWorld.ownedBy] at hweigh hgone
      rw [hanswer] at hworth ⊢
      refine ⟨?_, .inr ⟨charge, ?_, ?_⟩⟩
      · simp only [standing, BlockCall.due, BlockCall.paid] at hworth hnonneg ⊢
        unfold BlockCacheWorld.owned at hbefore hnonneg ⊢
        omega
      · rw [hrest]
        rfl
      · unfold BlockCacheWorld.owned at hbefore ⊢
        omega
  | release bytes => exact hplain nofun rfl hfair.1.2
  | get _ | evictFile _ _ | evictOne _ | tryAcquire _ | tryAcquireOver _ =>
    refine hplain nofun rfl ?_
    have hbefore := hnone nofun
    have hcall := hpaid nofun
    have hreply := hdue nofun
    omega

/-- What the thread is about to evict is paid for, or its own. -/
def Spares (config : BlockCacheConfig) (x : BlockState T) (t : T) : Prop :=
  ∀ c, (x.threads t).next = some c →
    ∀ e ∈ x.world.evicted config t c, e.owner = none ∨ e.owner = some t

omit [Fintype T] in
theorem covered_update (hself : Covered w t thread)
    (hothers : ∀ t', t' ≠ t → Covered w t' (threads t')) (t' : T) :
    Covered w t' (update threads t thread t') := by
  by_cases htt : t' = t
  · subst htt
    rwa [update_self]
  · rw [update_of_ne htt]
    exact hothers t' htt

omit [Fintype T] in
theorem Covered.of_standing {thread' : Thread BlockCall BlockCall.Reply ℕ BlockOp}
    (h : Covered w t thread) (hnext : thread.next = none)
    (hstanding : standing thread' = standing thread) : Covered w t thread' := by
  obtain ⟨hnonneg, hzero | ⟨bytes, hcharge, -⟩⟩ := h
  · rw [← hstanding] at hnonneg
    exact ⟨hnonneg, .inl hzero⟩
  · rw [hnext] at hcharge
    cases hcharge

theorem covered_of_runs {been : T → Prop} (hbalanced : Balanced x)
    (hcovered : ∀ t, Covered x.world t (x.threads t))
    (hrun : (blockMachine T config).Runs (Spares config) x y been) (t : T) :
    Covered y.world t (y.threads t) := by
  induction hrun generalizing t with
  | refl => exact hcovered t
  | @start w threads been t' o s _ hidle henabled ih =>
    have hexact := BlockProg.exact_program o s (by rintro bytes rfl; exact henabled)
    have hself : Covered w t' (.idle s) := hidle ▸ ih t'
    have hbegun : Covered w t' (.busy o s (o.program s)) := hself.of_standing rfl hexact.2
    exact covered_update hbegun (fun t _ => ih t) t
  | @call w w' threads been t' o s c next r hrun hbusy hspares hreply ih =>
    obtain rfl : r = (w.answer config t' c).1 := congrArg Prod.fst hreply
    obtain rfl : w' = (w.answer config t' c).2 := congrArg Prod.snd hreply
    refine covered_update ?_ (fun t htt => ?_) t
    · have hself : Covered w t' (.busy o s (.call c next)) := hbusy ▸ ih t'
      exact hself.call ((hbalanced.reaches hrun.reaches).fair t' o s _ hbusy)
    · have hnext : (threads t').next = some c := by
        rw [hbusy]
        rfl
      have hsame := BlockCacheWorld.owned_answer_of_ne htt (hspares c hnext)
      obtain ⟨hnonneg, howes⟩ := ih t
      rw [← hsame] at hnonneg howes
      exact ⟨hnonneg, howes⟩
  | @finish w threads been t' o s s' _ hbusy ih =>
    have hself : Covered w t' (.busy o s (.done s')) := hbusy ▸ ih t'
    have hended : Covered w t' (.idle s') := hself.of_standing rfl rfl
    exact covered_update hended (fun t _ => ih t) t

/-- Before any operation every entry is paid for, and the budget adds up. -/
structure AtRest (x : BlockState T) : Prop where
  idle : ∀ t, (x.threads t).isIdle = true
  paid : ∀ i, ∀ e ∈ (x.world.shards i).lru, e.owner = none
  used : x.world.used = x.world.cached + ∑ t, ((x.threads t).state : ℤ)

omit [Fintype T] [DecidableEq T] in
theorem standing_of_idle (h : thread.isIdle = true) : standing thread = thread.state := by
  rw [Thread.eq_idle h]
  rfl

omit [DecidableEq T] in
theorem sum_standing (h : ∀ t, (threads t).isIdle = true) :
    ∑ t, standing (threads t) = ∑ t, ((threads t).state : ℤ) :=
  Finset.sum_congr rfl fun t _ => standing_of_idle (h t)

omit [DecidableEq T] in
theorem AtRest.balanced (h : AtRest x) : Balanced x where
  used := by
    rw [sum_standing h.idle]
    exact h.used
  fair t o s p hp := by
    have hidle := h.idle t
    rw [hp] at hidle
    cases hidle

theorem AtRest.covered (h : AtRest x) (t : T) : Covered x.world t (x.threads t) := by
  have hzero : x.world.owned t = 0 := by
    unfold BlockCacheWorld.owned BlockCacheWorld.weigh
    refine Finset.sum_eq_zero fun i _ => BlockCacheWorld.sum_ownedBy_eq_zero fun e he => ?_
    rw [h.paid i e he]
    nofun
  refine ⟨?_, .inl hzero⟩
  rw [standing_of_idle (h.idle t)]
  omega

/-- At rest, what is acquired is what the cache and other holders have; where only paid entries are
taken out, it never falls below zero. -/
theorem budget_exact (config : BlockCacheConfig) (x : BlockState T) (hx : AtRest x) :
    (∀ y, (blockMachine T config).Reaches x y → (∀ t, (y.threads t).isIdle = true) →
      y.world.used = y.world.cached + ∑ t, ((y.threads t).state : ℤ)) ∧
    ∀ y been, (blockMachine T config).Runs (Spares config) x y been → 0 ≤ y.world.used := by
  constructor
  · intro y hreach hidle
    rw [← sum_standing hidle]
    exact (hx.balanced.reaches hreach).used
  · intro y been hrun
    have hsum : 0 ≤ ∑ t, (standing (y.threads t) + y.world.owned t) :=
      Finset.sum_nonneg fun t _ => (covered_of_runs hx.balanced hx.covered hrun t).nonneg
    have howned : ((∑ t, y.world.owned t : ℕ) : ℤ) ≤ y.world.cached :=
      Int.ofNat_le.2 y.world.sum_owned_le
    rw [Finset.sum_add_distrib, ← Nat.cast_sum] at hsum
    have hused := (hx.balanced.reaches hrun.reaches).used
    omega

end Runs

/-! ### A block evicted before its charge is acquired -/

/-- A cache of 4 KiB shards. -/
def smallBlockCache : BlockCacheConfig where
  capacityBytes := 65536
  total := 1048576

/-- Two threads, nothing cached or acquired. -/
def nothingCached : BlockState (Fin 2) where
  world := { shards := fun _ => {}, used := 0 }
  threads := fun _ => .idle 0

/-- One thread has put a block in when the other evicts its file. -/
def evictedUnpaid : List (Act (Fin 2) BlockOp Unit) :=
  [.start 0 (.insert ⟨7, 0⟩ 64), .go 0 ()] ++
    .start 1 (.evictFile 7) :: List.replicate 17 (.go 1 ())

/-- The state after a schedule. -/
def afterBlocks (acts : List (Act (Fin 2) BlockOp Unit)) : BlockState (Fin 2) :=
  acts.foldl ((blockMachine (Fin 2) smallBlockCache).perform (fun _ _ => true)
    fun _ t c w => w.answer smallBlockCache t c) nothingCached

theorem nothingCached_atRest : AtRest nothingCached where
  idle _ := rfl
  paid _ _ he := nomatch he
  used := by decide +kernel

theorem runs_afterBlocks (acts : List (Act (Fin 2) BlockOp Unit))
    {allowed : BlockState (Fin 2) → Fin 2 → Prop} {check : BlockState (Fin 2) → Fin 2 → Bool}
    (hcheck : ∀ x t, check x t = true → allowed x t)
    (hstarts : ∀ t o, .start t o ∈ acts → o = .insert ⟨7, 0⟩ 64 ∨ o = .evictFile 7)
    (hchecks : (blockMachine (Fin 2) smallBlockCache).checks (fun _ _ => true)
      (fun _ t c w => w.answer smallBlockCache t c) check nothingCached acts = true) :
    ∃ been, (blockMachine (Fin 2) smallBlockCache).Runs allowed nothingCached (afterBlocks acts)
      been := by
  refine Runs.schedule (fun _ _ _ _ _ => rfl) hcheck acts (fun t o s ho => ?_) hchecks ⟨_, .refl⟩
  rcases hstarts t o ho with rfl | rfl <;> trivial

/-- An eviction's release comes before the insert's acquire. -/
theorem budget_wraps : AtRest nothingCached ∧
    ∃ y, (blockMachine (Fin 2) smallBlockCache).Reaches nothingCached y ∧
      y.world.used = -104 ∧ y.world.counter = 2 ^ 64 - 104 := by
  obtain ⟨been, hrun⟩ := runs_afterBlocks evictedUnpaid (fun _ _ _ => trivial)
    (by simp [evictedUnpaid]) (checks_true ..)
  exact ⟨nothingCached_atRest, _, hrun.reaches, by decide +kernel, by decide +kernel⟩

/-- A block is put in and paid for; then the other thread evicts its file. -/
def evictedPaid : List (Act (Fin 2) BlockOp Unit) :=
  [.start 0 (.insert ⟨7, 0⟩ 64), .go 0 (), .go 0 (), .go 0 ()] ++
    .start 1 (.evictFile 7) :: List.replicate 18 (.go 1 ())

/-- `Spares`, computed. -/
def spares (x : BlockState (Fin 2)) (t : Fin 2) : Bool :=
  match (x.threads t).next with
  | none => true
  | some c => (x.world.evicted smallBlockCache t c).all fun e => e.owner = none || e.owner = some t

theorem spares_of_check (x : BlockState (Fin 2)) (t : Fin 2) (h : spares x t = true) :
    Spares smallBlockCache x t := by
  intro c hc e he
  rw [spares, hc] at h
  simpa using all_eq_true.1 h e he

theorem budget_exact_evictedPaid :
    (afterBlocks (evictedPaid.take 4)).world.cached = 104 ∧
      (afterBlocks evictedPaid).world.cached = 0 ∧
      (afterBlocks evictedPaid).world.used = (afterBlocks evictedPaid).world.cached +
        ∑ t, (((afterBlocks evictedPaid).threads t).state : ℤ) ∧
      0 ≤ (afterBlocks evictedPaid).world.used := by
  obtain ⟨been, hrun⟩ := runs_afterBlocks evictedPaid spares_of_check
    (by simp [evictedPaid]) (by decide +kernel)
  have hexact := budget_exact smallBlockCache nothingCached nothingCached_atRest
  exact ⟨by decide +kernel, by decide +kernel, hexact.1 _ hrun.reaches (by decide +kernel),
    hexact.2 _ been hrun⟩

end ElysiumKV
