import ElysiumKV.Version
import Mathlib.Data.List.Dedup
import Mathlib.Data.Rat.Init

/-!
# Tiers and placement

Tiers name a store and an age bound: transient ones first, bounds not decreasing, an unbounded
durable one last; several may name one store. `placement` is the first whose bound, pulled earlier
by a jitter of the file, fits its age.
-/

namespace ElysiumKV

/-- `Durability`. -/
inductive Durability
  | transient
  | durable
deriving DecidableEq, Repr

/-- What a tier knows of its store. -/
structure StoreRef where
  id : Bytes := []
  /-- `authoritative_store(store).as_cache() != nullptr` -/
  isCache : Bool := false
deriving DecidableEq, Repr

/-- `Tier`. -/
structure Tier where
  store : Option StoreRef := none
  durability : Durability := .durable
  maxAge : Option ℤ := none
  maxBytes : Option ℕ := none
  stallAge : Option ℤ := none
deriving DecidableEq, Repr

/-- The id of its store. -/
def Tier.storeId (tier : Tier) : Bytes := (tier.store.map StoreRef.id).getD []

/-- A `count()` as `uint64_t`. -/
def toUInt64 (count : ℤ) : ℕ := (count % 2 ^ 64).toNat

/-- `Options::age_jitter`: the double, absent for NaN, and its product with a span, rounded and
truncated. -/
structure AgeJitter where
  fraction : Option ℚ := some 0
  scaled : ℕ → ℕ := fun _ => 0

/-- `jitter_window_ms`. -/
def jitterWindowMs (spanMs : ℕ) (jitter : AgeJitter) : ℕ :=
  match jitter.fraction with
  | none => 0
  | some fraction => if 0 < fraction ∧ spanMs ≠ 0 then jitter.scaled spanMs else 0

/-- `jitter_offset`: splitmix64's finalizer. -/
def jitterOffset (seedA seedB windowMs : ℕ) : ℕ :=
  if windowMs = 0 then 0
  else
    let x := (seedA * 0x9e3779b97f4a7c15 + seedB) % 2 ^ 64
    let x := (x ^^^ (x >>> 30)) * 0xbf58476d1ce4e5b9 % 2 ^ 64
    let x := (x ^^^ (x >>> 27)) * 0x94d049bb133111eb % 2 ^ 64
    (x ^^^ (x >>> 31)) % windowMs

/-- `ResolvedTiers`. -/
structure ResolvedTiers where
  tiers : List Tier := []
  ageJitter : AgeJitter := {}

namespace ResolvedTiers

variable (tiers : ResolvedTiers)

/-- The last tier. -/
def last : ℕ := tiers.tiers.length - 1

/-- The tier at an index. -/
def tier (index : ℕ) : Tier := tiers.tiers.getD index {}

/-- `stores`: the distinct stores, by id. -/
def stores : List Bytes := (tiers.tiers.map Tier.storeId).dedup.insertionSort (· ≤ ·)

/-- `tier_of_store`: the first that names it. -/
def tierOfStore (storeId : Bytes) : Option ℕ :=
  tiers.tiers.findIdx? fun tier => tier.storeId = storeId

/-- `store_is_discardable`: all tiers that name it are transient. -/
def storeIsDiscardable (storeId : Bytes) : Bool :=
  tiers.tiers.any (fun tier => tier.storeId = storeId) &&
    tiers.tiers.all fun tier => tier.storeId = storeId → tier.durability = .transient

/-- `tier_age_jitter_ms`. -/
def tierAgeJitterMs (fileNumber minWriteTimeMs spanMs : ℕ) : ℕ :=
  if fileNumber = 0 then 0
  else jitterOffset fileNumber minWriteTimeMs (jitterWindowMs spanMs tiers.ageJitter)

/-- How old a file may get on such a tier. -/
def ageBound (fileNumber minWriteTimeMs : ℕ) (maxAge : ℤ) : ℕ :=
  (toUInt64 maxAge + 2 ^ 64 - tiers.tierAgeJitterMs fileNumber minWriteTimeMs (toUInt64 maxAge)) %
    2 ^ 64

/-- Whether the file is young enough for the tier. -/
def fits (fileNumber minWriteTimeMs nowMs : ℕ) (tier : Tier) : Bool :=
  match tier.maxAge with
  | none => true
  | some maxAge => nowMs - minWriteTimeMs ≤ tiers.ageBound fileNumber minWriteTimeMs maxAge

/-- `placement`. -/
def placement (fileNumber minWriteTimeMs nowMs : ℕ) : ℕ :=
  (tiers.tiers.findIdx? (tiers.fits fileNumber minWriteTimeMs nowMs)).getD tiers.last

end ResolvedTiers

/-! ### Validation -/

/-- The bound is below the one before. -/
def maxAgeDecreases (previous : Option Tier) (maxAge : Option ℤ) : Bool :=
  match previous.map Tier.maxAge, maxAge with
  | some (some before), some maxAge => maxAge < before
  | some none, some _ => true
  | _, _ => false

/-- The checks of a tier; it gets its default stall age. -/
def resolveTier (previous : Option Tier) (isLast : Bool) (tier : Tier) : Except Status Tier :=
  match tier.store with
  | none => .error .config
  | some store =>
    if store.isCache then .error .config
    else if store.id = [] then .error .config
    else
      let tier := match tier.durability, tier.maxAge, tier.stallAge with
        | .transient, some maxAge, none => { tier with stallAge := some (maxAge * 2) }
        | _, _, _ => tier
      if tier.durability = .transient ∧
          ¬ (∃ maxAge ∈ tier.maxAge, ∃ stallAge ∈ tier.stallAge, maxAge < stallAge) then
        .error .config
      else
        if maxAgeDecreases previous tier.maxAge then .error .config
        else if isLast ∧ tier.maxAge.isSome then .error .config
        else if isLast ∧ tier.durability ≠ .durable then .error .config
        else .ok tier

/-- The loop over the tiers. -/
def resolveTierList : Option Tier → List Tier → Except Status (List Tier)
  | _, [] => .ok []
  | previous, tier :: rest => do
    let tier ← resolveTier previous rest.isEmpty tier
    let rest ← resolveTierList (some tier) rest
    pure (tier :: rest)

/-- No transient tier follows a durable one. -/
def transientFirst : List Tier → Bool
  | [] => true
  | tier :: rest =>
    if tier.durability = .durable then rest.all fun t => t.durability = .durable
    else transientFirst rest

/-- `resolve_tiers`. -/
def resolveTiers (tiers : List Tier) (ageJitter : AgeJitter) : Except Status ResolvedTiers :=
  if tiers = [] then .error .config
  else if ¬ ∃ fraction ∈ ageJitter.fraction, 0 ≤ fraction ∧ fraction ≤ 1 then .error .config
  else do
    let resolved ← resolveTierList none tiers
    if transientFirst resolved then pure { tiers := resolved, ageJitter }
    else .error .config

end ElysiumKV
