import ElysiumKV.CacheStores

/-!
# Read-ahead

`WindowedBlobStore` answers a compaction's reads from a window and prefetches the next. Window and
prefetch are parts of the object (`Faithful`), so an answer is its bytes or the error of the read
made for it.
-/

namespace ElysiumKV

open List

/-- A read, and what becomes of the delegate's read made for it and of the prefetch after it. -/
structure WindowRead where
  name : Bytes
  offset : ℕ
  len : ℕ
  direct : Option Failure := none
  ahead : Option Failure := none

/-- The delegate's objects, the constructor's arguments. -/
structure WindowConfig where
  contents : Bytes → Option Bytes
  windowBytes : ℕ
  objectBytes : ℕ := 0

/-- `WindowedBlobStore`. -/
structure WindowedBlobStore where
  name : Bytes := []
  windowOffset : ℕ := 0
  window : Bytes := []
  sequential : Bool := false
  prefetch : Option (Except Status Bytes) := none
  prefetchOffset : ℕ := 0
  lastError : Status := .io

namespace WindowedBlobStore

variable (config : WindowConfig)

variable (s : WindowedBlobStore)

/-- `take_prefetch` consumes the future either way. -/
def takePrefetch (name : Bytes) (offset : ℕ) : Option Bytes × WindowedBlobStore :=
  (match s.prefetch with
    | some (.ok bytes) => if name = s.name ∧ offset = s.prefetchOffset then some bytes else none
    | _ => none,
    { s with prefetch := none })

/-- `start_prefetch`. -/
def startPrefetch (fault : Option Failure) : WindowedBlobStore :=
  let next := s.windowOffset + s.window.length
  if s.sequential = false ∨ s.window.length < config.windowBytes then s
  else if config.objectBytes ≠ 0 ∧ config.objectBytes ≤ next then { s with prefetchOffset := next }
  else
    { s with
      prefetchOffset := next
      prefetch := some (delegateGet config.contents fault s.name next config.windowBytes) }

/-- What `refill` puts in: the rest of the window and the prefetch if they reach, else a read. -/
def filled (r : WindowRead) (forward : Bool) (fetched : Option Bytes) : Except Status Bytes :=
  let keep := s.windowOffset + s.window.length - r.offset
  let direct := delegateGet config.contents r.direct r.name r.offset (max config.windowBytes r.len)
  match fetched with
  | none => direct
  | some bytes =>
    if forward ∧ r.len ≤ keep + bytes.length then
      .ok (s.window.drop (s.window.length - keep) ++ bytes)
    else direct

/-- `refill`. -/
def refill (r : WindowRead) : Bool × WindowedBlobStore :=
  let currentEnd := s.windowOffset + s.window.length
  let forward := r.name = s.name ∧ s.windowOffset ≤ r.offset ∧ r.offset ≤ currentEnd
  let (fetched, s) := s.takePrefetch r.name currentEnd
  match s.filled config r forward fetched with
  | .error e => (false, { s with lastError := e })
  | .ok bytes =>
    (true, startPrefetch config
      { s with sequential := forward, name := r.name, windowOffset := r.offset, window := bytes }
      r.ahead)

/-- The part of the window asked for. -/
def served (r : WindowRead) : Bytes :=
  let start := r.offset - s.windowOffset
  let available := s.window.length - min start s.window.length
  (s.window.drop start).take (min r.len available)

/-- `get`. The window's end does not wrap: it is within the object, or the window is empty. -/
def get (r : WindowRead) : Except Status Bytes × WindowedBlobStore :=
  if r.len = readToEnd then (delegateGet config.contents r.direct r.name r.offset r.len, s)
  else if r.name ≠ s.name ∨ r.offset < s.windowOffset ∨
      s.windowOffset + s.window.length < (r.offset + r.len) % 2 ^ 64 then
    match s.refill config r with
    | (false, s) => (.error s.lastError, s)
    | (true, s) => (.ok (s.served r), s)
  else (.ok (s.served r), s)

/-- One read after another. -/
def run : List WindowRead → WindowedBlobStore → List (WindowRead × Except Status Bytes)
  | [], _ => []
  | r :: rs, s => (r, (s.get config r).1) :: run rs (s.get config r).2

/-- What is buffered is a part of the object, from its offset. -/
structure Faithful (s : WindowedBlobStore) : Prop where
  window : ∀ data ∈ config.contents s.name, s.window <+: data.drop s.windowOffset
  prefetch : ∀ data ∈ config.contents s.name, ∀ bytes, s.prefetch = some (.ok bytes) →
    bytes <+: data.drop s.prefetchOffset

/-- Bytes of the object, or the error of the read made for it. -/
def Answers (r : WindowRead) (result : Except Status Bytes) : Prop :=
  ∀ data ∈ config.contents r.name, result = .ok (readRange data r.offset r.len) ∨
    ∃ e ∈ r.direct, result = .error e

variable {config} {s} {r : WindowRead} {data bytes : Bytes}

theorem delegateGet_cases {fault : Option Failure} {name : Bytes}
    (hdata : data ∈ config.contents name) (offset len : ℕ) :
    delegateGet config.contents fault name offset len = .ok (readRange data offset len) ∨
      ∃ e ∈ fault, delegateGet config.contents fault name offset len = .error e := by
  cases fault with
  | some e => exact .inr ⟨e, rfl, rfl⟩
  | none => exact .inl (by simp [delegateGet, Option.mem_def.1 hdata])

theorem Faithful.drop_window (h : s.Faithful config) (hdata : data ∈ config.contents s.name)
    {offset : ℕ} (hoffset : s.windowOffset ≤ offset) :
    s.window.drop (offset - s.windowOffset) <+: data.drop offset := by
  obtain ⟨rest, hrest⟩ := h.window data hdata
  rw [← Nat.add_sub_cancel' hoffset, ← drop_drop, ← hrest, drop_append, Nat.add_sub_cancel_left]
  exact prefix_append _ _

theorem Faithful.of_takePrefetch (h : s.Faithful config) {name : Bytes} {offset : ℕ}
    (htaken : (s.takePrefetch name offset).1 = some bytes) :
    name = s.name ∧ ∀ data ∈ config.contents name, bytes <+: data.drop offset := by
  unfold takePrefetch at htaken
  split at htaken
  · rename_i hprefetch
    split_ifs at htaken with hwanted
    obtain ⟨rfl, rfl⟩ := hwanted
    obtain rfl := Option.some_inj.1 htaken
    exact ⟨rfl, fun data hdata => h.prefetch data hdata _ hprefetch⟩
  · cases htaken

/-- A part of the object as far as the read reaches. -/
def Fills (r : WindowRead) (data : Bytes) (result : Except Status Bytes) : Prop :=
  (∃ bytes, result = .ok bytes ∧ bytes <+: data.drop r.offset ∧
    bytes.take r.len = (data.drop r.offset).take r.len) ∨ ∃ e ∈ r.direct, result = .error e

theorem fills_delegateGet (hdata : data ∈ config.contents r.name) :
    Fills r data (delegateGet config.contents r.direct r.name r.offset
      (max config.windowBytes r.len)) := by
  refine (delegateGet_cases hdata _ _).imp_left fun hok => ⟨_, hok, readRange_isPrefix _ _ _, ?_⟩
  unfold readRange
  split_ifs
  · rfl
  · rw [take_take, min_eq_left (le_max_right _ _)]

theorem Faithful.filled (h : s.Faithful config) (hdata : data ∈ config.contents r.name)
    {forward : Bool} (hforward : forward = true → r.name = s.name ∧ s.windowOffset ≤ r.offset ∧
      r.offset ≤ s.windowOffset + s.window.length) (fetched : Option Bytes)
    (hfetched : ∀ bytes ∈ fetched, bytes <+: data.drop (s.windowOffset + s.window.length)) :
    Fills r data (s.filled config r forward fetched) := by
  unfold WindowedBlobStore.filled
  cases fetched with
  | none => exact fills_delegateGet hdata
  | some bytes =>
    dsimp only
    split_ifs with hjoin
    · obtain ⟨hname, hlow, hhigh⟩ := hforward hjoin.1
      have hskip : s.window.length - (s.windowOffset + s.window.length - r.offset) =
          r.offset - s.windowOffset := by omega
      rw [hskip]
      obtain ⟨tail, htail⟩ := h.drop_window (hname ▸ hdata) hlow
      set kept := s.window.drop (r.offset - s.windowOffset) with hkept
      have hlength : r.offset + kept.length = s.windowOffset + s.window.length := by
        rw [hkept, length_drop]
        omega
      -- The prefetch goes on where the window ends.
      obtain ⟨rest, hrest⟩ : bytes <+: tail := by
        have := hfetched bytes rfl
        rwa [← hlength, ← drop_drop, ← htail, drop_left] at this
      rw [← hrest, ← append_assoc] at htail
      have hlen : r.len ≤ (kept ++ bytes).length := by
        rw [length_append]
        omega
      exact .inl ⟨_, rfl, ⟨rest, htail⟩, by rw [← htail, take_append_of_le_length hlen]⟩
    · exact fills_delegateGet hdata

theorem Faithful.startPrefetch (fault : Option Failure)
    (hwindow : ∀ data ∈ config.contents s.name, s.window <+: data.drop s.windowOffset)
    (hnone : s.prefetch = none) : (s.startPrefetch config fault).Faithful config := by
  unfold WindowedBlobStore.startPrefetch
  dsimp only
  split_ifs
  · exact ⟨hwindow, by simp [hnone]⟩
  · exact ⟨hwindow, by simp [hnone]⟩
  · refine ⟨hwindow, fun data hdata bytes hbytes => ?_⟩
    rcases delegateGet_cases hdata _ _ with hok | ⟨e, -, herror⟩
    · obtain rfl := Except.ok.inj (hok.symm.trans (Option.some_inj.1 hbytes))
      exact readRange_isPrefix _ _ _
    · cases herror.symm.trans (Option.some_inj.1 hbytes)

theorem served_startPrefetch (fault : Option Failure) :
    (s.startPrefetch config fault).served r = s.served r := by
  unfold startPrefetch
  dsimp only
  split_ifs <;> rfl

theorem Faithful.refill (h : s.Faithful config) (r : WindowRead) :
    (s.refill config r).2.Faithful config ∧ ∀ data ∈ config.contents r.name,
      ((s.refill config r).1 = true ∧
        (s.refill config r).2.served r = (data.drop r.offset).take r.len) ∨
      ∃ e ∈ r.direct, (s.refill config r).1 = false ∧ (s.refill config r).2.lastError = e := by
  have htaken : Faithful config { s with prefetch := none } := ⟨h.window, nofun⟩
  have hfilled := fun data (hdata : data ∈ config.contents r.name) =>
    htaken.filled hdata of_decide_eq_true
      (s.takePrefetch r.name (s.windowOffset + s.window.length)).1
      fun bytes hbytes => (h.of_takePrefetch hbytes).2 data hdata
  unfold WindowedBlobStore.refill
  dsimp only [takePrefetch] at hfilled ⊢
  split
  · rename_i e herror
    refine ⟨⟨h.window, nofun⟩, fun data hdata => ?_⟩
    rcases hfilled data hdata with ⟨bytes, hok, -⟩ | ⟨e', he', herror'⟩
    · cases herror.symm.trans hok
    · exact .inr ⟨e', he', rfl, Except.error.inj (herror.symm.trans herror')⟩
  · rename_i bytes hok
    have hwindow : ∀ data ∈ config.contents r.name, bytes <+: data.drop r.offset ∧
        bytes.take r.len = (data.drop r.offset).take r.len := by
      intro data hdata
      rcases hfilled data hdata with ⟨bytes', hok', hspec⟩ | ⟨e', -, herror'⟩
      · obtain rfl := Except.ok.inj (hok.symm.trans hok')
        exact hspec
      · cases hok.symm.trans herror'
    refine ⟨Faithful.startPrefetch _ (fun data hdata => (hwindow data hdata).1) rfl,
      fun data hdata => .inl ⟨rfl, ?_⟩⟩
    rw [served_startPrefetch, ← (hwindow data hdata).2]
    simp [served]

theorem Faithful.get (h : s.Faithful config)
    (hrange : r.len = readToEnd ∨ r.offset + r.len < 2 ^ 64) :
    (s.get config r).2.Faithful config ∧ Answers config r (s.get config r).1 := by
  unfold WindowedBlobStore.get
  split_ifs with hend hmiss
  · exact ⟨h, fun data hdata => delegateGet_cases hdata _ _⟩
  · obtain ⟨hfaithful, hanswer⟩ := h.refill r
    rcases hrefill : s.refill config r with ⟨_ | _, s'⟩ <;> rw [hrefill] at hfaithful hanswer
    · refine ⟨hfaithful, fun data hdata => ?_⟩
      obtain ⟨e, he, -, hlast⟩ := (hanswer data hdata).resolve_left (by simp)
      exact .inr ⟨e, he, congrArg Except.error hlast⟩
    · refine ⟨hfaithful, fun data hdata => ?_⟩
      obtain ⟨-, hserved⟩ := (hanswer data hdata).resolve_right (by simp)
      exact .inl (by rw [readRange, if_neg hend, ← hserved])
  · push Not at hmiss
    obtain ⟨hname, hlow, hhigh⟩ := hmiss
    rw [Nat.mod_eq_of_lt (hrange.resolve_left hend)] at hhigh
    refine ⟨h, fun data hdata => .inl (congrArg Except.ok ?_)⟩
    obtain ⟨rest, hrest⟩ := h.drop_window (hname ▸ hdata) hlow
    rw [readRange, if_neg hend, ← hrest, take_append_of_le_length, served, min_eq_left]
    · rw [min_eq_left] <;> omega
    · rw [length_drop]
      omega

/-- A read gives the object's bytes, or the error of the read made for it. -/
theorem windowed_read_ahead_invisible (config : WindowConfig) (reads : List WindowRead)
    (hrange : ∀ r ∈ reads, r.len = readToEnd ∨ r.offset + r.len < 2 ^ 64) :
    ∀ p ∈ run config reads {}, Answers config p.1 p.2 := by
  have hstart : Faithful config {} := ⟨fun _ _ => nil_prefix, nofun⟩
  generalize ({} : WindowedBlobStore) = s at hstart ⊢
  induction reads generalizing s with
  | nil => simp [run]
  | cons r reads ih =>
    obtain ⟨hfaithful, hanswer⟩ := hstart.get (hrange r (.head _))
    intro p hp
    rcases mem_cons.1 hp with rfl | hp
    · exact hanswer
    · exact ih (fun r' hr' => hrange r' (.tail _ hr')) _ hfaithful p hp

/-- An object of six bytes, windows of two. -/
def sixBytes : WindowConfig where
  contents name := if name = [7] then some [1, 2, 3, 4, 5, 6] else none
  windowBytes := 2

/-- The second prefetch fails; then one reads past the end, and one fails. -/
theorem windowed_read_ahead_invisible_forward :
    let reads : List WindowRead :=
      [⟨[7], 0, 2, none, none⟩, ⟨[7], 1, 2, none, none⟩, ⟨[7], 3, 2, none, some ⟨.io, by decide⟩⟩,
        ⟨[7], 4, 9, none, none⟩, ⟨[7], 0, 1, some ⟨.io, by decide⟩, none⟩]
    (run sixBytes reads {}).map Prod.snd =
      [.ok [1, 2], .ok [2, 3], .ok [4, 5], .ok [5, 6], .error .io] ∧
    ∀ p ∈ run sixBytes reads {}, Answers sixBytes p.1 p.2 :=
  ⟨rfl, windowed_read_ahead_invisible sixBytes _ (by decide)⟩

end WindowedBlobStore

end ElysiumKV
