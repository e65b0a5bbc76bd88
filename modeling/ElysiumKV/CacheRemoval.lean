import ElysiumKV.CacheStores
import ElysiumKV.Lib.Schedule

/-!
# Removal from a cache that others read

A get that misses reads the delegate and only then inserts what it read; if a removal comes between,
the bytes stay for later gets to find. `Careful` excludes just that.
-/

namespace ElysiumKV

open Program Prog Machine List Function CacheProg CacheWorld

variable {ε σ β T : Type} {config : CacheConfig}

/-- A joiner waits until its flight is done. -/
def CacheCall.ready (c : CacheCall) (w : CacheWorld config σ β) : Bool :=
  match c with
  | .await flight => match w.flights[flight]? with
    | some f => f.done
    | none => false
  | _ => true

/-- Any operation but a put of the object or a `removeMany` that names it. -/
def CacheOp.Spares (name : Bytes) : CacheOp → Prop
  | .put n _ => n ≠ name
  | .removeMany names => name ∉ names
  | _ => True

/-- Threads over one cache store; a thread keeps what its last operation returned. -/
def cacheMachine (T : Type) (P : Payload ε σ β) (config : CacheConfig) (name : Bytes) :
    Machine T (CacheWorld config σ β) CacheResult CacheOp CacheCall CacheCall.Reply where
  Enabled _ op _ := op.Spares name
  start _ op _ := op.program config
  reply _ c w r w' := c.ready w = true ∧ ∃ o, answer P o c w = (r, w')

/-- The states of the machine. -/
abbrev CacheState (T : Type) (config : CacheConfig) (σ β : Type) : Type :=
  Machine.State T (CacheWorld config σ β) CacheResult CacheOp CacheCall CacheCall.Reply

/-! ### What a call can do -/

/-- Calls that neither bring the object back nor remove it. -/
def CacheCall.Spares (name : Bytes) : CacheCall → Prop
  | .put n _ => n ≠ name
  | .remove names => name ∉ names
  | _ => True

/-- A flight keeps its key, and stays unlisted. -/
def Flight.Continues (f f' : Flight) : Prop :=
  f'.key = f.key ∧ f'.gone = f.gone ∧ (f'.listed = true → f.listed = true)

theorem Flight.Continues.refl (f : Flight) : Flight.Continues f f := ⟨rfl, rfl, id⟩

theorem Flight.Continues.trans {f f' f'' : Flight} (h : Flight.Continues f f')
    (h' : Flight.Continues f' f'') : Flight.Continues f f'' :=
  ⟨h'.1.trans h.1, h'.2.1.trans h.2.1, fun hlisted => h.2.2 (h'.2.2 hlisted)⟩

namespace CacheWorld

variable {P : Payload ε σ β} {w w' : CacheWorld config σ β} {o : Outside ε} {name : Bytes}

theorem Lacks.onShard (h : w.Lacks P name) {n : Bytes} {f : Shard σ → β → Shard σ × β}
    (hf : ∀ c b, Shard.Lacks P c name → Shard.Lacks P (f c b).1 name) :
    (w.onShard n f).Lacks P name :=
  forall_onShard (p := fun i c => i = config.shardFor name → c.Lacks P name)
    (fun hi => hf _ _ (hi ▸ h)) (fun _ hi => hi ▸ h) _ rfl

variable {c : CacheCall}

theorem Lacks.answer (h : w.Lacks P name)
    (hc : ∀ offset bytes toEnd, c ≠ .insert name offset bytes toEnd) :
    (answer P o c w).2.Lacks P name := by
  cases c with
  | lookup n offset len => exact h.onShard fun _ _ hlacks => hlacks.lookup _ _ _ _
  | insert n offset bytes toEnd =>
    have hn : n ≠ name := fun heq => hc offset bytes toEnd (heq ▸ rfl)
    exact h.onShard fun _ _ hlacks => hlacks.insert _ hn _ _ _
  | invalidate n => exact h.onShard fun _ _ hlacks => hlacks.invalidate _
  | join key =>
    simp only [answer]
    split <;> exact h
  | put n bytes =>
    simp only [answer]
    split <;> exact h
  | remove names =>
    simp only [answer]
    split <;> exact h
  | await | publish | complete | retire | read => exact h

/-- Flights go on, those begun once the object is gone know it, and it does not come back. -/
structure Moves (name : Bytes) (w w' : CacheWorld config σ β) : Prop where
  flights : ∀ {i : ℕ} {f : Flight}, w.flights[i]? = some f →
    ∃ f', w'.flights[i]? = some f' ∧ f.Continues f'
  begun : ∀ {i : ℕ} {f : Flight}, w'.flights[i]? = some f → w.flights[i]? = none →
    w.contents name = none → f.key.name = name → f.gone = true
  contents : w.contents name = none → w'.contents name = none

theorem Moves.trans {w'' : CacheWorld config σ β} (h : Moves name w w') (h' : Moves name w' w'') :
    Moves name w w'' where
  flights hf := by
    obtain ⟨f', hf', hcont⟩ := h.flights hf
    obtain ⟨f'', hf'', hcont'⟩ := h'.flights hf'
    exact ⟨f'', hf'', hcont.trans hcont'⟩
  begun {i f} hf hnone hgone hname := by
    cases hmid : w'.flights[i]? with
    | none => exact h'.begun hf hmid (h.contents hgone) hname
    | some f' =>
      obtain ⟨f'', hf'', hkey, hgone', -⟩ := h'.flights hmid
      obtain rfl := Option.some.inj (hf.symm.trans hf'')
      exact hgone'.trans (h.begun hmid hnone hgone (hkey ▸ hname))
  contents hnone := h'.contents (h.contents hnone)

theorem Moves.of_flights (hflights : w'.flights = w.flights)
    (hcontents : w.contents name = none → w'.contents name = none) : Moves name w w' where
  flights {_ f} hf := ⟨f, hflights ▸ hf, .refl f⟩
  begun hf hnone := by
    rw [hflights, hnone] at hf
    cases hf
  contents := hcontents

theorem Moves.refl (w : CacheWorld config σ β) : Moves name w w := .of_flights rfl id

theorem Moves.of_map {g : ℕ → Flight → Flight} (hg : ∀ i x, Flight.Continues x (g i x))
    (hflights : ∀ i : ℕ, w'.flights[i]? = w.flights[i]?.map (g i))
    (hcontents : w.contents name = none → w'.contents name = none) : Moves name w w' where
  flights {i x} hx := ⟨g i x, by rw [hflights, hx, Option.map_some], hg i x⟩
  begun {i x} hx hnone := by
    rw [hflights, hnone] at hx
    cases hx
  contents := hcontents

theorem Moves.onFlight (w : CacheWorld config σ β) (flight : ℕ) {f : Flight → Flight}
    (hf : ∀ x, Flight.Continues x (f x)) : Moves name w (w.onFlight flight f) := by
  refine .of_map (g := fun i x => if flight = i then f x else x) (fun i x => ?_) (fun i => ?_) id
  · split_ifs
    · exact hf x
    · exact .refl x
  · exact List.getElem?_modify ..

theorem without_eq_none (names : List Bytes) (h : w.contents name = none) :
    (w.without names).contents name = none := by
  show (if name ∈ names then none else w.contents name) = none
  rw [h, ite_self]

theorem moves_answer (hc : ∀ bytes, c ≠ .put name bytes) : Moves name w (answer P o c w).2 := by
  cases c with
  | lookup | insert | invalidate | await | read => exact .of_flights rfl id
  | join key =>
    simp only [answer]
    split
    · exact .refl w
    · refine ⟨fun {i f} hf => ⟨f, ?_, .refl f⟩, fun {i f} hf hnone hgone hname => ?_, id⟩
      · have hi := (List.getElem?_eq_some_iff.1 hf).1
        exact (List.getElem?_append_left hi).trans hf
      · have hi := List.getElem?_eq_none_iff.1 hnone
        dsimp only at hf
        rw [List.getElem?_append_right hi] at hf
        obtain rfl := mem_singleton.1 (mem_of_getElem? hf)
        replace hname : key.name = name := hname
        show (w.contents key.name).isNone = true
        rw [hname, hgone]
        rfl
  | publish flight result => exact .onFlight w flight fun x => ⟨rfl, rfl, id⟩
  | complete flight => exact .onFlight w flight fun x => ⟨rfl, rfl, id⟩
  | retire key =>
    refine .of_map (g := fun _ x => if x.key = key then { x with listed := false } else x)
      (fun i x => ?_) (fun i => List.getElem?_map ..) id
    split_ifs
    · exact ⟨rfl, rfl, nofun⟩
    · exact .refl x
  | put n bytes =>
    have hn : n ≠ name := fun heq => hc bytes (heq ▸ rfl)
    simp only [answer]
    split
    · exact .of_flights rfl fun h => (update_of_ne hn.symm ..).trans h
    · exact .of_flights rfl fun h => (update_of_ne hn.symm ..).trans h
    · exact .refl w
    · exact .refl w
  | remove names =>
    simp only [answer]
    split
    · exact .of_flights rfl (without_eq_none _)
    · exact .of_flights rfl (without_eq_none _)

/-! ### Fetches of an object that is gone -/

/-- A fetch begun when the object was gone has no bytes. -/
def Honest (name : Bytes) (w : CacheWorld config σ β) : Prop :=
  ∀ f ∈ w.flights, f.key.name = name → f.gone = true → ∃ s, f.result = .error s

theorem Honest.publish (h : w.Honest name) {flight : ℕ} {result : Except Status Bytes}
    (hresult : ∀ f, w.flights[flight]? = some f → f.key.name = name → f.gone = true →
      ∃ s, result = .error s) :
    (answer P o (.publish flight result) w).2.Honest name := by
  intro f hf hname hgone
  obtain ⟨i, hi⟩ := mem_iff_getElem?.1 hf
  replace hi : (w.flights.modify flight fun f => { f with result })[i]? = some f := hi
  rw [List.getElem?_modify] at hi
  obtain ⟨x, hx, rfl⟩ := Option.map_eq_some_iff.1 hi
  split_ifs at hname hgone ⊢ with hflight
  · subst hflight
    exact hresult x hx hname hgone
  · exact h x (mem_of_getElem? hx) hname hgone

theorem Honest.answer (h : w.Honest name) (hc : ∀ flight result, c ≠ .publish flight result) :
    (answer P o c w).2.Honest name := by
  cases c with
  | lookup | insert | invalidate | await | read => exact h
  | join key =>
    simp only [answer]
    split
    · exact h
    · intro f hf hname hgone
      rcases mem_append.1 hf with hf | hf
      · exact h f hf hname hgone
      · obtain rfl := mem_singleton.1 hf
        exact ⟨_, rfl⟩
  | publish flight result => exact absurd rfl (hc flight result)
  | complete flight =>
    exact fun f hf => of_mem_onFlight
      (p := fun f => f.key.name = name → f.gone = true → ∃ s, f.result = .error s) hf h fun _ h => h
  | retire key =>
    intro f hf
    obtain ⟨x, hx, rfl⟩ := mem_map.1 hf
    split_ifs <;> exact h x hx
  | put n bytes =>
    simp only [answer]
    split <;> exact h
  | remove names =>
    simp only [answer]
    split <;> exact h

/-- It is gone from the delegate and the cache. -/
def Removed (P : Payload ε σ β) (name : Bytes) (w : CacheWorld config σ β) : Prop :=
  w.contents name = none ∧ w.Lacks P name

/-- The object is gone, and was when the fetches still listed began. -/
structure Quiet (P : Payload ε σ β) (name : Bytes) (w : CacheWorld config σ β) : Prop where
  removed : w.Removed P name
  begun : ∀ f ∈ w.flights, f.listed = true → f.key.name = name → f.gone = true
  honest : w.Honest name

theorem Removed.answer (h : w.Removed P name)
    (hinsert : ∀ offset bytes toEnd, c ≠ .insert name offset bytes toEnd)
    (hput : ∀ bytes, c ≠ .put name bytes) : (answer P o c w).2.Removed P name :=
  ⟨(moves_answer hput).contents h.1, h.2.answer hinsert⟩

theorem Quiet.moves (h : w.Quiet P name) (hmoves : Moves name w w') (hremoved : w'.Removed P name)
    (hhonest : w'.Honest name) : w'.Quiet P name := by
  refine ⟨hremoved, fun f hf hlisted hname => ?_, hhonest⟩
  obtain ⟨i, hi⟩ := mem_iff_getElem?.1 hf
  cases hbefore : w.flights[i]? with
  | none => exact hmoves.begun hi hbefore h.removed.1 hname
  | some x =>
    obtain ⟨f', hf', hkey, hgone, hstill⟩ := hmoves.flights hbefore
    obtain rfl := Option.some.inj (hi.symm.trans hf')
    rw [hgone]
    exact h.begun x (mem_of_getElem? hbefore) (hstill hlisted) (hkey ▸ hname)

/-! ### A get among others -/

/-- A call is answered once it need not wait. -/
def Among (P : Payload ε σ β) (c : CacheCall) (w : CacheWorld config σ β) (r : c.Reply)
    (w' : CacheWorld config σ β) : Prop :=
  c.ready w = true ∧ ∃ o, answer P o c w = (r, w')

/-- What every call keeps. -/
def Guarantee (name : Bytes) (w w' : CacheWorld config σ β) : Prop :=
  Moves name w w' ∧ (w.Honest name → w'.Honest name)

variable {r : c.Reply}

theorem Among.exists_answer (h : Among P c w r w') : ∃ o, w' = (answer P o c w).2 := by
  obtain ⟨-, o, hanswer⟩ := h
  exact ⟨o, congrArg Prod.snd hanswer.symm⟩

theorem Among.moves (h : Among P c w r w') (hput : ∀ bytes, c ≠ .put name bytes) :
    Moves name w w' := by
  obtain ⟨o, rfl⟩ := h.exists_answer
  exact moves_answer hput

theorem Among.guarantee (h : Among P c w r w') (hput : ∀ bytes, c ≠ .put name bytes)
    (hpublish : ∀ flight result, c ≠ .publish flight result) : Guarantee name w w' := by
  refine ⟨h.moves hput, fun hw => ?_⟩
  obtain ⟨o, rfl⟩ := h.exists_answer
  exact hw.answer hpublish

theorem Quiet.call (h : w.Quiet P name) (hr : Among P c w r w')
    (hinsert : ∀ offset bytes toEnd, c ≠ .insert name offset bytes toEnd)
    (hput : ∀ bytes, c ≠ .put name bytes) (hpublish : ∀ flight result, c ≠ .publish flight result) :
    w'.Quiet P name := by
  obtain ⟨hmoves, hhonest⟩ : Guarantee name w w' := hr.guarantee hput hpublish
  obtain ⟨o, rfl⟩ := hr.exists_answer
  exact h.moves hmoves (h.removed.answer hinsert hput) (hhonest h.honest)

/-- A flight of `n` of which `p` is known. -/
def Aboard (n : Bytes) (flight : ℕ) (p : Flight → Prop) (w : CacheWorld config σ β) : Prop :=
  ∃ f, w.flights[flight]? = some f ∧ f.key.name = n ∧ p f

theorem Aboard.moves {n : Bytes} {flight : ℕ} {p p' : Flight → Prop} (h : w.Aboard n flight p)
    (hmoves : Moves name w w') (hp : ∀ f f', p f → f'.gone = f.gone → p' f') :
    w'.Aboard n flight p' := by
  obtain ⟨f, hf, hname, hpf⟩ := h
  obtain ⟨f', hf', hkey, hgone, -⟩ := hmoves.flights hf
  exact ⟨f', hf', hkey ▸ hname, hp f f' hpf hgone⟩

section Get

variable {rely : CacheWorld config σ β → CacheWorld config σ β → Prop} {n : Bytes} {quiet : Prop}

theorem aboard_join {key : FlightKey} {w₁ w₂ : CacheWorld config σ β} {flight : ℕ} {leader : Bool}
    (hr : Among P (.join key) w₁ (flight, leader) w₂) (hquiet : key.name = name → quiet →
      w₁.Quiet P name) :
    (leader = true → w₂.Aboard key.name flight fun f =>
        key.name = name → f.gone = true → w₂.contents name = none) ∧
      (leader = false → w₂.Aboard key.name flight fun f =>
        key.name = name → quiet → f.gone = true) := by
  obtain ⟨-, o, hanswer⟩ := hr
  simp only [answer] at hanswer
  split at hanswer
  next i hfind =>
    obtain ⟨hpair, rfl⟩ := Prod.mk.inj hanswer
    obtain ⟨rfl, rfl⟩ := Prod.mk.inj hpair
    obtain ⟨hi, hf, -⟩ := List.findIdx?_eq_some_iff_getElem.1 hfind
    obtain ⟨hlisted, hkey⟩ := of_decide_eq_true hf
    refine ⟨nofun, fun _ => ⟨_, List.getElem?_eq_getElem hi, hkey ▸ rfl, fun hn hq => ?_⟩⟩
    exact (hquiet hn hq).begun _ (getElem_mem hi) hlisted (hkey ▸ hn)
  next hnone =>
    obtain ⟨hpair, rfl⟩ := Prod.mk.inj hanswer
    obtain ⟨rfl, rfl⟩ := Prod.mk.inj hpair
    refine ⟨fun _ => ⟨_, List.getElem?_concat_length, rfl, fun hn hg => ?_⟩, nofun⟩
    exact hn ▸ Option.isNone_iff_eq_none.1 hg

variable (hrely : ∀ w w', rely w w' → Guarantee name w w')

include hrely

theorem safe_ask {α : Type} {f : c.Reply → CacheProg α} {post : α → CacheWorld config σ β → Prop}
    (hhonest : w.Honest name) (hput : ∀ bytes, c ≠ .put name bytes)
    (hpublish : ∀ flight result, c ≠ .publish flight result)
    (h : ∀ w₁ r w₂, rely w w₁ → Among P c w₁ r w₂ → Guarantee name w₁ w₂ → w₂.Honest name →
      (f r).Safe (Among P) rely (Guarantee name) (Honest name) post w₂) :
    (Prog.ask c >>= f).Safe (Among P) rely (Guarantee name) (Honest name) post w := by
  refine Safe.ask fun w₁ h₁ => ?_
  have hhonest₁ := (hrely _ _ h₁).2 hhonest
  refine ⟨hhonest₁, fun r w₂ hr => ?_⟩
  have hguar : Guarantee name w₁ w₂ := hr.guarantee hput hpublish
  exact ⟨hguar, h w₁ r w₂ h₁ hr hguar (hguar.2 hhonest₁)⟩

theorem safe_pure {α : Type} {a : α} {post : α → CacheWorld config σ β → Prop}
    (hhonest : w.Honest name) (h : ∀ w', rely w w' → w'.Honest name → post a w') :
    (pure a : CacheProg α).Safe (Among P) rely (Guarantee name) (Honest name) post w :=
  Safe.pure fun w' h' => ⟨(hrely _ _ h').2 hhonest, h w' h' ((hrely _ _ h').2 hhonest)⟩

variable (hstable : n = name → quiet → ∀ w w', rely w w' → w.Quiet P name → w'.Quiet P name)
  {plan : FetchPlan} (hhonest : w.Honest name)

include hstable hhonest

/-- A fetch of an object that is gone yields an error. -/
theorem fetch_safe {flight : ℕ}
    (haboard : w.Aboard n flight fun f => n = name → f.gone = true → w.contents name = none)
    (hquiet : n = name → quiet → w.Quiet P name) :
    (fetch n plan).Safe (Among P) rely (Guarantee name) (Honest name)
      (fun r w' => w'.Honest name ∧
        w'.Aboard n flight (fun f => n = name → f.gone = true → ∃ s, r = .error s) ∧
        (n = name → quiet → ∃ s, r = .error s)) w := by
  unfold fetch
  refine safe_ask hrely hhonest nofun nofun fun w₁ r w₂ h₁ hr _ hhonest₂ => ?_
  have hmoves₁ := (hrely _ _ h₁).1
  obtain ⟨-, o, hanswer⟩ := hr
  obtain ⟨rfl, rfl⟩ := Prod.mk.inj hanswer
  have hgone : w₁.contents n = none →
      ∃ s, delegateGet w₁.contents o.read n plan.offset plan.len = .error s := by
    intro hnone
    unfold delegateGet
    rw [hnone]
    split <;> exact ⟨_, rfl⟩
  have haboard₁ : w₁.Aboard n flight fun f => n = name → f.gone = true →
      ∃ s, delegateGet w₁.contents o.read n plan.offset plan.len = .error s := by
    refine haboard.moves hmoves₁ fun f f' hf hsame hn hg => hgone ?_
    rw [hn]
    exact hmoves₁.contents (hf hn (hsame ▸ hg))
  have hquiet₁ : n = name → quiet →
      ∃ s, delegateGet w₁.contents o.read n plan.offset plan.len = .error s := by
    intro hn hq
    have hremoved := (hstable hn hq _ _ h₁ (hquiet hn hq)).removed.1
    exact hgone (hn ▸ hremoved)
  cases hget : delegateGet w₁.contents o.read n plan.offset plan.len with
  | error s =>
    refine safe_pure hrely hhonest₂ fun w₃ h₃ hhonest₃ => ⟨hhonest₃, ?_, fun _ _ => ⟨s, rfl⟩⟩
    exact haboard₁.moves (hrely _ _ h₃).1 fun f f' _ _ _ _ => ⟨s, rfl⟩
  | ok bytes =>
    rw [hget] at haboard₁ hquiet₁
    refine safe_ask hrely hhonest₂ nofun nofun fun w₃ r w₄ h₃ _ hguar hhonest₄ => ?_
    refine safe_pure hrely hhonest₄ fun w₅ h₅ hhonest₅ => ⟨hhonest₅, ?_, hquiet₁⟩
    exact haboard₁.moves (((hrely _ _ h₃).1.trans hguar.1).trans (hrely _ _ h₅).1)
      fun f f' hf hsame hn hg => hf hn (hsame ▸ hg)

variable (hrefl : ∀ w, rely w w) (hquiet : n = name → quiet → w.Quiet P name)

include hrefl hquiet

theorem singleFlight_safe :
    (singleFlight ⟨n, plan.offset, plan.len⟩ (fetch n plan)).Safe (Among P) rely
      (Guarantee name) (Honest name)
      (fun r w' => w'.Honest name ∧ (n = name → quiet → ∃ s, r = .error s)) w := by
  unfold singleFlight
  refine safe_ask hrely hhonest nofun nofun fun w₁ r w₂ h₁ hr hguar hhonest₂ => ?_
  obtain ⟨flight, leader⟩ := r
  have hquiet₁ : n = name → quiet → w₁.Quiet P name :=
    fun hn hq => hstable hn hq _ _ h₁ (hquiet hn hq)
  obtain ⟨hlead, hjoin⟩ := aboard_join hr hquiet₁
  cases leader with
  | true =>
    have hquiet₂ : n = name → quiet → w₂.Quiet P name :=
      fun hn hq => (hquiet₁ hn hq).call hr nofun nofun nofun
    show (lead _ flight _).Safe _ _ _ _ _ _
    unfold lead
    refine Safe.bind hrefl ((fetch_safe hrely hstable hhonest₂ (hlead rfl) hquiet₂).weaken ?_)
    rintro result w₃ ⟨hhonest₃, haboard₃, hresult⟩
    refine Safe.ask fun w₄ h₄ => ?_
    obtain ⟨hmoves₄, hkeep₄⟩ := hrely _ _ h₄
    have hhonest₄ := hkeep₄ hhonest₃
    refine ⟨hhonest₄, fun r w₅ hr => ?_⟩
    -- the leader publishes what it fetched, an error if the object was gone
    have hpublished : Guarantee name w₄ w₅ := by
      obtain ⟨o, rfl⟩ := hr.exists_answer
      refine ⟨moves_answer nofun, fun h => h.publish fun f hf hname hgone => ?_⟩
      obtain ⟨f', hf', hn, hknown⟩ :=
        haboard₃.moves hmoves₄ fun f f' hf hsame hn hg => hf hn (hsame ▸ hg)
      obtain rfl := Option.some.inj (hf.symm.trans hf')
      exact hknown (hn.symm.trans hname) hgone
    refine ⟨hpublished, safe_ask hrely (hpublished.2 hhonest₄) nofun nofun ?_⟩
    intro w₆ r w₇ _ _ _ hhonest₇
    refine safe_ask hrely hhonest₇ nofun nofun fun w₈ r w₉ _ _ _ hhonest₉ => ?_
    exact safe_pure hrely hhonest₉ fun w' _ hhonest' => ⟨hhonest', hresult⟩
  | false =>
    intro w₃ h₃
    obtain ⟨hmoves₃, hkeep₃⟩ := hrely _ _ h₃
    have hhonest₃ := hkeep₃ hhonest₂
    refine ⟨hhonest₃, fun r w₄ hr => ?_⟩
    have hawaited : Guarantee name w₃ w₄ := hr.guarantee nofun nofun
    refine ⟨hawaited, safe_pure hrely (hawaited.2 hhonest₃) fun w₅ _ hhonest₅ => ⟨hhonest₅, ?_⟩⟩
    intro hn hq
    obtain ⟨f, hf, hname, hgone⟩ :=
      (hjoin rfl).moves hmoves₃ fun f f' hf hsame hn hq => hsame.trans (hf hn hq)
    obtain ⟨-, o, hanswer⟩ := hr
    simp only [answer, hf] at hanswer
    obtain ⟨rfl, -⟩ := Prod.mk.inj hanswer
    exact hhonest₃ f (mem_of_getElem? hf) (hname.trans hn) (hgone hn hq)

/-- A get finds no bytes of an object of which nothing is left. -/
theorem serveGet_safe {offset len : ℕ} :
    (serveGet config n offset len).Safe (Among P) rely (Guarantee name) (Honest name)
      (fun r w' => w'.Honest name ∧ (n = name → quiet → ∃ s, r = .error s)) w := by
  unfold serveGet
  refine safe_ask hrely hhonest nofun nofun fun w₁ found w₂ h₁ hr hguar hhonest₂ => ?_
  have hquiet₁ : n = name → quiet → w₁.Quiet P name :=
    fun hn hq => hstable hn hq _ _ h₁ (hquiet hn hq)
  cases found with
  | some bytes =>
    refine safe_pure hrely hhonest₂ fun w₃ _ hhonest₃ => ⟨hhonest₃, fun hn hq => ?_⟩
    subst hn
    obtain ⟨-, o, hanswer⟩ := hr
    have hnone := (hquiet₁ rfl hq).removed.2.lookup_eq_none (b := w₁.shared) o.payload offset len
    have hsome : (Shard.lookup P o.payload n offset len (w₁.shards (config.shardFor n))
        w₁.shared).1 = some bytes := congrArg Prod.fst hanswer
    cases hnone.symm.trans hsome
  | none =>
    have hquiet₂ : n = name → quiet → w₂.Quiet P name :=
      fun hn hq => (hquiet₁ hn hq).call hr nofun nofun nofun
    refine Safe.bind hrefl ((singleFlight_safe hrely hstable hhonest₂ hrefl hquiet₂).weaken ?_)
    rintro result w₃ ⟨hhonest₃, hresult⟩
    refine safe_pure hrely hhonest₃ fun w₄ _ hhonest₄ => ⟨hhonest₄, fun hn hq => ?_⟩
    obtain ⟨s, rfl⟩ := hresult hn hq
    exact ⟨s, rfl⟩

end Get

end CacheWorld

section Operations

variable {name : Bytes}

/-- Calls that neither put the object nor publish a fetch. -/
def CacheCall.Harmless (name : Bytes) (c : CacheCall) : Prop :=
  (∀ bytes, c ≠ .put name bytes) ∧ ∀ flight result, c ≠ .publish flight result

theorem invalidateAll_only {p : CacheCall → Prop} (hp : ∀ n, p (.invalidate n))
    (names : List Bytes) : (invalidateAll names).Only p fun _ => True := by
  induction names with
  | nil => trivial
  | cons n names ih => exact ⟨hp n, fun _ => ih⟩

theorem program_only {op : CacheOp} {p : CacheCall → Prop}
    (hget : ∀ n offset len, op ≠ .get n offset len)
    (hput : ∀ n bytes, op = .put n bytes → p (.put n bytes))
    (hremove : ∀ n, op = .remove n → p (.remove [n]))
    (hremoveMany : ∀ names, op = .removeMany names → p (.remove names))
    (hinsert : ∀ n bytes, p (.insert n 0 bytes true)) (hinvalidate : ∀ n, p (.invalidate n)) :
    (op.program config).Only p fun _ => True := by
  cases op with
  | get n offset len => exact absurd rfl (hget n offset len)
  | put n bytes =>
    refine Only.bind (Q := fun _ => True) ⟨hput n bytes rfl, fun (status : Status) => ?_⟩
      fun _ _ => trivial
    show Only p (fun _ => True) (if status ≠ .ok then _ else _)
    split_ifs
    · trivial
    · exact ⟨hinsert n bytes, fun _ => trivial⟩
    · trivial
  | remove n => exact ⟨hinvalidate n, fun _ => ⟨hremove n rfl, fun _ => trivial⟩⟩
  | removeMany names =>
    refine Only.bind (Only.bind (invalidateAll_only hinvalidate names) fun _ _ => ?_)
      (Q := fun _ => True) fun _ _ => trivial
    exact ⟨hremoveMany names rfl, fun _ => trivial⟩
  | invalidate n => exact ⟨hinvalidate n, fun _ => trivial⟩

theorem safe_of_harmless {P : Payload ε σ β} {p : CacheProg CacheResult}
    (h : p.Only (CacheCall.Harmless name) fun _ => True) :
    ∀ {w : CacheWorld config σ β}, w.Honest name →
      p.Safe (CacheWorld.Among P) (CacheWorld.Guarantee name) (CacheWorld.Guarantee name)
        (CacheWorld.Honest name) (fun _ w' => w'.Honest name) w := by
  induction p with
  | done r => exact fun hw w' hrely => ⟨hrely.2 hw, hrely.2 hw⟩
  | call c next ih =>
    intro w hw w₁ h₁
    refine ⟨h₁.2 hw, fun r w₂ hr => ?_⟩
    have hguar := hr.guarantee h.1.1 h.1.2
    exact ⟨hguar, ih r (h.2 r) (hguar.2 (h₁.2 hw))⟩

/-- Every thread keeps up what the others rely on. -/
def honesty (T : Type) (P : Payload ε σ β) (config : CacheConfig) (name : Bytes) :
    (cacheMachine T P config name).Proof where
  rely _ := CacheWorld.Guarantee name
  guar _ := CacheWorld.Guarantee name
  mid _ _ _ := CacheWorld.Honest name
  idle _ _ := CacheWorld.Honest name
  rely_refl _ w := ⟨.refl w, id⟩
  rely_trans _ _ _ _ h h' := ⟨h.1.trans h'.1, fun hw => h'.2 (h.2 hw)⟩
  guar_rely _ h := h
  idle_stable h hrely := hrely.2 h
  safe {_ op _ w} hw henabled := by
    by_cases hget : ∃ n offset len, op = .get n offset len
    · obtain ⟨n, offset, len, rfl⟩ := hget
      have hsafe : (serveGet config n offset len).Safe (CacheWorld.Among P)
          (CacheWorld.Guarantee name) (CacheWorld.Guarantee name) (CacheWorld.Honest name)
          (fun r w' => w'.Honest name ∧ (n = name → False → ∃ s, r = .error s)) w :=
        serveGet_safe (fun _ _ h => h) (fun _ h => h.elim) hw (fun w => ⟨.refl w, id⟩)
          fun _ h => h.elim
      refine Safe.bind (fun w => ⟨.refl w, id⟩) (hsafe.weaken fun r w' hpost => ?_)
      exact Safe.pure fun w'' hrely => ⟨hrely.2 hpost.1, hrely.2 hpost.1⟩
    · refine safe_of_harmless (program_only (fun n offset len h => hget ⟨n, offset, len, h⟩) ?_ ?_ ?_
        (fun _ _ => ⟨nofun, nofun⟩) fun _ => ⟨nofun, nofun⟩) hw
      · rintro n bytes rfl
        refine ⟨fun bytes' heq => henabled ?_, nofun⟩
        exact (CacheCall.put.inj heq).1
      · exact fun _ _ => ⟨nofun, nofun⟩
      · exact fun _ _ => ⟨nofun, nofun⟩

end Operations

/-! ### Flights and their leaders -/

/-- A flight is joined by a get of its object, whose leader retires it. -/
def JoinsFor (op : CacheOp) : (c : CacheCall) → (c.Reply → CacheProg CacheResult) → Prop
  | .join key, next => (∃ offset len, op = .get key.name offset len) ∧
      ∀ flight, (next (flight, true)).Will (.retire key)
  | _, _ => True

theorem joinsFor_of_ne {op : CacheOp} {c : CacheCall} (next : c.Reply → CacheProg CacheResult)
    (hc : ∀ key, c ≠ .join key) : JoinsFor op c next := by
  cases c with
  | join key => exact absurd rfl (hc key)
  | lookup | insert | invalidate | await | publish | complete | retire | read | put | remove =>
    trivial

theorem fetch_only {p : CacheCall → Prop} (n : Bytes) (plan : FetchPlan)
    (hread : p (.read n plan.offset plan.len))
    (hinsert : ∀ bytes toEnd, p (.insert n plan.offset bytes toEnd)) :
    (fetch n plan).Only p fun _ => True := by
  refine ⟨hread, fun (r : Except Status Bytes) => ?_⟩
  cases r with
  | error s => trivial
  | ok bytes => exact ⟨hinsert bytes _, fun _ => trivial⟩

theorem lead_only {p : CacheCall → Prop} {key : FlightKey} {flight : ℕ}
    {fetch : CacheProg (Except Status Bytes)} (hfetch : fetch.Only p fun _ => True)
    (hpublish : ∀ result, p (.publish flight result)) (hcomplete : p (.complete flight))
    (hretire : p (.retire key)) : (lead key flight fetch).Only p fun _ => True :=
  hfetch.bind fun result _ => ⟨hpublish result, fun _ => ⟨hcomplete, fun _ => ⟨hretire, fun _ =>
    trivial⟩⟩⟩

theorem will_lead (key : FlightKey) (flight : ℕ) (fetch : CacheProg (Except Status Bytes)) :
    (lead key flight fetch).Will (.retire key) :=
  will_bind fun _ => .inr fun _ => .inr fun _ => .inl rfl

theorem joined_only (key : FlightKey) (n : Bytes) (plan : FetchPlan) (joined : ℕ × Bool) :
    Only (fun c => ∀ key, c ≠ .join key) (fun _ => True)
      (if joined.2 then lead key joined.1 (fetch n plan)
        else await joined.1) := by
  split_ifs
  · exact lead_only (fetch_only n plan nofun fun _ _ => nofun) (fun _ => nofun) nofun nofun
  · exact ⟨nofun, fun _ => trivial⟩

theorem program_joins (op : CacheOp) : (op.program config).Each (JoinsFor op) := by
  by_cases hget : ∃ n offset len, op = .get n offset len
  · obtain ⟨n, offset, len, rfl⟩ := hget
    refine ⟨trivial, fun (found : Option Bytes) => ?_⟩
    cases found with
    | some bytes => trivial
    | none =>
      refine ⟨⟨⟨offset, len, rfl⟩, fun flight => ?_⟩, fun (r : ℕ × Bool) => ?_⟩
      · exact Will.bind (Will.bind (will_lead _ flight _) _) _
      · refine Only.each (Q := fun _ => True) ?_ fun c next hc => joinsFor_of_ne next hc
        refine Only.bind (Q := fun _ => True) ?_ fun _ _ => trivial
        exact Only.bind (joined_only _ n _ r) fun _ _ => trivial
  · have honly : (op.program config).Only (fun c => ∀ key, c ≠ .join key) fun _ => True :=
      program_only (fun n offset len h => hget ⟨n, offset, len, h⟩) (fun _ _ _ => nofun)
        (fun _ _ => nofun) (fun _ _ => nofun) (fun _ _ => nofun) fun _ => nofun
    exact honly.each fun c next hc => joinsFor_of_ne next hc

/-- A removal once the cache has been told. -/
def removalCall (name : Bytes) : CacheProg CacheResult :=
  .call (.remove [name]) fun s => .done (.status s)

section Runs

variable {name : Bytes} {P : Payload ε σ β}

/-- Where a removal is, and what is then known. -/
def AtRemoval (P : Payload ε σ β) (name : Bytes) (w : CacheWorld config σ β)
    (p : CacheProg CacheResult) : Prop :=
  p = .call (.invalidate name) (fun _ => removalCall name) ∨
    p = removalCall name ∧ w.Lacks P name ∨
      ∃ s, p = .done (.status s) ∧ (s = .ok → w.Removed P name)

/-- What holds of an operation in progress. -/
structure Engaged (P : Payload ε σ β) (name : Bytes) (w : CacheWorld config σ β) (op : CacheOp)
    (p : CacheProg CacheResult) : Prop where
  joins : p.Each (JoinsFor op)
  removal : op = .remove name → AtRemoval P name w p
  spares : op ≠ .remove name → p.Only (CacheCall.Spares name) fun _ => True

/-- A thread leads the flight and will retire it. -/
def Leads (threads : T → Thread CacheCall CacheCall.Reply CacheResult CacheOp) (f : Flight) :
    Prop :=
  ∃ t offset len s p, threads t = .busy (.get f.key.name offset len) s p ∧ p.Will (.retire f.key)

/-- The invariant: every listed flight has a leader that will retire it. -/
structure Good (P : Payload ε σ β) (name : Bytes) (x : CacheState T config σ β) : Prop where
  honest : x.world.Honest name
  holds : ∀ t, (honesty T P config name).Holds x.world t (x.threads t)
  led : ∀ f ∈ x.world.flights, f.listed = true → Leads x.threads f
  engaged : ∀ {t op s p}, x.threads t = .busy op s p → Engaged P name x.world op p

/-- No bytes of the object are inserted once it is gone, or during a removal. -/
def Careful (name : Bytes) (x : CacheState T config σ β) (t : T) : Prop :=
  ∀ offset bytes toEnd, (x.threads t).next = some (.insert name offset bytes toEnd) →
    x.world.contents name ≠ none ∧ ∀ t', (x.threads t').next ≠ some (.remove [name])

theorem singleFlight_spares (key : FlightKey) (n : Bytes) (plan : FetchPlan) :
    (singleFlight key (fetch n plan)).Only (CacheCall.Spares name)
      fun _ => True := by
  refine ⟨trivial, fun (joined : ℕ × Bool) => ?_⟩
  show Only _ (fun _ => True) (if joined.2 then lead key joined.1 (fetch n plan)
    else await joined.1)
  split_ifs
  · exact lead_only (fetch_only n plan trivial fun _ _ => trivial) (fun _ => trivial) trivial
      trivial
  · exact ⟨trivial, fun _ => trivial⟩

theorem serveGet_spares (n : Bytes) (offset len : ℕ) :
    (serveGet config n offset len).Only (CacheCall.Spares name) fun _ => True := by
  refine ⟨trivial, fun (found : Option Bytes) => ?_⟩
  cases found with
  | some bytes => trivial
  | none =>
    show Only _ _ (singleFlight _ (fetch n _) >>= _)
    exact Only.bind (singleFlight_spares _ n _) fun _ _ => trivial

theorem engaged_program {op : CacheOp} (hop : op.Spares name) (w : CacheWorld config σ β) :
    Engaged P name w op (op.program config) where
  joins := program_joins op
  removal := by
    rintro rfl
    exact .inl rfl
  spares hne := by
    by_cases hget : ∃ n offset len, op = .get n offset len
    · obtain ⟨n, offset, len, rfl⟩ := hget
      exact Only.bind (serveGet_spares n offset len) fun _ _ => trivial
    · refine program_only (fun n offset len h => hget ⟨n, offset, len, h⟩) ?_ ?_ ?_
        (fun _ _ => trivial) fun _ => trivial
      · rintro n bytes rfl
        exact hop
      · rintro n rfl
        exact fun hmem => hne (mem_singleton.1 hmem ▸ rfl)
      · rintro names rfl
        exact hop

variable {c : CacheCall} {next : c.Reply → CacheProg CacheResult}

theorem Engaged.put_ne {w : CacheWorld config σ β} {op : CacheOp}
    (h : Engaged P name w op (.call c next)) (bytes : Bytes) : c ≠ .put name bytes := by
  rintro rfl
  by_cases hop : op = .remove name
  · rcases h.removal hop with heq | ⟨heq, -⟩ | ⟨s, heq, -⟩ <;> cases heq
  · exact (h.spares hop).1 rfl

theorem AtRemoval.moves {w w' : CacheWorld config σ β} {p : CacheProg CacheResult}
    (h : AtRemoval P name w p) (hlacks : p = removalCall name → w.Lacks P name → w'.Lacks P name)
    (hremoved : w.Removed P name → w'.Removed P name) : AtRemoval P name w' p := by
  rcases h with hp | ⟨hp, hw⟩ | ⟨s, hp, hw⟩
  · exact .inl hp
  · exact .inr (.inl ⟨hp, hlacks hp hw⟩)
  · exact .inr (.inr ⟨s, hp, fun hs => hremoved (hw hs)⟩)

variable {r : c.Reply}

theorem AtRemoval.call {w w' : CacheWorld config σ β} (h : AtRemoval P name w (.call c next))
    (hreply : CacheWorld.Among P c w r w') : AtRemoval P name w' (next r) := by
  obtain ⟨-, o, hanswer⟩ := hreply
  rcases h with hp | ⟨hp, hlacks⟩ | ⟨s, hp, -⟩
  · cases hp
    obtain ⟨-, rfl⟩ := Prod.mk.inj hanswer
    refine .inr (.inl ⟨rfl, ?_⟩)
    rw [CacheWorld.Lacks, onShard_self]
    exact Shard.lacks_invalidate
  · cases hp
    refine .inr (.inr ⟨r, rfl, ?_⟩)
    simp only [answer] at hanswer
    split at hanswer <;> obtain ⟨rfl, rfl⟩ := Prod.mk.inj hanswer
    · exact fun _ => ⟨if_pos (mem_singleton_self name), hlacks⟩
    · next failure gone _ => exact fun hok => absurd hok failure.2
  · cases hp

theorem listed_answer {w : CacheWorld config σ β} {o : Outside ε} (hc : ∀ key, c ≠ .join key)
    {f' : Flight} (hf' : f' ∈ (answer P o c w).2.flights) (hlisted : f'.listed = true) :
    ∃ f ∈ w.flights, f.listed = true ∧ f.key = f'.key ∧ c ≠ .retire f'.key := by
  have hsame (hretire : ∀ key, c ≠ .retire key) : ∀ f ∈ w.flights, f.listed = true →
      ∃ f₁ ∈ w.flights, f₁.listed = true ∧ f₁.key = f.key ∧ c ≠ .retire f.key :=
    fun f hf hl => ⟨f, hf, hl, rfl, hretire f.key⟩
  cases c with
  | lookup | insert | invalidate | await | read => exact hsame nofun f' hf' hlisted
  | join key => exact absurd rfl (hc key)
  | publish | complete =>
    exact of_mem_onFlight (p := fun f => f.listed = true → ∃ f₁ ∈ w.flights,
      f₁.listed = true ∧ f₁.key = f.key ∧ _ ≠ CacheCall.retire f.key) hf' (hsame nofun)
      (fun _ h => h) hlisted
  | retire key =>
    obtain ⟨f, hf, rfl⟩ := mem_map.1 hf'
    split_ifs at hlisted ⊢ with hkey
    exact ⟨f, hf, hlisted, rfl, fun heq => hkey (CacheCall.retire.inj heq).symm⟩
  | put n bytes =>
    simp only [answer] at hf'
    split at hf' <;> exact hsame nofun f' hf' hlisted
  | remove names =>
    simp only [answer] at hf'
    split at hf' <;> exact hsame nofun f' hf' hlisted

section Good

variable {w w' : CacheWorld config σ β}
  {threads : T → Thread CacheCall CacheCall.Reply CacheResult CacheOp} {t : T} {op : CacheOp}
  {s : CacheResult} {c : CacheCall} {next : c.Reply → CacheProg CacheResult} {r : c.Reply}

theorem Careful.insert_ne (hcareful : Careful name ⟨w, threads⟩ t)
    (hbusy : threads t = .busy op s (.call c next)) (hlate : w.contents name = none ∨
      ∃ t', (threads t').next = some (.remove [name])) (offset : ℕ) (bytes : Bytes) (toEnd : Bool) :
    c ≠ .insert name offset bytes toEnd := by
  rintro rfl
  obtain ⟨hthere, hnone⟩ := hcareful offset bytes toEnd (congrArg Thread.next hbusy)
  rcases hlate with hgone | ⟨t', ht'⟩
  · exact hthere hgone
  · exact hnone t' ht'

theorem Good.removed (h : Good P name ⟨w, threads⟩)
    (hbusy : threads t = .busy op s (.call c next))
    (hcareful : Careful name ⟨w, threads⟩ t) (hreply : CacheWorld.Among P c w r w')
    (hw : w.Removed P name) : w'.Removed P name := by
  obtain ⟨o, rfl⟩ := hreply.exists_answer
  exact hw.answer (hcareful.insert_ne hbusy (.inl hw.1)) (h.engaged hbusy).put_ne

end Good

variable [DecidableEq T]

variable {f : Flight}

theorem Leads.update {threads : T → Thread CacheCall CacheCall.Reply CacheResult CacheOp}
    (h : Leads threads f) {t : T} {thread : Thread CacheCall CacheCall.Reply CacheResult CacheOp}
    (ht : ∀ op s p, threads t = .busy op s p → ¬ p.Will (.retire f.key)) :
    Leads (update threads t thread) f := by
  obtain ⟨t', offset, len, s, p, hp, hwill⟩ := h
  have htt : t' ≠ t := by
    rintro rfl
    exact ht _ _ _ hp hwill
  exact ⟨t', offset, len, s, p, (update_of_ne htt ..).trans hp, hwill⟩

theorem Leads.call {threads : T → Thread CacheCall CacheCall.Reply CacheResult CacheOp}
    {f' : Flight} (h : Leads threads f) (hkey : f'.key = f.key) {t : T} {op : CacheOp}
    {s : CacheResult} (hbusy : threads t = .busy op s (.call c next)) (hc : c ≠ .retire f.key)
    (r : c.Reply) : Leads (Function.update threads t (.busy op s (next r))) f' := by
  unfold Leads
  rw [hkey]
  obtain ⟨t', offset, len, s', p, hp, hwill⟩ := h
  by_cases htt : t' = t
  · subst htt
    obtain ⟨rfl, rfl, rfl⟩ := Thread.busy.inj (hbusy.symm.trans hp)
    exact ⟨t', offset, len, s, next r, Function.update_self .., hwill.resolve_left hc r⟩
  · exact ⟨t', offset, len, s', p, (Function.update_of_ne htt ..).trans hp, hwill⟩

variable {w w' : CacheWorld config σ β}
  {threads : T → Thread CacheCall CacheCall.Reply CacheResult CacheOp} {t : T} {op : CacheOp}
  {s : CacheResult}

theorem Good.led_call (h : Good P name ⟨w, threads⟩)
    (hbusy : threads t = .busy op s (.call c next)) (hreply : CacheWorld.Among P c w r w')
    (hf : f ∈ w'.flights) (hlisted : f.listed = true) :
    Leads (update threads t (.busy op s (next r))) f := by
  obtain ⟨-, o, hanswer⟩ := hreply
  by_cases hjoin : ∃ key, c = .join key
  · obtain ⟨key, rfl⟩ := hjoin
    have hold (hf : f ∈ w.flights) : Leads (update threads t (.busy op s (next r))) f :=
      (h.led f hf hlisted).call rfl hbusy nofun r
    simp only [answer] at hanswer
    split at hanswer <;> obtain ⟨rfl, rfl⟩ := Prod.mk.inj hanswer
    · exact hold hf
    · rcases mem_append.1 hf with hf | hf
      · exact hold hf
      · obtain rfl := mem_singleton.1 hf
        obtain ⟨⟨offset, len, rfl⟩, hwill⟩ := (h.engaged hbusy).joins.1
        exact ⟨t, offset, len, s, _, update_self .., hwill _⟩
  · obtain rfl : (answer P o c w).2 = w' := congrArg Prod.snd hanswer
    obtain ⟨f₁, hf₁, hlisted₁, hkey, hc⟩ :=
      listed_answer (fun key heq => hjoin ⟨key, heq⟩) hf hlisted
    exact (h.led f₁ hf₁ hlisted₁).call hkey.symm hbusy (hkey ▸ hc) r

theorem Good.call (h : Good P name ⟨w, threads⟩) (hbusy : threads t = .busy op s (.call c next))
    (hcareful : Careful name ⟨w, threads⟩ t) (hreply : CacheWorld.Among P c w r w') :
    Good P name ⟨w', update threads t (.busy op s (next r))⟩ := by
  have hstep : (cacheMachine T P config name).Step ⟨w, threads⟩ ⟨w', _⟩ :=
    .call t op s c next r hbusy hreply
  refine ⟨?_, hstep.holds (honesty T P config name) h.holds, fun f => h.led_call hbusy hreply, ?_⟩
  · have hself : (honesty T P config name).Holds w t (threads t) := h.holds t
    rw [hbusy] at hself
    exact ((hself w ⟨.refl w, id⟩).2 r w' hreply).1.2 h.honest
  · intro t' op' s' p' hp'
    rcases of_update_eq_busy hp' with ⟨rfl, heq⟩ | ⟨-, hother⟩
    · cases heq
      have hengaged := h.engaged hbusy
      exact ⟨hengaged.joins.2 r, fun hop => (hengaged.removal hop).call hreply,
        fun hop => (hengaged.spares hop).2 r⟩
    · have hengaged := h.engaged hother
      refine ⟨hengaged.joins, fun hop => (hengaged.removal hop).moves ?_ ?_, hengaged.spares⟩
      · rintro rfl hw
        obtain ⟨o, rfl⟩ := hreply.exists_answer
        exact hw.answer (hcareful.insert_ne hbusy (.inr ⟨t', congrArg Thread.next hother⟩))
      · exact h.removed hbusy hcareful hreply

variable {x y : CacheState T config σ β} {been : T → Prop}

theorem Good.run (hx : Good P name x)
    (h : (cacheMachine T P config name).Runs (Careful name) x y been) : Good P name y := by
  induction h with
  | refl => exact hx
  | start t op s _ hidle henabled ih =>
    refine ⟨ih.honest, (Step.start t op s hidle henabled).holds _ ih.holds, fun f hf hlisted => ?_,
      fun {t' op' s' p'} hp' => ?_⟩
    · refine (ih.led f hf hlisted).update fun _ _ _ hp => ?_
      cases hp.symm.trans hidle
    · rcases of_update_eq_busy hp' with ⟨rfl, heq⟩ | ⟨-, hp'⟩
      · cases heq
        exact engaged_program henabled _
      · exact ih.engaged hp'
  | call t op s c next r _ hbusy hcareful hreply ih => exact ih.call hbusy hcareful hreply
  | finish t op s s' _ hbusy ih =>
    refine ⟨ih.honest, (Step.finish t op s s' hbusy).holds _ ih.holds, fun f hf hlisted => ?_,
      fun {t' op' s' p'} hp' => ?_⟩
    · refine (ih.led f hf hlisted).update fun _ _ _ hp => ?_
      cases hp.symm.trans hbusy
      exact id
    · rcases of_update_eq_busy hp' with ⟨-, heq⟩ | ⟨-, hp'⟩
      · cases heq
      · exact ih.engaged hp'

theorem Good.run_moves (hx : Good P name x)
    (h : (cacheMachine T P config name).Runs (Careful name) x y been) :
    CacheWorld.Moves name x.world y.world ∧
      (x.world.Removed P name → y.world.Removed P name) := by
  induction h with
  | refl => exact ⟨.refl _, id⟩
  | start _ _ _ _ _ _ ih => exact ih
  | call t op s c next r hrun hbusy hcareful hreply ih =>
    have hgood := hx.run hrun
    have hstep := CacheWorld.Among.moves hreply (hgood.engaged hbusy).put_ne
    exact ⟨ih.1.trans hstep, fun hw => hgood.removed hbusy hcareful hreply (ih.2 hw)⟩
  | finish _ _ _ _ _ _ ih => exact ih

theorem continues_of_among (h : CacheWorld.Among P c w r w') {i : ℕ} (hf : w.flights[i]? = some f) :
    ∃ f', w'.flights[i]? = some f' ∧ f.Continues f' := by
  by_cases hput : ∃ n bytes, c = .put n bytes
  · obtain ⟨n, bytes, rfl⟩ := hput
    obtain ⟨-, o, hanswer⟩ := h
    simp only [answer] at hanswer
    split at hanswer <;> obtain ⟨-, rfl⟩ := Prod.mk.inj hanswer <;> exact ⟨f, hf, .refl f⟩
  · have hmoves : CacheWorld.Moves [] w w' := h.moves fun bytes heq => hput ⟨[], bytes, heq⟩
    exact hmoves.flights hf

theorem Good.retired {i : ℕ} (h : (cacheMachine T P config name).Runs (Careful name) x y been)
    (hf : x.world.flights[i]? = some f) {t : T} {op : CacheOp} {s : CacheResult}
    {p : CacheProg CacheResult} (ht : x.threads t = .busy op s p) (hwill : p.Will (.retire f.key))
    (hbeen : been t) : ∃ f', y.world.flights[i]? = some f' ∧ f'.listed = false := by
  have hcases := h.will (fun w => ∃ f', w.flights[i]? = some f' ∧ f'.key = f.key)
    (fun w => ∃ f', w.flights[i]? = some f' ∧ f'.listed = false) ht hwill ⟨f, hf, rfl⟩ ?_ ?_ ?_
  · exact hcases.2.resolve_right fun hnot => hnot.1 hbeen
  · rintro t c w r w' hreply ⟨f₁, hf₁, hkey⟩
    obtain ⟨f₂, hf₂, hcont⟩ := continues_of_among hreply hf₁
    exact ⟨f₂, hf₂, hcont.1.trans hkey⟩
  · rintro t w r w' ⟨-, o, hanswer⟩ ⟨f₁, hf₁, hkey⟩
    obtain ⟨-, rfl⟩ := Prod.mk.inj hanswer
    refine ⟨{ f₁ with listed := false }, ?_, rfl⟩
    show (w.flights.map _)[i]? = _
    rw [List.getElem?_map, hf₁, Option.map_some, if_pos hkey]
  · rintro t c w r w' hreply - ⟨f₁, hf₁, hlisted⟩
    obtain ⟨f₂, hf₂, hcont⟩ := continues_of_among hreply hf₁
    refine ⟨f₂, hf₂, Bool.eq_false_iff.2 fun hagain => ?_⟩
    exact Bool.eq_false_iff.1 hlisted (hcont.2.2 hagain)

theorem Good.quiet (hx : Good P name x) (hremoved : x.world.Removed P name)
    (h : (cacheMachine T P config name).Runs (Careful name) x y been)
    (hreturned : ∀ t offset len s p, x.threads t = .busy (.get name offset len) s p → been t) :
    y.world.Quiet P name := by
  obtain ⟨hmoves, hkept⟩ := hx.run_moves h
  refine ⟨hkept hremoved, fun f hf hlisted hname => ?_, (hx.run h).honest⟩
  obtain ⟨i, hi⟩ := mem_iff_getElem?.1 hf
  cases hbefore : x.world.flights[i]? with
  | none => exact hmoves.begun hi hbefore hremoved.1 hname
  | some f₁ =>
    -- it was listed before, so its leader was a get from before, which has retired it
    obtain ⟨f', hf', hkey, -, hstill⟩ := hmoves.flights hbefore
    obtain rfl := Option.some.inj (hi.symm.trans hf')
    obtain ⟨t, offset, len, s, p, ht, hwill⟩ :=
      hx.led f₁ (mem_of_getElem? hbefore) (hstill hlisted)
    have hbeen : been t := by
      refine hreturned t offset len s p ?_
      rw [ht, ← hkey, hname]
    obtain ⟨f₂, hf₂, hretired⟩ := Good.retired h hbefore ht hwill hbeen
    obtain rfl := Option.some.inj (hi.symm.trans hf₂)
    rw [hlisted] at hretired
    cases hretired

theorem Good.later_get (hx : Good P name x) (hquiet : x.world.Quiet P name)
    (h : (cacheMachine T P config name).Runs (Careful name) x y been) {t : T} {offset len : ℕ}
    {s : CacheResult} {result : Except Status Bytes} (hbeen : been t)
    (ht : y.threads t = .busy (.get name offset len) s (.done (.got result))) :
    ∃ e, result = .error e := by
  let rely : CacheWorld config σ β → CacheWorld config σ β → Prop :=
    fun w w' => CacheWorld.Guarantee name w w' ∧ (w.Quiet P name → w'.Quiet P name)
  have hrefl : ∀ w, rely w w := fun w => ⟨⟨.refl w, id⟩, id⟩
  have hsafe := h.safe rely (CacheWorld.Quiet P name) (fun _ op _ r _ => ∀ offset len result,
    op = .get name offset len → r = .got result → ∃ e, result = .error e) hrefl ?_ hquiet ?_ ?_
  · have hself := hsafe.2 t _ s _ hbeen ht
    exact (hself _ (hrefl _)).2 offset len result rfl rfl
  · rintro w₁ w₂ w₃ ⟨⟨hmoves, hhonest⟩, hq⟩ ⟨⟨hmoves', hhonest'⟩, hq'⟩
    exact ⟨⟨hmoves.trans hmoves', fun hw => hhonest' (hhonest hw)⟩, fun hw => hq' (hq hw)⟩
  · rintro z been' t' op s' c next r w' hrun hbusy hcareful hreply hq
    have hgood := hx.run hrun
    have hmoves := CacheWorld.Among.moves hreply (hgood.engaged hbusy).put_ne
    have hhonest := (hgood.call hbusy hcareful hreply).honest
    have hq' := hq.moves hmoves (hgood.removed hbusy hcareful hreply hq.removed) hhonest
    exact ⟨⟨⟨hmoves, fun _ => hhonest⟩, fun _ => hq'⟩, hq'⟩
  · intro t' op s' w _ hq
    by_cases hget : ∃ offset len, op = .get name offset len
    · obtain ⟨offset, len, rfl⟩ := hget
      have hserve : (serveGet config name offset len).Safe (CacheWorld.Among P) rely
          (CacheWorld.Guarantee name) (CacheWorld.Honest name)
          (fun r w' => w'.Honest name ∧ (name = name → True → ∃ e, r = .error e)) w :=
        serveGet_safe (fun _ _ h => h.1) (fun _ _ _ _ h => h.2) hq.honest hrefl
          fun _ _ => hq
      refine Safe.mono (Safe.bind hrefl (hserve.weaken fun r w₁ hpost => Safe.pure fun w₂ h₂ => ?_))
        (fun _ _ _ => trivial) fun _ _ => trivial
      refine ⟨h₂.1.2 hpost.1, fun _ _ result _ hr => ?_⟩
      exact CacheResult.got.inj hr ▸ hpost.2 rfl trivial
    · exact safe_of_forall fun r w' offset len result hop _ => absurd ⟨offset, len, hop⟩ hget

omit [DecidableEq T] in
theorem good_of_idle (hidle : ∀ t, (x.threads t).isIdle = true) (hflights : x.world.flights = []) :
    Good P name x := by
  have hhonest : x.world.Honest name := by
    rw [CacheWorld.Honest, hflights]
    nofun
  refine ⟨hhonest, fun t => ?_, ?_, fun {t op s p} ht => ?_⟩
  · rw [Thread.eq_idle (hidle t)]
    exact hhonest
  · rw [hflights]
    nofun
  · have hbusy := hidle t
    rw [ht] at hbusy
    cases hbusy

/-- In careful runs, once a removal is `ok` and the gets from before are back, nothing is cached and
no later get returns bytes. -/
theorem removed_object_stays_removed (P : Payload ε σ β) (name : Bytes)
    {x₀ x₁ x₂ : CacheState T config σ β} {been₁ been₂ : T → Prop} {t : T} {s : CacheResult}
    (hidle : ∀ t, (x₀.threads t).isIdle = true) (hflights : x₀.world.flights = [])
    (h₁ : (cacheMachine T P config name).Runs (Careful name) x₀ x₁ been₁)
    (hremoved : x₁.threads t = .busy (.remove name) s (.done (.status .ok)))
    (h₂ : (cacheMachine T P config name).Runs (Careful name) x₁ x₂ been₂)
    (hreturned : ∀ t offset len s p, x₁.threads t = .busy (.get name offset len) s p → been₂ t) :
    x₂.world.Lacks P name ∧
      ∀ x₃ been₃, (cacheMachine T P config name).Runs (Careful name) x₂ x₃ been₃ →
        x₃.world.Lacks P name ∧
          ∀ t offset len s result, been₃ t →
            x₃.threads t = .busy (.get name offset len) s (.done (.got result)) →
              ∃ e, result = .error e := by
  have hgood₁ : Good P name x₁ := (good_of_idle hidle hflights).run h₁
  have hgone : x₁.world.Removed P name := by
    rcases (hgood₁.engaged hremoved).removal rfl with heq | ⟨heq, -⟩ | ⟨s', heq, hok⟩
    · cases heq
    · cases heq
    · cases heq
      exact hok rfl
  have hquiet := hgood₁.quiet hgone h₂ hreturned
  have hgood₂ := hgood₁.run h₂
  refine ⟨hquiet.removed.2, fun x₃ been₃ h₃ => ⟨((hgood₂.run_moves h₃).2 hquiet.removed).2, ?_⟩⟩
  exact fun t offset len s result hbeen ht => hgood₂.later_get hquiet h₃ hbeen ht

end Runs

/-! ### Gets before and after a removal -/

/-- One shard that fetches what is asked for. -/
def plainCache : CacheConfig where
  maxCacheBytes := 64
  cacheOnWrite := false
  fetchGranularity := 0
  hash _ := 0

/-- Threads over an object of two bytes, nothing cached. -/
def uncached (T : Type) (P : Payload ε σ β) (shared : β) : CacheState T plainCache σ β where
  world := {
    shards := fun _ => { payload := P.empty, maxBytes := plainCache.shardBytes }
    shared
    contents := fun name => if name = [1] then some [10, 11] else none }
  threads _ := .idle .nothing

variable (P : Payload ε σ β)

/-- A schedule, all calls being answered in one way. -/
def scheduled (o : Outside ε) (x : CacheState (Fin 3) plainCache σ β)
    (acts : List (Act (Fin 3) CacheOp Unit)) : CacheState (Fin 3) plainCache σ β :=
  acts.foldl ((cacheMachine (Fin 3) P plainCache [1]).perform CacheCall.ready
    fun _ _ c w => answer P o c w) x

theorem scheduled_runs (o : Outside ε) (x : CacheState (Fin 3) plainCache σ β)
    {allowed : CacheState (Fin 3) plainCache σ β → Fin 3 → Prop}
    {check : CacheState (Fin 3) plainCache σ β → Fin 3 → Bool}
    (hcheck : ∀ x t, check x t = true → allowed x t) {acts : List (Act (Fin 3) CacheOp Unit)}
    (hchecks : (cacheMachine (Fin 3) P plainCache [1]).checks CacheCall.ready
      (fun _ _ c w => answer P o c w) check x acts = true)
    (hacts : ∀ t op, .start t op ∈ acts → (∃ offset len, op = .get [1] offset len) ∨
      op = .remove [1]) :
    ∃ been, (cacheMachine (Fin 3) P plainCache [1]).Runs allowed x (scheduled P o x acts) been := by
  refine Runs.schedule (fun _ _ _ _ hready => ?_) hcheck acts (fun t op _ hop => ?_) hchecks
    ⟨_, .refl⟩
  · exact ⟨hready, o, rfl⟩
  · rcases hacts t op hop with ⟨offset, len, rfl⟩ | rfl <;> exact trivial

/-- A get caches the object and a second one begins; then another thread removes it. -/
def readRemoved : List (Act (Fin 3) CacheOp Unit) :=
  .start 0 (.get [1] 0 2) :: List.replicate 8 (.go 0 ()) ++
    [.start 2 (.get [1] 0 2), .start 1 (.remove [1]), .go 1 (), .go 1 ()]

/-- A memory cache after so many actions of it. -/
def afterActs (n : ℕ) : CacheState (Fin 3) plainCache MemoryPayload MemoryBudget :=
  scheduled (memoryPayload false) { payload := () } (uncached (Fin 3) (memoryPayload false) ⟨0, 0⟩)
    (readRemoved.take n)

/-- The second get returns. -/
def returned : CacheState (Fin 3) plainCache MemoryPayload MemoryBudget :=
  scheduled (memoryPayload false) { payload := () } (afterActs 13) (List.replicate 7 (.go 2 ()))

/-- It is called again. -/
def missedLater : CacheState (Fin 3) plainCache MemoryPayload MemoryBudget :=
  scheduled (memoryPayload false) { payload := () } returned
    (.start 2 (.get [1] 0 2) :: List.replicate 6 (.go 2 ()))

/-- `Careful`, computed. -/
def careful (x : CacheState (Fin 3) plainCache σ β) (t : Fin 3) : Bool :=
  match (x.threads t).next with
  | some (.insert ..) => (x.world.contents [1]).isSome && (List.finRange 3).all fun t' =>
      match (x.threads t').next with
      | some (.remove _) => false
      | _ => true
  | _ => true

theorem careful_of_check (x : CacheState (Fin 3) plainCache σ β) (t : Fin 3)
    (h : careful x t = true) : Careful [1] x t := by
  intro offset bytes toEnd hnext
  rw [careful, hnext, Bool.and_eq_true] at h
  refine ⟨Option.isSome_iff_ne_none.1 h.1, fun t' hremove => ?_⟩
  simpa [hremove] using all_eq_true.1 h.2 t' (mem_finRange t')

theorem readRemoved_runs :
    ∃ been, (cacheMachine (Fin 3) (memoryPayload false) plainCache [1]).Runs (Careful [1])
      (uncached (Fin 3) (memoryPayload false) ⟨0, 0⟩) (afterActs 13) been :=
  scheduled_runs _ _ _ careful_of_check rfl (by simp +contextual [readRemoved, or_imp])

theorem returned_runs :
    ∃ been, (cacheMachine (Fin 3) (memoryPayload false) plainCache [1]).Runs (Careful [1])
      (afterActs 13) returned been :=
  scheduled_runs _ _ _ careful_of_check rfl (by simp)

theorem missedLater_runs :
    ∃ been, (cacheMachine (Fin 3) (memoryPayload false) plainCache [1]).Runs (Careful [1])
      returned missedLater been :=
  scheduled_runs _ _ _ careful_of_check rfl (by simp)

/-- The object is cached before the removal, and the get after it fails. -/
theorem removed_object_stays_removed_missed :
    ¬ (afterActs 9).world.Lacks (memoryPayload false) [1] ∧
      ((afterActs 13).threads 2).isIdle = false ∧ returned.world.Lacks (memoryPayload false) [1] ∧
      ∃ s result, missedLater.threads 2 = .busy (.get [1] 0 2) s (.done (.got result)) ∧
        ∃ status, result = .error status := by
  obtain ⟨been₁, h₁⟩ := readRemoved_runs
  obtain ⟨been₂, h₂⟩ := returned_runs
  obtain ⟨been₃, h₃⟩ := missedLater_runs
  have hremoved : (afterActs 13).threads 1 = .busy (.remove [1]) .nothing (.done (.status .ok)) := rfl
  have hstays := removed_object_stays_removed (memoryPayload false) [1] (fun _ => rfl) rfl h₁ hremoved
    h₂ fun t offset len s p ht => by
      match t with
      | 0 => cases ht
      | 1 => cases hremoved.symm.trans ht
      | 2 => exact h₂.been_of_idle rfl
  refine ⟨fun hlacks => hlacks ⟨[1], 0, [10, 11]⟩ (.head _) rfl, rfl, hstays.1, _, _, rfl, ?_⟩
  exact (hstays.2 _ _ h₃).2 2 0 2 _ _ (h₃.been_of_start rfl) rfl

/-! ### A get that has read its bytes before the removal -/

/-- A get misses and reads the object; then another thread removes it. -/
def whileRead (o : Outside ε) (shared : β) : CacheState (Fin 3) plainCache σ β :=
  scheduled P o (uncached (Fin 3) P shared) [.start 0 (.get [1] 0 2), .go 0 (), .go 0 (), .go 0 (),
    .start 1 (.remove [1]), .go 1 (), .go 1 ()]

/-- Then the get inserts what it read. -/
def lateInsert (o : Outside ε) (shared : β) : CacheState (Fin 3) plainCache σ β :=
  scheduled P o (whileRead P o shared) [.go 0 (), .go 0 (), .go 0 (), .go 0 (), .go 0 ()]

/-- Then a third thread gets the object. -/
def laterGet (o : Outside ε) (shared : β) : CacheState (Fin 3) plainCache σ β :=
  scheduled P o (lateInsert P o shared) [.start 2 (.get [1] 0 2), .go 2 ()]

theorem whileRead_runs (o : Outside ε) (shared : β) :
    ∃ been, (cacheMachine (Fin 3) P plainCache [1]).Runs (fun _ _ => True)
      (uncached (Fin 3) P shared) (whileRead P o shared) been :=
  scheduled_runs P o _ (fun _ _ _ => trivial) (checks_true ..) (by simp +contextual [or_imp])

theorem lateInsert_runs (o : Outside ε) (shared : β) :
    ∃ been, (cacheMachine (Fin 3) P plainCache [1]).Runs (fun _ _ => True)
      (whileRead P o shared) (lateInsert P o shared) been :=
  scheduled_runs P o _ (fun _ _ _ => trivial) (checks_true ..) (by simp)

theorem laterGet_runs (o : Outside ε) (shared : β) :
    ∃ been, (cacheMachine (Fin 3) P plainCache [1]).Runs (fun _ _ => True)
      (lateInsert P o shared) (laterGet P o shared) been :=
  scheduled_runs P o _ (fun _ _ _ => trivial) (checks_true ..) (by simp)

/-- A removal is `ok` in `x₁` and older gets are back in `x₂`, yet a get that begins then finds the
object. -/
def ComesBack (x₀ x₁ x₂ x₃ : CacheState (Fin 3) plainCache σ β) : Prop :=
  ∃ been₁ been₂ been₃,
    (cacheMachine (Fin 3) P plainCache [1]).Runs (fun _ _ => True) x₀ x₁ been₁ ∧
    x₁.threads 1 = .busy (.remove [1]) .nothing (.done (.status .ok)) ∧
    (cacheMachine (Fin 3) P plainCache [1]).Runs (fun _ _ => True) x₁ x₂ been₂ ∧
    (∀ t offset len s p, x₁.threads t = .busy (.get [1] offset len) s p → been₂ t) ∧
    ¬ x₂.world.Lacks P [1] ∧
    (cacheMachine (Fin 3) P plainCache [1]).Runs (fun _ _ => True) x₂ x₃ been₃ ∧
    been₃ 2 ∧ x₃.threads 2 = .busy (.get [1] 0 2) .nothing (.done (.got (.ok [10, 11])))

theorem comesBack_of_runs {P : Payload ε σ β} {x₀ x₁ x₂ x₃ : CacheState (Fin 3) plainCache σ β}
    (h₁ : ∃ been, (cacheMachine (Fin 3) P plainCache [1]).Runs (fun _ _ => True) x₀ x₁ been)
    (h₂ : ∃ been, (cacheMachine (Fin 3) P plainCache [1]).Runs (fun _ _ => True) x₁ x₂ been)
    (h₃ : ∃ been, (cacheMachine (Fin 3) P plainCache [1]).Runs (fun _ _ => True) x₂ x₃ been)
    (hremoval : x₁.threads 1 = .busy (.remove [1]) .nothing (.done (.status .ok)))
    (hidle : (x₁.threads 2).isIdle = true) (hreturned : (x₂.threads 0).isIdle = true)
    (hlater : (x₂.threads 2).isIdle = true)
    (hheld : P.chunks (x₂.world.shards (plainCache.shardFor [1])).payload = [⟨[1], 0, [10, 11]⟩])
    (hread : x₃.threads 2 = .busy (.get [1] 0 2) .nothing (.done (.got (.ok [10, 11])))) :
    ComesBack P x₀ x₁ x₂ x₃ := by
  obtain ⟨been₁, h₁⟩ := h₁
  obtain ⟨been₂, h₂⟩ := h₂
  obtain ⟨been₃, h₃⟩ := h₃
  refine ⟨been₁, been₂, been₃, h₁, hremoval, h₂, fun t offset len s p ht => ?_, fun hlacks => ?_,
    h₃, h₃.been_of_start hlater, hread⟩
  · match t with
    | 0 => exact h₂.been_of_idle hreturned
    | 1 => cases hremoval.symm.trans ht
    | 2 =>
      rw [ht] at hidle
      cases hidle
  · have hchunk : (⟨[1], 0, [10, 11]⟩ : Chunk) ∈
        P.chunks (x₂.world.shards (plainCache.shardFor [1])).payload := by
      rw [hheld]
      exact mem_singleton_self _
    exact hlacks _ hchunk rfl

/-- A disk that keeps what is written. -/
def healthyDisk : Outside Disk := { payload := ⟨fun _ _ => true, fun _ _ => true⟩ }

/-- What a memory cache and a disk cache do when nothing fails. -/
theorem removed_object_comes_back :
    ComesBack (memoryPayload false) (uncached (Fin 3) (memoryPayload false) ⟨0, 0⟩)
      (whileRead (memoryPayload false) { payload := () } ⟨0, 0⟩)
      (lateInsert (memoryPayload false) { payload := () } ⟨0, 0⟩)
      (laterGet (memoryPayload false) { payload := () } ⟨0, 0⟩) ∧
    ComesBack diskPayload (uncached (Fin 3) diskPayload ())
      (whileRead diskPayload healthyDisk ()) (lateInsert diskPayload healthyDisk ())
      (laterGet diskPayload healthyDisk ()) := by
  constructor
  · apply comesBack_of_runs (whileRead_runs ..) (lateInsert_runs ..) (laterGet_runs ..) <;> rfl
  · apply comesBack_of_runs (whileRead_runs ..) (lateInsert_runs ..) (laterGet_runs ..) <;> rfl

end ElysiumKV
