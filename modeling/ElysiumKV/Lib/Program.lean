import Mathlib.Logic.Function.Basic

/-!
# Programs that call a shared service

A tree of calls, answered by a relation `reply` on the world. `Exec` is a run alone, `run` one
against a function, `Follows` one given by the replies. `Safe` is the weakest precondition among
other threads: between calls the world moves by `rely`, a call moves it by `guar`, and `mid` holds
at each. `Machine` runs operations in several threads, with the proof rule `Machine.Reaches.holds`.
-/

namespace Program

open Function

/-- A call `c` is replied to by an `R c`. -/
inductive Prog (C : Type) (R : C → Type) (α : Type) : Type
  | done (a : α) : Prog C R α
  | call (c : C) (next : R c → Prog C R α) : Prog C R α

variable {C : Type} {R : C → Type} {W α β : Type}

namespace Prog

/-- One program after another. -/
def bind : Prog C R α → (α → Prog C R β) → Prog C R β
  | done a, f => f a
  | call c next, f => call c fun r => (next r).bind f

instance : Monad (Prog C R) where
  pure := done
  bind := bind

theorem bind_assoc {γ : Type} (p : Prog C R α) (f : α → Prog C R β) (g : β → Prog C R γ) :
    p >>= f >>= g = p >>= fun a => f a >>= g := by
  induction p with
  | done a => rfl
  | call c next ih => exact congrArg (call c) (funext ih)

/-- One call. -/
def ask (c : C) : Prog C R (R c) := call c done

/-- Against a service that is a function. -/
def run (answer : (c : C) → W → R c × W) : Prog C R α → W → α × W
  | done a, w => (a, w)
  | call c next, w => (next (answer c w).1).run answer (answer c w).2

section Run

variable (answer : (c : C) → W → R c × W)

@[simp] theorem run_pure (a : α) (w : W) : (pure a : Prog C R α).run answer w = (a, w) := rfl

variable {answer} in
theorem run_ask_bind {c : C} {r : R c} {w w' : W} (h : answer c w = (r, w'))
    (f : R c → Prog C R α) : (ask c >>= f).run answer w = (f r).run answer w' := by
  have hrun : (ask c >>= f).run answer w = (f (answer c w).1).run answer (answer c w).2 := rfl
  rw [hrun, h]

theorem run_bind (p : Prog C R α) (f : α → Prog C R β) (w : W) :
    (p >>= f).run answer w = (f (p.run answer w).1).run answer (p.run answer w).2 := by
  induction p generalizing w with
  | done a => rfl
  | call c next ih => exact ih _ _

end Run

/-! ### A program and the replies it gets -/

/-- It makes these calls, gets these replies and ends so. -/
def Follows : Prog C R α → List (Σ c, R c) → α → Prop
  | done a, events, b => events = [] ∧ b = a
  | call c next, events, b => ∃ r rest, events = ⟨c, r⟩ :: rest ∧ (next r).Follows rest b

variable {p : Prog C R α}

theorem follows_bind {f : α → Prog C R β} {events : List (Σ c, R c)} {b : β} :
    (p >>= f).Follows events b ↔
      ∃ a first rest, p.Follows first a ∧ events = first ++ rest ∧ (f a).Follows rest b := by
  induction p generalizing events with
  | done a =>
    constructor
    · exact fun h => ⟨a, [], events, ⟨rfl, rfl⟩, rfl, h⟩
    · rintro ⟨a', first, rest, ⟨rfl, rfl⟩, rfl, h⟩
      exact h
  | call c next ih =>
    constructor
    · rintro ⟨r, events, rfl, h⟩
      obtain ⟨a, first, rest, hfirst, rfl, hrest⟩ := (ih r).1 h
      exact ⟨a, ⟨c, r⟩ :: first, rest, ⟨r, first, rfl, hfirst⟩, rfl, hrest⟩
    · rintro ⟨a, first, rest, ⟨r, events, rfl, hfirst⟩, rfl, hrest⟩
      exact ⟨r, events ++ rest, rfl, (ih r).2 ⟨a, events, rest, hfirst, rfl, hrest⟩⟩

/-- The calls and replies of a run. -/
def log (answer : (c : C) → W → R c × W) : Prog C R α → W → List (Σ c, R c)
  | done _, _ => []
  | call c next, w => ⟨c, (answer c w).1⟩ :: (next (answer c w).1).log answer (answer c w).2

theorem follows_log (answer : (c : C) → W → R c × W) (p : Prog C R α) (w : W) :
    p.Follows (p.log answer w) (p.run answer w).1 := by
  induction p generalizing w with
  | done a => exact ⟨rfl, rfl⟩
  | call c next ih => exact ⟨_, _, rfl, ih (answer c w).1 (answer c w).2⟩

theorem of_mem_log {answer : (c : C) → W → R c × W} {P : (Σ c, R c) → Prop}
    (h : ∀ c w, P ⟨c, (answer c w).1⟩) (p : Prog C R α) (w : W) : ∀ e ∈ p.log answer w, P e := by
  induction p generalizing w with
  | done a => nofun
  | call c next ih => exact List.forall_mem_cons.2 ⟨h c w, ih _ _⟩

section Alone

variable (reply : (c : C) → W → R c → W → Prop)

/-- A run from one world to another. -/
def Exec : Prog C R α → W → α → W → Prop
  | done a, w, b, w' => b = a ∧ w' = w
  | call c next, w, b, w' => ∃ r w₁, reply c w r w₁ ∧ (next r).Exec w₁ b w'

variable {w w' : W}

theorem exec_ask_bind {c : C} {f : R c → Prog C R α} {a : α} :
    (ask c >>= f).Exec reply w a w' ↔ ∃ r w₁, reply c w r w₁ ∧ (f r).Exec reply w₁ a w' := Iff.rfl

variable {p : Prog C R α}

theorem exec_bind {f : α → Prog C R β} {b : β} :
    (p >>= f).Exec reply w b w' ↔ ∃ a w₁, p.Exec reply w a w₁ ∧ (f a).Exec reply w₁ b w' := by
  induction p generalizing w with
  | done a =>
    constructor
    · exact fun h => ⟨a, w, ⟨rfl, rfl⟩, h⟩
    · rintro ⟨a', w₁, ⟨rfl, rfl⟩, h⟩
      exact h
  | call c next ih =>
    constructor
    · rintro ⟨r, w₁, hr, hnext⟩
      obtain ⟨a, w₂, hexec, hrest⟩ := (ih r).1 hnext
      exact ⟨a, w₂, ⟨r, w₁, hr, hexec⟩, hrest⟩
    · rintro ⟨a, w₂, ⟨r, w₁, hr, hexec⟩, hrest⟩
      exact ⟨r, w₁, hr, (ih r).2 ⟨a, w₂, hexec, hrest⟩⟩

variable {reply} in
theorem Exec.mono {W' : Type} {reply' : (c : C) → W' → R c → W' → Prop} (view : W → W')
    (h : ∀ c w r w₁, reply c w r w₁ → reply' c (view w) r (view w₁)) {a : α}
    (hexec : p.Exec reply w a w') : p.Exec reply' (view w) a (view w') := by
  induction p generalizing w with
  | done b =>
    obtain ⟨rfl, rfl⟩ := hexec
    exact ⟨rfl, rfl⟩
  | call c next ih =>
    obtain ⟨r, w₁, hr, hnext⟩ := hexec
    exact ⟨r, view w₁, h _ _ _ _ hr, ih r hnext⟩

variable {reply} in
theorem exec_of_run {W' : Type} {answer : (c : C) → W' → R c × W'} (view : W' → W)
    (h : ∀ c w, reply c (view w) (answer c w).1 (view (answer c w).2)) (p : Prog C R α) (w : W') :
    p.Exec reply (view w) (p.run answer w).1 (view (p.run answer w).2) := by
  induction p generalizing w with
  | done a => exact ⟨rfl, rfl⟩
  | call c next ih => exact ⟨_, _, h c w, ih _ _⟩

/-- A run goes through the world. -/
def Passes : Prog C R α → W → W → Prop
  | done _, w, w' => w' = w
  | call c next, w, w' => w' = w ∨ ∃ r w₁, reply c w r w₁ ∧ (next r).Passes w₁ w'

variable {reply} in
theorem Exec.passes {a : α} (h : p.Exec reply w a w') : p.Passes reply w w' := by
  induction p generalizing w with
  | done b => exact h.2
  | call c next ih =>
    obtain ⟨r, w₁, hr, hnext⟩ := h
    exact .inr ⟨r, w₁, hr, ih r hnext⟩

end Alone

/-! ### A program among others -/

/-- A run while others move the world by `env`, with the worlds of its calls. -/
def Among (reply : (c : C) → W → R c → W → Prop) (env : W → W → Prop) :
    Prog C R α → W → α → List W → W → Prop
  | done a, w, b, seen, w' => b = a ∧ seen = [] ∧ env w w'
  | call c next, w, b, seen, w' => ∃ w₁ r w₂ rest, env w w₁ ∧ reply c w₁ r w₂ ∧ seen = w₁ :: rest ∧
      (next r).Among reply env w₂ b rest w'

/-- Its calls satisfy `P`, its results `Q`. -/
def Only (P : C → Prop) (Q : α → Prop) : Prog C R α → Prop
  | done a => Q a
  | call c next => P c ∧ ∀ r, (next r).Only P Q

section Among

variable {reply : (c : C) → W → R c → W → Prop} {env : W → W → Prop}

variable {w w' : W} {seen : List W}

theorem among_ask_bind {c : C} {f : R c → Prog C R α} {a : α} :
    (ask c >>= f).Among reply env w a seen w' ↔ ∃ w₁ r w₂ rest, env w w₁ ∧ reply c w₁ r w₂ ∧
      seen = w₁ :: rest ∧ (f r).Among reply env w₂ a rest w' := Iff.rfl

theorem among_pure {a b : α} :
    (pure a : Prog C R α).Among reply env w b seen w' ↔ b = a ∧ seen = [] ∧ env w w' := Iff.rfl

variable {p : Prog C R α}

theorem among_bind (hrefl : ∀ w, env w w) {f : α → Prog C R β} {b : β}
    (h : (p >>= f).Among reply env w b seen w') :
    ∃ a w₁ first rest, p.Among reply env w a first w₁ ∧ seen = first ++ rest ∧
      (f a).Among reply env w₁ b rest w' := by
  induction p generalizing w seen with
  | done a => exact ⟨a, w, [], seen, ⟨rfl, rfl, hrefl w⟩, rfl, h⟩
  | call c next ih =>
    obtain ⟨w₁, r, w₂, rest, henv, hreply, rfl, hnext⟩ := h
    obtain ⟨a, w₃, first, rest', hfirst, rfl, hrest⟩ := ih r hnext
    exact ⟨a, w₃, w₁ :: first, rest', ⟨w₁, r, w₂, first, henv, hreply, rfl, hfirst⟩, rfl, hrest⟩

theorem Among.moved {rel : W → W → Prop} {P : C → Prop} {Q : α → Prop} {a : α}
    (h : p.Among reply env w a seen w') (honly : p.Only P Q)
    (htrans : ∀ w₁ w₂ w₃, rel w₁ w₂ → rel w₂ w₃ → rel w₁ w₃) (henv : ∀ w w', env w w' → rel w w')
    (hreply : ∀ c w r w', P c → reply c w r w' → rel w w') : rel w w' := by
  induction p generalizing w seen with
  | done b => exact henv _ _ h.2.2
  | call c next ih =>
    obtain ⟨w₁, r, w₂, rest, hmove, hr, rfl, hnext⟩ := h
    have hlater := ih r hnext (honly.2 r)
    exact htrans _ _ _ (henv _ _ hmove) (htrans _ _ _ (hreply _ _ _ _ honly.1 hr) hlater)

theorem Among.between {rel : W → W → Prop} {P : C → Prop} {Q : α → Prop} {now : W} {a : α}
    (h : p.Among reply env w a seen w') (hnow : now ∈ seen) (honly : p.Only P Q)
    (htrans : ∀ w₁ w₂ w₃, rel w₁ w₂ → rel w₂ w₃ → rel w₁ w₃) (henv : ∀ w w', env w w' → rel w w')
    (hreply : ∀ c w r w', P c → reply c w r w' → rel w w') : rel w now ∧ rel now w' := by
  induction p generalizing w seen with
  | done b =>
    obtain ⟨-, rfl, -⟩ := h
    cases hnow
  | call c next ih =>
    obtain ⟨w₁, r, w₂, rest, hmove, hr, rfl, hnext⟩ := h
    have hcall := hreply _ _ _ _ honly.1 hr
    rcases List.mem_cons.1 hnow with rfl | hnow
    · exact ⟨henv _ _ hmove, htrans _ _ _ hcall (hnext.moved (honly.2 r) htrans henv hreply)⟩
    · refine (ih r hnext hnow (honly.2 r)).imp_left fun hto => ?_
      exact htrans _ _ _ (henv _ _ hmove) (htrans _ _ _ hcall hto)

theorem Among.result {P : C → Prop} {Q : α → Prop} (honly : p.Only P Q) {a : α}
    (h : p.Among reply env w a seen w') : Q a := by
  induction p generalizing w seen with
  | done b =>
    obtain ⟨rfl, -, -⟩ := h
    exact honly
  | call c next ih =>
    obtain ⟨w₁, r, w₂, rest, -, -, rfl, hnext⟩ := h
    exact ih r (honly.2 r) hnext

theorem exists_among_of_run {answer : (c : C) → W → R c × W}
    (h : ∀ c w, reply c w (answer c w).1 (answer c w).2) (hrefl : ∀ w, env w w) {w₁ : W} {a : α}
    (henv : env w w₁) (hrun : p.run answer w₁ = (a, w')) :
    ∃ seen, p.Among reply env w a seen w' := by
  induction p generalizing w w₁ with
  | done b =>
    obtain ⟨rfl, rfl⟩ := Prod.mk.inj hrun
    exact ⟨[], rfl, rfl, henv⟩
  | call c next ih =>
    obtain ⟨seen, hnext⟩ := ih (answer c w₁).1 (hrefl (answer c w₁).2) hrun
    exact ⟨w₁ :: seen, w₁, _, _, seen, henv, h c w₁, rfl, hnext⟩

theorem Only.mono {P P' : C → Prop} {Q : α → Prop} (h : p.Only P Q) (hP : ∀ c, P c → P' c) :
    p.Only P' Q := by
  induction p with
  | done a => exact h
  | call c next ih => exact ⟨hP c h.1, fun r => ih r (h.2 r)⟩

theorem Only.of_follows {P : C → Prop} {Q : α → Prop} (honly : p.Only P Q)
    {events : List (Σ c, R c)} {a : α} (h : p.Follows events a) : Q a := by
  induction p generalizing events with
  | done b =>
    obtain ⟨-, rfl⟩ := h
    exact honly
  | call c next ih =>
    obtain ⟨r, rest, -, h⟩ := h
    exact ih r (honly.2 r) h

theorem Only.bind {P : C → Prop} {Q : α → Prop} {Q' : β → Prop} {f : α → Prog C R β}
    (hp : p.Only P Q) (hf : ∀ a, Q a → (f a).Only P Q') : (p >>= f).Only P Q' := by
  induction p with
  | done a => exact hf a hp
  | call c next ih => exact ⟨hp.1, fun r => ih r (hp.2 r)⟩

end Among

/-- The weakest precondition of a run while others move the world by `rely`. -/
def Safe (reply : (c : C) → W → R c → W → Prop) (rely guar : W → W → Prop) (mid : W → Prop) :
    Prog C R α → (α → W → Prop) → W → Prop
  | done a, post, w => ∀ w₁, rely w w₁ → mid w₁ ∧ post a w₁
  | call c next, post, w => ∀ w₁, rely w w₁ →
      mid w₁ ∧ ∀ r w₂, reply c w₁ r w₂ → guar w₁ w₂ ∧ (next r).Safe reply rely guar mid post w₂

section Safe

variable {reply : (c : C) → W → R c → W → Prop} {rely guar : W → W → Prop} {mid : W → Prop}

variable {post : α → W → Prop} {w : W}

theorem Safe.ask {c : C} {f : R c → Prog C R α}
    (h : ∀ w₁, rely w w₁ → mid w₁ ∧
      ∀ r w₂, reply c w₁ r w₂ → guar w₁ w₂ ∧ (f r).Safe reply rely guar mid post w₂) :
    (Prog.ask c >>= f).Safe reply rely guar mid post w := h

theorem Safe.pure {a : α} (h : ∀ w₁, rely w w₁ → mid w₁ ∧ post a w₁) :
    (Pure.pure a : Prog C R α).Safe reply rely guar mid post w := h

variable {p : Prog C R α}

theorem Safe.stable (htrans : ∀ w₁ w₂ w₃, rely w₁ w₂ → rely w₂ w₃ → rely w₁ w₃) {w' : W}
    (h : p.Safe reply rely guar mid post w) (hw : rely w w') :
    p.Safe reply rely guar mid post w' := by
  cases p with
  | done a => exact fun w₁ hw₁ => h w₁ (htrans _ _ _ hw hw₁)
  | call c next => exact fun w₁ hw₁ => h w₁ (htrans _ _ _ hw hw₁)

theorem Safe.weaken {post' : α → W → Prop} (h : p.Safe reply rely guar mid post w)
    (hpost : ∀ a w, post a w → post' a w) : p.Safe reply rely guar mid post' w := by
  induction p generalizing w with
  | done a => exact fun w₁ hw₁ => ⟨(h w₁ hw₁).1, hpost _ _ (h w₁ hw₁).2⟩
  | call c next ih =>
    intro w₁ hw₁
    refine ⟨(h w₁ hw₁).1, fun r w₂ hr => ?_⟩
    obtain ⟨hguar, hnext⟩ := (h w₁ hw₁).2 r w₂ hr
    exact ⟨hguar, ih r hnext⟩

/-- Sequencing; `rely` is reflexive, so the second part begins with what the first established. -/
theorem Safe.bind (hrefl : ∀ w, rely w w) {f : α → Prog C R β} {post : β → W → Prop}
    (h : p.Safe reply rely guar mid (fun a w => (f a).Safe reply rely guar mid post w) w) :
    (p >>= f).Safe reply rely guar mid post w := by
  induction p generalizing w with
  | done a => exact (h w (hrefl w)).2
  | call c next ih =>
    intro w₁ hw₁
    refine ⟨(h w₁ hw₁).1, fun r w₂ hr => ?_⟩
    obtain ⟨hguar, hnext⟩ := (h w₁ hw₁).2 r w₂ hr
    exact ⟨hguar, ih r hnext⟩

theorem Only.safe {P : C → Prop} {Q : α → Prop} (honly : p.Only P Q) {I : W → Prop} (hw : I w)
    (hrely : ∀ {w w'}, I w → rely w w' → I w') (hmid : ∀ {w}, I w → mid w)
    (hcall : ∀ {c w r w'}, P c → I w → reply c w r w' → guar w w' ∧ I w')
    (hpost : ∀ {a w}, Q a → I w → post a w) : p.Safe reply rely guar mid post w := by
  induction p generalizing w with
  | done a => exact fun w₁ h₁ => ⟨hmid (hrely hw h₁), hpost honly (hrely hw h₁)⟩
  | call c next ih =>
    intro w₁ h₁
    have hw₁ := hrely hw h₁
    refine ⟨hmid hw₁, fun r w₂ hreply => ?_⟩
    obtain ⟨hguar, hw₂⟩ := hcall honly.1 hw₁ hreply
    exact ⟨hguar, ih r (honly.2 r) hw₂⟩

end Safe

variable {reply : (c : C) → W → R c → W → Prop} {guar : W → W → Prop} {mid : W → Prop}
  {post : α → W → Prop} {w w' : W}

theorem Safe.among {rely : W → W → Prop} {a : α} {seen : List W}
    (h : p.Safe reply rely guar mid post w) (hrun : p.Among reply rely w a seen w') :
    post a w' := by
  induction p generalizing w seen with
  | done b =>
    obtain ⟨rfl, -, henv⟩ := hrun
    exact (h w' henv).2
  | call c next ih =>
    obtain ⟨w₁, r, w₂, rest, henv, hreply, -, hnext⟩ := hrun
    exact ih r ((h w₁ henv).2 r w₂ hreply).2 hnext

theorem Safe.exec {a : α} (h : p.Safe reply Eq guar mid post w) (hexec : p.Exec reply w a w') :
    post a w' := by
  induction p generalizing w with
  | done b =>
    obtain ⟨rfl, rfl⟩ := hexec
    exact (h w' rfl).2
  | call c next ih =>
    obtain ⟨r, w₁, hr, hnext⟩ := hexec
    exact ih r ((h w rfl).2 r w₁ hr).2 hnext

theorem Safe.passes (h : p.Safe reply Eq guar mid post w) (hpasses : p.Passes reply w w') :
    mid w' := by
  induction p generalizing w with
  | done b =>
    obtain rfl := hpasses
    exact (h w' rfl).1
  | call c next ih =>
    rcases hpasses with rfl | ⟨r, w₁, hr, hnext⟩
    · exact (h w' rfl).1
    · exact ih r ((h w rfl).2 r w₁ hr).2 hnext

/-- No one else moves the world. -/
def Alone (reply : (c : C) → W → R c → W → Prop) (mid : W → Prop) (p : Prog C R α)
    (post : α → W → Prop) (w : W) : Prop :=
  p.Safe reply Eq (fun _ _ => True) mid post w

section Alone

variable {reply : (c : C) → W → R c → W → Prop} {mid : W → Prop}

variable {post : α → W → Prop} {w : W}

theorem Alone.ask {c : C} {f : R c → Prog C R α} (hmid : mid w)
    (h : ∀ r w', reply c w r w' → (f r).Alone reply mid post w') :
    (Prog.ask c >>= f).Alone reply mid post w := by
  rintro w₁ rfl
  exact ⟨hmid, fun r w' hr => ⟨trivial, h r w' hr⟩⟩

theorem Alone.pure {a : α} (hmid : mid w) (h : post a w) :
    (Pure.pure a : Prog C R α).Alone reply mid post w := by
  rintro w₁ rfl
  exact ⟨hmid, h⟩

variable {p : Prog C R α}

theorem Alone.bind {f : α → Prog C R β} {post : β → W → Prop}
    (h : p.Alone reply mid (fun a w => (f a).Alone reply mid post w) w) :
    (p >>= f).Alone reply mid post w :=
  Safe.bind Eq.refl h

theorem Alone.weaken {post' : α → W → Prop} (h : p.Alone reply mid post w)
    (hpost : ∀ a w, post a w → post' a w) : p.Alone reply mid post' w :=
  Safe.weaken h hpost

theorem Alone.exec {w' : W} {a : α} (h : p.Alone reply mid post w) (hexec : p.Exec reply w a w') :
    post a w' := Safe.exec h hexec

theorem Alone.passes {w' : W} (h : p.Alone reply mid post w) (hpasses : p.Passes reply w w') :
    mid w' := Safe.passes h hpasses

end Alone

end Prog

/-- Between operations, or in one: its state at the start, and what is left to do. -/
inductive Thread (C : Type) (R : C → Type) (σ O : Type) : Type
  | idle (s : σ) : Thread C R σ O
  | busy (o : O) (s : σ) (p : Prog C R σ) : Thread C R σ O

/-- In an operation, the one it began with. -/
def Thread.state {σ O : Type} : Thread C R σ O → σ
  | .idle s => s
  | .busy _ s _ => s

/-- Between operations. -/
def Thread.isIdle {σ O : Type} : Thread C R σ O → Bool
  | .idle _ => true
  | .busy .. => false

theorem Thread.eq_idle {σ O : Type} {x : Thread C R σ O} (h : x.isIdle = true) :
    x = .idle x.state := by
  cases x with
  | idle s => rfl
  | busy o s p => cases h

/-- Threads `T` with states `σ`, operations `O` and a world `W`. -/
structure Machine (T W σ O C : Type) (R : C → Type) where
  Enabled : T → O → σ → Prop
  start : T → O → σ → Prog C R σ
  reply : T → (c : C) → W → R c → W → Prop

namespace Machine

variable {T σ O : Type} [DecidableEq T]

/-- The world and the threads. -/
structure State (T W σ O C : Type) (R : C → Type) where
  world : W
  threads : T → Thread C R σ O

variable (M : Machine T W σ O C R)

/-- A thread starts, makes a call or ends. -/
inductive Step : State T W σ O C R → State T W σ O C R → Prop
  | start {w threads} (t : T) (o : O) (s : σ) (hidle : threads t = .idle s)
      (henabled : M.Enabled t o s) :
      Step ⟨w, threads⟩ ⟨w, update threads t (.busy o s (M.start t o s))⟩
  | call {w w' threads} (t : T) (o : O) (s : σ) (c : C) (next : R c → Prog C R σ) (r : R c)
      (hbusy : threads t = .busy o s (.call c next)) (hreply : M.reply t c w r w') :
      Step ⟨w, threads⟩ ⟨w', update threads t (.busy o s (next r))⟩
  | finish {w threads} (t : T) (o : O) (s s' : σ) (hbusy : threads t = .busy o s (.done s')) :
      Step ⟨w, threads⟩ ⟨w, update threads t (.idle s')⟩

/-- Any number of steps. -/
inductive Reaches (x : State T W σ O C R) : State T W σ O C R → Prop
  | refl : Reaches x x
  | step {y z} : Reaches x y → M.Step y z → Reaches x z

variable {x y : State T W σ O C R}

variable {M} in
theorem Reaches.head {z : State T W σ O C R} (h : M.Reaches y z) (hstep : M.Step x y) :
    M.Reaches x z := by
  induction h with
  | refl => exact .step .refl hstep
  | step _ hlast ih => exact .step ih hlast

/-- Calls are made only where `P` allows them. -/
def restrict (P : T → C → W → Prop) : Machine T W σ O C R where
  Enabled := M.Enabled
  start := M.start
  reply t c w r w' := P t c w ∧ M.reply t c w r w'

variable {M} in
theorem Reaches.restrict {P : T → C → W → Prop} (hP : ∀ t c w, P t c w) (h : M.Reaches x y) :
    (M.restrict P).Reaches x y := by
  induction h with
  | refl => exact .refl
  | step _ hstep ih =>
    refine ih.step ?_
    cases hstep with
    | start t o s hidle henabled => exact .start t o s hidle henabled
    | call t o s c next r hbusy hreply => exact .call t o s c next r hbusy ⟨hP .., hreply⟩
    | finish t o s s' hbusy => exact .finish t o s s' hbusy

/-- A rely-guarantee proof of a machine. -/
structure Proof where
  rely : T → W → W → Prop
  guar : T → W → W → Prop
  mid : T → O → σ → W → Prop
  idle : T → σ → W → Prop
  rely_refl : ∀ t w, rely t w w
  rely_trans : ∀ t w₁ w₂ w₃, rely t w₁ w₂ → rely t w₂ w₃ → rely t w₁ w₃
  guar_rely : ∀ {t t' w w'}, t ≠ t' → guar t w w' → rely t' w w'
  idle_stable : ∀ {t s w w'}, idle t s w → rely t w w' → idle t s w'
  safe : ∀ {t o s w}, idle t s w → M.Enabled t o s →
    (M.start t o s).Safe (M.reply t) (rely t) (guar t) (mid t o s) (fun s' w' => idle t s' w') w

variable {M}

/-- What the proof says about a thread in a world. -/
def Proof.Holds (P : M.Proof) (w : W) (t : T) : Thread C R σ O → Prop
  | .idle s => P.idle t s w
  | .busy o s p =>
    p.Safe (M.reply t) (P.rely t) (P.guar t) (P.mid t o s) (fun s' w' => P.idle t s' w') w

variable {w : W} {t : T}

omit [DecidableEq T] in
theorem Proof.Holds.rely {P : M.Proof} {w' : W} {x : Thread C R σ O} (h : P.Holds w t x)
    (hw : P.rely t w w') : P.Holds w' t x := by
  cases x with
  | idle s => exact P.idle_stable h hw
  | busy o s p =>
    have hsafe : p.Safe (M.reply t) (P.rely t) (P.guar t) (P.mid t o s) (P.idle t) w := h
    exact hsafe.stable (P.rely_trans t) hw

theorem Proof.holds_update {P : M.Proof} {threads : T → Thread C R σ O} {t' : T}
    {x : Thread C R σ O} (hothers : ∀ t, t ≠ t' → P.Holds w t (threads t))
    (hself : P.Holds w t' x) (t : T) : P.Holds w t (update threads t' x t) := by
  by_cases ht : t = t'
  · subst ht
    rwa [update_self]
  · rw [update_of_ne ht]
    exact hothers t ht

theorem Step.holds (P : M.Proof) (hstep : M.Step x y) (h : ∀ t, P.Holds x.world t (x.threads t))
    (t : T) : P.Holds y.world t (y.threads t) := by
  cases hstep with
  | @start w threads t' o s hidle henabled =>
    have hs : P.Holds w t' (threads t') := h t'
    rw [hidle] at hs
    have hself : P.Holds w t' (.busy o s (M.start t' o s)) := P.safe hs henabled
    exact P.holds_update (fun t _ => h t) hself t
  | @call w w' threads t' o s c next r hbusy hreply =>
    have hs : P.Holds w t' (threads t') := h t'
    rw [hbusy] at hs
    obtain ⟨hguar, hnext⟩ := (hs w (P.rely_refl t' w)).2 r w' hreply
    have hself : P.Holds w' t' (.busy o s (next r)) := hnext
    exact P.holds_update (fun t ht => (h t).rely (P.guar_rely (Ne.symm ht) hguar)) hself t
  | @finish w threads t' o s s' hbusy =>
    have hs : P.Holds w t' (threads t') := h t'
    rw [hbusy] at hs
    have hself : P.Holds w t' (.idle s') := (hs w (P.rely_refl t' w)).2
    exact P.holds_update (fun t _ => h t) hself t

theorem Reaches.holds (P : M.Proof) (hreach : M.Reaches x y)
    (h : ∀ t, P.Holds x.world t (x.threads t)) (t : T) : P.Holds y.world t (y.threads t) := by
  induction hreach generalizing t with
  | refl => exact h t
  | step _ hstep ih => exact hstep.holds P ih t

omit [DecidableEq T] in
theorem Proof.Holds.mid {P : M.Proof} {o : O} {s : σ} {p : Prog C R σ}
    (h : P.Holds w t (.busy o s p)) : P.mid t o s w := by
  cases p with
  | done a => exact (h w (P.rely_refl t w)).1
  | call c next => exact (h w (P.rely_refl t w)).1

theorem Reaches.operation {w' : W} {threads : T → Thread C R σ O} {o : O} {s s' : σ}
    (hidle : threads t = .idle s) (henabled : M.Enabled t o s)
    (hexec : (M.start t o s).Exec (M.reply t) w s' w') :
    M.Reaches ⟨w, threads⟩ ⟨w', update threads t (.idle s')⟩ := by
  have hcalls : ∀ (p : Prog C R σ) w, p.Exec (M.reply t) w s' w' →
      M.Reaches ⟨w, update threads t (.busy o s p)⟩
        ⟨w', update threads t (.busy o s (.done s'))⟩ := by
    intro p
    induction p with
    | done a =>
      rintro w ⟨rfl, rfl⟩
      exact .refl
    | call c next ih =>
      rintro w ⟨r, w₁, hreply, hnext⟩
      have hstep : M.Step ⟨w, update threads t (.busy o s (.call c next))⟩
          ⟨w₁, update _ t (.busy o s (next r))⟩ :=
        .call t o s c next r (update_self ..) hreply
      rw [update_idem] at hstep
      exact (ih r w₁ hnext).head hstep
  have hfinish : M.Step ⟨w', update threads t (.busy o s (.done s'))⟩
      ⟨w', update _ t (.idle s')⟩ := .finish t o s s' (update_self ..)
  rw [update_idem] at hfinish
  exact ((hcalls _ w hexec).head (.start t o s hidle henabled)).step hfinish

end Machine

end Program
