import ElysiumKV.Lib.Program

/-!
# Runs of a machine and the operations in them

`Machine.Runs` tracks the threads that have been idle: what they do then began within the run.
`Runs.will`: a thread bound to make a call has made it when it is idle. `Runs.safe`: a program safe
when it begins stays so. `Runs.schedule`: a schedule is a run.
-/

namespace Program

open Function

variable {C : Type} {R : C → Type} {W α : Type}

/-- The call is made on every path. -/
def Prog.Will (c : C) : Prog C R α → Prop
  | .done _ => False
  | .call c' next => c' = c ∨ ∀ r, (next r).Will c

namespace Prog

variable {β : Type} {c : C}

variable {p : Prog C R α}

theorem Will.bind (h : p.Will c) (f : α → Prog C R β) : (p >>= f).Will c := by
  induction p with
  | done a => exact h.elim
  | call c' next ih => exact h.imp_right fun hnext r => ih r (hnext r)

theorem will_bind {f : α → Prog C R β} (h : ∀ a, (f a).Will c) : (p >>= f).Will c := by
  induction p with
  | done a => exact h a
  | call c' next ih => exact .inr ih

section Safe

variable {reply : (c : C) → W → R c → W → Prop} {rely guar guar' : W → W → Prop}
  {mid mid' : W → Prop} {post : α → W → Prop} {p : Prog C R α} {w : W}

theorem Safe.mono (h : p.Safe reply rely guar mid post w) (hguar : ∀ w w', guar w w' → guar' w w')
    (hmid : ∀ w, mid w → mid' w) : p.Safe reply rely guar' mid' post w := by
  induction p generalizing w with
  | done a => exact fun w₁ h₁ => (h w₁ h₁).imp_left (hmid w₁)
  | call c next ih =>
    intro w₁ h₁
    refine ⟨hmid w₁ (h w₁ h₁).1, fun r w₂ hr => ?_⟩
    exact ((h w₁ h₁).2 r w₂ hr).imp (hguar w₁ w₂) (ih r)

theorem safe_of_forall (hpost : ∀ a w, post a w) :
    p.Safe reply rely (fun _ _ => True) (fun _ => True) post w := by
  induction p generalizing w with
  | done a => exact fun w₁ _ => ⟨trivial, hpost a w₁⟩
  | call c next ih => exact fun w₁ _ => ⟨trivial, fun r w₂ _ => ⟨trivial, ih r⟩⟩

end Safe

/-- Every call of the program, with what follows it. -/
def Each (q : (c : C) → (R c → Prog C R α) → Prop) : Prog C R α → Prop
  | .done _ => True
  | .call c next => q c next ∧ ∀ r, (next r).Each q

theorem Only.each {P : C → Prop} {Q : α → Prop} {q : (c : C) → (R c → Prog C R α) → Prop}
    (h : p.Only P Q) (hq : ∀ c next, P c → q c next) : p.Each q := by
  induction p with
  | done a => trivial
  | call c next ih => exact ⟨hq c next h.1, fun r => ih r (h.2 r)⟩

end Prog

variable {T σ O : Type}

/-- The call a thread is about to make. -/
def Thread.next : Thread C R σ O → Option C
  | .busy _ _ (.call c _) => some c
  | _ => none

namespace Machine

variable [DecidableEq T] (M : Machine T W σ O C R)

theorem of_update_eq_busy {threads : T → Thread C R σ O} {t t' : T} {thread : Thread C R σ O}
    {o : O} {s : σ} {p : Prog C R σ} (h : update threads t' thread t = .busy o s p) :
    t = t' ∧ thread = .busy o s p ∨ t ≠ t' ∧ threads t = .busy o s p := by
  by_cases htt : t = t'
  · exact .inl ⟨htt, by rwa [htt, update_self] at h⟩
  · exact .inr ⟨htt, by rwa [update_of_ne htt] at h⟩

/-- Allowed calls only, with the threads that have been idle. -/
inductive Runs (allowed : State T W σ O C R → T → Prop) (x : State T W σ O C R) :
    State T W σ O C R → (T → Prop) → Prop
  | refl : Runs allowed x x fun t => (x.threads t).isIdle = true
  | start {w threads been} (t : T) (o : O) (s : σ) (hrun : Runs allowed x ⟨w, threads⟩ been)
      (hidle : threads t = .idle s) (henabled : M.Enabled t o s) :
      Runs allowed x ⟨w, update threads t (.busy o s (M.start t o s))⟩ been
  | call {w w' threads been} (t : T) (o : O) (s : σ) (c : C) (next : R c → Prog C R σ) (r : R c)
      (hrun : Runs allowed x ⟨w, threads⟩ been) (hbusy : threads t = .busy o s (.call c next))
      (hallowed : allowed ⟨w, threads⟩ t) (hreply : M.reply t c w r w') :
      Runs allowed x ⟨w', update threads t (.busy o s (next r))⟩ been
  | finish {w threads been} (t : T) (o : O) (s s' : σ) (hrun : Runs allowed x ⟨w, threads⟩ been)
      (hbusy : threads t = .busy o s (.done s')) :
      Runs allowed x ⟨w, update threads t (.idle s')⟩ fun t' => t' = t ∨ been t'

variable {M} {allowed : State T W σ O C R → T → Prop} {x y : State T W σ O C R} {been : T → Prop}

theorem Runs.reaches (h : M.Runs allowed x y been) : M.Reaches x y := by
  induction h with
  | refl => exact .refl
  | start t o s _ hidle henabled ih => exact ih.step (.start t o s hidle henabled)
  | call t o s c next r _ hbusy _ hreply ih => exact ih.step (.call t o s c next r hbusy hreply)
  | finish t o s s' _ hbusy ih => exact ih.step (.finish t o s s' hbusy)

theorem Runs.restrict {P : T → C → W → Prop}
    (h : M.Runs (fun x t => ∀ c ∈ (x.threads t).next, P t c x.world) x y been) :
    (M.restrict P).Reaches x y := by
  induction h with
  | refl => exact .refl
  | start t o s _ hidle henabled ih => exact ih.step (.start t o s hidle henabled)
  | call t o s c next r _ hbusy hallowed hreply ih =>
    exact ih.step (.call t o s c next r hbusy ⟨hallowed c (by simp [hbusy, Thread.next]), hreply⟩)
  | finish t o s s' _ hbusy ih => exact ih.step (.finish t o s s' hbusy)

variable {t : T}

theorem Runs.been_of_start (h : M.Runs allowed x y been) (ht : (x.threads t).isIdle = true) :
    been t := by
  induction h with
  | refl => exact ht
  | start _ _ _ _ _ _ ih => exact ih
  | call _ _ _ _ _ _ _ _ _ _ ih => exact ih
  | finish _ _ _ _ _ _ ih => exact .inr ih

variable {o : O} {s : σ}

theorem idle_of_update_busy {threads : T → Thread C R σ O} {t' : T} {p : Prog C R σ}
    (h : (update threads t' (.busy o s p) t).isIdle = true) :
    (threads t).isIdle = true := by
  by_cases htt : t = t'
  · rw [htt, update_self] at h
    cases h
  · rwa [update_of_ne htt] at h

theorem Runs.been_of_idle (h : M.Runs allowed x y been) (ht : (y.threads t).isIdle = true) :
    been t := by
  induction h with
  | refl => exact ht
  | start _ _ _ _ _ _ ih => exact ih (idle_of_update_busy ht)
  | call _ _ _ _ _ _ _ _ _ _ ih => exact ih (idle_of_update_busy ht)
  | finish t' o s s' _ _ ih =>
    by_cases htt : t = t'
    · exact .inl htt
    · dsimp only at ht
      rw [update_of_ne htt] at ht
      exact .inr (ih ht)

theorem Runs.will (Inv Done : W → Prop) {c : C} {p : Prog C R σ} (h : M.Runs allowed x y been)
    (ht : x.threads t = .busy o s p) (hwill : p.Will c) (hx : Inv x.world)
    (hinv : ∀ {t c w r w'}, M.reply t c w r w' → Inv w → Inv w')
    (hmade : ∀ {t w r w'}, M.reply t c w r w' → Inv w → Done w')
    (hkept : ∀ {t c w r w'}, M.reply t c w r w' → Inv w → Done w → Done w') :
    Inv y.world ∧ (Done y.world ∨
      ¬ been t ∧ ∃ p, y.threads t = .busy o s p ∧ p.Will c) := by
  induction h with
  | refl =>
    refine ⟨hx, .inr ⟨fun hidle => ?_, p, ht, hwill⟩⟩
    simp only [ht, Thread.isIdle, Bool.false_eq_true] at hidle
  | start t' o' s' _ hidle _ ih =>
    refine ⟨ih.1, ih.2.imp_right ?_⟩
    rintro ⟨hbeen, p, hp, hwill⟩
    have htt : t ≠ t' := by
      rintro rfl
      cases hp.symm.trans hidle
    exact ⟨hbeen, p, (update_of_ne htt ..).trans hp, hwill⟩
  | call t' o' s' c' next r _ hbusy _ hreply ih =>
    obtain ⟨hw, hcases⟩ := ih
    refine ⟨hinv hreply hw, ?_⟩
    rcases hcases with hdone | ⟨hbeen, p, hp, hwill⟩
    · exact .inl (hkept hreply hw hdone)
    · by_cases htt : t = t'
      · subst htt
        obtain ⟨rfl, rfl, rfl⟩ := Thread.busy.inj (hp.symm.trans hbusy)
        rcases hwill with rfl | hwill
        · exact .inl (hmade hreply hw)
        · exact .inr ⟨hbeen, next r, update_self .., hwill r⟩
      · exact .inr ⟨hbeen, p, (update_of_ne htt ..).trans hp, hwill⟩
  | finish t' o' s' s'' _ hbusy ih =>
    refine ⟨ih.1, ih.2.imp_right ?_⟩
    rintro ⟨hbeen, p, hp, hwill⟩
    have htt : t ≠ t' := by
      rintro rfl
      obtain ⟨-, -, rfl⟩ := Thread.busy.inj (hp.symm.trans hbusy)
      exact hwill
    exact ⟨not_or.2 ⟨htt, hbeen⟩, p, (update_of_ne htt ..).trans hp, hwill⟩

theorem Runs.safe (rely : W → W → Prop) (Inv : W → Prop) (post : T → O → σ → σ → W → Prop)
    (h : M.Runs allowed x y been) (hrefl : ∀ w, rely w w)
    (htrans : ∀ w₁ w₂ w₃, rely w₁ w₂ → rely w₂ w₃ → rely w₁ w₃) (hx : Inv x.world)
    (hcall : ∀ {y been t o s c next r w'}, M.Runs allowed x y been →
      y.threads t = .busy o s (.call c next) → allowed y t → M.reply t c y.world r w' →
        Inv y.world → rely y.world w' ∧ Inv w')
    (hsafe : ∀ {t o s w}, M.Enabled t o s → Inv w →
      (M.start t o s).Safe (M.reply t) rely (fun _ _ => True) (fun _ => True) (post t o s) w) :
    Inv y.world ∧ ∀ t o s p, been t → y.threads t = .busy o s p →
      p.Safe (M.reply t) rely (fun _ _ => True) (fun _ => True) (post t o s) y.world := by
  induction h with
  | refl =>
    refine ⟨hx, fun t o s p hbeen hp => ?_⟩
    simp only [hp, Thread.isIdle, Bool.false_eq_true] at hbeen
  | start t' o' s' hrun hidle henabled ih =>
    refine ⟨ih.1, fun t o s p hbeen hp => ?_⟩
    rcases of_update_eq_busy hp with ⟨rfl, heq⟩ | ⟨-, hp⟩
    · cases heq
      exact hsafe henabled ih.1
    · exact ih.2 t o s p hbeen hp
  | call t' o' s' c next r hrun hbusy hallowed hreply ih =>
    obtain ⟨hrely, hinv⟩ := hcall hrun hbusy hallowed hreply ih.1
    refine ⟨hinv, fun t o s p hbeen hp => ?_⟩
    rcases of_update_eq_busy hp with ⟨rfl, heq⟩ | ⟨-, hp⟩
    · cases heq
      have hself := ih.2 t o' s' _ hbeen hbusy
      exact ((hself _ (hrefl _)).2 r _ hreply).2
    · exact (ih.2 t o s p hbeen hp).stable htrans hrely
  | finish t' o' s' s'' hrun hbusy ih =>
    refine ⟨ih.1, fun t o s p hbeen hp => ?_⟩
    rcases of_update_eq_busy hp with ⟨-, heq⟩ | ⟨htt, hp⟩
    · cases heq
    · exact ih.2 t o s p (hbeen.resolve_left htt) hp

/-- A thread starts, or goes on and is answered in a chosen way. -/
inductive Act (T O F : Type) : Type
  | start (t : T) (o : O) : Act T O F
  | go (t : T) (f : F) : Act T O F

/-- One action; nothing happens where it does not apply or must wait. -/
def perform {F : Type} (M : Machine T W σ O C R) (ready : C → W → Bool)
    (answer : F → T → (c : C) → W → R c × W) (x : State T W σ O C R) :
    Act T O F → State T W σ O C R
  | .start t o => match x.threads t with
    | .idle s => ⟨x.world, update x.threads t (.busy o s (M.start t o s))⟩
    | .busy .. => x
  | .go t f => match x.threads t with
    | .idle _ => x
    | .busy _ _ (.done s') => ⟨x.world, update x.threads t (.idle s')⟩
    | .busy o s (.call c next) =>
      if ready c x.world then ⟨(answer f t c x.world).2,
        update x.threads t (.busy o s (next (answer f t c x.world).1))⟩
      else x

theorem Runs.perform {F : Type} {ready : C → W → Bool} {answer : F → T → (c : C) → W → R c × W}
    (h : ∃ been, M.Runs allowed x y been) {a : Act T O F}
    (henabled : ∀ t o s, a = .start t o → M.Enabled t o s)
    (hallowed : ∀ t f, a = .go t f → allowed y t)
    (hreply : ∀ f t c w, ready c w = true → M.reply t c w (answer f t c w).1 (answer f t c w).2) :
    ∃ been, M.Runs allowed x (M.perform ready answer y a) been := by
  obtain ⟨been, hrun⟩ := h
  obtain ⟨w, threads⟩ := y
  cases a with
  | start t o =>
    cases ht : threads t with
    | idle s =>
      have hstep := hrun.start t o s ht (henabled t o s rfl)
      exact ⟨been, by simpa only [Machine.perform, ht] using hstep⟩
    | busy o' s p => exact ⟨been, by simpa only [Machine.perform, ht] using hrun⟩
  | go t f =>
    cases ht : threads t with
    | idle s => exact ⟨been, by simpa only [Machine.perform, ht] using hrun⟩
    | busy o s p => cases p with
      | done s' =>
        have hstep := hrun.finish t o s s' ht
        exact ⟨_, by simpa only [Machine.perform, ht] using hstep⟩
      | call c next =>
        refine ⟨been, ?_⟩
        by_cases hready : ready c w = true
        · have hstep := hrun.call t o s c next _ ht (hallowed t f rfl) (hreply f t c w hready)
          simpa only [Machine.perform, ht, hready, if_true] using hstep
        · simpa only [Machine.perform, ht, hready, Bool.false_eq_true, if_false] using hrun

/-- Every step of a schedule passes a check. -/
def checks {F : Type} (M : Machine T W σ O C R) (ready : C → W → Bool)
    (answer : F → T → (c : C) → W → R c × W) (check : State T W σ O C R → T → Bool) :
    State T W σ O C R → List (Act T O F) → Bool
  | _, [] => true
  | x, a :: acts => (match a with
      | .start _ _ => true
      | .go t _ => check x t) && M.checks ready answer check (M.perform ready answer x a) acts

theorem checks_true {F : Type} (ready : C → W → Bool) (answer : F → T → (c : C) → W → R c × W)
    (acts : List (Act T O F)) : M.checks ready answer (fun _ _ => true) y acts = true := by
  induction acts generalizing y with
  | nil => rfl
  | cons a acts ih => cases a <;> exact ih

theorem Runs.schedule {F : Type} {ready : C → W → Bool}
    {answer : F → T → (c : C) → W → R c × W} {check : State T W σ O C R → T → Bool}
    (hreply : ∀ f t c w, ready c w = true → M.reply t c w (answer f t c w).1 (answer f t c w).2)
    (hcheck : ∀ x t, check x t = true → allowed x t) (acts : List (Act T O F))
    (henabled : ∀ t o s, .start t o ∈ acts → M.Enabled t o s)
    (hchecks : M.checks ready answer check y acts = true) (h : ∃ been, M.Runs allowed x y been) :
    ∃ been, M.Runs allowed x (acts.foldl (M.perform ready answer) y) been := by
  induction acts generalizing y with
  | nil => exact h
  | cons a acts ih =>
    obtain ⟨hfirst, hrest⟩ := (Bool.and_eq_true _ _).mp hchecks
    refine ih (fun t o s ho => henabled t o s (.tail _ ho)) hrest (Runs.perform h ?_ ?_ hreply)
    · rintro t o s rfl
      exact henabled t o s (.head _)
    · rintro t f rfl
      exact hcheck y t hfirst

end Machine

end Program
