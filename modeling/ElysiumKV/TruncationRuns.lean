import ElysiumKV.WritePath
import ElysiumKV.Lib.Bound
import ElysiumKV.Lib.Schedule
import ElysiumKV.Runs

/-!
# Truncations and their write floor

`truncate_below` publishes the floor before its edit is applied, so no single-key write is applied
below an installed point. But a call that finds the floor at its key returns `Ok` though the raising
call may fail, and two that overlap and fail may leave the floor at one's key. `Covered` excludes
these steps.
-/

namespace ElysiumKV

open Program Program.Prog List Function

namespace WritePath

variable {T : Type} [DecidableEq T]

namespace World

/-- The installed truncation point. -/
def point (w : World T) : Key := w.db.version.truncationPoint

/-- The floor, published before it is committed. -/
def bound (w : World T) : Bound.State T Key := ⟨w.point, w.db.writeFloor, w.opened⟩

end World

/-- The key of a single-key operation. -/
def singleKey : Db.BatchOp → Option Key
  | .put key _ | .remove key => some key
  | .deleteRange _ _ => none

/-- No call was applied below the point it found. -/
def World.NoneBelow (w : World T) : Prop :=
  ∀ call ∈ w.calls, ∀ op ∈ call.ops, ∀ key ∈ singleKey op, call.point ≤ key

/-! ### Critical sections -/

variable {db : Db}

theorem le_of_checkBelowTruncation {key : Key} (h : db.checkBelowTruncation key = .ok) :
    db.writeFloor ≤ key := by
  unfold Db.checkBelowTruncation at h
  split_ifs at h with hlt
  by_contra hle
  refine hlt ⟨fun hnil => ?_, not_le.1 hle⟩
  rw [hnil] at hle
  exact hle (ByteOrder.nil_le key)

theorem checkOp_of_checkBatch {batch : List Db.BatchOp} (h : db.checkBatch batch = .ok) :
    ∀ op ∈ batch, db.checkOp op = .ok := by
  induction batch with
  | nil => nofun
  | cons op batch ih =>
    unfold Db.checkBatch at h
    split at h
    · next hop => exact forall_mem_cons.2 ⟨hop, ih h⟩
    · next hop => exact absurd h hop

theorem le_of_checkOp {op : Db.BatchOp} (h : db.checkOp op = .ok) {key : Key}
    (hkey : key ∈ singleKey op) : db.writeFloor ≤ key := by
  cases op with
  | put k value =>
    obtain rfl := Option.some.inj hkey
    unfold Db.checkOp at h
    dsimp only at h
    split at h
    · exact le_of_checkBelowTruncation h
    · next hsize => exact absurd h hsize
  | remove k =>
    obtain rfl := Option.some.inj hkey
    unfold Db.checkOp at h
    dsimp only at h
    split at h
    · exact le_of_checkBelowTruncation h
    · next hsize => exact absurd h hsize
  | deleteRange lower upper => cases hkey

theorem Locked.le_of_ops {l : Locked} {ops : List Db.BatchOp} (h : l.ops db = .ok ops) :
    ∀ op ∈ ops, ∀ key ∈ singleKey op, db.writeFloor ≤ key := by
  cases l with
  | put k value =>
    simp only [Locked.ops] at h
    split at h
    · next hcheck =>
      cases h
      intro op hop key hkey
      obtain rfl := mem_singleton.1 hop
      obtain rfl := Option.some.inj hkey
      exact le_of_checkBelowTruncation hcheck
    · cases h
  | remove k =>
    simp only [Locked.ops] at h
    split at h
    · next hcheck =>
      cases h
      intro op hop key hkey
      obtain rfl := mem_singleton.1 hop
      obtain rfl := Option.some.inj hkey
      exact le_of_checkBelowTruncation hcheck
    · cases h
  | deleteRange lower upper =>
    cases h
    intro op hop key hkey
    obtain rfl := mem_singleton.1 hop
    cases hkey
  | write batch =>
    simp only [Locked.ops] at h
    split at h
    · next hcheck =>
      cases h
      intro op hop key hkey
      obtain ⟨op, hmem, rfl⟩ := mem_map.1 hop
      have hsame : singleKey (clampOp db.writeFloor op) = singleKey op := by cases op <;> rfl
      exact le_of_checkOp (checkOp_of_checkBatch hcheck op hmem) (hsame ▸ hkey)
    · cases h

namespace World

variable {w : World T} {t : T} {o : Outside}

theorem bound_raiseFloor {key : Key} (hlt : w.db.writeFloor < key) :
    (answer o t (.raiseFloor key) w).2.bound = w.bound.publish t key := by
  simp only [answer, if_pos hlt]
  rfl

theorem bound_restoreFloor (w : World T) (t : T) (o : Outside) (key previous : Key) :
    (answer o t (.restoreFloor key previous) w).2.bound = w.bound.takeBack t key previous := by
  unfold answer Bound.State.takeBack bound
  dsimp only
  split_ifs <;> rfl

omit [DecidableEq T] in
theorem point_installed (w : World T) (edit : VersionEdit) :
    (w.installed edit).point = max w.point edit.truncationPoint := by
  show (Version.apply _ _).truncationPoint = _
  unfold Version.apply
  dsimp only
  split_ifs with hlt
  · exact (max_eq_right hlt.le).symm
  · exact (max_eq_left (not_lt.1 hlt)).symm

theorem bound_apply (w : World T) (t : T) (o : Outside) (edit : VersionEdit) :
    (answer o t (.apply edit) w).1 = .ok ∧
        (answer o t (.apply edit) w).2.bound = w.bound.commit t edit.truncationPoint ∨
      (answer o t (.apply edit) w).1 ≠ .ok ∧ (answer o t (.apply edit) w).2.bound = w.bound := by
  by_cases hok : o.status = .ok
  · by_cases hcollides : w.collides = true
    · exact .inr (by simp [answer, hok, hcollides])
    · left
      have hanswer : answer o t (.apply edit) w =
          (Status.ok, (w.installed edit).withOpened t none) := by
        simp [answer, hok, hcollides]
      rw [hanswer]
      refine ⟨rfl, ?_⟩
      show Bound.State.mk (w.installed edit).point _ _ = _
      rw [point_installed]
      rfl
  · right
    have hanswer : answer o t (.apply edit) w =
        (o.status, if o.landed ∧ w.collides = false then w.landed edit else w) := by
      unfold answer
      split
      · contradiction
      · rfl
    rw [hanswer]
    refine ⟨hok, ?_⟩
    dsimp only
    split_ifs <;> rfl

end World

/-- The steps of a truncation. -/
def Call.Quiet : Call → Prop
  | .raiseFloor _ | .restoreFloor _ _ => False
  | .apply edit => edit.truncationPoint = []
  | _ => True

namespace World

variable {w : World T} {t : T} {o : Outside}

omit [DecidableEq T] in
theorem bound_retried (w : World T) (o : Outside) : (w.retried o).bound = w.bound := by
  unfold retried
  split_ifs <;> rfl

omit [DecidableEq T] in
theorem bound_flushed (w : World T) (status : Status) : (w.flushed status).bound = w.bound := by
  unfold flushed
  split_ifs <;> rfl

theorem bound_quiet {c : Call} (hc : c.Quiet) (ht : w.opened t = none) :
    (answer o t c w).2.bound = w.bound := by
  cases c with
  | throttle => exact bound_retried w o
  | lock l =>
    unfold answer
    dsimp only
    split_ifs
    · rfl
    · split <;> rfl
  | truncationPoint => rfl
  | freeze =>
    unfold answer
    dsimp only
    split_ifs
    · rfl
    · exact bound_retried w o
  | raiseFloor key => exact hc.elim
  | restoreFloor key previous => exact hc.elim
  | apply edit =>
    rcases bound_apply w t o edit with ⟨-, hbound⟩ | ⟨-, hbound⟩
    · rw [hbound]
      have hpoint : max w.point [] = w.point := max_eq_left (ByteOrder.nil_le _)
      have hopened : update w.opened t none = w.opened := by
        rw [← ht, update_eq_self]
      have hedit : edit.truncationPoint = [] := hc
      simp only [Bound.State.commit, bound, hedit, hpoint, hopened]
    · exact hbound
  | sealedMemtable => rfl
  | writeNewSst sst =>
    unfold answer
    dsimp only
    split
    · rfl
    · split_ifs <;> rfl
  | checkInvariants => rfl
  | flushed status => exact bound_flushed w status

theorem mem_calls_answer {c : Call} {call : Applied} (h : call ∈ (answer o t c w).2.calls) :
    call ∈ w.calls ∨ ∃ l ops, c = .lock l ∧ l.ops w.db = .ok ops ∧
      call = ⟨w.db.writeFloor, w.point, ops⟩ := by
  have hretried : (w.retried o).calls = w.calls := by
    unfold retried
    split_ifs <;> rfl
  cases c with
  | throttle => exact .inl (hretried ▸ h)
  | lock l =>
    unfold answer at h
    dsimp only at h
    split_ifs at h
    · exact .inl h
    · cases hops : l.ops w.db with
      | error status =>
        simp only [hops] at h
        exact .inl h
      | ok ops =>
        simp only [hops] at h
        have hcall : call ∈ w.calls ∨ call = ⟨w.db.writeFloor, w.point, ops⟩ := by
          simpa [applied, calls, or_assoc, point] using h
        exact hcall.imp_right fun hcall => ⟨l, ops, rfl, hops, hcall⟩
  | truncationPoint => exact .inl h
  | freeze =>
    unfold answer at h
    dsimp only at h
    split_ifs at h
    · left
      have hcall : call ∈ w.durable ∨ call ∈ w.active := by
        simpa [sealMemtable, calls] using h
      simp only [calls, mem_append]
      tauto
    · exact .inl (hretried ▸ h)
  | raiseFloor key =>
    unfold answer at h
    dsimp only at h
    split_ifs at h <;> exact .inl h
  | restoreFloor key previous =>
    unfold answer at h
    dsimp only at h
    split_ifs at h <;> exact .inl h
  | apply edit =>
    unfold answer at h
    dsimp only at h
    split at h
    · split_ifs at h <;> exact .inl h
    · split_ifs at h <;> exact .inl h
  | sealedMemtable => exact .inl h
  | writeNewSst sst =>
    unfold answer at h
    dsimp only at h
    split at h <;> exact .inl h
  | checkInvariants => exact .inl h
  | flushed status =>
    left
    unfold answer flushed at h
    dsimp only at h
    split_ifs at h
    · simpa [calls] using h
    · exact h
    · exact h

theorem NoneBelow.answer (h : w.NoneBelow) (hsound : Bound.Sound w.bound) (o : Outside) (t : T)
    (c : Call) : (answer o t c w).2.NoneBelow := by
  intro call hcall op hop key hkey
  rcases mem_calls_answer hcall with hcall | ⟨l, ops, rfl, hops, rfl⟩
  · exact h call hcall op hop key hkey
  · exact hsound.committed_le.trans (Locked.le_of_ops hops op hop key hkey)

end World

/-! ### All threads -/

/-- A floor found at the key is installed, and one taken back goes to the installed point or a key
still tried. -/
def Covered (t : T) (c : Call) (w : World T) : Prop :=
  match c with
  | .raiseFloor key => w.db.writeFloor < key ∨ key ≤ w.point
  | .restoreFloor key previous => Bound.Covered w.bound t key previous
  | _ => True

/-- A truncation that returned `Ok` is installed. -/
def Returned.Honoured (w : World T) (r : Returned) : Prop :=
  ∀ key, r.op = .truncateBelow key → r.status = .ok → key ≤ w.point

section Threads

variable (cond : T → Call → World T → Prop)

/-- The invariant of the world. -/
structure Sane (w : World T) : Prop where
  sound : Bound.Sound w.bound
  noneBelow : w.NoneBelow
  settled : (∀ t c w, cond t c w → Covered t c w) → Bound.Settled w.bound

/-- What other threads do. -/
structure Rely (t : T) (w w' : World T) : Prop where
  sane : Sane cond w → Sane cond w'
  opened : w'.opened t = w.opened t
  point : w.point ≤ w'.point

/-- What a thread does. -/
structure Guar (t : T) (w w' : World T) : Prop where
  sane : Sane cond w → Sane cond w'
  opened : ∀ u, u ≠ t → w'.opened u = w.opened u
  point : w.point ≤ w'.point

/-- What a thread knows of its truncation and of those returned. -/
structure Stands (t : T) (attempt : Option (Key × Key)) (s : List Returned) (w : World T) :
    Prop where
  sane : Sane cond w
  opened : w.opened t = attempt
  honoured : (∀ t c w, cond t c w → Covered t c w) → ∀ r ∈ s, r.Honoured w

variable {cond} {w w' : World T} {t : T} {c : Call} {s : List Returned} {o : Outside}
  {attempt : Option (Key × Key)}

omit [DecidableEq T] in
theorem Stands.rely (h : Stands cond t attempt s w) (hrely : Rely cond t w w') :
    Stands cond t attempt s w' where
  sane := hrely.sane h.sane
  opened := hrely.opened.trans h.opened
  honoured hcond r hr key hop hok := (h.honoured hcond r hr key hop hok).trans hrely.point

theorem Stands.step (h : Stands cond t attempt s w) {b : Bound.State T Key}
    (hbound : (answer o t c w).2.bound = b) (hsound : Bound.Sound b)
    (hsettled : (∀ t c w, cond t c w → Covered t c w) → Bound.Settled b)
    (hpoint : w.point ≤ b.committed) (hothers : ∀ u, u ≠ t → b.attempt u = w.opened u) :
    Guar cond t w (answer o t c w).2 ∧ Stands cond t (b.attempt t) s (answer o t c w).2 := by
  subst hbound
  have hsane : Sane cond (answer o t c w).2 :=
    ⟨hsound, h.sane.noneBelow.answer h.sane.sound o t c, hsettled⟩
  refine ⟨⟨fun _ => hsane, hothers, hpoint⟩, hsane, rfl, ?_⟩
  exact fun hcond r hr key hop hok => (h.honoured hcond r hr key hop hok).trans hpoint

theorem Stands.quiet (h : Stands cond t none s w) (hc : c.Quiet) :
    Guar cond t w (answer o t c w).2 ∧ Stands cond t none s (answer o t c w).2 := by
  have hstep := h.step (World.bound_quiet (o := o) hc h.opened) h.sane.sound h.sane.settled le_rfl
    fun _ _ => rfl
  have hattempt : w.bound.attempt t = none := h.opened
  rwa [hattempt] at hstep

variable {key : Key}

theorem Stands.raiseFloor (h : Stands cond t none s w) (hlt : w.db.writeFloor < key) :
    Guar cond t w (answer o t (.raiseFloor key) w).2 ∧
      Stands cond t (some (key, w.db.writeFloor)) s (answer o t (.raiseFloor key) w).2 := by
  have hstep := h.step (World.bound_raiseFloor (o := o) hlt) (h.sane.sound.publish hlt)
    (fun _ => Bound.settled_publish ..) le_rfl fun u hu => update_of_ne hu ..
  have hattempt : (w.bound.publish t key).attempt t = some (key, w.db.writeFloor) :=
    update_self ..
  rwa [hattempt] at hstep

theorem Stands.apply {previous : Key} (h : Stands cond t (some (key, previous)) s w) :
    Guar cond t w (answer o t (.apply { truncationPoint := key }) w).2 ∧
      ((answer o t (.apply { truncationPoint := key }) w).1 = .ok ∧
          Stands cond t none s (answer o t (.apply { truncationPoint := key }) w).2 ∧
          key ≤ (answer o t (.apply { truncationPoint := key }) w).2.point ∨
        (answer o t (.apply { truncationPoint := key }) w).1 ≠ .ok ∧
          Stands cond t (some (key, previous)) s
            (answer o t (.apply { truncationPoint := key }) w).2) := by
  rcases World.bound_apply w t o { truncationPoint := key } with ⟨hok, hbound⟩ | ⟨hfailed, hbound⟩
  · obtain ⟨hguar, hstands⟩ := h.step hbound (h.sane.sound.commit h.opened)
      (fun hcond => (h.sane.settled hcond).commit h.sane.sound h.opened) (le_max_left _ _)
      fun u hu => update_of_ne hu ..
    have hattempt : (w.bound.commit t key).attempt t = none := update_self ..
    rw [hattempt] at hstands
    have hpoint := congrArg Bound.State.committed hbound
    exact ⟨hguar, .inl ⟨hok, hstands, (le_max_right _ _).trans hpoint.ge⟩⟩
  · obtain ⟨hguar, hstands⟩ := h.step hbound h.sane.sound h.sane.settled le_rfl fun _ _ => rfl
    have hattempt : w.bound.attempt t = some (key, previous) := h.opened
    rw [hattempt] at hstands
    exact ⟨hguar, .inr ⟨hfailed, hstands⟩⟩

theorem Stands.restoreFloor {previous : Key} (h : Stands cond t (some (key, previous)) s w)
    (hallowed : cond t (.restoreFloor key previous) w) :
    Guar cond t w (answer o t (.restoreFloor key previous) w).2 ∧
      Stands cond t none s (answer o t (.restoreFloor key previous) w).2 := by
  have hstep := h.step (World.bound_restoreFloor w t o key previous)
    (h.sane.sound.takeBack h.opened)
    (fun hcond => (h.sane.settled hcond).takeBack h.opened (hcond _ _ _ hallowed)) le_rfl
    fun u hu => update_of_ne hu ..
  have hattempt : (w.bound.takeBack t key previous).attempt t = none := update_self ..
  rwa [hattempt] at hstep

end Threads

/-! ### The calls that are not truncations -/

theorem locked_quiet (l : Locked) : (locked l).Only Call.Quiet fun _ => True := by
  refine ⟨trivial, fun admitted => ?_⟩
  cases admitted with
  | ok =>
    refine ⟨trivial, fun place => ?_⟩
    cases place with
    | error status => trivial
    | ok place => exact ⟨trivial, fun _ => trivial⟩
  | _ => trivial

theorem flushMemtable_quiet (options : Options) (env : WriteEnv) (paranoidChecks : Bool)
    (m : Memtable) :
    (flushMemtable options env paranoidChecks m).Only Call.Quiet fun _ => True := by
  unfold flushMemtable
  dsimp only
  split
  · trivial
  · refine ⟨trivial, fun written => ?_⟩
    cases written with
    | error status => trivial
    | ok number =>
      refine ⟨rfl, fun applied => ?_⟩
      cases applied with
      | ok =>
        cases paranoidChecks with
        | true => exact ⟨trivial, fun _ => trivial⟩
        | false => trivial
      | _ => trivial

theorem program_quiet (setup : Setup) {op : Op} (hop : ∀ key, op ≠ .truncateBelow key) :
    (op.program setup).Only Call.Quiet fun _ => True := by
  cases op with
  | put key value =>
    unfold Op.program put
    dsimp only
    split_ifs
    · trivial
    · split
      · exact locked_quiet _
      · trivial
  | remove key =>
    unfold Op.program remove
    dsimp only
    split_ifs
    · trivial
    · split
      · exact locked_quiet _
      · trivial
  | deleteRange lower upper =>
    unfold Op.program deleteRange
    dsimp only
    split_ifs
    · trivial
    · split
      · split
        · refine ⟨trivial, fun floor => ?_⟩
          show Only _ _ (if _ then _ else _ : Path Outcome)
          split_ifs
          · exact locked_quiet _
          · trivial
        · trivial
      · trivial
  | write batch =>
    unfold Op.program write
    dsimp only
    split_ifs
    · trivial
    · exact locked_quiet _
  | truncateBelow key => exact absurd rfl (hop key)
  | freeze => exact ⟨trivial, fun _ => trivial⟩
  | runOneFlush env =>
    refine ⟨trivial, fun memtable => ?_⟩
    cases memtable with
    | none => trivial
    | some m =>
      change Only Call.Quiet _ (flushMemtable setup.options env setup.paranoidChecks m >>=
        fun status => Path.flushed status >>= fun _ => pure (status, none))
      refine Only.bind (flushMemtable_quiet ..) fun status _ => ?_
      exact ⟨trivial, fun _ => trivial⟩

section Runs

variable (cond : T → Call → World T → Prop) (setup : Setup) (flusher : T)

variable {w : World T} {t : T} {s : List Returned}

omit [DecidableEq T] in
theorem Stands.returned {cond : T → Call → World T → Prop} {r : Returned}
    (h : Stands cond t none s w) (hr : (∀ t c w, cond t c w → Covered t c w) → r.Honoured w) :
    Stands cond t none (s ++ [r]) w where
  sane := h.sane
  opened := h.opened
  honoured hcond r' hr' := by
    rcases mem_append.1 hr' with hr' | hr'
    · exact h.honoured hcond r' hr'
    · obtain rfl := mem_singleton.1 hr'
      exact hr hcond

/-- The assertion while an operation is in progress. -/
structure Mid (t : T) (op : Op) (s : List Returned) (w : World T) : Prop where
  sane : Sane cond w
  opened : (∀ key, op ≠ .truncateBelow key) → w.opened t = none
  honoured : (∀ t c w, cond t c w → Covered t c w) → ∀ r ∈ s, r.Honoured w

theorem safe_quiet {op : Op} (hop : ∀ key, op ≠ .truncateBelow key) (h : Stands cond t none s w) :
    (((machine T setup flusher).restrict cond).start t op s).Safe
      (((machine T setup flusher).restrict cond).reply t) (Rely cond t) (Guar cond t)
      (Mid cond t op s) (fun s' w' => Stands cond t none s' w') w := by
  have honly : (((machine T setup flusher).restrict cond).start t op s).Only Call.Quiet
      fun s' => ∃ r : Returned, r.op = op ∧ s' = s ++ [r] :=
    (program_quiet setup hop).bind fun outcome _ => ⟨⟨op, outcome.1, outcome.2⟩, rfl, rfl⟩
  refine honly.safe h (fun h => h.rely) (fun h => ⟨h.sane, fun _ => h.opened, h.honoured⟩) ?_ ?_
  · rintro c w r w' hc h ⟨-, o, hreply⟩
    obtain rfl : (answer o t c w).2 = w' := congrArg Prod.snd hreply
    exact h.quiet hc
  · rintro s' w ⟨r, rfl, rfl⟩ h
    exact h.returned fun _ key hkey => absurd hkey (hop key)

theorem safe_truncateBelow {key : Key} (h : Stands cond t none s w) :
    (((machine T setup flusher).restrict cond).start t (.truncateBelow key) s).Safe
      (((machine T setup flusher).restrict cond).reply t) (Rely cond t) (Guar cond t)
      (Mid cond t (.truncateBelow key) s) (fun s' w' => Stands cond t none s' w') w := by
  have hmid : ∀ {attempt w}, Stands cond t attempt s w → Mid cond t (.truncateBelow key) s w :=
    fun h => ⟨h.sane, fun hop => absurd rfl (hop key), h.honoured⟩
  have hdone : ∀ (outcome : Outcome) {w : World T}, Stands cond t none s w →
      ((∀ t c w, cond t c w → Covered t c w) → outcome.1 = .ok → key ≤ w.point) →
      (pure (s ++ [⟨.truncateBelow key, outcome.1, outcome.2⟩]) : Path (List Returned)).Safe
        (((machine T setup flusher).restrict cond).reply t) (Rely cond t) (Guar cond t)
        (Mid cond t (.truncateBelow key) s) (fun s' w' => Stands cond t none s' w') w := by
    intro outcome w h hpoint w₁ h₁
    refine ⟨hmid (h.rely h₁), (h.rely h₁).returned ?_⟩
    rintro hcond key' ⟨⟩ hok
    exact (hpoint hcond hok).trans h₁.point
  have hback : ∀ {previous : Key} {status : Status} {w : World T}, status ≠ .ok →
      Stands cond t (some (key, previous)) s w →
      (Path.restoreFloor key previous >>=
          fun _ => pure (s ++ [⟨.truncateBelow key, status, none⟩]) : Path (List Returned)).Safe
        (((machine T setup flusher).restrict cond).reply t) (Rely cond t) (Guar cond t)
        (Mid cond t (.truncateBelow key) s) (fun s' w' => Stands cond t none s' w') w := by
    intro previous status w hfailed h w₁ h₁
    refine ⟨hmid (h.rely h₁), ?_⟩
    rintro r w₂ ⟨hallowed, o, hreply⟩
    obtain rfl : (answer o t (.restoreFloor key previous) w₁).2 = w₂ := congrArg Prod.snd hreply
    obtain ⟨hguar, hstands⟩ := (h.rely h₁).restoreFloor (o := o) hallowed
    exact ⟨hguar, hdone (status, none) hstands fun _ hok => absurd hok hfailed⟩
  show Safe _ _ _ _ ((Op.truncateBelow key).program setup >>= _) _ w
  unfold Op.program truncateBelow
  dsimp only
  split_ifs with hread hnil
  · exact hdone _ h nofun
  · exact hdone _ h fun _ _ => hnil ▸ ByteOrder.nil_le _
  · intro w₁ h₁
    have hraise := h.rely h₁
    refine ⟨hmid hraise, ?_⟩
    rintro found w₂ ⟨hallowed, o, hreply⟩
    obtain rfl : (answer o t (.raiseFloor key) w₁).2 = w₂ := congrArg Prod.snd hreply
    have hfound : found = (answer o t (.raiseFloor key) w₁).1 := (congrArg Prod.fst hreply).symm
    by_cases hlt : w₁.db.writeFloor < key
    · obtain rfl : found = some w₁.db.writeFloor := by simpa [answer, hlt] using hfound
      obtain ⟨hguar, hpublished⟩ := hraise.raiseFloor (o := o) hlt
      refine ⟨hguar, fun w₃ h₃ => ?_⟩
      have happly := hpublished.rely h₃
      refine ⟨hmid happly, ?_⟩
      rintro status w₄ ⟨-, o', hreply'⟩
      obtain rfl : (answer o' t (.apply { truncationPoint := key }) w₃).2 = w₄ :=
        congrArg Prod.snd hreply'
      have hstatus : (answer o' t (.apply { truncationPoint := key }) w₃).1 = status :=
        congrArg Prod.fst hreply'
      obtain ⟨hguar', ⟨hok, hstands, hpoint⟩ | ⟨hfailed, hstands⟩⟩ := happly.apply (o := o')
      · refine ⟨hguar', ?_⟩
        obtain rfl : status = .ok := hstatus.symm.trans hok
        exact hdone _ hstands fun _ _ => hpoint
      · refine ⟨hguar', ?_⟩
        rw [hstatus] at hfailed
        cases status with
        | ok => exact absurd rfl hfailed
        | _ => exact hback hfailed hstands
    · obtain rfl : found = none := by simpa [answer, hlt] using hfound
      have hsame : (answer o t (.raiseFloor key) w₁).2 = w₁ := by simp [answer, hlt]
      rw [hsame]
      refine ⟨⟨id, fun _ _ => rfl, le_rfl⟩, hdone _ hraise fun hcond _ => ?_⟩
      exact (hcond t (.raiseFloor key) w₁ hallowed).resolve_left hlt

/-- The rely and guarantee of the machine. -/
def truncationProof : ((machine T setup flusher).restrict cond).Proof where
  rely := Rely cond
  guar := Guar cond
  mid := Mid cond
  idle t s w := Stands cond t none s w
  rely_refl _ _ := ⟨id, rfl, le_rfl⟩
  rely_trans _ _ _ _ h h' :=
    ⟨h'.sane ∘ h.sane, h'.opened.trans h.opened, h.point.trans h'.point⟩
  guar_rely hne h := ⟨h.sane, h.opened _ hne.symm, h.point⟩
  idle_stable h hrely := h.rely hrely
  safe {t op s w} h _ := by
    by_cases hop : ∃ key, op = .truncateBelow key
    · obtain ⟨key, rfl⟩ := hop
      exact safe_truncateBelow cond setup flusher h
    · exact safe_quiet cond setup flusher (fun key hkey => hop ⟨key, hkey⟩) h

variable {cond setup flusher}

omit [DecidableEq T] in
theorem stands_fresh {db : Db} (hfloor : db.writeFloor = db.version.truncationPoint) (t : T) :
    Stands cond t none [] (fresh T db).world where
  sane :=
    { sound := ⟨hfloor.ge, nofun, nofun⟩
      noneBelow := nofun
      settled := fun _ => .inl hfloor }
  opened := rfl
  honoured _ := nofun

theorem sane_of_holds {thread : Thread Call Call.Result (List Returned) Op}
    (h : (truncationProof cond setup flusher).Holds w t thread) : Sane cond w ∧
      ((∀ t c w, cond t c w → Covered t c w) → ∀ r ∈ thread.state, r.Honoured w) ∧
      ((∀ op s p, thread = .busy op s p → ∀ key, op ≠ .truncateBelow key) →
        w.opened t = none) := by
  cases thread with
  | idle s =>
    have hstands : Stands cond t none s w := h
    exact ⟨hstands.sane, hstands.honoured, fun _ => hstands.opened⟩
  | busy op s p =>
    have hmid : Mid cond t op s w := h.mid
    exact ⟨hmid.sane, hmid.honoured, fun hquiet => hmid.opened (hquiet op s p rfl)⟩

end Runs

/-- No single-key write is applied below an installed point. While no call meets a floor not
installed or takes it back to one, a truncation that returned `Ok` is installed and, with none in
progress, the floor is the truncation point. -/
theorem truncation_atomic (setup : Setup) (flusher : T) {db : Db}
    (hfloor : db.writeFloor = db.version.truncationPoint) :
    (∀ x, (machine T setup flusher).Reaches (fresh T db) x → x.world.NoneBelow) ∧
    ∀ x, ((machine T setup flusher).restrict Covered).Reaches (fresh T db) x →
      (∀ t, ∀ r ∈ (x.threads t).state, r.Honoured x.world) ∧
      ((∀ t op s p, x.threads t = .busy op s p → ∀ key, op ≠ .truncateBelow key) →
        x.world.db.writeFloor = x.world.point) := by
  constructor
  · intro x hx
    have hholds := (hx.restrict (P := fun _ _ _ => True) fun _ _ _ => trivial).holds
      (truncationProof _ setup flusher) (fun t => stands_fresh hfloor t)
    exact (sane_of_holds (hholds flusher)).1.noneBelow
  · intro x hx
    have hholds := hx.holds (truncationProof Covered setup flusher) fun t => stands_fresh hfloor t
    refine ⟨fun t => (sane_of_holds (hholds t)).2.1 fun _ _ _ => id, fun hquiet => ?_⟩
    refine ((sane_of_holds (hholds flusher)).1.settled fun _ _ _ => id).eq fun t => ?_
    exact (sane_of_holds (hholds t)).2.2 fun op s p hthread => hquiet t op s p hthread

/-! ### Overlapping truncations -/

/-- Two threads' schedule on an empty store. -/
def afterTruncations (flusher : Fin 2) (acts : List (Machine.Act (Fin 2) Op Outside)) :=
  acts.foldl ((machine (Fin 2) ⟨plainOptions, false, false⟩ flusher).perform (fun _ _ => true)
    answer) (fresh (Fin 2) {})

theorem runs_afterTruncations (acts : List (Machine.Act (Fin 2) Op Outside)) {allowed}
    {check : _ → Fin 2 → Bool} (hcheck : ∀ x t, check x t = true → allowed x t)
    (hstarts : ∀ t op, .start t op ∈ acts → ∃ key, op = .truncateBelow key)
    (hchecks : (machine (Fin 2) ⟨plainOptions, false, false⟩ 0).checks (fun _ _ => true) answer check
      (fresh (Fin 2) {}) acts = true) :
    ∃ been, (machine (Fin 2) ⟨plainOptions, false, false⟩ 0).Runs allowed (fresh (Fin 2) {})
      (afterTruncations 0 acts) been := by
  refine Machine.Runs.schedule (fun o _ _ _ _ => ?_) hcheck acts (fun t op s hop => ?_) hchecks
    ⟨_, .refl⟩
  · exact ⟨o, rfl⟩
  · obtain ⟨key, rfl⟩ := hstarts t op hop
    exact nofun

variable (x : Machine.State (Fin 2) (World (Fin 2)) (List Returned) Op Call Call.Result)

/-- `Covered`, computed. -/
def covered (t : Fin 2) : Bool :=
  match (x.threads t).next with
  | some (.raiseFloor key) => x.world.db.writeFloor < key || key ≤ x.world.point
  | some (.restoreFloor key previous) => x.world.db.writeFloor ≠ key || previous = x.world.point ||
      (List.finRange 2).any fun u => u ≠ t && (x.world.opened u).any (·.1 = previous)
  | _ => true

theorem covered_of_check (t : Fin 2) (h : covered x t = true) :
    ∀ c ∈ (x.threads t).next, Covered t c x.world := by
  intro c hc
  rw [covered, hc] at h
  cases c with
  | raiseFloor key => simpa [Covered] using h
  | restoreFloor key previous =>
    simp only [Bool.or_eq_true, decide_eq_true_eq, any_eq_true, Bool.and_eq_true,
      Option.any_eq_true] at h
    rintro rfl
    rcases h with (hne | rfl) | ⟨u, -, hut, ⟨before, before'⟩, hu, rfl⟩
    · exact absurd rfl hne
    · exact .inl rfl
    · exact .inr ⟨u, before', hut, hu⟩
  | _ => trivial

/-- One below `[2]` fails during one below `[1]` and takes the floor back to `[1]`; that one
succeeds, and a repeat finds it installed. -/
def overlappingTruncations {τ : Type} (s t : τ) : List (Machine.Act τ Op Outside) :=
  [.start s (.truncateBelow [1]), .go s {}, .start t (.truncateBelow [2]), .go t {},
    .go t { status := .io }, .go t {}, .go t {}, .go s {}, .go s {},
    .start t (.truncateBelow [1]), .go t {}, .go t {}]

theorem truncation_atomic_overlapping :
    let x := afterTruncations 0 (overlappingTruncations 0 1)
    ((machine (Fin 2) ⟨plainOptions, false, false⟩ 0).restrict Covered).Reaches
        (fresh (Fin 2) {}) x ∧
      ⟨.truncateBelow [2], .io, none⟩ ∈ (x.threads 1).state ∧
      ⟨.truncateBelow [1], .ok, none⟩ ∈ (x.threads 1).state ∧ [1] ≤ x.world.point ∧
      x.world.db.writeFloor = x.world.point := by
  obtain ⟨been, hrun⟩ := runs_afterTruncations (overlappingTruncations 0 1) covered_of_check
    (by simp [overlappingTruncations]) (by decide +kernel)
  obtain ⟨hhonoured, hfloor⟩ :=
    (truncation_atomic ⟨plainOptions, false, false⟩ 0 rfl).2 _ hrun.restrict
  have hreturned : (⟨.truncateBelow [1], .ok, none⟩ : Returned) ∈
      ((afterTruncations 0 (overlappingTruncations 0 1)).threads 1).state := .tail _ (.head _)
  have hidle : ∀ t, ((afterTruncations 0 (overlappingTruncations 0 1)).threads t).isIdle = true := by
    decide +kernel
  refine ⟨hrun.restrict, .head _, hreturned, hhonoured 1 _ hreturned [1] rfl rfl,
    hfloor fun t op s p ht => ?_⟩
  exact absurd ((congrArg Thread.isIdle ht).symm.trans (hidle t)) nofun

/-- Two overlap and fail, the larger key last; then the other is called again. -/
def failingTruncations {τ : Type} (s t : τ) : List (Machine.Act τ Op Outside) :=
  [.start s (.truncateBelow [1]), .go s {}, .start t (.truncateBelow [2]), .go t {},
    .go s { status := .io }, .go s {}, .go s {}, .go t { status := .io }, .go t {}, .go t {},
    .start s (.truncateBelow [1]), .go s {}, .go s {}]

theorem truncation_leaves_floor : ∃ x,
    (machine (Fin 2) ⟨plainOptions, false, false⟩ 0).Reaches (fresh (Fin 2) {}) x ∧
      (∀ t, (x.threads t).isIdle = true) ∧ x.world.point = [] ∧ x.world.db.writeFloor = [1] ∧
      ⟨.truncateBelow [1], .ok, none⟩ ∈ (x.threads 0).state := by
  obtain ⟨been, hrun⟩ := runs_afterTruncations (failingTruncations 0 1) (fun _ _ _ => trivial)
    (by simp [failingTruncations]) (Machine.checks_true ..)
  exact ⟨_, hrun.reaches, by decide, rfl, rfl, .tail _ (.head _)⟩

end WritePath

end ElysiumKV
