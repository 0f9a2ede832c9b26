import Xv6.Mlfq.Boost
import Xv6.Mlfq.ForkFail

/- The way of a process down the queues. `schedule k` is the level, the charge and
   the priority of a process right after its `k`-th dispatch since it was created or
   last boosted. Between two dispatches a process can have been expired without
   having run, when the scheduler chose it with its quantum used up and then
   preferred another one; `Due k` covers both, as such a process is where its next
   dispatch will leave it but for the tick of that dispatch.

   `Due.step` carries this over every action that `Undisturbed` allows, and
   `demotion_schedule` reads the schedule off at a dispatch. -/
namespace Xv6.Mlfq

/-- Level, charge and priority of a process. -/
def Proc.charge (x : Proc) : Int × Int × Int := (x.level, x.tq, x.priority)

/-- Level, charge and priority right after the `k`-th dispatch. -/
def schedule (k : Nat) : Int × Int × Int :=
  if k ≤ 4 then (0, k, 3)
  else if k ≤ 10 then (1, k - 4, 3)
  else (2, ((k - 11) % 8 : Nat) + 1, max 0 (3 - ((k - 11) / 8 : Nat)))

/-- After `k` dispatches: as the last one left it, or already expired and due for the
next one. -/
def Due (k : Nat) (x : Proc) : Prop :=
  x.charge = schedule k ∨ (x.level, x.tq + 1, x.priority) = schedule (k + 1)

section Arithmetic

variable {k : Nat} {x y : Proc}

/-- With ticks left the next dispatch charges one more. -/
theorem schedule_tick {l q pr : Int} (h : schedule k = (l, q, pr)) (hq : q ≠ getTimeQuantum l) :
    schedule (k + 1) = (l, q + 1, pr) := by
  unfold schedule at h ⊢
  unfold getTimeQuantum at hq
  split at h
  · simp only [Prod.mk.injEq] at h
    rw [if_pos (by omega)]
    simp only [Prod.mk.injEq]
    omega
  · split at h
    · simp only [Prod.mk.injEq] at h
      rw [if_neg (by omega), if_pos (by omega)]
      simp only [Prod.mk.injEq]
      omega
    · simp only [Prod.mk.injEq] at h
      rw [if_neg (by omega), if_neg (by omega)]
      simp only [Prod.mk.injEq]
      omega

/-- With the quantum used up the next dispatch is the first one of the next level, or of
the next priority at the last level. -/
theorem schedule_expire {l q pr : Int} (h : schedule k = (l, q, pr)) (hq : q = getTimeQuantum l) :
    schedule (k + 1) =
      if l < 2 then (l + 1, 1, pr) else (l, 1, if pr = 0 then pr else pr - 1) := by
  unfold schedule at h ⊢
  unfold getTimeQuantum at hq
  split at h
  · simp only [Prod.mk.injEq] at h
    rw [if_neg (by omega), if_pos (by omega), if_pos (by omega)]
    simp only [Prod.mk.injEq]
    omega
  · split at h
    · simp only [Prod.mk.injEq] at h
      rw [if_neg (by omega), if_neg (by omega), if_pos (by omega)]
      simp only [Prod.mk.injEq]
      omega
    · simp only [Prod.mk.injEq] at h
      rw [if_neg (by omega), if_neg (by omega), if_neg (by omega)]
      simp only [Prod.mk.injEq]
      omega

/-- No dispatch charges more than the quantum. -/
theorem schedule_fits {l q pr : Int} (h : schedule (k + 1) = (l, q, pr)) :
    1 ≤ q ∧ q ≤ getTimeQuantum l := by
  unfold schedule at h
  unfold getTimeQuantum
  split at h
  · simp only [Prod.mk.injEq] at h
    omega
  · split at h
    · simp only [Prod.mk.injEq] at h
      omega
    · simp only [Prod.mk.injEq] at h
      omega

/-- A dispatch with ticks left. -/
theorem Due.tick (h : Due k x) (hq : x.tq ≠ getTimeQuantum x.level) :
    (x.level, x.tq + 1, x.priority) = schedule (k + 1) := by
  rcases h with h | h
  · exact (schedule_tick h.symm hq).symm
  · exact h

/-- An expiry with the quantum used up. -/
theorem Due.expire (h : Due k x) (hq : x.tq = getTimeQuantum x.level) (hz : y.tq = 0)
    (hl : y.level = if x.level < 2 then x.level + 1 else x.level)
    (hp : y.priority =
      if x.level < 2 then x.priority else if x.priority = 0 then x.priority else x.priority - 1) :
    Due k y := by
  right
  rcases h with h | h
  · rw [schedule_expire h.symm hq, hz, hl, hp]
    split <;> simp
  · have := (schedule_fits h.symm).2
    omega

theorem Due.same (h : Due k x) (hc : y.charge = x.charge) : Due k y := by
  simp only [Proc.charge, Prod.mk.injEq] at hc
  obtain ⟨h1, h2, h3⟩ := hc
  unfold Due Proc.charge at h ⊢
  rwa [h1, h2, h3]

end Arithmetic

/-! ## Who changes a charge -/

section Charges

variable {t t' u : Ptable} {p r : Slot} {q : QIdx} {k : Nat}

theorem charge_of_rank {x y : Proc} (h : x.rank = y.rank) : x.charge = y.charge := by
  simp only [Proc.rank, Prod.mk.injEq] at h
  simp [Proc.charge, h]

/-- An expiry touches the level, charge and priority of the expired process only. -/
theorem expire_other (h : expireTimeQuantum t p = .ok t') (hr : r ≠ p) :
    (t'.proc r).rank = (t.proc r).rank := by
  unfold expireTimeQuantum at h
  simp only at h
  split at h
  · split at h
    · cases h
    · obtain ⟨u, h1, h2⟩ := bind_ok h
      split at h2
      · rw [(pushqueue_shifts h2).1.other r hr, (erasequeue_shifts h1).1.other r hr]
        simp [hr]
      · cases h2
  · split at h <;> cases h <;> simp [hr]

/-- The expired process itself starts a quantum on the next level, or with the next
priority. -/
theorem expire_self (hk : Ranged false none t) (h : expireTimeQuantum t p = .ok t') :
    (t'.proc p).tq = 0 ∧
      (t'.proc p).level = (if (t.proc p).level < 2 then (t.proc p).level + 1 else (t.proc p).level) ∧
      (t'.proc p).priority = (if (t.proc p).level < 2 then (t.proc p).priority
        else if (t.proc p).priority = 0 then (t.proc p).priority else (t.proc p).priority - 1) := by
  have h2 : ((NQUEUE : Nat) : Int) - 1 = 2 := rfl
  unfold expireTimeQuantum at h
  simp only [Ptable.updProc_proc, if_true, h2] at h
  split at h
  · next hlt =>
    split at h
    · cases h
    · next tmpq hq =>
      obtain ⟨u, h1, h2⟩ := bind_ok h
      split at h2
      · obtain ⟨hs1, -, -⟩ := erasequeue_shifts h1
        obtain ⟨hs2, -, hl2⟩ := pushqueue_shifts h2
        have hl := hk.level p tmpq hq
        have hql : ((u.queue ⟨tmpq.val + 1, ‹_›⟩).level : Int) = tmpq.val + 1 := by
          rw [hs1.qlevel]
          exact hk.qlevel _
        have htq : (t'.proc p).tq = 0 := by
          rw [hs2.tq, hs1.tq]
          simp
        have hprio : (t'.proc p).priority = (t.proc p).priority := by
          rw [hs2.priority, hs1.priority]
          simp
        refine ⟨htq, ?_, ?_⟩
        · rw [if_pos hlt, hl2, hql, hl]
        · rw [if_pos hlt, hprio]
      · cases h2
  · next hlt =>
    split at h
    · next h0 =>
      cases h
      simp [hlt, h0]
    · next h0 =>
      cases h
      simp [hlt, h0]

/-- The choice of the scheduler leaves a process due, and one that it settles on has
ticks left. -/
theorem Due.picks {l : List Slot} {o : Option Slot} (h : Picks t l o t') (hk : Ranged false none t)
    (hd : Due k (t.proc p)) :
    Ranged false none t' ∧ Due k (t'.proc p) ∧ (t'.proc p).state = (t.proc p).state ∧
      (o = some p → (t'.proc p).tq ≠ getTimeQuantum (t'.proc p).level) := by
  induction h with
  | idle h =>
    obtain ⟨hq, hp⟩ := getProcessToRun_same h
    exact ⟨hk.globals hq hp, by rwa [hp], by rw [hp], by simp⟩
  | settle s h hne =>
    obtain ⟨hq, hp⟩ := getProcessToRun_same h
    exact ⟨hk.globals hq hp, by rwa [hp], by rw [hp], fun hs => by cases hs; exact hne⟩
  | @expire t u v t' l o s h hs he hrest ih =>
    obtain ⟨hq, hp⟩ := getProcessToRun_same h
    have hku : Ranged false none u := hk.globals hq hp
    have hdu : Due k (u.proc p) := by rwa [hp]
    have hdv : Due k (v.proc p) := by
      by_cases hps : p = s
      · subst hps
        obtain ⟨h1, h2, h3⟩ := expire_self hku he
        exact hdu.expire hs h1 h2 h3
      · exact hdu.same (charge_of_rank (expire_other he hps))
    obtain ⟨h1, h2, h3, h4⟩ := ih (hku.expireTimeQuantum he) hdv
    have hst : (v.proc p).state = (t.proc p).state := by
      rw [(expireTimeQuantum_ids he).state p, hp]
    exact ⟨h1, h2, h3.trans hst, h4⟩

/-- The switch to `p` charges it a tick, at the level it has. -/
theorem runProc_self (hk : Ranged false none t) (h : runProc t p = .ok t') :
    (t'.proc p).charge = ((t.proc p).level, (t.proc p).tq + 1, (t.proc p).priority) ∧
      (t'.proc p).state = .RUNNING := by
  obtain ⟨u, h1, h2⟩ := bind_ok h
  cases h2
  refine ⟨?_, by simp⟩
  have hround : (u.proc p).charge = ((t.proc p).level, (t.proc p).tq + 1, (t.proc p).priority) := by
    unfold roundRobin at h1
    simp only [Ptable.updProc_proc, if_true] at h1
    split at h1
    · split at h1
      · unfold erasequeue at h1
        split at h1 <;> cases h1
        simp [Proc.charge]
      · next tmp htmp =>
        obtain ⟨v, h3, h4⟩ := bind_ok h1
        obtain ⟨hs3, -, -⟩ := erasequeue_shifts h3
        obtain ⟨hs4, -, hl4⟩ := pushqueue_shifts h4
        have hl : (v.queue tmp).level = (t.proc p).level := by
          rw [hs3.qlevel, hk.level p tmp htmp]
          exact hk.qlevel tmp
        have htq := hs4.tq.trans hs3.tq
        have hpr := hs4.priority.trans hs3.priority
        simp only [Ptable.updProc_proc, if_true] at htq hpr
        simp [Proc.charge, hl4, hl, htq, hpr]
    · cases h1
      simp [Proc.charge]
  simpa [Proc.charge] using hround

theorem runProc_other (h : runProc t p = .ok t') (hr : r ≠ p) :
    (t'.proc r).rank = (t.proc r).rank := by
  obtain ⟨u, h1, h2⟩ := bind_ok h
  cases h2
  have hround : (u.proc r).rank = (t.proc r).rank := by
    unfold roundRobin at h1
    split at h1
    · split at h1
      · unfold erasequeue at h1
        split at h1 <;> cases h1
        simp [hr]
      · obtain ⟨v, h3, h4⟩ := bind_ok h1
        rw [(pushqueue_shifts h4).1.other r hr, (erasequeue_shifts h3).1.other r hr]
        simp [hr]
    · cases h1
      simp [hr]
  simpa [hr] using hround

/-- A round of the scheduler: `p` is dispatched, and due for the dispatch after that,
or it keeps its state. -/
theorem Due.dispatch (hk : Ranged false none t) (hd : Due k (t.proc p))
    (h : dispatch t = .ok t') :
    ((t.proc p).state = .RUNNABLE ∧ (t'.proc p).state = .RUNNING ∧
        (t'.proc p).charge = schedule (k + 1)) ∨
      Due k (t'.proc p) ∧ (t'.proc p).state = (t.proc p).state := by
  obtain ⟨l, o, u, hpick, ⟨-, rfl⟩ | ⟨s, rfl, hrun⟩⟩ := dispatch_picks h
  · obtain ⟨-, h1, h2, -⟩ := Due.picks hpick hk hd
    exact .inr ⟨h1, h2⟩
  · obtain ⟨hku, h1, h2, h3⟩ := Due.picks hpick hk hd
    by_cases hps : p = s
    · subst hps
      obtain ⟨h4, h5⟩ := runProc_self hku hrun
      refine .inl ⟨h2.symm.trans (hpick.runnable p rfl), h5, ?_⟩
      rw [h4]
      exact h1.tick (h3 rfl)
    · have hrank := runProc_other hrun hps
      refine .inr ⟨h1.same (charge_of_rank hrank), ?_⟩
      exact (congrArg Prod.fst hrank).trans h2

end Charges

/-! ## Runs -/

/-- The action neither boosts nor gives `p` a level or a priority, `p` does not give up
the scheduler lock, its slot is not filled anew, and `p` is expired as the scheduler
expires: with its quantum used up. -/
def Undisturbed (p : Slot) (t : Ptable) : Act → Prop
  | .userinit => freeSlot t ≠ some p
  | .allocproc _ => freeSlot t ≠ some p
  | .exitUnlock c => c ≠ p
  | .schedulerUnlock c _ => c ≠ p
  | .setPriority pid _ => getProc t pid ≠ some p
  | .setLevel pid _ => getProc t pid ≠ some p
  | .expireTimeQuantum r => r = p → (t.proc p).tq = getTimeQuantum (t.proc p).level
  | .boostPriority => False
  | _ => True

/-- The action creates the process in slot `p`, or boosts it. -/
def Starts (p : Slot) (t : Ptable) : Act → Prop
  | .userinit => freeSlot t = some p
  | .allocproc _ => freeSlot t = some p
  | .boostPriority => (t.proc p).state ≠ .UNUSED
  | _ => False

instance Undisturbed.decidable (p : Slot) (t : Ptable) : ∀ a : Act, Decidable (Undisturbed p t a)
  | .userinit => inferInstanceAs (Decidable (freeSlot t ≠ some p))
  | .allocproc _ => inferInstanceAs (Decidable (freeSlot t ≠ some p))
  | .exitUnlock c => inferInstanceAs (Decidable (c ≠ p))
  | .schedulerUnlock c _ => inferInstanceAs (Decidable (c ≠ p))
  | .setPriority pid _ => inferInstanceAs (Decidable (getProc t pid ≠ some p))
  | .setLevel pid _ => inferInstanceAs (Decidable (getProc t pid ≠ some p))
  | .expireTimeQuantum r =>
    inferInstanceAs (Decidable (r = p → (t.proc p).tq = getTimeQuantum (t.proc p).level))
  | .boostPriority => .isFalse id
  | .forkFinish _ _ | .forkFail _ | .exitTail _ | .wait _ | .dispatch | .unlockSched
  | .schedulerLock _ _ | .sleep _ _ | .wakeup _ | .kill _ | .yield _ => .isTrue trivial

instance Starts.decidable (p : Slot) (t : Ptable) : ∀ a : Act, Decidable (Starts p t a)
  | .userinit => inferInstanceAs (Decidable (freeSlot t = some p))
  | .allocproc _ => inferInstanceAs (Decidable (freeSlot t = some p))
  | .boostPriority => inferInstanceAs (Decidable ((t.proc p).state ≠ .UNUSED))
  | .forkFinish _ _ | .forkFail _ | .exitUnlock _ | .exitTail _ | .wait _ | .dispatch
  | .expireTimeQuantum _ | .unlockSched | .setPriority _ _ | .schedulerLock _ _
  | .schedulerUnlock _ _ | .setLevel _ _ | .sleep _ _ | .wakeup _ | .kill _ | .yield _ => .isFalse id

section Runs

variable {t t' : Ptable} {p : Slot} {a : Act} {k : Nat}

/-- Other processes are relinked. -/
theorem Due.shifts {s : Slot} (h : Due k (t.proc p)) (hs : Shifts s t t') (hp : p ≠ s) :
    Due k (t'.proc p) :=
  h.same (charge_of_rank (hs.other p hp))

theorem Undisturbed.not_filled (hu : Undisturbed p t a)
    (ha : a = .userinit ∨ ∃ c, a = .allocproc c) : freeSlot t ≠ some p := by
  rcases ha with h1 | ⟨c, h1⟩
  · subst h1
    exact hu
  · subst h1
    exact hu

/-- An undisturbed action other than a dispatch leaves a process in use due. -/
theorem Due.other (hk : Ranged false none t) (h : Due k (t.proc p)) (he : Effect t a t')
    (hu : Undisturbed p t a) (ha : a ≠ .dispatch) :
    (t'.proc p).state = .UNUSED ∨ Due k (t'.proc p) := by
  cases he with
  | quiet hq =>
    have hlinks := hq.links p
    simp only [Proc.links, Prod.mk.injEq] at hlinks
    have hprio : (t'.proc p).priority = (t.proc p).priority := by
      rcases hq.priority p with h1 | ⟨pid, n, h1, h2⟩
      · exact h1
      · subst h1
        exact absurd h2 hu
    right
    refine h.same ?_
    rw [Proc.charge, hlinks.2.1, hq.tq p, hprio]
    rfl
  | @create a u t' s ha hfree hpush hq hst hproc =>
    have hps : p ≠ s := fun hps => hu.not_filled ha (hps ▸ hfree)
    have hpu : t'.proc p = u.proc p := by
      rcases hproc p with h1 | ⟨h1, -⟩
      · exact h1
      · exact absurd h1 hps
    have hsame : (embryo t s).proc p = t.proc p := by simp [embryo, hps]
    right
    rw [hpu]
    exact Due.shifts (t := embryo t s) (by rwa [hsame]) (pushqueue_shifts hpush).1 hps
  | @reap u c s hz he =>
    by_cases hps : p = s
    · subst hps
      exact .inl (by simp)
    · right
      simpa [hps] using h.shifts (erasequeue_shifts he).1 hps
  | @front a u v c ha hl hc he hv =>
    have hpc : p ≠ c := by
      intro hpc
      subst hpc
      rcases ha with h1 | ⟨pw, h1⟩ <;> subst h1 <;> exact hu rfl
    right
    simpa [hpc] using h.shifts ((erasequeue_shifts he).1.trans (pushfrontqueue_shifts hv).1) hpc
  | @relevel u t' pid level s q hs he hpush =>
    have hps : p ≠ s := fun hps => hu (hps ▸ hs)
    exact .inr (h.shifts ((erasequeue_shifts he).1.trans (pushqueue_shifts hpush).1) hps)
  | dispatch h => exact absurd rfl ha
  | expire s hs he =>
    right
    by_cases hps : p = s
    · subst hps
      obtain ⟨h1, h2, h3⟩ := expire_self hk he
      exact h.expire (hu rfl) h1 h2 h3
    · exact h.same (charge_of_rank (expire_other he hps))
  | boost h => exact absurd hu id

/-- A free slot stays free as long as it is not filled. -/
theorem unused_step (h : (t.proc p).state = .UNUSED) (hu : Undisturbed p t a) (hs : step t a = some t') :
    (t'.proc p).state = .UNUSED := by
  rcases (exec_effect (step_exec hs)).cases_keeps with hq | ⟨s, u, ha, hfree, hpush, -, hproc⟩ |
      ⟨s, u, -, he, hfree, hproc⟩ | hk
  · exact hq.unused p h
  · have hps : p ≠ s := fun hps => hu.not_filled ha (hps ▸ hfree)
    rw [(hproc p).2 hps, (pushed_other hpush hps).1]
    exact h
  · by_cases hps : p = s
    · exact hps ▸ hfree
    · rw [hproc p hps, (erased_other he hps).1]
      exact h
  · exact (hk.unused p).mpr h

/-- What holds of `p` after `k` dispatches, until its slot is freed. -/
def OnSchedule (k : Nat) (p : Slot) (t : Ptable) : Prop :=
  Ranged false none t ∧ ((t.proc p).state = .UNUSED ∨ Due k (t.proc p))

/-- A dispatch of `p` leaves it with the charge of the schedule. -/
theorem OnSchedule.dispatched (h : OnSchedule k p t) (hs : step t .dispatch = some t')
    (h1 : (t.proc p).state ≠ .RUNNING) (h2 : (t'.proc p).state = .RUNNING) :
    (t'.proc p).charge = schedule (k + 1) := by
  obtain ⟨hk, hfree | hd⟩ := h
  · have := unused_step hfree (a := .dispatch) trivial hs
    rw [h2] at this
    cases this
  · rcases hd.dispatch hk (step_exec hs) with ⟨-, -, hc⟩ | ⟨-, hst⟩
    · exact hc
    · exact absurd (hst.symm.trans h2) h1

/-- One step counts on by one if it dispatches `p`, and not otherwise. -/
theorem OnSchedule.step (h : OnSchedule k p t) (hu : Undisturbed p t a) (hs : step t a = some t') :
    OnSchedule (k + if a = .dispatch ∧ (t.proc p).state ≠ .RUNNING ∧ (t'.proc p).state = .RUNNING
      then 1 else 0) p t' := by
  refine ⟨h.1.step (fun hk => by cases hk) hs, ?_⟩
  split
  · next hd =>
    obtain ⟨rfl, h1, h2⟩ := hd
    exact .inr (.inl (h.dispatched hs h1 h2))
  · next hd =>
    obtain ⟨hk, hfree | hdue⟩ := h
    · exact .inl (unused_step hfree hu hs)
    · by_cases ha : a = .dispatch
      · subst ha
        rcases hdue.dispatch hk (step_exec hs) with ⟨h1, h2, -⟩ | ⟨h1, -⟩
        · exact absurd ⟨rfl, by simp [h1], h2⟩ hd
        · exact .inr h1
      · exact hdue.other hk (exec_effect (step_exec hs)) hu ha

theorem OnSchedule.run : ∀ (bs : List Act) (k : Nat) (t t' : Ptable), OnSchedule k p t →
    Lib.Meets Mlfq.step (Undisturbed p) t bs → Lib.run Mlfq.step t bs = some t' →
    OnSchedule (k + dispatches p t bs) p t' := by
  intro bs
  induction bs with
  | nil =>
    intro k t t' h _ hr
    cases hr
    exact h
  | cons a bs ih =>
    intro k t t' h hm hr
    obtain ⟨u, hs, hr⟩ := Lib.run_cons hr
    have := ih _ u t' (h.step hm.1 hs) (hm.2 u hs) hr
    simp only [dispatches, hs]
    rwa [← Nat.add_assoc]

end Runs

/-! ## Where the count starts -/

section Start

variable {t t' u : Ptable} {p r : Slot} {a : Act}

/-- A slot just filled is at the start of the schedule. -/
theorem pushed_charge (hk : Ranged false none t) (h : pushqueue (embryo t p) 0 p = .ok u) :
    (u.proc p).charge = schedule 0 := by
  obtain ⟨hs, -, hl⟩ := pushqueue_shifts h
  have hlevel : ((embryo t p).queue 0).level = 0 := hk.qlevel 0
  have htq := hs.tq
  have hpr := hs.priority
  simp only [embryo, Ptable.updProc_proc, if_true] at htq hpr
  simp [Proc.charge, schedule, hl, hlevel, htq, hpr]

/-- A turn of the boost on `p`, and one on another process. -/
theorem clearProc_charge (h : clearProc t p = .ok t') :
    (∀ q, (t'.queue q).level = (t.queue q).level) ∧
      ((t.proc p).state ≠ .UNUSED → (t.queue 0).level = 0 → (t'.proc p).charge = schedule 0) ∧
      ∀ r, r ≠ p → (t'.proc r).rank = (t.proc r).rank := by
  unfold clearProc at h
  split at h
  · next hfree =>
    cases h
    exact ⟨fun _ => rfl, fun hu => absurd hfree hu, fun _ _ => rfl⟩
  · obtain ⟨u, h1, h2⟩ := bind_ok h
    obtain ⟨hs1, -, -⟩ := erasequeue_shifts h1
    obtain ⟨hs2, -, hl⟩ := pushqueue_shifts h2
    refine ⟨fun q => (hs2.qlevel q).trans (hs1.qlevel q), fun _ h0 => ?_, fun r hr => ?_⟩
    · have htq := hs2.tq.trans hs1.tq
      have hpr := hs2.priority.trans hs1.priority
      have hlevel : (u.queue 0).level = 0 := (hs1.qlevel 0).trans h0
      simp only [Ptable.updProc_proc, if_true] at htq hpr
      simp [Proc.charge, schedule, hl, hlevel, htq, hpr]
    · rw [hs2.other r hr, hs1.other r hr]
      simp [hr]

/-- What a boost has cleared stays cleared. -/
theorem boostPass_charge (h0 : (t.queue 0).level = 0) (hp : (t.proc p).state ≠ .UNUSED)
    (h : boostPass t = .ok t') : (t'.queue 0).level = 0 ∧ (t'.proc p).charge = schedule 0 := by
  have hfold : ∀ (l : List Slot) (t : Ptable), (t.queue 0).level = 0 → (t.proc p).state ≠ .UNUSED →
      (p ∈ l ∨ (t.proc p).charge = schedule 0) → l.foldlM clearProc t = .ok t' →
      (t'.queue 0).level = 0 ∧ (t'.proc p).charge = schedule 0 := by
    intro l
    induction l with
    | nil =>
      intro t h0 _ hp h
      cases h
      exact ⟨h0, hp.resolve_left (by simp)⟩
    | cons s l ih =>
      intro t h0 hu hp h
      rw [List.foldlM_cons] at h
      obtain ⟨u, h1, h2⟩ := bind_ok h
      obtain ⟨hq, hself, hother⟩ := clearProc_charge h1
      have hst : (u.proc p).state = (t.proc p).state := (clearProc_ids h1).state p
      refine ih u ((hq 0).trans h0) (hst ▸ hu) ?_ h2
      by_cases hps : p = s
      · subst hps
        exact .inr (hself hu h0)
      · rcases hp with hp | hp
        · exact .inl ((List.mem_cons.mp hp).resolve_left hps)
        · exact .inr ((charge_of_rank (hother p hps)).trans hp)
  exact hfold _ t h0 hp (.inl (List.mem_finRange p)) h

theorem boostPriority_charge (h0 : (t.queue 0).level = 0) (hp : (t.proc p).state ≠ .UNUSED)
    (h : boostPriority t = .ok t') : (t'.proc p).charge = schedule 0 := by
  rw [boostPriority_loop] at h
  obtain ⟨u, h1, h2⟩ := bind_ok h
  obtain ⟨h3, h4⟩ := boostPass_charge (p := p) (t := { t with ticks := 0, lockpid := 0 }) h0 hp h1
  have hu : (u.proc p).state ≠ .UNUSED := by
    rw [(boostPass_ids h1).state p]
    exact hp
  -- the passes after the first find it cleared, and clear it again
  have hloop : ∀ (n : Nat) (u : Ptable), (u.queue 0).level = 0 → (u.proc p).state ≠ .UNUSED →
      (u.proc p).charge = schedule 0 → boostLoop n u = .ok t' → (t'.proc p).charge = schedule 0 := by
    intro n
    induction n with
    | zero =>
      intro u _ _ hc h
      cases h
      exact hc
    | succ n ih =>
      intro u h0 hu hc h
      obtain ⟨v, h1, h2⟩ := bind_ok h
      obtain ⟨h3, h4⟩ := boostPass_charge h0 hu h1
      refine ih v h3 ?_ h4 h2
      rw [(boostPass_ids h1).state p]
      exact hu
  exact hloop 63 u h3 hu h4 h2

theorem Starts.onSchedule (hk : Ranged false none t) (ha : Starts p t a) (hs : step t a = some t') :
    OnSchedule 0 p t' := by
  refine ⟨hk.step (fun h => by cases h) hs, .inr (.inl ?_)⟩
  have he := step_exec hs
  cases a with
  | userinit =>
    simp only [exec] at he
    split at he
    · obtain ⟨⟨o, u⟩, h1, h2⟩ := bind_ok he
      rcases allocproc_push h1 with ⟨-, hn, -⟩ | ⟨s, rfl, hfree, hpush⟩
      · rw [ha] at hn
        cases hn
      · cases Option.some.inj (ha.symm.trans hfree)
        cases h2
        simpa [Proc.charge] using pushed_charge hk hpush
    · cases he
  | allocproc c =>
    obtain ⟨-, he⟩ := byProc_ok he
    cases hr : allocproc t with
    | error e => rw [hr] at he; cases he
    | ok x =>
      obtain ⟨o, u⟩ := x
      rw [hr] at he
      cases he
      rcases allocproc_push hr with ⟨-, hn, -⟩ | ⟨s, -, hfree, hpush⟩
      · rw [ha] at hn
        cases hn
      · cases Option.some.inj (ha.symm.trans hfree)
        exact pushed_charge hk hpush
  | boostPriority => exact boostPriority_charge (hk.qlevel 0) ha he
  | _ => exact absurd ha id

end Start

/-- In every run from the creation of a process or a boost on, in which the process is
not disturbed, it has right after its `k`-th dispatch the level, charge and priority of
`schedule k`. -/
theorem demotion_schedule {as bs : List Act} {a : Act} {s t₀ t t' : Ptable} {p : Slot}
    (hr : Lib.run step pinit as = some s) (ha : Starts p s a) (hs : step s a = some t₀)
    (hm : Lib.Meets step (Undisturbed p) t₀ bs) (hb : Lib.run step t₀ bs = some t)
    (hd : step t .dispatch = some t') (h1 : (t.proc p).state ≠ .RUNNING)
    (h2 : (t'.proc p).state = .RUNNING) :
    ((t'.proc p).level, (t'.proc p).tq, (t'.proc p).priority) =
      schedule (dispatches p t₀ bs + 1) := by
  have hk : Ranged false none s :=
    Lib.run_inv_all (fun _ _ _ h hs => h.step (fun hk => by cases hk) hs) Ranged.pinit hr
  have h0 := ha.onSchedule hk hs
  have ht := OnSchedule.run bs 0 t₀ t h0 hm hb
  have := ht.dispatched hd h1 h2
  rwa [Nat.zero_add] at this

/-- Four ticks of the first process, each given back. -/
def fourTicks : List Act := (List.replicate 4 [.dispatch, .yield 0]).flatten

theorem demotion_schedule_fourTicks : ∃ t₀ t t', step pinit .userinit = some t₀ ∧
    Lib.run step t₀ fourTicks = some t ∧ step t .dispatch = some t' ∧
    ((t'.proc 0).level, (t'.proc 0).tq, (t'.proc 0).priority) = schedule 5 := by
  have hrun : (step pinit .userinit).any (fun t₀ =>
      decide (Lib.Meets step (Undisturbed 0) t₀ fourTicks ∧ dispatches 0 t₀ fourTicks = 4) &&
        (Lib.run step t₀ fourTicks).any (fun t => decide ((t.proc 0).state ≠ .RUNNING) &&
          (step t .dispatch).any (fun t' => decide ((t'.proc 0).state = .RUNNING)))) := by
    decide +kernel
  obtain ⟨t₀, hs, h⟩ := (Option.any_eq_true _ _).mp hrun
  obtain ⟨hmd, h⟩ := Bool.and_eq_true_iff.mp h
  obtain ⟨hm, hd⟩ := of_decide_eq_true hmd
  obtain ⟨t, hb, h⟩ := (Option.any_eq_true _ _).mp h
  obtain ⟨h1, h⟩ := Bool.and_eq_true_iff.mp h
  obtain ⟨t', ht', h2⟩ := (Option.any_eq_true _ _).mp h
  have hstart : Starts 0 pinit .userinit := by decide +kernel
  have hr : Lib.run step pinit [] = some pinit := rfl
  have := demotion_schedule hr hstart hs hm hb ht' (of_decide_eq_true h1)
    (of_decide_eq_true h2)
  rw [hd] at this
  exact ⟨t₀, t, t', hs, hb, ht', this⟩

end Xv6.Mlfq
