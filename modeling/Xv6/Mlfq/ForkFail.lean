import Xv6.Mlfq.Effect

/- A `fork` that fails half way. `allocproc` has put the slot on L0 by then, and the
   failure paths of `allocproc` and `fork` only write the state back. So the slot
   ends free and linked (`Stuck`), no action takes it out of its queue again, and
   every later `allocproc` that comes to it panics in `pushqueue`.

   `Keeps` is what the calls that relink processes have in common: they free no
   slot and fill none, and what was on a queue is on a queue. -/
namespace Xv6.Mlfq

structure Keeps (t t' : Ptable) : Prop where
  unused : ∀ r, (t'.proc r).state = .UNUSED ↔ (t.proc r).state = .UNUSED
  linked : ∀ r, (t.proc r).queue ≠ none → (t'.proc r).queue ≠ none

section Relinking

variable {t t' u : Ptable} {p : Slot} {q : QIdx}

theorem Keeps.refl (t : Ptable) : Keeps t t := ⟨fun _ => Iff.rfl, fun _ => id⟩

theorem Keeps.trans (h : Keeps t u) (h' : Keeps u t') : Keeps t t' :=
  ⟨fun r => (h'.unused r).trans (h.unused r), fun r hr => h'.linked r (h.linked r hr)⟩

theorem Keeps.same (h : t'.proc = t.proc) : Keeps t t' :=
  ⟨fun _ => by rw [h], fun _ hr => by rwa [h]⟩

theorem Keeps.updProc (t : Ptable) (p : Slot) {f : Proc → Proc} (hq : ∀ x, (f x).queue = x.queue)
    (hs : (f (t.proc p)).state = .UNUSED ↔ (t.proc p).state = .UNUSED) :
    Keeps t (t.updProc p f) := by
  refine ⟨fun r => ?_, fun r hr => ?_⟩
  · rw [Ptable.updProc_proc]
    split
    · next he => subst he; exact hs
    · rfl
  · rwa [updProc_keep t p r Proc.queue hq]

/-- `p` alone is relinked, and ends on a queue. -/
theorem Shifts.keeps (h : Shifts p t t') (hq : (t'.proc p).queue ≠ none) : Keeps t t' := by
  refine ⟨fun r => ?_, fun r hr => ?_⟩
  · by_cases he : r = p
    · rw [he, h.state]
    · have : (t'.proc r).state = (t.proc r).state := congrArg Prod.fst (h.other r he)
      rw [this]
  · by_cases he : r = p
    · exact he ▸ hq
    · have : (t'.proc r).queue = (t.proc r).queue := congrArg (fun x => x.2.1) (h.other r he)
      rwa [this]

theorem requeue_keeps {x : Option QIdx} (h : (erasequeue t x p >>= fun t => pushqueue t q p) = .ok t') :
    Keeps t t' := by
  obtain ⟨u, h1, h2⟩ := bind_ok h
  obtain ⟨hs, hq, -⟩ := pushqueue_shifts h2
  exact ((erasequeue_shifts h1).1.trans hs).keeps (by simp [hq])

theorem clearProc_keeps (h : clearProc t p = .ok t') : Keeps t t' := by
  unfold clearProc at h
  split at h
  · cases h
    exact .refl t
  · exact (Keeps.updProc t p (f := fun x => { x with priority := 3, tq := 0 }) (fun _ => rfl)
      Iff.rfl).trans (requeue_keeps h)

theorem boostPass_keeps (h : boostPass t = .ok t') : Keeps t t' := by
  have hfold : ∀ (l : List Slot) (t : Ptable), l.foldlM clearProc t = .ok t' → Keeps t t' := by
    intro l
    induction l with
    | nil =>
      intro t h
      cases h
      exact .refl t'
    | cons p l ih =>
      intro t h
      rw [List.foldlM_cons] at h
      obtain ⟨u, h1, h2⟩ := bind_ok h
      exact (clearProc_keeps h1).trans (ih u h2)
  exact hfold _ t h

theorem boostLoop_keeps : ∀ (n : Nat) (t : Ptable), boostLoop n t = .ok t' → Keeps t t' := by
  intro n
  induction n with
  | zero =>
    intro t h
    cases h
    exact .refl t'
  | succ n ih =>
    intro t h
    obtain ⟨u, h1, h2⟩ := bind_ok h
    exact (boostPass_keeps h1).trans (ih u h2)

theorem boostPriority_keeps (h : boostPriority t = .ok t') : Keeps t t' := by
  obtain ⟨u, h1, h2⟩ := bind_ok h
  have hu : u.proc = t.proc := by
    unfold boostUnlock schedulerUnlock at h1
    rw [if_neg (by simp : ¬PASSWORD ≠ PASSWORD)] at h1
    split at h1 <;> cases h1 <;> simp_all
  exact (Keeps.same hu).trans (boostLoop_keeps NPROC u h2)

theorem expireTimeQuantum_keeps (h : expireTimeQuantum t p = .ok t') : Keeps t t' := by
  have h0 : Keeps t (t.updProc p (fun x => { x with tq := 0 })) :=
    .updProc t p (fun _ => rfl) Iff.rfl
  unfold expireTimeQuantum at h
  simp only at h
  split at h
  · split at h
    · cases h
    · obtain ⟨u, h1, h2⟩ := bind_ok h
      split at h2
      · obtain ⟨hs, hq, -⟩ := pushqueue_shifts h2
        exact h0.trans (((erasequeue_shifts h1).1.trans hs).keeps (by simp [hq]))
      · cases h2
  · split at h <;> cases h
    · exact h0
    · exact h0.trans (.updProc _ p (fun _ => rfl) Iff.rfl)

theorem Picks.keeps {l : List Slot} {r : Option Slot} (h : Picks t l r t') : Keeps t t' := by
  induction h with
  | idle h => exact .same (getProcessToRun_same h).2
  | settle p h _ => exact .same (getProcessToRun_same h).2
  | expire p h _ he _ ih =>
    exact ((Keeps.same (getProcessToRun_same h).2).trans (expireTimeQuantum_keeps he)).trans ih

theorem runProc_keeps (hp : (t.proc p).state ≠ .UNUSED) (h : runProc t p = .ok t') : Keeps t t' := by
  obtain ⟨u, h1, h2⟩ := bind_ok h
  cases h2
  have h0 : Keeps t (t.updProc p (fun x => { x with tq := x.tq + 1 })) :=
    .updProc t p (fun _ => rfl) Iff.rfl
  have hround : Keeps (t.updProc p (fun x => { x with tq := x.tq + 1 })) u := by
    unfold roundRobin at h1
    split at h1
    · split at h1
      · unfold erasequeue at h1
        split at h1 <;> cases h1
        exact .refl _
      · exact requeue_keeps h1
    · cases h1
      exact .refl _
  have hu := h0.trans hround
  refine hu.trans (.updProc u p (fun _ => rfl) ⟨fun hs => ?_, fun hs => ?_⟩)
  · cases hs
  · exact absurd ((hu.unused p).mp hs) hp

theorem Picks.runnable {l : List Slot} {r : Option Slot} (h : Picks t l r t') :
    ∀ p, r = some p → (t'.proc p).state = .RUNNABLE := by
  induction h with
  | idle h => intro p hp; cases hp
  | settle s h _ => exact getProcessToRun_runnable h
  | expire _ _ _ _ _ ih => exact ih

theorem dispatch_keeps (h : dispatch t = .ok t') : Keeps t t' := by
  obtain ⟨l, r, u, hpick, ⟨-, rfl⟩ | ⟨p, rfl, hrun⟩⟩ := dispatch_picks h
  · exact hpick.keeps
  · exact hpick.keeps.trans (runProc_keeps (by simp [hpick.runnable p rfl]) hrun)

end Relinking

/-! ## Free slots and links over runs -/

/-- Every process in use is on a queue. Failed forks do not disturb this half of
`Member`. -/
def UsedLinked (t : Ptable) : Prop := ∀ p, (t.proc p).state ≠ .UNUSED → (t.proc p).queue ≠ none

/-- The slot is free, and still on a queue. -/
def Stuck (p : Slot) (t : Ptable) : Prop :=
  (t.proc p).state = .UNUSED ∧ (t.proc p).queue ≠ none

section Runs

variable {t t' u : Ptable} {p : Slot} {a : Act}

theorem UsedLinked.keeps (h : UsedLinked t) (hk : Keeps t t') : UsedLinked t' :=
  fun r hr => hk.linked r (h r (fun hu => hr ((hk.unused r).mpr hu)))

theorem Stuck.keeps (h : Stuck p t) (hk : Keeps t t') : Stuck p t' :=
  ⟨(hk.unused p).mpr h.1, hk.linked p h.2⟩

/-- The slots `allocproc` does not fill keep their state and their queue. -/
theorem pushed_other {r : Slot} (h : pushqueue (embryo t p) 0 p = .ok u) (hr : r ≠ p) :
    (u.proc r).state = (t.proc r).state ∧ (u.proc r).queue = (t.proc r).queue := by
  have hrank := (pushqueue_shifts h).1.other r hr
  simp only [Proc.rank, Prod.mk.injEq] at hrank
  simpa [embryo, hr] using And.intro hrank.1 hrank.2.1

/-- A slot that is on a queue cannot be filled. -/
theorem pushed_unlinked (h : pushqueue (embryo t p) 0 p = .ok u) : (t.proc p).queue = none := by
  have hq : ((embryo t p).proc p).queue = (t.proc p).queue := by simp [embryo]
  rw [← hq]
  exact pushed_none h

theorem erased_other {x : Option QIdx} {r : Slot} (h : erasequeue t x p = .ok u) (hr : r ≠ p) :
    (u.proc r).state = (t.proc r).state ∧ (u.proc r).queue = (t.proc r).queue := by
  have hrank := (erasequeue_shifts h).1.other r hr
  simp only [Proc.rank, Prod.mk.injEq] at hrank
  exact ⟨hrank.1, hrank.2.1⟩

/-- The effects other than creating, reaping and failing free no slot, fill none and
leave everything linked that was. -/
theorem Effect.cases_keeps (h : Effect t a t') :
    Quiet t a t' ∨
    (∃ s u, (a = .userinit ∨ ∃ c, a = .allocproc c) ∧ freeSlot t = some s ∧ pushqueue (embryo t s) 0 s = .ok u ∧
      (t'.proc s).state ≠ .UNUSED ∧ ∀ r, (t'.proc r).queue = (u.proc r).queue ∧
        (r ≠ s → (t'.proc r).state = (u.proc r).state)) ∨
    (∃ s u, (t.proc s).state = .ZOMBIE ∧ erasequeue t (t.proc s).queue s = .ok u ∧
      (t'.proc s).state = .UNUSED ∧ ∀ r, r ≠ s → t'.proc r = u.proc r) ∨ Keeps t t' := by
  cases h with
  | quiet h => exact .inl h
  | @create a u t' s ha hfree hu hq hp hproc =>
    refine .inr (.inl ⟨s, u, ha, hfree, hu, hp, fun r => ?_⟩)
    rcases hproc r with h1 | ⟨h1, h2⟩
    · rw [h1]
      exact ⟨rfl, fun _ => rfl⟩
    · rw [h2]
      exact ⟨rfl, fun hr => absurd h1 hr⟩
  | @reap u c s hz hu =>
    exact .inr (.inr (.inl ⟨s, u, hz, hu, by simp, fun r hr => by simp [hr]⟩))
  | @front a u v c ha hl hc hu hv =>
    obtain ⟨hs, hq, -⟩ := pushfrontqueue_shifts hv
    have hfront : Keeps t v := ((erasequeue_shifts hu).1.trans hs).keeps (by simp [hq])
    have hclear : Keeps v (v.updProc c (fun x => { x with priority := 3, tq := 0 })) :=
      .updProc v c (fun _ => rfl) Iff.rfl
    exact .inr (.inr (.inr ((hfront.trans hclear).trans (.same (by rfl)))))
  | @relevel u t' pid level s q hp hu ht =>
    obtain ⟨hs, hq, -⟩ := pushqueue_shifts ht
    exact .inr (.inr (.inr (((erasequeue_shifts hu).1.trans hs).keeps (by simp [hq]))))
  | dispatch h => exact .inr (.inr (.inr (dispatch_keeps h)))
  | expire s hs h => exact .inr (.inr (.inr (expireTimeQuantum_keeps h)))
  | boost h => exact .inr (.inr (.inr (boostPriority_keeps h)))

theorem Quiet.linked (h : Quiet t a t') (r : Slot) : (t'.proc r).queue = (t.proc r).queue :=
  congrArg Prod.fst (h.links r)

theorem UsedLinked.step (h : UsedLinked t) (hs : step t a = some t') : UsedLinked t' := by
  rcases (exec_effect (step_exec hs)).cases_keeps with hq | ⟨s, u, -, -, hu, -, hproc⟩ |
      ⟨s, u, -, hu, hfree, hproc⟩ | hk
  · intro r hr
    rw [hq.linked r]
    exact h r (fun hu => hr (hq.unused r hu))
  · intro r hr
    rw [(hproc r).1]
    by_cases he : r = s
    · rw [he, (pushqueue_shifts hu).2.1]
      simp
    · obtain ⟨h1, h2⟩ := pushed_other hu he
      rw [h2]
      refine h r (fun hx => hr ?_)
      rw [(hproc r).2 he, h1]
      exact hx
  · intro r hr
    have he : r ≠ s := fun he => hr (he ▸ hfree)
    obtain ⟨h1, h2⟩ := erased_other hu he
    rw [hproc r he] at hr ⊢
    rw [h2]
    exact h r (h1 ▸ hr)
  · exact h.keeps hk

theorem Stuck.step (h : Stuck p t) (hs : Mlfq.step t a = some t') : Stuck p t' := by
  obtain ⟨hp, hq⟩ := h
  rcases (exec_effect (step_exec hs)).cases_keeps with hk | ⟨s, u, -, -, hu, -, hproc⟩ |
      ⟨s, u, hz, hu, -, hproc⟩ | hk
  · exact ⟨hk.unused p hp, (hk.linked p).symm ▸ hq⟩
  · -- the slot that is filled is on no queue, so it is another one
    have he : p ≠ s := fun he => hq (he ▸ pushed_unlinked hu)
    obtain ⟨h1, h2⟩ := pushed_other hu he
    exact ⟨by rw [(hproc p).2 he, h1, hp], by rw [(hproc p).1, h2]; exact hq⟩
  · have he : p ≠ s := fun he => by rw [he, hz] at hp; cases hp
    obtain ⟨h1, h2⟩ := erased_other hu he
    rw [Stuck, hproc p he, h1, h2]
    exact ⟨hp, hq⟩
  · exact Stuck.keeps ⟨hp, hq⟩ hk

/-- `allocproc` cannot fill a stuck slot: it panics when it comes to it. -/
theorem Stuck.panics (h : Stuck p t)
    (hfirst : freeSlot t = some p) :
    allocproc t = .error (.panic "pushqueue") := by
  have hq : ((embryo t p).proc p).queue.isSome = true := by
    have : ((embryo t p).proc p).queue = (t.proc p).queue := by simp [embryo]
    rw [this]
    exact Option.isSome_iff_ne_none.mpr h.2
  have hpush : pushqueue (embryo t p) 0 p = .error (.panic "pushqueue") := by
    unfold pushqueue
    rw [if_pos hq]
  unfold allocproc
  rw [show firstSlot (fun s => (t.proc s).state == .UNUSED) = some p from hfirst]
  show (pushqueue (embryo t p) 0 p >>= fun t => .ok (some p, t)) = _
  rw [hpush]
  rfl

end Runs

/-- A failed fork leaves the scheduler intact: the slot `p` it tried is free and on
no queue, the queues are the lists they were in the state `t` before the call, and
in every later state an `allocproc` that comes to the slot fills it. -/
structure Intact (t : Ptable) (p : Slot) (t' : Ptable) : Prop where
  unused : (t'.proc p).state = .UNUSED
  unlinked : (t'.proc p).queue = none
  lists : ∀ L, Linked t L → Linked t' L
  later : ∀ cs u, Lib.run step t' cs = some u →
    freeSlot u = some p → ∃ u', allocproc u = .ok (some p, u') ∧ ∃ L, Linked u' L

/-- No failed fork leaves the scheduler intact, in whatever reachable state it was
begun and whatever happened before it failed: the slot ends on a queue, the queues
are not the lists they were, and every later `allocproc` that comes to the slot
panics. -/
theorem forkFail_never_intact {as bs : List Act} {t t₁ t₂ t₃ : Ptable} {p : Slot}
    (hr : Lib.run step pinit as = some t) (ha : allocproc t = .ok (some p, t₁))
    (hb : Lib.run step t₁ bs = some t₂) (hf : step t₂ (.forkFail p) = some t₃) :
    ¬ Intact t p t₃ ∧ (t₃.proc p).queue ≠ none ∧ (∀ L, Linked t L → ¬ Linked t₃ L) ∧
      ∀ cs u, Lib.run step t₃ cs = some u →
        freeSlot u = some p → allocproc u = .error (.panic "pushqueue") := by
  have hboot : UsedLinked pinit := fun r hr => absurd rfl hr
  have ht : UsedLinked t := Lib.run_inv_all (fun _ _ _ h hs => UsedLinked.step h hs) hboot hr
  rcases allocproc_push ha with ⟨hn, -⟩ | ⟨p', hp', -, hpush⟩
  · cases hn
  cases hp'
  have hnone : (t.proc p).queue = none := pushed_unlinked hpush
  have ht₁ : UsedLinked t₁ := by
    intro r hr
    by_cases he : r = p
    · rw [he, (pushqueue_shifts hpush).2.1]
      simp
    · obtain ⟨h1, h2⟩ := pushed_other hpush he
      rw [h2]
      exact ht r (h1 ▸ hr)
  have ht₂ : UsedLinked t₂ := Lib.run_inv_all (fun _ _ _ h hs => UsedLinked.step h hs) ht₁ hb
  -- the failure path writes the state only
  have hstuck : Stuck p t₃ := by
    have he := step_exec hf
    simp only [exec] at he
    split at he
    · next hs =>
      cases he
      exact ⟨by simp [forkFail], by simpa [forkFail] using ht₂ p (by simp [hs])⟩
    · cases he
  refine ⟨fun h => hstuck.2 h.unlinked, hstuck.2, fun L hL hL₃ => ?_, fun cs u hc hfirst => ?_⟩
  · obtain ⟨q, hq⟩ := Option.ne_none_iff_exists'.mp hstuck.2
    exact hL.not_mem hnone q ((hL₃.mem q p).mpr hq)
  · have hu : Stuck p u := Lib.run_inv_all (fun _ _ _ h hs => Stuck.step h hs) hstuck hc
    exact hu.panics hfirst

/-- The first process forks and the kernel stack of the child cannot be allocated:
slot 1 is free, on L0, and the next fork panics. -/
theorem failedFork_stuck : ∃ t t₁ t₃, Lib.run step pinit [.userinit, .dispatch] = some t ∧
    allocproc t = .ok (some 1, t₁) ∧ step t₁ (.forkFail 1) = some t₃ ∧
    (t₃.proc 1).state = .UNUSED ∧ (t₃.proc 1).queue = some 0 ∧
    exec t₃ (.allocproc 0) = .error (.panic "pushqueue") ∧ ¬ Intact t 1 t₃ := by
  have hrun : (Lib.run step pinit [.userinit, .dispatch]).any (fun t =>
      match allocproc t with
      | .ok (some p, t₁) => decide (p = 1) && (step t₁ (.forkFail 1)).any (fun t₃ =>
          decide ((t₃.proc 1).state = .UNUSED ∧ (t₃.proc 1).queue = some 0) &&
            match exec t₃ (.allocproc 0) with
            | .error e => decide (e = .panic "pushqueue")
            | .ok _ => false)
      | .ok (none, _) => false
      | .error _ => false) := by
    decide +kernel
  obtain ⟨t, hr, ht⟩ := (Option.any_eq_true _ _).mp hrun
  split at ht
  · next p t₁ ha =>
    obtain ⟨hp, ht⟩ := Bool.and_eq_true_iff.mp ht
    cases of_decide_eq_true hp
    obtain ⟨t₃, hf, ht⟩ := (Option.any_eq_true _ _).mp ht
    obtain ⟨h1, h2⟩ := Bool.and_eq_true_iff.mp ht
    obtain ⟨hs, hq⟩ := of_decide_eq_true h1
    refine ⟨t, t₁, t₃, hr, ha, hf, hs, hq, ?_, fun h => ?_⟩
    · split at h2
      · next e he =>
        rw [he, of_decide_eq_true h2]
      · cases h2
    · have := h.unlinked
      rw [hq] at this
      cases this
  · cases ht
  · cases ht

theorem forkFail_never_intact_failedFork : ∃ t t₁ t₃,
    Lib.run step pinit [.userinit, .dispatch] = some t ∧ allocproc t = .ok (some 1, t₁) ∧
    step t₁ (.forkFail 1) = some t₃ ∧ ¬ Intact t 1 t₃ := by
  have hrun : (Lib.run step pinit [.userinit, .dispatch]).any (fun t =>
      match allocproc t with
      | .ok (some p, t₁) => decide (p = 1) && (step t₁ (.forkFail 1)).isSome
      | .ok (none, _) => false
      | .error _ => false) := by
    decide +kernel
  obtain ⟨t, hr, ht⟩ := (Option.any_eq_true _ _).mp hrun
  split at ht
  · next p t₁ ha =>
    obtain ⟨hp, hf⟩ := Bool.and_eq_true_iff.mp ht
    cases of_decide_eq_true hp
    obtain ⟨t₃, hf⟩ := Option.isSome_iff_exists.mp hf
    have hb : Lib.run step t₁ [] = some t₁ := rfl
    exact ⟨t, t₁, t₃, hr, ha, hf, (forkFail_never_intact hr ha hb hf).1⟩
  · cases ht
  · cases ht

end Xv6.Mlfq
