import Xv6.Mlfq.Demotion
import Xv6.Mlfq.Select

/- Round robin within L0 and within L1. A process that has been dispatched from one of
   them is at its back, so nothing that is there stands behind it; and as processes
   enter a queue at the back only (`schedulerUnlock` apart), a process `q` of the queue
   stays before it until `q` itself is moved. The scheduler takes the first RUNNABLE
   process of a queue, so it comes to `q` first.

   What the calls of `queue.c` do to the lists is stated from their success
   (`Linked.erased`, `Linked.pushed`), and `Stable` collects what a property of the
   lists has to survive. That the queues represent lists at all is the instance
   without a condition (`run_linked`), and holds in every run, failed forks and boosts
   included; `Ahead` is the instance the round robin rests on. -/
namespace Xv6.Mlfq

section Lists

variable {t t' : Ptable} {L : QIdx → List Slot} {p s : Slot} {k : QIdx}

theorem Linked.walk (h : Linked t L) (k : QIdx) :
    Lib.walk t.next NPROC (frontqueue t k) = some (L k) := by
  rw [frontqueue, h.front]
  exact Lib.walk_seg (L k) none NPROC (h.length_le k) (h.seg k)

/-- The queues represent lists with the property `P`. -/
def Tracked (P : (QIdx → List Slot) → Prop) (t : Ptable) : Prop := ∃ L, Linked t L ∧ P L

/-- Taking a process other than `q` out of its list, and appending one to a list, keeps
the property. -/
structure Stable (P : (QIdx → List Slot) → Prop) (q : Option Slot) : Prop where
  erase : ∀ L s, some s ≠ q → P L → P (fun k => (L k).erase s)
  push : ∀ L k s, P L → P (Function.update L k (L k ++ [s]))

section Tracking

variable {P : (QIdx → List Slot) → Prop} {q : Option Slot} {u : Ptable}

theorem Tracked.congr (h : Tracked P t) (hq : t'.queue = t.queue)
    (hl : ∀ r, (t'.proc r).links = (t.proc r).links) : Tracked P t' := by
  obtain ⟨L, hL, hP⟩ := h
  exact ⟨L, hL.congr hq hl, hP⟩

theorem Tracked.updProc (h : Tracked P t) (r : Slot) {f : Proc → Proc}
    (hf : ∀ x, (f x).links = x.links) : Tracked P (t.updProc r f) :=
  h.congr rfl (fun s => updProc_keep t r s Proc.links hf)

theorem Tracked.erase (h : Tracked P t) (hP : Stable P q) (hs : some s ≠ q) {x : Option QIdx}
    (he : erasequeue t x s = .ok t') : Tracked P t' := by
  obtain ⟨L, hL, hPL⟩ := h
  exact ⟨_, hL.erased he, hP.erase L s hs hPL⟩

theorem Tracked.push (h : Tracked P t) (hP : Stable P q) (he : pushqueue t k s = .ok t') :
    Tracked P t' := by
  obtain ⟨L, hL, hPL⟩ := h
  exact ⟨_, hL.pushed he, hP.push L k s hPL⟩

theorem Tracked.expire (h : Tracked P t) (hP : Stable P q) (hs : some s ≠ q)
    (he : expireTimeQuantum t s = .ok t') : Tracked P t' := by
  have h0 : Tracked P (t.updProc s (fun x => { x with tq := 0 })) := h.updProc s (fun _ => rfl)
  unfold expireTimeQuantum at he
  simp only at he
  split at he
  · split at he
    · cases he
    · obtain ⟨u, h1, h2⟩ := bind_ok he
      split at h2
      · exact (h0.erase hP hs h1).push hP h2
      · cases h2
  · split at he <;> cases he
    · exact h0
    · exact h0.updProc s (fun _ => rfl)

theorem Tracked.picks {l : List Slot} {r : Option Slot} (hpick : Picks t l r t') (hP : Stable P q)
    (h : Tracked P t) (hl : ∀ s ∈ l, some s ≠ q) : Tracked P t' := by
  have hsame : ∀ {t u : Ptable} {r : Option Slot}, getProcessToRun t = .ok (r, u) → Tracked P t →
      Tracked P u := by
    intro t u r hg ht
    obtain ⟨h1, h2⟩ := getProcessToRun_same hg
    exact ht.congr h1 (fun s => by rw [h2])
  induction hpick with
  | idle hg => exact hsame hg h
  | settle s hg _ => exact hsame hg h
  | expire s hg _ he _ ih =>
    refine ih ((hsame hg h).expire hP (hl s (by simp)) he) (fun r hr => hl r (by simp [hr]))

theorem Tracked.runProc (h : Tracked P t) (hP : Stable P q) (hs : some s ≠ q)
    (he : runProc t s = .ok t') : Tracked P t' := by
  obtain ⟨u, h1, h2⟩ := bind_ok he
  cases h2
  have h0 : Tracked P (t.updProc s (fun x => { x with tq := x.tq + 1 })) := h.updProc s (fun _ => rfl)
  have hround : Tracked P u := by
    unfold roundRobin at h1
    split at h1
    · split at h1
      · exact h0.erase hP hs h1
      · obtain ⟨v, h3, h4⟩ := bind_ok h1
        exact (h0.erase hP hs h3).push hP h4
    · cases h1
      exact h0
  exact hround.updProc s (fun _ => rfl)

theorem Tracked.create (h : Tracked P t) (hP : Stable P q) (hu : pushqueue (embryo t s) 0 s = .ok u)
    (hq : t'.queue = u.queue)
    (hproc : ∀ r, t'.proc r = u.proc r ∨ r = s ∧ t'.proc r = { u.proc r with state := .RUNNABLE }) :
    Tracked P t' := by
  obtain ⟨L, hL, hPL⟩ := h
  have hemb : Linked (embryo t s) L :=
    embryo_linked hL (pushed_unlinked hu) (fun _ => by rfl) (t.nextpid + 1)
  refine (Tracked.push ⟨L, hemb, hPL⟩ hP hu).congr hq (fun r => ?_)
  rcases hproc r with h1 | ⟨-, h1⟩ <;> rw [h1]
  rfl

/-- An action that does not take `q` out of its queue, and neither boosts nor unlocks. -/
theorem Tracked.effect {a : Act} (h : Tracked P t) (hP : Stable P q) (he : Effect t a t')
    (hb : a ≠ .boostPriority) (hl : t.lockpid = 0) (hd : a ≠ .dispatch)
    (hexp : ∀ s, a = .expireTimeQuantum s → some s ≠ q)
    (hlev : ∀ pid level s, a = .setLevel pid level → getProc t pid = some s → some s ≠ q)
    (hz : ∀ s, some s = q → (t.proc s).state ≠ .ZOMBIE) : Tracked P t' := by
  cases he with
  | quiet hq => exact h.congr hq.queue hq.links
  | create s ha hfree hu hq hp hproc => exact h.create hP hu hq hproc
  | @reap u c s hs hu =>
    have hsq : some s ≠ q := fun he => hz s he hs
    exact (h.erase hP hsq hu).updProc s (fun _ => rfl)
  | front c ha hlock hc hu hv => exact absurd hl hlock
  | relevel pid level s k hs hu ht =>
    exact (h.erase hP (hlev pid level s rfl hs) hu).push hP ht
  | dispatch h => exact absurd rfl hd
  | expire s hs he => exact h.expire hP (hexp s rfl) he
  | boost h => exact absurd rfl hb

end Tracking

end Lists

/-! ## The queues represent lists in every run -/

section Represented

variable {t t' : Ptable}

theorem stable_true : Stable (fun _ => True) none := ⟨fun _ _ _ _ => trivial, fun _ _ _ _ => trivial⟩

theorem boost_linked (h : Tracked (fun _ => True) t) (hb : boostPriority t = .ok t') :
    Tracked (fun _ => True) t' := by
  have hturn : ∀ (t t' : Ptable) (p : Slot), Tracked (fun _ => True) t → clearProc t p = .ok t' →
      Tracked (fun _ => True) t' := by
    intro t t' p h hc
    unfold clearProc at hc
    split at hc
    · cases hc
      exact h
    · obtain ⟨u, h1, h2⟩ := bind_ok hc
      have h0 : Tracked (fun _ => True) (t.updProc p (fun x => { x with priority := 3, tq := 0 })) :=
        h.updProc p (fun _ => rfl)
      exact (h0.erase stable_true (by simp) h1).push stable_true h2
  have hpass : ∀ (l : List Slot) (t : Ptable), Tracked (fun _ => True) t →
      ∀ t', l.foldlM clearProc t = .ok t' → Tracked (fun _ => True) t' := by
    intro l
    induction l with
    | nil =>
      intro t h t' hf
      cases hf
      exact h
    | cons p l ih =>
      intro t h t' hf
      rw [List.foldlM_cons] at hf
      obtain ⟨u, h1, h2⟩ := bind_ok hf
      exact ih u (hturn t u p h h1) t' h2
  have hloop : ∀ (n : Nat) (t : Ptable), Tracked (fun _ => True) t → boostLoop n t = .ok t' →
      Tracked (fun _ => True) t' := by
    intro n
    induction n with
    | zero =>
      intro t h hl
      cases hl
      exact h
    | succ n ih =>
      intro t h hl
      obtain ⟨u, h1, h2⟩ := bind_ok hl
      exact ih u (hpass _ t h u h1) h2
  rw [boostPriority_loop] at hb
  exact hloop NPROC { t with ticks := 0, lockpid := 0 } (h.congr rfl (fun _ => rfl)) hb

theorem step_linked {a : Act} (h : Tracked (fun _ => True) t) (hs : step t a = some t') :
    Tracked (fun _ => True) t' := by
  have hany : ∀ s : Slot, some s ≠ none := by simp
  cases exec_effect (step_exec hs) with
  | @front a u v c ha hl hc hu hv =>
    obtain ⟨L, hL, -⟩ := h.erase stable_true (hany c) hu
    have hv' : Tracked (fun _ => True) v := ⟨_, hL.pushedFront hv, trivial⟩
    have hw := hv'.updProc c (f := fun x => { x with priority := 3, tq := 0 }) (fun _ => rfl)
    exact hw.congr rfl (fun _ => rfl)
  | dispatch hd =>
    obtain ⟨l, r, u, hpick, ⟨-, rfl⟩ | ⟨s, rfl, hrun⟩⟩ := dispatch_picks hd
    · exact Tracked.picks hpick stable_true h (fun s _ => hany s)
    · exact (Tracked.picks hpick stable_true h (fun s _ => hany s)).runProc stable_true (hany s) hrun
  | boost hb => exact boost_linked h hb
  | quiet hq => exact h.congr hq.queue hq.links
  | create s ha hfree hu hq hp hproc => exact h.create stable_true hu hq hproc
  | reap c s hs hu => exact (h.erase stable_true (hany s) hu).updProc s (fun _ => rfl)
  | relevel pid level s k hs hu ht => exact (h.erase stable_true (hany s) hu).push stable_true ht
  | expire s hs he => exact h.expire stable_true (hany s) he

theorem run_linked {as : List Act} (hr : Lib.run step pinit as = some t) : ∃ L, Linked t L := by
  have hboot : Tracked (fun _ => True) pinit := by
    obtain ⟨⟨L, hL⟩, -⟩ := pinit_inv
    exact ⟨L, hL, trivial⟩
  obtain ⟨L, hL, -⟩ := Lib.run_inv_all (fun _ _ _ h hs => step_linked h hs) hboot hr
  exact ⟨L, hL⟩

end Represented

/-! ## Who stands before whom -/

/-- `q` is in queue `i`, and `p` is not before it. -/
def Ahead (i : QIdx) (q p : Slot) (L : QIdx → List Slot) : Prop :=
  ∃ a b, L i = a ++ q :: b ∧ p ∉ a

section Ahead

variable {t t' u : Ptable} {L : QIdx → List Slot} {i : QIdx} {p q s : Slot}

theorem ahead_stable (i : QIdx) (q p : Slot) : Stable (Ahead i q p) (some q) := by
  refine ⟨fun L s hs h => ?_, fun L k s h => ?_⟩
  · obtain ⟨a, b, hL, hp⟩ := h
    have hsq : s ≠ q := fun he => hs (by rw [he])
    by_cases hsa : s ∈ a
    · refine ⟨a.erase s, b, ?_, fun hm => hp (List.mem_of_mem_erase hm)⟩
      show (L i).erase s = _
      rw [hL, List.erase_append_left _ hsa]
    · refine ⟨a, b.erase s, ?_, hp⟩
      show (L i).erase s = _
      rw [hL, List.erase_append_right _ hsa, List.erase_cons_tail (by simpa using hsq.symm)]
  · obtain ⟨a, b, hL, hp⟩ := h
    by_cases hk : i = k
    · subst hk
      exact ⟨a, b ++ [s], by simp [hL], hp⟩
    · exact ⟨a, b, by rw [Function.update_of_ne hk, hL], hp⟩

/-- The first RUNNABLE process of its queue is before every other one there. -/
theorem Ahead.not_chosen (h : Ahead i q p L) (hL : Linked t L) (hi : i ≠ 2) (hpq : q ≠ p)
    (hq : (t.proc q).state = .RUNNABLE) (hp : p ∈ L i) : ¬ Chosen t L p := by
  rintro ⟨-, k, c, d, hk, -, hfirst, -⟩
  have hki : k = i := hL.mem_unique (by simp [hk]) hp
  subst hki
  obtain ⟨a, b, ha, hpa⟩ := h
  have hi' : k.val ≠ 2 := fun he => hi (Fin.ext he)
  have hqc : q ∉ c := fun hm => hfirst hi' q hm hq
  -- both splits are of one list: the shorter front part decides
  rcases List.append_eq_append_iff.mp (ha.symm.trans hk) with ⟨e, he, hqe⟩ | ⟨e, he, hpe⟩
  · cases e with
    | nil =>
      simp only [List.nil_append, List.cons.injEq] at hqe
      exact hpq hqe.1
    | cons x xs =>
      simp only [List.cons_append, List.cons.injEq] at hqe
      exact hqc (by simp [he, hqe.1])
  · cases e with
    | nil =>
      simp only [List.nil_append, List.cons.injEq] at hpe
      exact hpq hpe.1.symm
    | cons x xs =>
      simp only [List.cons_append, List.cons.injEq] at hpe
      exact hpa (by simp [he, hpe.1])

/-- With the scheduler not locked the choice is the one of the three walks. -/
theorem getProcessToRun_chosen_linked (hL : Linked t L) (hl : t.lockpid = 0)
    (h : getProcessToRun t = .ok (some p, t')) : Chosen t L p ∧ t' = t := by
  obtain ⟨r, hr, hsome, -⟩ := pickQueues_walk hL.walk
  simp only [getProcessToRun, hl, if_true, hr] at h
  cases h
  exact ⟨hsome p rfl, rfl⟩

/-- The inner loop does not settle on a process of the queue before it has come to `q`. -/
theorem Picks.comes_to {l : List Slot} (h : Picks t l (some p) t') (hl : t.lockpid = 0)
    (ht : Tracked (Ahead i q p) t) (hi : i ≠ 2) (hpq : q ≠ p) (hq : (t.proc q).state = .RUNNABLE)
    (hp : (t'.proc p).queue = some i) : q ∈ l := by
  generalize ho : some p = o at h
  induction h with
  | idle h => cases ho
  | settle s h _ =>
    cases ho
    obtain ⟨L, hL, ha⟩ := ht
    obtain ⟨hc, rfl⟩ := getProcessToRun_chosen_linked hL hl h
    exact absurd hc (ha.not_chosen hL hi hpq hq ((hL.mem i p).mpr hp))
  | @expire t u v t' l o s h hs he _ ih =>
    obtain ⟨L, hL, ha⟩ := ht
    obtain ⟨-, rfl⟩ := getProcessToRun_chosen_linked hL hl h
    by_cases hsq : s = q
    · simp [hsq]
    · have hv : Tracked (Ahead i q p) v :=
        Tracked.expire ⟨L, hL, ha⟩ (ahead_stable i q p) (by simpa using hsq) he
      have hids := expireTimeQuantum_ids he
      exact List.mem_cons_of_mem s (ih (hids.lockpid.trans hl) hv ((hids.state q).trans hq) hp ho)

end Ahead

/-! ## Between two dispatches -/

/-- The processes `getProcessToRun` returns in the inner loop of `scheduler`, in order. -/
def selected : Nat → Ptable → List Slot
  | 0, _ => []
  | n + 1, t =>
    match getProcessToRun t with
    | .ok (some p, t) =>
      if (t.proc p).tq = getTimeQuantum (t.proc p).level then
        match expireTimeQuantum t p with
        | .ok t => p :: selected n t
        | .error _ => [p]
      else [p]
    | _ => []

/-- In the state `t`, the action `a` selects `q`: `getProcessToRun` returns it, to be
dispatched or demoted. -/
def Selects (q : Slot) (t : Ptable) (a : Act) : Prop :=
  (a = .dispatch ∧ q ∈ selected (NPROC + 1) t) ∨ a = .expireTimeQuantum q

/-- Some action of the run selects `q`. -/
def SelectedIn (q : Slot) : Ptable → List Act → Prop
  | _, [] => False
  | t, a :: as => Selects q t a ∨ ∃ t', step t a = some t' ∧ SelectedIn q t' as

/-- The scheduler is not locked, and the action is no boost and no `setLevel` for `q`. An
unlocking has no effect then. -/
def Plain (q : Slot) (t : Ptable) (a : Act) : Prop :=
  t.lockpid = 0 ∧ a ≠ .boostPriority ∧ ∀ pid level, a = .setLevel pid level → getProc t pid ≠ some q

section Between

variable {t t' u : Ptable} {L : QIdx → List Slot} {i : QIdx} {p q s : Slot} {a : Act}

theorem selected_picks : ∀ (n : Nat) (t t' : Ptable) (r : Option Slot), pickLoop n t = .ok (r, t') →
    ∃ l, Picks t l r t' ∧ selected n t = l ++ r.toList := by
  intro n
  induction n with
  | zero => intro t t' r h; cases h
  | succ n ih =>
    intro t t' r h
    obtain ⟨⟨x, u⟩, h1, h2⟩ := bind_ok h
    cases x with
    | none =>
      cases h2
      exact ⟨[], .idle h1, by simp [selected, h1]⟩
    | some p =>
      simp only at h2
      split at h2
      · next hq =>
        obtain ⟨v, h3, h4⟩ := bind_ok h2
        obtain ⟨l, hl, hsel⟩ := ih v t' r h4
        exact ⟨p :: l, .expire p h1 hq h3 hl, by simp [selected, h1, hq, h3, hsel]⟩
      · next hq =>
        cases h2
        exact ⟨[], .settle p h1 hq, by simp [selected, h1, hq]⟩

/-- A round of the scheduler, with the processes it has selected. -/
theorem dispatch_selected (h : dispatch t = .ok t') :
    ∃ l r u, Picks t l r u ∧ selected (NPROC + 1) t = l ++ r.toList ∧
      ((r = none ∧ t' = u) ∨ ∃ p, r = some p ∧ runProc u p = .ok t') := by
  obtain ⟨⟨r, u⟩, h1, h2⟩ := bind_ok h
  obtain ⟨l, hl, hsel⟩ := selected_picks _ t u r h1
  cases r with
  | none =>
    cases h2
    exact ⟨l, none, t', hl, hsel, .inl ⟨rfl, rfl⟩⟩
  | some p => exact ⟨l, some p, u, hl, hsel, .inr ⟨p, rfl, h2⟩⟩

theorem Picks.state {l : List Slot} {r : Option Slot} (h : Picks t l r t') (s : Slot) :
    (t'.proc s).state = (t.proc s).state := by
  induction h with
  | idle h => rw [(getProcessToRun_same h).2]
  | settle p h _ => rw [(getProcessToRun_same h).2]
  | expire p h _ he _ ih => rw [ih, (expireTimeQuantum_ids he).state s, (getProcessToRun_same h).2]

/-- A process that a round dispatches is the one it settles on. -/
theorem dispatched_pick (h : dispatch t = .ok t') (h1 : (t.proc p).state ≠ .RUNNING)
    (h2 : (t'.proc p).state = .RUNNING) : ∃ l u, Picks t l (some p) u ∧ runProc u p = .ok t' ∧
      selected (NPROC + 1) t = l ++ [p] := by
  obtain ⟨l, r, u, hpick, hsel, ⟨-, rfl⟩ | ⟨s, rfl, hrun⟩⟩ := dispatch_selected h
  · rw [hpick.state p] at h2
    exact absurd h2 h1
  · by_cases hps : p = s
    · subst hps
      exact ⟨l, u, hpick, hrun, hsel⟩
    · have hst : (t'.proc p).state = (u.proc p).state := congrArg Prod.fst (runProc_other hrun hps)
      rw [hst, hpick.state p] at h2
      exact absurd h2 h1

/-- The switch leaves the process in its queue. -/
theorem runProc_queue (h : runProc t p = .ok t') : (t'.proc p).queue = (t.proc p).queue := by
  obtain ⟨u, h1, h2⟩ := bind_ok h
  cases h2
  have hround : (u.proc p).queue = (t.proc p).queue := by
    unfold roundRobin at h1
    split at h1
    · split at h1
      · next hq =>
        obtain ⟨-, h3, -⟩ := erasequeue_shifts h1
        rw [h3]
        simpa using hq.symm
      · next tmp hq =>
        obtain ⟨v, h3, h4⟩ := bind_ok h1
        rw [(pushqueue_shifts h4).2.1]
        simpa using hq.symm
    · cases h1
      simp
  simpa using hround

/-- A process dispatched from L0 or L1 is at the back of its queue: everything else there
is ahead of it. -/
theorem runProc_back (hL : Linked t L) (h : runProc t p = .ok t') (hi : i ≠ 2) (hpq : q ≠ p)
    (hp : (t.proc p).queue = some i) (hq : q ∈ L i) : Tracked (Ahead i q p) t' := by
  obtain ⟨u, h1, h2⟩ := bind_ok h
  cases h2
  refine Tracked.updProc ?_ p (fun _ => rfl)
  have h0 : Linked (t.updProc p (fun x => { x with tq := x.tq + 1 })) L :=
    hL.congr rfl (fun r => updProc_keep t p r Proc.links (fun _ => rfl))
  have hlevel : (t.proc p).level = (i.val : Int) := hL.level i p hp
  have hlt : (t.proc p).level < ((NQUEUE : Nat) : Int) - 1 := by
    have h3 : ((NQUEUE : Nat) : Int) - 1 = 2 := rfl
    have hval : i.val ≠ 2 := fun hv => hi (Fin.ext hv)
    have := i.isLt
    have h4 : NQUEUE = 3 := rfl
    omega
  unfold roundRobin at h1
  simp only [Ptable.updProc_proc, if_true, hp, if_pos hlt] at h1
  obtain ⟨v, h3, h4⟩ := bind_ok h1
  have hv := h0.erased h3
  have hu := hv.pushed h4
  have hqi : q ∈ (L i).erase p := (List.mem_erase_of_ne hpq).mpr hq
  obtain ⟨a, b, hab⟩ := List.append_of_mem hqi
  have hlist : (Function.update (fun k => (L k).erase p) i ((L i).erase p ++ [p])) i =
      a ++ q :: (b ++ [p]) := by
    rw [Function.update_self, hab]
    simp
  refine ⟨_, hu, a, b ++ [p], hlist, fun hm => ?_⟩
  have hpe : p ∈ (L i).erase p := by simp [hab, hm]
  exact ((List.Nodup.mem_erase_iff (hL.nodup i)).mp hpe).1 rfl

/-- One step: `q` is selected, or still RUNNABLE and ahead of `p`. -/
theorem ahead_step (ht : Tracked (Ahead i q p) t) (hq : (t.proc q).state = .RUNNABLE)
    (ha : Plain q t a) (hs : step t a = some t') :
    Selects q t a ∨ (Tracked (Ahead i q p) t' ∧ (t'.proc q).state = .RUNNABLE) := by
  obtain ⟨hl, hb, hlev⟩ := ha
  have he := exec_effect (step_exec hs)
  by_cases hsel : Selects q t a
  · exact .inl hsel
  right
  by_cases hd : a = .dispatch
  · subst hd
    obtain ⟨l, r, u, hpick, hlist, hrest⟩ := dispatch_selected (step_exec hs)
    have hql : q ∉ l ++ r.toList := fun hm => hsel (.inl ⟨rfl, hlist ▸ hm⟩)
    have hu : Tracked (Ahead i q p) u := by
      refine Tracked.picks hpick (ahead_stable i q p) ht (fun s hsl he => hql ?_)
      cases he
      simp [hsl]
    rcases hrest with ⟨-, rfl⟩ | ⟨s, rfl, hrun⟩
    · exact ⟨hu, (hpick.state q).trans hq⟩
    · have hqs : q ≠ s := fun he => hql (by simp [he])
      refine ⟨hu.runProc (ahead_stable i q p) (by simpa using hqs.symm) hrun, ?_⟩
      have hst : (t'.proc q).state = (u.proc q).state := congrArg Prod.fst (runProc_other hrun hqs)
      rw [hst, hpick.state q, hq]
  · refine ⟨ht.effect (ahead_stable i q p) he hb hl hd (fun s hs hsq => ?_) (fun pid level s hs hg hsq => ?_)
      (fun s hsq hz => ?_), ?_⟩
    · cases hsq
      exact hsel (.inr hs)
    · cases hsq
      exact hlev pid level hs hg
    · cases hsq
      rw [hq] at hz
      cases hz
    · cases he with
      | quiet h => exact h.runnable q hq
      | @create a u t' s ha hfree hu hqq hp hproc =>
        have hqs : q ≠ s := by
          intro hqs
          have := freeSlot_unused hfree
          rw [← hqs, hq] at this
          cases this
        rcases hproc q with h1 | ⟨h1, -⟩
        · rw [h1, (pushed_other hu hqs).1, hq]
        · exact absurd h1 hqs
      | @reap u c s hz hu =>
        have hqs : q ≠ s := by
          intro hqs
          rw [← hqs, hq] at hz
          cases hz
        simpa [hqs] using (erased_other hu hqs).1.trans hq
      | front c ha hlock hc hu hv => exact absurd hl hlock
      | @relevel u t' pid level s k hs hu ht =>
        rw [(pushqueue_ids ht).state q, (erasequeue_ids hu).state q, hq]
      | dispatch h => exact absurd rfl hd
      | expire s hs h => rw [(expireTimeQuantum_ids h).state q, hq]
      | boost h => exact absurd rfl hb

/-- A run up to a dispatch of `p` from queue `i` selects `q`. -/
theorem ahead_run (hi : i ≠ 2) (hpq : q ≠ p) : ∀ (bs : List Act) (t t₂ t₃ : Ptable),
    Tracked (Ahead i q p) t → (t.proc q).state = .RUNNABLE →
    Lib.Meets step (Plain q) t (bs ++ [.dispatch]) → Lib.run step t bs = some t₂ →
    step t₂ .dispatch = some t₃ → (t₂.proc p).state ≠ .RUNNING → (t₃.proc p).state = .RUNNING →
    (t₃.proc p).queue = some i → SelectedIn q t (bs ++ [.dispatch]) := by
  intro bs
  induction bs with
  | nil =>
    intro t t₂ t₃ ht hq hm hr hd h1 h2 h3
    cases hr
    obtain ⟨l, u, hpick, hrun, hsel⟩ := dispatched_pick (step_exec hd) h1 h2
    have hpu : (u.proc p).queue = some i := (runProc_queue hrun).symm.trans h3
    have hql : q ∈ l := hpick.comes_to hm.1.1 ht hi hpq hq hpu
    exact .inl (.inl ⟨rfl, by simp [hsel, hql]⟩)
  | cons a bs ih =>
    intro t t₂ t₃ ht hq hm hr hd h1 h2 h3
    obtain ⟨u, hs, hr⟩ := Lib.run_cons hr
    rcases ahead_step ht hq hm.1 hs with hsel | ⟨hu, hqu⟩
    · exact .inl hsel
    · exact .inr ⟨u, hs, ih u t₂ t₃ hu hqu (hm.2 u hs) hr hd h1 h2 h3⟩

end Between

/-- Between two dispatches of `p` from queue `i`, one of L0 and L1, every other process
that was in that queue and RUNNABLE at the first of them is selected, in every run in
which the scheduler is not locked, nothing is boosted and the process is given no
level. -/
theorem round_robin {as bs : List Act} {t₀ t₁ t₂ t₃ : Ptable} {i : QIdx} {p q : Slot}
    (hr : Lib.run step pinit as = some t₀) (hi : i.val < 2) (hpq : q ≠ p)
    (hd₁ : step t₀ .dispatch = some t₁) (h₀ : (t₀.proc p).state ≠ .RUNNING)
    (h₁ : (t₁.proc p).state = .RUNNING) (hp₁ : (t₁.proc p).queue = some i)
    (hq : (t₁.proc q).queue = some i) (hqr : (t₁.proc q).state = .RUNNABLE)
    (hm : Lib.Meets step (Plain q) t₁ (bs ++ [.dispatch])) (hb : Lib.run step t₁ bs = some t₂)
    (hd₂ : step t₂ .dispatch = some t₃) (h₂ : (t₂.proc p).state ≠ .RUNNING)
    (h₃ : (t₃.proc p).state = .RUNNING) (hp₃ : (t₃.proc p).queue = some i) :
    SelectedIn q t₁ (bs ++ [.dispatch]) := by
  have hi2 : i ≠ 2 := by
    rintro rfl
    exact absurd hi (Nat.lt_irrefl 2)
  obtain ⟨L₀, hL₀⟩ := run_linked hr
  obtain ⟨l, u, hpick, hrun, -⟩ := dispatched_pick (step_exec hd₁) h₀ h₁
  obtain ⟨L, hL, -⟩ := Tracked.picks hpick stable_true ⟨L₀, hL₀, trivial⟩ (by simp)
  have hpu : (u.proc p).queue = some i := (runProc_queue hrun).symm.trans hp₁
  have hqu : (u.proc q).queue = some i := by
    have hrank := runProc_other hrun hpq
    simp only [Proc.rank, Prod.mk.injEq] at hrank
    exact hrank.2.1.symm.trans hq
  have hahead := runProc_back hL hrun hi2 hpq hpu ((hL.mem i q).mpr hqu)
  exact ahead_run hi2 hpq bs t₁ t₂ t₃ hahead hqr hm hb hd₂ h₂ h₃ hp₃

instance Plain.decidable (q : Slot) (t : Ptable) (a : Act) : Decidable (Plain q t a) :=
  match a with
  | .setLevel pid level =>
    decidable_of_iff (t.lockpid = 0 ∧ getProc t pid ≠ some q)
      ⟨fun h => ⟨h.1, by simp, fun pid' level' he => by cases he; exact h.2⟩,
        fun h => ⟨h.1, h.2.2 pid level rfl⟩⟩
  | .boostPriority => .isFalse (fun h => h.2.1 rfl)
  | .userinit | .allocproc _ | .forkFinish _ _ | .forkFail _ | .exitUnlock _ | .exitTail _ | .wait _
  | .dispatch | .expireTimeQuantum _ | .unlockSched | .setPriority _ _ | .schedulerLock _ _
  | .schedulerUnlock _ _ | .sleep _ _ | .wakeup _ | .kill _ | .yield _ =>
    decidable_of_iff (t.lockpid = 0) ⟨fun h => ⟨h, by simp, by simp⟩, fun h => h.1⟩

/-- Two processes on L0, the first one about to run. -/
def twoOnL0 : List Act := [.userinit, .dispatch, .allocproc 0, .forkFinish 0 1, .yield 0]

/-- The two take turns. -/
def takeTurns : List Act := [.yield 0, .dispatch, .yield 1]

theorem round_robin_takeTurns : ∃ t₀ t₁, Lib.run step pinit twoOnL0 = some t₀ ∧
    step t₀ .dispatch = some t₁ ∧ SelectedIn 1 t₁ (takeTurns ++ [.dispatch]) := by
  have hrun : (Lib.run step pinit twoOnL0).any (fun t₀ => decide ((t₀.proc 0).state ≠ .RUNNING) &&
      (step t₀ .dispatch).any (fun t₁ =>
        decide ((t₁.proc 0).state = .RUNNING ∧ (t₁.proc 0).queue = some 0 ∧
          (t₁.proc 1).queue = some 0 ∧ (t₁.proc 1).state = .RUNNABLE) &&
        (decide (Lib.Meets step (Plain 1) t₁ (takeTurns ++ [.dispatch])) &&
        (Lib.run step t₁ takeTurns).any (fun t₂ => decide ((t₂.proc 0).state ≠ .RUNNING) &&
          (step t₂ .dispatch).any (fun t₃ =>
            decide ((t₃.proc 0).state = .RUNNING ∧ (t₃.proc 0).queue = some 0)))))) := by
    decide +kernel
  obtain ⟨t₀, hr, h⟩ := (Option.any_eq_true _ _).mp hrun
  obtain ⟨h₀, h⟩ := Bool.and_eq_true_iff.mp h
  obtain ⟨t₁, hd₁, h⟩ := (Option.any_eq_true _ _).mp h
  obtain ⟨h₁, h⟩ := Bool.and_eq_true_iff.mp h
  obtain ⟨hs₁, hp₁, hq, hqr⟩ := of_decide_eq_true h₁
  obtain ⟨hm, h⟩ := Bool.and_eq_true_iff.mp h
  obtain ⟨t₂, hb, h⟩ := (Option.any_eq_true _ _).mp h
  obtain ⟨h₂, h⟩ := Bool.and_eq_true_iff.mp h
  obtain ⟨t₃, hd₂, h₃⟩ := (Option.any_eq_true _ _).mp h
  obtain ⟨hs₃, hp₃⟩ := of_decide_eq_true h₃
  exact ⟨t₀, t₁, hr, hd₁, round_robin hr (by decide) (by decide) hd₁ (of_decide_eq_true h₀) hs₁ hp₁
    hq hqr (of_decide_eq_true hm) hb hd₂ (of_decide_eq_true h₂) hs₃ hp₃⟩

end Xv6.Mlfq
