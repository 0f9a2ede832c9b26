import Xv6.Mlfq.ForkFail
import Xv6.Mlfq.Membership

/- The inner loop of `scheduler` ends (`project1_scheduler/proc.c`): a process whose
   quantum is used up starts a new one before it is looked at again, so every round
   but the last takes one process out of `spent`. A round moves that process to
   another queue or changes its priority, and with it the next choice; what it does
   not touch is the state and the quantum of any other process (`Live.expire`). -/
namespace Xv6.Mlfq

/-- Every process in use is on a queue, and if the scheduler is locked, it is locked
by a process in use. -/
structure Live (t : Ptable) : Prop where
  linked : ∃ L, Linked t L
  used : UsedLinked t
  lock : t.lockpid = 0 ∨ ∃ p, (t.proc p).state ≠ .UNUSED ∧ (t.proc p).pid = t.lockpid

section Loop

variable {t t' : Ptable} {L : QIdx → List Slot} {p : Slot}

theorem getProc_used {pid : Int} (h : (t.proc p).state ≠ .UNUSED) (hp : (t.proc p).pid = pid) :
    ∃ r, getProc t pid = some r := by
  apply Option.isSome_iff_exists.mp
  apply List.find?_isSome.mpr
  exact ⟨p, List.mem_finRange p, by simp [hp, h]⟩

/-- `getProcessToRun` returns; it may unlock the scheduler and changes nothing else. -/
theorem Live.choose (h : Live t) : ∃ r t', getProcessToRun t = .ok (r, t') ∧ t'.proc = t.proc ∧
    Live t' ∧ ∀ p, r = some p → (t'.proc p).state = .RUNNABLE := by
  obtain ⟨L, hL⟩ := h.linked
  by_cases hl : t.lockpid = 0
  · obtain ⟨r, hr, hrun⟩ := hL.pick
    refine ⟨r, t, ?_, rfl, h, hrun⟩
    rw [getProcessToRun, if_pos hl, hr]
    rfl
  · obtain ⟨p, hp, hpid⟩ := h.lock.resolve_left hl
    obtain ⟨r, hget⟩ := getProc_used hp hpid
    by_cases hrun : (t.proc r).state = .RUNNABLE
    · refine ⟨some r, t, ?_, rfl, h, fun p hp => ?_⟩
      · rw [getProcessToRun, if_neg hl, hget]
        simp only [hrun, if_true]
      · cases hp
        exact hrun
    · -- the process that holds the scheduler lock cannot run
      have hL' : Linked { t with lockpid := 0 } L := hL.congr rfl (fun _ => rfl)
      obtain ⟨x, hx, hxrun⟩ := hL'.pick
      refine ⟨x, { t with lockpid := 0 }, ?_, rfl, ⟨⟨L, hL'⟩, h.used, .inl rfl⟩, hxrun⟩
      have hunlock : schedulerUnlock t none PASSWORD = .ok { t with lockpid := 0 } := by
        rw [schedulerUnlock, if_neg (fun hne => hne rfl), if_neg hl]
      rw [getProcessToRun, if_neg hl, hget]
      simp only [hrun, if_false, hunlock]
      show (pickQueues { t with lockpid := 0 } >>= fun _ => _) = _
      rw [hx]
      rfl

/-- What expiring the quantum of `p` leaves. -/
structure Refilled (t t' : Ptable) (p : Slot) : Prop where
  live : Live t'
  state : ∀ r, (t'.proc r).state = (t.proc r).state
  own : (t'.proc p).tq = 0
  level : ∃ q : QIdx, (t'.proc p).level = (q.val : Int)
  other : ∀ r, r ≠ p → (t.proc r).state ≠ .UNUSED →
    (t'.proc r).tq = (t.proc r).tq ∧ (t'.proc r).level = (t.proc r).level

/-- A write to one process that touches neither its links nor its state nor its pid. -/
theorem Live.updProc (h : Live t) (p : Slot) {f : Proc → Proc} (hl : ∀ x, (f x).links = x.links)
    (hs : ∀ x, (f x).state = x.state) (hi : ∀ x, (f x).pid = x.pid) : Live (t.updProc p f) := by
  obtain ⟨L, hL⟩ := h.linked
  have hq : ∀ x, (f x).queue = x.queue := fun x => congrArg Prod.fst (hl x)
  constructor
  · refine ⟨L, hL.congr rfl (fun r => ?_)⟩
    exact updProc_keep t p r Proc.links hl
  · intro r hr
    rw [updProc_keep t p r Proc.state hs] at hr
    rw [updProc_keep t p r Proc.queue hq]
    exact h.used r hr
  · rcases h.lock with hz | ⟨r, hr, hpid⟩
    · exact .inl hz
    · refine .inr ⟨r, ?_, ?_⟩
      · rwa [updProc_keep t p r Proc.state hs]
      · rw [updProc_keep t p r Proc.pid hi]
        exact hpid

/-- A process in use is put on another queue; the other processes stay on theirs. -/
theorem Live.relink (h : Live t) (hL : Linked t L) (hq : (t.proc p).queue = some q) (k : QIdx) :
    ∃ t₁ t', erasequeue t (some q) p = .ok t₁ ∧ pushqueue t₁ k p = .ok t' ∧ Live t' ∧
      SameCore t t' ∧ (t'.proc p).level = (k.val : Int) ∧
      ∀ r, r ≠ p → (t.proc r).state ≠ .UNUSED → (t'.proc r).level = (t.proc r).level := by
  obtain ⟨t₁, he, hL₁, hc₁, hn⟩ := erasequeue_linked hL hq
  obtain ⟨t', hpush, hL', hc'⟩ := pushqueue_linked (q := k) hL₁ hn
  have hc : SameCore t t' := hc₁.trans hc'
  have hown : (t'.proc p).queue = some k := (hL'.mem k p).mp (by simp)
  have hkeep : ∀ r, r ≠ p → (t'.proc r).queue = (t.proc r).queue := by
    intro r hr
    have h₁ : (t₁.proc r).queue = (t.proc r).queue :=
      hL.queue_update hL₁ (by simp [List.mem_erase_of_ne hr])
    have h₂ : (t'.proc r).queue = (t₁.proc r).queue := hL₁.queue_update hL' (by simp [hr])
    exact h₂.trans h₁
  have hpid : ∀ r, (t'.proc r).pid = (t.proc r).pid := fun r =>
    congrArg (fun x => x.2.1) (hc.core r)
  refine ⟨t₁, t', he, hpush, ⟨⟨_, hL'⟩, fun r hr => ?_, ?_⟩, hc, hL'.level k p hown, fun r hr hs => ?_⟩
  · rw [hc.state r] at hr
    by_cases hrp : r = p
    · subst hrp
      rw [hown]
      exact Option.some_ne_none k
    · rw [hkeep r hrp]
      exact h.used r hr
  · rw [hc.lockpid]
    rcases h.lock with hz | ⟨r, hr, hr'⟩
    · exact .inl hz
    · exact .inr ⟨r, by rwa [hc.state r], by rwa [hpid r]⟩
  · obtain ⟨j, hj⟩ := Option.ne_none_iff_exists'.mp (h.used r hs)
    have hj' : (t'.proc r).queue = some j := (hkeep r hr).trans hj
    rw [hL'.level j r hj', hL.level j r hj]

/-- Expiring a quantum returns: to the next queue from L0 and L1, and on L2 to a lower
priority. -/
theorem Live.expire (h : Live t) (hp : (t.proc p).state ≠ .UNUSED) :
    ∃ t', expireTimeQuantum t p = .ok t' ∧ Refilled t t' p := by
  let u := t.updProc p (fun x => { x with tq := 0 })
  have hu : Live u := h.updProc p (fun _ => rfl) (fun _ => rfl) (fun _ => rfl)
  have hustate : ∀ r, (u.proc r).state = (t.proc r).state := fun r =>
    updProc_keep t p r Proc.state (fun _ => rfl)
  have hulevel : ∀ r, (u.proc r).level = (t.proc r).level := fun r =>
    updProc_keep t p r Proc.level (fun _ => rfl)
  have hutq : ∀ r, r ≠ p → (u.proc r).tq = (t.proc r).tq := by
    intro r hr
    simp only [u, Ptable.updProc_proc, if_neg hr]
  have huown : (u.proc p).tq = 0 := by
    simp only [u, Ptable.updProc_proc, if_true]
  have hp' : (u.proc p).state ≠ .UNUSED := by rwa [hustate p]
  obtain ⟨L, hL⟩ := hu.linked
  obtain ⟨q, hq⟩ := Option.ne_none_iff_exists'.mp (hu.used p hp')
  have hlev : (u.proc p).level = (q.val : Int) := hL.level q p hq
  by_cases hlt : (u.proc p).level < NQUEUE - 1
  · -- L0 and L1: on to the next queue
    have hnext : q.val + 1 < NQUEUE := by
      rw [hlev] at hlt
      omega
    obtain ⟨t₁, t', he, hpush, hlive, hc, hlevel, hother⟩ := hu.relink hL hq ⟨q.val + 1, hnext⟩
    refine ⟨t', ?_, hlive, fun r => ?_, ?_, ⟨_, hlevel⟩, fun r hr hs => ⟨?_, ?_⟩⟩
    · show (if (u.proc p).level < NQUEUE - 1 then _ else _) = _
      rw [if_pos hlt, hq]
      show (erasequeue u (some q) p >>= fun _ => _) = _
      rw [he]
      show (if h : q.val + 1 < NQUEUE then _ else _) = _
      rw [dif_pos hnext]
      exact hpush
    · rw [hc.state r]
      exact hustate r
    · rw [hc.tq p]
      exact huown
    · rw [hc.tq r]
      exact hutq r hr
    · rw [hother r hr (by rwa [hustate r])]
      exact hulevel r
  · -- L2: one priority less, down to 0
    by_cases hz : (u.proc p).priority = 0
    · refine ⟨u, ?_, hu, hustate, huown, ⟨q, hlev⟩, fun r hr _ => ⟨hutq r hr, hulevel r⟩⟩
      show (if (u.proc p).level < NQUEUE - 1 then _ else _) = _
      rw [if_neg hlt, if_pos hz]
    · let v := u.updProc p (fun x => { x with priority := x.priority - 1 })
      have hvstate : ∀ r, (v.proc r).state = (u.proc r).state := fun r =>
        updProc_keep u p r Proc.state (fun _ => rfl)
      have hvlevel : ∀ r, (v.proc r).level = (u.proc r).level := fun r =>
        updProc_keep u p r Proc.level (fun _ => rfl)
      have hvtq : ∀ r, (v.proc r).tq = (u.proc r).tq := fun r =>
        updProc_keep u p r Proc.tq (fun _ => rfl)
      have hv : Live v := hu.updProc p (fun _ => rfl) (fun _ => rfl) (fun _ => rfl)
      refine ⟨v, ?_, hv, fun r => (hvstate r).trans (hustate r), (hvtq p).trans huown,
        ⟨q, (hvlevel p).trans hlev⟩,
        fun r hr _ => ⟨(hvtq r).trans (hutq r hr), (hvlevel r).trans (hulevel r)⟩⟩
      show (if (u.proc p).level < NQUEUE - 1 then _ else _) = _
      rw [if_neg hlt, if_neg hz]

/-- Expiring takes the process out of `spent` and puts none in. -/
theorem Refilled.spent_lt (h : Refilled t t' p) (hp : p ∈ spent t) :
    (spent t').card < (spent t).card :=
  Mlfq.spent_lt hp h.state h.own h.level h.other

/-- With one more round than there are processes to expire, the loop ends. -/
theorem Live.pickLoop : ∀ (k : Nat) (t : Ptable), Live t → (spent t).card = k →
    ∃ r t', (∀ n, k < n → pickLoop n t = .ok (r, t')) ∧
      ∀ p, r = some p → (t'.proc p).state = .RUNNABLE ∧
        (t'.proc p).tq ≠ getTimeQuantum (t'.proc p).level := by
  intro k
  induction k using Nat.strong_induction_on with
  | _ k ih =>
    intro t h hk
    obtain ⟨r, t₁, hget, hproc, h₁, hrun⟩ := h.choose
    have hsame : spent t₁ = spent t := by
      simp only [spent, hproc]
    cases r with
    | none =>
      -- no process to run: the loop stops in its first round
      refine ⟨none, t₁, fun n hn => ?_, fun p hp => by cases hp⟩
      obtain ⟨m, rfl⟩ : ∃ m, n = m + 1 := ⟨n - 1, by omega⟩
      show (getProcessToRun t >>= fun _ => _) = _
      rw [hget]
      rfl
    | some p =>
      have hp : (t₁.proc p).state = .RUNNABLE := hrun p rfl
      by_cases htq : (t₁.proc p).tq = getTimeQuantum (t₁.proc p).level
      -- `p` has used up its quantum; the rounds that are left suffice for the others
      · have hmem : p ∈ spent t₁ := Finset.mem_filter.mpr ⟨Finset.mem_univ p, hp, htq⟩
        obtain ⟨t₂, hexp, h₂⟩ := h₁.expire (p := p) (by simp [hp])
        have hlt : (spent t₂).card < k := by
          have := h₂.spent_lt hmem
          rw [hsame, hk] at this
          exact this
        obtain ⟨r, t', hend, hres⟩ := ih _ hlt t₂ h₂.live rfl
        refine ⟨r, t', fun n hn => ?_, hres⟩
        obtain ⟨m, rfl⟩ : ∃ m, n = m + 1 := ⟨n - 1, by omega⟩
        show (getProcessToRun t >>= fun _ => _) = _
        rw [hget]
        show (if (t₁.proc p).tq = getTimeQuantum (t₁.proc p).level then _ else _) = _
        rw [if_pos htq]
        show (expireTimeQuantum t₁ p >>= fun _ => _) = _
        rw [hexp]
        exact hend m (by omega)
      -- `p` is picked
      · refine ⟨some p, t₁, fun n hn => ?_, fun x hx => by cases hx; exact ⟨hp, htq⟩⟩
        obtain ⟨m, rfl⟩ : ∃ m, n = m + 1 := ⟨n - 1, by omega⟩
        show (getProcessToRun t >>= fun _ => _) = _
        rw [hget]
        show (if (t₁.proc p).tq = getTimeQuantum (t₁.proc p).level then _ else _) = _
        rw [if_neg htq]

end Loop

/-- The inner loop of `scheduler` ends within one round more than there are RUNNABLE
processes with a used up quantum, and leaves with none or with a RUNNABLE process that
has some of its quantum left. -/
theorem pickLoop_ends (t : Ptable) (hL : ∃ L, Linked t L) (hu : UsedLinked t)
    (hl : t.lockpid = 0 ∨ ∃ p, (t.proc p).state ≠ .UNUSED ∧ (t.proc p).pid = t.lockpid) :
    ∃ r t', (∀ n, (spent t).card < n → pickLoop n t = .ok (r, t')) ∧
      ∀ p, r = some p → (t'.proc p).state = .RUNNABLE ∧
        (t'.proc p).tq ≠ getTimeQuantum (t'.proc p).level :=
  Live.pickLoop _ t ⟨hL, hu, hl⟩ rfl

/-- One process on L0 that has run for its four ticks and holds the scheduler lock. -/
theorem pickLoop_ends_locked : ∃ t,
    pushqueue { pinit.updProc 3 (fun x => { x with state := .RUNNABLE, pid := 1, tq := 4 }) with
      lockpid := 1 } 0 3 = .ok t ∧ 3 ∈ spent t ∧
    ∃ r t', (∀ n, (spent t).card < n → pickLoop n t = .ok (r, t')) ∧
      ∀ p, r = some p → (t'.proc p).state = .RUNNABLE ∧
        (t'.proc p).tq ≠ getTimeQuantum (t'.proc p).level := by
  obtain ⟨L, hL⟩ := pinit_inv.1
  have hone : Linked { pinit.updProc 3 (fun x => { x with state := .RUNNABLE, pid := 1, tq := 4 }) with
      lockpid := 1 } L :=
    hL.congr rfl (updProc_keep pinit 3 · Proc.links (f := fun x =>
      { x with state := .RUNNABLE, pid := 1, tq := 4 }) (fun _ => rfl))
  refine ⟨_, rfl, Finset.mem_filter.mpr ⟨Finset.mem_univ 3, rfl, rfl⟩, ?_⟩
  apply pickLoop_ends
  · exact ⟨_, hone.pushed (q := 0) (p := 3) rfl⟩
  · intro p hp
    by_cases hp3 : p = 3
    · subst hp3
      exact Option.some_ne_none 0
    · refine absurd ?_ hp
      simp [Ptable.clearLinks, pinit, hp3]
  · refine .inr ⟨3, ?_, rfl⟩
    intro hs
    cases hs

end Xv6.Mlfq
