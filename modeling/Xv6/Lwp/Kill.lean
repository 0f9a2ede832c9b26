import Xv6.Lwp.Init
import Xv6.Lwp.Records

/- `kill` of the LWP kernel (`project2_LWP/proc.c`). It sets `killed` and wakes
   one thread, `thread[thidx]`, the one that ran last. The process dies when one
   of its threads runs again, so some thread has to be left `RUNNABLE` or
   `RUNNING` (`Selectable`). That depends on what the last thread did: when it
   has exited and its siblings sleep, nothing is woken (`killsNobody`). A process
   is found by its pid, and no two processes share one (`PidInv`). -/
namespace Xv6.Lwp

/-- The scheduler can select a thread of the process, or one is running. -/
def Proc.Selectable (x : Proc) : Prop :=
  ∃ j, (x.thread j).state = .RUNNABLE ∨ (x.thread j).state = .RUNNING

/-- The thread that ran last sleeps, or some thread does not need to be woken. -/
def Proc.KillWakes (x : Proc) : Prop :=
  (x.thread x.thidx).state = .SLEEPING ∨ x.Selectable

theorem Proc.kill_killed (x : Proc) : x.kill.killed = true := by
  unfold Proc.kill
  split <;> rfl

theorem Proc.kill_selectable (x : Proc) : x.kill.Selectable ↔ x.KillWakes := by
  by_cases hs : (x.thread x.thidx).state = .SLEEPING
  · have hk : (x.kill.thread x.thidx).state = .RUNNABLE := by simp [Proc.kill, hs]
    exact ⟨fun _ => .inl hs, fun _ => ⟨x.thidx, .inl hk⟩⟩
  · have hk : x.kill.thread = x.thread := by simp [Proc.kill, hs]
    simp only [Proc.KillWakes, Proc.Selectable, hs, hk, false_or]

/-! ## Pids -/

/-- Every pid handed out is below `nextpid`, and no two processes have the same. -/
structure PidInv (m : Machine) : Prop where
  first : 1 ≤ m.nextpid
  fresh : ∀ p, (m.proc p).pid < m.nextpid
  distinct : ∀ p q, 0 < (m.proc p).pid → (m.proc q).pid = (m.proc p).pid → q = p

/-- No process has got another pid. -/
def SamePids (m m' : Machine) : Prop :=
  m'.nextpid = m.nextpid ∧ ∀ q, (m'.proc q).pid = (m.proc q).pid

section Rules

variable {m m' m'' : Machine} {c esp : Nat} {p np : Slot} {i : ThIdx}

theorem SamePids.trans (h : SamePids m m') (h' : SamePids m' m'') : SamePids m m'' :=
  ⟨h'.1.trans h.1, fun q => (h'.2 q).trans (h.2 q)⟩

theorem SamePids.of_proc (hn : m'.nextpid = m.nextpid) (hp : m'.proc = m.proc) : SamePids m m' :=
  ⟨hn, fun q => by rw [hp]⟩

theorem SamePids.setProc (m : Machine) (p : Slot) {x : Proc} (hx : x.pid = (m.proc p).pid) :
    SamePids m (m.setProc p x) := by
  refine ⟨rfl, fun q => ?_⟩
  by_cases hq : q = p
  · simp [Machine.setProc, hq, hx]
  · simp [Machine.setProc, hq]

theorem PidInv.same (h : PidInv m) (hs : SamePids m m') : PidInv m' := by
  refine ⟨hs.1 ▸ h.first, fun q => ?_, fun q r hq hr => ?_⟩
  · rw [hs.1, hs.2 q]
    exact h.fresh q
  · rw [hs.2 q] at hq hr
    rw [hs.2 r] at hr
    exact h.distinct q r hq hr

theorem SamePids.wakeup1 (m : Machine) (chan : Option Chan) : SamePids m (m.wakeup1 chan) := by
  refine ⟨rfl, fun q => ?_⟩
  show (Machine.wakeProc chan (m.proc q)).pid = (m.proc q).pid
  unfold Machine.wakeProc
  split <;> rfl

theorem SamePids.sched (m : Machine) (c : Nat) (p : Slot) (i : ThIdx) (esp : Nat) :
    SamePids m (m.sched c p i esp) :=
  SamePids.setProc m p rfl

theorem SamePids.sleep (m : Machine) (c : Nat) (p : Slot) (i : ThIdx) (ch : Chan) (rs : Resume)
    (esp : Nat) : SamePids m (m.sleep c p i ch rs esp) := by
  have h1 : SamePids m
      ((m.setProc p ((m.proc p).sleep ch)).setKth p i { m.kth p i with resume := rs }) :=
    SamePids.setProc m p rfl
  exact h1.trans (.sched _ c p i esp)

theorem SamePids.abandon (m : Machine) (p : Slot) : SamePids m (m.abandon p) := by
  have hadopt : ∀ (w : Machine), SamePids w
      { w with proc := fun q => Machine.adopt m.initproc p (w.proc q) } := by
    intro w
    refine ⟨rfl, fun q => ?_⟩
    show (Machine.adopt m.initproc p (w.proc q)).pid = (w.proc q).pid
    unfold Machine.adopt
    split <;> rfl
  have h1 : SamePids m (m.wakeup1 ((m.proc p).parent.map .proc)) := .wakeup1 _ _
  simp only [Machine.abandon]
  split
  · exact (h1.trans (hadopt _)).trans (.wakeup1 _ _)
  · exact h1.trans (hadopt _)

theorem SamePids.exitEnd (m : Machine) (c : Nat) (p : Slot) (i : ThIdx) (esp : Nat) :
    SamePids m (m.exitEnd c p i esp) := by
  have h1 : SamePids m ((m.acquire c).abandon p) := SamePids.abandon (m.acquire c) p
  have h2 := h1.trans (SamePids.setProc ((m.acquire c).abandon p) p
    (x := { ((m.acquire c).abandon p).proc p with state := .ZOMBIE }) rfl)
  exact h2.trans (SamePids.sched ((((m.acquire c).abandon p).setProc p _).setPc p i .dead) c p i esp)

theorem Proc.threadExit_pid (x : Proc) (v : Nat) : (x.threadExit v).pid = x.pid := by
  unfold Proc.threadExit
  split <;> rfl

theorem SamePids.threadExit (m : Machine) (c : Nat) (p : Slot) (i : ThIdx) (v esp : Nat) :
    SamePids m (m.threadExit c p i v esp) := by
  have h1 : SamePids m ((m.acquire c).leaveThread p i v) := by
    have h2 : SamePids m (((m.acquire c).setProc p ((m.proc p).threadExit v)).setKth p i
        { m.kth p i with resume := .threadExit, exit := some m.exits.length }) :=
      SamePids.setProc m p (Proc.threadExit_pid _ v)
    exact (h2.trans (.wakeup1 _ _)).trans (SamePids.setProc _ p rfl)
  exact h1.trans (SamePids.sched ((m.acquire c).leaveThread p i v) c p i esp)

theorem PidInv.waitLoop (h : PidInv m) (c : Nat) (p : Slot) (i : ThIdx) (esp : Nat) :
    PidInv (m.waitLoop c p i esp) := by
  unfold Machine.waitLoop
  split
  · -- the slot that is reaped has pid 0, which is nobody's
    rename_i r _
    have hpid : ∀ q, ((m.setProc r (m.proc r).reap).proc q).pid =
        if q = r then 0 else (m.proc q).pid := by
      intro q
      by_cases hq : q = r
      · simp [Machine.setProc, hq, Proc.reap]
      · simp [Machine.setProc, hq]
    refine ⟨h.first, fun q => ?_, fun q s hq hs => ?_⟩
    · show ((m.setProc r (m.proc r).reap).proc q).pid < m.nextpid
      rw [hpid q]
      split
      · have := h.first; omega
      · exact h.fresh q
    · change 0 < ((m.setProc r (m.proc r).reap).proc q).pid at hq
      change ((m.setProc r (m.proc r).reap).proc s).pid =
        ((m.setProc r (m.proc r).reap).proc q).pid at hs
      rw [hpid q] at hq hs
      rw [hpid s] at hs
      split at hq
      · omega
      · split at hs
        · omega
        · exact h.distinct q s hq (by simp [*])
  · split
    · exact h.same (.of_proc (by rfl) (by rfl))
    · exact h.same (.sleep m c p i _ _ esp)

theorem SamePids.joinLoop (m : Machine) (c : Nat) (p : Slot) (i j : ThIdx) (tid esp : Nat) :
    SamePids m (m.joinLoop c p i j tid esp) := by
  unfold Machine.joinLoop
  split
  · exact SamePids.setProc m p rfl
  · split
    · exact .of_proc rfl rfl
    · exact .sleep m c p i _ _ esp

theorem Proc.userStack_pid {x y : Proc} {j : ThIdx} {mapped copied : Bool}
    (h : x.userStack j mapped copied = .ok y ∨ x.userStack j mapped copied = .error y) :
    y.pid = x.pid := by
  unfold Proc.userStack at h
  split_ifs at h <;> simp only [Except.ok.injEq, Except.error.injEq, or_false,
    false_or] at h <;> subst h <;> rfl

theorem PidInv.threadCreate (h : PidInv m) (c : Nat) (p : Slot) (page : Option Nat)
    (mapped copied : Bool) : PidInv (m.threadCreate c p page mapped copied) := by
  have hs : SamePids m (m.threadCreate c p page mapped copied) := by
    unfold Machine.threadCreate
    split
    · exact .of_proc rfl rfl
    · rename_i j x hx
      have hpid : x.pid = (m.proc p).pid := by
        obtain ⟨-, rfl⟩ := Proc.allocth_eq hx
        rfl
      split
      · exact SamePids.setProc m p hpid
      · split
        · rename_i hy
          exact SamePids.setProc m p ((Proc.userStack_pid (.inl hy)).trans hpid)
        · rename_i hy
          exact SamePids.setProc m p ((Proc.userStack_pid (.inr hy)).trans hpid)
  exact h.same hs

theorem PidInv.allocproc (h : PidInv m) (p : Slot) (i : ThIdx) : PidInv (m.allocproc p i) := by
  -- the slot that is taken gets `nextpid`, which nobody has
  have htake : ∀ (np : Slot) (x : Proc) (m' : Machine), x.pid = m.nextpid →
      m'.nextpid = m.nextpid + 1 → m'.proc = (m.setProc np x).proc → PidInv m' := by
    intro np x m' hx hn hp
    have hpid : ∀ q, (m'.proc q).pid = if q = np then m.nextpid else (m.proc q).pid := by
      intro q
      rw [hp]
      by_cases hq : q = np
      · simp [Machine.setProc, hq, hx]
      · simp [Machine.setProc, hq]
    have h1 := h.first
    refine ⟨by omega, fun q => ?_, fun q r hq hr => ?_⟩
    · rw [hpid q, hn]
      have := h.fresh q
      split <;> omega
    · rw [hpid q] at hq hr
      rw [hpid r] at hr
      have hfq := h.fresh q
      have hfr := h.fresh r
      by_cases hqn : q = np
      · by_cases hrn : r = np
        · rw [hqn, hrn]
        · rw [if_pos hqn, if_neg hrn] at hr
          omega
      · by_cases hrn : r = np
        · rw [if_neg hqn, if_pos hrn] at hr
          omega
        · rw [if_neg hqn] at hq hr
          rw [if_neg hrn] at hr
          exact h.distinct q r hq hr
  unfold Machine.allocproc
  split
  · exact h
  · rename_i np _
    split
    · exact htake np _ _ rfl rfl rfl
    · exact htake np _ _ rfl rfl rfl

theorem PidInv.call (h : PidInv m) {k : Call} (hs : m.call c p i esp k = some m') : PidInv m' := by
  cases Machine.call_step hs with
  | yield _ =>
    have h1 : SamePids m (m.setProc p (m.proc p).yield) := SamePids.setProc m p rfl
    exact h.same (h1.trans (SamePids.setProc (m.setProc p (m.proc p).yield) p rfl))
  | sleep _ _ => exact h.same (SamePids.sleep (m.acquire c) c p i _ _ esp)
  | @kill pid _ =>
    unfold Machine.kill
    split
    · exact h
    · exact h.same (SamePids.setProc m _ (by unfold Proc.kill; split <;> rfl))
  | fork _ _ => exact h.allocproc p i
  | @forkKalloc page np th _ => cases page <;> exact h.same (SamePids.setProc m np rfl)
  | @forkCopy ok np _ => cases ok <;> exact h.same (SamePids.setProc m np rfl)
  | @forkFields np _ => exact h.same (SamePids.setProc m np rfl)
  | @forkFinish np _ _ => exact h.same (SamePids.setProc m np rfl)
  | @undoAlloc np th _ => cases th <;> exact h.same (SamePids.setProc m np rfl)
  | @undoFork np _ => exact h.same (SamePids.setProc m np rfl)
  | exec _ => exact h.same (.of_proc rfl rfl)
  | @execKill n pages _ =>
    unfold Machine.execKill
    split
    · split
      · exact h.same (.of_proc rfl rfl)
      · exact h.same (SamePids.setProc m p (by unfold Proc.execKill; split <;> rfl))
    · exact h.same (.of_proc rfl rfl)
  | execCommit _ _ => exact h.same (SamePids.setProc m p rfl)
  | execFail _ _ => exact h.same (.of_proc rfl rfl)
  | exit _ _ => exact h.same (.of_proc rfl rfl)
  | exitEnd _ _ _ => exact h.same (.exitEnd m c p i esp)
  | wait _ _ =>
    have h1 : PidInv (m.acquire c) := h.same (.of_proc rfl rfl)
    exact h1.waitLoop c p i esp
  | threadCreate _ _ => exact h.threadCreate c p _ _ _
  | threadExit _ _ => exact h.same (.threadExit m c p i _ esp)
  | threadJoin _ _ =>
    unfold Machine.threadJoin
    split
    · exact h
    · exact h.same (SamePids.joinLoop (m.acquire c) c p i _ _ esp)
  | fsEnter _ => exact h.same (.of_proc rfl rfl)
  | fsReturn _ _ => exact h.same (.of_proc rfl rfl)
  | fs _ hf =>
    cases Machine.fsCall_step hf with
    | wait _ _ _ _ => exact h.same (SamePids.sleep ((m.setKth p i _).acquire c) c p i _ _ esp)
    | go _ _ _ => exact h.same (.of_proc rfl rfl)
    | wake _ _ _ _ => exact h.same (SamePids.wakeup1 { m.setKth p i _ with log := _, sleeplock := _ } _)

theorem PidInv.schedule (h : PidInv m) (hs : m.schedule c = some m') : PidInv m' := by
  unfold Machine.schedule at hs
  split at hs
  · simp only [Option.ite_none_right_eq_some, Option.some.injEq] at hs
    obtain ⟨-, rfl⟩ := hs
    exact h.same (.of_proc rfl rfl)
  · split at hs <;> simp only [Option.some.injEq] at hs <;> subst hs
    · rename_i p _
      exact h.same (SamePids.setProc m p rfl)
    · exact h.same (.of_proc rfl rfl)
  · simp at hs

theorem SamePids.awake (m : Machine) (p : Slot) (i : ThIdx) : SamePids m (m.awake p i) := by
  have h1 : SamePids m (m.schedTail p) := SamePids.setProc m p rfl
  exact h1.trans (SamePids.setProc (m.schedTail p) p rfl)

theorem PidInv.resume (h : PidInv m) (hs : m.resume c esp = some m') : PidInv m' := by
  unfold Machine.resume at hs
  split at hs
  · rename_i p i _
    have hawake : PidInv ((m.enter c p i).awake p i) :=
      PidInv.same (h.same (.of_proc rfl rfl)) (.awake _ p i)
    split at hs <;>
      simp only [Option.ite_none_left_eq_some, Option.some.injEq, reduceCtorEq] at hs
    · subst hs; exact h.same (.of_proc rfl rfl)
    · subst hs; exact h.same (SamePids.setProc m p rfl)
    · subst hs; exact hawake.same (.of_proc rfl rfl)
    · subst hs; exact hawake.waitLoop c p i esp
    · subst hs; exact hawake.same (.joinLoop _ c p i _ _ esp)
    · obtain ⟨-, rfl⟩ := hs; exact h.same (SamePids.setProc m p rfl)
  · simp at hs

theorem PidInv.step (h : PidInv m) {a : Act} (hs : step m a = some m') : PidInv m' := by
  cases a with
  | schedule c => exact h.schedule hs
  | resume c esp => exact h.resume hs
  | wakeup n =>
    simp only [Lwp.step, Option.ite_none_right_eq_some, Option.some.injEq] at hs
    obtain ⟨-, rfl⟩ := hs
    exact h.same (.wakeup1 m _)
  | call c esp k =>
    simp only [Lwp.step] at hs
    split at hs
    · exact h.call hs
    · simp at hs

theorem PidInv.boot (page : Nat) : PidInv (boot page) := by
  have hpid : ∀ q : Slot, ((Lwp.boot page).proc q).pid = if q = 0 then 1 else 0 := by
    intro q
    by_cases hq : q = 0
    · subst hq; rfl
    · simp [Lwp.boot, hq]
  have hnext : (Lwp.boot page).nextpid = 2 := rfl
  refine ⟨by omega, fun q => ?_, fun q r hq hr => ?_⟩
  · rw [hpid q, hnext]
    split <;> omega
  · rw [hpid q] at hq hr
    rw [hpid r] at hr
    split at hq
    · split at hr
      · simp [*]
      · simp [*] at hr
    · omega

/-- `kill` finds the process that has the pid. -/
theorem PidInv.kill (h : PidInv m) {pid : Int} (hp : (m.proc p).pid = pid) (h0 : 0 < pid) :
    (m.kill pid).proc p = (m.proc p).kill := by
  have hfind : (List.finRange NPROC).find? (fun q => (m.proc q).pid = pid) = some p := by
    cases hf : (List.finRange NPROC).find? (fun q => (m.proc q).pid = pid) with
    | none =>
      have hno := List.find?_eq_none.mp hf p (List.mem_finRange p)
      simp [hp] at hno
    | some q =>
      have hq : (m.proc q).pid = pid := by simpa using List.find?_some hf
      rw [h.distinct p q (hp ▸ h0) (hq.trans hp.symm)]
  simp [Machine.kill, hfind, Machine.setProc]

end Rules

/-! ## What is woken -/

/-- What `kill(pid)` is for: the victim is marked, and a thread of it can run and
reach `exit`. -/
def KillReaches (m : Machine) (pid : Int) (p : Slot) : Prop :=
  ((m.kill pid).proc p).killed = true ∧ ((m.kill pid).proc p).Selectable

theorem kill_reaches_iff_wakes (page : Nat) (as : List Act) (m : Machine)
    (hr : Lib.run step (boot page) as = some m) (pid : Int) (h0 : 0 < pid) (p : Slot)
    (hp : (m.proc p).pid = pid) (hl : (m.proc p).Live) :
    KillReaches m pid p ↔ (m.proc p).KillWakes := by
  have hinv : PidInv m := by
    refine Lib.run_inv_all ?_ (PidInv.boot page) hr
    intro s a s' hs ha
    exact hs.step ha
  rw [KillReaches, hinv.kill hp h0, Proc.kill_selectable]
  exact ⟨fun h => h.2, fun h => ⟨Proc.kill_killed _, h⟩⟩

/-- `init` has a second thread, which is `RUNNABLE` while the first one runs. -/
def startOne : List Act := [.call 0 0 (.threadCreate (some 8192) true true)]

theorem kill_reaches_startOne : ∃ m, Lib.run step (boot 4096) (startInit ++ startOne) = some m ∧
    KillReaches m 1 0 := by
  have hrun : (Lib.run step (initReady 4096) startOne).any (fun m =>
      (m.proc 0).pid = 1 ∧ (m.proc 0).state = .RUNNING ∧ ((m.proc 0).thread 1).state = .RUNNABLE) := by
    decide +kernel
  obtain ⟨m, hr, hm⟩ := (Option.any_eq_true _ _).mp hrun
  rw [← run_init] at hr
  have hm := of_decide_eq_true hm
  refine ⟨m, hr, (kill_reaches_iff_wakes 4096 _ m hr 1 (by decide) 0 hm.1 (.inr hm.2.1)).mpr ?_⟩
  exact .inr ⟨1, .inl hm.2.2⟩

/-- `init` creates a second thread and blocks in the first; the second thread
exits. -/
def killsNobody : List Act :=
  startOne ++ [.call 0 0 (.sleep 7)] ++ [.schedule 0, .schedule 0, .schedule 0, .resume 0 0] ++
    [.call 0 0 (.threadExit 0)] ++ [.schedule 0]

theorem killsNobody_not_reached : ∃ m, Lib.run step (boot 4096) (startInit ++ killsNobody) = some m ∧
    (m.proc 0).pid = 1 ∧ (m.proc 0).Live ∧ ¬ KillReaches m 1 0 := by
  have hrun : (Lib.run step (initReady 4096) killsNobody).any (fun m =>
      (m.proc 0).pid = 1 ∧ (m.proc 0).state = .RUNNABLE ∧
      ∀ j, ((m.kill 1).proc 0 |>.thread j).state ≠ .RUNNABLE ∧
        ((m.kill 1).proc 0 |>.thread j).state ≠ .RUNNING) := by
    decide +kernel
  obtain ⟨m, hr, hm⟩ := (Option.any_eq_true _ _).mp hrun
  rw [← run_init] at hr
  have hm := of_decide_eq_true hm
  refine ⟨m, hr, hm.1, .inl hm.2.1, fun h => ?_⟩
  obtain ⟨j, hj⟩ := h.2
  rcases hj with hj | hj
  · exact (hm.2.2 j).1 hj
  · exact (hm.2.2 j).2 hj

end Xv6.Lwp
