import Xv6.Lwp.Init

/- What the calls of the machine do to thread slots, apart from scheduling.
   `LikeAll` says that every slot holds the same thread as before, at the same
   point of its life: not in use, under construction, active or a zombie.
   Sleeping, waking, yielding and dispatching keep it. -/
namespace Xv6.Lwp

/-- Two contents of a thread slot that differ in what scheduling does with it, at
most: the same thread, at the same point of its life. -/
structure Thread.Like (a b : Thread) : Prop where
  tid : b.tid = a.tid
  retval : b.retval = a.retval
  ustack : b.ustack = a.ustack
  unused : b.state = .UNUSED ↔ a.state = .UNUSED
  zombie : b.state = .ZOMBIE ↔ a.state = .ZOMBIE
  idle : b.Idle ↔ a.Idle

theorem Thread.Like.refl (a : Thread) : a.Like a := ⟨rfl, rfl, rfl, Iff.rfl, Iff.rfl, Iff.rfl⟩

theorem Thread.Like.trans {a b c : Thread} (h : a.Like b) (h' : b.Like c) : a.Like c :=
  ⟨h'.tid.trans h.tid, h'.retval.trans h.retval, h'.ustack.trans h.ustack,
    h'.unused.trans h.unused, h'.zombie.trans h.zombie, h'.idle.trans h.idle⟩

/-- A thread that can be scheduled or sleeps. -/
def Thread.Active (th : Thread) : Prop :=
  th.state = .RUNNABLE ∨ th.state = .RUNNING ∨ th.state = .SLEEPING

theorem Thread.Like.active {a b : Thread} (h : a.Like b) : b.Active ↔ a.Active := by
  have hiff : ∀ th : Thread, th.Active ↔ ¬ th.Idle ∧ th.state ≠ .ZOMBIE := by
    intro th
    unfold Thread.Active Thread.Idle
    cases th.state <;> simp
  rw [hiff, hiff, h.idle, ne_eq, ne_eq, h.zombie]

theorem Thread.like_of_active {a b : Thread} (ht : b.tid = a.tid) (hv : b.retval = a.retval)
    (hu : b.ustack = a.ustack) (ha : a.Active) (hb : b.Active) : a.Like b := by
  refine ⟨ht, hv, hu, ?_, ?_, ?_⟩ <;>
    rcases ha with ha | ha | ha <;> rcases hb with hb | hb | hb <;> simp [ha, hb, Thread.Idle]

/-- A write to other fields of the slot. -/
theorem Thread.like_of_eq {a b : Thread} (ht : b.tid = a.tid) (hv : b.retval = a.retval)
    (hu : b.ustack = a.ustack) (hs : b.state = a.state) : a.Like b := by
  refine ⟨ht, hv, hu, by rw [hs], by rw [hs], ?_⟩
  simp only [Thread.Idle, hs]

theorem Thread.like_wake (chan : Option Chan) (a : Thread) :
    a.Like (Machine.wakeThread chan a) := by
  unfold Machine.wakeThread
  split
  · rename_i h
    exact Thread.like_of_active rfl rfl rfl (.inr (.inr h.1)) (.inl rfl)
  · exact Thread.Like.refl a

/-- Two machines with the same threads, apart from scheduling. -/
def LikeAll (m m' : Machine) : Prop :=
  ∀ q k, ((m.proc q).thread k).Like ((m'.proc q).thread k)

theorem LikeAll.refl (m : Machine) : LikeAll m m := fun _ _ => Thread.Like.refl _

theorem LikeAll.trans {m m' m'' : Machine} (h : LikeAll m m') (h' : LikeAll m' m'') :
    LikeAll m m'' := fun q k => (h q k).trans (h' q k)

section Like

variable {m m' : Machine} {c : Nat} {p : Slot} {i : ThIdx} {esp : Nat}

theorem LikeAll.setProc {x : Proc} (h : ∀ k, ((m.proc p).thread k).Like (x.thread k)) :
    LikeAll m (m.setProc p x) := by
  intro q k
  by_cases hq : q = p
  · subst hq; simpa [Machine.setProc] using h k
  · simpa [Machine.setProc, hq] using Thread.Like.refl _

theorem Proc.like_setThread {x : Proc} {th : Thread} (h : (x.thread i).Like th) (k : ThIdx) :
    (x.thread k).Like ((x.setThread i th).thread k) := by
  by_cases hk : k = i
  · subst hk; simpa using h
  · simpa [hk] using Thread.Like.refl _

theorem Proc.like_copyprocth (x : Proc) (i k : ThIdx) :
    (x.thread k).Like ((x.copyprocth i).thread k) :=
  Proc.like_setThread (Thread.like_of_eq (by rfl) (by rfl) (by rfl) (by rfl)) k

theorem LikeAll.wakeup1 (m : Machine) (chan : Option Chan) : LikeAll m (m.wakeup1 chan) := by
  intro q k
  simp only [Machine.wakeup1, Machine.wakeProc]
  split
  · exact Thread.like_wake chan _
  · exact Thread.Like.refl _

theorem LikeAll.sched (m : Machine) (c : Nat) (p : Slot) (i : ThIdx) (esp : Nat) :
    LikeAll m (m.sched c p i esp) :=
  LikeAll.setProc (m := m) (p := p) (fun k => Proc.like_copyprocth
    { (m.proc p).copythproc (m.proc p).thidx with context := esp } i k)

theorem LikeAll.sleep (hr : ((m.proc p).thread (m.proc p).thidx).state = .RUNNING) (ch : Chan)
    (rs : Resume) (esp : Nat) : LikeAll m (m.sleep c p i ch rs esp) := by
  refine LikeAll.trans ?_ (LikeAll.sched _ c p i esp)
  exact LikeAll.setProc (m := m) (p := p)
    (Proc.like_setThread (Thread.like_of_active rfl rfl rfl (.inr (.inl hr)) (.inr (.inr rfl))))

theorem LikeAll.abandon (m : Machine) (p : Slot) : LikeAll m (m.abandon p) := by
  have h1 : LikeAll m { m.wakeup1 ((m.proc p).parent.map .proc) with
      proc := fun q => Machine.adopt m.initproc p
        ((m.wakeup1 ((m.proc p).parent.map .proc)).proc q) } := by
    refine (LikeAll.wakeup1 m ((m.proc p).parent.map .proc)).trans ?_
    intro q k
    simp only [Machine.adopt]
    split <;> exact Thread.Like.refl _
  unfold Machine.abandon
  simp only
  split
  · exact h1.trans (LikeAll.wakeup1 _ _)
  · exact h1

theorem LikeAll.kill (m : Machine) (pid : Int) : LikeAll m (m.kill pid) := by
  unfold Machine.kill
  split
  · exact LikeAll.refl m
  · rename_i q _
    refine LikeAll.setProc (fun k => ?_)
    unfold Proc.kill
    split
    · rename_i hs
      exact Proc.like_setThread (x := m.proc q)
        (Thread.like_of_active (by rfl) (by rfl) (by rfl) (.inr (.inr hs)) (.inl (by rfl))) k
    · exact Thread.Like.refl _

theorem LikeAll.schedTail (m : Machine) (p : Slot) : LikeAll m (m.schedTail p) :=
  LikeAll.setProc (Proc.like_copyprocth _ _)

theorem LikeAll.awake (m : Machine) (p : Slot) (i : ThIdx) : LikeAll m (m.awake p i) :=
  (LikeAll.schedTail m p).trans
    (LikeAll.setProc (Proc.like_setThread (Thread.like_of_eq rfl rfl rfl rfl)))

theorem LikeAll.yield (hr : ((m.proc p).thread (m.proc p).thidx).state = .RUNNING) (c : Nat)
    (i : ThIdx) (esp : Nat) : LikeAll m (m.yield c p i esp) := by
  refine LikeAll.trans ?_ (LikeAll.sched _ c p i esp)
  exact LikeAll.setProc (m := m) (p := p)
    (Proc.like_setThread (Thread.like_of_active rfl rfl rfl (.inr (.inl hr)) (.inl rfl)))

theorem LikeAll.exitEnd (m : Machine) (c : Nat) (p : Slot) (i : ThIdx) (esp : Nat) :
    LikeAll m (m.exitEnd c p i esp) := by
  refine LikeAll.trans ?_ (LikeAll.sched _ c p i esp)
  refine (LikeAll.abandon (m.acquire c) p).trans ?_
  exact LikeAll.setProc (fun _ => Thread.Like.refl _)

theorem LikeAll.execCommit (hr : ((m.proc p).thread (m.proc p).thidx).state = .RUNNING)
    (img pages : Nat) : LikeAll m (m.setProc p ((m.proc p).execCommit img pages)) :=
  LikeAll.setProc (Proc.like_setThread (x := m.proc p)
    (Thread.like_of_active (by rfl) (by rfl) (by rfl) (.inr (.inl hr)) (.inr (.inl (by rfl)))))

theorem LikeAll.dispatch {n : Nat} (hp : m.pick n = some p) (c : Nat) :
    LikeAll m (m.dispatch c p) :=
  LikeAll.setProc (m := m) (p := p)
    (Proc.like_setThread (Thread.like_of_active rfl rfl rfl
      (.inl (Proc.thidxtorun_runnable (Machine.pick_spec hp).2)) (.inr (.inl rfl))))

end Like

section Calls

variable {m : Machine} {c : Nat} {p : Slot} {i : ThIdx}

/-- The thread on a CPU is `RUNNING`. -/
theorem Inv.thread_running (hI : Inv m) (hr : (m.cpu c).mode = .running p i) :
    ((m.proc p).thread (m.proc p).thidx).state = .RUNNING :=
  ((hI.ok p).running (hI.on c p i (.inr hr)).2.1 _).mpr rfl

/-- `userStack` writes to the new thread only, and does not end it. -/
theorem Proc.userStack_thread {x y : Proc} {j : ThIdx} {mapped copied : Bool}
    (h : x.userStack j mapped copied = .ok y ∨ x.userStack j mapped copied = .error y) :
    (∀ l, l ≠ j → y.thread l = x.thread l) ∧
      ((x.thread j).state ≠ .ZOMBIE → (y.thread j).state ≠ .ZOMBIE) := by
  unfold Proc.userStack at h
  split_ifs at h <;> simp only [or_false, false_or, Except.ok.injEq, Except.error.injEq] at h <;>
    subst h
  all_goals
    exact ⟨fun l hl => by simp [Proc.start, Proc.freevm, hl], by simp [Proc.start, Proc.freevm]⟩

theorem Machine.awake_state (m : Machine) (p : Slot) (i : ThIdx) (q : Slot) :
    ((m.awake p i).proc q).state = (m.proc q).state := by
  by_cases hq : q = p
  · subst hq
    simp [Machine.awake, Machine.schedTail, Machine.setThread, Machine.setProc, Proc.copyprocth]
  · simp [Machine.awake, Machine.schedTail, Machine.setThread, Machine.setProc, hq]

theorem Proc.userStack_state {x y : Proc} {j : ThIdx} {mapped copied : Bool}
    (h : x.userStack j mapped copied = .ok y ∨ x.userStack j mapped copied = .error y) :
    y.state = x.state := by
  unfold Proc.userStack at h
  split_ifs at h <;> simp only [or_false, false_or, Except.ok.injEq, Except.error.injEq] at h <;>
    subst h
  all_goals rfl

theorem Proc.threadExit_other (x : Proc) (v : Nat) {k : ThIdx} (hk : k ≠ x.thidx) :
    (x.threadExit v).thread k = x.thread k := by
  unfold Proc.threadExit
  split <;> simp [hk]

theorem Proc.threadExit_self (x : Proc) (v : Nat) :
    ((x.threadExit v).thread x.thidx).tid = (x.thread x.thidx).tid ∧
      ((x.threadExit v).thread x.thidx).retval = v := by
  unfold Proc.threadExit
  split <;> simp

/-- After its writes to the exiting thread, `thread_exit` only wakes and
switches. -/
theorem LikeAll.threadExit (m : Machine) (c : Nat) (p : Slot) (i : ThIdx) (v esp : Nat) :
    LikeAll (m.setProc p ((m.proc p).threadExit v)) (m.threadExit c p i v esp) := by
  refine ((LikeAll.wakeup1 _ (some (.thread p (m.proc p).thidx))).trans ?_).trans
    (LikeAll.sched ((m.acquire c).leaveThread p i v) c p i esp)
  intro q k
  by_cases hq : q = p
  · subst hq
    simpa [Machine.leaveThread, Machine.setProc, Machine.wakeup1, Machine.setKth,
      Machine.acquire] using Thread.Like.refl _
  · simpa [Machine.leaveThread, Machine.setProc, Machine.wakeup1, Machine.setKth,
      Machine.acquire, hq] using Thread.Like.refl _

end Calls

/-- What `thread_create` can do: no slot, no kernel stack, a new thread, or a slot that
stays `EMBRYO` because there is no user stack. -/
inductive CreateStep (m : Machine) (c : Nat) (p : Slot) (mapped copied : Bool) :
    Option Nat → Machine → Prop where
  | full {page : Option Nat} (hth : (m.proc p).allocth m.nexttid = none) :
    CreateStep m c p mapped copied page (m.acquire c)
  | noStack {j : ThIdx} {x : Proc} (hth : (m.proc p).allocth m.nexttid = some (j, x)) :
    CreateStep m c p mapped copied none
      { (m.setProc p (x.setThread j { x.thread j with kstack := 0, state := .UNUSED })).acquire c with
        nexttid := m.nexttid + 1 }
  | created {j : ThIdx} {x y : Proc} {a : Nat} (hth : (m.proc p).allocth m.nexttid = some (j, x))
    (hy : (x.kernelStack j a).userStack j mapped copied = .ok y) :
    CreateStep m c p mapped copied (some a)
      { (m.setProc p y).setKth p j { pc := .user } with nexttid := m.nexttid + 1 }
  | failed {j : ThIdx} {x y : Proc} {a : Nat} (hth : (m.proc p).allocth m.nexttid = some (j, x))
    (hy : (x.kernelStack j a).userStack j mapped copied = .error y) :
    CreateStep m c p mapped copied (some a)
      { (m.setProc p y).acquire c with nexttid := m.nexttid + 1 }

theorem Machine.threadCreate_step (m : Machine) (c : Nat) (p : Slot) (page : Option Nat)
    (mapped copied : Bool) :
    CreateStep m c p mapped copied page (m.threadCreate c p page mapped copied) := by
  unfold Machine.threadCreate
  split
  · exact .full ‹_›
  · rename_i j x hth
    split
    · exact .noStack hth
    · rename_i a
      split
      · exact .created hth ‹_›
      · exact .failed hth ‹_›

end Xv6.Lwp
