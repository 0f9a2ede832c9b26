import Xv6.Lwp.Threads

/- Sleep-locks and log operations over whole runs. `LockInv` says that the locks
   are held exactly by the threads that acquired them, that a thread which holds
   a lock or is between `begin_op` and `end_op` is inside file-system code and can
   still run, and that `log.outstanding` counts the threads inside an operation.

   `exit` and `exec` remove the other threads of the process wherever they are
   blocked. `QuietVictims` is the condition that none of the removed threads holds
   a lock or is inside an operation; `orphanedLock` is a run without it. -/
namespace Xv6.Lwp

/-- The thread holds a sleep-lock or is inside a log operation. -/
def Kth.Busy (k : Kth) : Prop := k.held ≠ [] ∨ k.inOp = true

instance Kth.Busy.decidable (k : Kth) : Decidable k.Busy := inferInstanceAs (Decidable (_ ∨ _))

/-- The thread is active and its process can be scheduled. -/
def Machine.Live (m : Machine) (p : Slot) (i : ThIdx) : Prop :=
  ((m.proc p).state = .RUNNABLE ∨ (m.proc p).state = .RUNNING) ∧ ((m.proc p).thread i).Active

/-- The threads between `begin_op` and `end_op`. -/
def Machine.inOps (m : Machine) : Finset (Slot × ThIdx) :=
  Finset.univ.filter (fun x => (m.kth x.1 x.2).inOp = true)

theorem Machine.mem_inOps {m : Machine} {p : Slot} {i : ThIdx} :
    (p, i) ∈ m.inOps ↔ (m.kth p i).inOp = true := by
  simp only [Machine.inOps, Finset.mem_filter, Finset.mem_univ, true_and]

/-- The same threads are inside an operation. -/
theorem Machine.inOps_congr {m m' : Machine} (h : ∀ p i, (m'.kth p i).inOp = (m.kth p i).inOp) :
    m'.inOps = m.inOps := by
  ext ⟨p, i⟩
  rw [Machine.mem_inOps, Machine.mem_inOps, h]

attribute [irreducible] Machine.inOps

structure LockInv (m : Machine) : Prop where
  owner : ∀ l, (m.sleeplock l).locked = true →
    l ∈ (m.kth (m.sleeplock l).owner.1 (m.sleeplock l).owner.2).held
  held : ∀ p i l, l ∈ (m.kth p i).held →
    (m.sleeplock l).locked = true ∧ (m.sleeplock l).owner = (p, i)
  live : ∀ p i, (m.kth p i).Busy → m.Live p i
  inFs : ∀ p i, (m.kth p i).Busy → (m.kth p i).pc.inFs = true
  count : m.log.outstanding = m.inOps.card

/-- The kernel stack holds the same locks and is inside the same operation. -/
def SameHeld (m m' : Machine) : Prop :=
  ∀ q k, (m'.kth q k).held = (m.kth q k).held ∧ (m'.kth q k).inOp = (m.kth q k).inOp

theorem SameHeld.refl (m : Machine) : SameHeld m m := fun _ _ => ⟨rfl, rfl⟩

theorem SameHeld.busy {m m' : Machine} (h : SameHeld m m') (q : Slot) (k : ThIdx) :
    (m'.kth q k).Busy ↔ (m.kth q k).Busy := by
  simp only [Kth.Busy, (h q k).1, (h q k).2]

section Rules

variable {m m' : Machine} {c : Nat} {p : Slot} {i : ThIdx} {esp : Nat}

theorem LockInv.quiet_of_dead (h : LockInv m) (hn : ¬ m.Live p i) :
    (m.kth p i).held = [] ∧ (m.kth p i).inOp = false := by
  have hb : ¬ (m.kth p i).Busy := fun hb => hn (h.live p i hb)
  simpa [Kth.Busy] using hb

/-- The locks and operations are as before, and every thread that has one can
still run and is still in file-system code. -/
theorem LockInv.frame (h : LockInv m) (hk : SameHeld m m')
    (hlive : ∀ q k, (m.kth q k).Busy → m.Live q k → m'.Live q k)
    (hfs : ∀ q k, (m.kth q k).Busy → (m'.kth q k).pc.inFs = (m.kth q k).pc.inFs)
    (hs : m'.sleeplock = m.sleeplock) (ho : m'.log.outstanding = m.log.outstanding) :
    LockInv m' := by
  constructor
  · intro l hl
    rw [hs] at hl ⊢
    rw [(hk _ _).1]
    exact h.owner l hl
  · intro q k l hl
    rw [(hk q k).1] at hl
    rw [hs]
    exact h.held q k l hl
  · intro q k hb
    have hb' := (hk.busy q k).mp hb
    exact hlive q k hb' (h.live q k hb')
  · intro q k hb
    have hb' := (hk.busy q k).mp hb
    rw [hfs q k hb']
    exact h.inFs q k hb'
  · rw [ho, h.count, Machine.inOps_congr (fun q k => (hk q k).2)]

/-- Threads as before, processes schedulable as before. -/
theorem Machine.live_of_like (hl : LikeAll m m')
    (hst : ∀ q, (m.proc q).state = .RUNNABLE ∨ (m.proc q).state = .RUNNING →
      (m'.proc q).state = .RUNNABLE ∨ (m'.proc q).state = .RUNNING)
    (q : Slot) (k : ThIdx) (h : m.Live q k) : m'.Live q k :=
  ⟨hst q h.1, (hl q k).active.mpr h.2⟩

theorem SameHeld.setKth {k : Kth} (hh : k.held = (m.kth p i).held)
    (ho : k.inOp = (m.kth p i).inOp) : SameHeld m (m.setKth p i k) := by
  intro q l
  by_cases hq : q = p ∧ l = i
  · obtain ⟨rfl, rfl⟩ := hq
    simpa [Machine.setKth] using ⟨hh, ho⟩
  · simp [Machine.setKth, hq]

theorem Machine.setKth_inFs {k : Kth}
    (hp : (m.kth p i).Busy → k.pc.inFs = (m.kth p i).pc.inFs) (q : Slot) (l : ThIdx)
    (hb : (m.kth q l).Busy) : ((m.setKth p i k).kth q l).pc.inFs = (m.kth q l).pc.inFs := by
  by_cases hq : q = p ∧ l = i
  · obtain ⟨rfl, rfl⟩ := hq
    simpa [Machine.setKth] using hp hb
  · simp [Machine.setKth, hq]

/-- A thread slot changes its position; if it is busy it stays in file-system
code. -/
theorem LockInv.setKth (h : LockInv m) {k : Kth} (hh : k.held = (m.kth p i).held)
    (ho : k.inOp = (m.kth p i).inOp)
    (hp : (m.kth p i).Busy → k.pc.inFs = (m.kth p i).pc.inFs) : LockInv (m.setKth p i k) :=
  h.frame (SameHeld.setKth hh ho) (fun _ _ _ hl => hl) (Machine.setKth_inFs hp) rfl rfl

/-- Threads and processes change as scheduling does it. -/
theorem LockInv.move (h : LockInv m) (hl : LikeAll m m')
    (hst : ∀ q, (m.proc q).state = .RUNNABLE ∨ (m.proc q).state = .RUNNING →
      (m'.proc q).state = .RUNNABLE ∨ (m'.proc q).state = .RUNNING)
    (hk : m'.kth = m.kth) (hs : m'.sleeplock = m.sleeplock)
    (ho : m'.log.outstanding = m.log.outstanding) : LockInv m' := by
  refine h.frame (fun q k => by rw [hk]; exact ⟨rfl, rfl⟩)
    (fun q k _ => Machine.live_of_like hl hst q k) (fun q k _ => by rw [hk]) hs ho

end Rules

/-! ## The calls -/

section Calls

variable {m m' : Machine} {c : Nat} {p np : Slot} {i : ThIdx} {esp : Nat}

/-- A thread in user mode has no lock and no operation. -/
theorem LockInv.user (h : LockInv m) (hpc : (m.kth p i).pc.inFs = false) : ¬ (m.kth p i).Busy := by
  intro hb
  have := h.inFs p i hb
  simp [hpc] at this

theorem Kth.not_busy_of_quiet {k : Kth} (h : k.quiet = true) : ¬ k.Busy := by
  simp only [Kth.quiet, decide_eq_true_eq] at h
  simp [Kth.Busy, h.1, h.2.1]

/-- The position of a thread that is not busy changes. -/
theorem LockInv.setPc (h : LockInv m) (hb : ¬ (m.kth p i).Busy) (pc : Pc) :
    LockInv (m.setPc p i pc) :=
  h.setKth rfl rfl (fun hb' => absurd hb' hb)

/-- A process that no thread can run in is rewritten. -/
theorem LockInv.setProc_dead (h : LockInv m) {x : Proc}
    (hs : ¬ ((m.proc p).state = .RUNNABLE ∨ (m.proc p).state = .RUNNING)) :
    LockInv (m.setProc p x) := by
  refine h.frame (SameHeld.refl m) ?_ (fun _ _ _ => rfl) rfl rfl
  intro q k _ hl
  have hq : q ≠ p := by
    rintro rfl
    exact hs hl.1
  simpa [Machine.Live, Machine.setProc, hq] using hl

/-- The kernel stack of a slot that cannot run is replaced. -/
theorem LockInv.renew (h : LockInv m) (hb : ¬ (m.kth p i).Busy) {k : Kth} (hh : k.held = [])
    (ho : k.inOp = false) : LockInv (m.setKth p i k) := by
  have hq : (m.kth p i).held = [] ∧ (m.kth p i).inOp = false := by
    simpa [Kth.Busy] using hb
  exact h.setKth (hh.trans hq.1.symm) (ho.trans hq.2.symm) (fun hb' => absurd hb' hb)

/-- The slot `(p, j)`, whose thread is not busy, is rewritten. -/
theorem LockInv.setSlot (h : LockInv m) {j : ThIdx} {x : Proc} (hb : ¬ (m.kth p j).Busy)
    (hs : x.state = (m.proc p).state) (hx : ∀ l, l ≠ j → x.thread l = (m.proc p).thread l) :
    LockInv (m.setProc p x) := by
  refine h.frame (SameHeld.refl m) ?_ (fun _ _ _ => rfl) rfl rfl
  intro q k hqb hl
  by_cases hq : q = p
  · subst hq
    have hk : k ≠ j := by
      rintro rfl
      exact hb hqb
    simpa [Machine.Live, Machine.setProc, hs, hx k hk] using hl
  · simpa [Machine.Live, Machine.setProc, hq] using hl

theorem Machine.wakeup1_state (m : Machine) (chan : Option Chan) (q : Slot) :
    ((m.wakeup1 chan).proc q).state = (m.proc q).state :=
  (Proc.same_wakeProc chan (m.proc q)).state

theorem LockInv.wakeup1 (h : LockInv m) (chan : Option Chan) : LockInv (m.wakeup1 chan) :=
  h.move (LikeAll.wakeup1 m chan) (fun q hq => by rw [m.wakeup1_state]; exact hq) rfl rfl rfl

theorem LockInv.acquire (h : LockInv m) : LockInv (m.acquire c) :=
  h.move (LikeAll.refl m) (fun _ hq => hq) rfl rfl rfl

theorem LockInv.release (h : LockInv m) : LockInv m.release :=
  h.move (LikeAll.refl m) (fun _ hq => hq) rfl rfl rfl

theorem Machine.sched_state (m : Machine) (c : Nat) (p : Slot) (i : ThIdx) (esp : Nat) (q : Slot) :
    ((m.sched c p i esp).proc q).state = (m.proc q).state := by
  by_cases hq : q = p
  · subst hq
    simp [Machine.sched, Machine.setCpu, Machine.setProc, Proc.copyprocth, Proc.copythproc]
  · simp [Machine.sched, Machine.setCpu, Machine.setProc, hq]

theorem LockInv.sleep (h : LockInv m)
    (hr : ((m.proc p).thread (m.proc p).thidx).state = .RUNNING) (ch : Chan) (rs : Resume) :
    LockInv (m.sleep c p i ch rs esp) := by
  have h1 : LockInv (m.setKth p i { m.kth p i with resume := rs }) := h.setKth rfl rfl (fun _ => rfl)
  refine h1.move (LikeAll.sleep (c := c) (i := i) hr ch rs esp) ?_ rfl rfl rfl
  intro q hq
  rw [Machine.sleep, Machine.sched_state]
  by_cases hqp : q = p
  · subst hqp
    exact .inl (by simp [Machine.setKth, Machine.setProc, Proc.sleep])
  · simpa [Machine.setKth, Machine.setProc, hqp] using hq

theorem LockInv.waitLoop (h : LockInv m)
    (hr : ((m.proc p).thread (m.proc p).thidx).state = .RUNNING) :
    LockInv (m.waitLoop c p i esp) := by
  unfold Machine.waitLoop
  split
  · rename_i q hq
    have hz : (m.proc q).state = .ZOMBIE := by
      have := List.find?_some hq
      simp only [decide_eq_true_eq] at this
      exact this.2
    -- no thread of a zombie has a lock, so nothing is lost with its kernel stacks
    have hdead : ∀ k, ¬ m.Live q k := fun k hl => by simp [Machine.Live, hz] at hl
    have h1 : LockInv (m.setProc q (m.proc q).reap) := h.setProc_dead (by simp [hz])
    refine h1.frame ?_ (fun _ _ _ hl => hl) ?_ rfl rfl
    · intro r k
      by_cases hrq : r = q
      · subst hrq
        obtain ⟨hh, ho⟩ := h.quiet_of_dead (hdead k)
        simp [Machine.setProc, hh, ho]
      · simp [Machine.setProc, hrq]
    · intro r k hb
      by_cases hrq : r = q
      · subst hrq
        exact absurd (h.live r k hb) (hdead k)
      · simp [Machine.setProc, hrq]
  · split
    · exact h.release
    · exact h.sleep hr _ _

theorem LockInv.joinLoop (h : LockInv m)
    (hr : ((m.proc p).thread (m.proc p).thidx).state = .RUNNING) (j : ThIdx) (tid : Nat) :
    LockInv (m.joinLoop c p i j tid esp) := by
  unfold Machine.joinLoop
  split
  · rename_i hz
    have hb : ¬ (m.kth p j).Busy := by
      intro hb
      have := (h.live p j hb).2
      simp [Thread.Active, hz] at this
    have h1 : LockInv (m.setProc p ((m.proc p).joinReap j)) :=
      h.setSlot hb rfl (fun l hl => by simp [Proc.joinReap, Proc.freeustack, hl])
    have h2 : LockInv ((m.setProc p ((m.proc p).joinReap j)).setKth p j {}) := h1.renew hb rfl rfl
    exact h2.move (LikeAll.refl _) (fun _ hq => hq) rfl rfl rfl
  · split
    · exact h.release
    · exact h.sleep hr _ _

theorem LockInv.threadCreate (h : LockInv m) (page : Option Nat) (mapped copied : Bool) :
    LockInv (m.threadCreate c p page mapped copied) := by
  unfold Machine.threadCreate
  split
  · exact h.acquire
  · rename_i j x hx
    obtain ⟨hu, rfl⟩ := Proc.allocth_eq hx
    have hb : ¬ (m.kth p j).Busy := by
      intro hb
      have := (h.live p j hb).2
      simp [Thread.Active, hu] at this
    have hmove : ∀ {m1 m2 : Machine}, LockInv m1 → m2.proc = m1.proc → m2.kth = m1.kth →
        m2.sleeplock = m1.sleeplock → m2.log = m1.log → LockInv m2 := by
      intro m1 m2 h1 hp hk hs hl
      exact h1.move (fun q k => by rw [hp]; exact Thread.Like.refl _)
        (fun q hq => by rw [hp]; exact hq) hk hs (by rw [hl])
    split
    · have h1 := h.setSlot (j := j) (x := ((m.proc p).setThread j
        { (m.proc p).thread j with tid := m.nexttid, state := .EMBRYO }).setThread j
          { ((m.proc p).setThread j { (m.proc p).thread j with
              tid := m.nexttid, state := .EMBRYO }).thread j with kstack := 0, state := .UNUSED })
        hb rfl (fun l hl => by simp [hl])
      exact hmove h1 rfl rfl rfl rfl
    · rename_i a
      split
      · rename_i y hy
        have hsl := (Proc.userStack_thread (.inl hy)).1
        have hst := Proc.userStack_state (.inl hy)
        have h1 := h.setSlot (j := j) (x := y) hb hst
          (fun l hl => by simp [hsl l hl, Proc.kernelStack, hl])
        exact hmove (h1.renew (k := { pc := .user }) hb rfl rfl) rfl rfl rfl rfl
      · rename_i y hy
        have hsl := (Proc.userStack_thread (.inr hy)).1
        have hst := Proc.userStack_state (.inr hy)
        have h1 := h.setSlot (j := j) (x := y) hb hst
          (fun l hl => by simp [hsl l hl, Proc.kernelStack, hl])
        exact hmove h1 rfl rfl rfl rfl

theorem LockInv.threadExit (h : LockInv m) (hI : Inv m) (hr : (m.cpu c).mode = .running p i)
    (hpc : (m.kth p i).pc = .user) (v : Nat) : LockInv (m.threadExit c p i v esp) := by
  have hon := hI.on c p i (.inr hr)
  have hb : ¬ (m.kth p i).Busy := h.user (by rw [hpc]; rfl)
  have hb' : ¬ (m.kth p (m.proc p).thidx).Busy := by rw [hon.2.2]; exact hb
  -- the exiting thread is in user mode; the others are where they were
  refine h.frame (SameHeld.setKth (by rfl) (by rfl)) ?_
    (Machine.setKth_inFs (fun hb'' => absurd hb'' hb)) rfl rfl
  intro q k hqb hl
  have hstate : ((m.threadExit c p i v esp).proc q).state = if q = p then .RUNNABLE else
      (m.proc q).state := by
    by_cases hq : q = p
    · subst hq
      rw [if_pos rfl]
      exact (Machine.sched_state ((m.acquire c).leaveThread q i v) c q i esp q).trans
        (by simp [Machine.leaveThread, Machine.setProc])
    · rw [if_neg hq]
      refine (Machine.sched_state ((m.acquire c).leaveThread p i v) c p i esp q).trans ?_
      have := Machine.wakeup1_state (((m.acquire c).setProc p ((m.proc p).threadExit v)).setKth p i
        { m.kth p i with resume := .threadExit, exit := some m.exits.length })
          (some (.thread p (m.proc p).thidx)) q
      simpa [Machine.leaveThread, Machine.setProc, Machine.setKth, Machine.acquire, hq] using this
  refine ⟨?_, ?_⟩
  · rw [hstate]
    by_cases hq : q = p
    · simp [hq]
    · simpa [hq] using hl.1
  · refine (LikeAll.threadExit m c p i v esp q k).active.mpr ?_
    by_cases hq : q = p
    · subst hq
      have hk : k ≠ (m.proc q).thidx := by
        rintro rfl
        exact hb' hqb
      simpa [Machine.setProc, (m.proc q).threadExit_other v hk] using hl.2
    · simpa [Machine.setProc, hq] using hl.2

theorem LockInv.exitEnd (h : LockInv m) (hb : ∀ k, ¬ (m.kth p k).Busy) :
    LockInv (m.exitEnd c p i esp) := by
  have hk : ((m.acquire c).abandon p).kth = m.kth := Machine.abandon_kth _ p
  have hlog : (m.exitEnd c p i esp).log = m.log ∧
      (m.exitEnd c p i esp).sleeplock = m.sleeplock := by
    simp only [Machine.exitEnd, Machine.sched, Machine.abandon]
    split <;> exact ⟨rfl, rfl⟩
  have hkth : (m.exitEnd c p i esp).kth = (m.setPc p i .dead).kth := by
    funext q k
    simp [Machine.exitEnd, Machine.sched, Machine.setPc, Machine.setKth, Machine.setCpu,
      Machine.setProc, hk]
  refine h.frame ?_ ?_ ?_ hlog.2 (by rw [hlog.1])
  · intro q k
    rw [hkth]
    exact SameHeld.setKth (by rfl) (by rfl) q k
  · intro q k hqb hl
    have hq : q ≠ p := by
      rintro rfl
      exact hb k hqb
    refine ⟨?_, (LikeAll.exitEnd m c p i esp q k).active.mpr hl.2⟩
    have hst : ((m.exitEnd c p i esp).proc q).state = (m.proc q).state := by
      refine (Machine.sched_state _ c p i esp q).trans ?_
      have hs : (((m.acquire c).abandon p).proc q).state = (m.proc q).state :=
        (Machine.same_abandon (m.acquire c) p q).state
      simpa [Machine.setPc, Machine.setKth, Machine.setProc, hq] using hs
    rw [hst]
    exact hl.1
  · intro q k hqb
    rw [hkth]
    exact Machine.setKth_inFs (fun hb' => absurd hb' (hb i)) q k hqb

theorem LockInv.allocproc (h : LockInv m) (hb : ¬ (m.kth p i).Busy) :
    LockInv (m.allocproc p i) := by
  unfold Machine.allocproc
  split
  · exact h
  · rename_i np hnp
    have hn : (m.proc np).state = .UNUSED := by simpa using List.find?_some hnp
    have h1 : ∀ x, LockInv (m.setProc np x) := fun x => h.setProc_dead (by simp [hn])
    split
    · exact ((h1 _).setPc hb _).move (LikeAll.refl _) (fun _ hq => hq) rfl rfl rfl
    · exact ((h1 _).setPc hb _).move (LikeAll.refl _) (fun _ hq => hq) rfl rfl rfl

/-- A step of `fork` on the slot that the thread builds or gives back. -/
theorem LockInv.forkStep (h : LockInv m) (hI : Inv m) {s : ProcState}
    (hcl : (m.kth p i).pc.claim = some (np, s)) (x : Proc) (pc : Pc) :
    LockInv ((m.setProc np x).setPc p i pc) := by
  have hst := Pc.claim_state hcl
  have hn := hI.claim p i np s hcl
  have h1 : LockInv (m.setProc np x) := by
    refine h.setProc_dead ?_
    rw [hn]
    rcases hst with hst | hst <;> simp [hst]
  refine h1.setPc (h.user ?_) pc
  cases hpc : (m.kth p i).pc <;> simp [hpc, Pc.claim] at hcl <;> rfl

theorem LockInv.forkFinish (h : LockInv m) (hI : Inv m) (hpc : (m.kth p i).pc = .forkFinish np) :
    LockInv (m.forkFinish p i np) := by
  have hcl : (m.kth p i).pc.claim = some (np, .EMBRYO) := by rw [hpc]; rfl
  have hn := hI.claim p i np _ hcl
  have hb : ∀ k, ¬ (m.kth np k).Busy := by
    intro k hb
    have := (h.live np k hb).1
    simp [hn] at this
  have h1 : LockInv (m.setProc np (m.proc np).forkFinish) := h.setProc_dead (by simp [hn])
  have h2 := h1.renew (i := (m.proc np).thidx) (k := { pc := .user }) (hb _) rfl rfl
  refine h2.setPc ?_ .user
  -- the parent is in `fork`, and the child's stack is new
  intro hb'
  by_cases hq : p = np ∧ i = (m.proc np).thidx
  · simp [Machine.setKth, hq, Kth.Busy] at hb'
  · simp only [Machine.setKth, Machine.setProc, hq, if_false] at hb'
    exact h.user (by rw [hpc]; rfl) hb'

theorem LockInv.execKill (h : LockInv m) {n pages : Nat} (hpc : (m.kth p i).pc = .execKill n pages)
    (hv : ∀ hn : n < NTHREAD, (⟨n, hn⟩ : ThIdx) ≠ (m.proc p).thidx →
      ¬ (m.kth p ⟨n, hn⟩).Busy) : LockInv (m.execKill p i n pages) := by
  have hb : ¬ (m.kth p i).Busy := h.user (by rw [hpc]; rfl)
  unfold Machine.execKill
  split
  · rename_i hn
    split
    · exact h.setPc hb _
    · rename_i hne
      have h1 : LockInv (m.setProc p ((m.proc p).execKill ⟨n, hn⟩)) :=
        h.setSlot (hv hn hne) (by simp [Proc.execKill, hne])
          (fun l hl => by simp [Proc.execKill, hne, hl])
      have h2 := h1.renew (k := {}) (hv hn hne) rfl rfl
      refine h2.setPc ?_ _
      intro hb'
      by_cases hi : i = ⟨n, hn⟩
      · simp [Machine.setKth, hi, Kth.Busy] at hb'
      · simp only [Machine.setKth, Machine.setProc, hi, and_false, if_false] at hb'
        exact hb hb'
  · exact h.setPc hb _

/-! ## File-system calls -/

theorem Machine.inOps_setKth (m : Machine) (p : Slot) (i : ThIdx) (k : Kth) :
    (m.setKth p i k).inOps =
      if k.inOp = true then insert (p, i) m.inOps else m.inOps.erase (p, i) := by
  ext ⟨q, j⟩
  rw [Machine.mem_inOps]
  by_cases hq : q = p ∧ j = i
  · obtain ⟨rfl, rfl⟩ := hq
    cases hk : k.inOp <;> simp [Machine.setKth, hk]
  · have hne : ¬ ((q, j) = (p, i)) := by simpa using hq
    cases hk : k.inOp <;> simp [Machine.mem_inOps, Machine.setKth, hq, hne]

theorem Machine.inOps_enter {k : Kth} (ho : k.inOp = true) :
    (m.setKth p i k).inOps = insert (p, i) m.inOps := by
  rw [Machine.inOps_setKth, if_pos ho]

theorem Machine.inOps_leave {k : Kth} (ho : k.inOp = false) :
    (m.setKth p i k).inOps = m.inOps.erase (p, i) := by
  rw [Machine.inOps_setKth, if_neg (by simp [ho])]

theorem Machine.inOps_setKth_same {k : Kth} (ho : k.inOp = (m.kth p i).inOp) :
    (m.setKth p i k).inOps = m.inOps := by
  cases hk : k.inOp
  · rw [Machine.inOps_leave hk]
    exact Finset.erase_eq_of_notMem (fun hm => by simp [Machine.mem_inOps, ← ho, hk] at hm)
  · rw [Machine.inOps_enter hk]
    have hm : (p, i) ∈ m.inOps := Machine.mem_inOps.mpr (ho ▸ hk)
    exact Finset.insert_eq_of_mem hm

/-- Locks, operations and the count as a step of the live thread `(p, i)` in
file-system code leaves them. -/
theorem LockInv.fsStep (h : LockInv m) {k : Kth} (hlive : m.Live p i)
    (hpc : (m.kth p i).pc.inFs = true) (hkpc : k.pc = (m.kth p i).pc)
    (hp : m'.proc = m.proc) (hk : m'.kth = (m.setKth p i k).kth)
    (ho : ∀ l, (m'.sleeplock l).locked = true → (m'.sleeplock l).owner = (p, i) ∧ l ∈ k.held ∨
      (m'.sleeplock l).owner ≠ (p, i) ∧ m'.sleeplock l = m.sleeplock l)
    (hh : ∀ l ∈ k.held, (m'.sleeplock l).locked = true ∧ (m'.sleeplock l).owner = (p, i))
    (hs : ∀ l, (m.sleeplock l).locked = true → (m.sleeplock l).owner ≠ (p, i) →
      m'.sleeplock l = m.sleeplock l)
    (hc : m'.log.outstanding = (m.setKth p i k).inOps.card) : LockInv m' := by
  have hother : ∀ q j, ¬ (q = p ∧ j = i) → m'.kth q j = m.kth q j := by
    intro q j hq
    simp [hk, Machine.setKth, hq]
  have hself : m'.kth p i = k := by simp [hk, Machine.setKth]
  constructor
  · intro l hl
    rcases ho l hl with ⟨hown, hmem⟩ | ⟨hown, heq⟩
    · rw [hown, hself]; exact hmem
    · rw [hother _ _ (fun hq => hown (Prod.ext hq.1 hq.2))]
      rw [heq] at hl ⊢
      exact h.owner l hl
  · intro q j l hl
    by_cases hq : q = p ∧ j = i
    · obtain ⟨rfl, rfl⟩ := hq
      rw [hself] at hl
      exact hh l hl
    · rw [hother q j hq] at hl
      obtain ⟨h1, h2⟩ := h.held q j l hl
      have hne : (m.sleeplock l).owner ≠ (p, i) := by
        rw [h2]
        simpa using hq
      rw [hs l h1 hne]
      exact ⟨h1, h2⟩
  · intro q j hb
    have hl : m.Live q j := by
      by_cases hq : q = p ∧ j = i
      · obtain ⟨rfl, rfl⟩ := hq; exact hlive
      · rw [hother q j hq] at hb
        exact h.live q j hb
    simpa [Machine.Live, hp] using hl
  · intro q j hb
    by_cases hq : q = p ∧ j = i
    · obtain ⟨rfl, rfl⟩ := hq
      rw [hself, hkpc]
      exact hpc
    · rw [hother q j hq] at hb ⊢
      exact h.inFs q j hb
  · rw [hc, Machine.inOps_congr (fun q j => by rw [hk])]

/-- A step of the thread `(p, i)` that touches no lock. -/
theorem LockInv.opStep (h : LockInv m) {k : Kth} (hlive : m.Live p i)
    (hpc : (m.kth p i).pc.inFs = true) (hkpc : k.pc = (m.kth p i).pc)
    (hkh : k.held = (m.kth p i).held) (hp : m'.proc = m.proc)
    (hk : m'.kth = (m.setKth p i k).kth) (hs : m'.sleeplock = m.sleeplock)
    (hc : m'.log.outstanding = (m.setKth p i k).inOps.card) : LockInv m' := by
  refine h.fsStep hlive hpc hkpc hp hk ?_ ?_ (fun l _ _ => by rw [hs]) hc
  · intro l hl
    rw [hs] at hl ⊢
    have hmem := h.owner l hl
    by_cases hown : (m.sleeplock l).owner = (p, i)
    · rw [hown] at hmem
      exact .inl ⟨hown, hkh ▸ hmem⟩
    · exact .inr ⟨hown, rfl⟩
  · intro l hl
    rw [hs]
    exact h.held p i l (hkh ▸ hl)

theorem LockInv.acquiresleep (h : LockInv m) {l : Nat} {k : Kth} {s : Sleeplock}
    (hlive : m.Live p i) (hpc : (m.kth p i).pc.inFs = true)
    (hl : ¬ (m.sleeplock l).locked = true) (hkpc : k.pc = (m.kth p i).pc)
    (hkh : k.held = l :: (m.kth p i).held) (hko : k.inOp = (m.kth p i).inOp)
    (hsl : s.locked = true) (hso : s.owner = (p, i)) (hp : m'.proc = m.proc)
    (hk : m'.kth = (m.setKth p i k).kth)
    (hs : m'.sleeplock = fun j => if j = l then s else m.sleeplock j) (hlog : m'.log = m.log) :
    LockInv m' := by
  refine h.fsStep hlive hpc hkpc hp hk ?_ ?_ ?_ ?_
  · intro j hj
    rw [hs] at hj ⊢
    by_cases hjl : j = l
    · exact .inl (by simp [hjl, hso, hkh])
    · simp only [hjl, if_false] at hj ⊢
      have hmem := h.owner j hj
      by_cases hown : (m.sleeplock j).owner = (p, i)
      · rw [hown] at hmem
        exact .inl ⟨hown, hkh ▸ List.mem_cons_of_mem _ hmem⟩
      · exact .inr ⟨hown, trivial⟩
  · intro j hj
    rw [hs]
    by_cases hjl : j = l
    · simp [hjl, hsl, hso]
    · simp only [hkh, List.mem_cons, hjl, false_or] at hj
      simpa [hjl] using h.held p i j hj
  · intro j hj _
    have hjl : j ≠ l := by
      rintro rfl
      exact hl hj
    simp [hs, hjl]
  · rw [hlog, Machine.inOps_setKth_same hko]
    exact h.count

theorem LockInv.releasesleep (h : LockInv m) {l : Nat} {k : Kth} {s : Sleeplock}
    (hlive : m.Live p i) (hpc : (m.kth p i).pc.inFs = true) (hl : l ∈ (m.kth p i).held)
    (hkpc : k.pc = (m.kth p i).pc) (hkh : k.held = (m.kth p i).held.filter (· ≠ l))
    (hko : k.inOp = (m.kth p i).inOp) (hsl : s.locked = false) (hp : m'.proc = m.proc)
    (hk : m'.kth = (m.setKth p i k).kth)
    (hs : m'.sleeplock = fun j => if j = l then s else m.sleeplock j) (hlog : m'.log = m.log) :
    LockInv m' := by
  have hown := (h.held p i l hl).2
  refine h.fsStep hlive hpc hkpc hp hk ?_ ?_ ?_ ?_
  · intro j hj
    rw [hs] at hj ⊢
    by_cases hjl : j = l
    · simp [hjl, hsl] at hj
    · simp only [hjl, if_false] at hj ⊢
      have hmem := h.owner j hj
      by_cases hjo : (m.sleeplock j).owner = (p, i)
      · rw [hjo] at hmem
        exact .inl ⟨hjo, by simpa [hkh, hjl] using hmem⟩
      · exact .inr ⟨hjo, trivial⟩
  · intro j hj
    simp only [hkh, ne_eq, decide_not, List.mem_filter, Bool.not_eq_eq_eq_not, Bool.not_true,
      decide_eq_false_iff_not] at hj
    simpa [hs, hj.2] using h.held p i j hj.1
  · intro j _ hjo
    have hjl : j ≠ l := by
      rintro rfl
      exact hjo hown
    simp [hs, hjl]
  · rw [hlog, Machine.inOps_setKth_same hko]
    exact h.count

theorem LockInv.fsCall (h : LockInv m) (hI : Inv m) (hr : (m.cpu c).mode = .running p i)
    (hpc : (m.kth p i).pc.inFs = true) {f : FsCall} (hs : m.fsCall c p i esp f = some m') :
    LockInv m' := by
  have hi := hI.thread_running hr
  have hon := hI.on c p i (.inr hr)
  have hlive : m.Live p i := ⟨.inr hon.2.1, .inr (.inl (hon.2.2 ▸ hi))⟩
  have hsl : ∀ {k : Kth} (ch : Chan), k.held = (m.kth p i).held → k.inOp = (m.kth p i).inOp →
      k.pc = (m.kth p i).pc →
      LockInv (((m.setKth p i k).acquire c).sleep c p i ch .sleep esp) := by
    intro k ch hh ho hp
    have h1 : LockInv (m.setKth p i k) := h.setKth hh ho (fun _ => by rw [hp])
    exact h1.acquire.sleep hi ch .sleep
  cases f with
  | beginOp =>
    simp only [Machine.fsCall] at hs
    split_ifs at hs with h1 h2 h3 <;> cases hs
    · exact hsl _ (by rfl) (by rfl) (by rfl)
    · refine h.opStep (k := { m.kth p i with pending := none, inOp := true })
        hlive hpc rfl rfl rfl rfl rfl ?_
      have hnot : (p, i) ∉ m.inOps := by rwa [Machine.mem_inOps]
      rw [Machine.inOps_enter rfl, Finset.card_insert_of_notMem hnot, ← h.count]
  | endOp =>
    simp only [Machine.fsCall] at hs
    split_ifs at hs with h1 h2
    all_goals
      have hmem : (p, i) ∈ m.inOps := by rw [Machine.mem_inOps]; exact h1.1
      cases hs
    · refine h.opStep (k := { m.kth p i with inOp := false, inCommit := true })
        hlive hpc rfl rfl rfl rfl rfl ?_
      rw [Machine.inOps_leave rfl, Finset.card_erase_of_mem hmem, ← h.count]
    · refine LockInv.wakeup1 ?_ _
      refine h.opStep (k := { m.kth p i with inOp := false }) hlive hpc rfl rfl rfl rfl rfl ?_
      rw [Machine.inOps_leave rfl, Finset.card_erase_of_mem hmem, ← h.count]
  | commitDone =>
    simp only [Machine.fsCall] at hs
    split_ifs at hs with h1
    cases hs
    refine LockInv.wakeup1 ?_ _
    have h2 : LockInv (m.setKth p i { m.kth p i with inCommit := false }) :=
      h.setKth rfl rfl (fun _ => rfl)
    exact h2.move (LikeAll.refl _) (fun _ hq => hq) rfl rfl rfl
  | logWrite new =>
    simp only [Machine.fsCall] at hs
    split_ifs at hs with h1 h2 <;> cases hs
    all_goals exact h.move (LikeAll.refl m) (fun _ hq => hq) rfl rfl rfl
  | acquiresleep l =>
    simp only [Machine.fsCall] at hs
    split_ifs at hs with h1 h2 <;> cases hs
    · exact hsl _ (by rfl) (by rfl) (by rfl)
    · exact h.acquiresleep (k := { m.kth p i with
          pending := none, held := l :: (m.kth p i).held })
        (s := { locked := true, pid := (m.proc p).pid, owner := (p, i) })
        hlive hpc h1 rfl rfl rfl rfl rfl rfl rfl rfl rfl
  | releasesleep l =>
    simp only [Machine.fsCall] at hs
    split_ifs at hs with h1
    cases hs
    refine LockInv.wakeup1 ?_ _
    exact h.releasesleep (k := { m.kth p i with held := (m.kth p i).held.filter (· ≠ l) })
      (s := { m.sleeplock l with locked := false, pid := 0 })
      hlive hpc h1.1 rfl rfl rfl rfl rfl rfl rfl rfl

end Calls

/-! ## Whole runs -/

/-- The threads that the call `k` of `(p, i)` removes. -/
def Machine.victims (m : Machine) (p : Slot) (i : ThIdx) : Call → List ThIdx
  | .execKill =>
    match (m.kth p i).pc with
    | .execKill n _ =>
      (List.finRange NTHREAD).filter (fun j => j.val = n ∧ j ≠ (m.proc p).thidx)
    | _ => []
  | .exitEnd => (List.finRange NTHREAD).filter (· ≠ i)
  | _ => []

/-- The condition on a call: no thread that `exec` or `exit` removes holds a
sleep-lock or is between `begin_op` and `end_op`. -/
def QuietVictims (m : Machine) (p : Slot) (i : ThIdx) (k : Call) : Prop :=
  ∀ j ∈ m.victims p i k, ¬ (m.kth p j).Busy

instance QuietVictims.decidable (m : Machine) (p : Slot) (i : ThIdx) (k : Call) :
    Decidable (QuietVictims m p i k) :=
  inferInstanceAs (Decidable (∀ _ ∈ _, _))

def FreeAndQuietVictims (m : Machine) (p : Slot) (i : ThIdx) (k : Call) : Prop :=
  FreeSlot m p i k ∧ QuietVictims m p i k

instance FreeAndQuietVictims.decidable (m : Machine) (p : Slot) (i : ThIdx) (k : Call) :
    Decidable (FreeAndQuietVictims m p i k) :=
  inferInstanceAs (Decidable (_ ∧ _))

section Runs

variable {m m' : Machine} {c : Nat} {p : Slot} {i : ThIdx} {esp : Nat}

theorem Machine.kill_state (m : Machine) (pid : Int) (q : Slot) :
    ((m.kill pid).proc q).state = (m.proc q).state := by
  unfold Machine.kill
  split
  · rfl
  · exact (Machine.same_setProc (Proc.same_kill _) q).state

theorem LockInv.call (h : LockInv m) (hI : Inv m) (hr : (m.cpu c).mode = .running p i) {k : Call}
    (hv : QuietVictims m p i k) (hs : CallStep m c p i esp k m') : LockInv m' := by
  have hi := hI.thread_running hr
  have hon := hI.on c p i (.inr hr)
  cases hs with
  | yield hl =>
    have h1 : LockInv (m.setKth p i { m.kth p i with resume := .yield }) :=
      h.setKth rfl rfl (fun _ => rfl)
    refine h1.move (LikeAll.yield hi c i esp) ?_ rfl rfl rfl
    intro q hq
    rw [Machine.yield, Machine.sched_state]
    by_cases hqp : q = p
    · subst hqp
      exact .inl (by simp [Machine.setKth, Machine.setProc, Proc.yield])
    · simpa [Machine.setKth, Machine.setProc, Machine.acquire, hqp] using hq
  | sleep => exact h.acquire.sleep hi _ _
  | kill =>
    refine h.move (LikeAll.kill m _) (fun q hq => by rw [m.kill_state]; exact hq) ?_ ?_ ?_ <;>
      unfold Machine.kill <;> split <;> rfl
  | fork _ hpc => exact h.allocproc (h.user (by rw [hpc]; rfl))
  | @forkKalloc page np th hpc =>
    have hcl : (m.kth p i).pc.claim = some (np, .EMBRYO) := by rw [hpc]; rfl
    cases page <;> exact h.forkStep hI hcl _ _
  | @forkCopy ok np hpc =>
    have hcl : (m.kth p i).pc.claim = some (np, .EMBRYO) := by rw [hpc]; rfl
    cases ok <;> exact h.forkStep hI hcl _ _
  | @forkFields np hpc =>
    have hcl : (m.kth p i).pc.claim = some (np, .EMBRYO) := by rw [hpc]; rfl
    exact h.forkStep hI hcl _ _
  | forkFinish _ hpc => exact h.forkFinish hI hpc
  | @undoAlloc np th hpc =>
    have hcl : (m.kth p i).pc.claim = some (np, .UNUSED) := by rw [hpc]; rfl
    cases th <;> exact h.forkStep hI hcl _ _
  | @undoFork np hpc =>
    have hcl : (m.kth p i).pc.claim = some (np, .UNUSED) := by rw [hpc]; rfl
    exact h.forkStep hI hcl _ _
  | exec hpc => exact h.setPc (h.user (by rw [hpc]; rfl)) _
  | @execKill n pages hpc =>
    refine h.execKill hpc ?_
    intro hn hne
    exact hv ⟨n, hn⟩ (by simp [Machine.victims, hpc, hne])
  | @execCommit img pages hpc hq =>
    have h1 : LockInv (m.setProc p ((m.proc p).execCommit img pages)) := by
      refine h.move (LikeAll.execCommit hi _ _) ?_ rfl rfl rfl
      intro q hq
      rw [(Machine.same_setProc (Proc.same_execCommit (hI.ok p) hon.2.1 _ _) q).state]
      exact hq
    exact h1.setPc (Kth.not_busy_of_quiet hq) _
  | execFail _ hq => exact h.setPc (Kth.not_busy_of_quiet hq) _
  | exit hpc => exact h.setPc (h.user (by rw [hpc]; rfl)) _
  | exitEnd _ _ hq =>
    refine h.exitEnd ?_
    intro k
    by_cases hk : k = i
    · rw [hk]; exact Kth.not_busy_of_quiet hq
    · exact hv k (by simp [Machine.victims, hk])
  | wait => exact h.acquire.waitLoop hi
  | threadCreate => exact h.threadCreate _ _ _
  | threadExit _ hpc => exact h.threadExit hI hr hpc _
  | threadJoin =>
    unfold Machine.threadJoin
    split
    · exact h
    · exact h.acquire.joinLoop hi _ _
  | fsEnter hpc => exact h.setPc (h.user (by rw [hpc]; rfl)) _
  | fsReturn _ hq => exact h.setPc (Kth.not_busy_of_quiet hq) _
  | fs hpc hf => exact h.fsCall hI hr hpc hf

theorem LockInv.schedule (h : LockInv m) (hs : m.schedule c = some m') : LockInv m' := by
  unfold Machine.schedule at hs
  split at hs
  · split_ifs at hs
    cases hs
    exact h.move (LikeAll.refl m) (fun _ hq => hq) rfl rfl rfl
  · split at hs <;> cases hs
    · rename_i p hp
      refine h.move (LikeAll.dispatch hp c) ?_ rfl rfl rfl
      intro q hq
      by_cases hqp : q = p
      · exact .inr (by simp [Machine.dispatch, Machine.setCpu, Machine.setProc, hqp,
          Proc.runThread])
      · simpa [Machine.dispatch, Machine.setCpu, Machine.setProc, hqp] using hq
    · exact h.move (LikeAll.refl m) (fun _ hq => hq) rfl rfl rfl
  · cases hs

theorem LockInv.resume (h : LockInv m) (hI : Inv m) (hs : m.resume c esp = some m') :
    LockInv m' := by
  unfold Machine.resume at hs
  split at hs
  · rename_i p i hk
    have h1 : LockInv (m.enter c p i) := by
      have h0 : LockInv (m.setKth p i { m.kth p i with resume := .onCpu }) :=
        h.setKth rfl rfl (fun _ => rfl)
      exact h0.move (LikeAll.refl _) (fun _ hq => hq) rfl rfl rfl
    have hstate : ∀ x : Proc, (((m.enter c p i).proc p).Same x) → ∀ q,
        ((m.enter c p i).proc q).state = .RUNNABLE ∨ ((m.enter c p i).proc q).state = .RUNNING →
        (((m.enter c p i).setProc p x).proc q).state = .RUNNABLE ∨
          (((m.enter c p i).setProc p x).proc q).state = .RUNNING := by
      intro x hx q hq
      rw [(Machine.same_setProc hx q).state]
      exact hq
    have h2 : LockInv ((m.enter c p i).schedTail p) :=
      h1.move (LikeAll.schedTail _ p) (hstate _ (Proc.same_copyprocth _ _)) rfl rfl rfl
    have hI' := (hI.enter hk).awake (p := p) (i := i)
    have h3 : LockInv ((m.enter c p i).awake p i) := by
      refine h1.move (LikeAll.awake _ p i) ?_ rfl rfl rfl
      intro q hq
      rw [Machine.awake_state]
      exact hq
    have hrun := hI'.thread_running (c := c) (p := p) (i := i)
      (by simp [Machine.awake, Machine.schedTail, Machine.setThread, Machine.setProc,
        Machine.enter, Machine.setCpu, Machine.setKth])
    split at hs
    · cases hs
    · cases hs; exact h1.release
    · cases hs; exact h2.release
    · cases hs; exact h3.release
    · cases hs; exact h3.waitLoop hrun
    · cases hs; exact h3.joinLoop hrun _ _
    · split_ifs at hs
      cases hs
      exact h2
  · cases hs

theorem LockInv.step (h : LockInv m) (hI : Inv m) {a : Act} (hv : OnCall QuietVictims m a)
    (hs : step m a = some m') : LockInv m' := by
  cases a with
  | schedule c => exact h.schedule hs
  | resume c esp => exact h.resume hI hs
  | wakeup n =>
    simp only [Lwp.step] at hs
    split_ifs at hs
    cases hs
    exact h.wakeup1 _
  | call c esp k =>
    simp only [Lwp.step] at hs
    split at hs
    · rename_i p i hr
      exact h.call hI hr (hv.of_running hr) (Machine.call_step hs)
    · cases hs

theorem LockInv.boot (page : Nat) : LockInv (boot page) := by
  have hk : ∀ p i, ((Lwp.boot page).kth p i).held = [] ∧ ((Lwp.boot page).kth p i).inOp = false := by
    intro p i
    simp only [Lwp.boot]
    split <;> simp
  have hb : ∀ p i, ¬ ((Lwp.boot page).kth p i).Busy := by
    intro p i
    simp [Kth.Busy, hk p i]
  constructor
  · intro l hl
    simp [Lwp.boot] at hl
  · intro p i l hl
    simp [(hk p i).1] at hl
  · exact fun p i h => absurd h (hb p i)
  · exact fun p i h => absurd h (hb p i)
  · have hops : (Lwp.boot page).inOps = ∅ := by
      refine Finset.eq_empty_of_forall_notMem ?_
      rintro ⟨p, i⟩ hm
      rw [Machine.mem_inOps, (hk p i).2] at hm
      cases hm
    rw [hops]
    rfl

end Runs

/-- The thread's slot is neither `UNUSED` nor `ZOMBIE`, and neither is its
process. -/
def Machine.CanRun (m : Machine) (p : Slot) (i : ThIdx) : Prop :=
  ((m.proc p).thread i).state ≠ .UNUSED ∧ ((m.proc p).thread i).state ≠ .ZOMBIE ∧
    (m.proc p).state ≠ .ZOMBIE ∧ (m.proc p).state ≠ .UNUSED

instance Machine.CanRun.decidable (m : Machine) (p : Slot) (i : ThIdx) :
    Decidable (m.CanRun p i) :=
  inferInstanceAs (Decidable (_ ∧ _))

/-- No lock and no operation belongs to a dead thread: the thread that acquired a
locked sleep-lock still holds it and can run, and `log.outstanding` is the number
of threads that can run and are between `begin_op` and `end_op`. -/
structure NoOrphan (m : Machine) : Prop where
  lock : ∀ l, (m.sleeplock l).locked = true →
    l ∈ (m.kth (m.sleeplock l).owner.1 (m.sleeplock l).owner.2).held ∧
      m.CanRun (m.sleeplock l).owner.1 (m.sleeplock l).owner.2
  ops : m.log.outstanding = (Finset.univ.filter (fun x : Slot × ThIdx =>
    m.CanRun x.1 x.2 ∧ (m.kth x.1 x.2).inOp = true)).card

theorem Machine.Live.canRun {m : Machine} {p : Slot} {i : ThIdx} (h : m.Live p i) :
    m.CanRun p i := by
  obtain ⟨hp, ht⟩ := h
  refine ⟨?_, ?_, ?_, ?_⟩
  · rcases ht with ht | ht | ht <;> simp [ht]
  · rcases ht with ht | ht | ht <;> simp [ht]
  · rcases hp with hp | hp <;> simp [hp]
  · rcases hp with hp | hp <;> simp [hp]

/-- In every run in which no thread removed by `exec` or `exit` holds a lock or
is inside an operation (and no `fork` takes a slot that is being given back), no
lock and no operation belongs to a dead thread. -/
theorem no_orphan_of_quiet_victims (page : Nat) (as : List Act) (m : Machine)
    (hok : Lib.Meets step (OnCall FreeAndQuietVictims) (boot page) as)
    (hr : Lib.run step (boot page) as = some m) : NoOrphan m := by
  have h : Inv m ∧ LockInv m := Lib.run_inv (I := fun s => Inv s ∧ LockInv s)
    (fun _ _ _ h hok hs => ⟨h.1.step (hok.mono fun _ _ _ _ hc => hc.1) hs,
      h.2.step h.1 (hok.mono fun _ _ _ _ hc => hc.2) hs⟩)
    as _ m ⟨Inv.boot page, LockInv.boot page⟩ hok hr
  constructor
  · intro l hl
    have hmem := h.2.owner l hl
    exact ⟨hmem, (h.2.live _ _ (.inl (List.ne_nil_of_mem hmem))).canRun⟩
  · rw [h.2.count]
    refine congrArg Finset.card ?_
    ext ⟨q, k⟩
    simp only [Machine.mem_inOps, Finset.mem_filter, Finset.mem_univ, true_and]
    exact ⟨fun ho => ⟨(h.2.live q k (.inr ho)).canRun, ho⟩, fun ho => ho.2⟩

/-- `init` creates a thread and calls `exec`, which removes it; then it opens the
program file inside an operation, with lock 3 held. -/
def execAlone : List Act :=
  [.call 0 0 (.threadCreate (some 8192) true true),
   .call 0 0 (.exec 1)] ++ List.replicate (NTHREAD + 1) (.call 0 0 .execKill) ++
  [.call 0 0 (.fs .beginOp), .call 0 0 (.fs (.acquiresleep 3))]

theorem no_orphan_execAlone : ∃ m, Lib.run step (boot 4096) (startInit ++ execAlone) = some m ∧
    (m.sleeplock 3).locked = true ∧ m.log.outstanding = 1 ∧ NoOrphan m := by
  have hrun : (Lib.run step (initReady 4096) execAlone).any (fun m =>
      (m.sleeplock 3).locked = true ∧ m.log.outstanding = 1) := by
    decide +kernel
  obtain ⟨m, hr, hm⟩ := (Option.any_eq_true _ _).mp hrun
  rw [← run_init] at hr
  simp only [decide_eq_true_eq] at hm
  exact ⟨m, hr, hm.1, hm.2,
    no_orphan_of_quiet_victims 4096 _ m (meets_init (by decide +kernel) (by decide +kernel)) hr⟩

/-- The created thread waits for the disk inside an operation, with lock 3 held.
`init` calls `exec`, which removes it. -/
def orphanedLock : List Act :=
  [.call 0 0 (.threadCreate (some 8192) true true),
   .call 0 0 .yield, .schedule 0, .schedule 0, .schedule 0, .resume 0 0,
   .call 0 0 .fsEnter, .call 0 0 (.fs .beginOp), .call 0 0 (.fs (.acquiresleep 3)),
   .call 0 0 (.sleep 9), .schedule 0, .schedule 0, .schedule 0, .resume 0 0,
   .call 0 0 (.exec 1)] ++ List.replicate (NTHREAD + 1) (.call 0 0 .execKill)

theorem orphanedLock_not_free : ∃ m, Lib.run step (boot 4096) (startInit ++ orphanedLock) = some m ∧
    m.log.outstanding = 1 ∧ ¬ NoOrphan m := by
  have hrun : (Lib.run step (initReady 4096) orphanedLock).any (fun m =>
      m.log.outstanding = 1 ∧ (m.sleeplock 3).locked = true ∧
        (m.sleeplock 3).owner = (0, 1) ∧ ((m.proc 0).thread 1).state = .UNUSED) := by
    decide +kernel
  obtain ⟨m, hr, hm⟩ := (Option.any_eq_true _ _).mp hrun
  rw [← run_init] at hr
  simp only [decide_eq_true_eq] at hm
  obtain ⟨hout, hlock, hown, hst⟩ := hm
  refine ⟨m, hr, hout, fun h => ?_⟩
  have hrun := (h.lock 3 hlock).2.1
  rw [hown] at hrun
  exact hrun hst

end Xv6.Lwp
