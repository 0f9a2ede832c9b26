import Xv6.Lwp.Machine

/- The scheduling invariant of the LWP kernel. `Inv` ties the state of each
   process to the states of its threads, each process to the CPU that runs it,
   and each slot under construction to the one `fork` that builds it. The rules
   say which changes keep it: nothing that scheduling reads has changed
   (`Inv.frame`), a slot that no CPU runs has changed (`Inv.table`, and
   `Inv.build` for the thread that builds it), a thread has left its CPU
   (`Inv.leave`, `Inv.sched`, `Inv.sleep`). -/
namespace Xv6.Lwp

/-- A thread slot without a thread that has run. -/
def Thread.Idle (th : Thread) : Prop := th.state = .UNUSED ∨ th.state = .EMBRYO

/-- A process slot that is free or under construction. -/
def Proc.Unborn (x : Proc) : Prop := x.state = .UNUSED ∨ x.state = .EMBRYO

/-- Process and thread states of one record agree: a running process runs the
thread `thidx` and no other, a process that is neither running nor a zombie runs
none, and a slot that is not in use has no thread. -/
structure Proc.Ok (x : Proc) : Prop where
  running : x.state = .RUNNING → ∀ j, (x.thread j).state = .RUNNING ↔ j = x.thidx
  waiting : x.state ≠ .RUNNING → x.state ≠ .ZOMBIE → ∀ j, (x.thread j).state ≠ .RUNNING
  unborn : x.Unborn → ∀ j, (x.thread j).Idle

/-- The slot a thread is responsible for in the middle of `fork`, and the state
that slot has meanwhile. -/
def Pc.claim : Pc → Option (Slot × ProcState)
  | .forkKalloc np _ | .forkCopy np | .forkFields np | .forkFinish np => some (np, .EMBRYO)
  | .undoAlloc np _ | .undoFork np => some (np, .UNUSED)
  | _ => none

theorem Pc.claim_state {pc : Pc} {np : Slot} {s : ProcState} (h : pc.claim = some (np, s)) :
    s = .EMBRYO ∨ s = .UNUSED := by
  cases pc <;> simp [Pc.claim] at h <;> simp [h]

/-- The scheduler's side of a CPU: `ptable.lock` is held for it. -/
def Mode.busy : Mode → Prop
  | .scan _ | .switched _ _ => True
  | _ => False

/-- The CPU is in thread `i` of process `p`, or about to be. -/
def Mode.at (k : Mode) (p : Slot) (i : ThIdx) : Prop := k = .switched p i ∨ k = .running p i

structure Inv (m : Machine) : Prop where
  ok : ∀ p, (m.proc p).Ok
  on : ∀ c p i, (m.cpu c).mode.at p i →
    (m.cpu c).proc = some p ∧ (m.proc p).state = .RUNNING ∧ (m.proc p).thidx = i
  off : ∀ c p, (m.cpu c).proc = some p → ∃ i, (m.cpu c).mode.at p i
  one : ∀ c d p, (m.cpu c).proc = some p → (m.cpu d).proc = some p → c = d
  held : ∀ c, (m.cpu c).mode.busy → m.lock = some c
  claim : ∀ p i np s, (m.kth p i).pc.claim = some (np, s) → (m.proc np).state = s
  owner : ∀ p i q j np, (m.kth p i).pc.claim = some (np, .EMBRYO) →
    (m.kth q j).pc.claim = some (np, .EMBRYO) → p = q ∧ i = j

/-- Two records that scheduling cannot tell apart. -/
structure Proc.Same (x y : Proc) : Prop where
  state : y.state = x.state
  thidx : y.thidx = x.thidx
  running : ∀ j, (y.thread j).state = .RUNNING ↔ (x.thread j).state = .RUNNING
  idle : x.Unborn → ∀ j, (x.thread j).Idle → (y.thread j).Idle

/-- No thread is responsible for a slot it was not responsible for before. -/
def NoClaim (m m' : Machine) : Prop :=
  ∀ q j, (m'.kth q j).pc.claim = (m.kth q j).pc.claim ∨ (m'.kth q j).pc.claim = none

namespace Proc

variable {x y z : Proc}

/-- Records with the same threads. -/
theorem same_of_eq (hs : y.state = x.state) (ht : y.thidx = x.thidx) (hj : y.thread = x.thread) :
    x.Same y :=
  ⟨hs, ht, fun j => by rw [hj], fun _ j hi => by rw [hj]; exact hi⟩

theorem Same.refl (x : Proc) : x.Same x := same_of_eq rfl rfl rfl

theorem Same.unborn (h : x.Same y) : y.Unborn ↔ x.Unborn := by
  simp only [Unborn, h.state]

theorem Same.trans (h : x.Same y) (h' : y.Same z) : x.Same z :=
  ⟨h'.state.trans h.state, h'.thidx.trans h.thidx, fun j => (h'.running j).trans (h.running j),
    fun hu j hi => h'.idle (h.unborn.mpr hu) j (h.idle hu j hi)⟩

theorem Same.ok (h : x.Same y) (hx : x.Ok) : y.Ok := by
  constructor
  · intro hs j
    rw [h.running j, h.thidx]
    exact hx.running (h.state ▸ hs) j
  · intro hs hz j hj
    exact hx.waiting (h.state ▸ hs) (h.state ▸ hz) j ((h.running j).mp hj)
  · intro hu j
    exact h.idle (h.unborn.mp hu) j (hx.unborn (h.unborn.mp hu) j)

/-- Writes to one thread that neither start nor stop it. -/
theorem same_of_thread (i : ThIdx) (hs : y.state = x.state) (ht : y.thidx = x.thidx)
    (hj : ∀ j, j ≠ i → y.thread j = x.thread j)
    (hi : (y.thread i).state = .RUNNING ↔ (x.thread i).state = .RUNNING)
    (hu : x.Unborn → (x.thread i).Idle → (y.thread i).Idle) : x.Same y := by
  refine ⟨hs, ht, fun j => ?_, fun hx j => ?_⟩
  · by_cases he : j = i
    · subst he; exact hi
    · rw [hj j he]
  · by_cases he : j = i
    · subst he; exact hu hx
    · rw [hj j he]; exact id

theorem same_copyprocth (x : Proc) (i : ThIdx) : x.Same (x.copyprocth i) :=
  same_of_thread i rfl rfl (fun j hj => by simp [copyprocth, hj]) (by simp [copyprocth])
    (by simp [copyprocth, Thread.Idle])

/-- A record that is not `RUNNING` and runs no thread. -/
theorem ok_of_waiting (hs : x.state ≠ .RUNNING) (hj : ∀ j, (x.thread j).state ≠ .RUNNING)
    (hu : x.Unborn → ∀ j, (x.thread j).Idle) : x.Ok :=
  ⟨fun h => absurd h hs, fun _ _ => hj, hu⟩

/-- A record without a thread that has run. -/
theorem ok_of_idle (hs : x.state ≠ .RUNNING) (hj : ∀ j, (x.thread j).Idle) : x.Ok := by
  refine ok_of_waiting hs ?_ (fun _ => hj)
  intro j hr
  simpa [Thread.Idle, hr] using hj j

end Proc

theorem NoClaim.refl (m : Machine) : NoClaim m m := fun _ _ => .inl rfl

theorem NoClaim.of_kth {m m' : Machine} (h : m'.kth = m.kth) : NoClaim m m' := by
  intro q j
  rw [h]
  exact .inl rfl

section Rules

variable {m m' : Machine} {c : Nat} {p np : Slot} {i : ThIdx}

theorem Inv.not_busy (h : Inv m) (hl : m.lock = none) (d : Nat) : ¬ (m.cpu d).mode.busy := by
  intro hb
  have hd := h.held d hb
  simp [hl] at hd

/-- The CPU that holds the lock in thread code is the only one that could be
busy scheduling. -/
theorem Inv.not_busy_of_running (h : Inv m) (hr : (m.cpu c).mode = .running p i)
    (hl : m.lock = none ∨ m.lock = some c) (d : Nat) : ¬ (m.cpu d).mode.busy := by
  intro hb
  have hd := h.held d hb
  rcases hl with hl | hl
  · simp [hl] at hd
  · rw [hl, Option.some.injEq] at hd
    subst hd
    simp [hr, Mode.busy] at hb

theorem NoClaim.claim (hk : NoClaim m m') {q : Slot} {j : ThIdx} {s : ProcState}
    (hc : (m'.kth q j).pc.claim = some (np, s)) : (m.kth q j).pc.claim = some (np, s) := by
  rcases hk q j with he | he
  · rw [← he]; exact hc
  · simp [he] at hc

/-- Nothing that scheduling reads has changed. -/
theorem Inv.frame (h : Inv m) (hp : ∀ q, (m.proc q).Same (m'.proc q)) (hc : m'.cpu = m.cpu)
    (hl : ∀ d, (m.cpu d).mode.busy → m'.lock = some d) (hk : NoClaim m m') : Inv m' := by
  constructor
  · exact fun q => (hp q).ok (h.ok q)
  · intro d q j hd
    rw [hc] at hd ⊢
    rw [(hp q).state, (hp q).thidx]
    exact h.on d q j hd
  · rw [hc]; exact h.off
  · rw [hc]; exact h.one
  · rw [hc]; exact hl
  · intro q j r s hs
    rw [(hp r).state]
    exact h.claim q j r s (hk.claim hs)
  · intro q j q' j' r hq hq'
    exact h.owner q j q' j' r (hk.claim hq) (hk.claim hq')

/-- The slot `np`, which no CPU runs, has changed; who is responsible for a slot
is shown separately. -/
theorem Inv.table (h : Inv m) (np : Slot) (hn : (m.proc np).state ≠ .RUNNING) (hok : (m'.proc np).Ok)
    (hn' : (m'.proc np).state ≠ .RUNNING) (hp : ∀ q, q ≠ np → (m.proc q).Same (m'.proc q))
    (hc : m'.cpu = m.cpu) (hl : ∀ d, (m.cpu d).mode.busy → m'.lock = some d)
    (hcl : ∀ q j r s, (m'.kth q j).pc.claim = some (r, s) → (m'.proc r).state = s)
    (how : ∀ q j q' j' r, (m'.kth q j).pc.claim = some (r, .EMBRYO) →
      (m'.kth q' j').pc.claim = some (r, .EMBRYO) → q = q' ∧ j = j') : Inv m' := by
  constructor
  · intro q
    by_cases hq : q = np
    · subst hq; exact hok
    · exact (hp q hq).ok (h.ok q)
  · intro d q j hd
    rw [hc] at hd ⊢
    have hon := h.on d q j hd
    have hq : q ≠ np := by
      rintro rfl
      exact hn hon.2.1
    rw [(hp q hq).state, (hp q hq).thidx]
    exact hon
  · rw [hc]; exact h.off
  · rw [hc]; exact h.one
  · rw [hc]; exact hl
  · exact hcl
  · exact how

/-- The thread on CPU `c` has left it, with the lock held. -/
theorem Inv.leave (h : Inv m) (hr : (m.cpu c).mode = .running p i)
    (hl : m.lock = none ∨ m.lock = some c) (hok : (m'.proc p).Ok)
    (hs : (m'.proc p).state ≠ .RUNNING) (hp : ∀ q, q ≠ p → (m.proc q).Same (m'.proc q))
    (hc : ∀ d, m'.cpu d = if d = c then { mode := .scan (p + 1) } else m.cpu d)
    (hl' : m'.lock = some c) (hk : NoClaim m m') : Inv m' := by
  have hon := h.on c p i (.inr hr)
  constructor
  · intro q
    by_cases hq : q = p
    · subst hq; exact hok
    · exact (hp q hq).ok (h.ok q)
  · intro d q j hd
    rw [hc d] at hd ⊢
    by_cases hdc : d = c
    · simp [hdc, Mode.at] at hd
    · simp only [hdc, if_false] at hd ⊢
      have hod := h.on d q j hd
      have hq : q ≠ p := by
        rintro rfl
        exact hdc (h.one d c q hod.1 hon.1)
      rw [(hp q hq).state, (hp q hq).thidx]
      exact hod
  · intro d q hd
    rw [hc d] at hd ⊢
    by_cases hdc : d = c
    · simp [hdc] at hd
    · simp only [hdc, if_false] at hd ⊢
      exact h.off d q hd
  · intro d e q hd he
    rw [hc d] at hd
    rw [hc e] at he
    by_cases hdc : d = c
    · simp [hdc] at hd
    · by_cases hec : e = c
      · simp [hec] at he
      · simp only [hdc, hec, if_false] at hd he
        exact h.one d e q hd he
  · intro d hd
    by_cases hdc : d = c
    · rw [hl', hdc]
    · rw [hc d, if_neg hdc] at hd
      exact absurd hd (h.not_busy_of_running hr hl d)
  · -- the slots in `fork` are not `p`, which was running
    intro q j r s hq
    have hcl := h.claim q j r s (hk.claim hq)
    have hrp : r ≠ p := by
      rintro rfl
      have hst := Pc.claim_state hq
      simp [← hcl, hon.2.1] at hst
    rw [(hp r hrp).state]
    exact hcl
  · intro q j q' j' r hq hq'
    exact h.owner q j q' j' r (hk.claim hq) (hk.claim hq')

/-- The thread `(p, i)`, which builds the child in slot `np`, has changed that
slot: it goes on building, or gives the slot back, or is done. -/
theorem Inv.build (h : Inv m) (hpc : (m.kth p i).pc.claim = some (np, .EMBRYO))
    (hok : (m'.proc np).Ok) (hn' : (m'.proc np).state ≠ .RUNNING)
    (hp : ∀ q, q ≠ np → (m.proc q).Same (m'.proc q)) (hc : m'.cpu = m.cpu)
    (hl : ∀ d, (m.cpu d).mode.busy → m'.lock = some d)
    (hk : ∀ q j, ¬ (q = p ∧ j = i) →
      (m'.kth q j).pc.claim = (m.kth q j).pc.claim ∨ (m'.kth q j).pc.claim = none)
    (hpc' : (m'.kth p i).pc.claim = none ∨ (m'.kth p i).pc.claim = some (np, (m'.proc np).state)) :
    Inv m' := by
  have hn : (m.proc np).state = .EMBRYO := h.claim p i np _ hpc
  -- a claim of another thread is an old one, and not on `np`
  have hold : ∀ q j r s, ¬ (q = p ∧ j = i) → (m'.kth q j).pc.claim = some (r, s) →
      (m.kth q j).pc.claim = some (r, s) ∧ r ≠ np := by
    intro q j r s hne hq
    have hq' : (m.kth q j).pc.claim = some (r, s) := by
      rcases hk q j hne with he | he
      · rw [← he]; exact hq
      · simp [he] at hq
    refine ⟨hq', ?_⟩
    rintro rfl
    have hs := h.claim q j r s hq'
    rw [hn] at hs
    subst hs
    exact hne (h.owner q j p i r hq' hpc)
  refine h.table np (by simp [hn]) hok hn' hp hc hl ?_ ?_
  · intro q j r s hq
    by_cases hne : q = p ∧ j = i
    · obtain ⟨rfl, rfl⟩ := hne
      rcases hpc' with he | he
      · simp [he] at hq
      · rw [he, Option.some.injEq, Prod.mk.injEq] at hq
        obtain ⟨rfl, rfl⟩ := hq
        rfl
    · obtain ⟨hq', hr⟩ := hold q j r s hne hq
      rw [(hp r hr).state]
      exact h.claim q j r s hq'
  · intro q j q' j' r hq hq'
    by_cases hne : q = p ∧ j = i <;> by_cases hne' : q' = p ∧ j' = i
    · exact ⟨hne.1.trans hne'.1.symm, hne.2.trans hne'.2.symm⟩
    · obtain ⟨hold', hr⟩ := hold q' j' r _ hne' hq'
      obtain ⟨rfl, rfl⟩ := hne
      rcases hpc' with he | he
      · simp [he] at hq
      · rw [he, Option.some.injEq, Prod.mk.injEq] at hq
        exact absurd hq.1.symm hr
    · obtain ⟨hold', hr⟩ := hold q j r _ hne hq
      obtain ⟨rfl, rfl⟩ := hne'
      rcases hpc' with he | he
      · simp [he] at hq'
      · rw [he, Option.some.injEq, Prod.mk.injEq] at hq'
        exact absurd hq'.1.symm hr
    · exact h.owner q j q' j' r (hold q j r _ hne hq).1 (hold q' j' r _ hne' hq').1

/-- `sched` in a process that is no longer marked `RUNNING`. -/
theorem Inv.sched (h : Inv m) (hr : (m.cpu c).mode = .running p i)
    (hl : m.lock = none ∨ m.lock = some c) (hok : (m'.proc p).Ok)
    (hs : (m'.proc p).state ≠ .RUNNING) (hp : ∀ q, q ≠ p → (m.proc q).Same (m'.proc q))
    (hc : m'.cpu = m.cpu) (hl' : m'.lock = some c) (hk : NoClaim m m') (esp : Nat) :
    Inv (m'.sched c p i esp) := by
  have hsame : (m'.proc p).Same ((m'.sched c p i esp).proc p) := by
    have h1 : (m'.proc p).Same
        { (m'.proc p).copythproc (m'.proc p).thidx with context := esp } :=
      Proc.same_of_eq rfl rfl rfl
    simpa [Machine.sched, Machine.setCpu, Machine.setProc] using
      h1.trans (Proc.same_copyprocth _ i)
  refine h.leave hr hl (hsame.ok hok) (hsame.state ▸ hs) ?_ ?_ hl' hk
  · intro q hq
    simpa [Machine.sched, Machine.setCpu, Machine.setProc, hq] using hp q hq
  · intro d
    simp [Machine.sched, Machine.setCpu, Machine.setProc, hc]

/-- A thread goes to sleep with the lock held. -/
theorem Inv.sleep (h : Inv m) (hr : (m.cpu c).mode = .running p i) (hl : m.lock = some c)
    (ch : Chan) (rs : Resume) (esp : Nat) : Inv (m.sleep c p i ch rs esp) := by
  have hon := h.on c p i (.inr hr)
  refine h.sched hr (.inr hl) ?_ ?_ ?_ ?_ ?_ ?_ esp
  · have hok := (h.ok p).running hon.2.1
    refine Proc.ok_of_waiting ?_ ?_ ?_
    · simp [Machine.setKth, Machine.setProc, Proc.sleep]
    · intro j
      by_cases he : j = (m.proc p).thidx
      · simp [Machine.setKth, Machine.setProc, Proc.sleep, he]
      · simpa [Machine.setKth, Machine.setProc, Proc.sleep, he] using hok j
    · simp [Machine.setKth, Machine.setProc, Proc.sleep, Proc.Unborn]
  · simp [Machine.setKth, Machine.setProc, Proc.sleep]
  · intro q hq
    simpa [Machine.setKth, Machine.setProc, hq] using Proc.Same.refl _
  · rfl
  · exact hl
  · intro q j
    by_cases he : q = p ∧ j = i
    · obtain ⟨rfl, rfl⟩ := he
      simp [Machine.setKth, Machine.setProc]
    · simp [Machine.setKth, Machine.setProc, he]

end Rules

end Xv6.Lwp
