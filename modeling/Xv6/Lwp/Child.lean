import Xv6.Lwp.Init
import Xv6.Lwp.Threads

/- The thread table of a forked child (`project2_LWP/proc.c`). `allocproc` gives
   the child the thread slot that `allocth` finds; `fork` later starts
   `thread[thidx]`, with the `thidx` that the slot's last process left behind.
   The two agree in a clean slot (`Machine.Clean`): `thidx` is 0, every thread
   entry is `UNUSED`, and no failed `fork` has still to give the slot back.
   `Watched` adds to the machine which tids were handed out, and which of them
   before a thread's last `fork`. -/
namespace Xv6.Lwp

/-- The machine with the tids taken from `nexttid` so far, and those taken before
a thread called `fork`. -/
structure Watched where
  m : Machine
  handed : List Nat
  before : Slot → ThIdx → List Nat

/-- A step of the machine; `allocth` takes one tid at most. -/
def watch (s : Watched) (a : Act) : Option Watched :=
  (step s.m a).map fun m' =>
    { m := m'
      handed := if m'.nexttid = s.m.nexttid then s.handed else s.handed ++ [s.m.nexttid]
      before :=
        match s.m.caller a with
        | some (p, i, .fork) => fun q j => if q = p ∧ j = i then s.handed else s.before q j
        | _ => s.before }

/-- `userinit` has handed out tid 1. -/
def Watched.boot (page : Nat) : Watched :=
  { m := Lwp.boot page, handed := [1], before := fun _ _ => [] }

/-- The slot `allocproc` would take was left clean. -/
def Machine.Clean (m : Machine) : Prop :=
  match (List.finRange NPROC).find? (fun q => (m.proc q).state = .UNUSED) with
  | none => True
  | some np => (m.proc np).thidx = 0 ∧ (∀ j, ((m.proc np).thread j).state = .UNUSED) ∧
      ∀ q j, (m.kth q j).pc.claim ≠ some (np, .UNUSED)

instance Machine.Clean.decidable (m : Machine) : Decidable m.Clean :=
  match h : (List.finRange NPROC).find? (fun q => (m.proc q).state = .UNUSED) with
  | none => .isTrue (by simp [Machine.Clean, h])
  | some np =>
    decidable_of_iff ((m.proc np).thidx = 0 ∧ (∀ j, ((m.proc np).thread j).state = .UNUSED) ∧
      ∀ q j, (m.kth q j).pc.claim ≠ some (np, .UNUSED)) (by simp [Machine.Clean, h])

/-- The condition on a call: a `fork` takes a clean slot. -/
def CleanSlot (m : Machine) (_ : Slot) (_ : ThIdx) (k : Call) : Prop := k = .fork → m.Clean

instance CleanSlot.decidable (m : Machine) (p : Slot) (i : ThIdx) (k : Call) :
    Decidable (CleanSlot m p i k) :=
  inferInstanceAs (Decidable (_ → _))

theorem Machine.Clean.free {m : Machine} (h : m.Clean) : m.Free := by
  unfold Machine.Clean at h
  unfold Machine.Free
  split
  · trivial
  · rename_i np hnp
    rw [hnp] at h
    exact h.2.2

/-- What `fork` promises about the child in slot `np` when it returns in thread
`(p, i)`. -/
structure Watched.Child (s : Watched) (p : Slot) (i : ThIdx) (np : Slot) : Prop where
  only : ∀ j, ((s.m.proc np).thread j).state ≠ .UNUSED → j = (s.m.proc np).thidx
  runnable : ((s.m.proc np).thread (s.m.proc np).thidx).state = .RUNNABLE
  nonzero : ((s.m.proc np).thread (s.m.proc np).thidx).tid ≠ 0
  taken : ((s.m.proc np).thread (s.m.proc np).thidx).tid ∈ s.handed
  fresh : ((s.m.proc np).thread (s.m.proc np).thidx).tid ∉ s.before p i

/-- The child under construction has one thread, in slot 0 as `thidx` says. -/
structure ForkInv (s : Watched) : Prop where
  pos : 0 < s.m.nexttid
  handed : ∀ t ∈ s.handed, 0 < t ∧ t < s.m.nexttid
  build : ∀ p i np, (s.m.kth p i).pc.claim = some (np, .EMBRYO) →
    (s.m.proc np).thidx = 0 ∧ (∀ j, j ≠ 0 → ((s.m.proc np).thread j).state = .UNUSED) ∧
    ((s.m.proc np).thread 0).tid ∈ s.handed ∧ ((s.m.proc np).thread 0).tid ∉ s.before p i

/-! ## Steps that leave slots under construction alone -/

/-- The second record is not under construction, or its threads are as before. -/
def Proc.Steady (x y : Proc) : Prop :=
  y.state = .EMBRYO → x.state = .EMBRYO ∧ y.thidx = x.thidx ∧
    ∀ j, (y.thread j).state = (x.thread j).state ∧ (y.thread j).tid = (x.thread j).tid

def SteadyAll (m m' : Machine) : Prop :=
  m.nexttid ≤ m'.nexttid ∧ ∀ q, (m.proc q).Steady (m'.proc q)

theorem Proc.Steady.refl (x : Proc) : x.Steady x := fun h => ⟨h, rfl, fun _ => ⟨rfl, rfl⟩⟩

theorem Proc.Steady.trans {x y z : Proc} (h : x.Steady y) (h' : y.Steady z) : x.Steady z := by
  intro hz
  obtain ⟨hy, ht, hj⟩ := h' hz
  obtain ⟨hx, ht', hj'⟩ := h hy
  exact ⟨hx, ht.trans ht', fun j => ⟨(hj j).1.trans (hj' j).1, (hj j).2.trans (hj' j).2⟩⟩

theorem Proc.steady_of_ne {x y : Proc} (h : y.state ≠ .EMBRYO) : x.Steady y := fun he => absurd he h

theorem Proc.steady_of_eq {x y : Proc} (hs : y.state = x.state) (ht : y.thidx = x.thidx)
    (hj : ∀ j, (y.thread j).state = (x.thread j).state ∧ (y.thread j).tid = (x.thread j).tid) :
    x.Steady y := fun he => ⟨hs ▸ he, ht, hj⟩

section Rules

variable {m m' m'' : Machine} {c esp : Nat} {p np : Slot} {i : ThIdx}

theorem SteadyAll.trans (h : SteadyAll m m') (h' : SteadyAll m' m'') : SteadyAll m m'' :=
  ⟨h.1.trans h'.1, fun q => (h.2 q).trans (h'.2 q)⟩

theorem SteadyAll.of_proc (hn : m.nexttid ≤ m'.nexttid) (hp : m'.proc = m.proc) : SteadyAll m m' :=
  ⟨hn, fun q => by rw [hp]; exact .refl _⟩

theorem SteadyAll.setProc (m : Machine) (p : Slot) {x : Proc} (hx : (m.proc p).Steady x) :
    SteadyAll m (m.setProc p x) := by
  refine ⟨le_rfl, fun q => ?_⟩
  by_cases hq : q = p
  · simpa [Machine.setProc, hq] using hx
  · simpa [Machine.setProc, hq] using Proc.Steady.refl _

theorem SteadyAll.wakeup1 (m : Machine) (chan : Option Chan) : SteadyAll m (m.wakeup1 chan) := by
  refine ⟨le_rfl, fun q => ?_⟩
  show (m.proc q).Steady (Machine.wakeProc chan (m.proc q))
  unfold Machine.wakeProc
  split
  · rename_i hs
    refine Proc.steady_of_ne ?_
    rcases hs with hs | hs <;> simp [hs]
  · exact .refl _

theorem Proc.steady_copyprocth (x : Proc) (i : ThIdx) : x.Steady (x.copyprocth i) := by
  refine Proc.steady_of_eq rfl rfl (fun j => ?_)
  by_cases hj : j = i
  · simp [Proc.copyprocth, hj]
  · simp [Proc.copyprocth, hj]

theorem SteadyAll.sched (m : Machine) (c : Nat) (p : Slot) (i : ThIdx) (esp : Nat) :
    SteadyAll m (m.sched c p i esp) := by
  have h1 : (m.proc p).Steady
      { (m.proc p).copythproc (m.proc p).thidx with context := esp } :=
    Proc.steady_of_eq rfl rfl (fun _ => ⟨rfl, rfl⟩)
  exact SteadyAll.setProc m p (h1.trans (Proc.steady_copyprocth _ i))

theorem SteadyAll.sleep (m : Machine) (c : Nat) (p : Slot) (i : ThIdx) (ch : Chan) (rs : Resume)
    (esp : Nat) : SteadyAll m (m.sleep c p i ch rs esp) := by
  have h1 : SteadyAll m (m.setProc p ((m.proc p).sleep ch)) :=
    SteadyAll.setProc m p (Proc.steady_of_ne (by simp [Proc.sleep]))
  exact h1.trans
    (SteadyAll.sched ((m.setProc p ((m.proc p).sleep ch)).setKth p i { m.kth p i with resume := rs })
      c p i esp)

theorem SteadyAll.abandon (m : Machine) (p : Slot) : SteadyAll m (m.abandon p) := by
  have hadopt : ∀ (w : Machine), SteadyAll w
      { w with proc := fun q => Machine.adopt m.initproc p (w.proc q) } := by
    intro w
    refine ⟨le_rfl, fun q => ?_⟩
    show (w.proc q).Steady (Machine.adopt m.initproc p (w.proc q))
    unfold Machine.adopt
    split
    · exact Proc.steady_of_eq rfl rfl (fun _ => ⟨rfl, rfl⟩)
    · exact .refl _
  have h1 : SteadyAll m (m.wakeup1 ((m.proc p).parent.map .proc)) := .wakeup1 _ _
  simp only [Machine.abandon]
  split
  · exact (h1.trans (hadopt _)).trans (.wakeup1 _ _)
  · exact h1.trans (hadopt _)

theorem SteadyAll.exitEnd (m : Machine) (c : Nat) (p : Slot) (i : ThIdx) (esp : Nat) :
    SteadyAll m (m.exitEnd c p i esp) := by
  have h1 : SteadyAll m ((m.acquire c).abandon p) := SteadyAll.abandon (m.acquire c) p
  have h2 := h1.trans (SteadyAll.setProc ((m.acquire c).abandon p) p
    (x := { ((m.acquire c).abandon p).proc p with state := .ZOMBIE }) (Proc.steady_of_ne (by simp)))
  exact h2.trans (SteadyAll.sched ((((m.acquire c).abandon p).setProc p _).setPc p i .dead) c p i esp)

theorem SteadyAll.threadExit (hs : (m.proc p).state = .RUNNING) (c : Nat) (i : ThIdx) (v esp : Nat) :
    SteadyAll m (m.threadExit c p i v esp) := by
  have hx : ((m.proc p).threadExit v).state ≠ .EMBRYO := by
    unfold Proc.threadExit
    split <;> simp [hs]
  have h1 : SteadyAll m ((m.acquire c).leaveThread p i v) := by
    have h2 : SteadyAll m (((m.acquire c).setProc p ((m.proc p).threadExit v)).setKth p i
        { m.kth p i with resume := .threadExit, exit := some m.exits.length }) :=
      SteadyAll.setProc m p (Proc.steady_of_ne hx)
    exact (h2.trans (.wakeup1 _ _)).trans (SteadyAll.setProc _ p (Proc.steady_of_ne (by simp)))
  exact h1.trans (SteadyAll.sched ((m.acquire c).leaveThread p i v) c p i esp)

theorem SteadyAll.waitLoop (m : Machine) (c : Nat) (p : Slot) (i : ThIdx) (esp : Nat) :
    SteadyAll m (m.waitLoop c p i esp) := by
  unfold Machine.waitLoop
  split
  · rename_i r _
    exact SteadyAll.setProc m r (Proc.steady_of_ne (by simp [Proc.reap]))
  · split
    · exact .of_proc le_rfl rfl
    · exact .sleep m c p i _ _ esp

theorem SteadyAll.joinLoop (hs : (m.proc p).state = .RUNNING) (c : Nat) (i j : ThIdx) (tid esp : Nat) :
    SteadyAll m (m.joinLoop c p i j tid esp) := by
  unfold Machine.joinLoop
  split
  · refine SteadyAll.setProc m p (Proc.steady_of_ne ?_)
    simp [Proc.joinReap, Proc.freeustack, hs]
  · split
    · exact .of_proc le_rfl rfl
    · exact .sleep m c p i _ _ esp

theorem SteadyAll.kill (hI : Inv m) (pid : Int) : SteadyAll m (m.kill pid) := by
  unfold Machine.kill
  split
  · exact .of_proc le_rfl rfl
  · rename_i q _
    refine SteadyAll.setProc m q (fun he => ?_)
    have hst : (m.proc q).state = .EMBRYO := by
      unfold Proc.kill at he
      split at he <;> exact he
    -- no thread of a child under construction sleeps
    have hidle := (hI.ok q).unborn (.inr hst) (m.proc q).thidx
    have hns : ((m.proc q).thread (m.proc q).thidx).state ≠ .SLEEPING := by
      intro hsl
      simp [Thread.Idle, hsl] at hidle
    rw [Proc.kill, if_neg hns]
    exact ⟨hst, rfl, fun _ => ⟨rfl, rfl⟩⟩

theorem SteadyAll.threadCreate (hs : (m.proc p).state = .RUNNING) (c : Nat) (page : Option Nat)
    (mapped copied : Bool) : SteadyAll m (m.threadCreate c p page mapped copied) := by
  -- the process stays `RUNNING`, so no child under construction changes
  have hset : ∀ (x : Proc) (m' : Machine), x.state = .RUNNING → m'.proc = (m.setProc p x).proc →
      m.nexttid ≤ m'.nexttid → SteadyAll m m' := by
    intro x m' hx hp hn
    have h1 := SteadyAll.setProc m p (x := x) (Proc.steady_of_ne (by simp [hx]))
    exact ⟨hn, fun q => by rw [hp]; exact h1.2 q⟩
  unfold Machine.threadCreate
  split
  · exact .of_proc le_rfl rfl
  · rename_i j x hx
    have hxs : x.state = .RUNNING := by
      obtain ⟨-, rfl⟩ := Proc.allocth_eq hx
      exact hs
    split
    · exact hset (x.setThread j { x.thread j with kstack := 0, state := .UNUSED }) _ hxs rfl
        (Nat.le_succ _)
    · split
      · rename_i y hy
        exact hset y _ ((Proc.userStack_state (.inl hy)).trans hxs) rfl (Nat.le_succ _)
      · rename_i y hy
        exact hset y _ ((Proc.userStack_state (.inr hy)).trans hxs) rfl (Nat.le_succ _)

/-- No thread builds a child that it did not build before. -/
def NoNewChild (m m' : Machine) : Prop :=
  ∀ q j r, (m'.kth q j).pc.claim = some (r, .EMBRYO) → (m.kth q j).pc.claim = some (r, .EMBRYO)

theorem NoNewChild.of_kth (h : m'.kth = m.kth) : NoNewChild m m' := by
  intro q j r hc
  rw [h] at hc
  exact hc

theorem NoNewChild.trans (h : NoNewChild m m') (h' : NoNewChild m' m'') : NoNewChild m m'' :=
  fun q j r hc => h q j r (h' q j r hc)

theorem NoNewChild.setKth (m : Machine) (p : Slot) (i : ThIdx) {k : Kth}
    (hk : ∀ r, k.pc.claim = some (r, .EMBRYO) → (m.kth p i).pc.claim = some (r, .EMBRYO)) :
    NoNewChild m (m.setKth p i k) := by
  intro q j r hc
  by_cases he : q = p ∧ j = i
  · rw [he.1, he.2]
    refine hk r ?_
    simpa [Machine.setKth, he] using hc
  · simpa [Machine.setKth, he] using hc

theorem NoNewChild.sleep (m : Machine) (c : Nat) (p : Slot) (i : ThIdx) (ch : Chan) (rs : Resume)
    (esp : Nat) : NoNewChild m (m.sleep c p i ch rs esp) :=
  NoNewChild.setKth m p i (k := { m.kth p i with resume := rs }) (fun _ h => h)

theorem NoNewChild.waitLoop (m : Machine) (c : Nat) (p : Slot) (i : ThIdx) (esp : Nat) :
    NoNewChild m (m.waitLoop c p i esp) := by
  unfold Machine.waitLoop
  split
  · rename_i r _
    intro q j t hc
    by_cases hq : q = r
    · simp [hq, Pc.claim] at hc
    · simpa [hq, Machine.release, Machine.setProc] using hc
  · split
    · exact .of_kth rfl
    · exact .sleep m c p i _ _ esp

theorem NoNewChild.joinLoop (m : Machine) (c : Nat) (p : Slot) (i j : ThIdx) (tid esp : Nat) :
    NoNewChild m (m.joinLoop c p i j tid esp) := by
  unfold Machine.joinLoop
  split
  · exact NoNewChild.setKth (m.setProc p ((m.proc p).joinReap j)) p j (by simp [Pc.claim])
  · split
    · exact .of_kth rfl
    · exact .sleep m c p i _ _ esp

theorem NoNewChild.exitEnd (m : Machine) (c : Nat) (p : Slot) (i : ThIdx) (esp : Nat) :
    NoNewChild m (m.exitEnd c p i esp) := by
  intro q j r hc
  have hk : (m.exitEnd c p i esp).kth q j =
      if q = p ∧ j = i then { m.kth p i with pc := .dead } else m.kth q j := by
    simp only [Machine.exitEnd, Machine.sched, Machine.setCpu, Machine.setProc, Machine.setPc,
      Machine.setKth, Machine.abandon_kth, Machine.acquire]
  rw [hk] at hc
  split at hc
  · simp [Pc.claim] at hc
  · exact hc

theorem NoNewChild.threadCreate (m : Machine) (c : Nat) (p : Slot) (page : Option Nat)
    (mapped copied : Bool) : NoNewChild m (m.threadCreate c p page mapped copied) := by
  unfold Machine.threadCreate
  split
  · exact .of_kth rfl
  · rename_i j x _
    split
    · exact .of_kth rfl
    · split
      · rename_i y _
        exact NoNewChild.setKth (m.setProc p y) p j (by simp [Pc.claim])
      · exact .of_kth rfl

end Rules

/-! ## The invariant -/

section Steps

variable {s s' : Watched} {m' : Machine} {c esp : Nat} {p np : Slot} {i : ThIdx}

/-- A step that leaves the slots under construction alone. -/
theorem ForkInv.keep (h : ForkInv s) (hI : Inv s'.m) (hS : SteadyAll s.m s'.m)
    (hN : NoNewChild s.m s'.m)
    (hh : s'.handed = if s'.m.nexttid = s.m.nexttid then s.handed else s.handed ++ [s.m.nexttid])
    (hb : s'.before = s.before) : ForkInv s' := by
  have hsub : ∀ t ∈ s.handed, t ∈ s'.handed := by
    intro t ht
    rw [hh]
    split
    · exact ht
    · exact List.mem_append_left _ ht
  have hle := hS.1
  refine ⟨lt_of_lt_of_le h.pos hle, fun t ht => ?_, fun q j r hc => ?_⟩
  · rw [hh] at ht
    split at ht
    · rename_i he
      rw [he]
      exact h.handed t ht
    · rcases List.mem_append.mp ht with ht | ht
      · have := h.handed t ht
        omega
      · have hpos := h.pos
        simp only [List.mem_singleton] at ht
        omega
  · obtain ⟨h1, h2, h3, h4⟩ := h.build q j r (hN q j r hc)
    obtain ⟨-, ht, hj⟩ := hS.2 r (hI.claim q j r _ hc)
    refine ⟨ht.trans h1, fun k hk => (hj k).1.trans (h2 k hk), ?_, ?_⟩
    · rw [(hj 0).2]
      exact hsub _ h3
    · rw [(hj 0).2, hb]
      exact h4

/-- In a clean slot `allocth` finds thread 0. -/
theorem Proc.allocth_clean {x : Proc} (h : ∀ j, (x.thread j).state = .UNUSED) (n : Nat) :
    x.allocth n = some (0, x.setThread 0 { x.thread 0 with tid := n, state := .EMBRYO }) := by
  have hfirst : List.finRange NTHREAD = 0 :: (List.finRange 63).map Fin.succ := List.finRange_succ
  have hfind : (List.finRange NTHREAD).find? (fun i => (x.thread i).state = .UNUSED) = some 0 := by
    rw [hfirst]
    exact List.find?_cons_of_pos (by simp [h 0])
  simp only [Proc.allocth, hfind]

theorem ForkInv.fork (h : ForkInv s) (hI : Inv s.m) (hc : s.m.Clean)
    (hu : (s.m.kth p i).pc = .user) (hm : s'.m = s.m.allocproc p i)
    (hh : s'.handed = if s'.m.nexttid = s.m.nexttid then s.handed else s.handed ++ [s.m.nexttid])
    (hb : s'.before = fun q j => if q = p ∧ j = i then s.handed else s.before q j) :
    ForkInv s' := by
  -- the caller builds no other child
  have hbefore : ∀ q j r, (s.m.kth q j).pc.claim = some (r, .EMBRYO) → s'.before q j = s.before q j := by
    intro q j r hq
    have hne : ¬ (q = p ∧ j = i) := by
      intro he
      rw [he.1, he.2, hu] at hq
      simp [Pc.claim] at hq
    rw [hb]
    exact if_neg hne
  unfold Machine.Clean at hc
  unfold Machine.allocproc at hm
  split at hm
  · rename_i hnone
    rw [hm] at hh
    simp only [if_true] at hh
    refine ⟨by rw [hm]; exact h.pos, fun t ht => ?_, fun q j r hq => ?_⟩
    · rw [hm]
      exact h.handed t (hh ▸ ht)
    · rw [hm] at hq ⊢
      rw [hh, hbefore q j r hq]
      exact h.build q j r hq
  · rename_i nq hnq
    rw [hnq] at hc
    obtain ⟨hthidx, hth, hfree⟩ := hc
    have hun : (s.m.proc nq).state = .UNUSED := by simpa using List.find?_some hnq
    rw [Proc.allocth_clean hth] at hm
    simp only at hm
    have hnt : s'.m.nexttid = s.m.nexttid + 1 := by rw [hm]
    have hkth : ∀ q j, s'.m.kth q j = if q = p ∧ j = i then
        { s.m.kth p i with pc := .forkKalloc nq (some 0) } else s.m.kth q j := by
      intro q j
      rw [hm]
      rfl
    have hproc : ∀ q, s'.m.proc q = if q = nq then
        ((s.m.proc nq).setThread 0 { (s.m.proc nq).thread 0 with
          tid := s.m.nexttid, state := .EMBRYO }).embryo s.m.nextpid else s.m.proc q := by
      intro q
      rw [hm]
      rfl
    have hhand : s'.handed = s.handed ++ [s.m.nexttid] := by
      rw [hh, if_neg (by omega)]
    have hpos := h.pos
    refine ⟨by omega, fun t ht => ?_, fun q j r hq => ?_⟩
    · rw [hhand] at ht
      rcases List.mem_append.mp ht with ht | ht
      · have := h.handed t ht
        omega
      · simp only [List.mem_singleton] at ht
        omega
    · by_cases he : q = p ∧ j = i
      · rw [hkth, if_pos he] at hq
        simp only [Pc.claim, Option.some.injEq, Prod.mk.injEq, and_true] at hq
        subst hq
        rw [hproc, if_pos rfl, hhand, hb, he.1, he.2]
        refine ⟨hthidx, fun k hk => ?_, ?_, ?_⟩
        · simpa [Proc.embryo, hk] using hth k
        · simp [Proc.embryo]
        · -- every tid handed out so far is below `nexttid`
          intro hmem
          have hmem' : s.m.nexttid ∈ s.handed := by simpa [Proc.embryo] using hmem
          have := h.handed _ hmem'
          omega
      · rw [hkth, if_neg he] at hq
        have hne : r ≠ nq := by
          intro hr
          have hst := hI.claim q j r _ hq
          rw [hr, hun] at hst
          cases hst
        obtain ⟨h1, h2, h3, h4⟩ := h.build q j r hq
        rw [hproc, if_neg hne, hbefore q j r hq, hhand]
        exact ⟨h1, h2, List.mem_append_left _ h3, h4⟩

/-- The step of `s` to `s'` with the machine `m'`, in the terms of the invariant. -/
theorem watch_some {a : Act} (h : watch s a = some s') : step s.m a = some s'.m ∧
    s'.handed = (if s'.m.nexttid = s.m.nexttid then s.handed else s.handed ++ [s.m.nexttid]) ∧
    s'.before = (match s.m.caller a with
      | some (p, i, .fork) => fun q j => if q = p ∧ j = i then s.handed else s.before q j
      | _ => s.before) := by
  simp only [watch, Option.map_eq_some_iff] at h
  obtain ⟨m, hm, rfl⟩ := h
  exact ⟨hm, rfl, rfl⟩

theorem CallStep.quiet {m : Machine} (hI : Inv m) (hr : (m.cpu c).mode = .running p i) {k : Call}
    (hk : k ≠ .fork) (hs : CallStep m c p i esp k m') : SteadyAll m m' ∧ NoNewChild m m' := by
  have hrun : (m.proc p).state = .RUNNING := (hI.on c p i (.inr hr)).2.1
  cases hs with
  | yield _ =>
    have h1 : SteadyAll m (m.setProc p (m.proc p).yield) :=
      SteadyAll.setProc m p (Proc.steady_of_ne (by simp [Proc.yield]))
    refine ⟨h1.trans (SteadyAll.sched (((m.acquire c).setProc p (m.proc p).yield).setKth p i
      { m.kth p i with resume := .yield }) c p i esp), ?_⟩
    exact NoNewChild.setKth m p i (k := { m.kth p i with resume := .yield }) (fun _ h => h)
  | sleep _ _ =>
    exact ⟨SteadyAll.sleep (m.acquire c) c p i _ _ esp, NoNewChild.sleep (m.acquire c) c p i _ _ esp⟩
  | @kill pid _ =>
    refine ⟨.kill hI pid, .of_kth ?_⟩
    unfold Machine.kill
    split <;> rfl
  | fork _ _ => exact absurd rfl hk
  | @forkKalloc page np th hpc =>
    have hcl : (m.kth p i).pc.claim = some (np, .EMBRYO) := by rw [hpc]; rfl
    cases page with
    | none =>
      exact ⟨SteadyAll.setProc m np (Proc.steady_of_ne (by simp)),
        NoNewChild.setKth m p i (by simp [Pc.claim])⟩
    | some a =>
      exact ⟨SteadyAll.setProc m np (Proc.steady_of_eq rfl rfl (fun _ => ⟨rfl, rfl⟩)),
        NoNewChild.setKth m p i (fun _ h => hcl.trans h)⟩
  | @forkCopy ok np hpc =>
    have hcl : (m.kth p i).pc.claim = some (np, .EMBRYO) := by rw [hpc]; rfl
    cases ok with
    | false =>
      exact ⟨SteadyAll.setProc m np (Proc.steady_of_ne (by simp)),
        NoNewChild.setKth m p i (by simp [Pc.claim])⟩
    | true =>
      exact ⟨SteadyAll.setProc m np (Proc.steady_of_eq rfl rfl (fun _ => ⟨rfl, rfl⟩)),
        NoNewChild.setKth m p i (fun _ h => hcl.trans h)⟩
  | @forkFields np hpc =>
    have hcl : (m.kth p i).pc.claim = some (np, .EMBRYO) := by rw [hpc]; rfl
    refine ⟨SteadyAll.setProc m np (Proc.steady_of_eq rfl rfl (fun j => ?_)),
      NoNewChild.setKth m p i (fun _ h => hcl.trans h)⟩
    by_cases hj : j = (m.proc np).thidx
    · simp [Proc.forkFields, hj]
    · simp [Proc.forkFields, hj]
  | @forkFinish np _ hpc =>
    refine ⟨SteadyAll.setProc m np (Proc.steady_of_ne (by simp [Proc.forkFinish, Proc.copyprocth])), ?_⟩
    have h1 : NoNewChild m (m.setKth np (m.proc np).thidx { pc := .user }) :=
      NoNewChild.setKth m np _ (by simp [Pc.claim])
    exact h1.trans (NoNewChild.setKth (m.setKth np (m.proc np).thidx { pc := .user }) p i
      (by simp [Pc.claim]))
  | @undoAlloc np th hpc =>
    have hun : (m.proc np).state = .UNUSED := hI.claim p i np _ (by rw [hpc]; rfl)
    cases th with
    | none =>
      exact ⟨SteadyAll.setProc m np (Proc.steady_of_ne (by simp [hun])),
        NoNewChild.setKth m p i (by simp [Pc.claim])⟩
    | some j =>
      exact ⟨SteadyAll.setProc m np (Proc.steady_of_ne (by simp [hun])),
        NoNewChild.setKth m p i (by simp [Pc.claim])⟩
  | @undoFork np hpc =>
    have hun : (m.proc np).state = .UNUSED := hI.claim p i np _ (by rw [hpc]; rfl)
    exact ⟨SteadyAll.setProc m np (Proc.steady_of_ne (by simp [hun])),
      NoNewChild.setKth m p i (by simp [Pc.claim])⟩
  | exec _ => exact ⟨.of_proc le_rfl rfl, NoNewChild.setKth m p i (by simp [Pc.claim])⟩
  | @execKill n pages _ =>
    unfold Machine.execKill
    split
    · split
      · exact ⟨.of_proc le_rfl rfl, NoNewChild.setKth m p i (by simp [Pc.claim])⟩
      · rename_i hn hne
        have hs' : ((m.proc p).execKill ⟨n, hn⟩).state ≠ .EMBRYO := by
          unfold Proc.execKill
          split <;> simp [hrun]
        refine ⟨SteadyAll.setProc m p (Proc.steady_of_ne hs'), ?_⟩
        have h1 : NoNewChild m (m.setKth p ⟨n, hn⟩ {}) := NoNewChild.setKth m p _ (by simp [Pc.claim])
        exact h1.trans (NoNewChild.setKth (m.setKth p ⟨n, hn⟩ {}) p i (by simp [Pc.claim]))
    · exact ⟨.of_proc le_rfl rfl, NoNewChild.setKth m p i (by simp [Pc.claim])⟩
  | execCommit _ _ =>
    exact ⟨SteadyAll.setProc m p (Proc.steady_of_ne (by simp [Proc.execCommit, hrun])),
      NoNewChild.setKth m p i (by simp [Pc.claim])⟩
  | execFail _ _ => exact ⟨.of_proc le_rfl rfl, NoNewChild.setKth m p i (by simp [Pc.claim])⟩
  | exit _ _ => exact ⟨.of_proc le_rfl rfl, NoNewChild.setKth m p i (by simp [Pc.claim])⟩
  | exitEnd _ _ _ => exact ⟨.exitEnd m c p i esp, .exitEnd m c p i esp⟩
  | wait _ _ =>
    exact ⟨SteadyAll.waitLoop (m.acquire c) c p i esp, NoNewChild.waitLoop (m.acquire c) c p i esp⟩
  | threadCreate _ _ => exact ⟨.threadCreate hrun c _ _ _, .threadCreate m c p _ _ _⟩
  | @threadExit v _ _ =>
    exact ⟨.threadExit hrun c i v esp, NoNewChild.setKth m p i
      (k := { m.kth p i with resume := .threadExit, exit := some m.exits.length }) (fun _ h => h)⟩
  | threadJoin _ _ =>
    unfold Machine.threadJoin
    split
    · exact ⟨.of_proc le_rfl rfl, .of_kth rfl⟩
    · exact ⟨SteadyAll.joinLoop (m := m.acquire c) hrun c i _ _ esp,
        NoNewChild.joinLoop (m.acquire c) c p i _ _ esp⟩
  | fsEnter _ => exact ⟨.of_proc le_rfl rfl, NoNewChild.setKth m p i (by simp [Pc.claim])⟩
  | fsReturn _ _ => exact ⟨.of_proc le_rfl rfl, NoNewChild.setKth m p i (by simp [Pc.claim])⟩
  | fs _ hf =>
    cases Machine.fsCall_step hf with
    | @wait k n _ hpc _ _ =>
      have h1 : NoNewChild m (m.setKth p i k) := NoNewChild.setKth m p i (by rw [hpc]; exact fun _ h => h)
      exact ⟨SteadyAll.sleep ((m.setKth p i k).acquire c) c p i _ _ esp,
        h1.trans (NoNewChild.sleep ((m.setKth p i k).acquire c) c p i _ _ esp)⟩
    | go hpc _ _ =>
      exact ⟨.of_proc le_rfl rfl, NoNewChild.setKth m p i (by rw [hpc]; exact fun _ h => h)⟩
    | @wake k l sl n _ hpc _ _ =>
      exact ⟨SteadyAll.wakeup1 { m.setKth p i k with log := l, sleeplock := sl } _,
        NoNewChild.setKth m p i (by rw [hpc]; exact fun _ h => h)⟩

/-- A step that is no `fork`. -/
theorem step_quiet {m : Machine} (hI : Inv m) {a : Act} (hk : ∀ c esp, a ≠ .call c esp .fork)
    (hs : step m a = some m') : SteadyAll m m' ∧ NoNewChild m m' := by
  cases a with
  | schedule c =>
    simp only [step, Machine.schedule] at hs
    split at hs
    · split_ifs at hs
      cases hs
      exact ⟨.of_proc le_rfl rfl, .of_kth rfl⟩
    · split at hs <;> cases hs
      · rename_i q _
        exact ⟨SteadyAll.setProc m q (Proc.steady_of_ne (by simp [Proc.runThread])), .of_kth rfl⟩
      · exact ⟨.of_proc le_rfl rfl, .of_kth rfl⟩
    · cases hs
  | resume c esp =>
    simp only [step, Machine.resume] at hs
    split at hs
    · rename_i q j hmode
      have hrun : (m.proc q).state = .RUNNING := (hI.on c q j (.inl hmode)).2.1
      have h1 : NoNewChild m (m.enter c q j) :=
        NoNewChild.setKth (m.setCpu c _) q j (k := { m.kth q j with resume := .onCpu }) (fun _ h => h)
      have h2 : SteadyAll m ((m.enter c q j).schedTail q) :=
        SteadyAll.setProc m q (Proc.steady_copyprocth _ _)
      have h3 : SteadyAll m ((m.enter c q j).awake q j) :=
        h2.trans (SteadyAll.setProc ((m.enter c q j).schedTail q) q
          (Proc.steady_of_ne (by simp [Machine.schedTail, Machine.setProc, Machine.enter,
            Machine.setKth, Machine.setCpu, Proc.copyprocth, hrun])))
      have hrun3 : (((m.enter c q j).awake q j).proc q).state = .RUNNING := by
        rw [Machine.awake_state]
        exact hrun
      split at hs
      · cases hs
      · cases hs; exact ⟨.of_proc le_rfl rfl, h1⟩
      · cases hs; exact ⟨h2, h1⟩
      · cases hs; exact ⟨h3, h1⟩
      · cases hs
        exact ⟨h3.trans (.waitLoop _ c q j esp), h1.trans (.waitLoop _ c q j esp)⟩
      · cases hs
        exact ⟨h3.trans (.joinLoop hrun3 c j _ _ esp), h1.trans (.joinLoop _ c q j _ _ esp)⟩
      · split_ifs at hs
        cases hs
        exact ⟨h2, h1⟩
    · cases hs
  | wakeup n =>
    simp only [step] at hs
    split_ifs at hs
    cases hs
    exact ⟨.wakeup1 m _, .of_kth rfl⟩
  | call c esp k =>
    simp only [step] at hs
    split at hs
    · rename_i q j hr
      exact CallStep.quiet hI hr (fun he => hk c esp (he ▸ rfl)) (Machine.call_step hs)
    · cases hs

theorem CleanSlot.free {m : Machine} {a : Act} (h : OnCall CleanSlot m a) : OnCall FreeSlot m a :=
  h.mono (fun _ _ _ _ hc hf => (hc hf).free)

theorem ForkInv.step (h : ForkInv s) (hI : Inv s.m) {a : Act} (hc : OnCall CleanSlot s.m a)
    (hs : watch s a = some s') : ForkInv s' := by
  obtain ⟨hm, hh, hb⟩ := watch_some hs
  have hI' : Inv s'.m := hI.step (CleanSlot.free hc) hm
  by_cases hk : ∃ c esp, a = .call c esp .fork
  · obtain ⟨c, esp, rfl⟩ := hk
    simp only [Lwp.step] at hm
    split at hm
    · rename_i p i hr
      have hcall : s.m.caller (.call c esp .fork) = some (p, i, .fork) := by
        simp [Machine.caller, hr]
      rw [hcall] at hb
      have hclean : s.m.Clean := hc.of_running hr rfl
      generalize hm' : s'.m = m' at hm
      cases Machine.call_step hm with
      | fork _ hu => exact h.fork hI hclean hu hm' hh hb
    · cases hm
  · have hk' : ∀ c esp, a ≠ .call c esp .fork := fun c esp he => hk ⟨c, esp, he⟩
    obtain ⟨hS, hN⟩ := step_quiet hI hk' hm
    refine h.keep hI' hS hN hh ?_
    rw [hb]
    split
    · rename_i p i hcall
      unfold Machine.caller at hcall
      split at hcall
      · split at hcall
        · cases hcall
          exact absurd rfl (hk' _ _)
        · cases hcall
      · cases hcall
    · rfl

theorem ForkInv.boot (page : Nat) : ForkInv (Watched.boot page) := by
  have hnext : (Watched.boot page).m.nexttid = 2 := rfl
  have hpc : ∀ p i, ((Watched.boot page).m.kth p i).pc.claim = none := by
    intro p i
    simp only [Watched.boot, Lwp.boot]
    split <;> rfl
  refine ⟨by omega, fun t ht => ?_, fun p i np hc => ?_⟩
  · have ht1 : t = 1 := by simpa [Watched.boot] using ht
    omega
  · simp [hpc] at hc

/-- `fork` returns: the child has the one thread that `allocproc` gave it. -/
theorem ForkInv.child (h : ForkInv s) (hr : (s.m.cpu c).mode = .running p i)
    (hpc : (s.m.kth p i).pc = .forkFinish np) (hs : watch s (.call c esp .forkFinish) = some s') :
    s'.Child p i np := by
  obtain ⟨hm, hh, hb⟩ := watch_some hs
  have hcl : (s.m.kth p i).pc.claim = some (np, .EMBRYO) := by rw [hpc]; rfl
  obtain ⟨h1, h2, h3, h4⟩ := h.build p i np hcl
  have hcaller : s.m.caller (.call c esp .forkFinish) = some (p, i, .forkFinish) := by
    simp [Machine.caller, hr]
  rw [hcaller] at hb
  simp only [Lwp.step, hr] at hm
  generalize hm' : s'.m = m' at hm
  have hstep := Machine.call_step hm
  cases hstep with
  | @forkFinish nq _ hpc' =>
    have hnq : nq = np := by
      rw [hpc, Pc.forkFinish.injEq] at hpc'
      exact hpc'.symm
    subst hnq
    have hproc : s'.m.proc nq = (s.m.proc nq).forkFinish := by
      rw [hm']
      simp [Machine.forkFinish, Machine.setPc, Machine.setKth, Machine.setProc]
    have hhand : s'.handed = s.handed := by
      rw [hh, hm']
      exact if_pos rfl
    have hthidx : (s'.m.proc nq).thidx = 0 := by rw [hproc]; exact h1
    have hth : ∀ j, ((s'.m.proc nq).thread j).state =
        if j = 0 then .RUNNABLE else ((s.m.proc nq).thread j).state := by
      intro j
      rw [hproc]
      by_cases hj : j = 0
      · simp [Proc.forkFinish, Proc.copyprocth, h1, hj]
      · simp [Proc.forkFinish, Proc.copyprocth, h1, hj]
    have htid : ((s'.m.proc nq).thread 0).tid = ((s.m.proc nq).thread 0).tid := by
      rw [hproc]
      simp [Proc.forkFinish, Proc.copyprocth, h1]
    refine ⟨fun j hj => ?_, ?_, ?_, ?_, ?_⟩
    · rw [hthidx]
      by_contra hne
      rw [hth j, if_neg hne] at hj
      exact hj (h2 j hne)
    · rw [hthidx, hth 0, if_pos rfl]
    · rw [hthidx, htid]
      have := h.handed _ h3
      omega
    · rw [hthidx, htid, hhand]
      exact h3
    · rw [hthidx, htid, hb]
      exact h4

end Steps

/-! ## Whole runs -/

theorem fork_child_of_clean_slots (page : Nat) (as : List Act) (s s' : Watched) (c esp : Nat)
    (p : Slot) (i : ThIdx) (np : Slot)
    (hm : Lib.Meets watch (fun s a => OnCall CleanSlot s.m a) (Watched.boot page) as)
    (hr : Lib.run watch (Watched.boot page) as = some s)
    (hp : (s.m.cpu c).mode = .running p i) (hpc : (s.m.kth p i).pc = .forkFinish np)
    (hs : watch s (.call c esp .forkFinish) = some s') : s'.Child p i np := by
  have hinv : Inv s.m ∧ ForkInv s := by
    refine Lib.run_inv (I := fun s => Inv s.m ∧ ForkInv s) ?_ as _ s
      ⟨Inv.boot page, ForkInv.boot page⟩ hm hr
    intro t a t' ht hc ha
    exact ⟨ht.1.step (CleanSlot.free hc) (watch_some ha).1, ht.2.step ht.1 hc ha⟩
  exact hinv.2.child hp hpc hs

/-- A run without `fork` that takes no tid is the machine's own. -/
theorem run_watch {m' : Machine} : ∀ (as : List Act) (s : Watched), Inv s.m →
    (∀ a ∈ as, ∀ c esp, a ≠ .call c esp .fork) → Lib.run step s.m as = some m' →
    s.m.nexttid ≤ m'.nexttid ∧ (m'.nexttid = s.m.nexttid →
      Lib.run watch s as = some { s with m := m' } ∧
      Lib.Meets watch (fun s a => OnCall CleanSlot s.m a) s as) := by
  intro as
  induction as with
  | nil =>
    intro s _ _ hr
    simp only [Lib.run, Option.some.injEq] at hr
    subst hr
    exact ⟨le_rfl, fun _ => ⟨rfl, trivial⟩⟩
  | cons a as ih =>
    intro s hI hk hr
    obtain ⟨m, hs, hr⟩ := Lib.run_cons hr
    have hka : ∀ c esp, a ≠ .call c esp .fork := hk a (by simp)
    have hclean : OnCall CleanSlot s.m a := by
      unfold OnCall Machine.caller
      split
      · trivial
      · rename_i p i k hcall
        intro hf
        subst hf
        split at hcall
        · split at hcall <;> cases hcall
          exact absurd rfl (hka _ _)
        · cases hcall
    have hI' : Inv m := hI.step (CleanSlot.free hclean) hs
    have hle : s.m.nexttid ≤ m.nexttid := (step_quiet hI hka hs).1.1
    obtain ⟨hle', hih⟩ := ih { s with m := m } hI' (fun b hb => hk b (by simp [hb])) hr
    have hle'' : m.nexttid ≤ m'.nexttid := hle'
    refine ⟨hle.trans hle'', fun he => ?_⟩
    have hm : m.nexttid = s.m.nexttid := by omega
    have hw : watch s a = some { s with m := m } := by
      have hb : (match s.m.caller a with
          | some (p, i, .fork) => fun q j => if q = p ∧ j = i then s.handed else s.before q j
          | _ => s.before) = s.before := by
        split
        · rename_i p i hcall
          unfold Machine.caller at hcall
          split at hcall
          · split at hcall <;> cases hcall
            exact absurd rfl (hka _ _)
          · cases hcall
        · rfl
      simp only [watch, hs, Option.map_some, hm, if_true, hb]
    obtain ⟨h1, h2⟩ := hih (by show m'.nexttid = m.nexttid; omega)
    refine ⟨by simpa [Lib.run, hw] using h1, hclean, fun t ht => ?_⟩
    rw [hw] at ht
    cases ht
    exact h2

/-- `/init` is about to run, tid 1 has been handed out. -/
def watchedInit : Watched := { m := initReady 4096, handed := [1], before := fun _ _ => [] }

theorem startInit_no_fork : ∀ a ∈ startInit, ∀ c esp, a ≠ .call c esp .fork := by
  intro a ha c esp he
  subst he
  simp [startInit] at ha

theorem run_watchedInit (as : List Act) :
    Lib.run watch (Watched.boot 4096) (startInit ++ as) = Lib.run watch watchedInit as := by
  obtain ⟨-, h⟩ := run_watch startInit (Watched.boot 4096) (Inv.boot 4096) startInit_no_fork
    (run_startInit 4096)
  rw [Lib.run_append, (h rfl).1, Option.bind_some]
  rfl

theorem meets_watchedInit {as : List Act}
    (h : Lib.Meets watch (fun s a => OnCall CleanSlot s.m a) watchedInit as) :
    Lib.Meets watch (fun s a => OnCall CleanSlot s.m a) (Watched.boot 4096) (startInit ++ as) := by
  obtain ⟨-, hrun⟩ := run_watch startInit (Watched.boot 4096) (Inv.boot 4096) startInit_no_fork
    (run_startInit 4096)
  refine Lib.meets_append as startInit _ (hrun rfl).2 (fun t ht => ?_)
  rw [(hrun rfl).1] at ht
  cases ht
  exact h

/-- `init` forks, up to the point where the child is started. -/
def forkChild : List Act :=
  [.call 0 0 .fork, .call 0 0 (.forkKalloc (some 8192)), .call 0 0 (.forkCopy true),
   .call 0 0 .forkFields]

theorem fork_child_forkChild : ∃ s s',
    Lib.run watch (Watched.boot 4096) (startInit ++ forkChild) = some s ∧
    watch s (.call 0 0 .forkFinish) = some s' ∧ s'.Child 0 0 1 := by
  have hrun : (Lib.run watch watchedInit forkChild).any (fun s =>
      (s.m.cpu 0).mode = .running 0 0 ∧ (s.m.kth 0 0).pc = .forkFinish 1 ∧
        (watch s (.call 0 0 .forkFinish)).isSome) := by
    decide +kernel
  obtain ⟨s, hr, hs⟩ := (Option.any_eq_true _ _).mp hrun
  obtain ⟨h1, h2, h3⟩ := of_decide_eq_true hs
  obtain ⟨s', h3⟩ := Option.isSome_iff_exists.mp h3
  rw [← run_watchedInit] at hr
  exact ⟨s, s', hr, h3, fork_child_of_clean_slots 4096 _ s s' 0 0 0 0 1
    (meets_watchedInit (by decide +kernel)) hr h1 h2 h3⟩

/-- The first child of `init` creates a thread, which exits the process. `init`
reaps it and forks again, into the same slot. -/
def reusedSlot : List Act :=
  forkChild ++ [.call 0 0 .forkFinish, .call 0 0 .wait, .schedule 0, .resume 0 0,
    .call 0 0 (.threadCreate (some 12288) true true), .call 0 0 .yield,
    .schedule 0, .schedule 0, .schedule 0, .resume 0 0, .call 0 0 .exit, .call 0 0 .exitEnd,
    .schedule 0, .schedule 0, .schedule 0, .resume 0 0] ++ forkChild

theorem reusedSlot_not_child : ∃ s s',
    Lib.run watch (Watched.boot 4096) (startInit ++ reusedSlot) = some s ∧
    (s.m.cpu 0).mode = .running 0 0 ∧ (s.m.kth 0 0).pc = .forkFinish 1 ∧
    watch s (.call 0 0 .forkFinish) = some s' ∧ ¬ s'.Child 0 0 1 := by
  have hrun : (Lib.run watch watchedInit reusedSlot).any (fun s =>
      (s.m.cpu 0).mode = .running 0 0 ∧ (s.m.kth 0 0).pc = .forkFinish 1 ∧
        (watch s (.call 0 0 .forkFinish)).any (fun s' => (s'.m.proc 1).thidx = 1 ∧
          ((s'.m.proc 1).thread 0).state = .EMBRYO ∧ ((s'.m.proc 1).thread 1).tid = 0)) := by
    decide +kernel
  obtain ⟨s, hr, hs⟩ := (Option.any_eq_true _ _).mp hrun
  obtain ⟨h1, h2, h3⟩ := of_decide_eq_true hs
  obtain ⟨s', h3, h4⟩ := (Option.any_eq_true _ _).mp h3
  obtain ⟨h4, h5, -⟩ := of_decide_eq_true h4
  rw [← run_watchedInit] at hr
  refine ⟨s, s', hr, h1, h2, h3, fun h => ?_⟩
  -- thread 0 is the one `allocth` took, and stays `EMBRYO`
  have h0 := h.only 0 (by rw [h5]; decide)
  rw [h4] at h0
  exact absurd h0 (by decide)

end Xv6.Lwp
