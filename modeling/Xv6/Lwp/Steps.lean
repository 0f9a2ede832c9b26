import Xv6.Lwp.Invariant

/- Every step of the LWP kernel keeps the scheduling invariant, with one
   exception: `allocproc` taking a slot that a failed `fork` has marked `UNUSED`
   but whose thread it has yet to mark. `Machine.Free` is the condition that
   this does not happen. One lemma per call of the machine, by the rules of
   `Inv`, and from them `Inv.step`. -/
namespace Xv6.Lwp

/-! ## What each call does to the records -/

namespace Proc

variable {x : Proc}

theorem same_wakeProc (chan : Option Chan) (x : Proc) : x.Same (Machine.wakeProc chan x) := by
  unfold Machine.wakeProc
  split
  · rename_i hx
    refine ⟨rfl, rfl, fun j => ?_, fun hu => ?_⟩
    · simp only [Machine.wakeThread]
      split
      · rename_i hj; simp [hj.1]
      · rfl
    · rcases hx with hx | hx <;> simp [Unborn, hx] at hu
  · exact Same.refl x

theorem same_adopt (init p : Slot) (x : Proc) : x.Same (Machine.adopt init p x) := by
  unfold Machine.adopt
  split
  · exact same_of_eq rfl rfl rfl
  · exact Same.refl x

theorem allocth_eq {n : Nat} {j : ThIdx} {y : Proc} (h : x.allocth n = some (j, y)) :
    (x.thread j).state = .UNUSED ∧
      y = x.setThread j { x.thread j with tid := n, state := .EMBRYO } := by
  unfold allocth at h
  split at h
  · simp at h
  · rename_i i hi
    simp only [Option.some.injEq, Prod.mk.injEq] at h
    obtain ⟨rfl, rfl⟩ := h
    have := List.find?_some hi
    exact ⟨by simpa using this, rfl⟩

theorem same_allocth {n : Nat} {j : ThIdx} {y : Proc} (h : x.allocth n = some (j, y)) : x.Same y := by
  obtain ⟨hj, rfl⟩ := allocth_eq h
  exact same_of_thread j rfl rfl (fun k hk => by simp [hk]) (by simp [hj])
    (by simp [Thread.Idle])

theorem yield_ok (hx : x.Ok) (hs : x.state = .RUNNING) : x.yield.Ok := by
  refine ok_of_waiting (by simp [yield]) ?_ (by simp [yield, Unborn])
  intro j
  by_cases he : j = x.thidx
  · simp [yield, he]
  · simpa [yield, he] using hx.running hs j

theorem reap_ok (x : Proc) : x.reap.Ok := by
  refine ok_of_idle (by simp [reap]) ?_
  intro j
  simp only [reap, reapThread]
  split
  · rename_i hj; exact .inl hj
  · exact .inl rfl

theorem forkFinish_ok (hx : ∀ j, (x.thread j).Idle) : x.forkFinish.Ok := by
  refine (same_copyprocth _ _).ok (ok_of_waiting (by simp) ?_ (by simp [Unborn]))
  intro j hr
  by_cases he : j = x.thidx
  · simp [he] at hr
  · simp only [setThread_thread, he, if_false] at hr
    simpa [Thread.Idle, hr] using hx j

theorem same_execKill (hx : x.Ok) (hs : x.state = .RUNNING) (i : ThIdx) : x.Same (x.execKill i) := by
  unfold execKill
  split
  · exact Same.refl x
  · rename_i hi
    have hn : (x.thread i).state ≠ .RUNNING := fun h => hi ((hx.running hs i).mp h)
    exact same_of_thread i rfl rfl (fun k hk => by simp [hk]) (by simp [hn])
      (by simp [Unborn, hs])

theorem same_execCommit (hx : x.Ok) (hs : x.state = .RUNNING) (img pages : Nat) :
    x.Same (x.execCommit img pages) := by
  have hr : (x.thread x.thidx).state = .RUNNING := (hx.running hs _).mpr rfl
  exact same_of_thread x.thidx rfl rfl (fun k hk => by simp [execCommit, hk])
    (by simp [execCommit, hr]) (by simp [Unborn, hs])

theorem same_kill (x : Proc) : x.Same x.kill := by
  unfold kill
  split
  · rename_i hs
    exact same_of_thread x.thidx rfl rfl (fun k hk => by simp [hk]) (by simp [hs])
      (by simp [Thread.Idle, hs])
  · exact same_of_eq rfl rfl rfl

theorem same_userStack {j : ThIdx} {mapped copied : Bool} {y : Proc} (hx : x.state = .RUNNING)
    (hj : (x.thread j).state ≠ .RUNNING)
    (h : x.userStack j mapped copied = .ok y ∨ x.userStack j mapped copied = .error y) :
    x.Same y := by
  unfold userStack at h
  split_ifs at h <;> simp only [or_false, false_or, Except.ok.injEq,
    Except.error.injEq] at h <;> subst h
  all_goals
    exact same_of_thread j rfl rfl (fun k hk => by simp [start, freevm, hk])
      (by simp [start, freevm, hj]) (by simp [Unborn, hx])

theorem threadExit_thidx (x : Proc) (v : Nat) : (x.threadExit v).thidx = x.thidx := by
  unfold threadExit
  split <;> rfl

theorem threadExit_not_running (hx : x.Ok) (hs : x.state = .RUNNING) (v : Nat) (j : ThIdx) :
    ((x.threadExit v).thread j).state ≠ .RUNNING := by
  have hj := hx.running hs j
  unfold threadExit
  by_cases he : j = x.thidx
  · split <;> simp [he]
  · split <;> simpa [he] using hj

theorem same_joinReap {j : ThIdx} (hj : (x.thread j).state = .ZOMBIE) : x.Same (x.joinReap j) := by
  exact same_of_thread j rfl rfl (fun k hk => by simp [joinReap, freeustack, hk])
    (by simp [joinReap, freeustack, hj]) (by simp [joinReap, freeustack, Thread.Idle])

end Proc

theorem Machine.same_setProc {m : Machine} {p : Slot} {x : Proc} (h : (m.proc p).Same x) (q : Slot) :
    (m.proc q).Same ((m.setProc p x).proc q) := by
  by_cases hq : q = p
  · subst hq; simpa [Machine.setProc] using h
  · simpa [Machine.setProc, hq] using Proc.Same.refl _

/-- A thread slot gets a position without a claim. -/
theorem NoClaim.setKth (m : Machine) (p : Slot) (i : ThIdx) {k : Kth}
    (h : k.pc.claim = (m.kth p i).pc.claim ∨ k.pc.claim = none) : NoClaim m (m.setKth p i k) := by
  intro q j
  by_cases he : q = p ∧ j = i
  · obtain ⟨rfl, rfl⟩ := he
    simpa [Machine.setKth] using h
  · simp [Machine.setKth, he]

section Calls

variable {m m' : Machine} {c : Nat} {p np : Slot} {i : ThIdx} {esp : Nat}

theorem Inv.wakeup1 (h : Inv m) (chan : Option Chan) : Inv (m.wakeup1 chan) :=
  h.frame (fun q => Proc.same_wakeProc chan (m.proc q)) rfl h.held (NoClaim.refl m)

theorem Inv.acquire (h : Inv m) (hl : m.lock = none) : Inv (m.acquire c) :=
  h.frame (fun _ => Proc.Same.refl _) rfl (fun d hd => absurd hd (h.not_busy hl d)) (NoClaim.refl m)

theorem Inv.release (h : Inv m) (hr : (m.cpu c).mode = .running p i)
    (hl : m.lock = none ∨ m.lock = some c) : Inv m.release :=
  h.frame (fun _ => Proc.Same.refl _) rfl
    (fun d hd => absurd hd (h.not_busy_of_running hr hl d)) (NoClaim.refl m)

theorem Inv.setKth (h : Inv m) {k : Kth}
    (hk : k.pc.claim = (m.kth p i).pc.claim ∨ k.pc.claim = none) : Inv (m.setKth p i k) :=
  h.frame (fun _ => Proc.Same.refl _) rfl h.held (NoClaim.setKth m p i hk)

theorem Inv.setProc (h : Inv m) {x : Proc} (hx : (m.proc p).Same x) : Inv (m.setProc p x) :=
  h.frame (Machine.same_setProc hx) rfl h.held (NoClaim.refl m)

theorem Inv.yield (h : Inv m) (hr : (m.cpu c).mode = .running p i) (hl : m.lock = none) :
    Inv (m.yield c p i esp) := by
  have hon := h.on c p i (.inr hr)
  refine h.sched hr (.inl hl) ?_ ?_ ?_ ?_ ?_ ?_ esp
  · simpa [Machine.setKth, Machine.setProc, Machine.acquire] using
      Proc.yield_ok (h.ok p) hon.2.1
  · simp [Machine.setKth, Machine.setProc, Machine.acquire, Proc.yield]
  · intro q hq
    simpa [Machine.setKth, Machine.setProc, Machine.acquire, hq] using Proc.Same.refl _
  · rfl
  · rfl
  · exact NoClaim.setKth _ p i (.inl rfl)

theorem Inv.kill (h : Inv m) (pid : Int) : Inv (m.kill pid) := by
  unfold Machine.kill
  split
  · exact h
  · exact h.setProc (Proc.same_kill _)

theorem Inv.waitLoop (h : Inv m) (hr : (m.cpu c).mode = .running p i) (hl : m.lock = some c) :
    Inv (m.waitLoop c p i esp) := by
  unfold Machine.waitLoop
  split
  · rename_i q hq
    have hz : (m.proc q).state = .ZOMBIE := by
      have := List.find?_some hq
      simp only [decide_eq_true_eq] at this
      exact this.2
    -- a zombie is in no `fork`, so no claim is on the reaped slot
    have hcl : ∀ r j s t, ((if r = q then ({} : Kth) else m.kth r j)).pc.claim = some (s, t) →
        (m.kth r j).pc.claim = some (s, t) ∧ s ≠ q := by
      intro r j s t hs
      by_cases hrq : r = q
      · simp [hrq, Pc.claim] at hs
      · simp only [hrq, if_false] at hs
        refine ⟨hs, ?_⟩
        rintro rfl
        have hst := Pc.claim_state hs
        simp [← h.claim r j s t hs, hz] at hst
    refine h.table q (by simp [hz]) ?_ ?_ ?_ rfl ?_ ?_ ?_
    · simpa [Machine.setProc, Machine.release] using Proc.reap_ok (m.proc q)
    · simp [Machine.setProc, Machine.release, Proc.reap]
    · intro r hrq
      simpa [Machine.setProc, Machine.release, hrq] using Proc.Same.refl _
    · exact fun d hd => absurd hd (h.not_busy_of_running hr (.inr hl) d)
    · intro r j s t hs
      obtain ⟨hs', hne⟩ := hcl r j s t hs
      simpa [Machine.setProc, Machine.release, hne] using h.claim r j s t hs'
    · intro r j r' j' s hs hs'
      exact h.owner r j r' j' s (hcl r j s _ hs).1 (hcl r' j' s _ hs').1
  · split
    · exact h.release hr (.inr hl)
    · exact h.sleep hr hl _ _ _

theorem Inv.joinLoop (h : Inv m) (hr : (m.cpu c).mode = .running p i) (hl : m.lock = some c)
    (j : ThIdx) (tid : Nat) : Inv (m.joinLoop c p i j tid esp) := by
  unfold Machine.joinLoop
  split
  · rename_i hz
    have h1 : Inv (m.setProc p ((m.proc p).joinReap j)) := h.setProc (Proc.same_joinReap hz)
    have h2 : Inv ((m.setProc p ((m.proc p).joinReap j)).setKth p j {}) := h1.setKth (.inr rfl)
    have h3 := h2.release (c := c) (p := p) (i := i) hr (.inr hl)
    exact h3.frame (fun _ => Proc.Same.refl _) rfl h3.held (NoClaim.refl _)
  · split
    · exact h.release hr (.inr hl)
    · exact h.sleep hr hl _ _ _

theorem Inv.threadJoin (h : Inv m) (hr : (m.cpu c).mode = .running p i) (hl : m.lock = none)
    (tid : Nat) : Inv (m.threadJoin c p i tid esp) := by
  unfold Machine.threadJoin
  split
  · exact h
  · exact (h.acquire hl).joinLoop hr rfl _ _

theorem Inv.threadCreate (h : Inv m) (hr : (m.cpu c).mode = .running p i) (hl : m.lock = none)
    (page : Option Nat) (mapped copied : Bool) :
    Inv (m.threadCreate c p page mapped copied) := by
  have hon := h.on c p i (.inr hr)
  have hb : ∀ (m' : Machine) (d : Nat), (m.cpu d).mode.busy → m'.lock = some d :=
    fun m' d hd => absurd hd (h.not_busy hl d)
  unfold Machine.threadCreate
  split
  · exact h.acquire hl
  · rename_i j x hx
    obtain ⟨hj, rfl⟩ := Proc.allocth_eq hx
    split
    · refine h.frame (Machine.same_setProc ?_) rfl (hb _) (NoClaim.refl m)
      exact Proc.same_of_thread j rfl rfl (fun k hk => by simp [hk]) (by simp [hj])
        (by simp [Proc.Unborn, hon.2.1])
    · rename_i a
      have h1 : (m.proc p).Same (((m.proc p).setThread j
          { (m.proc p).thread j with tid := m.nexttid, state := .EMBRYO }).kernelStack j a) :=
        Proc.same_of_thread j rfl rfl (fun k hk => by simp [Proc.kernelStack, hk])
          (by simp [Proc.kernelStack, hj]) (by simp [Proc.Unborn, hon.2.1])
      split
      · rename_i y hy
        have h2 := Proc.same_userStack (h1.state.trans hon.2.1) (by simp [Proc.kernelStack]) (.inl hy)
        exact h.frame (Machine.same_setProc (h1.trans h2)) rfl (hb _)
          (NoClaim.setKth m p j (.inr rfl))
      · rename_i y hy
        have h2 := Proc.same_userStack (h1.state.trans hon.2.1) (by simp [Proc.kernelStack]) (.inr hy)
        exact h.frame (Machine.same_setProc (h1.trans h2)) rfl (hb _) (NoClaim.refl m)

theorem Inv.threadExit (h : Inv m) (hr : (m.cpu c).mode = .running p i) (hl : m.lock = none)
    (v : Nat) : Inv (m.threadExit c p i v esp) := by
  have hon := h.on c p i (.inr hr)
  have hs : Inv (((m.acquire c).leaveThread p i v).sched c p i esp) := by
    refine h.sched hr (.inl hl) (Proc.ok_of_waiting ?_ ?_ ?_) ?_ ?_ ?_ ?_ ?_ esp
    · simp [Machine.leaveThread, Machine.setProc]
    · intro j hj
      have hw := Proc.same_wakeProc (some (.thread p (m.proc p).thidx)) ((m.proc p).threadExit v)
      refine Proc.threadExit_not_running (h.ok p) hon.2.1 v j ((hw.running j).mp ?_)
      simpa [Machine.leaveThread, Machine.setProc, Machine.wakeup1, Machine.setKth,
        Machine.acquire] using hj
    · simp [Machine.leaveThread, Machine.setProc, Proc.Unborn]
    · simp [Machine.leaveThread, Machine.setProc]
    · intro q hq
      simpa [Machine.leaveThread, Machine.setProc, Machine.setKth, Machine.wakeup1,
        Machine.acquire, hq] using Proc.same_wakeProc _ _
    · rfl
    · rfl
    · exact NoClaim.setKth _ p i (.inl rfl)
  exact hs.frame (fun _ => Proc.Same.refl _) rfl hs.held (NoClaim.refl _)

theorem Machine.same_abandon (m : Machine) (p q : Slot) :
    (m.proc q).Same ((m.abandon p).proc q) := by
  have h1 : (m.proc q).Same (Machine.adopt m.initproc p
      (Machine.wakeProc ((m.proc p).parent.map .proc) (m.proc q))) :=
    (Proc.same_wakeProc _ _).trans (Proc.same_adopt _ _ _)
  unfold Machine.abandon
  simp only
  split
  · exact h1.trans (Proc.same_wakeProc _ _)
  · exact h1

theorem Machine.abandon_cpu (m : Machine) (p : Slot) : (m.abandon p).cpu = m.cpu := by
  unfold Machine.abandon
  simp only
  split <;> rfl

theorem Machine.abandon_lock (m : Machine) (p : Slot) : (m.abandon p).lock = m.lock := by
  unfold Machine.abandon
  simp only
  split <;> rfl

theorem Machine.abandon_kth (m : Machine) (p : Slot) : (m.abandon p).kth = m.kth := by
  unfold Machine.abandon
  simp only
  split <;> rfl

theorem Inv.exitEnd (h : Inv m) (hr : (m.cpu c).mode = .running p i) (hl : m.lock = none) :
    Inv (m.exitEnd c p i esp) := by
  refine h.sched hr (.inl hl) ⟨?_, ?_, ?_⟩ ?_ ?_ ?_ ?_ ?_ esp
  · simp [Machine.setPc, Machine.setKth, Machine.setProc]
  · simp [Machine.setPc, Machine.setKth, Machine.setProc]
  · simp [Machine.setPc, Machine.setKth, Machine.setProc, Proc.Unborn]
  · simp [Machine.setPc, Machine.setKth, Machine.setProc]
  · intro q hq
    have hsame : (m.proc q).Same (((m.acquire c).abandon p).proc q) :=
      Machine.same_abandon (m.acquire c) p q
    simpa [Machine.setPc, Machine.setKth, Machine.setProc, hq] using hsame
  · exact Machine.abandon_cpu (m.acquire c) p
  · exact Machine.abandon_lock (m.acquire c) p
  · intro q j
    by_cases he : q = p ∧ j = i
    · obtain ⟨rfl, rfl⟩ := he
      exact .inr (by simp [Machine.setPc, Machine.setKth, Pc.claim])
    · refine .inl ?_
      simp [Machine.setPc, Machine.setKth, Machine.setProc, Machine.abandon_kth, he,
        Machine.acquire]

/-! ## fork and exec -/

/-- No thread has still to undo a failed `fork` on the slot that `allocproc`
would take. -/
def Machine.Free (m : Machine) : Prop :=
  match (List.finRange NPROC).find? (fun q => (m.proc q).state = .UNUSED) with
  | none => True
  | some np => ∀ q j, (m.kth q j).pc.claim ≠ some (np, .UNUSED)

instance Machine.Free.decidable (m : Machine) : Decidable m.Free :=
  match h : (List.finRange NPROC).find? (fun q => (m.proc q).state = .UNUSED) with
  | none => .isTrue (by simp [Machine.Free, h])
  | some np =>
    decidable_of_iff (∀ q j, (m.kth q j).pc.claim ≠ some (np, .UNUSED)) (by simp [Machine.Free, h])

/-- `allocproc` takes a free slot for the thread `(p, i)`. -/
theorem Inv.takeSlot (h : Inv m) {x : Proc} (pc : Pc) (hn : (m.proc np).state = .UNUSED)
    (hf : ∀ q j, (m.kth q j).pc.claim ≠ some (np, .UNUSED)) (hx : (m.proc np).Same x)
    (hpc : pc.claim = some (np, .EMBRYO)) (pid : Int) :
    Inv ((m.setProc np (x.embryo pid)).setPc p i pc) := by
  have hold : ∀ q j r s, (m.kth q j).pc.claim = some (r, s) → r ≠ np := by
    rintro q j r s hq rfl
    have hs := h.claim q j r s hq
    rw [hn] at hs
    subst hs
    exact hf q j hq
  refine h.table np (by simp [hn]) ?_ ?_ ?_ rfl h.held ?_ ?_
  · refine Proc.ok_of_idle ?_ ?_
    · simp [Machine.setPc, Machine.setKth, Machine.setProc, Proc.embryo]
    · intro j
      have hi := hx.idle (.inl hn) j ((h.ok np).unborn (.inl hn) j)
      simpa [Machine.setPc, Machine.setKth, Machine.setProc, Proc.embryo] using hi
  · simp [Machine.setPc, Machine.setKth, Machine.setProc, Proc.embryo]
  · intro q hq
    simpa [Machine.setPc, Machine.setKth, Machine.setProc, hq] using Proc.Same.refl _
  · intro q j r s hq
    by_cases he : q = p ∧ j = i
    · simp only [Machine.setPc, Machine.setKth, he, and_self, if_true, hpc, Option.some.injEq,
        Prod.mk.injEq] at hq
      obtain ⟨rfl, rfl⟩ := hq
      simp [Machine.setPc, Machine.setKth, Machine.setProc, Proc.embryo]
    · simp only [Machine.setPc, Machine.setKth, Machine.setProc, he, if_false] at hq
      simpa [Machine.setPc, Machine.setKth, Machine.setProc, hold q j r s hq] using
        h.claim q j r s hq
  · intro q j q' j' r hq hq'
    by_cases he : q = p ∧ j = i <;> by_cases he' : q' = p ∧ j' = i
    · exact ⟨he.1.trans he'.1.symm, he.2.trans he'.2.symm⟩
    · simp only [Machine.setPc, Machine.setKth, Machine.setProc, he, he', and_self, if_true,
        if_false, hpc, Option.some.injEq, Prod.mk.injEq] at hq hq'
      exact absurd hq.1.symm (hold q' j' r _ hq')
    · simp only [Machine.setPc, Machine.setKth, Machine.setProc, he, he', and_self, if_true,
        if_false, hpc, Option.some.injEq, Prod.mk.injEq] at hq hq'
      exact absurd hq'.1.symm (hold q j r _ hq)
    · simp only [Machine.setPc, Machine.setKth, Machine.setProc, he, he', if_false] at hq hq'
      exact h.owner q j q' j' r hq hq'

theorem Inv.allocproc (h : Inv m) (hf : m.Free) : Inv (m.allocproc p i) := by
  unfold Machine.allocproc
  split
  · exact h
  · rename_i np hnp
    simp only [Machine.Free, hnp] at hf
    have hn : (m.proc np).state = .UNUSED := by simpa using List.find?_some hnp
    split
    · have h1 := h.takeSlot (p := p) (i := i) (.forkKalloc np none) hn hf
        (Proc.Same.refl _) rfl m.nextpid
      exact h1.frame (fun _ => Proc.Same.refl _) rfl h1.held (NoClaim.refl _)
    · rename_i j x hx
      have h1 := h.takeSlot (p := p) (i := i) (.forkKalloc np (some j)) hn hf
        (Proc.same_allocth hx) rfl m.nextpid
      exact h1.frame (fun _ => Proc.Same.refl _) rfl h1.held (NoClaim.refl _)

/-- The thread `(p, i)` rewrites the slot it builds and moves on to `pc`. -/
theorem Inv.buildSlot (h : Inv m) (hcl : (m.kth p i).pc.claim = some (np, .EMBRYO)) {y : Proc}
    (pc : Pc) (hy : ∀ j, (y.thread j).Idle) (hs : y.state ≠ .RUNNING)
    (hpc : pc.claim = none ∨ pc.claim = some (np, y.state)) :
    Inv ((m.setProc np y).setPc p i pc) := by
  refine h.build hcl (Proc.ok_of_idle ?_ ?_) ?_ ?_ rfl h.held ?_ ?_
  · simpa [Machine.setPc, Machine.setKth, Machine.setProc] using hs
  · simpa [Machine.setPc, Machine.setKth, Machine.setProc] using hy
  · simpa [Machine.setPc, Machine.setKth, Machine.setProc] using hs
  · intro q hq
    simpa [Machine.setPc, Machine.setKth, Machine.setProc, hq] using Proc.Same.refl _
  · intro q j he
    simp [Machine.setPc, Machine.setKth, Machine.setProc, he]
  · simpa [Machine.setPc, Machine.setKth, Machine.setProc] using hpc

/-- A slot under construction has no thread yet. -/
theorem Inv.embryo (h : Inv m) (hcl : (m.kth p i).pc.claim = some (np, .EMBRYO)) :
    (m.proc np).state = .EMBRYO ∧ ∀ j, ((m.proc np).thread j).Idle := by
  have hn := h.claim p i np _ hcl
  exact ⟨hn, (h.ok np).unborn (.inr hn)⟩

theorem Inv.forkKalloc (h : Inv m) {th : Option ThIdx} (hpc : (m.kth p i).pc = .forkKalloc np th)
    (page : Option Nat) : Inv (m.forkKalloc p i np th page) := by
  have hcl : (m.kth p i).pc.claim = some (np, .EMBRYO) := by rw [hpc]; rfl
  obtain ⟨hn, hnr⟩ := h.embryo hcl
  cases page with
  | none => exact h.buildSlot hcl _ hnr (by simp) (.inr rfl)
  | some a => exact h.buildSlot hcl _ hnr (by simp [hn]) (.inr (by simp [Pc.claim, hn]))

theorem Inv.forkCopy (h : Inv m) (hpc : (m.kth p i).pc = .forkCopy np) (ok : Bool) :
    Inv (m.forkCopy p i np ok) := by
  have hcl : (m.kth p i).pc.claim = some (np, .EMBRYO) := by rw [hpc]; rfl
  obtain ⟨hn, hnr⟩ := h.embryo hcl
  cases ok with
  | false => exact h.buildSlot hcl _ hnr (by simp) (.inr rfl)
  | true => exact h.buildSlot hcl _ hnr (by simp [hn]) (.inr (by simp [Pc.claim, hn]))

theorem Inv.forkFields (h : Inv m) (hpc : (m.kth p i).pc = .forkFields np) :
    Inv ((m.setProc np (Proc.forkFields (m.proc p) (m.proc np) p)).setPc p i (.forkFinish np)) := by
  have hcl : (m.kth p i).pc.claim = some (np, .EMBRYO) := by rw [hpc]; rfl
  obtain ⟨hn, hnr⟩ := h.embryo hcl
  refine h.buildSlot hcl _ ?_ ?_ (.inr ?_)
  · intro j
    by_cases he : j = (m.proc np).thidx
    · simpa [Proc.forkFields, he, Thread.Idle] using hnr (m.proc np).thidx
    · simpa [Proc.forkFields, he] using hnr j
  · simp [Proc.forkFields, hn]
  · simp [Pc.claim, Proc.forkFields, hn]

theorem Inv.forkFinish (h : Inv m) (hpc : (m.kth p i).pc = .forkFinish np) :
    Inv (m.forkFinish p i np) := by
  have hcl : (m.kth p i).pc.claim = some (np, .EMBRYO) := by rw [hpc]; rfl
  obtain ⟨-, hnr⟩ := h.embryo hcl
  refine h.build hcl ?_ ?_ ?_ rfl h.held ?_ ?_
  · simpa [Machine.forkFinish, Machine.setPc, Machine.setKth, Machine.setProc] using
      Proc.forkFinish_ok hnr
  · simp [Machine.forkFinish, Machine.setPc, Machine.setKth, Machine.setProc, Proc.forkFinish,
      Proc.copyprocth]
  · intro q hq
    simpa [Machine.forkFinish, Machine.setPc, Machine.setKth, Machine.setProc, hq] using
      Proc.Same.refl _
  · intro q j he
    simp only [Machine.forkFinish, Machine.setPc, Machine.setKth, Machine.setProc, he, if_false]
    split
    · exact .inr rfl
    · exact .inl rfl
  · simp [Machine.forkFinish, Machine.setPc, Machine.setKth, Pc.claim]

/-- The second write of a failed `fork` or `allocproc` finds the slot unused. -/
theorem Inv.undo (h : Inv m) (hcl : (m.kth p i).pc.claim = some (np, .UNUSED)) {y : Proc} {j : ThIdx}
    (hs : y.state = (m.proc np).state) (ht : y.thidx = (m.proc np).thidx)
    (hj : ∀ k, k ≠ j → y.thread k = (m.proc np).thread k) (hy : (y.thread j).Idle) :
    Inv ((m.setProc np y).setPc p i .user) := by
  have hn := h.claim p i np _ hcl
  have hnr := (h.ok np).waiting (by simp [hn]) (by simp [hn]) j
  have hyr : (y.thread j).state ≠ .RUNNING := by
    intro hr
    simp [Thread.Idle, hr] at hy
  have h1 : Inv (m.setProc np y) :=
    h.setProc (Proc.same_of_thread j hs ht hj (iff_of_false hyr hnr) (fun _ _ => hy))
  exact h1.setKth (.inr rfl)

theorem Inv.undoAlloc (h : Inv m) {th : Option ThIdx} (hpc : (m.kth p i).pc = .undoAlloc np th) :
    Inv ((m.undoAlloc np th).setPc p i .user) := by
  have hcl : (m.kth p i).pc.claim = some (np, .UNUSED) := by rw [hpc]; rfl
  cases th with
  | none =>
    exact h.undo hcl (j := 0) rfl rfl (fun _ _ => rfl)
      ((h.ok np).unborn (.inl (h.claim p i np _ hcl)) 0)
  | some j => exact h.undo hcl (j := j) rfl rfl (fun k hk => by simp [hk]) (.inl (by simp))

theorem Inv.undoFork (h : Inv m) (hpc : (m.kth p i).pc = .undoFork np) :
    Inv ((m.undoFork np).setPc p i .user) := by
  have hcl : (m.kth p i).pc.claim = some (np, .UNUSED) := by rw [hpc]; rfl
  exact h.undo hcl (j := (m.proc np).thidx) rfl rfl (fun k hk => by simp [hk]) (.inl (by simp))

theorem Inv.execKill (h : Inv m) (hr : (m.cpu c).mode = .running p i) (n pages : Nat) :
    Inv (m.execKill p i n pages) := by
  have hon := h.on c p i (.inr hr)
  unfold Machine.execKill
  split
  · split
    · exact h.setKth (.inr rfl)
    · have h1 := h.setProc (Proc.same_execKill (h.ok p) hon.2.1 ⟨n, by assumption⟩)
      exact (h1.setKth (.inr rfl)).setKth (.inr rfl)
  · exact h.setKth (.inr rfl)

theorem Inv.execCommit (h : Inv m) (hr : (m.cpu c).mode = .running p i) (img pages : Nat) :
    Inv ((m.setProc p ((m.proc p).execCommit img pages)).setPc p i .user) := by
  have hon := h.on c p i (.inr hr)
  exact (h.setProc (Proc.same_execCommit (h.ok p) hon.2.1 img pages)).setKth (.inr rfl)

/-! ## File-system calls -/

theorem Machine.setKth_pc {k : Kth} (hk : k.pc = (m.kth p i).pc) (q : Slot) (j : ThIdx) :
    ((m.setKth p i k).kth q j).pc = (m.kth q j).pc := by
  by_cases he : q = p ∧ j = i
  · obtain ⟨rfl, rfl⟩ := he
    simpa [Machine.setKth] using hk
  · simp [Machine.setKth, he]

/-- A change to locks and to the log, at unchanged positions. -/
theorem Inv.fsFrame (h : Inv m) (hp : m'.proc = m.proc) (hc : m'.cpu = m.cpu)
    (hl : m'.lock = m.lock) (hk : ∀ q j, (m'.kth q j).pc = (m.kth q j).pc) : Inv m' :=
  h.frame (fun q => by rw [hp]; exact Proc.Same.refl _) hc (by rw [hl]; exact h.held)
    (fun q j => .inl (by rw [hk]))

theorem Inv.fsSleep (h : Inv m) (hr : (m.cpu c).mode = .running p i) (hl : m.lock = none)
    {k : Kth} (hk : k.pc = (m.kth p i).pc) (ch : Chan) :
    Inv (((m.setKth p i k).acquire c).sleep c p i ch .sleep esp) := by
  have h1 : Inv (m.setKth p i k) := h.setKth (.inl (by rw [hk]))
  exact (h1.acquire hl).sleep hr rfl ch .sleep esp

/-- A step of file-system code changes locks and the log, not the table. -/
theorem Inv.fsCall (h : Inv m) (hr : (m.cpu c).mode = .running p i) {f : FsCall}
    (hs : m.fsCall c p i esp f = some m') : Inv m' := by
  cases f with
  | beginOp =>
    simp only [Machine.fsCall] at hs
    split_ifs at hs with h1 h2 h3 <;> cases hs
    · exact h.fsSleep hr h3 (by rfl) _
    · exact h.fsFrame rfl rfl rfl (fun q j => Machine.setKth_pc (by rfl) q j)
  | endOp =>
    simp only [Machine.fsCall] at hs
    split_ifs at hs with h1 h2 <;> cases hs
    · exact h.fsFrame rfl rfl rfl (fun q j => Machine.setKth_pc (by rfl) q j)
    · refine Inv.wakeup1 ?_ _
      exact h.fsFrame rfl rfl rfl (fun q j => Machine.setKth_pc (by rfl) q j)
  | commitDone =>
    simp only [Machine.fsCall] at hs
    split_ifs at hs with h1; cases hs
    refine Inv.wakeup1 ?_ _
    exact h.fsFrame rfl rfl rfl (fun q j => Machine.setKth_pc (by rfl) q j)
  | logWrite new =>
    simp only [Machine.fsCall] at hs
    split_ifs at hs with h1 h2 <;> cases hs
    all_goals exact h.fsFrame rfl rfl rfl (fun _ _ => rfl)
  | acquiresleep l =>
    simp only [Machine.fsCall] at hs
    split_ifs at hs with h1 h2 <;> cases hs
    · exact h.fsSleep hr h2 (by rfl) _
    · exact h.fsFrame rfl rfl rfl (fun q j => Machine.setKth_pc (by rfl) q j)
  | releasesleep l =>
    simp only [Machine.fsCall] at hs
    split_ifs at hs with h1; cases hs
    refine Inv.wakeup1 ?_ _
    exact h.fsFrame rfl rfl rfl (fun q j => Machine.setKth_pc (by rfl) q j)

end Calls

/-! ## The scheduler -/

namespace Proc

theorem thidxLoop_spec (x : Proc) (previdx : ThIdx) : ∀ (n : Nat) (i : ThIdx),
    (x.thread (x.thidxLoop previdx n i)).state = .RUNNABLE ∨
      x.thidxLoop previdx n i = previdx ∧ ∀ j : ThIdx, j ≠ previdx →
        (∃ k < n, j.val = (i.val + k) % 64 ∧
          ∀ l ≤ k, (i.val + l) % 64 ≠ previdx.val) →
        (x.thread j).state ≠ .RUNNABLE := by
  intro n
  induction n with
  | zero =>
    intro i
    refine .inr ⟨rfl, ?_⟩
    rintro j - ⟨k, hk, -⟩
    omega
  | succ n ih =>
    intro i
    simp only [thidxLoop]
    split
    · -- back at the start: nothing in between was left out
      rename_i hi
      refine .inr ⟨rfl, ?_⟩
      rintro j - ⟨k, -, -, hl⟩
      have h0 := hl 0 (Nat.zero_le _)
      have hlt : i.val < 64 := i.isLt
      rw [← hi] at h0
      omega
    · split
      · rename_i hs; exact .inl hs
      · rename_i hi hs
        have hnext : (i + 1).val = (i.val + 1) % 64 := Fin.val_add i 1
        rcases ih (i + 1) with hr | ⟨hr, hrest⟩
        · exact .inl hr
        · refine .inr ⟨hr, ?_⟩
          rintro j hj ⟨k, hk, hjk, hl⟩
          cases k with
          | zero =>
            have hji : j = i := Fin.ext (by have hlt : i.val < 64 := i.isLt; omega)
            rw [hji]
            exact hs
          | succ k =>
            refine hrest j hj ⟨k, by omega, ?_, ?_⟩
            · rw [hjk, hnext]; omega
            · intro l hlk
              have hne := hl (l + 1) (by omega)
              rw [hnext]; omega

/-- When some thread is `RUNNABLE`, `thidxtorun` returns one. -/
theorem thidxtorun_runnable {x : Proc} (h : x.existrunnable = true) :
    (x.thread x.thidxtorun).state = .RUNNABLE := by
  obtain ⟨j, -, hj⟩ := List.any_eq_true.mp h
  have hj : (x.thread j).state = .RUNNABLE := by simpa using hj
  rcases thidxLoop_spec x x.thidx NTHREAD (x.thidx + 1) with hr | ⟨hr, hrest⟩
  · exact hr
  · by_cases he : j = x.thidx
    · rw [thidxtorun, hr, ← he]; exact hj
    · -- `j` is met on the way round
      exfalso
      have hne : j.val ≠ x.thidx.val := fun hv => he (Fin.ext hv)
      have hjl : j.val < 64 := j.isLt
      have hxl : x.thidx.val < 64 := x.thidx.isLt
      have hnext : (x.thidx + 1).val = (x.thidx.val + 1) % 64 := Fin.val_add x.thidx 1
      refine hrest j he ⟨(j.val + 64 - x.thidx.val - 1) % 64, ?_, ?_, ?_⟩ hj
      · exact Nat.mod_lt _ (by decide)
      · rw [hnext]; omega
      · intro l hl
        rw [hnext]; omega

end Proc

section Scheduler

variable {m m' : Machine} {c : Nat} {p : Slot} {i : ThIdx} {esp : Nat}

theorem Machine.pick_spec {n : Nat} (h : m.pick n = some p) :
    (m.proc p).state = .RUNNABLE ∧ (m.proc p).existrunnable = true := by
  have := List.find?_some h
  simp only [decide_eq_true_eq] at this
  exact this.2

/-- The scheduler of CPU `c` dispatches a thread of a process that waits. -/
theorem Inv.dispatch (h : Inv m) (hl : m.lock = some c)
    (hp : (m.proc p).state = .RUNNABLE) : Inv (m.dispatch c p) := by
  have hnr := (h.ok p).waiting (by simp [hp]) (by simp [hp])
  have hfree : ∀ d, (m.cpu d).proc ≠ some p := by
    intro d hd
    obtain ⟨j, hj⟩ := h.off d p hd
    have := (h.on d p j hj).2.1
    simp [hp] at this
  constructor
  · intro q
    by_cases hq : q = p
    · subst hq
      constructor
      · intro _ j
        by_cases hj : j = (m.proc q).thidxtorun
        · simp [Machine.dispatch, Machine.setCpu, Machine.setProc, Proc.runThread,
            Proc.copythproc, hj]
        · simpa [Machine.dispatch, Machine.setCpu, Machine.setProc, Proc.runThread,
            Proc.copythproc, hj] using hnr j
      · intro hs
        simp [Machine.dispatch, Machine.setCpu, Machine.setProc, Proc.runThread] at hs
      · simp [Machine.dispatch, Machine.setCpu, Machine.setProc, Proc.runThread, Proc.Unborn]
    · simpa [Machine.dispatch, Machine.setCpu, Machine.setProc, hq] using h.ok q
  · intro d q j hd
    by_cases hdc : d = c
    · subst hdc
      simp only [Machine.dispatch, Machine.setCpu, if_true, Mode.at, Mode.switched.injEq,
        reduceCtorEq, or_false] at hd
      obtain ⟨rfl, rfl⟩ := hd
      simp [Machine.dispatch, Machine.setCpu, Machine.setProc, Proc.runThread, Proc.copythproc]
    · simp only [Machine.dispatch, Machine.setCpu, Machine.setProc, hdc, if_false] at hd ⊢
      have hon := h.on d q j hd
      have hq : q ≠ p := by
        rintro rfl
        exact hfree d hon.1
      simpa [hq] using hon
  · intro d q hd
    by_cases hdc : d = c
    · subst hdc
      simp only [Machine.dispatch, Machine.setCpu, if_true, Option.some.injEq] at hd
      subst hd
      exact ⟨(m.proc p).thidxtorun, .inl (by simp [Machine.dispatch, Machine.setCpu])⟩
    · simp only [Machine.dispatch, Machine.setCpu, Machine.setProc, hdc, if_false] at hd ⊢
      exact h.off d q hd
  · intro d e q hd he
    by_cases hdc : d = c <;> by_cases hec : e = c
    · rw [hdc, hec]
    · simp only [Machine.dispatch, Machine.setCpu, Machine.setProc, hdc, hec, if_true, if_false,
        Option.some.injEq] at hd he
      subst hd
      exact absurd he (hfree e)
    · simp only [Machine.dispatch, Machine.setCpu, Machine.setProc, hdc, hec, if_true, if_false,
        Option.some.injEq] at hd he
      subst he
      exact absurd hd (hfree d)
    · simp only [Machine.dispatch, Machine.setCpu, Machine.setProc, hdc, hec, if_false] at hd he
      exact h.one d e q hd he
  · intro d hd
    by_cases hdc : d = c
    · rw [hdc]; exact hl
    · simp only [Machine.dispatch, Machine.setCpu, Machine.setProc, hdc, if_false] at hd
      exact h.held d hd
  · intro q j r s hq
    have hcl := h.claim q j r s hq
    have hrp : r ≠ p := by
      rintro rfl
      have hst := Pc.claim_state hq
      simp [← hcl, hp] at hst
    simpa [Machine.dispatch, Machine.setCpu, Machine.setProc, hrp] using hcl
  · exact h.owner

/-- A CPU without a process changes its mode. -/
theorem Inv.setMode (h : Inv m) {k : Mode} (hk : ∀ p i, ¬ k.at p i)
    (hcpu : ∀ d, m'.cpu d = if d = c then { mode := k } else m.cpu d) (hp : m'.proc = m.proc)
    (hkth : m'.kth = m.kth) (hl : ∀ d, (m'.cpu d).mode.busy → m'.lock = some d) : Inv m' := by
  have hne : ∀ d p, (m'.cpu d).proc = some p → d ≠ c ∧ (m.cpu d).proc = some p := by
    intro d p hd
    by_cases hdc : d = c
    · simp [hcpu, hdc] at hd
    · rw [hcpu, if_neg hdc] at hd
      exact ⟨hdc, hd⟩
  constructor
  · rw [hp]; exact h.ok
  · intro d q j hd
    rw [hp]
    by_cases hdc : d = c
    · rw [hcpu, if_pos hdc] at hd
      exact absurd hd (hk q j)
    · rw [hcpu, if_neg hdc] at hd ⊢
      exact h.on d q j hd
  · intro d q hd
    obtain ⟨hdc, hd⟩ := hne d q hd
    rw [hcpu, if_neg hdc]
    exact h.off d q hd
  · intro d e q hd he
    exact h.one d e q (hne d q hd).2 (hne e q he).2
  · exact hl
  · rw [hp, hkth]; exact h.claim
  · rw [hkth]; exact h.owner

theorem Inv.schedule (h : Inv m) (hs : m.schedule c = some m') : Inv m' := by
  unfold Machine.schedule at hs
  split at hs
  · split_ifs at hs with hl
    cases hs
    refine h.setMode (k := .scan 0) (by simp [Mode.at]) (fun d => rfl) rfl rfl ?_
    intro d hd
    by_cases hdc : d = c
    · rw [hdc]; rfl
    · simp only [Machine.setCpu, Machine.acquire, hdc, if_false] at hd
      exact absurd hd (h.not_busy hl d)
  · rename_i n hk
    have hl : m.lock = some c := h.held c (by rw [hk]; trivial)
    split at hs <;> cases hs
    · rename_i p hp
      exact h.dispatch hl (Machine.pick_spec hp).1
    · refine h.setMode (k := .idle) (by simp [Mode.at]) (fun d => rfl) rfl rfl ?_
      intro d hd
      by_cases hdc : d = c
      · simp [Machine.setCpu, hdc, Mode.busy] at hd
      · simp only [Machine.setCpu, Machine.release, hdc, if_false] at hd
        have := h.held d hd
        rw [hl, Option.some.injEq] at this
        exact absurd this.symm hdc
  · cases hs

/-- The CPU goes from the dispatch into the thread. -/
theorem Inv.setRunning (h : Inv m) (hk : (m.cpu c).mode = .switched p i) :
    Inv (m.setCpu c { m.cpu c with mode := .running p i }) := by
  have hmode : ∀ d q j, ((m.setCpu c { m.cpu c with mode := .running p i }).cpu d).mode.at q j → (m.cpu d).mode.at q j := by
    intro d q j hd
    by_cases hdc : d = c
    · subst hdc
      simp only [Machine.setCpu, if_true, Mode.at, reduceCtorEq, false_or,
        Mode.running.injEq] at hd
      obtain ⟨rfl, rfl⟩ := hd
      exact .inl hk
    · simpa [Machine.setCpu, hdc] using hd
  have hproc : ∀ d, ((m.setCpu c { m.cpu c with mode := .running p i }).cpu d).proc = (m.cpu d).proc := by
    intro d
    by_cases hdc : d = c
    · simp [Machine.setCpu, hdc]
    · simp [Machine.setCpu, hdc]
  constructor
  · exact h.ok
  · intro d q j hd
    rw [hproc]
    exact h.on d q j (hmode d q j hd)
  · intro d q hd
    rw [hproc] at hd
    obtain ⟨j, hj⟩ := h.off d q hd
    by_cases hdc : d = c
    · subst hdc
      rw [hk] at hj
      simp only [Mode.at, Mode.switched.injEq, reduceCtorEq, or_false] at hj
      obtain ⟨rfl, rfl⟩ := hj
      exact ⟨i, .inr (by simp [Machine.setCpu])⟩
    · exact ⟨j, by simpa [Machine.setCpu, hdc] using hj⟩
  · intro d e q hd he
    rw [hproc] at hd he
    exact h.one d e q hd he
  · intro d hd
    by_cases hdc : d = c
    · simp [Machine.setCpu, hdc, Mode.busy] at hd
    · simp only [Machine.setCpu, hdc, if_false] at hd
      exact h.held d hd
  · exact h.claim
  · exact h.owner

theorem Inv.enter (h : Inv m) (hk : (m.cpu c).mode = .switched p i) : Inv (m.enter c p i) :=
  (h.setRunning hk).setKth (.inl rfl)

theorem Inv.schedTail (h : Inv m) : Inv (m.schedTail p) := h.setProc (Proc.same_copyprocth _ _)

theorem Inv.awake (h : Inv m) : Inv (m.awake p i) :=
  h.schedTail.setProc (Proc.same_of_thread i rfl rfl (fun j hj => by simp [hj]) (by simp)
    (by simp [Thread.Idle]))

theorem Inv.resume (h : Inv m) (hs : m.resume c esp = some m') : Inv m' := by
  unfold Machine.resume at hs
  split at hs
  · rename_i p i hk
    have hl : m.lock = some c := h.held c (by rw [hk]; trivial)
    have h1 := h.enter hk
    have hr : ((m.enter c p i).cpu c).mode = .running p i := by
      simp [Machine.enter, Machine.setCpu, Machine.setKth]
    split at hs
    · cases hs
    · cases hs; exact h1.release hr (.inr hl)
    · cases hs; exact h1.schedTail.release hr (.inr hl)
    · cases hs; exact h1.awake.release hr (.inr hl)
    · cases hs; exact h1.awake.waitLoop hr hl
    · cases hs; exact h1.awake.joinLoop hr hl _ _
    · split_ifs at hs; cases hs; exact h1.schedTail
  · cases hs

/-! ## Whole runs -/

/-- The condition on a call: a `fork` takes no slot that is still being given
back. -/
def FreeSlot (m : Machine) (_ : Slot) (_ : ThIdx) (k : Call) : Prop := k = .fork → m.Free

instance FreeSlot.decidable (m : Machine) (p : Slot) (i : ThIdx) (k : Call) :
    Decidable (FreeSlot m p i k) :=
  inferInstanceAs (Decidable (_ → _))

theorem Inv.call (h : Inv m) (hr : (m.cpu c).mode = .running p i) {k : Call}
    (hf : FreeSlot m p i k) (hs : CallStep m c p i esp k m') : Inv m' := by
  cases hs with
  | yield hl => exact h.yield hr hl
  | sleep hl _ => exact (h.acquire hl).sleep hr rfl _ _ _
  | kill => exact h.kill _
  | fork => exact h.allocproc (hf rfl)
  | forkKalloc hpc => exact h.forkKalloc hpc _
  | forkCopy hpc => exact h.forkCopy hpc _
  | forkFields hpc => exact h.forkFields hpc
  | forkFinish _ hpc => exact h.forkFinish hpc
  | undoAlloc hpc => exact h.undoAlloc hpc
  | undoFork hpc => exact h.undoFork hpc
  | exec => exact h.setKth (.inr rfl)
  | execKill => exact h.execKill hr _ _
  | execCommit => exact h.execCommit hr _ _
  | execFail => exact h.setKth (.inr rfl)
  | exit => exact h.setKth (.inr rfl)
  | exitEnd hl => exact h.exitEnd hr hl
  | wait hl => exact (h.acquire hl).waitLoop hr rfl
  | threadCreate hl => exact h.threadCreate hr hl _ _ _
  | threadExit hl => exact h.threadExit hr hl _
  | threadJoin hl => exact h.threadJoin hr hl _
  | fsEnter => exact h.setKth (.inr rfl)
  | fsReturn => exact h.setKth (.inr rfl)
  | fs _ hf => exact h.fsCall hr hf

theorem Inv.step (h : Inv m) {a : Act} (hf : OnCall FreeSlot m a) (hs : step m a = some m') : Inv m' := by
  cases a with
  | schedule c => exact h.schedule hs
  | resume c esp => exact h.resume hs
  | wakeup n =>
    simp only [Lwp.step] at hs
    split_ifs at hs
    cases hs
    exact h.wakeup1 _
  | call c esp k =>
    simp only [Lwp.step] at hs
    split at hs
    · rename_i p i hr
      exact h.call hr (hf.of_running hr) (Machine.call_step hs)
    · cases hs

theorem Inv.boot (page : Nat) : Inv (boot page) := by
  have hst : ∀ p, ((Lwp.boot page).proc p).Ok := by
    intro p
    by_cases hp : p = 0
    · refine Proc.ok_of_waiting (by simp [Lwp.boot, hp]) (fun j => ?_)
        (by simp [Lwp.boot, hp, Proc.Unborn])
      by_cases hj : j = 0 <;> simp [Lwp.boot, hp, hj]
    · exact Proc.ok_of_idle (by simp [Lwp.boot, hp])
        (fun j => .inl (by simp [Lwp.boot, hp]))
  have hpc : ∀ p i, ((Lwp.boot page).kth p i).pc.claim = none := by
    intro p i
    simp only [Lwp.boot]
    split <;> rfl
  constructor
  · exact hst
  · intro c p i hc
    simp [Lwp.boot, Mode.at] at hc
  · intro c p hc
    simp [Lwp.boot] at hc
  · intro c d p hc
    simp [Lwp.boot] at hc
  · intro c hc
    simp [Lwp.boot, Mode.busy] at hc
  · intro p i np s hc
    simp [hpc] at hc
  · intro p i q j np hc
    simp [hpc] at hc

end Scheduler

end Xv6.Lwp
