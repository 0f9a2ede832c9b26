import Xv6.Lwp.Child
import Xv6.Lwp.Kill

/- Which slots `kill` marks (`project2_LWP/proc.c`). Its loop compares pids alone,
   while `getProc` skips the slots that are `UNUSED`; such a slot keeps the pid 0
   that `wait` left, or the pid of a failed `fork`. A mark on it stays, since only
   `wait` clears `killed`, and the next child built there starts with it
   (`killsUnused`). `Seats` is what this needs of the machine at the level of
   processes: who runs where, who builds which slot, and, as long as `kill` has
   hit no slot that is not in use, that no such slot is marked. It holds in every
   run, including those in which `fork` takes a slot that is still being given
   back, where `Inv` does not. -/
namespace Xv6.Lwp

/-- The slot of a process that has been started. -/
def Proc.Born (x : Proc) : Prop := x.state ≠ .UNUSED ∧ x.state ≠ .EMBRYO

theorem Proc.not_born {x : Proc} : ¬ x.Born ↔ x.Unborn := by
  unfold Proc.Born Proc.Unborn
  tauto

/-- What `kill(pid)` returns: 0 when a slot has this pid, and -1 otherwise. -/
def Machine.killRet (m : Machine) (pid : Int) : Int :=
  match (List.finRange NPROC).find? (fun p => (m.proc p).pid = pid) with
  | none => -1
  | some _ => 0

/-- What is expected of `kill(pid)`: it returns 0 exactly when a slot in use has
this pid, and it leaves the `UNUSED` slots alone. -/
structure KillsLive (m : Machine) (pid : Int) : Prop where
  ret : m.killRet pid = 0 ↔ ∃ p, (m.proc p).state ≠ .UNUSED ∧ (m.proc p).pid = pid
  unused : ∀ p, (m.proc p).state = .UNUSED → (m.kill pid).proc p = m.proc p

/-- No `UNUSED` slot has this pid. -/
def FindsUsed (m : Machine) (pid : Int) : Prop :=
  ∀ p, (m.proc p).pid = pid → (m.proc p).state ≠ .UNUSED

/-- The condition on a call: no slot that is free or under construction has the
pid that is given to `kill`. -/
def KillsBorn (m : Machine) (_ : Slot) (_ : ThIdx) : Call → Prop
  | .kill pid => ∀ p, (m.proc p).pid = pid → (m.proc p).Born
  | _ => True

/-! ## The table of processes -/

/-- Two records that are the same for the table: a slot that is not in use keeps
its mark. -/
structure Proc.Stays (x y : Proc) : Prop where
  state : y.state = x.state
  pid : y.pid = x.pid
  killed : x.Unborn → y.killed = x.killed

/-- Processes, CPUs and slots under construction, and, where `K` holds, no mark on
a slot that is not in use. -/
structure Seats (K : Prop) (m : Machine) : Prop where
  on : ∀ c p i, (m.cpu c).mode.at p i → (m.cpu c).proc = some p ∧ (m.proc p).state = .RUNNING
  off : ∀ c p, (m.cpu c).proc = some p → ∃ i, (m.cpu c).mode.at p i
  one : ∀ c d p, (m.cpu c).proc = some p → (m.cpu d).proc = some p → c = d
  claim : ∀ p i np, (m.kth p i).pc.claim = some (np, .EMBRYO) → (m.proc np).state = .EMBRYO
  owner : ∀ p i q j np, (m.kth p i).pc.claim = some (np, .EMBRYO) →
    (m.kth q j).pc.claim = some (np, .EMBRYO) → p = q ∧ i = j
  next : 0 < m.nextpid
  pid : ∀ p, (m.proc p).state ≠ .UNUSED → 0 < (m.proc p).pid
  mark : K → ∀ p, (m.proc p).Unborn → (m.proc p).killed = false

namespace Proc

variable {x y z : Proc}

theorem Stays.refl (x : Proc) : x.Stays x := ⟨rfl, rfl, fun _ => rfl⟩

theorem stays_of_eq (hs : y.state = x.state) (hp : y.pid = x.pid) (hk : y.killed = x.killed) :
    x.Stays y := ⟨hs, hp, fun _ => hk⟩

theorem Stays.unborn (h : x.Stays y) : y.Unborn ↔ x.Unborn := by
  simp only [Unborn, h.state]

theorem Stays.trans (h : x.Stays y) (h' : y.Stays z) : x.Stays z :=
  ⟨h'.state.trans h.state, h'.pid.trans h.pid,
    fun hu => (h'.killed (h.unborn.mpr hu)).trans (h.killed hu)⟩

theorem stays_wakeProc (chan : Option Chan) (x : Proc) : x.Stays (Machine.wakeProc chan x) := by
  unfold Machine.wakeProc
  split <;> exact stays_of_eq rfl rfl rfl

theorem stays_adopt (init p : Slot) (x : Proc) : x.Stays (Machine.adopt init p x) := by
  unfold Machine.adopt
  split <;> exact stays_of_eq rfl rfl rfl

theorem stays_execKill (x : Proc) (i : ThIdx) : x.Stays (x.execKill i) := by
  unfold execKill
  split <;> exact stays_of_eq rfl rfl rfl

theorem stays_allocth {n : Nat} {j : ThIdx} (h : x.allocth n = some (j, y)) : x.Stays y := by
  obtain ⟨-, rfl⟩ := allocth_eq h
  exact stays_of_eq rfl rfl rfl

theorem stays_userStack {j : ThIdx} {mapped copied : Bool}
    (h : x.userStack j mapped copied = .ok y ∨ x.userStack j mapped copied = .error y) :
    x.Stays y := by
  unfold userStack at h
  split_ifs at h <;> simp only [Except.ok.injEq, Except.error.injEq, or_false,
    false_or] at h <;> subst h <;> exact stays_of_eq rfl rfl rfl

end Proc

section Rules

variable {K : Prop} {m m' m'' : Machine} {c : Nat} {p np : Slot} {i : ThIdx}

theorem Machine.stays_setProc {x : Proc} (h : (m.proc p).Stays x) (q : Slot) :
    (m.proc q).Stays ((m.setProc p x).proc q) := by
  by_cases hq : q = p
  · subst hq
    simpa [Machine.setProc] using h
  · simpa [Machine.setProc, hq] using Proc.Stays.refl _

theorem Machine.stays_abandon (m : Machine) (p q : Slot) :
    (m.proc q).Stays ((m.abandon p).proc q) := by
  have h1 : (m.proc q).Stays
      (Machine.adopt m.initproc p (Machine.wakeProc ((m.proc p).parent.map .proc) (m.proc q))) :=
    (Proc.stays_wakeProc _ _).trans (Proc.stays_adopt _ _ _)
  simp only [Machine.abandon]
  split
  · exact h1.trans (Proc.stays_wakeProc _ _)
  · exact h1

/-- Nothing that the table reads has changed. -/
theorem Seats.frame (h : Seats K m) (hp : ∀ q, (m.proc q).Stays (m'.proc q)) (hc : m'.cpu = m.cpu)
    (hk : NoNewChild m m') (hn : m'.nextpid = m.nextpid) : Seats K m' := by
  constructor
  · intro d q j hd
    rw [hc] at hd ⊢
    rw [(hp q).state]
    exact h.on d q j hd
  · rw [hc]; exact h.off
  · rw [hc]; exact h.one
  · intro q j r hr
    rw [(hp r).state]
    exact h.claim q j r (hk q j r hr)
  · intro q j q' j' r hq hq'
    exact h.owner q j q' j' r (hk q j r hq) (hk q' j' r hq')
  · rw [hn]; exact h.next
  · intro q hq
    rw [(hp q).pid]
    exact h.pid q ((hp q).state ▸ hq)
  · intro hK q hq
    have hu := (hp q).unborn.mp hq
    rw [(hp q).killed hu]
    exact h.mark hK q hu

/-- The slot `np`, which no CPU runs, has changed; who builds a slot is shown
separately. -/
theorem Seats.table (h : Seats K m) (np : Slot) (hn : (m.proc np).state ≠ .RUNNING)
    (hpid : (m'.proc np).state ≠ .UNUSED → 0 < (m'.proc np).pid)
    (hmark : K → (m'.proc np).Unborn → (m'.proc np).killed = false)
    (hp : ∀ q, q ≠ np → (m.proc q).Stays (m'.proc q)) (hc : m'.cpu = m.cpu)
    (hnp : 0 < m'.nextpid)
    (hcl : ∀ q j r, (m'.kth q j).pc.claim = some (r, .EMBRYO) → (m'.proc r).state = .EMBRYO)
    (how : ∀ q j q' j' r, (m'.kth q j).pc.claim = some (r, .EMBRYO) →
      (m'.kth q' j').pc.claim = some (r, .EMBRYO) → q = q' ∧ j = j') : Seats K m' := by
  constructor
  · intro d q j hd
    rw [hc] at hd ⊢
    have hon := h.on d q j hd
    have hq : q ≠ np := by
      intro he
      exact hn (he ▸ hon.2)
    rw [(hp q hq).state]
    exact hon
  · rw [hc]; exact h.off
  · rw [hc]; exact h.one
  · exact hcl
  · exact how
  · exact hnp
  · intro q hq
    by_cases he : q = np
    · subst he; exact hpid hq
    · rw [(hp q he).pid]
      exact h.pid q ((hp q he).state ▸ hq)
  · intro hK q hq
    by_cases he : q = np
    · subst he; exact hmark hK hq
    · have hu := (hp q he).unborn.mp hq
      rw [(hp q he).killed hu]
      exact h.mark hK q hu

/-- The thread on CPU `c` has left it; its process is in use and not running. -/
theorem Seats.leave (h : Seats K m) (hr : (m.cpu c).mode = .running p i)
    (hs : (m'.proc p).Born) (hpid : (m'.proc p).pid = (m.proc p).pid)
    (hp : ∀ q, q ≠ p → (m.proc q).Stays (m'.proc q))
    (hc : ∀ d, m'.cpu d = if d = c then { mode := .scan (p + 1) } else m.cpu d)
    (hk : NoNewChild m m') (hn : m'.nextpid = m.nextpid) : Seats K m' := by
  have hon := h.on c p i (.inr hr)
  constructor
  · intro d q j hd
    rw [hc d] at hd ⊢
    by_cases hdc : d = c
    · simp [hdc, Mode.at] at hd
    · simp only [hdc, if_false] at hd ⊢
      have hod := h.on d q j hd
      have hq : q ≠ p := by
        intro he
        exact hdc (h.one d c q hod.1 (he ▸ hon.1))
      rw [(hp q hq).state]
      exact hod
  · intro d q hd
    rw [hc d] at hd ⊢
    by_cases hdc : d = c
    · simp [hdc] at hd
    · simp only [hdc, if_false] at hd ⊢
      exact h.off d q hd
  · intro d e q hd he
    rw [hc d] at hd
    rw [hc e] at he
    by_cases hdc : d = c
    · simp [hdc] at hd
    · by_cases hec : e = c
      · simp [hec] at he
      · simp only [hdc, hec, if_false] at hd he
        exact h.one d e q hd he
  · -- the slots under construction are not `p`, which was running
    intro q j r hq
    have hcl := h.claim q j r (hk q j r hq)
    have hrp : r ≠ p := by
      intro he
      rw [he, hon.2] at hcl
      cases hcl
    rw [(hp r hrp).state]
    exact hcl
  · intro q j q' j' r hq hq'
    exact h.owner q j q' j' r (hk q j r hq) (hk q' j' r hq')
  · rw [hn]; exact h.next
  · intro q hq
    by_cases he : q = p
    · subst he
      rw [hpid]
      exact h.pid q (by simp [hon.2])
    · rw [(hp q he).pid]
      exact h.pid q ((hp q he).state ▸ hq)
  · intro hK q hq
    by_cases he : q = p
    · subst he
      exact absurd hs (Proc.not_born.mpr hq)
    · have hu := (hp q he).unborn.mp hq
      rw [(hp q he).killed hu]
      exact h.mark hK q hu

/-- `sched` in a process that is no longer marked `RUNNING`. -/
theorem Seats.sched (h : Seats K m) (hr : (m.cpu c).mode = .running p i)
    (hs : (m'.proc p).Born) (hpid : (m'.proc p).pid = (m.proc p).pid)
    (hp : ∀ q, q ≠ p → (m.proc q).Stays (m'.proc q)) (hc : m'.cpu = m.cpu) (hk : NoNewChild m m')
    (hn : m'.nextpid = m.nextpid) (esp : Nat) : Seats K (m'.sched c p i esp) := by
  refine h.leave hr ?_ ?_ ?_ ?_ hk hn
  · simpa [Machine.sched, Machine.setCpu, Machine.setProc, Proc.copythproc, Proc.copyprocth,
      Proc.Born] using hs
  · simpa [Machine.sched, Machine.setCpu, Machine.setProc, Proc.copythproc, Proc.copyprocth,
      Proc.setThread] using hpid
  · intro q hq
    simpa [Machine.sched, Machine.setCpu, Machine.setProc, hq] using hp q hq
  · intro d
    simp [Machine.sched, Machine.setCpu, Machine.setProc, hc]

theorem Seats.sleep (h : Seats K m) (hr : (m.cpu c).mode = .running p i) (ch : Chan) (rs : Resume)
    (esp : Nat) : Seats K (m.sleep c p i ch rs esp) := by
  refine h.sched hr ?_ ?_ ?_ ?_ ?_ ?_ esp
  · simp [Machine.setKth, Machine.setProc, Proc.sleep, Proc.Born]
  · simp [Machine.setKth, Machine.setProc, Proc.sleep, Proc.setThread]
  · intro q hq
    simpa [Machine.setKth, Machine.setProc, hq] using Proc.Stays.refl _
  · rfl
  · exact NoNewChild.setKth m p i (k := { m.kth p i with resume := rs }) (fun _ h => h)
  · rfl

/-- The thread `(p, i)`, which builds the child in slot `np`, has changed that
slot. -/
theorem Seats.build (h : Seats K m) (hpc : (m.kth p i).pc.claim = some (np, .EMBRYO))
    (hn' : (m'.proc np).state = .EMBRYO ∨ (m'.kth p i).pc.claim ≠ some (np, .EMBRYO))
    (hpid : (m'.proc np).pid = (m.proc np).pid) (hkill : (m'.proc np).killed = (m.proc np).killed)
    (hp : ∀ q, q ≠ np → (m.proc q).Stays (m'.proc q)) (hc : m'.cpu = m.cpu)
    (hk : NoNewChild m m') (hn : m'.nextpid = m.nextpid) : Seats K m' := by
  have hst : (m.proc np).state = .EMBRYO := h.claim p i np hpc
  refine h.table np (by simp [hst]) ?_ ?_ hp hc (by rw [hn]; exact h.next) ?_ ?_
  · intro _
    rw [hpid]
    exact h.pid np (by simp [hst])
  · intro hK _
    rw [hkill]
    exact h.mark hK np (.inr hst)
  · intro q j r hq
    have hq' := hk q j r hq
    by_cases hr : r = np
    · -- the only thread that builds `np` is this one
      subst hr
      obtain ⟨rfl, rfl⟩ := h.owner q j p i r hq' hpc
      exact hn'.resolve_right (fun hne => hne hq)
    · rw [(hp r hr).state]
      exact h.claim q j r hq'
  · intro q j q' j' r hq hq'
    exact h.owner q j q' j' r (hk q j r hq) (hk q' j' r hq')

/-! ## One rule per call -/

/-- A step that changes processes in ways the table does not see, while no thread
starts to build a child. -/
theorem Seats.setProc (h : Seats K m) {x : Proc} (hx : (m.proc p).Stays x) :
    Seats K (m.setProc p x) :=
  h.frame (Machine.stays_setProc hx) rfl (.of_kth rfl) rfl

theorem Seats.of_same (h : Seats K m) (hp : m'.proc = m.proc) (hc : m'.cpu = m.cpu)
    (hk : NoNewChild m m') (hn : m'.nextpid = m.nextpid) : Seats K m' :=
  h.frame (fun q => by rw [hp]; exact .refl _) hc hk hn

theorem Seats.wakeup1 (h : Seats K m) (chan : Option Chan) : Seats K (m.wakeup1 chan) :=
  h.frame (fun q => Proc.stays_wakeProc chan (m.proc q)) rfl (.of_kth rfl) rfl

theorem Seats.setPc (h : Seats K m) {pc : Pc} (hpc : ∀ r, pc.claim ≠ some (r, .EMBRYO)) :
    Seats K (m.setPc p i pc) :=
  h.of_same rfl rfl (NoNewChild.setKth m p i (fun r hc => absurd hc (hpc r))) rfl

theorem Seats.exitEnd (h : Seats K m) (hr : (m.cpu c).mode = .running p i) (esp : Nat) :
    Seats K (m.exitEnd c p i esp) := by
  have hst : ∀ q, (m.proc q).Stays (((m.acquire c).abandon p).proc q) :=
    Machine.stays_abandon (m.acquire c) p
  refine h.sched hr ?_ ?_ ?_ ?_ ?_ ?_ esp
  · simp [Machine.setPc, Machine.setKth, Machine.setProc, Proc.Born]
  · simpa [Machine.setPc, Machine.setKth, Machine.setProc] using (hst p).pid
  · intro q hq
    simpa [Machine.setPc, Machine.setKth, Machine.setProc, hq] using hst q
  · exact Machine.abandon_cpu (m.acquire c) p
  · exact NoNewChild.exitEnd m c p i esp
  · simp only [Machine.setPc, Machine.setKth, Machine.setProc, Machine.abandon]
    split <;> rfl

theorem Proc.threadExit_born {x : Proc} (hs : x.state = .RUNNING) (v : Nat) :
    (x.threadExit v).Born ∧ (x.threadExit v).pid = x.pid := by
  unfold Proc.threadExit
  split
  · simp [Proc.Born, Proc.setThread]
  · simp [Proc.Born, Proc.setThread, hs]

theorem Seats.threadExit (h : Seats K m) (hr : (m.cpu c).mode = .running p i) (v esp : Nat) :
    Seats K (m.threadExit c p i v esp) := by
  have hon := (h.on c p i (.inr hr)).2
  obtain ⟨-, hpid⟩ := Proc.threadExit_born hon v
  have hleave : Seats K (((m.acquire c).leaveThread p i v).sched c p i esp) := by
    refine h.sched hr ?_ ?_ ?_ ?_ ?_ ?_ esp
    · simp [Machine.leaveThread, Machine.setProc, Proc.Born]
    · have hw : (Machine.wakeProc (some (.thread p (m.proc p).thidx))
          ((m.proc p).threadExit v)).pid = ((m.proc p).threadExit v).pid :=
        (Proc.stays_wakeProc _ _).pid
      simpa [Machine.leaveThread, Machine.setProc, Machine.setKth, Machine.wakeup1,
        Machine.acquire] using hw.trans hpid
    · intro q hq
      simpa [Machine.leaveThread, Machine.setProc, Machine.setKth, Machine.wakeup1,
        Machine.acquire, hq] using
        Proc.stays_wakeProc (some (.thread p (m.proc p).thidx)) (m.proc q)
    · rfl
    · exact NoNewChild.setKth m p i
        (k := { m.kth p i with resume := .threadExit, exit := some m.exits.length }) (fun _ h => h)
    · rfl
  exact hleave.of_same rfl rfl (.of_kth rfl) rfl

/-- A slot that `wait` reaps is on no CPU, and loses its mark. -/
theorem Seats.reap (h : Seats K m) {r : Slot} (hz : (m.proc r).state = .ZOMBIE) :
    Seats K { (m.setProc r (m.proc r).reap).release with
      kth := fun q j => if q = r then {} else m.kth q j } := by
  have hold : ∀ q j t, (if q = r then {} else m.kth q j : Kth).pc.claim = some (t, .EMBRYO) →
      (m.kth q j).pc.claim = some (t, .EMBRYO) := by
    intro q j t hq
    by_cases he : q = r
    · simp [he, Pc.claim] at hq
    · simpa [he] using hq
  refine h.table r (by simp [hz]) ?_ ?_ ?_ ?_ ?_ ?_ ?_
  · simp [Machine.release, Machine.setProc, Proc.reap]
  · intro _ _
    simp [Machine.release, Machine.setProc, Proc.reap]
  · intro q hq
    simpa [Machine.release, Machine.setProc, hq] using Proc.Stays.refl _
  · rfl
  · exact h.next
  · intro q j t hq
    have hcl := h.claim q j t (hold q j t hq)
    have ht : t ≠ r := by
      intro he
      rw [he, hz] at hcl
      cases hcl
    simpa [Machine.release, Machine.setProc, ht] using hcl
  · intro q j q' j' t hq hq'
    exact h.owner q j q' j' t (hold q j t hq) (hold q' j' t hq')

theorem Seats.waitLoop (h : Seats K m) (hr : (m.cpu c).mode = .running p i) (esp : Nat) :
    Seats K (m.waitLoop c p i esp) := by
  unfold Machine.waitLoop
  split
  · rename_i r hfind
    have hz := List.find?_some hfind
    simp only [decide_eq_true_eq] at hz
    exact h.reap hz.2
  · split
    · exact h.of_same rfl rfl (.of_kth rfl) rfl
    · exact h.sleep hr _ _ esp

theorem Seats.joinLoop (h : Seats K m) (hr : (m.cpu c).mode = .running p i) (j : ThIdx)
    (tid esp : Nat) : Seats K (m.joinLoop c p i j tid esp) := by
  have hn := NoNewChild.joinLoop m c p i j tid esp
  revert hn
  unfold Machine.joinLoop
  split
  · intro hn
    exact h.frame (Machine.stays_setProc (Proc.stays_of_eq rfl rfl rfl)) rfl hn rfl
  · split
    · exact fun hn => h.of_same rfl rfl hn rfl
    · exact fun _ => h.sleep hr _ _ esp

theorem Seats.threadCreate (h : Seats K m) (c : Nat) (p : Slot) (page : Option Nat)
    (mapped copied : Bool) : Seats K (m.threadCreate c p page mapped copied) := by
  have hn := NoNewChild.threadCreate m c p page mapped copied
  revert hn
  unfold Machine.threadCreate
  split
  · exact fun hn => h.of_same rfl rfl hn rfl
  · rename_i j x hx
    have hxs := Proc.stays_allocth hx
    split
    · intro hn
      exact h.frame (Machine.stays_setProc (hxs.trans (Proc.stays_of_eq rfl rfl rfl))) rfl hn rfl
    · rename_i a
      have hka : x.Stays (x.kernelStack j a) := Proc.stays_of_eq rfl rfl rfl
      split
      · rename_i y hy
        intro hn
        exact h.frame (Machine.stays_setProc
          ((hxs.trans hka).trans (Proc.stays_userStack (.inl hy)))) rfl hn rfl
      · rename_i y hy
        intro hn
        exact h.frame (Machine.stays_setProc
          ((hxs.trans hka).trans (Proc.stays_userStack (.inr hy)))) rfl hn rfl

/-- `allocproc` takes an `UNUSED` slot, which nobody builds, with the next pid. -/
theorem Seats.take (h : Seats K m) (hn : (m.proc np).state = .UNUSED)
    (x : Proc) (hs : x.state = .EMBRYO) (hpid : x.pid = m.nextpid)
    (hk : x.killed = (m.proc np).killed) (th : Option ThIdx)
    (hp : m'.proc = (m.setProc np x).proc) (hc : m'.cpu = m.cpu) (hnp : m'.nextpid = m.nextpid + 1)
    (hkth : m'.kth = (m.setPc p i (.forkKalloc np th)).kth) : Seats K m' := by
  have hproc : ∀ q, m'.proc q = if q = np then x else m.proc q := by
    intro q
    rw [hp]
    rfl
  have hkq : ∀ q j, m'.kth q j =
      if q = p ∧ j = i then { m.kth p i with pc := .forkKalloc np th } else m.kth q j := by
    intro q j
    rw [hkth]
    rfl
  -- an older claim is not on `np`
  have hold : ∀ q j r, ¬ (q = p ∧ j = i) → (m'.kth q j).pc.claim = some (r, .EMBRYO) →
      (m.kth q j).pc.claim = some (r, .EMBRYO) ∧ r ≠ np := by
    intro q j r hne hq
    rw [hkq, if_neg hne] at hq
    refine ⟨hq, fun he => ?_⟩
    have hst := h.claim q j r hq
    rw [he, hn] at hst
    cases hst
  have hmine : ∀ q j r, q = p ∧ j = i → (m'.kth q j).pc.claim = some (r, .EMBRYO) → r = np := by
    intro q j r he hq
    rw [hkq, if_pos he] at hq
    simp only [Pc.claim, Option.some.injEq, Prod.mk.injEq, and_true] at hq
    exact hq.symm
  have hnext := h.next
  refine h.table np (by simp [hn]) ?_ ?_ ?_ hc (by omega) ?_ ?_
  · intro _
    rw [hproc, if_pos rfl, hpid]
    exact hnext
  · intro hK _
    rw [hproc, if_pos rfl, hk]
    exact h.mark hK np (.inl hn)
  · intro q hq
    rw [hproc, if_neg hq]
    exact .refl _
  · intro q j r hq
    by_cases he : q = p ∧ j = i
    · rw [hmine q j r he hq, hproc, if_pos rfl]
      exact hs
    · obtain ⟨hq', hr⟩ := hold q j r he hq
      rw [hproc, if_neg hr]
      exact h.claim q j r hq'
  · intro q j q' j' r hq hq'
    by_cases he : q = p ∧ j = i <;> by_cases he' : q' = p ∧ j' = i
    · exact ⟨he.1.trans he'.1.symm, he.2.trans he'.2.symm⟩
    · exact absurd (hmine q j r he hq) (hold q' j' r he' hq').2
    · exact absurd (hmine q' j' r he' hq') (hold q j r he hq).2
    · exact h.owner q j q' j' r (hold q j r he hq).1 (hold q' j' r he' hq').1

theorem Seats.allocproc (h : Seats K m) : Seats K (m.allocproc p i) := by
  unfold Machine.allocproc
  split
  · exact h
  · rename_i np hfind
    have hn : (m.proc np).state = .UNUSED := by simpa using List.find?_some hfind
    split
    · exact h.take hn ((m.proc np).embryo m.nextpid) rfl rfl rfl none rfl rfl rfl rfl
    · rename_i j x hx
      obtain ⟨-, rfl⟩ := Proc.allocth_eq hx
      refine h.take hn (((m.proc np).setThread j _).embryo m.nextpid) ?_ ?_ ?_ (some j) (by rfl)
        rfl rfl rfl
      · rfl
      · rfl
      · rfl

/-- `kill` marks a process that was started, or there is no promise on marks. -/
theorem Seats.kill (h : Seats K m) (pid : Int)
    (hb : K → ∀ q, (m.proc q).pid = pid → (m.proc q).Born) : Seats K (m.kill pid) := by
  have hframe : ∀ q, ((m.kill pid).proc q).state = (m.proc q).state ∧
      ((m.kill pid).proc q).pid = (m.proc q).pid ∧
      (K → (m.proc q).Unborn → ((m.kill pid).proc q).killed = (m.proc q).killed) := by
    intro q
    unfold Machine.kill
    split
    · exact ⟨rfl, rfl, fun _ _ => rfl⟩
    · rename_i r hfind
      have hr : (m.proc r).pid = pid := by simpa using List.find?_some hfind
      by_cases hq : q = r
      · subst hq
        have hsp : (m.proc q).kill.state = (m.proc q).state ∧ (m.proc q).kill.pid = (m.proc q).pid := by
          unfold Proc.kill
          split <;> exact ⟨rfl, rfl⟩
        refine ⟨by simpa [Machine.setProc] using hsp.1, by simpa [Machine.setProc] using hsp.2, ?_⟩
        intro hK hun
        exact absurd (hb hK q hr) (Proc.not_born.mpr hun)
      · simp [Machine.setProc, hq]
  have hcpu : (m.kill pid).cpu = m.cpu := by
    unfold Machine.kill
    split <;> rfl
  have hkth : (m.kill pid).kth = m.kth := by
    unfold Machine.kill
    split <;> rfl
  have hnext : (m.kill pid).nextpid = m.nextpid := by
    unfold Machine.kill
    split <;> rfl
  constructor
  · intro d q j hd
    rw [hcpu] at hd ⊢
    rw [(hframe q).1]
    exact h.on d q j hd
  · rw [hcpu]; exact h.off
  · rw [hcpu]; exact h.one
  · intro q j r hq
    rw [hkth] at hq
    rw [(hframe r).1]
    exact h.claim q j r hq
  · rw [hkth]; exact h.owner
  · rw [hnext]; exact h.next
  · intro q hq
    rw [(hframe q).1] at hq
    rw [(hframe q).2.1]
    exact h.pid q hq
  · intro hK q hq
    have hun : (m.proc q).Unborn := by simpa only [Proc.Unborn, (hframe q).1] using hq
    rw [(hframe q).2.2 hK hun]
    exact h.mark hK q hun

theorem CallStep.seats (h : Seats K m) (hr : (m.cpu c).mode = .running p i) {k : Call} {esp : Nat}
    (hk : K → KillsBorn m p i k) (hs : CallStep m c p i esp k m') : Seats K m' := by
  have hon := (h.on c p i (.inr hr)).2
  cases hs with
  | yield _ =>
    refine h.sched hr ?_ ?_ ?_ ?_ ?_ ?_ esp
    · simp [Machine.setKth, Machine.setProc, Proc.yield, Proc.Born]
    · simp [Machine.setKth, Machine.setProc, Proc.yield, Proc.setThread]
    · intro q hq
      simpa [Machine.setKth, Machine.setProc, Machine.acquire, hq] using Proc.Stays.refl _
    · rfl
    · exact NoNewChild.setKth m p i (k := { m.kth p i with resume := .yield }) (fun _ h => h)
    · rfl
  | sleep _ _ =>
    have h1 : Seats K (m.acquire c) := h.of_same rfl rfl (.of_kth rfl) rfl
    exact h1.sleep hr _ _ esp
  | @kill pid _ => exact h.kill pid hk
  | fork _ _ => exact h.allocproc
  | @forkKalloc page np th hpc =>
    have hcl : (m.kth p i).pc.claim = some (np, .EMBRYO) := by rw [hpc]; rfl
    have hother : ∀ (x : Proc) (q : Slot), q ≠ np → (m.proc q).Stays ((m.setProc np x).proc q) := by
      intro x q hq
      simpa [Machine.setProc, hq] using Proc.Stays.refl _
    cases page with
    | none =>
      refine h.build hcl (.inr ?_) ?_ ?_ (hother _) rfl
        (NoNewChild.setKth m p i (by simp [Pc.claim])) rfl
      · simp [Machine.forkKalloc, Machine.setPc, Machine.setKth, Pc.claim]
      · simp [Machine.forkKalloc, Machine.setPc, Machine.setKth, Machine.setProc]
      · simp [Machine.forkKalloc, Machine.setPc, Machine.setKth, Machine.setProc]
    | some a =>
      exact h.frame (Machine.stays_setProc (Proc.stays_of_eq rfl rfl rfl)) rfl
        (NoNewChild.setKth m p i (fun _ h => hcl.trans h)) rfl
  | @forkCopy ok np hpc =>
    have hcl : (m.kth p i).pc.claim = some (np, .EMBRYO) := by rw [hpc]; rfl
    have hother : ∀ (x : Proc) (q : Slot), q ≠ np → (m.proc q).Stays ((m.setProc np x).proc q) := by
      intro x q hq
      simpa [Machine.setProc, hq] using Proc.Stays.refl _
    cases ok with
    | false =>
      refine h.build hcl (.inr ?_) ?_ ?_ (hother _) rfl
        (NoNewChild.setKth m p i (by simp [Pc.claim])) rfl
      · simp [Machine.forkCopy, Machine.setPc, Machine.setKth, Pc.claim]
      · simp [Machine.forkCopy, Machine.setPc, Machine.setKth, Machine.setProc]
      · simp [Machine.forkCopy, Machine.setPc, Machine.setKth, Machine.setProc]
    | true =>
      exact h.frame (Machine.stays_setProc (Proc.stays_of_eq rfl rfl rfl)) rfl
        (NoNewChild.setKth m p i (fun _ h => hcl.trans h)) rfl
  | @forkFields np hpc =>
    have hcl : (m.kth p i).pc.claim = some (np, .EMBRYO) := by rw [hpc]; rfl
    exact h.frame (Machine.stays_setProc (Proc.stays_of_eq rfl rfl rfl)) rfl
      (NoNewChild.setKth m p i (fun _ h => hcl.trans h)) rfl
  | @forkFinish np _ hpc =>
    have hcl : (m.kth p i).pc.claim = some (np, .EMBRYO) := by rw [hpc]; rfl
    have h1 : NoNewChild m (m.setKth np (m.proc np).thidx { pc := .user }) :=
      NoNewChild.setKth m np _ (by simp [Pc.claim])
    refine h.build hcl (.inr ?_) ?_ ?_ ?_ rfl
      (h1.trans (NoNewChild.setKth (m.setKth np (m.proc np).thidx { pc := .user }) p i
        (by simp [Pc.claim]))) rfl
    · simp [Machine.forkFinish, Machine.setPc, Machine.setKth, Pc.claim]
    · simp [Machine.forkFinish, Machine.setPc, Machine.setKth, Machine.setProc, Proc.forkFinish,
        Proc.copyprocth, Proc.setThread]
    · simp [Machine.forkFinish, Machine.setPc, Machine.setKth, Machine.setProc, Proc.forkFinish,
        Proc.copyprocth, Proc.setThread]
    · intro q hq
      simpa [Machine.forkFinish, Machine.setPc, Machine.setKth, Machine.setProc, hq] using
        Proc.Stays.refl _
  | @undoAlloc np th _ =>
    have h1 : ∀ x : Proc, (m.proc np).Stays x → Seats K ((m.setProc np x).setPc p i .user) :=
      fun x hx => (h.setProc hx).setPc (by simp [Pc.claim])
    cases th with
    | none => exact h1 _ (Proc.stays_of_eq rfl rfl rfl)
    | some j => exact h1 _ (Proc.stays_of_eq rfl rfl rfl)
  | @undoFork np _ =>
    have h1 : Seats K (m.undoFork np) := h.setProc (Proc.stays_of_eq rfl rfl rfl)
    exact h1.setPc (by simp [Pc.claim])
  | exec _ => exact h.setPc (by simp [Pc.claim])
  | @execKill n pages _ =>
    unfold Machine.execKill
    split
    · split
      · exact h.setPc (by simp [Pc.claim])
      · rename_i hn _
        have h1 : Seats K ((m.setProc p ((m.proc p).execKill ⟨n, hn⟩)).setKth p ⟨n, hn⟩ {}) :=
          (h.setProc (Proc.stays_execKill _ _)).of_same rfl rfl
            (NoNewChild.setKth _ p _ (by simp [Pc.claim])) rfl
        exact h1.setPc (by simp [Pc.claim])
    · exact h.setPc (by simp [Pc.claim])
  | @execCommit img pages _ _ =>
    have h1 : Seats K (m.setProc p ((m.proc p).execCommit img pages)) :=
      h.setProc (Proc.stays_of_eq rfl rfl rfl)
    exact h1.setPc (by simp [Pc.claim])
  | execFail _ _ => exact h.setPc (by simp [Pc.claim])
  | exit _ _ => exact h.setPc (by simp [Pc.claim])
  | exitEnd _ _ _ => exact h.exitEnd hr esp
  | wait _ _ =>
    have h1 : Seats K (m.acquire c) := h.of_same rfl rfl (.of_kth rfl) rfl
    exact h1.waitLoop hr esp
  | threadCreate _ _ => exact h.threadCreate c p _ _ _
  | threadExit _ _ => exact h.threadExit hr _ esp
  | threadJoin _ _ =>
    unfold Machine.threadJoin
    split
    · exact h
    · have h1 : Seats K (m.acquire c) := h.of_same rfl rfl (.of_kth rfl) rfl
      exact h1.joinLoop hr _ _ esp
  | fsEnter _ => exact h.setPc (by simp [Pc.claim])
  | fsReturn _ _ => exact h.setPc (by simp [Pc.claim])
  | fs _ hf =>
    have hkth : ∀ k : Kth, k.pc = (m.kth p i).pc → NoNewChild m (m.setKth p i k) :=
      fun k hpc => NoNewChild.setKth m p i (by rw [hpc]; exact fun _ h => h)
    cases Machine.fsCall_step hf with
    | @wait k n _ hpc _ _ =>
      have h1 : Seats K ((m.setKth p i k).acquire c) := h.of_same rfl rfl (hkth k hpc) rfl
      exact h1.sleep hr _ _ esp
    | go hpc _ _ => exact h.of_same rfl rfl (hkth _ hpc) rfl
    | @wake k l sl n _ hpc _ _ =>
      have h1 : Seats K { m.setKth p i k with log := l, sleeplock := sl } :=
        h.of_same rfl rfl (hkth k hpc) rfl
      exact h1.wakeup1 _

/-! ## The scheduler -/

/-- A CPU without a process changes its mode. -/
theorem Seats.setMode (h : Seats K m) {k : Mode} (hk : ∀ p i, ¬ k.at p i)
    (hcpu : ∀ d, m'.cpu d = if d = c then { mode := k } else m.cpu d) (hp : m'.proc = m.proc)
    (hkth : m'.kth = m.kth) (hn : m'.nextpid = m.nextpid) : Seats K m' := by
  have hne : ∀ d p, (m'.cpu d).proc = some p → d ≠ c ∧ (m.cpu d).proc = some p := by
    intro d p hd
    rw [hcpu d] at hd
    by_cases hdc : d = c
    · simp [hdc] at hd
    · exact ⟨hdc, by simpa [hdc] using hd⟩
  constructor
  · intro d q j hd
    rw [hcpu d] at hd ⊢
    by_cases hdc : d = c
    · simp only [hdc, if_true] at hd
      exact absurd hd (hk q j)
    · simp only [hdc, if_false] at hd ⊢
      rw [hp]
      exact h.on d q j hd
  · intro d q hd
    obtain ⟨hdc, hd⟩ := hne d q hd
    rw [hcpu d, if_neg hdc]
    exact h.off d q hd
  · intro d e q hd he
    exact h.one d e q (hne d q hd).2 (hne e q he).2
  · rw [hkth, hp]; exact h.claim
  · rw [hkth]; exact h.owner
  · rw [hn]; exact h.next
  · rw [hp]; exact h.pid
  · rw [hp]; exact h.mark

theorem Seats.dispatch (h : Seats K m) (hp : (m.proc p).state = .RUNNABLE) :
    Seats K (m.dispatch c p) := by
  have hfree : ∀ d, (m.cpu d).proc ≠ some p := by
    intro d hd
    obtain ⟨j, hj⟩ := h.off d p hd
    have hrun := (h.on d p j hj).2
    simp [hp] at hrun
  have hproc : ∀ q, q ≠ p → (m.dispatch c p).proc q = m.proc q := by
    intro q hq
    simp [Machine.dispatch, Machine.setCpu, Machine.setProc, hq]
  have hself : ((m.dispatch c p).proc p).state = .RUNNING ∧
      ((m.dispatch c p).proc p).pid = (m.proc p).pid := by
    constructor <;> simp [Machine.dispatch, Machine.setCpu, Machine.setProc, Proc.runThread,
      Proc.copythproc, Proc.setThread]
  have hcpu : ∀ d, (m.dispatch c p).cpu d =
      if d = c then { proc := some p, mode := .switched p (m.proc p).thidxtorun } else m.cpu d :=
    fun _ => rfl
  constructor
  · intro d q j hd
    rw [hcpu d] at hd ⊢
    by_cases hdc : d = c
    · simp only [hdc, if_true, Mode.at, Mode.switched.injEq, reduceCtorEq, or_false] at hd ⊢
      obtain ⟨rfl, -⟩ := hd
      exact ⟨rfl, hself.1⟩
    · simp only [hdc, if_false] at hd ⊢
      have hon := h.on d q j hd
      have hq : q ≠ p := by
        intro he
        exact hfree d (he ▸ hon.1)
      rw [hproc q hq]
      exact hon
  · intro d q hd
    rw [hcpu d] at hd ⊢
    by_cases hdc : d = c
    · simp only [hdc, if_true, Option.some.injEq] at hd ⊢
      subst hd
      exact ⟨_, .inl rfl⟩
    · simp only [hdc, if_false] at hd ⊢
      exact h.off d q hd
  · intro d e q hd he
    rw [hcpu d] at hd
    rw [hcpu e] at he
    by_cases hdc : d = c <;> by_cases hec : e = c
    · rw [hdc, hec]
    · simp only [hdc, hec, if_true, if_false, Option.some.injEq] at hd he
      exact absurd (hd ▸ he) (hfree e)
    · simp only [hdc, hec, if_true, if_false, Option.some.injEq] at hd he
      exact absurd (he ▸ hd) (hfree d)
    · simp only [hdc, hec, if_false] at hd he
      exact h.one d e q hd he
  · intro q j r hq
    have hcl := h.claim q j r hq
    have hrp : r ≠ p := by
      intro he
      rw [he, hp] at hcl
      cases hcl
    rw [hproc r hrp]
    exact hcl
  · exact h.owner
  · exact h.next
  · intro q hq
    by_cases he : q = p
    · subst he
      rw [hself.2]
      exact h.pid q (by simp [hp])
    · rw [hproc q he] at hq ⊢
      exact h.pid q hq
  · intro hK q hq
    by_cases he : q = p
    · subst he
      simp [Proc.Unborn, hself.1] at hq
    · rw [hproc q he] at hq ⊢
      exact h.mark hK q hq

theorem Seats.schedule (h : Seats K m) (hs : m.schedule c = some m') : Seats K m' := by
  unfold Machine.schedule at hs
  split at hs
  · simp only [Option.ite_none_right_eq_some, Option.some.injEq] at hs
    obtain ⟨-, rfl⟩ := hs
    exact h.setMode (k := .scan 0) (c := c) (by simp [Mode.at]) (fun _ => rfl) rfl rfl rfl
  · split at hs <;> simp only [Option.some.injEq] at hs <;> subst hs
    · rename_i q hq
      exact h.dispatch (Machine.pick_spec hq).1
    · exact h.setMode (k := .idle) (c := c) (by simp [Mode.at]) (fun _ => rfl) rfl rfl rfl
  · simp at hs

/-- The thread that was dispatched runs. -/
theorem Seats.enter (h : Seats K m) (hk : (m.cpu c).mode = .switched p i) :
    Seats K (m.enter c p i) := by
  have hcpu : ∀ d, (m.enter c p i).cpu d =
      if d = c then { m.cpu c with mode := .running p i } else m.cpu d := fun _ => rfl
  have hat : ∀ d q j, ((m.enter c p i).cpu d).mode.at q j → (m.cpu d).mode.at q j := by
    intro d q j hd
    rw [hcpu d] at hd
    by_cases hdc : d = c
    · simp only [hdc, if_true, Mode.at, reduceCtorEq, false_or, Mode.running.injEq] at hd
      obtain ⟨rfl, rfl⟩ := hd
      rw [hdc]
      exact .inl hk
    · simpa [hdc] using hd
  have hproc : ∀ d, ((m.enter c p i).cpu d).proc = (m.cpu d).proc := by
    intro d
    rw [hcpu d]
    split
    · rename_i hdc; rw [hdc]
    · rfl
  have hnew : NoNewChild m (m.enter c p i) :=
    NoNewChild.setKth (m.setCpu c _) p i (k := { m.kth p i with resume := .onCpu }) (fun _ h => h)
  constructor
  · intro d q j hd
    rw [hproc d]
    exact h.on d q j (hat d q j hd)
  · intro d q hd
    rw [hproc d] at hd
    obtain ⟨j, hj⟩ := h.off d q hd
    by_cases hdc : d = c
    · have hqp : q = p := by
        have hc := (h.on c p i (.inl hk)).1
        rw [← hdc, hd, Option.some.injEq] at hc
        exact hc
      refine ⟨i, .inr ?_⟩
      rw [hcpu d, if_pos hdc, hqp]
    · refine ⟨j, ?_⟩
      rw [hcpu d, if_neg hdc]
      exact hj
  · intro d e q hd he
    rw [hproc d] at hd
    rw [hproc e] at he
    exact h.one d e q hd he
  · exact fun q j r hq => h.claim q j r (hnew q j r hq)
  · exact fun q j q' j' r hq hq' => h.owner q j q' j' r (hnew q j r hq) (hnew q' j' r hq')
  · exact h.next
  · exact h.pid
  · exact h.mark

theorem Seats.resume (h : Seats K m) {esp : Nat} (hs : m.resume c esp = some m') : Seats K m' := by
  unfold Machine.resume at hs
  split at hs
  · rename_i p i hmode
    have henter : Seats K (m.enter c p i) := h.enter hmode
    have htail : Seats K ((m.enter c p i).schedTail p) :=
      henter.setProc (Proc.stays_of_eq rfl rfl rfl)
    have hawake : Seats K ((m.enter c p i).awake p i) :=
      htail.setProc (Proc.stays_of_eq rfl rfl rfl)
    have hr : (((m.enter c p i).awake p i).cpu c).mode = .running p i := by
      simp [Machine.awake, Machine.setThread, Machine.schedTail, Machine.setProc, Machine.enter,
        Machine.setKth, Machine.setCpu]
    split at hs <;>
      simp only [Option.ite_none_left_eq_some, Option.some.injEq, reduceCtorEq] at hs
    · subst hs; exact henter.of_same rfl rfl (.of_kth rfl) rfl
    · subst hs; exact htail.of_same rfl rfl (.of_kth rfl) rfl
    · subst hs; exact hawake.of_same rfl rfl (.of_kth rfl) rfl
    · subst hs; exact hawake.waitLoop hr esp
    · subst hs; exact hawake.joinLoop hr _ _ esp
    · obtain ⟨-, rfl⟩ := hs; exact htail
  · simp at hs

theorem Seats.step (h : Seats K m) {a : Act} (hk : K → OnCall KillsBorn m a)
    (hs : step m a = some m') : Seats K m' := by
  cases a with
  | schedule c => exact h.schedule hs
  | resume c esp => exact h.resume hs
  | wakeup n =>
    simp only [Lwp.step, Option.ite_none_right_eq_some, Option.some.injEq] at hs
    obtain ⟨-, rfl⟩ := hs
    exact h.wakeup1 _
  | call c esp k =>
    simp only [Lwp.step] at hs
    split at hs
    · rename_i p i hr
      exact CallStep.seats h hr (fun hK => (hk hK).of_running hr) (Machine.call_step hs)
    · simp at hs

theorem Seats.boot (K : Prop) (page : Nat) : Seats K (boot page) := by
  have hproc : ∀ q : Slot, ((Lwp.boot page).proc q).pid = (if q = 0 then 1 else 0) ∧
      ((Lwp.boot page).proc q).state = (if q = 0 then .RUNNABLE else .UNUSED) ∧
      ((Lwp.boot page).proc q).killed = false := by
    intro q
    by_cases hq : q = 0
    · simp [Lwp.boot, hq, Proc.setThread]
    · simp [Lwp.boot, hq]
  have hclaim : ∀ p i, ((Lwp.boot page).kth p i).pc.claim = none := by
    intro p i
    simp only [Lwp.boot]
    split <;> rfl
  constructor
  · intro c p i hc
    simp [Lwp.boot, Mode.at] at hc
  · intro c p hc
    simp [Lwp.boot] at hc
  · intro c d p hc
    simp [Lwp.boot] at hc
  · intro p i np hc
    simp [hclaim] at hc
  · intro p i q j np hc
    simp [hclaim] at hc
  · show (0 : Int) < 2
    decide
  · intro q hq
    rw [(hproc q).2.1] at hq
    rw [(hproc q).1]
    split at hq
    · simp [*]
    · exact absurd rfl hq
  · exact fun _ q _ => (hproc q).2.2

end Rules

/-! ## Whole runs -/

theorem run_seats {page : Nat} {as : List Act} {m : Machine}
    (hr : Lib.run step (boot page) as = some m) :
    Seats (Lib.Meets step (OnCall KillsBorn) (boot page) as) m := by
  by_cases hK : Lib.Meets step (OnCall KillsBorn) (boot page) as
  · have h : Seats True m :=
      Lib.run_inv (fun _ _ _ h hk hs => h.step (fun _ => hk) hs) as _ m (Seats.boot True page) hK hr
    exact ⟨h.on, h.off, h.one, h.claim, h.owner, h.next, h.pid, fun _ => h.mark trivial⟩
  · have h : Seats False m :=
      Lib.run_inv_all (fun _ _ _ h hs => h.step False.elim hs) (Seats.boot False page) hr
    exact ⟨h.on, h.off, h.one, h.claim, h.owner, h.next, h.pid, fun hm => absurd hm hK⟩

theorem Machine.killRet_eq {m : Machine} {pid : Int} :
    m.killRet pid = 0 ↔ ∃ p, (m.proc p).pid = pid := by
  unfold Machine.killRet
  split
  · rename_i hfind
    refine ⟨fun h => absurd h (by decide), fun ⟨p, hp⟩ => ?_⟩
    have hno := List.find?_eq_none.mp hfind p (List.mem_finRange p)
    simp [hp] at hno
  · rename_i r hfind
    have hr : (m.proc r).pid = pid := by simpa using List.find?_some hfind
    exact ⟨fun _ => ⟨r, hr⟩, fun _ => rfl⟩

/-- Pids in use are positive and distinct, so one `UNUSED` slot with the pid is
enough for a wrong answer. -/
theorem killsLive_iff {m : Machine} (hp : PidInv m)
    (hpos : ∀ p, (m.proc p).state ≠ .UNUSED → 0 < (m.proc p).pid) (pid : Int) :
    KillsLive m pid ↔ FindsUsed m pid := by
  constructor
  · intro h p hpid hu
    obtain ⟨q, hq, hqpid⟩ := h.ret.mp (Machine.killRet_eq.mpr ⟨p, hpid⟩)
    have hpq : p = q := hp.distinct q p (hpos q hq) (hpid.trans hqpid.symm)
    exact hq (hpq ▸ hu)
  · intro h
    constructor
    · rw [Machine.killRet_eq]
      exact ⟨fun ⟨p, hpid⟩ => ⟨p, h p hpid, hpid⟩, fun ⟨p, _, hpid⟩ => ⟨p, hpid⟩⟩
    · intro p hu
      unfold Machine.kill
      split
      · rfl
      · rename_i r hfind
        have hr : (m.proc r).pid = pid := by simpa using List.find?_some hfind
        have hpr : p ≠ r := by
          intro he
          exact h r hr (he ▸ hu)
        simp [Machine.setProc, hpr]

/-- In every state of every run, `kill(pid)` answers for the slots in use and
leaves the others alone exactly when no `UNUSED` slot has that pid; and when every
`kill` of the run was given a pid that no free slot and no slot under construction
had, a child that `fork` returns is not marked. -/
theorem kill_spares_unused (page : Nat) (as : List Act) (m : Machine)
    (hr : Lib.run step (boot page) as = some m) :
    (∀ pid, KillsLive m pid ↔ FindsUsed m pid) ∧
    (Lib.Meets step (OnCall KillsBorn) (boot page) as → ∀ c esp p i np m',
      (m.cpu c).mode = .running p i → (m.kth p i).pc = .forkFinish np →
      step m (.call c esp .forkFinish) = some m' → (m'.proc np).killed = false) := by
  have hseats := run_seats hr
  have hpids : PidInv m := Lib.run_inv_all (fun _ _ _ h hs => h.step hs) (PidInv.boot page) hr
  refine ⟨killsLive_iff hpids hseats.pid, ?_⟩
  intro hK c esp p i np m' hmode hpc hs
  have hst : (m.proc np).state = .EMBRYO := hseats.claim p i np (by rw [hpc]; rfl)
  have hmark := hseats.mark hK np (.inr hst)
  simp only [step, hmode] at hs
  cases Machine.call_step hs with
  | @forkFinish nq _ hpc' =>
    have hnq : nq = np := by
      rw [hpc, Pc.forkFinish.injEq] at hpc'
      exact hpc'.symm
    subst hnq
    simpa [Machine.forkFinish, Machine.setPc, Machine.setKth, Machine.setProc, Proc.forkFinish,
      Proc.copyprocth, Proc.setThread] using hmark

/-- `init` forks, kills its child, and forks again. -/
def killsChild : List Act := forkChild ++ [.call 0 0 .forkFinish, .call 0 0 (.kill 2)] ++ forkChild

instance KillsBorn.decidable (m : Machine) (p : Slot) (i : ThIdx) :
    ∀ k : Call, Decidable (KillsBorn m p i k)
  | .kill pid => inferInstanceAs (Decidable (∀ q, (m.proc q).pid = pid →
      (m.proc q).state ≠ .UNUSED ∧ (m.proc q).state ≠ .EMBRYO))
  | .yield | .sleep _ | .fork | .forkKalloc _ | .forkCopy _ | .forkFields | .forkFinish
  | .forkUndo | .exec _ | .execKill | .execCommit _ | .execFail | .exit | .exitEnd | .wait
  | .threadCreate _ _ _ | .threadExit _ | .threadJoin _ | .fsEnter | .fsReturn | .fs _ =>
    .isTrue trivial

theorem kill_spares_unused_killsChild : ∃ m m',
    Lib.run step (boot 4096) (startInit ++ killsChild) = some m ∧ (KillsLive m 2 ↔ FindsUsed m 2) ∧
    step m (.call 0 0 .forkFinish) = some m' ∧ (m'.proc 2).killed = false := by
  have hrun : (Lib.run step (initReady 4096) killsChild).any (fun m =>
      (m.cpu 0).mode = .running 0 0 ∧ (m.kth 0 0).pc = .forkFinish 2 ∧
        (step m (.call 0 0 .forkFinish)).isSome) := by
    decide +kernel
  obtain ⟨m, hr, hm⟩ := (Option.any_eq_true _ _).mp hrun
  obtain ⟨h1, h2, h3⟩ := of_decide_eq_true hm
  obtain ⟨m', h3⟩ := Option.isSome_iff_exists.mp h3
  rw [← run_init] at hr
  have h := kill_spares_unused 4096 (startInit ++ killsChild) m hr
  exact ⟨m, m', hr, h.1 2, h3,
    h.2 (meets_init (by decide +kernel) (by decide +kernel)) 0 0 0 0 2 m' h1 h2 h3⟩

/-- `init` calls `kill(0)`, which finds the free slot 1, and forks. -/
def killsUnused : List Act := .call 0 0 (.kill 0) :: forkChild

theorem killsUnused_marks_child : ∃ m m₁ m₂, Lib.run step (boot 4096) startInit = some m ∧
    ¬ KillsLive m 0 ∧ Lib.run step m killsUnused = some m₁ ∧
    (m₁.cpu 0).mode = .running 0 0 ∧ (m₁.kth 0 0).pc = .forkFinish 1 ∧
    step m₁ (.call 0 0 .forkFinish) = some m₂ ∧ (m₂.proc 1).killed = true := by
  have hrun : (Lib.run step (initReady 4096) killsUnused).any (fun m₁ =>
      (m₁.cpu 0).mode = .running 0 0 ∧ (m₁.kth 0 0).pc = .forkFinish 1 ∧
        (step m₁ (.call 0 0 .forkFinish)).any (fun m₂ => (m₂.proc 1).killed)) := by
    decide +kernel
  have hslot : ((initReady 4096).proc 1).state = .UNUSED ∧ ((initReady 4096).proc 1).killed = false ∧
      (((initReady 4096).kill 0).proc 1).killed = true := by
    decide +kernel
  obtain ⟨m₁, hr, hm⟩ := (Option.any_eq_true _ _).mp hrun
  obtain ⟨h1, h2, h3⟩ := of_decide_eq_true hm
  obtain ⟨m₂, hs, h3⟩ := (Option.any_eq_true _ _).mp h3
  refine ⟨initReady 4096, m₁, m₂, run_startInit 4096, ?_, hr, h1, h2, hs, h3⟩
  -- slot 1 is `UNUSED` and has been marked
  intro h
  have hsame := h.unused 1 hslot.1
  rw [hsame, hslot.2.1] at hslot
  exact absurd hslot.2.2 (by decide)

end Xv6.Lwp
