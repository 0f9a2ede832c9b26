import Xv6.Lwp.Wake
import Xv6.Lwp.Limit

/- Who holds `ptable.lock`. A call takes the lock, and has given it back when it
   returns to its caller: no CPU that executes a thread outside the locked sections
   holds it. Two calls break this, `thread_create` on its error returns and
   `thread_exit` in the only live thread of a process; in a run without these it
   holds in every state.

   The machine is extended by `getProc` and by what `setmemorylimit` does to the slot
   it has found. -/
namespace Xv6.Lwp

/-- `setLimit c q limit`: the rest of a `setmemorylimit(pid, limit)` on CPU `c` whose
`getProc` has returned the slot `q`. -/
inductive LockAct where
  | act (a : Act)
  | getProc (c : Nat) (pid : Int)
  | setLimit (c : Nat) (q : Slot) (limit : Int)
  deriving DecidableEq, Repr

def lockStep (m : Machine) : LockAct → Option Machine
  | .act a => step m a
  | .getProc c pid =>
    match (m.cpu c).mode with
    | .running _ _ =>
      if m.lock = none then
        match getProc (m.acquire c).proc pid with
        | some _ => some (m.acquire c).release
        | none => some (m.acquire c).release
      else none
    | _ => none
  | .setLimit c q limit =>
    match (m.cpu c).mode with
    | .running _ _ =>
      if limit < 0 ∨ ((m.proc q).sz : Int) > limit then some m
      else some (m.setProc q { m.proc q with limit := limit.toNat })
    | _ => none

/-- No CPU that executes a thread holds `ptable.lock`. -/
def Balanced (m : Machine) : Prop :=
  ∀ c p i, (m.cpu c).mode = .running p i → m.lock ≠ some c

/-- `thread_create` gets what it needs: a thread slot, a kernel stack, and a user
stack it can write to. `thread_exit` is called in a process with another live
thread. -/
def Supplied (m : Machine) (p : Slot) (_ : ThIdx) : Call → Prop
  | .threadCreate page mapped copied =>
    match (List.finRange NTHREAD).find? (fun j => ((m.proc p).thread j).state = .UNUSED) with
    | none => False
    | some j => page ≠ none ∧ copied = true ∧
        ((m.proc p).freedustack j ≠ 0 ∨
          mapped = true ∧ Proc.stackTop (m.proc p).sz (m.proc p).stacksize < KERNBASE)
  | .threadExit _ => ∃ j, j ≠ (m.proc p).thidx ∧ ((m.proc p).thread j).state ≠ .UNUSED ∧
      ((m.proc p).thread j).state ≠ .ZOMBIE
  | _ => True

/-- The condition on a step: every call is `Supplied`. -/
def Supplies (m : Machine) : LockAct → Prop
  | .act a => OnCall Supplied m a
  | _ => True

instance Supplied.decidable (m : Machine) (p : Slot) (i : ThIdx) : (k : Call) →
    Decidable (Supplied m p i k)
  | .threadCreate page mapped copied =>
    match h : (List.finRange NTHREAD).find? (fun j => ((m.proc p).thread j).state = .UNUSED) with
    | none => .isFalse (by simp [Supplied, h])
    | some j => decidable_of_iff (page ≠ none ∧ copied = true ∧
        ((m.proc p).freedustack j ≠ 0 ∨
          mapped = true ∧ Proc.stackTop (m.proc p).sz (m.proc p).stacksize < KERNBASE))
        (by simp [Supplied, h])
  | .threadExit _ => inferInstanceAs (Decidable (∃ j, _))
  | .yield | .sleep _ | .kill _ | .fork | .forkKalloc _ | .forkCopy _ | .forkFields | .forkFinish
  | .forkUndo | .exec _ | .execKill | .execCommit _ | .execFail | .exit | .exitEnd | .wait
  | .threadJoin _ | .fsEnter | .fsReturn | .fs _ => .isTrue trivial

instance Supplies.decidable (m : Machine) : (a : LockAct) → Decidable (Supplies m a)
  | .act a => inferInstanceAs (Decidable (OnCall Supplied m a))
  | .getProc _ _ | .setLimit _ _ _ => .isTrue trivial

/-- A thread that has called `thread_exit` does not run again. -/
structure Gone (m : Machine) : Prop where
  wake : Wake m
  gone : ∀ p i, (m.kth p i).resume = .threadExit →
    ¬ ((m.proc p).thread i).Active ∧ ∀ c, ¬ (m.cpu c).mode.at p i

/-- The lock is held for the scheduler's side of a CPU, or by CPU `c`. -/
def HeldFor (c : Nat) (m : Machine) : Prop := ∀ d, m.lock = some d → d = c ∨ (m.cpu d).mode.busy

structure HeldInv (m : Machine) : Prop extends Gone m where
  held : ∀ c, m.lock = some c → (m.cpu c).mode.busy

/-- No thread has called `thread_exit` and none that has is active again. -/
structure Quietly (m m' : Machine) : Prop where
  gone : ∀ q j, (m'.kth q j).resume = .threadExit → (m.kth q j).resume = .threadExit ∧
    (((m'.proc q).thread j).Active → ((m.proc q).thread j).Active)
  at' : ∀ d q j, (m'.cpu d).mode.at q j → (m.cpu d).mode.at q j

theorem HeldInv.balanced {m : Machine} (h : HeldInv m) : Balanced m := by
  intro c p i hr hl
  have hb := h.held c hl
  simp [hr, Mode.busy] at hb

section Rules

variable {m m' m'' : Machine} {c : Nat} {p : Slot} {i : ThIdx} {esp : Nat}

theorem Gone.quiet (h : Gone m) (hw : Wake m') (hq : Quietly m m') : Gone m' := by
  refine ⟨hw, fun q j hr => ?_⟩
  obtain ⟨hr', ha⟩ := hq.gone q j hr
  obtain ⟨h1, h2⟩ := h.gone q j hr'
  exact ⟨fun hact => h1 (ha hact), fun d hd => h2 d (hq.at' d q j hd)⟩

theorem Quietly.trans (h : Quietly m m') (h' : Quietly m' m'') : Quietly m m'' := by
  refine ⟨fun q j hr => ?_, fun d q j hd => h.at' d q j (h'.at' d q j hd)⟩
  obtain ⟨h1, h2⟩ := h'.gone q j hr
  obtain ⟨h3, h4⟩ := h.gone q j h1
  exact ⟨h3, fun ha => h4 (h2 ha)⟩

/-- The same positions and CPUs, and no thread is newly active. -/
theorem Quietly.of_like (hl : LikeAll m m') (hk : m'.kth = m.kth) (hc : m'.cpu = m.cpu) :
    Quietly m m' := by
  refine ⟨fun q j hr => ?_, fun d q j hd => ?_⟩
  · rw [hk] at hr
    exact ⟨hr, (hl q j).active.mp⟩
  · rwa [hc] at hd

theorem Quietly.refl (m : Machine) : Quietly m m := .of_like (LikeAll.refl m) rfl rfl

theorem Quietly.setProc {x : Proc} (hx : ∀ j, (x.thread j).Active → ((m.proc p).thread j).Active) :
    Quietly m (m.setProc p x) := by
  refine ⟨fun q j hr => ⟨hr, fun ha => ?_⟩, fun _ _ _ hd => hd⟩
  by_cases hq : q = p
  · subst hq
    exact hx j (by simpa [Machine.setProc] using ha)
  · simpa [Machine.setProc, hq] using ha

theorem Quietly.setKth {k : Kth} (hk : k.resume = .threadExit → (m.kth p i).resume = .threadExit) :
    Quietly m (m.setKth p i k) := by
  refine ⟨fun q j hr => ?_, fun _ _ _ hd => hd⟩
  by_cases he : q = p ∧ j = i
  · obtain ⟨rfl, rfl⟩ := he
    simp only [Machine.setKth, and_self, if_true] at hr
    exact ⟨hk hr, id⟩
  · simp only [Machine.setKth, he, if_false] at hr
    exact ⟨hr, id⟩

theorem Quietly.setPc (pc : Pc) : Quietly m (m.setPc p i pc) := Quietly.setKth id

/-- A thread is made ready to run, and starts over. -/
theorem Quietly.start {x : Proc} {j : ThIdx} {k : Kth} (hk : k.resume ≠ .threadExit)
    (hx : ∀ l, l ≠ j → (x.thread l).Active → ((m.proc p).thread l).Active) :
    Quietly m ((m.setProc p x).setKth p j k) := by
  refine ⟨fun q l hr => ?_, fun _ _ _ hd => hd⟩
  by_cases he : q = p ∧ l = j
  · obtain ⟨rfl, rfl⟩ := he
    simp only [Machine.setKth, and_self, if_true] at hr
    exact absurd hr hk
  · simp only [Machine.setKth, he, if_false] at hr
    refine ⟨hr, fun ha => ?_⟩
    by_cases hq : q = p
    · subst hq
      exact hx l (fun hl => he ⟨rfl, hl⟩) (by simpa [Machine.setProc, Machine.setKth] using ha)
    · simpa [Machine.setProc, Machine.setKth, hq] using ha

/-- The thread has left its CPU. -/
theorem Quietly.sched (m : Machine) (c : Nat) (p : Slot) (i : ThIdx) (esp : Nat) :
    Quietly m (m.sched c p i esp) := by
  refine ⟨fun q j hr => ⟨hr, (LikeAll.sched m c p i esp q j).active.mp⟩, fun d q j hd => ?_⟩
  by_cases hdc : d = c
  · simp [Machine.sched, Machine.setCpu, hdc, Mode.at] at hd
  · simpa [Machine.sched, Machine.setCpu, Machine.setProc, hdc] using hd

theorem Machine.sched_busy (m : Machine) (c : Nat) (p : Slot) (i : ThIdx) (esp : Nat) (d : Nat)
    (h : d ≠ c → (m.cpu d).mode.busy) : ((m.sched c p i esp).cpu d).mode.busy := by
  by_cases hdc : d = c
  · simp [Machine.sched, Machine.setCpu, hdc, Mode.busy]
  · simpa [Machine.sched, Machine.setCpu, Machine.setProc, hdc] using h hdc

theorem Quietly.sleep (hth : (m.proc p).thidx = i) {rs : Resume} (hrs : rs ≠ .threadExit)
    (ch : Chan) : Quietly m (m.sleep c p i ch rs esp) := by
  refine Quietly.trans ?_ (Quietly.sched _ c p i esp)
  refine Quietly.start hrs (fun l hl => ?_)
  have hne : l ≠ (m.proc p).thidx := hth ▸ hl
  simp [Proc.sleep, hne]

theorem HeldInv.sleep (h : Gone m) (hr : (m.cpu c).mode = .running p i) (hl : HeldFor c m)
    {ch : Chan} {rs : Resume} (hrs : rs ≠ .threadExit) (hw : Wake (m.sleep c p i ch rs esp)) :
    HeldInv (m.sleep c p i ch rs esp) := by
  refine ⟨h.quiet hw (Quietly.sleep (h.wake.on c p i (.inr hr)).2 hrs ch), fun d hd => ?_⟩
  exact Machine.sched_busy _ c p i esp d (fun hdc => (hl d hd).resolve_left hdc)

theorem Gone.congr (h : Gone m) (hp : m'.proc = m.proc) (hc : m'.cpu = m.cpu) (hk : m'.kth = m.kth)
    (hi : m'.initproc = m.initproc) : Gone m' := by
  refine ⟨h.wake.congr hp hc hk hi, ?_⟩
  rw [hp, hc, hk]
  exact h.gone

theorem HeldInv.acquire (h : HeldInv m) (c : Nat) : Gone (m.acquire c) ∧ HeldFor c (m.acquire c) := by
  refine ⟨h.toGone.congr rfl rfl rfl rfl, fun d hd => .inl ?_⟩
  exact (Option.some.inj hd).symm

/-- The lock is given back. -/
theorem Gone.release (h : Gone m) : HeldInv m.release :=
  ⟨h.congr rfl rfl rfl rfl, fun d hd => by cases hd⟩

/-- Nothing happens to the lock or the CPUs. -/
theorem HeldInv.quiet (h : HeldInv m) (hw : Wake m') (hq : Quietly m m') (hl : m'.lock = m.lock)
    (hc : m'.cpu = m.cpu) : HeldInv m' := by
  refine ⟨h.toGone.quiet hw hq, fun d hd => ?_⟩
  rw [hc]
  exact h.held d (hl ▸ hd)

theorem HeldInv.waitLoop (h : Gone m) (hr : (m.cpu c).mode = .running p i) (hl : HeldFor c m) :
    HeldInv (m.waitLoop c p i esp) := by
  have hw : Wake (m.waitLoop c p i esp) := h.wake.waitLoop hr
  unfold Machine.waitLoop at hw ⊢
  split
  · rename_i q hq
    rw [hq] at hw
    refine ⟨h.quiet hw ⟨fun r j hrs => ?_, fun _ _ _ hd => hd⟩, fun d hd => by cases hd⟩
    simp only at hrs
    split at hrs
    · cases hrs
    · rename_i hne
      exact ⟨hrs, fun ha => by simpa [Machine.setProc, Machine.release, hne] using ha⟩
  · rename_i hq
    rw [hq] at hw
    simp only at hw
    split
    · exact h.release
    · rename_i hn
      rw [if_neg hn] at hw
      exact HeldInv.sleep h hr hl (by simp) hw

theorem Thread.not_active_of_unused {th : Thread} (h : th.state = .UNUSED) : ¬ th.Active := by
  simp [Thread.Active, h]

theorem HeldInv.joinLoop (h : Gone m) (hr : (m.cpu c).mode = .running p i) (hl : HeldFor c m)
    (j : ThIdx) (tid : Nat) : HeldInv (m.joinLoop c p i j tid esp) := by
  have hw : Wake (m.joinLoop c p i j tid esp) := h.wake.joinLoop hr j tid
  unfold Machine.joinLoop at hw ⊢
  split
  · rename_i hz
    rw [if_pos hz] at hw
    refine ⟨h.quiet hw ?_, fun d hd => by cases hd⟩
    have h1 : Quietly m (m.setProc p ((m.proc p).joinReap j)) := by
      refine Quietly.setProc (fun l ha => ?_)
      by_cases hlj : l = j
      · refine absurd ha (Thread.not_active_of_unused ?_)
        simp [Proc.joinReap, Proc.freeustack, hlj]
      · simpa [Proc.joinReap, Proc.freeustack, hlj] using ha
    have h2 : Quietly m ((m.setProc p ((m.proc p).joinReap j)).setKth p j {}) :=
      h1.trans (Quietly.setKth (fun hrs => by cases hrs))
    exact ⟨h2.gone, h2.at'⟩
  · rename_i hz
    rw [if_neg hz] at hw
    split
    · exact h.release
    · rename_i hn
      rw [if_neg hn] at hw
      exact HeldInv.sleep h hr hl (by simp) hw

end Rules

/-! ## Calls -/

section Calls

variable {m m' : Machine} {c : Nat} {p np : Slot} {i : ThIdx} {esp : Nat}

theorem Machine.kill_frame (m : Machine) (pid : Int) :
    (m.kill pid).lock = m.lock ∧ (m.kill pid).cpu = m.cpu ∧ (m.kill pid).kth = m.kth := by
  unfold Machine.kill
  split <;> exact ⟨rfl, rfl, rfl⟩

theorem Machine.allocproc_frame (m : Machine) (p : Slot) (i : ThIdx) :
    (m.allocproc p i).lock = m.lock ∧ (m.allocproc p i).cpu = m.cpu := by
  unfold Machine.allocproc
  split
  · exact ⟨rfl, rfl⟩
  · split <;> exact ⟨rfl, rfl⟩

theorem Machine.execKill_frame (m : Machine) (p : Slot) (i : ThIdx) (n pages : Nat) :
    (m.execKill p i n pages).lock = m.lock ∧ (m.execKill p i n pages).cpu = m.cpu := by
  unfold Machine.execKill
  split
  · split <;> exact ⟨rfl, rfl⟩
  · exact ⟨rfl, rfl⟩

theorem Proc.userStack_succeeds {x : Proc} {j : ThIdx} {mapped copied : Bool} (hc : copied = true)
    (hm : x.freedustack j ≠ 0 ∨ mapped = true ∧ stackTop x.sz x.stacksize < KERNBASE) :
    ∃ y, x.userStack j mapped copied = .ok y := by
  unfold Proc.userStack
  by_cases hf : x.freedustack j ≠ 0
  · exact ⟨_, by rw [if_pos hf, if_pos hc]⟩
  · exact ⟨_, by rw [if_neg hf, if_pos (hm.resolve_left hf), if_pos hc]⟩

/-- A `thread_create` that succeeds gives the lock back. -/
theorem HeldInv.threadCreate (h : HeldInv m) {page : Option Nat} {mapped copied : Bool}
    (hs : Supplied m p i (.threadCreate page mapped copied)) :
    HeldInv (m.threadCreate c p page mapped copied) := by
  have hw := h.wake.threadCreate (c := c) (p := p) page mapped copied
  unfold Supplied at hs
  simp only at hs
  split at hs
  · exact hs.elim
  · rename_i j hj
    obtain ⟨hpg, hc, hm⟩ := hs
    obtain ⟨a, rfl⟩ := Option.ne_none_iff_exists'.mp hpg
    have hal : (m.proc p).allocth m.nexttid = some (j, (m.proc p).setThread j
        { (m.proc p).thread j with tid := m.nexttid, state := .EMBRYO }) := by
      simp only [Proc.allocth, hj]
    obtain ⟨y, hy⟩ := Proc.userStack_succeeds (x := ((m.proc p).setThread j
      { (m.proc p).thread j with tid := m.nexttid, state := .EMBRYO }).kernelStack j a)
      (j := j) hc hm
    simp only [Machine.threadCreate, hal, hy] at hw ⊢
    have hq : Quietly m ((m.setProc p y).setKth p j { pc := .user }) := by
      refine Quietly.start (by simp) (fun l hl ha => ?_)
      rw [(Proc.userStack_thread (.inl hy)).1 l hl] at ha
      simpa [Proc.kernelStack, hl] using ha
    exact h.quiet hw ⟨hq.gone, hq.at'⟩ rfl rfl

/-- With another live thread, `thread_exit` leaves a zombie. -/
theorem Proc.threadExit_zombie {x : Proc} (v : Nat) (h : ∃ j, j ≠ x.thidx ∧
    (x.thread j).state ≠ .UNUSED ∧ (x.thread j).state ≠ .ZOMBIE) :
    ((x.threadExit v).thread x.thidx).state = .ZOMBIE := by
  obtain ⟨j, hj, h1, h2⟩ := h
  have hcount : (x.setThread x.thidx { x.thread x.thidx with state := .ZOMBIE }).countth ≠ 0 := by
    refine Nat.pos_iff_ne_zero.mp (List.countP_pos_iff.mpr ⟨j, List.mem_finRange j, ?_⟩)
    simp [hj, h1, h2]
  simp [Proc.threadExit, hcount]

theorem Quietly.other_cpu (h : Gone m) (hr : (m.cpu c).mode = .running p i) {m' : Machine}
    (hc : ∀ d, m'.cpu d = if d = c then { mode := .scan (p + 1) } else m.cpu d) {d : Nat} {q : Slot}
    {j : ThIdx} (hd : (m'.cpu d).mode.at q j) : (m.cpu d).mode.at q j ∧ q ≠ p := by
  rw [hc d] at hd
  by_cases hdc : d = c
  · simp [hdc, Mode.at] at hd
  · rw [if_neg hdc] at hd
    refine ⟨hd, fun hq => hdc ?_⟩
    subst hq
    exact h.wake.one d c q j i hd (.inr hr)

theorem HeldInv.threadExit (h : HeldInv m) (hr : (m.cpu c).mode = .running p i) {v : Nat}
    (hs : Supplied m p i (.threadExit v)) : HeldInv (m.threadExit c p i v esp) := by
  have hth := (h.wake.on c p i (.inr hr)).2
  have hlike := LikeAll.threadExit m c p i v esp
  have hcpu : ∀ d, (m.threadExit c p i v esp).cpu d =
      if d = c then { mode := .scan (p + 1) } else m.cpu d := fun _ => rfl
  refine ⟨⟨h.wake.threadExit hr v, fun q j hrs => ?_⟩, fun d hd => ?_⟩
  · by_cases he : q = p ∧ j = i
    · obtain ⟨rfl, rfl⟩ := he
      refine ⟨fun ha => ?_, fun d hd => (Quietly.other_cpu h.toGone hr hcpu hd).2 rfl⟩
      have hz := Proc.threadExit_zombie v hs
      have ha' := (hlike q j).active.mp ha
      simp only [Machine.setProc, if_true] at ha'
      rw [hth] at hz
      simp [Thread.Active, hz] at ha'
    · have hkth : ((m.threadExit c p i v esp).kth q j).resume = (m.kth q j).resume := by
        simp [Machine.threadExit, Machine.leaveThread, Machine.sched, Machine.setCpu,
          Machine.setProc, Machine.setKth, Machine.wakeup1, Machine.acquire, he]
      rw [hkth] at hrs
      obtain ⟨h1, h2⟩ := h.gone q j hrs
      refine ⟨fun ha => h1 ?_, fun d hd => h2 d (Quietly.other_cpu h.toGone hr hcpu hd).1⟩
      have ha' := (hlike q j).active.mp ha
      by_cases hq : q = p
      · subst hq
        simp only [Machine.setProc, if_true] at ha'
        rwa [Proc.threadExit_other _ v (fun hj => he ⟨rfl, hj.trans hth⟩)] at ha'
      · simpa [Machine.setProc, hq] using ha'
  · have hdc : d = c := (Option.some.inj hd).symm
    rw [hcpu, if_pos hdc]
    trivial

theorem HeldInv.exitEnd (h : HeldInv m) (hr : (m.cpu c).mode = .running p i)
    (hpc : (m.kth p i).pc = .exiting) : HeldInv (m.exitEnd c p i esp) := by
  have hlike := LikeAll.exitEnd m c p i esp
  have hcpu : ∀ d, (m.exitEnd c p i esp).cpu d =
      if d = c then { mode := .scan (p + 1) } else m.cpu d := by
    intro d
    simp [Machine.exitEnd, Machine.sched, Machine.setCpu, Machine.setPc, Machine.setKth,
      Machine.setProc, Machine.abandon_cpu, Machine.acquire]
  have hkth : ∀ q j, ((m.exitEnd c p i esp).kth q j).resume = (m.kth q j).resume := by
    intro q j
    by_cases he : q = p ∧ j = i
    · obtain ⟨rfl, rfl⟩ := he
      simp [Machine.exitEnd, Machine.sched, Machine.setCpu, Machine.setPc, Machine.setKth,
        Machine.setProc, Machine.abandon_kth, Machine.acquire]
    · simp [Machine.exitEnd, Machine.sched, Machine.setCpu, Machine.setPc, Machine.setKth,
        Machine.setProc, Machine.abandon_kth, Machine.acquire, he]
  have hlock : (m.exitEnd c p i esp).lock = some c := by
    simp [Machine.exitEnd, Machine.sched, Machine.setCpu, Machine.setPc, Machine.setKth,
      Machine.setProc, Machine.abandon_lock, Machine.acquire]
  refine ⟨h.toGone.quiet (h.wake.exitEnd hr hpc) ⟨fun q j hrs => ?_, fun d q j hd => ?_⟩,
    fun d hd => ?_⟩
  · rw [hkth] at hrs
    exact ⟨hrs, (hlike q j).active.mp⟩
  · exact (Quietly.other_cpu h.toGone hr hcpu hd).1
  · rw [hlock] at hd
    rw [hcpu, if_pos (Option.some.inj hd).symm]
    trivial

/-- Another slot is rewritten, with no new active thread, and the caller moves on. -/
theorem Quietly.slot {x : Proc} {pc : Pc}
    (hx : ∀ j, (x.thread j).Active → ((m.proc np).thread j).Active) :
    Quietly m ((m.setProc np x).setPc p i pc) :=
  (Quietly.setProc hx).trans (Quietly.setPc pc)

theorem Quietly.allocproc (m : Machine) (p : Slot) (i : ThIdx) : Quietly m (m.allocproc p i) := by
  unfold Machine.allocproc
  split
  · exact Quietly.refl m
  · rename_i np hnp
    split
    · have hq : Quietly m ((m.setProc np ((m.proc np).embryo m.nextpid)).setPc p i
          (.forkKalloc np none)) := Quietly.slot (fun j ha => ha)
      exact ⟨hq.gone, hq.at'⟩
    · rename_i j x hx
      obtain ⟨-, rfl⟩ := Proc.allocth_eq hx
      have hq : Quietly m ((m.setProc np (((m.proc np).setThread j { (m.proc np).thread j with
          tid := m.nexttid, state := .EMBRYO }).embryo m.nextpid)).setPc p i
          (.forkKalloc np (some j))) := by
        refine Quietly.slot (fun l ha => ?_)
        by_cases hl : l = j
        · simp [Proc.embryo, hl, Thread.Active] at ha
        · simpa [Proc.embryo, hl] using ha
      exact ⟨hq.gone, hq.at'⟩

theorem Quietly.fork (m : Machine) (p : Slot) (i : ThIdx) (np : Slot) (th : Option ThIdx)
    (page : Option Nat) (ok : Bool) :
    Quietly m (m.forkKalloc p i np th page) ∧ Quietly m (m.forkCopy p i np ok) := by
  constructor
  · cases page <;> exact Quietly.slot (fun j ha => ha)
  · cases ok <;> exact Quietly.slot (fun j ha => ha)

theorem Quietly.forkFields (m : Machine) (p : Slot) (i : ThIdx) (np : Slot) :
    Quietly m ((m.setProc np (Proc.forkFields (m.proc p) (m.proc np) p)).setPc p i
      (.forkFinish np)) := by
  refine Quietly.slot (fun j ha => ?_)
  by_cases hj : j = (m.proc np).thidx
  · simpa [Proc.forkFields, hj, Thread.Active] using ha
  · simpa [Proc.forkFields, hj] using ha

theorem Quietly.forkFinish (m : Machine) (p : Slot) (i : ThIdx) (np : Slot) :
    Quietly m (m.forkFinish p i np) := by
  have h1 : Quietly m ((m.setProc np (m.proc np).forkFinish).setKth np (m.proc np).thidx
      { pc := .user }) := by
    refine Quietly.start (by simp) (fun l hl ha => ?_)
    simpa [Proc.forkFinish, Proc.copyprocth, hl] using ha
  exact h1.trans (Quietly.setPc _)

theorem Quietly.undo (m : Machine) (p : Slot) (i : ThIdx) (np : Slot) (th : Option ThIdx) :
    Quietly m ((m.undoAlloc np th).setPc p i .user) ∧
      Quietly m ((m.undoFork np).setPc p i .user) := by
  have hclear : ∀ j l, (((m.proc np).setThread j
      { (m.proc np).thread j with state := .UNUSED }).thread l).Active →
      ((m.proc np).thread l).Active := by
    intro j l ha
    by_cases hl : l = j
    · simp [hl, Thread.Active] at ha
    · simpa [hl] using ha
  constructor
  · cases th with
    | none => exact Quietly.slot (fun j ha => ha)
    | some j => exact Quietly.slot (hclear j)
  · exact Quietly.slot (hclear _)

theorem Quietly.execKill (m : Machine) (p : Slot) (i : ThIdx) (n pages : Nat) :
    Quietly m (m.execKill p i n pages) := by
  unfold Machine.execKill
  split
  · rename_i hn
    split
    · exact Quietly.setPc _
    · have h1 : Quietly m (m.setProc p ((m.proc p).execKill ⟨n, hn⟩)) := by
        refine Quietly.setProc (fun l ha => ?_)
        unfold Proc.execKill at ha
        split at ha
        · exact ha
        · by_cases hl : l = ⟨n, hn⟩
          · simp [hl, Thread.Active] at ha
          · simpa [hl] using ha
      exact (h1.trans (Quietly.setKth (fun hrs => by cases hrs))).trans (Quietly.setPc _)
  · exact Quietly.setPc _

/-- The thread that executes `exec` has not called `thread_exit`. -/
theorem Gone.execCommit (h : Gone m) (hr : (m.cpu c).mode = .running p i) (img pages : Nat) :
    Quietly m ((m.setProc p ((m.proc p).execCommit img pages)).setPc p i .user) := by
  have hth := (h.wake.on c p i (.inr hr)).2
  have h1 : Quietly m (m.setProc p ((m.proc p).execCommit img pages)) := by
    refine ⟨fun q j hrs => ⟨hrs, fun ha => ?_⟩, fun _ _ _ hd => hd⟩
    by_cases hq : q = p
    · subst hq
      by_cases hj : j = i
      · subst hj
        exact absurd (.inr hr) ((h.gone q j hrs).2 c)
      · rw [← hth] at hj
        simpa [Machine.setProc, Proc.execCommit, hj] using ha
    · simpa [Machine.setProc, hq] using ha
  exact h1.trans (Quietly.setPc _)

theorem HeldInv.fsCall (h : HeldInv m) (hr : (m.cpu c).mode = .running p i)
    (hs : FsStep m c p i esp m') : HeldInv m' := by
  have hw := h.wake.fsCall hr hs
  cases hs with
  | @wait k n hl hpc hrs =>
    have h1 : HeldInv (m.setKth p i k) :=
      h.quiet (h.wake.setKth (.inl hpc) (fun _ => hrs)) (Quietly.setKth (hrs ▸ id)) rfl rfl
    obtain ⟨h2, h3⟩ := h1.acquire c
    exact HeldInv.sleep h2 hr h3 (by simp) hw
  | @go k l s hpc hrs =>
    have hq : Quietly m (m.setKth p i k) := Quietly.setKth (hrs ▸ id)
    exact h.quiet hw ⟨hq.gone, hq.at'⟩ rfl rfl
  | @wake k l s n hl hpc hrs =>
    have hq : Quietly m (m.setKth p i k) := Quietly.setKth (hrs ▸ id)
    have hq' : Quietly m { m.setKth p i k with log := l, sleeplock := s } := ⟨hq.gone, hq.at'⟩
    exact h.quiet hw (hq'.trans (Quietly.of_like (LikeAll.wakeup1 _ _) rfl rfl)) rfl rfl

theorem HeldInv.call (h : HeldInv m) (hr : (m.cpu c).mode = .running p i) {k : Call}
    (hf : Supplied m p i k) (hs : CallStep m c p i esp k m') : HeldInv m' := by
  have hw := h.wake.call hr hs
  have hth := (h.wake.on c p i (.inr hr)).2
  cases hs with
  | yield hl =>
    refine ⟨h.toGone.quiet hw ?_, fun d hd => ?_⟩
    · refine Quietly.trans ?_ (Quietly.sched _ c p i esp)
      have hq : Quietly m ((m.setProc p (m.proc p).yield).setKth p i
          { m.kth p i with resume := .yield }) := by
        refine Quietly.start (by simp) (fun l hl' ha => ?_)
        have hne : l ≠ (m.proc p).thidx := hth ▸ hl'
        simpa [Proc.yield, hne] using ha
      exact ⟨hq.gone, hq.at'⟩
    · exact Machine.sched_busy _ c p i esp d (fun hdc => absurd (Option.some.inj hd).symm hdc)
  | sleep => exact HeldInv.sleep (h.acquire c).1 hr (h.acquire c).2 (by simp) hw
  | kill hl =>
    obtain ⟨h1, h2, h3⟩ := m.kill_frame _
    exact h.quiet hw (Quietly.of_like (LikeAll.kill m _) h3 h2) h1 h2
  | fork =>
    obtain ⟨h1, h2⟩ := m.allocproc_frame p i
    exact h.quiet hw (Quietly.allocproc m p i) h1 h2
  | @forkKalloc page np th =>
    refine h.quiet hw (Quietly.fork m p i np th page true).1 ?_ ?_ <;> cases page <;> rfl
  | @forkCopy ok np =>
    refine h.quiet hw (Quietly.fork m p i np none none ok).2 ?_ ?_ <;> cases ok <;> rfl
  | @forkFields np => exact h.quiet hw (Quietly.forkFields m p i np) rfl rfl
  | @forkFinish np => exact h.quiet hw (Quietly.forkFinish m p i np) rfl rfl
  | @undoAlloc np th =>
    refine h.quiet hw (Quietly.undo m p i np th).1 ?_ ?_ <;> cases th <;> rfl
  | @undoFork np => exact h.quiet hw (Quietly.undo m p i np none).2 rfl rfl
  | exec => exact h.quiet hw (Quietly.setPc _) rfl rfl
  | @execKill n pages =>
    obtain ⟨h1, h2⟩ := m.execKill_frame p i n pages
    exact h.quiet hw (Quietly.execKill m p i n pages) h1 h2
  | execCommit => exact h.quiet hw (h.toGone.execCommit hr _ _) rfl rfl
  | execFail => exact h.quiet hw (Quietly.setPc _) rfl rfl
  | exit => exact h.quiet hw (Quietly.setPc _) rfl rfl
  | exitEnd _ hpc => exact h.exitEnd hr hpc
  | wait => exact HeldInv.waitLoop (h.acquire c).1 hr (h.acquire c).2
  | threadCreate => exact h.threadCreate hf
  | threadExit => exact h.threadExit hr hf
  | @threadJoin tid =>
    unfold Machine.threadJoin
    split
    · exact h
    · exact HeldInv.joinLoop (h.acquire c).1 hr (h.acquire c).2 _ _
  | fsEnter => exact h.quiet hw (Quietly.setPc _) rfl rfl
  | fsReturn => exact h.quiet hw (Quietly.setPc _) rfl rfl
  | fs _ hf' => exact h.fsCall hr (Machine.fsCall_step hf')

end Calls

/-! ## The scheduler -/

section Scheduler

variable {m m' : Machine} {c : Nat} {p : Slot} {i : ThIdx} {esp : Nat}

/-- A thread that has called `thread_exit` is not chosen: it is not `RUNNABLE`. -/
theorem HeldInv.dispatch (h : HeldInv m) {n : Nat} (hp : m.pick n = some p) :
    HeldInv (m.dispatch c p) := by
  have hrun : ((m.proc p).thread (m.proc p).thidxtorun).Active :=
    .inl (Proc.thidxtorun_runnable (Machine.pick_spec hp).2)
  refine ⟨⟨h.wake.dispatch hp, fun q j hrs => ?_⟩, fun d hd => ?_⟩
  · obtain ⟨h1, h2⟩ := h.gone q j hrs
    refine ⟨fun ha => h1 ((LikeAll.dispatch hp c q j).active.mp ha), fun d hd => ?_⟩
    by_cases hdc : d = c
    · simp only [Machine.dispatch, Machine.setCpu, hdc, if_true, Mode.at, Mode.switched.injEq,
        reduceCtorEq, or_false] at hd
      obtain ⟨rfl, rfl⟩ := hd
      exact h1 hrun
    · refine h2 d ?_
      simpa [Machine.dispatch, Machine.setCpu, Machine.setProc, hdc] using hd
  · by_cases hdc : d = c
    · simp [Machine.dispatch, Machine.setCpu, hdc, Mode.busy]
    · simpa [Machine.dispatch, Machine.setCpu, Machine.setProc, hdc] using h.held d hd

theorem HeldInv.schedule (h : HeldInv m) (hs : m.schedule c = some m') : HeldInv m' := by
  have hw := h.wake.schedule hs
  have hat : ∀ k : Mode, (∀ q j, ¬ k.at q j) → ∀ d q j,
      ((m.setCpu c { mode := k }).cpu d).mode.at q j → (m.cpu d).mode.at q j := by
    intro k hk d q j hd
    simp only [Machine.setCpu] at hd
    split at hd
    · exact absurd hd (hk q j)
    · exact hd
  unfold Machine.schedule at hs
  split at hs
  · split_ifs at hs
    cases hs
    refine ⟨h.toGone.quiet hw ⟨fun q j hr => ⟨hr, id⟩, hat (.scan 0) (by simp [Mode.at])⟩,
      fun d hd => ?_⟩
    have hdc : d = c := (Option.some.inj hd).symm
    simp [Machine.setCpu, hdc, Mode.busy]
  · split at hs <;> cases hs
    · rename_i p hp
      exact h.dispatch hp
    · refine ⟨h.toGone.quiet hw ⟨fun q j hr => ⟨hr, id⟩, hat .idle (by simp [Mode.at])⟩,
        fun d hd => ?_⟩
      cases hd
  · cases hs

theorem Quietly.enter (hk : (m.cpu c).mode = .switched p i) : Quietly m (m.enter c p i) := by
  have hkth : Quietly (m.setCpu c { m.cpu c with mode := .running p i }) (m.enter c p i) :=
    Quietly.setKth (fun hr => by cases hr)
  have hcpu : Quietly m (m.setCpu c { m.cpu c with mode := .running p i }) := by
    refine ⟨fun q j hr => ⟨hr, id⟩, fun d q j hd => ?_⟩
    by_cases hdc : d = c
    · subst hdc
      simp only [Machine.setCpu, if_true, Mode.at, reduceCtorEq, false_or, Mode.running.injEq] at hd
      obtain ⟨rfl, rfl⟩ := hd
      exact .inl hk
    · simpa [Machine.setCpu, hdc] using hd
  exact hcpu.trans hkth

/-- The lock passes from the scheduler to the thread it has switched to, which gives
it back. -/
theorem HeldInv.resume (h : HeldInv m) (hs : m.resume c esp = some m') : HeldInv m' := by
  unfold Machine.resume at hs
  split at hs
  · rename_i p i hk
    have h1 : Gone (m.enter c p i) := h.toGone.quiet (h.wake.enter hk) (Quietly.enter hk)
    have hr : ((m.enter c p i).cpu c).mode = .running p i := by
      simp [Machine.enter, Machine.setCpu, Machine.setKth]
    have h2 : Gone ((m.enter c p i).schedTail p) :=
      h1.quiet (h1.wake.schedTail hr) (Quietly.of_like (LikeAll.schedTail _ p) rfl rfl)
    have h3 : Gone ((m.enter c p i).awake p i) :=
      h1.quiet (h1.wake.awake' hr) (Quietly.of_like (LikeAll.awake _ p i) rfl rfl)
    have hl : HeldFor c ((m.enter c p i).awake p i) := by
      intro d hd
      by_cases hdc : d = c
      · exact .inl hdc
      · have hb := h.held d hd
        refine .inr ?_
        simpa [Machine.awake, Machine.schedTail, Machine.setThread, Machine.setProc, Machine.enter,
          Machine.setCpu, Machine.setKth, hdc] using hb
    split at hs
    · cases hs
    · cases hs; exact h1.release
    · cases hs; exact h2.release
    · cases hs; exact h3.release
    · cases hs; exact HeldInv.waitLoop h3 hr hl
    · cases hs; exact HeldInv.joinLoop h3 hr hl _ _
    · -- not reached: the thread was `RUNNABLE` when it was chosen
      rename_i hrs
      exact absurd (.inl hk) ((h.gone p i hrs).2 c)
  · cases hs

theorem HeldInv.step (h : HeldInv m) {a : LockAct} (hf : Supplies m a) (hs : lockStep m a = some m') :
    HeldInv m' := by
  cases a with
  | act a =>
    cases a with
    | schedule c => exact h.schedule hs
    | resume c esp => exact h.resume hs
    | wakeup n =>
      simp only [lockStep, Lwp.step] at hs
      split_ifs at hs
      cases hs
      exact h.quiet (h.wake.wakeup1 _) (Quietly.of_like (LikeAll.wakeup1 m _) rfl rfl) rfl rfl
    | call c esp k =>
      simp only [lockStep, Lwp.step] at hs
      split at hs
      · rename_i p i hr
        exact h.call hr (hf.of_running hr) (Machine.call_step hs)
      · cases hs
  | getProc c pid =>
    have hg := (h.acquire c).1.release
    simp only [lockStep] at hs
    split at hs
    · split_ifs at hs
      split at hs <;> (cases hs; exact hg)
    · cases hs
  | setLimit c q limit =>
    simp only [lockStep] at hs
    split at hs
    · split_ifs at hs <;> cases hs
      · exact h
      · have hk : (m.proc q).Keeps { m.proc q with limit := limit.toNat } :=
          ⟨rfl, rfl, rfl, fun _ hj => ⟨hj, rfl⟩, fun _ hj => hj⟩
        exact h.quiet (h.wake.setProc hk) (Quietly.setProc (fun _ ha => ha)) rfl rfl
    · cases hs

theorem HeldInv.boot (page : Nat) : HeldInv (boot page) := by
  refine ⟨⟨Wake.boot page, fun p i hr => ?_⟩, fun c hc => by cases hc⟩
  simp only [Lwp.boot] at hr
  split at hr <;> cases hr

end Scheduler

/-! ## Whole runs -/

/-- In every run in which `thread_create` gets what it needs and `thread_exit` is not
called by the only live thread, no CPU executes a thread with the lock held. -/
theorem lock_balanced (page : Nat) (as : List LockAct) (m : Machine)
    (hf : Lib.Meets lockStep Supplies (boot page) as)
    (hr : Lib.run lockStep (boot page) as = some m) : Balanced m :=
  (Lib.run_inv (fun _ _ _ h hf hs => HeldInv.step h hf hs) as _ m (HeldInv.boot page) hf hr).balanced

/-- A run of the kernel is a run of the extended machine. -/
theorem run_lockStep : ∀ (as : List Act) (m : Machine),
    Lib.run lockStep m (as.map .act) = Lib.run step m as := by
  intro as
  induction as with
  | nil => intro m; rfl
  | cons a as ih =>
    intro m
    simp only [List.map_cons, Lib.run, lockStep]
    congr 1
    funext m'
    exact ih m'

theorem meets_lockStep : ∀ (as : List Act) (m : Machine),
    Lib.Meets step (OnCall Supplied) m as → Lib.Meets lockStep Supplies m (as.map .act) := by
  intro as
  induction as with
  | nil => intro m _; trivial
  | cons a as ih =>
    intro m h
    exact ⟨h.1, fun m' hs => ih m' (h.2 m' hs)⟩

/-- `init` creates a thread, the thread exits, and `init` joins it. -/
def createAndExit : List Act :=
  [.call 0 0 (.threadCreate (some 8192) true true), .call 0 50 (.threadJoin 2),
   .schedule 0, .schedule 0, .schedule 0, .resume 0 0,
   .call 0 60 (.threadExit 7), .schedule 0, .schedule 0, .schedule 0, .resume 0 0]

theorem lock_balanced_createAndExit : ∃ m,
    Lib.run lockStep (boot 4096) ((startInit ++ createAndExit).map .act) = some m ∧
      (m.cpu 0).mode = .running 0 0 ∧ Balanced m := by
  have hrun : (Lib.run step (initReady 4096) createAndExit).any (fun m =>
      (m.cpu 0).mode = .running 0 0) := by
    decide +kernel
  obtain ⟨m, hr, hm⟩ := (Option.any_eq_true _ _).mp hrun
  rw [← run_init, ← run_lockStep] at hr
  exact ⟨m, hr, by simpa using hm, lock_balanced 4096 _ m
    (meets_lockStep _ _ (meets_init (by decide +kernel) (by decide +kernel))) hr⟩

/-- A `thread_create` without memory for a kernel stack. -/
def createFails : List Act := [.call 0 0 (.threadCreate none true true)]

/-- It returns with the lock held. -/
theorem thread_create_keeps_lock : ∃ m,
    Lib.run lockStep (boot 4096) ((startInit ++ createFails).map .act) = some m ∧ ¬ Balanced m := by
  have hrun : (Lib.run step (initReady 4096) createFails).any
      (fun m => (m.cpu 0).mode = .running 0 0 ∧ m.lock = some 0) := by
    decide +kernel
  obtain ⟨m, hr, hm⟩ := (Option.any_eq_true _ _).mp hrun
  rw [← run_init, ← run_lockStep] at hr
  simp only [decide_eq_true_eq] at hm
  exact ⟨m, hr, fun h => h 0 0 0 hm.1 hm.2⟩

end Xv6.Lwp
