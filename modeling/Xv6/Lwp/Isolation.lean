import Xv6.Lwp.Threads
import Xv6.Lwp.TwoLevel

/- What a thread resumes with. `kstack`, `tf`, `context` and `chan` stand in the process
   and in each of its threads, and `copythproc` and `copyprocth` move them around every
   `swtch`. `Traced` is the machine with what is needed to say that nothing gets lost on
   the way: the stack each CPU switches to on a trap (`ts.esp0`), and for every thread
   slot the values its thread was given or had when it was last switched out, and the
   channel of its last `sleep`. A system call writes `tf` of the process alone (`trap`).

   `Kept` is about one process: its threads that are off the CPU hold what was saved for
   them, and the process holds what its current thread holds. -/
namespace Xv6.Lwp

/-- The fields that `swtch` and the way back to user mode need. -/
structure Saved where
  kstack : Nat
  tf : Nat
  context : Nat
  deriving DecidableEq, Repr

def Thread.saved (th : Thread) : Saved := ⟨th.kstack, th.tf, th.context⟩

def Proc.placed (x : Proc) : Saved := ⟨x.kstack, x.tf, x.context⟩

/-- What `thread_create` and `fork` give to a thread with the kernel stack `a`. -/
def newStack (a : Nat) : Saved := ⟨a, Proc.tfOf a, Proc.contextOf a⟩

/-- `esp0 c` is `ts.esp0` of CPU `c`. -/
structure Traced where
  m : Machine
  esp0 : Nat → Nat
  saved : Slot → ThIdx → Saved
  slept : Slot → ThIdx → Option Chan

inductive TraceAct where
  | act (a : Act)
  | trap (c : Nat)
  deriving DecidableEq, Repr

/-- The thread slot for which a step sets up a kernel stack, and the stack. `fork`
sets it up in the process; the thread gets it from there. -/
def Machine.created (m : Machine) : Act → Option (Slot × ThIdx × Nat)
  | .call c _ (.threadCreate (some a) _ _) =>
    match (m.cpu c).mode with
    | .running p _ => ((m.proc p).allocth m.nexttid).map (fun r => (p, r.1, a))
    | _ => none
  | .call c _ (.forkKalloc (some a)) =>
    match (m.cpu c).mode with
    | .running p i =>
      match (m.kth p i).pc with
      | .forkKalloc np _ => some (np, (m.proc np).thidx, a)
      | _ => none
    | _ => none
  | _ => none

/-- The thread that a step from `m` to `m'` switches out, and its stack pointer. -/
def Machine.left (m m' : Machine) : Act → Option (Slot × ThIdx × Nat)
  | .call c esp _ | .resume c esp =>
    match (m.cpu c).mode, (m'.cpu c).mode with
    | .switched p i, .scan _ | .running p i, .scan _ => some (p, i, esp)
    | _, _ => none
  | _ => none

/-- The channel a thread sleeps on if it sleeps in this step. -/
def Machine.sleepsOn (m : Machine) (p : Slot) (i : ThIdx) : Act → Option Chan
  | .call _ _ (.sleep n) => some (.obj n)
  | .call _ _ .wait => some (.proc p)
  | .call _ _ (.threadJoin tid) =>
    ((List.finRange NTHREAD).find? (fun j =>
      ((m.proc p).thread j).tid = tid ∧ ((m.proc p).thread j).state ≠ .UNUSED)).map (.thread p)
  | .call _ _ (.fs .beginOp) => some logChan
  | .call _ _ (.fs (.acquiresleep l)) => some (lockChan l)
  | .resume _ _ =>
    match (m.kth p i).resume with
    | .wait => some (.proc p)
    | .join j _ => some (.thread p j)
    | _ => none
  | _ => none

/-- The CPU whose `ts.esp0` a step sets: `switchuvm` in the scheduler, in `exec` and in
a `thread_create` that succeeds. -/
def Machine.switchuvm (m' : Machine) : Act → Option Nat
  | .schedule c => some c
  | .call c _ (.execCommit _) => some c
  | .call c _ (.threadCreate _ _ _) => if m'.lock = none then some c else none
  | _ => none

namespace Traced

def setSaved (t : Traced) (p : Slot) (i : ThIdx) (s : Saved) : Traced :=
  { t with saved := fun q j => if q = p ∧ j = i then s else t.saved q j }

def setSlept (t : Traced) (p : Slot) (i : ThIdx) (ch : Option Chan) : Traced :=
  { t with slept := fun q j => if q = p ∧ j = i then ch else t.slept q j }

@[simp] theorem setSaved_m (t : Traced) (p : Slot) (i : ThIdx) (s : Saved) :
    (t.setSaved p i s).m = t.m := rfl

@[simp] theorem setSaved_slept (t : Traced) (p : Slot) (i : ThIdx) (s : Saved) :
    (t.setSaved p i s).slept = t.slept := rfl

/-- `switchuvm` on CPU `c`, for the process it runs. -/
def setEsp0 (t : Traced) (c : Nat) : Traced :=
  match (t.m.cpu c).proc with
  | some p => { t with esp0 := fun d => if d = c then (t.m.proc p).kstack + KSTACKSIZE else t.esp0 d }
  | none => t

def noteCreated (t : Traced) : Option (Slot × ThIdx × Nat) → Traced
  | some (p, i, a) => t.setSaved p i (newStack a)
  | none => t

/-- The thread that leaves the CPU had the `kstack` and `tf` of its process `x`. -/
def noteLeft (t : Traced) (m : Machine) (a : Act) : Option (Slot × ThIdx × Nat) → Traced
  | some (p, i, esp) =>
    (t.setSaved p i ⟨(m.proc p).kstack, (m.proc p).tf, esp⟩).setSlept p i (m.sleepsOn p i a)
  | none => t

def noteSwitch (t : Traced) : Option Nat → Traced
  | some c => t.setEsp0 c
  | none => t

/-- What a step of the machine to `m'` leaves in the record. -/
def note (t : Traced) (a : Act) (m' : Machine) : Traced :=
  ((({ t with m := m' }.noteCreated (t.m.created a)).noteLeft t.m a (t.m.left m' a)).noteSwitch
    (m'.switchuvm a))

end Traced

/-- `trap`: a system call of the thread on CPU `c` pushes the trap frame on the stack of
that CPU. -/
def traceStep (t : Traced) : TraceAct → Option Traced
  | .act a => (step t.m a).map (t.note a)
  | .trap c =>
    match (t.m.cpu c).mode with
    | .running p i =>
      if (t.m.kth p i).pc = .user then
        some { t with m := t.m.setProc p { t.m.proc p with tf := t.esp0 c - 76 } }
      else none
    | _ => none

/-- The machine after `userinit`. -/
def traceBoot (page : Nat) : Traced :=
  { m := boot page, esp0 := fun _ => 0, saved := fun _ _ => newStack page, slept := fun _ _ => none }

/-- No `fork` takes a slot that a failed `fork` is still giving back. -/
def FreeFork (t : Traced) : TraceAct → Prop
  | .act a => OnCall FreeSlot t.m a
  | .trap _ => True

instance FreeFork.decidable (t : Traced) (a : TraceAct) : Decidable (FreeFork t a) :=
  match a with
  | .act a => inferInstanceAs (Decidable (OnCall FreeSlot t.m a))
  | .trap _ => .isTrue trivial

/-! ## One process -/

/-- A thread that waits for the CPU or for a wakeup. -/
def Thread.Off (th : Thread) : Prop := th.state = .RUNNABLE ∨ th.state = .SLEEPING

structure Kept (x : Proc) (g : ThIdx → Saved) (h : ThIdx → Option Chan) : Prop where
  off : ∀ j, (x.thread j).Off → (x.thread j).saved = g j
  frame : ∀ j, (x.thread j).Off ∨ (x.thread j).state = .RUNNING →
    (x.thread j).tf = Proc.tfOf (x.thread j).kstack
  chan : ∀ j, (x.thread j).state = .SLEEPING → (x.thread j).chan = h j
  on : x.state = .RUNNING → x.kstack = (x.thread x.thidx).kstack ∧ x.tf = (x.thread x.thidx).tf

section Kept

variable {x y : Proc} {g g' : ThIdx → Saved} {h h' : ThIdx → Option Chan} {i : ThIdx}

theorem Thread.Off.not_idle {th : Thread} (ho : th.Off) : ¬ th.Idle := by
  rcases ho with ho | ho <;> simp [Thread.Idle, ho]

/-- A process without a thread that has run. -/
theorem Kept.of_idle (hs : x.state ≠ .RUNNING) (hi : ∀ j, (x.thread j).Idle) : Kept x g h := by
  refine ⟨fun j ho => absurd (hi j) ho.not_idle, fun j ho => ?_, fun j hj => ?_,
    fun hr => absurd hr hs⟩
  · rcases ho with ho | ho
    · exact absurd (hi j) ho.not_idle
    · have := hi j
      simp [Thread.Idle, ho] at this
  · have := hi j
    simp [Thread.Idle, hj] at this

/-- A thread record with the same registers, which has not gone to sleep or to the CPU. -/
structure Thread.Rests (a b : Thread) : Prop where
  off : b.Off → a.Off ∧ b.saved = a.saved
  run : b.state = .RUNNING → a.state = .RUNNING ∧ b.saved = a.saved
  chan : b.state = .SLEEPING → a.state = .SLEEPING ∧ b.chan = a.chan

theorem Thread.Rests.refl (a : Thread) : a.Rests a :=
  ⟨fun ho => ⟨ho, rfl⟩, fun hr => ⟨hr, rfl⟩, fun hs => ⟨hs, rfl⟩⟩

theorem Thread.rests_idle {a b : Thread} (hb : b.state = .UNUSED ∨ b.state = .EMBRYO ∨ b.state = .ZOMBIE) :
    a.Rests b := by
  refine ⟨fun ho => ?_, fun hr => ?_, fun hs => ?_⟩
  · rcases hb with hb | hb | hb <;> simp [Thread.Off, hb] at ho
  · rcases hb with hb | hb | hb <;> simp [hb] at hr
  · rcases hb with hb | hb | hb <;> simp [hb] at hs

/-- Threads that rest, in a process whose own copy stays what it is. -/
theorem Kept.rests (hx : Kept x g h) (hj : ∀ j, (x.thread j).Rests (y.thread j))
    (hon : y.state = .RUNNING → x.state = .RUNNING ∧ y.kstack = x.kstack ∧ y.tf = x.tf ∧
      y.thidx = x.thidx ∧ (y.thread x.thidx).saved = (x.thread x.thidx).saved) : Kept y g h := by
  refine ⟨fun j ho => ?_, fun j ho => ?_, fun j hs => ?_, fun hr => ?_⟩
  · obtain ⟨h1, h2⟩ := (hj j).off ho
    exact h2.trans (hx.off j h1)
  · have h1 : ((x.thread j).Off ∨ (x.thread j).state = .RUNNING) ∧
        (y.thread j).saved = (x.thread j).saved := by
      rcases ho with ho | ho
      · exact ⟨.inl ((hj j).off ho).1, ((hj j).off ho).2⟩
      · exact ⟨.inr ((hj j).run ho).1, ((hj j).run ho).2⟩
    have h2 := hx.frame j h1.1
    have hk : (y.thread j).kstack = (x.thread j).kstack := congrArg Saved.kstack h1.2
    have ht : (y.thread j).tf = (x.thread j).tf := congrArg Saved.tf h1.2
    rw [hk, ht]
    exact h2
  · obtain ⟨h1, h2⟩ := (hj j).chan hs
    exact h2.trans (hx.chan j h1)
  · obtain ⟨h1, h2, h3, h4, h5⟩ := hon hr
    have hk : (y.thread x.thidx).kstack = (x.thread x.thidx).kstack := congrArg Saved.kstack h5
    have ht : (y.thread x.thidx).tf = (x.thread x.thidx).tf := congrArg Saved.tf h5
    rw [h4, hk, ht, h2, h3]
    exact hx.on h1

theorem Thread.rests_wake (chan : Option Chan) (a : Thread) :
    a.Rests (Machine.wakeThread chan a) ∧ (Machine.wakeThread chan a).saved = a.saved := by
  unfold Machine.wakeThread
  split
  · rename_i hs
    exact ⟨⟨fun _ => ⟨.inr hs.1, rfl⟩, fun hr => (by cases hr), fun hs' => (by cases hs')⟩, rfl⟩
  · exact ⟨Thread.Rests.refl a, rfl⟩

theorem Kept.wake (hx : Kept x g h) (chan : Option Chan) : Kept (Machine.wakeProc chan x) g h := by
  unfold Machine.wakeProc
  split
  · refine hx.rests (fun j => (Thread.rests_wake chan _).1) (fun hr => ⟨hr, rfl, rfl, rfl, ?_⟩)
    exact (Thread.rests_wake chan _).2
  · exact hx

/-- Only one thread record changes, and it rests. -/
theorem Kept.setThread (hx : Kept x g h) (i : ThIdx) (th : Thread) (ht : (x.thread i).Rests th)
    (hon : x.state = .RUNNING → i = x.thidx → th.saved = (x.thread i).saved) :
    Kept (x.setThread i th) g h := by
  refine hx.rests (fun j => ?_) (fun hr => ⟨hr, rfl, rfl, rfl, ?_⟩)
  · by_cases hj : j = i
    · subst hj
      simpa using ht
    · simpa [hj] using Thread.Rests.refl _
  · by_cases hj : x.thidx = i
    · rw [Proc.setThread_thread, if_pos hj, hj]
      exact hon hr hj.symm
    · rw [Proc.setThread_thread, if_neg hj]

/-- The process leaves the CPU by `sched`: its current thread saves what it has. -/
theorem Kept.sched (hx : Kept x g h) (esp : Nat) (hi : y.thidx = i) (hs : y.state ≠ .RUNNING)
    (hk : (y.thread i).kstack = (x.thread i).kstack) (ht : (y.thread i).tf = (x.thread i).tf)
    (hf : (x.thread i).tf = Proc.tfOf (x.thread i).kstack)
    (hj : ∀ j, j ≠ i → (x.thread j).Rests (y.thread j)) {ch : Option Chan}
    (hch : (y.thread i).state = .SLEEPING → (y.thread i).chan = ch) :
    Kept ({ y.copythproc y.thidx with context := esp }.copyprocth i)
      (fun j => if j = i then ⟨(x.thread i).kstack, (x.thread i).tf, esp⟩ else g j)
      (fun j => if j = i then ch else h j) := by
  subst hi
  have hother : ∀ j, j ≠ y.thidx →
      ({ y.copythproc y.thidx with context := esp }.copyprocth y.thidx).thread j = y.thread j := by
    intro j hj
    simp [Proc.copyprocth, Proc.copythproc, hj]
  refine ⟨fun j ho => ?_, fun j ho => ?_, fun j hsl => ?_, fun hr => absurd hr hs⟩
  · by_cases hji : j = y.thidx
    · subst hji
      simp [Proc.copyprocth, Proc.copythproc, Thread.saved, hk, ht]
    · rw [hother j hji] at ho ⊢
      obtain ⟨h1, h2⟩ := (hj j hji).off ho
      rw [if_neg hji, h2]
      exact hx.off j h1
  · by_cases hji : j = y.thidx
    · subst hji
      simp [Proc.copyprocth, Proc.copythproc, hk, ht, hf]
    · rw [hother j hji] at ho ⊢
      have h1 : ((x.thread j).Off ∨ (x.thread j).state = .RUNNING) ∧
          (y.thread j).saved = (x.thread j).saved := by
        rcases ho with ho | ho
        · exact ⟨.inl ((hj j hji).off ho).1, ((hj j hji).off ho).2⟩
        · exact ⟨.inr ((hj j hji).run ho).1, ((hj j hji).run ho).2⟩
      have hk' : (y.thread j).kstack = (x.thread j).kstack := congrArg Saved.kstack h1.2
      have ht' : (y.thread j).tf = (x.thread j).tf := congrArg Saved.tf h1.2
      rw [hk', ht']
      exact hx.frame j h1.1
  · by_cases hji : j = y.thidx
    · subst hji
      simp only [Proc.copyprocth, Proc.copythproc, Proc.setThread_thread, if_true] at hsl ⊢
      exact hch hsl
    · rw [hother j hji] at hsl ⊢
      obtain ⟨h1, h2⟩ := (hj j hji).chan hsl
      rw [if_neg hji, h2]
      exact hx.chan j h1

end Kept

/-! ## The invariant -/

/-- The child a thread builds whose process has its kernel stack already. -/
def Pc.built : Pc → Option Slot
  | .forkCopy np | .forkFields np | .forkFinish np => some np
  | _ => none

theorem Pc.built_claim {pc : Pc} {np : Slot} (h : pc.built = some np) :
    pc.claim = some (np, .EMBRYO) := by
  cases pc <;> simp_all [Pc.built, Pc.claim]

structure Iso (t : Traced) : Prop where
  inv : Inv t.m
  kept : ∀ p, Kept (t.m.proc p) (t.saved p) (t.slept p)
  esp : ∀ c p i, (t.m.cpu c).mode.at p i → t.esp0 c = (t.m.proc p).kstack + KSTACKSIZE
  placed : ∀ c p i, (t.m.cpu c).mode = .switched p i → (t.m.proc p).placed = t.saved p i
  built : ∀ p i np, (t.m.kth p i).pc.built = some np →
    (t.m.proc np).placed = t.saved np (t.m.proc np).thidx ∧
      (t.m.proc np).tf = Proc.tfOf (t.m.proc np).kstack

/-- The process keeps its own copies. -/
structure Proc.Still (x y : Proc) : Prop where
  placed : y.placed = x.placed
  thidx : y.thidx = x.thidx

theorem Proc.Still.refl (x : Proc) : x.Still x := ⟨rfl, rfl⟩

theorem Proc.Still.trans {x y z : Proc} (h : x.Still y) (h' : y.Still z) : x.Still z :=
  ⟨h'.placed.trans h.placed, h'.thidx.trans h.thidx⟩

theorem Proc.Still.kstack {x y : Proc} (h : x.Still y) : y.kstack = x.kstack :=
  congrArg Saved.kstack h.placed

theorem Proc.Still.tf {x y : Proc} (h : x.Still y) : y.tf = x.tf := congrArg Saved.tf h.placed

theorem Proc.still_wake (chan : Option Chan) (x : Proc) : x.Still (Machine.wakeProc chan x) := by
  unfold Machine.wakeProc
  split
  · exact ⟨rfl, rfl⟩
  · exact Proc.Still.refl x

section Rules

variable {t : Traced} {m' u : Machine} {c esp : Nat} {p np : Slot} {i : ThIdx}

/-- A step that leaves every thread on its CPU. -/
theorem Iso.stay (h : Iso t) (hi : Inv m') (hc : m'.cpu = t.m.cpu)
    (hk : ∀ q, Kept (m'.proc q) (t.saved q) (t.slept q))
    (hp : ∀ q, (t.m.proc q).Still (m'.proc q) ∨
      (t.m.proc q).state ≠ .RUNNING ∧ ∀ p i, (m'.kth p i).pc.built ≠ some q)
    (hb : ∀ q j r, (m'.kth q j).pc.built = some r → (t.m.kth q j).pc.built = some r) :
    Iso { t with m := m' } := by
  have hrun : ∀ d q j, (t.m.cpu d).mode.at q j → (t.m.proc q).Still (m'.proc q) := by
    intro d q j hd
    rcases hp q with hq | ⟨hq, -⟩
    · exact hq
    · exact absurd (h.inv.on d q j hd).2.1 hq
  refine ⟨hi, hk, fun d q j hd => ?_, fun d q j hd => ?_, fun q j r hr => ?_⟩
  · have hd' : (t.m.cpu d).mode.at q j := hc ▸ hd
    show t.esp0 d = (m'.proc q).kstack + KSTACKSIZE
    rw [(hrun d q j hd').kstack]
    exact h.esp d q j hd'
  · have hd' : (t.m.cpu d).mode = .switched q j := hc ▸ hd
    show (m'.proc q).placed = t.saved q j
    rw [(hrun d q j (.inl hd')).placed]
    exact h.placed d q j hd'
  · obtain ⟨h1, h2⟩ := h.built q j r (hb q j r hr)
    rcases hp r with hq | ⟨-, hq⟩
    · show (m'.proc r).placed = t.saved r (m'.proc r).thidx ∧
        (m'.proc r).tf = Proc.tfOf (m'.proc r).kstack
      rw [hq.placed, hq.thidx, hq.tf, hq.kstack]
      exact ⟨h1, h2⟩
    · exact absurd hr (hq q j)

/-- The record when thread `(p, i)` leaves its CPU. -/
def Traced.leaves (t : Traced) (p : Slot) (i : ThIdx) (esp : Nat) (ch : Option Chan)
    (m' : Machine) : Traced :=
  ({ t with m := m' }.setSaved p i ⟨(t.m.proc p).kstack, (t.m.proc p).tf, esp⟩).setSlept p i ch

/-- The thread `(p, i)` leaves its CPU by `sched`. -/
theorem Iso.leave (h : Iso t) (hr : (t.m.cpu c).mode = .running p i) (hi : Inv (u.sched c p i esp))
    (hc : u.cpu = t.m.cpu) (ht : (u.proc p).thidx = i) (hs : (u.proc p).state ≠ .RUNNING)
    (hth : ((u.proc p).thread i).kstack = ((t.m.proc p).thread i).kstack ∧
      ((u.proc p).thread i).tf = ((t.m.proc p).thread i).tf)
    (hj : ∀ j, j ≠ i → ((t.m.proc p).thread j).Rests ((u.proc p).thread j))
    (hq : ∀ q, q ≠ p → Kept (u.proc q) (t.saved q) (t.slept q) ∧ (t.m.proc q).Still (u.proc q))
    (hb : ∀ q j r, (u.kth q j).pc.built = some r → (t.m.kth q j).pc.built = some r)
    {ch : Option Chan} (hch : ((u.proc p).thread i).state = .SLEEPING →
      ((u.proc p).thread i).chan = ch) :
    Iso (t.leaves p i esp ch (u.sched c p i esp)) := by
  have hon := h.inv.on c p i (.inr hr)
  have hself := (h.kept p).on hon.2.1
  rw [hon.2.2] at hself
  have hrun := ((h.inv.ok p).running hon.2.1 i).mpr hon.2.2.symm
  have hother : ∀ q, q ≠ p → (u.sched c p i esp).proc q = u.proc q := by
    intro q hqp
    simp [Machine.sched, Machine.setCpu, Machine.setProc, hqp]
  have hcpu : ∀ d q j, ((u.sched c p i esp).cpu d).mode.at q j →
      (t.m.cpu d).mode.at q j ∧ (u.sched c p i esp).cpu d = t.m.cpu d ∧ q ≠ p := by
    intro d q j hd
    by_cases hdc : d = c
    · subst hdc
      simp [Machine.sched, Machine.setCpu, Mode.at] at hd
    · have he : (u.sched c p i esp).cpu d = t.m.cpu d := by
        simp [Machine.sched, Machine.setCpu, Machine.setProc, hdc, hc]
      rw [he] at hd
      refine ⟨hd, he, ?_⟩
      rintro rfl
      exact hdc (h.inv.one d c q (h.inv.on d q j hd).1 hon.1)
  refine ⟨hi, fun q => ?_, fun d q j hd => ?_, fun d q j hd => ?_, fun q j r hqr => ?_⟩
  · by_cases hqp : q = p
    · subst hqp
      have hk := (h.kept q).sched esp ht hs hth.1 hth.2 ((h.kept q).frame i (.inr hrun)) hj hch
      have hp : (u.sched c q i esp).proc q =
          { (u.proc q).copythproc (u.proc q).thidx with context := esp }.copyprocth i := by
        simp [Machine.sched, Machine.setCpu, Machine.setProc]
      show Kept ((u.sched c q i esp).proc q) _ _
      rw [hp]
      simpa [Traced.leaves, Traced.setSaved, Traced.setSlept, hself.1, hself.2] using hk
    · show Kept ((u.sched c p i esp).proc q) _ _
      rw [hother q hqp]
      simpa [Traced.leaves, Traced.setSaved, Traced.setSlept, hqp] using (hq q hqp).1
  · obtain ⟨hd', -, hqp⟩ := hcpu d q j hd
    show t.esp0 d = ((u.sched c p i esp).proc q).kstack + KSTACKSIZE
    rw [hother q hqp, (hq q hqp).2.kstack]
    exact h.esp d q j hd'
  · obtain ⟨hd', he, hqp⟩ := hcpu d q j (.inl hd)
    have hd'' : (t.m.cpu d).mode = .switched q j := he ▸ hd
    show ((u.sched c p i esp).proc q).placed = if q = p ∧ j = i then _ else t.saved q j
    rw [hother q hqp, (hq q hqp).2.placed, if_neg (fun hh => hqp hh.1)]
    exact h.placed d q j hd''
  · have hqr' := hb q j r hqr
    have hst := h.inv.claim q j r _ (Pc.built_claim hqr')
    have hrp : r ≠ p := by
      rintro rfl
      rw [hon.2.1] at hst
      cases hst
    obtain ⟨h1, h2⟩ := h.built q j r hqr'
    show ((u.sched c p i esp).proc r).placed =
        (if r = p ∧ ((u.sched c p i esp).proc r).thidx = i then _
          else t.saved r ((u.sched c p i esp).proc r).thidx) ∧
      ((u.sched c p i esp).proc r).tf = Proc.tfOf ((u.sched c p i esp).proc r).kstack
    have hr' := (hq r hrp).2
    rw [hother r hrp, if_neg (fun hh => hrp hh.1), hr'.placed, hr'.thidx, hr'.tf, hr'.kstack]
    exact ⟨h1, h2⟩

/-- What the code of thread `(p, i)` leaves behind: the thread is still on its CPU, or it
has left it and sleeps on `ch`, if it sleeps. -/
def Traced.After (t : Traced) (c : Nat) (p : Slot) (i : ThIdx) (esp : Nat) (ch : Option Chan)
    (m' : Machine) : Prop :=
  m'.cpu = t.m.cpu ∧ Iso { t with m := m' } ∨
    (∃ n, (m'.cpu c).mode = .scan n) ∧ Iso (t.leaves p i esp ch m')

theorem Machine.sched_mode (u : Machine) (c : Nat) (p : Slot) (i : ThIdx) (esp : Nat) :
    ∃ n, ((u.sched c p i esp).cpu c).mode = .scan n :=
  ⟨p + 1, by simp [Machine.sched, Machine.setCpu]⟩

/-- A step that changes one process. -/
theorem Iso.stayProc (h : Iso t) (hi : Inv m') (hc : m'.cpu = t.m.cpu) (np : Slot)
    (hq : ∀ q, q ≠ np → m'.proc q = t.m.proc q)
    (hk : Kept (m'.proc np) (t.saved np) (t.slept np))
    (hp : (t.m.proc np).Still (m'.proc np) ∨
      (t.m.proc np).state ≠ .RUNNING ∧ ∀ p i, (m'.kth p i).pc.built ≠ some np)
    (hb : ∀ q j r, (m'.kth q j).pc.built = some r → (t.m.kth q j).pc.built = some r) :
    Iso { t with m := m' } := by
  refine h.stay hi hc (fun q => ?_) (fun q => ?_) hb
  · by_cases hqp : q = np
    · subst hqp
      exact hk
    · rw [hq q hqp]
      exact h.kept q
  · by_cases hqp : q = np
    · subst hqp
      exact hp
    · rw [hq q hqp]
      exact .inl (Proc.Still.refl _)

/-- A step that changes no process. -/
theorem Iso.stayTable (h : Iso t) (hi : Inv m') (hc : m'.cpu = t.m.cpu) (hq : m'.proc = t.m.proc)
    (hb : ∀ q j r, (m'.kth q j).pc.built = some r → (t.m.kth q j).pc.built = some r) :
    Iso { t with m := m' } := by
  refine h.stay hi hc (fun q => ?_) (fun q => ?_) hb
  · rw [hq]
    exact h.kept q
  · rw [hq]
    exact .inl (Proc.Still.refl _)

theorem Iso.setKth (h : Iso t) {k : Kth} (hk : k.pc.claim = none) (hb : k.pc.built = none) :
    Iso { t with m := t.m.setKth p i k } := by
  refine h.stayTable (h.inv.setKth (.inr hk)) rfl rfl (fun q j r hr => ?_)
  by_cases hq : q = p ∧ j = i
  · simp [Machine.setKth, hq, hb] at hr
  · simpa [Machine.setKth, hq] using hr

/-- A thread that has no child under construction any more. -/
theorem Machine.built_setPc {m : Machine} (pc : Pc) (hb : pc.built = none) {q r : Slot} {j : ThIdx}
    (hr : ((m.setPc p i pc).kth q j).pc.built = some r) : (m.kth q j).pc.built = some r := by
  by_cases hq : q = p ∧ j = i
  · simp [Machine.setPc, Machine.setKth, hq, hb] at hr
  · simpa [Machine.setPc, Machine.setKth, hq] using hr

theorem Iso.acquire (h : Iso t) (hl : t.m.lock = none) : Iso { t with m := t.m.acquire c } :=
  h.stayTable (h.inv.acquire hl) rfl rfl (fun _ _ _ hr => hr)

theorem Iso.release (h : Iso t) (hr : (t.m.cpu c).mode = .running p i)
    (hl : t.m.lock = none ∨ t.m.lock = some c) : Iso { t with m := t.m.release } :=
  h.stayTable (h.inv.release hr hl) rfl rfl (fun _ _ _ hr => hr)

theorem Iso.wakeup1 (h : Iso t) (chan : Option Chan) : Iso { t with m := t.m.wakeup1 chan } :=
  h.stay (h.inv.wakeup1 chan) rfl (fun q => (h.kept q).wake chan)
    (fun _ => .inl (Proc.still_wake chan _)) (fun _ _ _ hr => hr)

/-! ## Leaving the CPU -/

theorem Iso.yield (h : Iso t) (hr : (t.m.cpu c).mode = .running p i) (hl : t.m.lock = none) :
    Iso (t.leaves p i esp none (t.m.yield c p i esp)) := by
  have hon := h.inv.on c p i (.inr hr)
  have hp : (((t.m.acquire c).setProc p (t.m.proc p).yield).setKth p i
      { t.m.kth p i with resume := .yield }).proc p = (t.m.proc p).yield := by
    simp [Machine.setKth, Machine.setProc]
  refine h.leave hr (h.inv.yield hr hl) rfl ?_ ?_ ?_ ?_ ?_ ?_ ?_
  · rw [hp]
    exact hon.2.2
  · rw [hp]
    simp [Proc.yield]
  · rw [hp]
    simp [Proc.yield, hon.2.2]
  · intro j hj
    rw [hp]
    simpa [Proc.yield, hon.2.2, hj] using Thread.Rests.refl _
  · intro q hq
    simpa [Machine.setKth, Machine.setProc, Machine.acquire, hq] using
      ⟨h.kept q, Proc.Still.refl (t.m.proc q)⟩
  · intro q j r hq
    by_cases he : q = p ∧ j = i
    · simpa [Machine.setKth, Machine.setProc, Machine.acquire, he] using hq
    · simpa [Machine.setKth, Machine.setProc, Machine.acquire, he] using hq
  · rw [hp]
    simp [Proc.yield, hon.2.2]

theorem Iso.sleep (h : Iso t) (hr : (t.m.cpu c).mode = .running p i) (hl : t.m.lock = some c)
    (ch : Chan) (rs : Resume) :
    Iso (t.leaves p i esp (some ch) (t.m.sleep c p i ch rs esp)) := by
  have hon := h.inv.on c p i (.inr hr)
  have hp : ((t.m.setProc p ((t.m.proc p).sleep ch)).setKth p i
      { t.m.kth p i with resume := rs }).proc p = (t.m.proc p).sleep ch := by
    simp [Machine.setKth, Machine.setProc]
  refine h.leave hr (h.inv.sleep hr hl ch rs esp) rfl ?_ ?_ ?_ ?_ ?_ ?_ ?_
  · rw [hp]
    exact hon.2.2
  · rw [hp]
    simp [Proc.sleep]
  · rw [hp]
    simp [Proc.sleep, hon.2.2]
  · intro j hj
    rw [hp]
    simpa [Proc.sleep, hon.2.2, hj] using Thread.Rests.refl _
  · intro q hq
    simpa [Machine.setKth, Machine.setProc, hq] using
      ⟨h.kept q, Proc.Still.refl (t.m.proc q)⟩
  · intro q j r hq
    by_cases he : q = p ∧ j = i
    · simpa [Machine.setKth, Machine.setProc, he] using hq
    · simpa [Machine.setKth, Machine.setProc, he] using hq
  · rw [hp]
    simp [Proc.sleep, hon.2.2]

/-- `thread_exit` changes one thread of the process, and keeps the registers of that. -/
theorem Proc.threadExit_rests (x : Proc) (v : Nat) :
    ((x.threadExit v).thread x.thidx).saved = (x.thread x.thidx).saved ∧
      ((x.threadExit v).thread x.thidx).state ≠ .SLEEPING ∧
      ∀ j, j ≠ x.thidx → (x.threadExit v).thread j = x.thread j := by
  unfold Proc.threadExit
  split
  · exact ⟨by simp [Thread.saved], by simp, fun j hj => by simp [hj]⟩
  · exact ⟨by simp [Thread.saved], by simp, fun j hj => by simp [hj]⟩

theorem Iso.threadExit (h : Iso t) (hr : (t.m.cpu c).mode = .running p i) (hl : t.m.lock = none)
    (v : Nat) : Iso (t.leaves p i esp none (t.m.threadExit c p i v esp)) := by
  have hon := h.inv.on c p i (.inr hr)
  obtain ⟨h1, h2, h3⟩ := (t.m.proc p).threadExit_rests v
  have hp : ((t.m.acquire c).leaveThread p i v).proc p =
      { Machine.wakeProc (some (.thread p (t.m.proc p).thidx)) ((t.m.proc p).threadExit v) with
        state := .RUNNABLE } := by
    simp [Machine.leaveThread, Machine.setProc, Machine.setKth, Machine.wakeup1, Machine.acquire]
  have hth : ∀ j, (((t.m.acquire c).leaveThread p i v).proc p).thread j =
        ((t.m.proc p).threadExit v).thread j ∨
      (((t.m.acquire c).leaveThread p i v).proc p).thread j =
        Machine.wakeThread (some (.thread p (t.m.proc p).thidx)) (((t.m.proc p).threadExit v).thread j) := by
    intro j
    rw [hp]
    unfold Machine.wakeProc
    split
    · exact .inr rfl
    · exact .inl rfl
  have hrests : ∀ j, (((t.m.proc p).threadExit v).thread j).Rests
      ((((t.m.acquire c).leaveThread p i v).proc p).thread j) ∧
      ((((t.m.acquire c).leaveThread p i v).proc p).thread j).saved =
        (((t.m.proc p).threadExit v).thread j).saved := by
    intro j
    rcases hth j with he | he <;> rw [he]
    · exact ⟨Thread.Rests.refl _, rfl⟩
    · exact Thread.rests_wake _ _
  have hidx : (((t.m.acquire c).leaveThread p i v).proc p).thidx = i := by
    rw [hp, ← hon.2.2, ← Proc.threadExit_thidx (t.m.proc p) v]
    exact (Proc.still_wake _ _).thidx
  have hself := (hrests i).2
  rw [← hon.2.2] at hself
  have hsched : Iso (t.leaves p i esp none (((t.m.acquire c).leaveThread p i v).sched c p i esp)) := by
    have hi : Inv (t.m.threadExit c p i v esp) := h.inv.threadExit hr hl v
    have hi' : Inv (((t.m.acquire c).leaveThread p i v).sched c p i esp) :=
      hi.frame (fun _ => Proc.Same.refl _) rfl hi.held (NoClaim.refl _)
    refine h.leave hr hi' rfl hidx ?_ ?_ ?_ ?_ ?_ ?_
    · rw [hp]
      simp
    · rw [← hon.2.2]
      exact ⟨congrArg Saved.kstack (hself.trans h1), congrArg Saved.tf (hself.trans h1)⟩
    · intro j hj
      have := (hrests j).1
      rwa [h3 j (by rw [hon.2.2]; exact hj)] at this
    · intro q hq
      have hqp : ((t.m.acquire c).leaveThread p i v).proc q =
          Machine.wakeProc (some (.thread p (t.m.proc p).thidx)) (t.m.proc q) := by
        simp [Machine.leaveThread, Machine.setProc, Machine.setKth, Machine.wakeup1,
          Machine.acquire, hq]
      rw [hqp]
      exact ⟨(h.kept q).wake _, Proc.still_wake _ _⟩
    · intro q j r hq
      by_cases he : q = p ∧ j = i
      · simpa [Machine.leaveThread, Machine.setProc, Machine.setKth, Machine.wakeup1,
          Machine.acquire, he] using hq
      · simpa [Machine.leaveThread, Machine.setProc, Machine.setKth, Machine.wakeup1,
          Machine.acquire, he] using hq
    · intro hsl
      rw [← hon.2.2] at hsl
      exact absurd ((hrests _).1.chan hsl).1 h2
  exact ⟨h.inv.threadExit hr hl v, hsched.kept, hsched.esp, hsched.placed, hsched.built⟩

/-- What `exit` does for the parent and the children of a process. -/
theorem Machine.abandon_proc (m : Machine) (p : Slot) {g : ThIdx → Saved} {h : ThIdx → Option Chan}
    (q : Slot) : (Kept (m.proc q) g h → Kept ((m.abandon p).proc q) g h) ∧
      (m.proc q).Still ((m.abandon p).proc q) ∧
      ∀ j, ((m.proc q).thread j).Rests (((m.abandon p).proc q).thread j) ∧
        (((m.abandon p).proc q).thread j).saved = ((m.proc q).thread j).saved := by
  have hwake : ∀ (chan : Option Chan) (x : Proc) (j : ThIdx),
      (x.thread j).Rests ((Machine.wakeProc chan x).thread j) ∧
        ((Machine.wakeProc chan x).thread j).saved = (x.thread j).saved := by
    intro chan x j
    unfold Machine.wakeProc
    split
    · exact Thread.rests_wake chan _
    · exact ⟨Thread.Rests.refl _, rfl⟩
  have hadopt : ∀ x : Proc, Machine.adopt m.initproc p x = x ∨
      Machine.adopt m.initproc p x = { x with parent := some m.initproc } := by
    intro x
    unfold Machine.adopt
    split
    · exact .inr rfl
    · exact .inl rfl
  have h1 : ∀ x : Proc, (Kept x g h → Kept (Machine.adopt m.initproc p x) g h) ∧
      x.Still (Machine.adopt m.initproc p x) ∧ (Machine.adopt m.initproc p x).thread = x.thread := by
    intro x
    rcases hadopt x with he | he <;> rw [he]
    · exact ⟨id, Proc.Still.refl x, rfl⟩
    · exact ⟨fun hk => ⟨hk.off, hk.frame, hk.chan, hk.on⟩, ⟨rfl, rfl⟩, rfl⟩
  have h2 : ∀ x : Proc, (Machine.adopt m.initproc p x).thread = x.thread := fun x => (h1 x).2.2
  unfold Machine.abandon
  simp only
  split
  · refine ⟨fun hk => ((h1 _).1 (hk.wake _)).wake _,
      ((Proc.still_wake _ _).trans (h1 _).2.1).trans (Proc.still_wake _ _), fun j => ?_⟩
    have ha := hwake ((m.proc p).parent.map .proc) (m.proc q) j
    have hb := hwake (some (.proc m.initproc)) (Machine.adopt m.initproc p
      (Machine.wakeProc ((m.proc p).parent.map .proc) (m.proc q))) j
    rw [h2] at hb
    refine ⟨⟨fun ho => ?_, fun ho => ?_, fun ho => ?_⟩, hb.2.trans ha.2⟩
    · exact ⟨(ha.1.off (hb.1.off ho).1).1, hb.2.trans ha.2⟩
    · exact ⟨(ha.1.run (hb.1.run ho).1).1, hb.2.trans ha.2⟩
    · exact ⟨(ha.1.chan (hb.1.chan ho).1).1, (hb.1.chan ho).2.trans (ha.1.chan (hb.1.chan ho).1).2⟩
  · refine ⟨fun hk => (h1 _).1 (hk.wake _), (Proc.still_wake _ _).trans (h1 _).2.1, fun j => ?_⟩
    simp only [Machine.wakeup1, h2]
    exact hwake _ _ j

theorem Iso.exitEnd (h : Iso t) (hr : (t.m.cpu c).mode = .running p i) (hl : t.m.lock = none) :
    Iso (t.leaves p i esp none (t.m.exitEnd c p i esp)) := by
  have hon := h.inv.on c p i (.inr hr)
  have hrun := ((h.inv.ok p).running hon.2.1 i).mpr hon.2.2.symm
  have hab := fun q => (t.m.acquire c).abandon_proc p (g := t.saved q) (h := t.slept q) q
  refine h.leave hr (h.inv.exitEnd hr hl) ?_ ?_ ?_ ?_ ?_ ?_ ?_ ?_
  · exact Machine.abandon_cpu (t.m.acquire c) p
  · rw [← hon.2.2]
    simpa [Machine.setPc, Machine.setKth, Machine.setProc, Machine.acquire] using (hab p).2.1.thidx
  · simp [Machine.setPc, Machine.setKth, Machine.setProc]
  · have := ((hab p).2.2 i).2
    simp only [Machine.setPc, Machine.setKth, Machine.setProc, if_true]
    exact ⟨congrArg Saved.kstack this, congrArg Saved.tf this⟩
  · intro j _
    simpa [Machine.setPc, Machine.setKth, Machine.setProc, Machine.acquire] using ((hab p).2.2 j).1
  · intro q hq
    simpa [Machine.setPc, Machine.setKth, Machine.setProc, hq] using
      ⟨(hab q).1 (h.kept q), (hab q).2.1⟩
  · intro q j r hq
    have := Machine.built_setPc .dead rfl hq
    simpa [Machine.setProc, Machine.abandon_kth, Machine.acquire] using this
  · intro hsl
    have hsl' : ((((t.m.acquire c).abandon p).proc p).thread i).state = .SLEEPING := by
      simpa [Machine.setPc, Machine.setKth, Machine.setProc] using hsl
    have hst := (((hab p).2.2 i).1.chan hsl').1
    have hst' : ((t.m.proc p).thread i).state = .SLEEPING := hst
    rw [hrun] at hst'
    cases hst'

/-! ## Staying on the CPU -/

theorem Kept.kill {x : Proc} {g : ThIdx → Saved} {h : ThIdx → Option Chan} (hx : Kept x g h) :
    Kept x.kill g h ∧ x.Still x.kill := by
  unfold Proc.kill
  split
  · rename_i hs
    refine ⟨?_, ⟨rfl, rfl⟩⟩
    have hk := hx.setThread x.thidx { x.thread x.thidx with state := .RUNNABLE }
      ⟨fun _ => ⟨.inr hs, rfl⟩, fun hr => (by cases hr), fun hs' => (by cases hs')⟩ (fun _ _ => rfl)
    exact ⟨hk.off, hk.frame, hk.chan, hk.on⟩
  · exact ⟨⟨hx.off, hx.frame, hx.chan, hx.on⟩, ⟨rfl, rfl⟩⟩

theorem Iso.kill (h : Iso t) (pid : Int) : Iso { t with m := t.m.kill pid } := by
  have hi := h.inv.kill pid
  unfold Machine.kill at hi ⊢
  split
  · exact h
  · rename_i q hq
    rw [hq] at hi
    refine h.stayProc hi rfl q (fun r hr => by simp [Machine.setProc, hr]) ?_ (.inl ?_)
      (fun _ _ _ hb => hb)
    · simpa [Machine.setProc] using (h.kept q).kill.1
    · simpa [Machine.setProc] using (h.kept q).kill.2

/-- `allocproc` finds a slot in which no thread has run. -/
theorem Iso.allocproc (h : Iso t) (hf : t.m.Free) : Iso { t with m := t.m.allocproc p i } := by
  have hi : Inv (t.m.allocproc p i) := h.inv.allocproc hf
  have hkey : ∀ {np : Slot} {x : Proc} {pc : Pc}, (t.m.proc np).state = .UNUSED →
      (t.m.proc np).Same x → x.Still (x.embryo t.m.nextpid) → (t.m.proc np).Still x →
      pc.built = none → ∀ {m' : Machine}, Inv m' → m'.cpu = t.m.cpu →
      m'.proc = ((t.m.setProc np (x.embryo t.m.nextpid)).setPc p i pc).proc →
      m'.kth = ((t.m.setProc np (x.embryo t.m.nextpid)).setPc p i pc).kth →
      Iso { t with m := m' } := by
    intro np x pc hn hx hst hst' hpc m' hi' hc' hp' hk'
    have hself : m'.proc np = x.embryo t.m.nextpid := by
      rw [hp']
      simp [Machine.setPc, Machine.setKth, Machine.setProc]
    refine h.stayProc hi' hc' np (fun q hq => ?_) ?_ (.inl ?_) (fun q j r hq => ?_)
    · rw [hp']
      simp [Machine.setPc, Machine.setKth, Machine.setProc, hq]
    · rw [hself]
      refine Kept.of_idle (by simp [Proc.embryo]) (fun j => ?_)
      exact hx.idle (.inl hn) j ((h.inv.ok np).unborn (.inl hn) j)
    · rw [hself]
      exact hst'.trans hst
    · rw [hk'] at hq
      exact Machine.built_setPc pc hpc hq
  unfold Machine.allocproc at hi ⊢
  split
  · exact h
  · rename_i np hnp
    have hn : (t.m.proc np).state = .UNUSED := by simpa using List.find?_some hnp
    rw [hnp] at hi
    simp only at hi
    split
    · rename_i hth
      rw [hth] at hi
      exact hkey hn (Proc.Same.refl _) ⟨rfl, rfl⟩ (Proc.Still.refl _) rfl hi rfl rfl rfl
    · rename_i j x hth
      rw [hth] at hi
      have hst : (t.m.proc np).Still x := by
        obtain ⟨-, rfl⟩ := Proc.allocth_eq hth
        exact ⟨rfl, rfl⟩
      exact hkey hn (Proc.same_allocth hth) ⟨rfl, rfl⟩ hst rfl hi rfl rfl rfl

/-- The thread `(p, i)` rewrites the slot it builds, in which no thread has run. -/
theorem Iso.buildSlot (h : Iso t) (hcl : (t.m.kth p i).pc.claim = some (np, .EMBRYO)) {y : Proc}
    {pc : Pc} (hi : Inv ((t.m.setProc np y).setPc p i pc)) (hy : ∀ j, (y.thread j).Idle)
    (hs : y.state ≠ .RUNNING)
    (hb : pc.built = none ∨ pc.built = some np ∧ (t.m.kth p i).pc.built = some np ∧
      (t.m.proc np).Still y) :
    Iso { t with m := (t.m.setProc np y).setPc p i pc } := by
  have hself : ((t.m.setProc np y).setPc p i pc).proc np = y := by
    simp [Machine.setPc, Machine.setKth, Machine.setProc]
  have hn := (h.inv.embryo hcl).1
  refine h.stayProc hi rfl np (fun q hq => ?_) ?_ ?_ (fun q j r hq => ?_)
  · simp [Machine.setPc, Machine.setKth, Machine.setProc, hq]
  · rw [hself]
    exact Kept.of_idle hs hy
  · rw [hself]
    rcases hb with hb | ⟨-, -, hb⟩
    · refine .inr ⟨by simp [hn], fun q j hq => ?_⟩
      -- the child is this thread's alone, and this thread has given it up
      have hq' := Machine.built_setPc (m := t.m.setProc np y) pc hb hq
      have hown := h.inv.owner q j p i np (Pc.built_claim hq') hcl
      rw [hown.1, hown.2] at hq
      simp [Machine.setPc, Machine.setKth, hb] at hq
    · exact .inl hb
  · by_cases he : q = p ∧ j = i
    · rcases hb with hb | ⟨hb, hb', -⟩
      · simp [Machine.setPc, Machine.setKth, he, hb] at hq
      · have hq' : pc.built = some r := by simpa [Machine.setPc, Machine.setKth, he] using hq
        rw [hb] at hq'
        cases hq'
        rw [he.1, he.2]
        exact hb'
    · simpa [Machine.setPc, Machine.setKth, Machine.setProc, he] using hq

theorem Iso.forkCopy (h : Iso t) (hpc : (t.m.kth p i).pc = .forkCopy np) (ok : Bool) :
    Iso { t with m := t.m.forkCopy p i np ok } := by
  have hcl : (t.m.kth p i).pc.claim = some (np, .EMBRYO) := by rw [hpc]; rfl
  obtain ⟨hn, hnr⟩ := h.inv.embryo hcl
  have hi := h.inv.forkCopy hpc ok
  cases ok with
  | false => exact h.buildSlot hcl hi hnr (by simp) (.inl rfl)
  | true => exact h.buildSlot hcl hi hnr (by simp [hn]) (.inr ⟨rfl, by rw [hpc]; rfl, ⟨rfl, rfl⟩⟩)

theorem Iso.forkFields (h : Iso t) (hpc : (t.m.kth p i).pc = .forkFields np) :
    Iso { t with m :=
      (t.m.setProc np (Proc.forkFields (t.m.proc p) (t.m.proc np) p)).setPc p i (.forkFinish np) } := by
  have hcl : (t.m.kth p i).pc.claim = some (np, .EMBRYO) := by rw [hpc]; rfl
  obtain ⟨hn, hnr⟩ := h.inv.embryo hcl
  refine h.buildSlot hcl (h.inv.forkFields hpc) (fun j => ?_) ?_ (.inr ⟨rfl, by rw [hpc]; rfl, ⟨rfl, rfl⟩⟩)
  · by_cases he : j = (t.m.proc np).thidx
    · simpa [Proc.forkFields, he, Thread.Idle] using hnr (t.m.proc np).thidx
    · simpa [Proc.forkFields, he] using hnr j
  · simp [Proc.forkFields, hn]

/-- The child starts with what its process holds. -/
theorem Iso.forkFinish (h : Iso t) (hpc : (t.m.kth p i).pc = .forkFinish np) :
    Iso { t with m := t.m.forkFinish p i np } := by
  have hcl : (t.m.kth p i).pc.claim = some (np, .EMBRYO) := by rw [hpc]; rfl
  obtain ⟨hn, hnr⟩ := h.inv.embryo hcl
  obtain ⟨hb1, hb2⟩ := h.built p i np (by rw [hpc]; rfl)
  have hself : (t.m.forkFinish p i np).proc np = (t.m.proc np).forkFinish := by
    simp [Machine.forkFinish, Machine.setPc, Machine.setKth, Machine.setProc]
  have hother : ∀ j, j ≠ (t.m.proc np).thidx →
      ((t.m.proc np).forkFinish.thread j).Idle := by
    intro j hj
    simpa [Proc.forkFinish, Proc.copyprocth, hj] using hnr j
  have hthread : ((t.m.proc np).forkFinish.thread (t.m.proc np).thidx).saved = (t.m.proc np).placed ∧
      ((t.m.proc np).forkFinish.thread (t.m.proc np).thidx).state = .RUNNABLE := by
    simp [Proc.forkFinish, Proc.copyprocth, Thread.saved, Proc.placed, Proc.setThread]
  refine h.stayProc (h.inv.forkFinish hpc) rfl np (fun q hq => ?_) ?_ (.inl ?_) (fun q j r hq => ?_)
  · simp [Machine.forkFinish, Machine.setPc, Machine.setKth, Machine.setProc, hq]
  · rw [hself]
    refine ⟨fun j ho => ?_, fun j ho => ?_, fun j hs => ?_, fun hr => ?_⟩
    · by_cases hj : j = (t.m.proc np).thidx
      · rw [hj, hthread.1]
        exact hb1
      · exact absurd (hother j hj) ho.not_idle
    · by_cases hj : j = (t.m.proc np).thidx
      · have h1 := congrArg Saved.tf hthread.1
        have h2 := congrArg Saved.kstack hthread.1
        simp only [Thread.saved, Proc.placed] at h1 h2
        rw [hj, h1, h2]
        exact hb2
      · have hi := hother j hj
        rcases ho with ho | ho
        · exact absurd hi ho.not_idle
        · simp [Thread.Idle, ho] at hi
    · by_cases hj : j = (t.m.proc np).thidx
      · rw [hj, hthread.2] at hs
        cases hs
      · have hi := hother j hj
        simp [Thread.Idle, hs] at hi
    · simp [Proc.forkFinish, Proc.copyprocth] at hr
  · rw [hself]
    exact ⟨rfl, rfl⟩
  · have hq' := Machine.built_setPc .user rfl hq
    by_cases he : q = np ∧ j = (t.m.proc np).thidx
    · simp [Machine.setKth, he, Pc.built] at hq'
    · simpa [Machine.setKth, Machine.setProc, he] using hq'

/-- The second write of a failed `fork` or `allocproc` finds a slot without threads. -/
theorem Iso.undo (h : Iso t) (hcl : (t.m.kth p i).pc.claim = some (np, .UNUSED)) {y : Proc}
    (hi : Inv ((t.m.setProc np y).setPc p i .user)) (hs : y.state = (t.m.proc np).state)
    (hst : (t.m.proc np).Still y) (hy : ∀ j, (y.thread j).Idle) :
    Iso { t with m := (t.m.setProc np y).setPc p i .user } := by
  have hn := h.inv.claim p i np _ hcl
  have hself : ((t.m.setProc np y).setPc p i .user).proc np = y := by
    simp [Machine.setPc, Machine.setKth, Machine.setProc]
  refine h.stayProc hi rfl np (fun q hq => ?_) ?_ (.inl ?_) (fun q j r hq => ?_)
  · simp [Machine.setPc, Machine.setKth, Machine.setProc, hq]
  · rw [hself]
    exact Kept.of_idle (by simp [hs, hn]) hy
  · rw [hself]
    exact hst
  · exact Machine.built_setPc (m := t.m.setProc np y) .user rfl hq

theorem Iso.undoAlloc (h : Iso t) {th : Option ThIdx} (hpc : (t.m.kth p i).pc = .undoAlloc np th) :
    Iso { t with m := (t.m.undoAlloc np th).setPc p i .user } := by
  have hcl : (t.m.kth p i).pc.claim = some (np, .UNUSED) := by rw [hpc]; rfl
  have hi := h.inv.undoAlloc hpc
  have hidle := (h.inv.ok np).unborn (.inl (h.inv.claim p i np _ hcl))
  cases th with
  | none => exact h.undo hcl hi rfl ⟨rfl, rfl⟩ hidle
  | some j =>
    refine h.undo hcl hi rfl ⟨rfl, rfl⟩ (fun k => ?_)
    by_cases hk : k = j
    · exact .inl (by simp [hk])
    · simpa [hk] using hidle k

theorem Iso.undoFork (h : Iso t) (hpc : (t.m.kth p i).pc = .undoFork np) :
    Iso { t with m := (t.m.undoFork np).setPc p i .user } := by
  have hcl : (t.m.kth p i).pc.claim = some (np, .UNUSED) := by rw [hpc]; rfl
  have hidle := (h.inv.ok np).unborn (.inl (h.inv.claim p i np _ hcl))
  refine h.undo hcl (h.inv.undoFork hpc) rfl ⟨rfl, rfl⟩ (fun k => ?_)
  by_cases hk : k = (t.m.proc np).thidx
  · exact .inl (by simp [hk])
  · simpa [hk] using hidle k

theorem Iso.execKill (h : Iso t) (hr : (t.m.cpu c).mode = .running p i) (n pages : Nat) :
    Iso { t with m := t.m.execKill p i n pages } := by
  have hon := h.inv.on c p i (.inr hr)
  have hi := h.inv.execKill hr n pages
  unfold Machine.execKill at hi ⊢
  split
  · rename_i hn
    split
    · exact h.setKth rfl rfl
    · rename_i hne
      rw [dif_pos hn, if_neg hne] at hi
      have hself : (t.m.proc p).execKill ⟨n, hn⟩ = ((t.m.proc p).setFreed ⟨n, hn⟩ 0).setThread ⟨n, hn⟩ {} := by
        simp [Proc.execKill, hne]
      refine h.stayProc hi rfl p (fun q hq => ?_) ?_ (.inl ?_) (fun q j r hq => ?_)
      · simp [Machine.setPc, Machine.setKth, Machine.setProc, hq]
      · have hk : Kept ((t.m.proc p).execKill ⟨n, hn⟩) (t.saved p) (t.slept p) := by
          rw [hself]
          have h0 : Kept ((t.m.proc p).setFreed ⟨n, hn⟩ 0) (t.saved p) (t.slept p) := by
            have hx := h.kept p
            exact ⟨hx.off, hx.frame, hx.chan, hx.on⟩
          exact h0.setThread _ _ (Thread.rests_idle (.inl rfl)) (fun _ he => absurd he hne)
        simpa [Machine.setPc, Machine.setKth, Machine.setProc] using hk
      · have hst : (t.m.proc p).Still ((t.m.proc p).execKill ⟨n, hn⟩) := by
          rw [hself]
          exact ⟨rfl, rfl⟩
        simpa [Machine.setPc, Machine.setKth, Machine.setProc] using hst
      · have hq' := Machine.built_setPc (.execKill (n + 1) pages) rfl hq
        by_cases he : q = p ∧ j = ⟨n, hn⟩
        · simp [Machine.setKth, he, Pc.built] at hq'
        · simpa [Machine.setKth, Machine.setProc, he] using hq'
  · exact h.setKth rfl rfl

theorem Iso.execCommit (h : Iso t) (hr : (t.m.cpu c).mode = .running p i) (img pages : Nat) :
    Iso { t with m := (t.m.setProc p ((t.m.proc p).execCommit img pages)).setPc p i .user } := by
  have hon := h.inv.on c p i (.inr hr)
  have hrun := ((h.inv.ok p).running hon.2.1 (t.m.proc p).thidx).mpr rfl
  refine h.stayProc (h.inv.execCommit hr img pages) rfl p (fun q hq => ?_) ?_ (.inl ?_)
    (fun q j r hq => ?_)
  · simp [Machine.setPc, Machine.setKth, Machine.setProc, hq]
  · have hk := (h.kept p).setThread (t.m.proc p).thidx
      { (t.m.proc p).thread (t.m.proc p).thidx with state := .RUNNING }
      ⟨fun ho => (by simp [Thread.Off] at ho), fun _ => ⟨hrun, rfl⟩, fun hs => (by cases hs)⟩
      (fun _ _ => rfl)
    have hk' : Kept ((t.m.proc p).execCommit img pages) (t.saved p) (t.slept p) :=
      ⟨hk.off, hk.frame, hk.chan, hk.on⟩
    simpa [Machine.setPc, Machine.setKth, Machine.setProc] using hk'
  · simpa [Machine.setPc, Machine.setKth, Machine.setProc] using
      (⟨rfl, rfl⟩ : (t.m.proc p).Still ((t.m.proc p).execCommit img pages))
  · exact Machine.built_setPc (m := t.m.setProc p _) .user rfl hq

theorem Iso.waitLoop (h : Iso t) (hr : (t.m.cpu c).mode = .running p i) (hl : t.m.lock = some c) :
    t.After c p i esp (some (.proc p)) (t.m.waitLoop c p i esp) := by
  have hi : Inv (t.m.waitLoop c p i esp) := h.inv.waitLoop hr hl
  unfold Machine.waitLoop at hi ⊢
  split
  · rename_i q hq
    rw [hq] at hi
    have hz : (t.m.proc q).state = .ZOMBIE := by
      have := List.find?_some hq
      simp only [decide_eq_true_eq] at this
      exact this.2
    refine .inl ⟨rfl, h.stayProc hi rfl q (fun r hr => ?_) ?_ (.inr ⟨?_, fun r j hb => ?_⟩)
      (fun r j s hb => ?_)⟩
    · simp [Machine.setProc, Machine.release, hr]
    · have hk : Kept (t.m.proc q).reap (t.saved q) (t.slept q) := by
        refine Kept.of_idle (by simp [Proc.reap]) (fun j => ?_)
        simp only [Proc.reap, Proc.reapThread]
        split
        · exact .inl ‹_›
        · exact .inl rfl
      simpa [Machine.setProc, Machine.release] using hk
    · simp [hz]
    · -- no thread builds a child in the slot of a zombie
      have hb' : (t.m.kth r j).pc.built = some q := by
        by_cases hrq : r = q
        · simp [hrq, Pc.built] at hb
        · simpa [hrq] using hb
      have := h.inv.claim r j q _ (Pc.built_claim hb')
      rw [hz] at this
      cases this
    · by_cases hrq : r = q
      · simp [hrq, Pc.built] at hb
      · simpa [hrq] using hb
  · split
    · exact .inl ⟨rfl, h.release hr (.inr hl)⟩
    · exact .inr ⟨Machine.sched_mode _ _ _ _ _, h.sleep hr hl _ _⟩

theorem Kept.joinReap {x : Proc} {g : ThIdx → Saved} {h : ThIdx → Option Chan} (hx : Kept x g h)
    {j : ThIdx} (hj : (x.thread j).state = .ZOMBIE)
    (hrun : x.state = .RUNNING → (x.thread x.thidx).state = .RUNNING) :
    Kept (x.joinReap j) g h ∧ x.Still (x.joinReap j) := by
  have hne : x.state = .RUNNING → x.thidx ≠ j := by
    rintro hs rfl
    have := hrun hs
    rw [hj] at this
    cases this
  refine ⟨hx.rests (fun k => ?_) (fun hs => ⟨hs, rfl, rfl, rfl, ?_⟩), ⟨rfl, rfl⟩⟩
  · by_cases hk : k = j
    · subst hk
      exact Thread.rests_idle (.inl (by simp [Proc.joinReap, Proc.freeustack]))
    · simpa [Proc.joinReap, Proc.freeustack, hk] using Thread.Rests.refl _
  · have hs' : x.state = .RUNNING := hs
    simp [Proc.joinReap, Proc.freeustack, hne hs']

theorem Iso.joinLoop (h : Iso t) (hr : (t.m.cpu c).mode = .running p i) (hl : t.m.lock = some c)
    (j : ThIdx) (tid : Nat) :
    t.After c p i esp (some (.thread p j)) (t.m.joinLoop c p i j tid esp) := by
  have hon := h.inv.on c p i (.inr hr)
  have hi : Inv (t.m.joinLoop c p i j tid esp) := h.inv.joinLoop hr hl j tid
  unfold Machine.joinLoop at hi ⊢
  split
  · rename_i hz
    rw [if_pos hz] at hi
    obtain ⟨hk, hst⟩ := (h.kept p).joinReap hz
      (fun hs => ((h.inv.ok p).running hs _).mpr rfl)
    refine .inl ⟨rfl, h.stayProc hi rfl p (fun q hq => ?_) ?_ (.inl ?_) (fun q k r hb => ?_)⟩
    · simp [Machine.setKth, Machine.setProc, Machine.release, hq]
    · simpa [Machine.setKth, Machine.setProc, Machine.release] using hk
    · simpa [Machine.setKth, Machine.setProc, Machine.release] using hst
    · by_cases he : q = p ∧ k = j
      · simp [Machine.setKth, Machine.release, he, Pc.built] at hb
      · simpa [Machine.setKth, Machine.setProc, Machine.release, he] using hb
  · split
    · exact .inl ⟨rfl, h.release hr (.inr hl)⟩
    · exact .inr ⟨Machine.sched_mode _ _ _ _ _, h.sleep hr hl _ _⟩

/-! ## New threads -/

/-- What is recorded for a slot without a thread does not matter. -/
theorem Iso.setSaved (h : Iso t) {q : Slot} {j : ThIdx} (hj : ((t.m.proc q).thread j).Idle)
    (hb : ∀ r k, (t.m.kth r k).pc.built ≠ some q) (s : Saved) : Iso (t.setSaved q j s) := by
  have hne : ∀ r k, ¬ ((t.m.proc r).thread k).Idle → ¬ (r = q ∧ k = j) := by
    rintro r k hk ⟨rfl, rfl⟩
    exact hk hj
  refine ⟨h.inv, fun r => ?_, h.esp, fun d r k hd => ?_, fun r k np hr => ?_⟩
  · have hx := h.kept r
    refine ⟨fun k ho => ?_, hx.frame, hx.chan, hx.on⟩
    show _ = if r = q ∧ k = j then s else t.saved r k
    rw [if_neg (hne r k ho.not_idle)]
    exact hx.off k ho
  · have hon := h.inv.on d r k (.inl hd)
    have hrun := ((h.inv.ok r).running hon.2.1 k).mpr hon.2.2.symm
    show _ = if r = q ∧ k = j then s else t.saved r k
    rw [if_neg (hne r k (by simp [Thread.Idle, hrun]))]
    exact h.placed d r k hd
  · have hq : np ≠ q := fun he => hb r k (he ▸ hr)
    show _ = (if np = q ∧ _ then s else t.saved np _) ∧ _
    rw [if_neg (fun hh => hq hh.1)]
    exact h.built r k np hr

theorem Iso.forkKalloc_some (h : Iso t) {th : Option ThIdx}
    (hpc : (t.m.kth p i).pc = .forkKalloc np th) (a : Nat) :
    Iso ({ t with m := t.m.forkKalloc p i np th (some a) }.setSaved np (t.m.proc np).thidx
      (newStack a)) := by
  have hcl : (t.m.kth p i).pc.claim = some (np, .EMBRYO) := by rw [hpc]; rfl
  obtain ⟨hn, hnr⟩ := h.inv.embryo hcl
  have hno : ∀ q j, (t.m.kth q j).pc.built ≠ some np := by
    intro q j hq
    have hown := h.inv.owner q j p i np (Pc.built_claim hq) hcl
    rw [hown.1, hown.2, hpc] at hq
    simp [Pc.built] at hq
  have hs := h.setSaved (hnr (t.m.proc np).thidx) hno (newStack a)
  -- first the process, then the position of the thread that builds it
  let x : Proc := { t.m.proc np with kstack := a, tf := Proc.tfOf a, context := Proc.contextOf a }
  have h1 : Iso { t.setSaved np (t.m.proc np).thidx (newStack a) with m := t.m.setProc np x } := by
    refine hs.stayProc (h.inv.setProc (Proc.same_of_eq rfl rfl rfl)) rfl np (fun q hq => ?_) ?_
      (.inr ⟨?_, hno⟩) (fun _ _ _ hr => hr)
    · show (t.m.setProc np x).proc q = t.m.proc q
      simp [Machine.setProc, hq]
    · have hx : (t.m.setProc np x).proc np = x := by simp [Machine.setProc]
      show Kept ((t.m.setProc np x).proc np) _ _
      rw [hx]
      exact Kept.of_idle (by simp [x, hn]) hnr
    · show (t.m.proc np).state ≠ .RUNNING
      simp [hn]
  refine ⟨h.inv.forkKalloc hpc (some a), h1.kept, h1.esp, h1.placed, fun q j r hr => ?_⟩
  by_cases he : q = p ∧ j = i
  · have hr' : Pc.built (.forkCopy np) = some r := by
      simpa [Machine.forkKalloc, Traced.setSaved, Machine.setPc, Machine.setKth, he] using hr
    cases hr'
    simp [Machine.forkKalloc, Traced.setSaved, Machine.setPc, Machine.setKth, Machine.setProc,
      Proc.placed, newStack]
  · have hr' : (t.m.kth q j).pc.built = some r := by
      simpa [Machine.forkKalloc, Traced.setSaved, Machine.setPc, Machine.setKth, Machine.setProc,
        he] using hr
    exact h1.built q j r hr'

theorem Iso.forkKalloc_none (h : Iso t) {th : Option ThIdx}
    (hpc : (t.m.kth p i).pc = .forkKalloc np th) :
    Iso { t with m := t.m.forkKalloc p i np th none } := by
  have hcl : (t.m.kth p i).pc.claim = some (np, .EMBRYO) := by rw [hpc]; rfl
  obtain ⟨-, hnr⟩ := h.inv.embryo hcl
  exact h.buildSlot hcl (h.inv.forkKalloc hpc none) hnr (by simp) (.inl rfl)

/-- The new user stack does not touch the kernel stack, and the thread may run or stays
under construction. -/
theorem Proc.userStack_saved {x y : Proc} {j : ThIdx} {mapped copied : Bool}
    (h : x.userStack j mapped copied = .ok y ∨ x.userStack j mapped copied = .error y) :
    (y.thread j).saved = (x.thread j).saved ∧ x.Still y ∧
      ((y.thread j).state = .RUNNABLE ∨ (y.thread j).state = (x.thread j).state) := by
  unfold Proc.userStack at h
  split_ifs at h <;> simp only [or_false, false_or, Except.ok.injEq, Except.error.injEq] at h <;>
    subst h
  · exact ⟨by simp [Proc.start, Thread.saved], ⟨rfl, rfl⟩, .inl (by simp [Proc.start])⟩
  · exact ⟨rfl, ⟨rfl, rfl⟩, .inr rfl⟩
  · exact ⟨by simp [Proc.start, Thread.saved], ⟨rfl, rfl⟩, .inl (by simp [Proc.start])⟩
  · exact ⟨rfl, ⟨rfl, rfl⟩, .inr rfl⟩
  · exact ⟨rfl, ⟨rfl, rfl⟩, .inr rfl⟩

/-- A thread with a new kernel stack in a free slot. -/
theorem Kept.create {x y : Proc} {g : ThIdx → Saved} {h : ThIdx → Option Chan} (hx : Kept x g h)
    {j : ThIdx} {a : Nat} (hj : (x.thread j).Idle)
    (hrun : x.state = .RUNNING → (x.thread x.thidx).state = .RUNNING)
    (hk : ∀ k, k ≠ j → y.thread k = x.thread k) (hy : (y.thread j).saved = newStack a)
    (hs : (y.thread j).state = .RUNNABLE ∨ (y.thread j).state = .EMBRYO) (hst : x.Still y)
    (hxs : y.state = x.state) (hg : g j = newStack a) : Kept y g h := by
  have htf : (y.thread j).tf = Proc.tfOf (y.thread j).kstack := by
    have h1 : (y.thread j).tf = Proc.tfOf a := congrArg Saved.tf hy
    have h2 : (y.thread j).kstack = a := congrArg Saved.kstack hy
    rw [h1, h2]
  refine ⟨fun k ho => ?_, fun k ho => ?_, fun k hsl => ?_, fun hr => ?_⟩
  · by_cases hkj : k = j
    · rw [hkj, hg]
      exact hy
    · rw [hk k hkj] at ho ⊢
      exact hx.off k ho
  · by_cases hkj : k = j
    · rw [hkj]
      exact htf
    · rw [hk k hkj] at ho ⊢
      exact hx.frame k ho
  · by_cases hkj : k = j
    · rw [hkj] at hsl
      rcases hs with hs | hs <;> simp [hs] at hsl
    · rw [hk k hkj] at hsl ⊢
      exact hx.chan k hsl
  · rw [hxs] at hr
    have hne : x.thidx ≠ j := by
      rintro rfl
      simp [Thread.Idle, hrun hr] at hj
    rw [hst.thidx, hst.kstack, hst.tf, hk _ hne]
    exact hx.on hr

theorem Iso.threadCreate (h : Iso t) (hr : (t.m.cpu c).mode = .running p i) (hl : t.m.lock = none)
    (page : Option Nat) (mapped copied : Bool) :
    Iso ({ t with m := t.m.threadCreate c p page mapped copied }.noteCreated
      (t.m.created (.call c esp (.threadCreate page mapped copied)))) := by
  have hon := h.inv.on c p i (.inr hr)
  have hi := h.inv.threadCreate hr hl page mapped copied
  have hno : ∀ r k, (t.m.kth r k).pc.built ≠ some p := by
    intro r k hb
    have := h.inv.claim r k p _ (Pc.built_claim hb)
    rw [hon.2.1] at this
    cases this
  have hrun : (t.m.proc p).state = .RUNNING →
      ((t.m.proc p).thread (t.m.proc p).thidx).state = .RUNNING :=
    fun hs => ((h.inv.ok p).running hs _).mpr rfl
  have hslot : ∀ {j : ThIdx} {x : Proc}, (t.m.proc p).allocth t.m.nexttid = some (j, x) →
      ((t.m.proc p).thread j).state = .UNUSED ∧ (t.m.proc p).thidx ≠ j ∧
        x = (t.m.proc p).setThread j
          { (t.m.proc p).thread j with tid := t.m.nexttid, state := .EMBRYO } := by
    intro j x hth
    obtain ⟨hj, hx⟩ := Proc.allocth_eq hth
    refine ⟨hj, ?_, hx⟩
    rintro rfl
    have := hrun hon.2.1
    rw [hj] at this
    cases this
  -- the new thread has its kernel stack, whether or not it gets a user stack
  have hstack : ∀ {j : ThIdx} {x y : Proc} {a : Nat}, (t.m.proc p).allocth t.m.nexttid = some (j, x) →
      ((x.kernelStack j a).userStack j mapped copied = .ok y ∨
        (x.kernelStack j a).userStack j mapped copied = .error y) →
      t.m.created (.call c esp (.threadCreate (some a) mapped copied)) = some (p, j, a) ∧
        Iso (t.setSaved p j (newStack a)) ∧
        Kept y ((t.setSaved p j (newStack a)).saved p) (t.slept p) ∧ (t.m.proc p).Still y := by
    intro j x y a hth hy
    obtain ⟨hj, hne, rfl⟩ := hslot hth
    have hs := h.setSaved (q := p) (j := j) (.inl hj) hno (newStack a)
    obtain ⟨h1, h2, h3⟩ := Proc.userStack_saved hy
    have h4 := (Proc.userStack_thread hy).1
    have h5 : (t.m.proc p).Still y := by
      refine Proc.Still.trans ?_ h2
      exact ⟨rfl, rfl⟩
    refine ⟨by simp [Machine.created, hr, hth], hs, (hs.kept p).create (a := a) (.inl hj) hrun
      (fun k hk => ?_) ?_ ?_ h5 ?_ (by simp [Traced.setSaved]), h5⟩
    · rw [h4 k hk]
      simp [Proc.kernelStack, Traced.setSaved, hk]
    · rw [h1]
      simp [Proc.kernelStack, Thread.saved, newStack]
    · rcases h3 with h3 | h3
      · exact .inl h3
      · exact .inr (by rw [h3]; simp [Proc.kernelStack])
    · rw [Proc.userStack_state hy]
      rfl
  generalize hm : t.m.threadCreate c p page mapped copied = m' at hi
  have hstep := t.m.threadCreate_step c p page mapped copied
  rw [hm] at hstep
  cases hstep with
  | full hth =>
    have hc : t.m.created (.call c esp (.threadCreate page mapped copied)) = none := by
      cases page <;> simp [Machine.created, hr, hth]
    rw [hc]
    exact h.acquire hl
  | noStack hth =>
    rename_i j x
    obtain ⟨hj, hne, rfl⟩ := hslot hth
    have hc : t.m.created (.call c esp (.threadCreate none mapped copied)) = none := rfl
    rw [hc]
    refine h.stayProc hi rfl p (fun q hq => ?_) ?_ (.inl ?_) (fun _ _ _ hb => hb)
    · simp [Machine.setProc, Machine.acquire, hq]
    · have hk := ((h.kept p).setThread j { (t.m.proc p).thread j with
          tid := t.m.nexttid, state := .EMBRYO } (Thread.rests_idle (.inr (.inl rfl)))
          (fun _ he => absurd he.symm hne)).setThread j
          { (t.m.proc p).thread j with tid := t.m.nexttid, kstack := 0, state := .UNUSED }
          (Thread.rests_idle (.inl rfl)) (fun _ he => absurd he.symm hne)
      simpa [Machine.setProc, Machine.acquire] using hk
    · simp only [Machine.setProc, Machine.acquire, if_true]
      exact ⟨rfl, rfl⟩
  | created hth hy =>
    rename_i j x y a
    obtain ⟨hc, hs, h1, h2⟩ := hstack hth (.inl hy)
    rw [hc]
    refine hs.stayProc hi rfl p (fun q hq => ?_) ?_ (.inl ?_) (fun q k r hb => ?_)
    · simp [Machine.setKth, Machine.setProc, Traced.setSaved, hq]
    · simpa [Machine.setKth, Machine.setProc] using h1
    · simpa [Machine.setKth, Machine.setProc] using h2
    · by_cases he : q = p ∧ k = j
      · simp [Machine.setKth, he, Pc.built] at hb
      · simpa [Machine.setKth, Machine.setProc, he] using hb
  | failed hth hy =>
    rename_i j x y a
    obtain ⟨hc, hs, h1, h2⟩ := hstack hth (.inr hy)
    rw [hc]
    refine hs.stayProc hi rfl p (fun q hq => ?_) ?_ (.inl ?_) (fun _ _ _ hb => hb)
    · simp [Machine.setProc, Machine.acquire, Traced.setSaved, hq]
    · simpa [Machine.setProc, Machine.acquire] using h1
    · simpa [Machine.setProc, Machine.acquire] using h2

/-! ## File-system calls -/

theorem Machine.built_setKth {m : Machine} {k : Kth} (hk : k.pc = (m.kth p i).pc) {q r : Slot} {j : ThIdx}
    (hb : ((m.setKth p i k).kth q j).pc.built = some r) : (m.kth q j).pc.built = some r := by
  rw [Machine.setKth_pc hk q j] at hb
  exact hb

/-- The thread sleeps with its call pending. -/
theorem Iso.fsSleep (h : Iso t) (hr : (t.m.cpu c).mode = .running p i) (hl : t.m.lock = none)
    {k : Kth} (hk : k.pc = (t.m.kth p i).pc) (ch : Chan) :
    Iso (t.leaves p i esp (some ch) (((t.m.setKth p i k).acquire c).sleep c p i ch .sleep esp)) := by
  have h1 : Iso { t with m := t.m.setKth p i k } :=
    h.stayTable (h.inv.setKth (.inl (by rw [hk]))) rfl rfl (fun _ _ _ hb => Machine.built_setKth hk hb)
  have h2 := Iso.acquire (c := c) h1 hl
  exact Iso.sleep h2 hr rfl ch .sleep

theorem Iso.fsGo (h : Iso t) {k : Kth} (hk : k.pc = (t.m.kth p i).pc) (l : Log) (s : Nat → Sleeplock) :
    Iso { t with m := { t.m.setKth p i k with log := l, sleeplock := s } } := by
  refine h.stayTable ?_ rfl rfl (fun _ _ _ hb => Machine.built_setKth hk hb)
  exact h.inv.fsFrame rfl rfl rfl (fun q j => Machine.setKth_pc hk q j)

theorem Iso.fsCall (h : Iso t) (hr : (t.m.cpu c).mode = .running p i) {f : FsCall}
    (hs : t.m.fsCall c p i esp f = some m') :
    t.After c p i esp (t.m.sleepsOn p i (.call c esp (.fs f))) m' := by
  have hgo : ∀ {k : Kth}, k.pc = (t.m.kth p i).pc → ∀ l s ch,
      t.After c p i esp ch { t.m.setKth p i k with log := l, sleeplock := s } :=
    fun hk l s ch => .inl ⟨rfl, h.fsGo hk l s⟩
  have hwake : ∀ {k : Kth}, k.pc = (t.m.kth p i).pc → ∀ l s ch n,
      t.After c p i esp ch ({ t.m.setKth p i k with log := l, sleeplock := s }.wakeup1 (some (.obj n))) :=
    fun hk l s ch n => .inl ⟨rfl, (h.fsGo hk l s).wakeup1 _⟩
  cases f with
  | beginOp =>
    simp only [Machine.fsCall] at hs
    split_ifs at hs with h1 h2 h3 <;> cases hs
    · exact .inr ⟨Machine.sched_mode _ _ _ _ _, h.fsSleep hr h3 (by rfl) _⟩
    · exact hgo (by rfl) _ t.m.sleeplock _
  | endOp =>
    simp only [Machine.fsCall] at hs
    split_ifs at hs with h1 h2 <;> cases hs
    · exact hgo (by rfl) _ t.m.sleeplock _
    · exact hwake (by rfl) _ t.m.sleeplock _ 0
  | commitDone =>
    simp only [Machine.fsCall] at hs
    split_ifs at hs with h1
    cases hs
    exact hwake (by rfl) _ t.m.sleeplock _ 0
  | logWrite new =>
    simp only [Machine.fsCall] at hs
    have hself : ∀ l, t.After c p i esp none { t.m with log := l } := by
      intro l
      have := hgo (k := t.m.kth p i) rfl l t.m.sleeplock none
      rwa [t.m.setKth_self p i] at this
    split_ifs at hs with h1 <;> cases hs <;> exact hself _
  | acquiresleep l =>
    simp only [Machine.fsCall] at hs
    split_ifs at hs with h1 h2 <;> cases hs
    · exact .inr ⟨Machine.sched_mode _ _ _ _ _, h.fsSleep hr h2 (by rfl) _⟩
    · exact hgo (by rfl) t.m.log _ _
  | releasesleep l =>
    simp only [Machine.fsCall] at hs
    split_ifs at hs with h1
    cases hs
    exact hwake (by rfl) t.m.log _ _ (l + 1)

/-! ## The scheduler -/

/-- A thread that waited for the CPU gets it, with what it had saved. -/
theorem Iso.dispatch (h : Iso t) (hl : t.m.lock = some c) {n : Nat} (hp : t.m.pick n = some p) :
    Iso ({ t with m := t.m.dispatch c p }.setEsp0 c) := by
  obtain ⟨hst, hex⟩ := Machine.pick_spec hp
  have hrun := Proc.thidxtorun_runnable hex
  have hx := h.kept p
  have hcpu : (t.m.dispatch c p).cpu c =
      { proc := some p, mode := .switched p (t.m.proc p).thidxtorun } := by
    simp [Machine.dispatch, Machine.setCpu]
  have hother : ∀ d, d ≠ c → (t.m.dispatch c p).cpu d = t.m.cpu d := by
    intro d hd
    simp [Machine.dispatch, Machine.setCpu, Machine.setProc, hd]
  have hself : (t.m.dispatch c p).proc p = (t.m.proc p).runThread (t.m.proc p).thidxtorun := by
    simp [Machine.dispatch, Machine.setCpu, Machine.setProc]
  have hproc : ∀ q, q ≠ p → (t.m.dispatch c p).proc q = t.m.proc q := by
    intro q hq
    simp [Machine.dispatch, Machine.setCpu, Machine.setProc, hq]
  -- another CPU does not run this process, which was `RUNNABLE`
  have hat : ∀ d q j, (t.m.cpu d).mode.at q j → q ≠ p := by
    rintro d q j hd rfl
    have := (h.inv.on d q j hd).2.1
    rw [hst] at this
    cases this
  have hesp : ({ t with m := t.m.dispatch c p }.setEsp0 c) = { t with
      m := t.m.dispatch c p
      esp0 := fun d => if d = c then
        ((t.m.proc p).runThread (t.m.proc p).thidxtorun).kstack + KSTACKSIZE else t.esp0 d } := by
    simp [Traced.setEsp0, hcpu, hself]
  rw [hesp]
  refine ⟨h.inv.dispatch hl hst, fun q => ?_, fun d q j hd => ?_, fun d q j hd => ?_, fun q j r hr => ?_⟩
  · by_cases hq : q = p
    · subst hq
      show Kept ((t.m.dispatch c q).proc q) (t.saved q) (t.slept q)
      rw [hself]
      have hth : ∀ j, j ≠ (t.m.proc q).thidxtorun →
          ((t.m.proc q).runThread (t.m.proc q).thidxtorun).thread j = (t.m.proc q).thread j := by
        intro j hj
        simp [Proc.runThread, Proc.copythproc, hj]
      refine ⟨fun j ho => ?_, fun j ho => ?_, fun j hs => ?_, fun _ => ?_⟩
      · by_cases hj : j = (t.m.proc q).thidxtorun
        · subst hj
          simp [Proc.runThread, Thread.Off] at ho
        · rw [hth j hj] at ho ⊢
          exact hx.off j ho
      · by_cases hj : j = (t.m.proc q).thidxtorun
        · subst hj
          simpa [Proc.runThread] using hx.frame _ (.inl (.inl hrun))
        · rw [hth j hj] at ho ⊢
          exact hx.frame j ho
      · by_cases hj : j = (t.m.proc q).thidxtorun
        · subst hj
          simp [Proc.runThread] at hs
        · rw [hth j hj] at hs ⊢
          exact hx.chan j hs
      · simp [Proc.runThread, Proc.copythproc, Proc.setThread]
    · show Kept ((t.m.dispatch c p).proc q) (t.saved q) (t.slept q)
      rw [hproc q hq]
      exact h.kept q
  · by_cases hd' : d = c
    · subst hd'
      have hq : q = p := by
        rw [hcpu] at hd
        rcases hd with hd | hd <;> simp at hd
        exact hd.1.symm
      subst hq
      simp [hself]
    · have hd'' : (t.m.cpu d).mode.at q j := by rwa [hother d hd'] at hd
      show (if d = c then _ else t.esp0 d) = ((t.m.dispatch c p).proc q).kstack + KSTACKSIZE
      rw [if_neg hd', hproc q (hat d q j hd'')]
      exact h.esp d q j hd''
  · by_cases hd' : d = c
    · subst hd'
      rw [hcpu] at hd
      simp only [Mode.switched.injEq] at hd
      obtain ⟨rfl, rfl⟩ := hd
      show ((t.m.dispatch d p).proc p).placed = t.saved p (t.m.proc p).thidxtorun
      rw [hself, ← hx.off _ (.inl hrun)]
      rfl
    · have hd'' : (t.m.cpu d).mode = .switched q j := by rwa [hother d hd'] at hd
      show ((t.m.dispatch c p).proc q).placed = t.saved q j
      rw [hproc q (hat d q j (.inl hd''))]
      exact h.placed d q j hd''
  · have hr' : (t.m.kth q j).pc.built = some r := hr
    have hne : r ≠ p := by
      rintro rfl
      have := h.inv.claim q j r _ (Pc.built_claim hr')
      rw [hst] at this
      cases this
    show ((t.m.dispatch c p).proc r).placed = t.saved r ((t.m.dispatch c p).proc r).thidx ∧ _
    rw [hproc r hne]
    exact h.built q j r hr'

/-- A scheduler that runs no process. -/
theorem Iso.setMode (h : Iso t) (hi : Inv m') {k : Mode} (hk : ∀ p i, ¬ k.at p i)
    (hcpu : ∀ d, m'.cpu d = if d = c then { mode := k } else t.m.cpu d) (hp : m'.proc = t.m.proc)
    (hkth : m'.kth = t.m.kth) : Iso { t with m := m' } := by
  have hat : ∀ d q j, (m'.cpu d).mode.at q j → m'.cpu d = t.m.cpu d := by
    intro d q j hd
    by_cases hdc : d = c
    · rw [hcpu, if_pos hdc] at hd
      exact absurd hd (hk q j)
    · rw [hcpu, if_neg hdc]
  refine ⟨hi, fun q => ?_, fun d q j hd => ?_, fun d q j hd => ?_, fun q j r hr => ?_⟩
  · show Kept (m'.proc q) (t.saved q) (t.slept q)
    rw [hp]
    exact h.kept q
  · show t.esp0 d = (m'.proc q).kstack + KSTACKSIZE
    rw [hp]
    refine h.esp d q j ?_
    rw [← hat d q j hd]
    exact hd
  · show (m'.proc q).placed = t.saved q j
    rw [hp]
    refine h.placed d q j ?_
    rw [← hat d q j (.inl hd)]
    exact hd
  · show (m'.proc r).placed = t.saved r (m'.proc r).thidx ∧ _
    have hr' : (m'.kth q j).pc.built = some r := hr
    rw [hkth] at hr'
    rw [hp]
    exact h.built q j r hr'

theorem Iso.schedule (h : Iso t) (hs : t.m.schedule c = some m') :
    Iso ({ t with m := m' }.setEsp0 c) := by
  have hi := h.inv.schedule hs
  unfold Machine.schedule at hs
  split at hs
  · split_ifs at hs
    cases hs
    have he : ({ t with m := (t.m.acquire c).setCpu c { mode := .scan 0 } }.setEsp0 c) =
        { t with m := (t.m.acquire c).setCpu c { mode := .scan 0 } } := by
      simp [Traced.setEsp0, Machine.setCpu]
    rw [he]
    refine h.setMode (c := c) (k := .scan 0) hi (fun p i hk => ?_) (fun d => rfl) rfl rfl
    rcases hk with hk | hk <;> cases hk
  · rename_i n hk
    have hl : t.m.lock = some c := h.inv.held c (by rw [hk]; trivial)
    split at hs <;> cases hs
    · rename_i p hp
      exact h.dispatch hl hp
    · have he : ({ t with m := t.m.release.setCpu c {} }.setEsp0 c) =
          { t with m := t.m.release.setCpu c {} } := by
        simp [Traced.setEsp0, Machine.setCpu]
      rw [he]
      refine h.setMode (c := c) (k := .idle) hi (fun p i hk => ?_) (fun d => rfl) rfl rfl
      rcases hk with hk | hk <;> cases hk
  · cases hs

/-- `swtch` returns in the thread that was dispatched. -/
theorem Iso.enter (h : Iso t) (hk : (t.m.cpu c).mode = .switched p i) :
    Iso { t with m := t.m.enter c p i } := by
  have hcpu : ∀ d q j, ((t.m.enter c p i).cpu d).mode.at q j → (t.m.cpu d).mode.at q j := by
    intro d q j hd
    by_cases hdc : d = c
    · subst hdc
      have hd' : (Mode.running p i).at q j := by
        simpa [Machine.enter, Machine.setCpu, Machine.setKth] using hd
      rcases hd' with hd' | hd' <;> cases hd'
      exact .inl hk
    · simpa [Machine.enter, Machine.setCpu, Machine.setKth, hdc] using hd
  refine ⟨h.inv.enter hk, h.kept, fun d q j hd => h.esp d q j (hcpu d q j hd), fun d q j hd => ?_,
    fun q j r hr => ?_⟩
  · by_cases hdc : d = c
    · subst hdc
      simp [Machine.enter, Machine.setCpu, Machine.setKth] at hd
    · refine h.placed d q j ?_
      simpa [Machine.enter, Machine.setCpu, Machine.setKth, hdc] using hd
  · refine h.built q j r ?_
    by_cases he : q = p ∧ j = i
    · simpa [Machine.enter, Machine.setCpu, Machine.setKth, he] using hr
    · simpa [Machine.enter, Machine.setCpu, Machine.setKth, he] using hr

/-- The process gives its current thread what the thread has. -/
theorem Kept.copyprocth {x : Proc} {g : ThIdx → Saved} {h : ThIdx → Option Chan} (hx : Kept x g h)
    (hs : x.state = .RUNNING) (hr : (x.thread x.thidx).state = .RUNNING) :
    Kept (x.copyprocth x.thidx) g h := by
  have hself : ∀ j, j ≠ x.thidx → (x.copyprocth x.thidx).thread j = x.thread j := by
    intro j hj
    simp [Proc.copyprocth, hj]
  have hon := hx.on hs
  have hf := hx.frame x.thidx (.inr hr)
  refine ⟨fun j ho => ?_, fun j ho => ?_, fun j hsl => ?_, fun _ => ?_⟩
  · by_cases hj : j = x.thidx
    · subst hj
      simp [Proc.copyprocth, Thread.Off, hr] at ho
    · rw [hself j hj] at ho ⊢
      exact hx.off j ho
  · by_cases hj : j = x.thidx
    · subst hj
      simp only [Proc.copyprocth, Proc.setThread_thread, if_true]
      rw [hon.1, hon.2]
      exact hf
    · rw [hself j hj] at ho ⊢
      exact hx.frame j ho
  · by_cases hj : j = x.thidx
    · subst hj
      simp [Proc.copyprocth, hr] at hsl
    · rw [hself j hj] at hsl ⊢
      exact hx.chan j hsl
  · simp [Proc.copyprocth, Proc.setThread]

theorem Iso.schedTail (h : Iso t) (hr : (t.m.cpu c).mode = .running p i) :
    Iso { t with m := t.m.schedTail p } := by
  have hon := h.inv.on c p i (.inr hr)
  have hrun := ((h.inv.ok p).running hon.2.1 (t.m.proc p).thidx).mpr rfl
  refine h.stayProc h.inv.schedTail rfl p (fun q hq => ?_) ?_ (.inl ?_) (fun _ _ _ hb => hb)
  · simp [Machine.schedTail, Machine.setProc, hq]
  · simpa [Machine.schedTail, Machine.setProc] using (h.kept p).copyprocth hon.2.1 hrun
  · simp only [Machine.schedTail, Machine.setProc, if_true]
    exact ⟨rfl, rfl⟩

theorem Iso.awake (h : Iso t) (hr : (t.m.cpu c).mode = .running p i) :
    Iso { t with m := t.m.awake p i } := by
  have h1 := h.schedTail hr
  have hon := h1.inv.on c p i (.inr hr)
  have hrun : (((t.m.schedTail p).proc p).thread i).state = .RUNNING :=
    ((h1.inv.ok p).running hon.2.1 i).mpr hon.2.2.symm
  refine h1.stayProc h.inv.awake rfl p (fun q hq => ?_) ?_ (.inl ?_) (fun _ _ _ hb => hb)
  · simp [Machine.awake, Machine.setThread, Machine.setProc, hq]
  · have hk := (h1.kept p).setThread i
      { ((t.m.schedTail p).proc p).thread i with chan := none }
      ⟨fun ho => (by simp [Thread.Off, hrun] at ho), fun _ => ⟨hrun, rfl⟩,
        fun hs => (by simp [hrun] at hs)⟩ (fun _ _ => rfl)
    simpa [Machine.awake, Machine.setThread, Machine.setProc] using hk
  · simp only [Machine.awake, Machine.setThread, Machine.setProc, if_true]
    exact ⟨rfl, rfl⟩

/-- `switchuvm` for a process that is on its CPU already. -/
theorem Iso.setEsp0 (h : Iso t) (hr : (t.m.cpu c).mode = .running p i) : Iso (t.setEsp0 c) := by
  have hon := h.inv.on c p i (.inr hr)
  have hsame : (fun d => if d = c then (t.m.proc p).kstack + KSTACKSIZE else t.esp0 d) = t.esp0 := by
    funext d
    split
    · rename_i hd
      rw [hd]
      exact (h.esp c p i (.inr hr)).symm
    · rfl
  have he : t.setEsp0 c = t := by
    simp only [Traced.setEsp0, hon.1]
    rw [hsame]
  rw [he]
  exact h

/-- A system call of the thread on CPU `c`. -/
theorem Iso.trap (h : Iso t) (hr : (t.m.cpu c).mode = .running p i) :
    Iso { t with m := t.m.setProc p { t.m.proc p with tf := t.esp0 c - 76 } } := by
  have hon := h.inv.on c p i (.inr hr)
  have hself := (h.kept p).on hon.2.1
  have hrun := ((h.inv.ok p).running hon.2.1 (t.m.proc p).thidx).mpr rfl
  have hf := (h.kept p).frame _ (.inr hrun)
  -- the trap frame is where `tf` has pointed all along
  have htf : t.esp0 c - 76 = (t.m.proc p).tf := by
    rw [h.esp c p i (.inr hr), hself.2, hf, ← hself.1]
    rfl
  rw [htf]
  have hx := h.kept p
  refine h.stayProc (h.inv.setProc (Proc.same_of_eq rfl rfl rfl)) rfl p (fun q hq => ?_) ?_ (.inl ?_)
    (fun _ _ _ hb => hb)
  · simp [Machine.setProc, hq]
  · simp only [Machine.setProc, if_true]
    exact ⟨hx.off, hx.frame, hx.chan, hx.on⟩
  · simp only [Machine.setProc, if_true]
    exact ⟨rfl, rfl⟩

/-! ## Steps -/

theorem Machine.left_stay {k : Call} {m : Machine} (hr : (m.cpu c).mode = .running p i)
    (hc : m'.cpu = m.cpu) : m.left m' (.call c esp k) = none := by
  simp [Machine.left, hr, hc]

/-- What the code of a thread leaves behind is what is recorded. -/
theorem Traced.After.note {a : Act} (h : t.After c p i esp (t.m.sleepsOn p i a) m')
    (hstay : m'.cpu = t.m.cpu → t.m.left m' a = none)
    (hleft : ∀ n, (m'.cpu c).mode = .scan n → t.m.left m' a = some (p, i, esp))
    (hcr : t.m.created a = none) (hsw : m'.switchuvm a = none) : Iso (t.note a m') := by
  unfold Traced.note
  rw [hcr, hsw]
  rcases h with ⟨hc, hi⟩ | ⟨⟨n, hn⟩, hi⟩
  · rw [hstay hc]
    exact hi
  · rw [hleft n hn]
    exact hi

theorem Iso.call (h : Iso t) (hr : (t.m.cpu c).mode = .running p i) {k : Call}
    (hf : FreeSlot t.m p i k) (hs : CallStep t.m c p i esp k m') : Iso (t.note (.call c esp k) m') := by
  have hafter : ∀ {k : Call} {m' : Machine},
      t.After c p i esp (t.m.sleepsOn p i (.call c esp k)) m' →
      t.m.created (.call c esp k) = none → m'.switchuvm (.call c esp k) = none →
      Iso (t.note (.call c esp k) m') := by
    intro k m' ha hcr hsw
    exact ha.note (Machine.left_stay hr) (fun n hn => by simp [Machine.left, hr, hn]) hcr hsw
  have hstay : ∀ {k : Call} {m' : Machine}, Iso { t with m := m' } → m'.cpu = t.m.cpu →
      t.m.created (.call c esp k) = none → m'.switchuvm (.call c esp k) = none →
      Iso (t.note (.call c esp k) m') :=
    fun hi hc hcr hsw => hafter (.inl ⟨hc, hi⟩) hcr hsw
  have hleave : ∀ {k : Call} {m' : Machine} {n : Nat},
      Iso (t.leaves p i esp (t.m.sleepsOn p i (.call c esp k)) m') → (m'.cpu c).mode = .scan n →
      t.m.created (.call c esp k) = none → m'.switchuvm (.call c esp k) = none →
      Iso (t.note (.call c esp k) m') :=
    fun hi hn hcr hsw => hafter (.inr ⟨⟨_, hn⟩, hi⟩) hcr hsw
  have hsched : ∀ u : Machine, ((u.sched c p i esp).cpu c).mode = .scan (p + 1) := by
    intro u
    simp [Machine.sched, Machine.setCpu]
  cases hs with
  | yield hl => exact hleave (h.yield hr hl) (hsched _) rfl rfl
  | sleep hl _ => exact hleave (Iso.sleep (h.acquire hl) hr rfl _ _) (hsched _) rfl rfl
  | kill =>
    refine hstay (h.kill _) ?_ rfl rfl
    unfold Machine.kill
    split <;> rfl
  | fork =>
    refine hstay (h.allocproc (hf rfl)) ?_ rfl rfl
    unfold Machine.allocproc
    split
    · rfl
    · split <;> rfl
  | forkKalloc hpc =>
    rename_i page np th
    cases page with
    | none => exact hstay (h.forkKalloc_none hpc) rfl rfl rfl
    | some a =>
      have hcr : t.m.created (.call c esp (.forkKalloc (some a))) =
          some (np, (t.m.proc np).thidx, a) := by
        simp [Machine.created, hr, hpc]
      have hl : t.m.left (t.m.forkKalloc p i np th (some a)) (.call c esp (.forkKalloc (some a))) =
          none := Machine.left_stay hr rfl
      unfold Traced.note
      rw [hcr, hl]
      exact h.forkKalloc_some hpc a
  | forkCopy hpc =>
    rename_i ok np
    refine hstay (h.forkCopy hpc ok) ?_ rfl rfl
    cases ok <;> rfl
  | forkFields hpc => exact hstay (h.forkFields hpc) rfl rfl rfl
  | forkFinish _ hpc => exact hstay (h.forkFinish hpc) rfl rfl rfl
  | undoAlloc hpc =>
    rename_i np th
    refine hstay (h.undoAlloc hpc) ?_ rfl rfl
    cases th <;> rfl
  | undoFork hpc => exact hstay (h.undoFork hpc) rfl rfl rfl
  | exec => exact hstay (h.setKth rfl rfl) rfl rfl rfl
  | execKill =>
    refine hstay (h.execKill hr _ _) ?_ rfl rfl
    unfold Machine.execKill
    split
    · split <;> rfl
    · rfl
  | execCommit =>
    rename_i img pages _ _
    have h1 := h.execCommit hr img pages
    have hl : t.m.left ((t.m.setProc p ((t.m.proc p).execCommit img pages)).setPc p i .user)
        (.call c esp (.execCommit img)) = none := Machine.left_stay hr rfl
    unfold Traced.note
    rw [hl]
    exact Iso.setEsp0 h1 hr
  | execFail => exact hstay (h.setKth rfl rfl) rfl rfl rfl
  | exit => exact hstay (h.setKth rfl rfl) rfl rfl rfl
  | exitEnd hl => exact hleave (h.exitEnd hr hl) (hsched _) rfl rfl
  | wait hl => exact hafter (Iso.waitLoop (h.acquire hl) hr rfl) rfl rfl
  | threadCreate hl =>
    rename_i page mapped copied _
    have h1 : Iso ({ t with m := t.m.threadCreate c p page mapped copied }.noteCreated
        (t.m.created (.call c esp (.threadCreate page mapped copied)))) :=
      h.threadCreate hr hl page mapped copied
    have hc : (t.m.threadCreate c p page mapped copied).cpu = t.m.cpu := by
      generalize hm : t.m.threadCreate c p page mapped copied = m'
      have hstep := t.m.threadCreate_step c p page mapped copied
      rw [hm] at hstep
      cases hstep <;> rfl
    have hl : t.m.left (t.m.threadCreate c p page mapped copied)
        (.call c esp (.threadCreate page mapped copied)) = none := Machine.left_stay hr hc
    unfold Traced.note
    rw [hl]
    simp only [Machine.switchuvm, Traced.noteLeft]
    split
    · refine Iso.setEsp0 h1 (p := p) (i := i) ?_
      have hm : ∀ o, ({ t with m := t.m.threadCreate c p page mapped copied }.noteCreated o).m =
          t.m.threadCreate c p page mapped copied := by
        intro o
        cases o <;> rfl
      rw [hm, hc]
      exact hr
    · exact h1
  | threadExit hl => exact hleave (h.threadExit hr hl _) (hsched _) rfl rfl
  | threadJoin hl =>
    rename_i tid _
    refine hafter ?_ rfl rfl
    unfold Machine.threadJoin
    split
    · exact .inl ⟨rfl, h⟩
    · rename_i j hj
      simp only [Machine.sleepsOn, hj, Option.map_some]
      exact Iso.joinLoop (h.acquire hl) hr rfl j tid
  | fsEnter => exact hstay (h.setKth rfl rfl) rfl rfl rfl
  | fsReturn => exact hstay (h.setKth rfl rfl) rfl rfl rfl
  | fs _ hf => exact hafter (h.fsCall hr hf) rfl rfl

/-- A thread continues where it was switched out, and may leave the CPU again. -/
theorem Iso.resume (h : Iso t) (hs : t.m.resume c esp = some m') :
    Iso (t.note (.resume c esp) m') := by
  unfold Machine.resume at hs
  split at hs
  · rename_i p i hk
    have hl : t.m.lock = some c := h.inv.held c (by rw [hk]; trivial)
    have h1 := h.enter hk
    have hr : ((t.m.enter c p i).cpu c).mode = .running p i := by
      simp [Machine.enter, Machine.setCpu, Machine.setKth]
    have hproc : (((t.m.enter c p i).awake p i).proc p).kstack = (t.m.proc p).kstack ∧
        (((t.m.enter c p i).awake p i).proc p).tf = (t.m.proc p).tf := by
      simp [Machine.awake, Machine.schedTail, Machine.setThread, Machine.setProc, Machine.enter,
        Machine.setKth, Machine.setCpu, Proc.copyprocth, Proc.setThread]
    -- a thread that stays is on the CPU now
    have hstay : ∀ {m' : Machine}, Iso { t with m := m' } → (m'.cpu c).mode = .running p i →
        Iso (t.note (.resume c esp) m') := by
      intro m' hi hc
      have hleft : t.m.left m' (.resume c esp) = none := by simp [Machine.left, hk, hc]
      unfold Traced.note
      rw [hleft]
      exact hi
    have hafter : ∀ {m' : Machine} {ch : Option Chan},
        ({ t with m := (t.m.enter c p i).awake p i } : Traced).After c p i esp ch m' →
        t.m.sleepsOn p i (.resume c esp) = ch → Iso (t.note (.resume c esp) m') := by
      intro m' ch ha hch
      rcases ha with ⟨hc, hi⟩ | ⟨⟨n, hn⟩, hi⟩
      · refine hstay hi ?_
        rw [hc]
        exact hr
      · have hleft : t.m.left m' (.resume c esp) = some (p, i, esp) := by simp [Machine.left, hk, hn]
        unfold Traced.note
        rw [hleft]
        simp only [Traced.leaves, hproc.1, hproc.2] at hi
        simp only [Traced.noteLeft, hch]
        exact hi
    split at hs
    · cases hs
    · cases hs
      exact hstay (Iso.release h1 hr (.inr hl)) hr
    · cases hs
      exact hstay (Iso.release (Iso.schedTail h1 hr) hr (.inr hl)) hr
    · cases hs
      exact hstay (Iso.release (Iso.awake h1 hr) hr (.inr hl)) hr
    · rename_i hres
      cases hs
      exact hafter (Iso.waitLoop (Iso.awake h1 hr) hr hl) (by simp [Machine.sleepsOn, hres])
    · rename_i j tid hres
      cases hs
      exact hafter (Iso.joinLoop (Iso.awake h1 hr) hr hl j tid) (by simp [Machine.sleepsOn, hres])
    · split_ifs at hs
      cases hs
      exact hstay (Iso.schedTail h1 hr) hr
  · cases hs

end Rules

theorem Iso.step {t t' : Traced} (h : Iso t) {a : TraceAct} (hf : FreeFork t a)
    (hs : traceStep t a = some t') : Iso t' := by
  cases a with
  | trap c =>
    simp only [traceStep] at hs
    split at hs
    · rename_i p i hr
      split_ifs at hs
      cases hs
      exact h.trap hr
    · cases hs
  | act a =>
    obtain ⟨m', hm, rfl⟩ := Option.map_eq_some_iff.mp hs
    cases a with
    | schedule c =>
      have h1 := h.schedule hm
      exact h1
    | resume c esp => exact h.resume hm
    | wakeup n =>
      simp only [Lwp.step] at hm
      split_ifs at hm
      cases hm
      exact h.wakeup1 _
    | call c esp k =>
      simp only [Lwp.step] at hm
      split at hm
      · rename_i p i hr
        exact h.call hr (OnCall.of_running hf hr) (Machine.call_step hm)
      · cases hm

theorem Iso.boot (page : Nat) : Iso (traceBoot page) := by
  have hth : ∀ p i, (((Lwp.boot page).proc p).thread i).state = .UNUSED ∨
      (((Lwp.boot page).proc p).thread i).state = .RUNNABLE ∧
        (((Lwp.boot page).proc p).thread i).saved = newStack page := by
    intro p i
    by_cases hp : p = 0
    · subst hp
      by_cases hi : i = 0
      · subst hi
        exact .inr ⟨by simp [Lwp.boot], by simp [Lwp.boot, Thread.saved, newStack]⟩
      · exact .inl (by simp [Lwp.boot, hi])
    · exact .inl (by simp [Lwp.boot, hp])
  have hst : ∀ p, ((Lwp.boot page).proc p).state ≠ .RUNNING := by
    intro p
    by_cases hp : p = 0 <;> simp [Lwp.boot, hp]
  refine ⟨Inv.boot page, fun p => ⟨fun j ho => ?_, fun j ho => ?_, fun j hs => ?_,
    fun hr => absurd hr (hst p)⟩, fun c p i hc => ?_, fun c p i hc => ?_, fun p i np hb => ?_⟩
  · rcases hth p j with h | h
    · simp [traceBoot, Thread.Off, h] at ho
    · exact h.2
  · rcases hth p j with h | h
    · simp [traceBoot, Thread.Off, h] at ho
    · have h1 : (((Lwp.boot page).proc p).thread j).tf = Proc.tfOf page := congrArg Saved.tf h.2
      have h2 : (((Lwp.boot page).proc p).thread j).kstack = page := congrArg Saved.kstack h.2
      show (((Lwp.boot page).proc p).thread j).tf = Proc.tfOf (((Lwp.boot page).proc p).thread j).kstack
      rw [h1, h2]
  · rcases hth p j with h | h <;> simp [traceBoot, h] at hs
  · rcases hc with hc | hc <;> simp [traceBoot, Lwp.boot] at hc
  · simp [traceBoot, Lwp.boot] at hc
  · have hb' : ((Lwp.boot page).kth p i).pc.built = some np := hb
    simp only [Lwp.boot] at hb'
    split at hb' <;> simp [Pc.built] at hb'

end Xv6.Lwp
