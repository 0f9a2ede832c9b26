import Xv6.Lib.Run
import Xv6.Lwp.Proc

/- The LWP kernel as a machine (`project2_LWP/proc.c`, `exec.c`, `sleeplock.c`,
   `log.c`): any number of CPUs, the process table with `ptable.lock`, and for
   every thread slot what its kernel stack holds.

   A step is one stretch of kernel code of one CPU. A section under
   `ptable.lock` is a single step, and it needs the lock to be free. What the
   code does to shared records without the lock is cut where another CPU, or a
   sibling after a timer interrupt, can come in between: the two writes by which
   a failed `allocproc` or `fork` gives its slot back, the parts of a successful
   `fork`, each iteration of the loop by which `exec` removes the other threads.
   A scheduler keeps the lock from its `acquire` through every dispatch until
   the thread it switched to releases it. The error returns of `thread_create`
   and the return of `thread_exit` in a lone thread leave the lock held, as the
   code does.

   `nextpid` and `nexttid` are unbounded; the results are for runs in which neither C
   `int` has overflowed.

   File-system calls appear by what they do to sleep-locks and to the log's
   `outstanding` count, in any order; a call that has to wait is repeated after
   the wakeup (`pending`). The fields of `Kth` and the two event lists record
   what happened; the kernel code does not read them, except for its own
   position. -/
namespace Xv6.Lwp

abbrev MAXOPBLOCKS : Nat := 10
abbrev LOGSIZE : Nat := 30

/-- The kernel addresses `&log` and of the sleep-lock `l`, as channels. -/
def logChan : Chan := .obj 0
def lockChan (l : Nat) : Chan := .obj (l + 1)

/-- What a CPU is doing. `scan n`: the scheduler loop is about to look at slot
`n`, with the lock held. `switched`: a thread was dispatched and has not run
yet. -/
inductive Mode where
  | idle
  | scan (n : Nat)
  | switched (p : Slot) (i : ThIdx)
  | running (p : Slot) (i : ThIdx)
  deriving DecidableEq, Repr

/-- `struct cpu`: `proc` is `c->proc`. -/
structure Cpu where
  proc : Option Slot := none
  mode : Mode := .idle
  deriving DecidableEq, Repr

/-- Where `swtch` returns to when the thread is dispatched next; `onCpu` when it
has returned. -/
inductive Resume where
  | onCpu
  | forkret
  | yield
  | sleep
  | wait
  | join (i : ThIdx) (tid : Nat)
  | threadExit
  deriving DecidableEq, Repr

/-- The steps of file-system code on shared kernel objects. -/
inductive FsCall where
  | beginOp
  | endOp
  | commitDone
  | logWrite (new : Bool)
  | acquiresleep (l : Nat)
  | releasesleep (l : Nat)
  deriving DecidableEq, Repr

/-- How far a thread is in a call that takes several steps. `fs`: inside a
file-system call. -/
inductive Pc where
  | dead
  | user
  | fs
  | forkKalloc (np : Slot) (th : Option ThIdx)
  | forkCopy (np : Slot)
  | forkFields (np : Slot)
  | forkFinish (np : Slot)
  | undoAlloc (np : Slot) (th : Option ThIdx)
  | undoFork (np : Slot)
  | execKill (n : Nat) (pages : Nat)
  | execLoad (pages : Nat)
  | exiting
  deriving DecidableEq, Repr

/-- What the kernel stack of a thread slot holds: the position, the locks it has
acquired, whether it is between `begin_op` and `end_op`, and after
`thread_exit` the position of that exit in `exits`. -/
structure Kth where
  pc : Pc := .dead
  resume : Resume := .forkret
  pending : Option FsCall := none
  held : List Nat := []
  inOp : Bool := false
  inCommit : Bool := false
  exit : Option Nat := none
  deriving DecidableEq, Repr

/-- `struct sleeplock`; `owner` is the thread whose `acquiresleep` locked it. -/
structure Sleeplock where
  locked : Bool := false
  pid : Int := 0
  owner : Slot × ThIdx := (0, 0)
  deriving DecidableEq, Repr

/-- The fields of `struct log` that admission of operations uses. -/
structure Log where
  outstanding : Nat := 0
  committing : Bool := false
  n : Nat := 0
  deriving DecidableEq, Repr

/-- A `thread_exit(value)` by the thread of process slot `p` with this tid. -/
structure Exit where
  p : Slot
  tid : Nat
  value : Nat
  deriving DecidableEq, Repr

/-- A `thread_join(tid)` in process slot `p` that returned 0 with `value`, and
the exit it consumed. -/
structure Join where
  p : Slot
  tid : Nat
  value : Nat
  exit : Option Nat
  deriving DecidableEq, Repr

structure Machine where
  proc : Slot → Proc
  initproc : Slot
  nextpid : Int
  nexttid : Nat
  lock : Option Nat
  cpu : Nat → Cpu
  kth : Slot → ThIdx → Kth
  sleeplock : Nat → Sleeplock
  log : Log
  exits : List Exit
  joins : List Join

namespace Machine

def setProc (m : Machine) (p : Slot) (x : Proc) : Machine :=
  { m with proc := fun q => if q = p then x else m.proc q }

def setThread (m : Machine) (p : Slot) (i : ThIdx) (th : Thread) : Machine :=
  m.setProc p ((m.proc p).setThread i th)

def setCpu (m : Machine) (c : Nat) (x : Cpu) : Machine :=
  { m with cpu := fun d => if d = c then x else m.cpu d }

def setKth (m : Machine) (p : Slot) (i : ThIdx) (k : Kth) : Machine :=
  { m with kth := fun q j => if q = p ∧ j = i then k else m.kth q j }

def setPc (m : Machine) (p : Slot) (i : ThIdx) (pc : Pc) : Machine :=
  m.setKth p i { m.kth p i with pc := pc }

def acquire (m : Machine) (c : Nat) : Machine := { m with lock := some c }

def release (m : Machine) : Machine := { m with lock := none }

/-! ## Switching -/

/-- `sched` in the thread `(p, i)` on CPU `c`, and the scheduler's side after
`swtch` returned there: its loop continues behind `p`. -/
def sched (m : Machine) (c : Nat) (p : Slot) (i : ThIdx) (esp : Nat) : Machine :=
  let x := (m.proc p).copythproc (m.proc p).thidx
  (m.setProc p ({ x with context := esp }.copyprocth i)).setCpu c { mode := .scan (p + 1) }

/-- The body of `sleep` up to its `sched`, with `ptable.lock` held. -/
def sleep (m : Machine) (c : Nat) (p : Slot) (i : ThIdx) (chan : Chan) (rs : Resume) (esp : Nat) :
    Machine :=
  ((m.setProc p ((m.proc p).sleep chan)).setKth p i { m.kth p i with resume := rs }).sched
    c p i esp

/-- `wakeup1` on one thread. -/
def wakeThread (chan : Option Chan) (th : Thread) : Thread :=
  if th.state = .SLEEPING ∧ th.chan = chan then { th with state := .RUNNABLE } else th

/-- `wakeup1` on one process: only `RUNNABLE` and `RUNNING` ones are searched. -/
def wakeProc (chan : Option Chan) (x : Proc) : Proc :=
  if x.state = .RUNNABLE ∨ x.state = .RUNNING then
    { x with thread := fun i => wakeThread chan (x.thread i) }
  else x

def wakeup1 (m : Machine) (chan : Option Chan) : Machine :=
  { m with proc := fun p => wakeProc chan (m.proc p) }

/-- `swtch` has returned in the thread that was dispatched. -/
def enter (m : Machine) (c : Nat) (p : Slot) (i : ThIdx) : Machine :=
  (m.setCpu c { m.cpu c with mode := .running p i }).setKth p i
    { m.kth p i with resume := .onCpu }

/-- The tail of `sched`. -/
def schedTail (m : Machine) (p : Slot) : Machine :=
  m.setProc p ((m.proc p).copyprocth (m.proc p).thidx)

/-- The tails of `sched` and of `sleep`. -/
def awake (m : Machine) (p : Slot) (i : ThIdx) : Machine :=
  (m.schedTail p).setThread p i { ((m.schedTail p).proc p).thread i with chan := none }

/-! ## Calls under the lock -/

/-- `yield` up to its `sched`. -/
def yield (m : Machine) (c : Nat) (p : Slot) (i : ThIdx) (esp : Nat) : Machine :=
  (((m.acquire c).setProc p (m.proc p).yield).setKth p i
    { m.kth p i with resume := .yield }).sched c p i esp

/-- `kill`: the first slot with this pid, whatever its state. -/
def kill (m : Machine) (pid : Int) : Machine :=
  match (List.finRange NPROC).find? (fun p => (m.proc p).pid = pid) with
  | none => m
  | some p => m.setProc p (m.proc p).kill

/-- One pass of the loop of `wait`, with the lock held: reap the first zombie
child, or give up, or sleep. -/
def waitLoop (m : Machine) (c : Nat) (p : Slot) (i : ThIdx) (esp : Nat) : Machine :=
  match (List.finRange NPROC).find? (fun q =>
      (m.proc q).parent = some p ∧ (m.proc q).state = .ZOMBIE) with
  | some q =>
    { (m.setProc q (m.proc q).reap).release with
      kth := fun r j => if r = q then {} else m.kth r j }
  | none =>
    if (m.proc p).killed ∨
        ¬ (List.finRange NPROC).any (fun q => (m.proc q).parent = some p) then m.release
    else m.sleep c p i (.proc p) .wait esp

/-- One pass of the loop of `thread_join` for the slot `j` found for `tid`, with
the lock held. -/
def joinLoop (m : Machine) (c : Nat) (p : Slot) (i : ThIdx) (j : ThIdx) (tid esp : Nat) : Machine :=
  if ((m.proc p).thread j).state = .ZOMBIE then
    { ((m.setProc p ((m.proc p).joinReap j)).setKth p j {}).release with
      joins := m.joins ++ [{ p := p, tid := tid, value := ((m.proc p).thread j).retval
                             exit := (m.kth p j).exit }] }
  else if (m.proc p).killed then m.release
  else m.sleep c p i (.thread p j) (.join j tid) esp

/-- `thread_join`: the slot is looked up once. -/
def threadJoin (m : Machine) (c : Nat) (p : Slot) (i : ThIdx) (tid esp : Nat) : Machine :=
  match (List.finRange NTHREAD).find? (fun j =>
      ((m.proc p).thread j).tid = tid ∧ ((m.proc p).thread j).state ≠ .UNUSED) with
  | none => m
  | some j => (m.acquire c).joinLoop c p i j tid esp

/-- `thread_exit` before its `sched`. -/
def leaveThread (m : Machine) (p : Slot) (i : ThIdx) (retval : Nat) : Machine :=
  let w := ((m.setProc p ((m.proc p).threadExit retval)).setKth p i
    { m.kth p i with resume := .threadExit, exit := some m.exits.length }).wakeup1
      (some (.thread p (m.proc p).thidx))
  w.setProc p { w.proc p with state := .RUNNABLE }

/-- `thread_exit`, with the event it leaves behind. -/
def threadExit (m : Machine) (c : Nat) (p : Slot) (i : ThIdx) (retval esp : Nat) : Machine :=
  { ((m.acquire c).leaveThread p i retval).sched c p i esp with
    exits := m.exits ++
      [{ p := p, tid := ((m.proc p).thread (m.proc p).thidx).tid, value := retval }] }

/-- `thread_create`; `page` is what `kalloc` returns. Every error return keeps
the lock. -/
def threadCreate (m : Machine) (c : Nat) (p : Slot) (page : Option Nat) (mapped copied : Bool) :
    Machine :=
  match (m.proc p).allocth m.nexttid with
  | none => m.acquire c
  | some (j, x) =>
    match page with
    | none =>
      { (m.setProc p (x.setThread j { x.thread j with kstack := 0, state := .UNUSED })).acquire c with
        nexttid := m.nexttid + 1 }
    | some a =>
      match (x.kernelStack j a).userStack j mapped copied with
      | .ok y =>
        { (m.setProc p y).setKth p j { pc := .user } with nexttid := m.nexttid + 1 }
      | .error y => { (m.setProc p y).acquire c with nexttid := m.nexttid + 1 }

/-- `exit` passes an abandoned child to init. -/
def adopt (initproc p : Slot) (x : Proc) : Proc :=
  if x.parent = some p then { x with parent := some initproc } else x

/-- The part of `exit` between `acquire` and `curproc->state = ZOMBIE`: wake the
parent, pass the children to init, and wake init if one of them is a zombie. -/
def abandon (m : Machine) (p : Slot) : Machine :=
  let w := m.wakeup1 ((m.proc p).parent.map .proc)
  let a := { w with proc := fun q => adopt m.initproc p (w.proc q) }
  if (List.finRange NPROC).any (fun q =>
      (w.proc q).parent = some p ∧ (w.proc q).state = .ZOMBIE) then
    a.wakeup1 (some (.proc m.initproc))
  else a

/-- `exit` from its `acquire` to its `sched`. -/
def exitEnd (m : Machine) (c : Nat) (p : Slot) (i : ThIdx) (esp : Nat) : Machine :=
  let a := (m.acquire c).abandon p
  ((a.setProc p { a.proc p with state := .ZOMBIE }).setPc p i .dead).sched c p i esp

/-! ## fork and exec -/

/-- The locked part of `allocproc`. -/
def allocproc (m : Machine) (p : Slot) (i : ThIdx) : Machine :=
  match (List.finRange NPROC).find? (fun q => (m.proc q).state = .UNUSED) with
  | none => m
  | some np =>
    match (m.proc np).allocth m.nexttid with
    | none =>
      { (m.setProc np ((m.proc np).embryo m.nextpid)).setPc p i (.forkKalloc np none) with
        nextpid := m.nextpid + 1 }
    | some (j, x) =>
      { (m.setProc np (x.embryo m.nextpid)).setPc p i (.forkKalloc np (some j)) with
        nextpid := m.nextpid + 1, nexttid := m.nexttid + 1 }

/-- `allocproc` after it has released the lock. -/
def forkKalloc (m : Machine) (p : Slot) (i : ThIdx) (np : Slot) (th : Option ThIdx) :
    Option Nat → Machine
  | none =>
    (m.setProc np { m.proc np with kstack := 0, state := .UNUSED }).setPc p i (.undoAlloc np th)
  | some a =>
    (m.setProc np { m.proc np with
      kstack := a, tf := Proc.tfOf a, context := Proc.contextOf a }).setPc p i (.forkCopy np)

/-- `fork` up to and including `copyuvm`. -/
def forkCopy (m : Machine) (p : Slot) (i : ThIdx) (np : Slot) : Bool → Machine
  | false =>
    (m.setProc np { m.proc np with pgdir := none, kstack := 0, state := .UNUSED }).setPc p i
      (.undoFork np)
  | true =>
    (m.setProc np { m.proc np with pgdir := some (m.proc p).copyuvm }).setPc p i (.forkFields np)

/-- The second write of a failed `allocproc`, to the slot `allocth` returned.
`thread[-1].state` is the word of `freedustack[58]`. -/
def undoAlloc (m : Machine) (np : Slot) : Option ThIdx → Machine
  | some j => m.setThread np j { (m.proc np).thread j with state := .UNUSED }
  | none => m.setProc np ((m.proc np).setFreed 58 0)

/-- The second write of a failed `fork`, to `np->thread[np->thidx]`. -/
def undoFork (m : Machine) (np : Slot) : Machine :=
  m.setThread np (m.proc np).thidx
    { (m.proc np).thread (m.proc np).thidx with state := .UNUSED }

/-- The end of a successful `fork`: the child's thread starts at `forkret`. -/
def forkFinish (m : Machine) (p : Slot) (i : ThIdx) (np : Slot) : Machine :=
  ((m.setProc np (m.proc np).forkFinish).setKth np (m.proc np).thidx { pc := .user }).setPc
    p i .user

/-- One iteration of the loop of `exec` over the thread slots. The kernel stack
of a removed thread is gone. -/
def execKill (m : Machine) (p : Slot) (i : ThIdx) (n pages : Nat) : Machine :=
  if h : n < NTHREAD then
    if ⟨n, h⟩ = (m.proc p).thidx then m.setPc p i (.execKill (n + 1) pages)
    else
      ((m.setProc p ((m.proc p).execKill ⟨n, h⟩)).setKth p ⟨n, h⟩ {}).setPc p i
        (.execKill (n + 1) pages)
  else m.setPc p i (.execLoad pages)

/-! ## File-system calls -/

/-- A step of file-system code in thread `(p, i)`; `none` when it cannot be
taken. A call that waits stays `pending`. -/
def fsCall (m : Machine) (c : Nat) (p : Slot) (i : ThIdx) (esp : Nat) : FsCall → Option Machine
  | .beginOp =>
    if (m.kth p i).inOp then none
    else if m.log.committing ∨ m.log.n + (m.log.outstanding + 1) * MAXOPBLOCKS > LOGSIZE then
      if m.lock = none then
        some (((m.setKth p i { m.kth p i with pending := some .beginOp }).acquire c).sleep c p i
          logChan .sleep esp)
      else none
    else
      some { m.setKth p i { m.kth p i with pending := none, inOp := true } with
        log := { m.log with outstanding := m.log.outstanding + 1 } }
  | .endOp =>
    -- `panic("log.committing")` when a commit is under way
    if (m.kth p i).inOp ∧ m.lock = none ∧ m.log.committing = false then
      if m.log.outstanding - 1 = 0 then
        some { m.setKth p i { m.kth p i with inOp := false, inCommit := true } with
          log := { m.log with outstanding := m.log.outstanding - 1, committing := true } }
      else
        some ({ m.setKth p i { m.kth p i with inOp := false } with
          log := { m.log with outstanding := m.log.outstanding - 1 } }.wakeup1 (some logChan))
    else none
  | .commitDone =>
    if (m.kth p i).inCommit ∧ m.lock = none then
      some ({ m.setKth p i { m.kth p i with inCommit := false } with
        log := { m.log with committing := false, n := 0 } }.wakeup1 (some logChan))
    else none
  | .logWrite new =>
    if (m.kth p i).inOp ∧ m.log.n < LOGSIZE then
      some { m with log := { m.log with n := if new then m.log.n + 1 else m.log.n } }
    else none
  | .acquiresleep l =>
    if (m.sleeplock l).locked then
      if m.lock = none then
        some (((m.setKth p i { m.kth p i with pending := some (.acquiresleep l) }).acquire c).sleep
          c p i (lockChan l) .sleep esp)
      else none
    else
      some { m.setKth p i { m.kth p i with pending := none, held := l :: (m.kth p i).held } with
        sleeplock := fun k =>
          if k = l then { locked := true, pid := (m.proc p).pid, owner := (p, i) }
          else m.sleeplock k }
  | .releasesleep l =>
    if l ∈ (m.kth p i).held ∧ m.lock = none then
      some ({ m.setKth p i { m.kth p i with held := (m.kth p i).held.filter (· ≠ l) } with
        sleeplock := fun k =>
          if k = l then { (m.sleeplock l) with locked := false, pid := 0 }
          else m.sleeplock k }.wakeup1 (some (lockChan l)))
    else none

/-! ## Steps -/

/-- A dispatch of the scheduler of CPU `c`: thread `thidxtorun(p)` of `p`. -/
def dispatch (m : Machine) (c : Nat) (p : Slot) : Machine :=
  (m.setProc p ((m.proc p).runThread (m.proc p).thidxtorun)).setCpu c
    { proc := some p, mode := .switched p (m.proc p).thidxtorun }

/-- The scheduler's choice from slot `n` on. -/
def pick (m : Machine) (n : Nat) : Option Slot :=
  (List.finRange NPROC).find? (fun p =>
    n ≤ p.val ∧ (m.proc p).state = .RUNNABLE ∧ (m.proc p).existrunnable)

/-- The scheduler of CPU `c`: take the lock, dispatch the next process of this
round, or end the round. -/
def schedule (m : Machine) (c : Nat) : Option Machine :=
  match (m.cpu c).mode with
  | .idle => if m.lock = none then some ((m.acquire c).setCpu c { mode := .scan 0 }) else none
  | .scan n =>
    match m.pick n with
    | some p => some (m.dispatch c p)
    | none => some (m.release.setCpu c {})
  | _ => none

/-- The thread dispatched on CPU `c` continues where it was switched out. -/
def resume (m : Machine) (c esp : Nat) : Option Machine :=
  match (m.cpu c).mode with
  | .switched p i =>
    match (m.kth p i).resume with
    | .onCpu => none
    | .forkret => some (m.enter c p i).release
    | .yield => some ((m.enter c p i).schedTail p).release
    | .sleep => some ((m.enter c p i).awake p i).release
    | .wait => some (((m.enter c p i).awake p i).waitLoop c p i esp)
    | .join j tid => some (((m.enter c p i).awake p i).joinLoop c p i j tid esp)
    | .threadExit =>
      -- `panic("zombie exit")`; otherwise the call returns with the lock held
      if ((m.proc p).thread i).state = .ZOMBIE then none
      else some ((m.enter c p i).schedTail p)
  | _ => none

end Machine

/-- What the thread running on a CPU does next. -/
inductive Call where
  | yield
  | sleep (n : Nat)
  | kill (pid : Int)
  | fork
  | forkKalloc (page : Option Nat)
  | forkCopy (ok : Bool)
  | forkFields
  | forkFinish
  | forkUndo
  | exec (stacksize : Int)
  | execKill
  | execCommit (img : Nat)
  | execFail
  | exit
  | exitEnd
  | wait
  | threadCreate (page : Option Nat) (mapped copied : Bool)
  | threadExit (retval : Nat)
  | threadJoin (tid : Nat)
  | fsEnter
  | fsReturn
  | fs (f : FsCall)
  deriving DecidableEq, Repr

/-- Steps of the machine. `esp` is the stack pointer `swtch` saves, if the step
gets that far; `wakeup` is the call from an interrupt handler or a driver. -/
inductive Act where
  | schedule (c : Nat)
  | resume (c esp : Nat)
  | wakeup (n : Nat)
  | call (c esp : Nat) (k : Call)
  deriving DecidableEq, Repr

/-- The file-system parts of `exec` and `exit` are file-system code too. -/
def Pc.inFs : Pc → Bool
  | .fs | .execLoad _ | .exiting => true
  | _ => false

/-- The thread is outside file-system code: no lock, no operation, nothing
pending. -/
def Kth.quiet (k : Kth) : Bool := k.held = [] ∧ k.inOp = false ∧ k.inCommit = false ∧ k.pending = none

namespace Machine

/-- The thread `(p, i)` on CPU `c` makes a call. -/
def call (m : Machine) (c : Nat) (p : Slot) (i : ThIdx) (esp : Nat) (k : Call) : Option Machine :=
  match k, (m.kth p i).pc with
  | .yield, _ => if m.lock = none then some (m.yield c p i esp) else none
  | .sleep n, .user | .sleep n, .fs | .sleep n, .execLoad _ | .sleep n, .exiting =>
    if m.lock = none ∧ (m.kth p i).pending = none then
      some ((m.acquire c).sleep c p i (.obj n) .sleep esp)
    else none
  | .kill pid, .user => if m.lock = none then some (m.kill pid) else none
  | .fork, .user => if m.lock = none then some (m.allocproc p i) else none
  | .forkKalloc page, .forkKalloc np th => some (m.forkKalloc p i np th page)
  | .forkCopy ok, .forkCopy np => some (m.forkCopy p i np ok)
  | .forkFields, .forkFields np =>
    some ((m.setProc np (Proc.forkFields (m.proc p) (m.proc np) p)).setPc p i (.forkFinish np))
  | .forkFinish, .forkFinish np =>
    if m.lock = none then some (m.forkFinish p i np) else none
  | .forkUndo, .undoAlloc np th => some ((m.undoAlloc np th).setPc p i .user)
  | .forkUndo, .undoFork np => some ((m.undoFork np).setPc p i .user)
  | .exec stacksize, .user => some (m.setPc p i (.execKill 0 (Proc.clampStack stacksize)))
  | .execKill, .execKill n pages => some (m.execKill p i n pages)
  | .execCommit img, .execLoad pages =>
    if (m.kth p i).quiet ∧ Proc.stackTop img pages < KERNBASE then
      some ((m.setProc p ((m.proc p).execCommit img pages)).setPc p i .user)
    else none
  | .execFail, .execLoad _ => if (m.kth p i).quiet then some (m.setPc p i .user) else none
  | .exit, .user => if p = m.initproc then none else some (m.setPc p i .exiting)
  | .exitEnd, .exiting =>
    if (m.kth p i).quiet ∧ m.lock = none then some (m.exitEnd c p i esp) else none
  | .wait, .user => if m.lock = none then some ((m.acquire c).waitLoop c p i esp) else none
  | .threadCreate page mapped copied, .user =>
    if m.lock = none then some (m.threadCreate c p page mapped copied) else none
  | .threadExit retval, .user =>
    if m.lock = none then some (m.threadExit c p i retval esp) else none
  | .threadJoin tid, .user =>
    if m.lock = none then some (m.threadJoin c p i tid esp) else none
  | .fsEnter, .user => some (m.setPc p i .fs)
  | .fsReturn, .fs => if (m.kth p i).quiet then some (m.setPc p i .user) else none
  | .fs f, pc =>
    if pc.inFs ∧ ((m.kth p i).pending = none ∨ (m.kth p i).pending = some f) then
      m.fsCall c p i esp f
    else none
  | _, _ => none

end Machine

def step (m : Machine) : Act → Option Machine
  | .schedule c => m.schedule c
  | .resume c esp => m.resume c esp
  | .wakeup n => if m.lock = none then some (m.wakeup1 (some (.obj n))) else none
  | .call c esp k =>
    match (m.cpu c).mode with
    | .running p i => m.call c p i esp k
    | _ => none

/-- The thread that takes a step and the call it makes, if the step is one. -/
def Machine.caller (m : Machine) : Act → Option (Slot × ThIdx × Call)
  | .call c _ k =>
    match (m.cpu c).mode with
    | .running p i => some (p, i, k)
    | _ => none
  | _ => none

/-- A condition on the calls of a run: `R m p i k` whenever thread `(p, i)` makes
the call `k`. -/
def OnCall (R : Machine → Slot → ThIdx → Call → Prop) (m : Machine) (a : Act) : Prop :=
  match m.caller a with
  | none => True
  | some (p, i, k) => R m p i k

instance OnCall.decidable (R : Machine → Slot → ThIdx → Call → Prop)
    [∀ m p i k, Decidable (R m p i k)] (m : Machine) (a : Act) : Decidable (OnCall R m a) :=
  match h : m.caller a with
  | none => .isTrue (by simp [OnCall, h])
  | some (p, i, k) => decidable_of_iff (R m p i k) (by simp [OnCall, h])

theorem OnCall.of_running {R : Machine → Slot → ThIdx → Call → Prop} {m : Machine} {c esp : Nat}
    {p : Slot} {i : ThIdx} {k : Call} (h : OnCall R m (.call c esp k))
    (hr : (m.cpu c).mode = .running p i) : R m p i k := by
  simpa [OnCall, Machine.caller, hr] using h

theorem OnCall.mono {R R' : Machine → Slot → ThIdx → Call → Prop} {m : Machine} {a : Act}
    (h : OnCall R m a) (hR : ∀ m p i k, R m p i k → R' m p i k) : OnCall R' m a := by
  unfold OnCall at h ⊢
  split
  · trivial
  · rename_i p i k hc
    rw [hc] at h
    exact hR m p i k h

/-! ## What a call can do -/

/-- The calls of the thread `(p, i)` on CPU `c`, with the guard of each and the
machine it leaves. -/
inductive CallStep (m : Machine) (c : Nat) (p : Slot) (i : ThIdx) (esp : Nat) :
    Call → Machine → Prop where
  | yield (hl : m.lock = none) : CallStep m c p i esp .yield (m.yield c p i esp)
  | sleep {n : Nat} (hl : m.lock = none) (hp : (m.kth p i).pending = none) :
    CallStep m c p i esp (.sleep n) ((m.acquire c).sleep c p i (.obj n) .sleep esp)
  | kill {pid : Int} (hl : m.lock = none) : CallStep m c p i esp (.kill pid) (m.kill pid)
  | fork (hl : m.lock = none) (hpc : (m.kth p i).pc = .user) :
    CallStep m c p i esp .fork (m.allocproc p i)
  | forkKalloc {page : Option Nat} {np : Slot} {th : Option ThIdx}
    (hpc : (m.kth p i).pc = .forkKalloc np th) :
    CallStep m c p i esp (.forkKalloc page) (m.forkKalloc p i np th page)
  | forkCopy {ok : Bool} {np : Slot} (hpc : (m.kth p i).pc = .forkCopy np) :
    CallStep m c p i esp (.forkCopy ok) (m.forkCopy p i np ok)
  | forkFields {np : Slot} (hpc : (m.kth p i).pc = .forkFields np) :
    CallStep m c p i esp .forkFields
      ((m.setProc np (Proc.forkFields (m.proc p) (m.proc np) p)).setPc p i (.forkFinish np))
  | forkFinish {np : Slot} (hl : m.lock = none) (hpc : (m.kth p i).pc = .forkFinish np) :
    CallStep m c p i esp .forkFinish (m.forkFinish p i np)
  | undoAlloc {np : Slot} {th : Option ThIdx} (hpc : (m.kth p i).pc = .undoAlloc np th) :
    CallStep m c p i esp .forkUndo ((m.undoAlloc np th).setPc p i .user)
  | undoFork {np : Slot} (hpc : (m.kth p i).pc = .undoFork np) :
    CallStep m c p i esp .forkUndo ((m.undoFork np).setPc p i .user)
  | exec {stacksize : Int} (hpc : (m.kth p i).pc = .user) :
    CallStep m c p i esp (.exec stacksize)
      (m.setPc p i (.execKill 0 (Proc.clampStack stacksize)))
  | execKill {n pages : Nat} (hpc : (m.kth p i).pc = .execKill n pages) :
    CallStep m c p i esp .execKill (m.execKill p i n pages)
  | execCommit {img pages : Nat} (hpc : (m.kth p i).pc = .execLoad pages)
    (hq : (m.kth p i).quiet = true) :
    CallStep m c p i esp (.execCommit img)
      ((m.setProc p ((m.proc p).execCommit img pages)).setPc p i .user)
  | execFail {pages : Nat} (hpc : (m.kth p i).pc = .execLoad pages)
    (hq : (m.kth p i).quiet = true) : CallStep m c p i esp .execFail (m.setPc p i .user)
  | exit (hpc : (m.kth p i).pc = .user) (hi : p ≠ m.initproc) :
    CallStep m c p i esp .exit (m.setPc p i .exiting)
  | exitEnd (hl : m.lock = none) (hpc : (m.kth p i).pc = .exiting)
    (hq : (m.kth p i).quiet = true) : CallStep m c p i esp .exitEnd (m.exitEnd c p i esp)
  | wait (hl : m.lock = none) (hpc : (m.kth p i).pc = .user) :
    CallStep m c p i esp .wait ((m.acquire c).waitLoop c p i esp)
  | threadCreate {page : Option Nat} {mapped copied : Bool} (hl : m.lock = none)
    (hpc : (m.kth p i).pc = .user) :
    CallStep m c p i esp (.threadCreate page mapped copied)
      (m.threadCreate c p page mapped copied)
  | threadExit {retval : Nat} (hl : m.lock = none) (hpc : (m.kth p i).pc = .user) :
    CallStep m c p i esp (.threadExit retval) (m.threadExit c p i retval esp)
  | threadJoin {tid : Nat} (hl : m.lock = none) (hpc : (m.kth p i).pc = .user) :
    CallStep m c p i esp (.threadJoin tid) (m.threadJoin c p i tid esp)
  | fsEnter (hpc : (m.kth p i).pc = .user) : CallStep m c p i esp .fsEnter (m.setPc p i .fs)
  | fsReturn (hpc : (m.kth p i).pc = .fs) (hq : (m.kth p i).quiet = true) :
    CallStep m c p i esp .fsReturn (m.setPc p i .user)
  | fs {f : FsCall} {m' : Machine} (hpc : (m.kth p i).pc.inFs = true)
    (hf : m.fsCall c p i esp f = some m') : CallStep m c p i esp (.fs f) m'

theorem Machine.call_step {m m' : Machine} {c : Nat} {p : Slot} {i : ThIdx} {esp : Nat} {k : Call}
    (h : m.call c p i esp k = some m') : CallStep m c p i esp k m' := by
  unfold Machine.call at h
  split at h <;> simp only [Option.ite_none_right_eq_some, Option.ite_none_left_eq_some,
    Option.some.injEq, reduceCtorEq] at h
  · obtain ⟨hl, rfl⟩ := h; exact .yield hl
  · obtain ⟨⟨hl, hp⟩, rfl⟩ := h; exact .sleep hl hp
  · obtain ⟨⟨hl, hp⟩, rfl⟩ := h; exact .sleep hl hp
  · obtain ⟨⟨hl, hp⟩, rfl⟩ := h; exact .sleep hl hp
  · obtain ⟨⟨hl, hp⟩, rfl⟩ := h; exact .sleep hl hp
  · obtain ⟨hl, rfl⟩ := h; exact .kill hl
  · obtain ⟨hl, rfl⟩ := h; exact .fork hl ‹_›
  · subst h; exact .forkKalloc ‹_›
  · subst h; exact .forkCopy ‹_›
  · subst h; exact .forkFields ‹_›
  · obtain ⟨hl, rfl⟩ := h; exact .forkFinish hl ‹_›
  · subst h; exact .undoAlloc ‹_›
  · subst h; exact .undoFork ‹_›
  · subst h; exact .exec ‹_›
  · subst h; exact .execKill ‹_›
  · obtain ⟨⟨hq, -⟩, rfl⟩ := h; exact .execCommit ‹_› hq
  · obtain ⟨hq, rfl⟩ := h; exact .execFail ‹_› hq
  · obtain ⟨hi, rfl⟩ := h; exact .exit ‹_› hi
  · obtain ⟨⟨hq, hl⟩, rfl⟩ := h; exact .exitEnd hl ‹_› hq
  · obtain ⟨hl, rfl⟩ := h; exact .wait hl ‹_›
  · obtain ⟨hl, rfl⟩ := h; exact .threadCreate hl ‹_›
  · obtain ⟨hl, rfl⟩ := h; exact .threadExit hl ‹_›
  · obtain ⟨hl, rfl⟩ := h; exact .threadJoin hl ‹_›
  · subst h; exact .fsEnter ‹_›
  · obtain ⟨hq, rfl⟩ := h; exact .fsReturn ‹_› hq
  · obtain ⟨⟨hpc, -⟩, hf⟩ := h; exact .fs hpc hf

/-- What a step of file-system code can do: the thread waits and the call stays
pending, or it goes on with other locks or another state of the log, and may wake
the threads that wait for these. -/
inductive FsStep (m : Machine) (c : Nat) (p : Slot) (i : ThIdx) (esp : Nat) : Machine → Prop where
  | wait {k : Kth} {n : Nat} (hl : m.lock = none) (hpc : k.pc = (m.kth p i).pc)
    (hr : k.resume = (m.kth p i).resume) (he : k.exit = (m.kth p i).exit) :
    FsStep m c p i esp (((m.setKth p i k).acquire c).sleep c p i (.obj n) .sleep esp)
  | go {k : Kth} {l : Log} {s : Nat → Sleeplock} (hpc : k.pc = (m.kth p i).pc)
    (hr : k.resume = (m.kth p i).resume) (he : k.exit = (m.kth p i).exit) :
    FsStep m c p i esp { m.setKth p i k with log := l, sleeplock := s }
  | wake {k : Kth} {l : Log} {s : Nat → Sleeplock} {n : Nat} (hl : m.lock = none)
    (hpc : k.pc = (m.kth p i).pc) (hr : k.resume = (m.kth p i).resume)
    (he : k.exit = (m.kth p i).exit) :
    FsStep m c p i esp ({ m.setKth p i k with log := l, sleeplock := s }.wakeup1 (some (.obj n)))

theorem Machine.setKth_self (m : Machine) (p : Slot) (i : ThIdx) :
    m.setKth p i (m.kth p i) = m := by
  have hk : (fun q j => if q = p ∧ j = i then m.kth p i else m.kth q j) = m.kth := by
    funext q j
    split
    · rename_i h
      rw [h.1, h.2]
    · rfl
  unfold Machine.setKth
  rw [hk]

theorem Machine.fsCall_step {m m' : Machine} {c : Nat} {p : Slot} {i : ThIdx} {esp : Nat}
    {f : FsCall} (h : m.fsCall c p i esp f = some m') : FsStep m c p i esp m' := by
  cases f with
  | beginOp =>
    simp only [Machine.fsCall] at h
    split_ifs at h with h1 h2 h3 <;> cases h
    · exact .wait (n := 0) h3 rfl rfl rfl
    · exact .go (s := m.sleeplock) rfl rfl rfl
  | endOp =>
    simp only [Machine.fsCall] at h
    split_ifs at h with h1 h2 <;> cases h
    · exact .go (s := m.sleeplock) rfl rfl rfl
    · exact .wake (s := m.sleeplock) (n := 0) h1.2.1 rfl rfl rfl
  | commitDone =>
    simp only [Machine.fsCall] at h
    split_ifs at h with h1
    cases h
    exact .wake (s := m.sleeplock) (n := 0) h1.2 rfl rfl rfl
  | logWrite new =>
    simp only [Machine.fsCall] at h
    have hgo : ∀ l, FsStep m c p i esp { m with log := l } := by
      intro l
      have hself : FsStep m c p i esp { m.setKth p i (m.kth p i) with log := l } :=
        .go (s := m.sleeplock) rfl rfl rfl
      rwa [m.setKth_self p i] at hself
    split_ifs at h with h1 <;> cases h <;> exact hgo _
  | acquiresleep l =>
    simp only [Machine.fsCall] at h
    split_ifs at h with h1 h2 <;> cases h
    · exact .wait (n := l + 1) h2 rfl rfl rfl
    · exact .go (l := m.log) rfl rfl rfl
  | releasesleep l =>
    simp only [Machine.fsCall] at h
    split_ifs at h with h1
    cases h
    exact .wake (l := m.log) (n := l + 1) h1.2 rfl rfl rfl

/-- The machine after `userinit`: one process with one thread, and idle CPUs. -/
def boot (page : Nat) : Machine :=
  let x : Proc :=
    { sz := PGSIZE, pgdir := some {}, pid := 1, state := .RUNNABLE
      kstack := page, tf := Proc.tfOf page, context := Proc.contextOf page }
  { proc := fun p => if p = 0 then (x.setThread 0 { x.thread 0 with
      tid := 1, kstack := page, tf := Proc.tfOf page, context := Proc.contextOf page
      state := .RUNNABLE }) else {}
    initproc := 0, nextpid := 2, nexttid := 2, lock := none
    cpu := fun _ => {}
    kth := fun p i => if p = 0 ∧ i = 0 then { pc := .user } else {}
    sleeplock := fun _ => {}, log := {}, exits := [], joins := [] }

end Xv6.Lwp
