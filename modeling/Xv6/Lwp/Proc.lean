import Xv6.Base

/- The process and thread records of the LWP kernel (`project2_LWP/proc.h`) and
   the functions of `proc.c` and `exec.c` that work on one process: the choice
   of a thread, the copies between a process and its current thread, thread
   slots, user stacks, and what `fork`, `wait` and `exec` do to a record.

   Scheduling state is kept twice, in `state` of the process and in `state` of
   each thread; so are `kstack`, `tf`, `context` and `chan`, which `copythproc`
   and `copyprocth` move between the process and `thread[thidx]`. User stacks
   are recorded in two parallel arrays, `thread[].ustack` and `freedustack[]`.

   Kernel addresses and user addresses are numbers, with `0` for a null
   pointer. An address space is represented by what the stack records depend
   on: the tops of the user-stack regions that were allocated in it. -/
namespace Xv6.Lwp

abbrev NTHREAD : Nat := 64
abbrev PGSIZE : Nat := 4096
abbrev KSTACKSIZE : Nat := 4096
abbrev KERNBASE : Nat := 0x80000000

/-- An index into `thread[]` and `freedustack[]`. -/
abbrev ThIdx := Fin NTHREAD

def PGROUNDUP (a : Nat) : Nat := (a + PGSIZE - 1) / PGSIZE * PGSIZE

/-- What a thread can sleep on: a process (`wait`), a thread (`thread_join`) or
any other kernel address. -/
inductive Chan where
  | proc (p : Slot)
  | thread (p : Slot) (i : ThIdx)
  | obj (n : Nat)
  deriving DecidableEq, Repr

/-- `struct thread`. -/
structure Thread where
  tid : Nat := 0
  kstack : Nat := 0
  state : ProcState := .UNUSED
  tf : Nat := 0
  context : Nat := 0
  chan : Option Chan := none
  retval : Nat := 0
  ustack : Nat := 0
  deriving DecidableEq, Repr

/-- A page directory, by the tops of the user-stack regions allocated in it. -/
structure Pgdir where
  regions : List Nat := []
  deriving DecidableEq, Repr

/-- `struct proc`, without the open files, the working directory and the name. -/
structure Proc where
  sz : Nat := 0
  pgdir : Option Pgdir := none
  pid : Int := 0
  parent : Option Slot := none
  killed : Bool := false
  stacksize : Nat := 0
  limit : Nat := 0
  freedustack : ThIdx → Nat := fun _ => 0
  thread : ThIdx → Thread := fun _ => {}
  thidx : ThIdx := 0
  kstack : Nat := 0
  state : ProcState := .UNUSED
  tf : Nat := 0
  context : Nat := 0
  chan : Option Chan := none
  retval : Nat := 0
  ustack : Nat := 0

namespace Proc

/-- The stack regions of the current address space. -/
def regions (x : Proc) : List Nat := (x.pgdir.getD {}).regions

def setThread (x : Proc) (i : ThIdx) (th : Thread) : Proc :=
  { x with thread := fun j => if j = i then th else x.thread j }

def setFreed (x : Proc) (i : ThIdx) (a : Nat) : Proc :=
  { x with freedustack := fun j => if j = i then a else x.freedustack j }

@[simp] theorem setThread_thread (x : Proc) (i j : ThIdx) (th : Thread) :
    (x.setThread i th).thread j = if j = i then th else x.thread j := rfl

@[simp] theorem setThread_state (x : Proc) (i : ThIdx) (th : Thread) :
    (x.setThread i th).state = x.state := rfl

@[simp] theorem setThread_thidx (x : Proc) (i : ThIdx) (th : Thread) :
    (x.setThread i th).thidx = x.thidx := rfl

@[simp] theorem setThread_freedustack (x : Proc) (i : ThIdx) (th : Thread) :
    (x.setThread i th).freedustack = x.freedustack := rfl

@[simp] theorem setThread_sz (x : Proc) (i : ThIdx) (th : Thread) :
    (x.setThread i th).sz = x.sz := rfl

@[simp] theorem setThread_regions (x : Proc) (i : ThIdx) (th : Thread) :
    (x.setThread i th).regions = x.regions := rfl

@[simp] theorem setFreed_thread (x : Proc) (i : ThIdx) (a : Nat) :
    (x.setFreed i a).thread = x.thread := rfl

@[simp] theorem setFreed_state (x : Proc) (i : ThIdx) (a : Nat) :
    (x.setFreed i a).state = x.state := rfl

@[simp] theorem setFreed_thidx (x : Proc) (i : ThIdx) (a : Nat) :
    (x.setFreed i a).thidx = x.thidx := rfl

@[simp] theorem setFreed_freedustack (x : Proc) (i j : ThIdx) (a : Nat) :
    (x.setFreed i a).freedustack j = if j = i then a else x.freedustack j := rfl

@[simp] theorem setFreed_sz (x : Proc) (i : ThIdx) (a : Nat) : (x.setFreed i a).sz = x.sz := rfl

@[simp] theorem setFreed_regions (x : Proc) (i : ThIdx) (a : Nat) :
    (x.setFreed i a).regions = x.regions := rfl

/-! ## Threads of a process -/

/-- The search of `thidxtorun`, from `i` on until it is back at `previdx`. -/
def thidxLoop (x : Proc) (previdx : ThIdx) : Nat → ThIdx → ThIdx
  | 0, _ => previdx
  | n + 1, i =>
    if i = previdx then previdx
    else if (x.thread i).state = .RUNNABLE then i
    else thidxLoop x previdx n (i + 1)

/-- Round robin: the next `RUNNABLE` thread behind the one that ran last, or
that one again. `i + 1` is `NEXTTH(i)`. -/
def thidxtorun (x : Proc) : ThIdx := thidxLoop x x.thidx NTHREAD (x.thidx + 1)

def existrunnable (x : Proc) : Bool :=
  (List.finRange NTHREAD).any (fun i => (x.thread i).state = .RUNNABLE)

/-- From thread to process, except `ustack` and `state`. -/
def copythproc (x : Proc) (i : ThIdx) : Proc :=
  { x with
    kstack := (x.thread i).kstack, tf := (x.thread i).tf
    context := (x.thread i).context, chan := (x.thread i).chan
    thidx := i }

/-- From process to thread, except `ustack` and `state`. -/
def copyprocth (x : Proc) (i : ThIdx) : Proc :=
  x.setThread i { x.thread i with
    kstack := x.kstack, tf := x.tf, context := x.context, chan := x.chan }

/-- `allocth`: the first free thread slot becomes `EMBRYO` with the next tid. -/
def allocth (x : Proc) (nexttid : Nat) : Option (ThIdx × Proc) :=
  match (List.finRange NTHREAD).find? (fun i => (x.thread i).state = .UNUSED) with
  | none => none
  | some i => some (i, x.setThread i { x.thread i with tid := nexttid, state := .EMBRYO })

def countth (x : Proc) : Nat :=
  (List.finRange NTHREAD).countP (fun i =>
    (x.thread i).state ≠ .UNUSED ∧ (x.thread i).state ≠ .ZOMBIE)

/-- `freeustack`: the stack of slot `i` becomes the freed stack of slot `i`. -/
def freeustack (x : Proc) (i : ThIdx) : Proc :=
  (x.setFreed i (x.thread i).ustack).setThread i { x.thread i with ustack := 0 }

/-! ## Taking and leaving a CPU -/

/-- What a dispatch of thread `i` does to the process. -/
def runThread (x : Proc) (i : ThIdx) : Proc :=
  { (x.copythproc i).setThread i { x.thread i with state := .RUNNING } with state := .RUNNING }

/-- What `yield` does to the process before `sched`. -/
def yield (x : Proc) : Proc :=
  { x.setThread x.thidx { x.thread x.thidx with state := .RUNNABLE } with state := .RUNNABLE }

/-- What `sleep` does to the process before `sched`. -/
def sleep (x : Proc) (chan : Chan) : Proc :=
  { x.setThread x.thidx { x.thread x.thidx with chan := some chan, state := .SLEEPING } with
    state := .RUNNABLE }

/-- What `thread_exit` does to the process before `wakeup1`. The only live
thread is not left a zombie; its process is marked killed instead. -/
def threadExit (x : Proc) (retval : Nat) : Proc :=
  if (x.setThread x.thidx { x.thread x.thidx with state := .ZOMBIE }).countth = 0 then
    { x.setThread x.thidx { x.thread x.thidx with state := .RUNNABLE, retval := retval } with
      killed := true, state := .RUNNABLE, retval := retval }
  else
    { x.setThread x.thidx { x.thread x.thidx with state := .ZOMBIE, retval := retval } with
      retval := retval }

/-- What `kill` does to its victim: only the thread that ran last is woken. -/
def kill (x : Proc) : Proc :=
  if (x.thread x.thidx).state = .SLEEPING then
    { x.setThread x.thidx { x.thread x.thidx with state := .RUNNABLE } with killed := true }
  else { x with killed := true }

/-- What `thread_join` does to the zombie in slot `j`. -/
def joinReap (x : Proc) (j : ThIdx) : Proc :=
  let x := x.setThread j { x.thread j with
    tid := 0, kstack := 0, state := .UNUSED, tf := 0, context := 0, chan := none }
  let x := x.freeustack j
  x.setThread j { x.thread j with retval := 0 }

/-! ## Kernel stacks and address spaces -/

/-- The trap frame at the top of a kernel stack. -/
def tfOf (kstack : Nat) : Nat := kstack + KSTACKSIZE - 76

/-- The first context below the trap frame and the return address `trapret`. -/
def contextOf (kstack : Nat) : Nat := tfOf kstack - 4 - 20

/-- `freevm`: the directory maps nothing any more. -/
def freevm (x : Proc) : Proc := { x with pgdir := x.pgdir.map (fun _ => {}) }

/-- `copyuvm(pgdir, sz)`: the regions below `sz` are copied. -/
def copyuvm (x : Proc) : Pgdir := { regions := x.regions.filter (· ≤ x.sz) }

/-- The size after a user stack of `pages` pages and its guard page were put on
top of `sz`. -/
def stackTop (sz pages : Nat) : Nat := PGROUNDUP sz + (1 + pages) * PGSIZE

/-! ## thread_create -/

/-- The kernel stack `a` of a new thread, with its trap frame and context. -/
def kernelStack (x : Proc) (j : ThIdx) (a : Nat) : Proc :=
  x.setThread j { x.thread j with kstack := a, tf := tfOf a, context := contextOf a }

/-- The new thread has the user stack `top` and may run. -/
def start (x : Proc) (j : ThIdx) (top : Nat) : Proc :=
  x.setThread j { x.thread j with ustack := top, state := .RUNNABLE }

/-- The user stack of a new thread in slot `j`: the freed stack of that slot, or
a new region on top of the address space. `mapped` and `copied` say whether
`allocuvm` and `copyout` succeed; the code after `bad:` frees the page directory
of the process. -/
def userStack (x : Proc) (j : ThIdx) (mapped copied : Bool) : Except Proc Proc :=
  if x.freedustack j ≠ 0 then
    if copied then
      .ok ({ x.setFreed j 0 with sz := PGROUNDUP x.sz }.start j (x.freedustack j))
    else .error (x.setFreed j 0).freevm
  else if mapped ∧ stackTop x.sz x.stacksize < KERNBASE then
    if copied then
      .ok ({ x with
        pgdir := some { regions := stackTop x.sz x.stacksize :: x.regions }
        sz := stackTop x.sz x.stacksize }.start j (stackTop x.sz x.stacksize))
    else .error x.freevm
  else .error x.freevm

/-! ## fork, wait, exec -/

/-- The record `allocproc` takes. -/
def embryo (x : Proc) (pid : Int) : Proc := { x with state := .EMBRYO, pid := pid, limit := 0 }

/-- The fields `fork` copies to the child once it has an address space. -/
def forkFields (cur np : Proc) (parent : Slot) : Proc :=
  ({ np with
    sz := cur.sz, parent := some parent, limit := cur.limit, stacksize := cur.stacksize
    freedustack := fun i =>
      if cur.freedustack i = 0 then (cur.thread i).ustack else cur.freedustack i
    }.setFreed np.thidx 0).setThread np.thidx
      { np.thread np.thidx with ustack := (cur.thread cur.thidx).ustack }

/-- The locked end of `fork`. -/
def forkFinish (np : Proc) : Proc :=
  copyprocth
    { np.setThread np.thidx { np.thread np.thidx with state := .RUNNABLE } with
      state := .RUNNABLE } np.thidx

/-- What `wait` does to a thread slot of the child it reaps: `ustack` and
`retval` keep their values. -/
def reapThread (th : Thread) : Thread :=
  if th.state = .UNUSED then th
  else { th with tid := 0, kstack := 0, state := .UNUSED, tf := 0, context := 0, chan := none }

/-- What `wait` does to the child it reaps. -/
def reap (x : Proc) : Proc :=
  { x.freevm with
    kstack := 0, pid := 0, parent := none, killed := false, state := .UNUSED
    limit := 0, ustack := 0
    freedustack := fun _ => 0
    thread := fun i => reapThread (x.thread i) }

/-- One iteration of the loop of `exec` that removes the other threads. -/
def execKill (x : Proc) (i : ThIdx) : Proc :=
  if i = x.thidx then x else (x.setFreed i 0).setThread i {}

/-- The stack size `exec2` uses; `exec` asks for one page. -/
def clampStack (stacksize : Int) : Nat :=
  if stacksize < 1 then 1 else if stacksize > 100 then 100 else stacksize.toNat

/-- `exec` commits to an image of `img` bytes. -/
def execCommit (x : Proc) (img pages : Nat) : Proc :=
  { x.setThread x.thidx { x.thread x.thidx with state := .RUNNING } with
    pgdir := some { regions := [stackTop img pages] }, sz := stackTop img pages
    stacksize := pages, ustack := stackTop img pages }

end Proc

end Xv6.Lwp
