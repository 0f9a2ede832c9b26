import Xv6.Lib.Run
import Xv6.Mlfq.Queue

/- The process table of the MLFQ scheduler (`project1_scheduler/proc.c`) as a
   machine. Every section of code that runs under `ptable.lock` is one action,
   so a run of the machine is any interleaving of such sections, on any number
   of CPUs. An action that the code takes on behalf of a process names that
   process (`myproc()`); the scheduler itself runs with no current process, so
   its calls of `schedulerUnlock` pass `none`.

   `exit`, `boostPriority` and `getProcessToRun` give up `ptable.lock` around a
   call of `schedulerUnlock`. The unlocking alone is an action of its own
   (`exitUnlock`, `unlockSched`), so other actions can come between it and the
   rest. -/
namespace Xv6.Mlfq

def PASSWORD : Int := 2020002960

/-- The first slot of the table, in `ptable.proc` order, that satisfies `f`. -/
def firstSlot (f : Slot → Bool) : Option Slot := (List.finRange NPROC).find? f

/-- `pinit`: the zeroed table with the level of each queue filled in. -/
def pinit : Ptable where
  proc := fun _ => {}
  queue := fun q => { level := q.val }
  lockpid := 0
  nextpid := 1
  ticks := 0
  initproc := 0

/-- `allocproc` up to the release of the lock: the slot is EMBRYO and on L0. -/
def allocproc (t : Ptable) : Except Fault (Option Slot × Ptable) :=
  match firstSlot (fun p => (t.proc p).state == .UNUSED) with
  | none => .ok (none, t)
  | some p => do
    let t := { t.updProc p (fun x =>
      { x with
        state := .EMBRYO, pid := t.nextpid, priority := 3
        next := none, prev := none, tq := 0 }) with nextpid := t.nextpid + 1 }
    let t ← pushqueue t 0 p
    .ok (some p, t)

/-- The first process: `initproc` becomes RUNNABLE without a parent. -/
def userinit (t : Ptable) : Except Fault Ptable := do
  match ← allocproc t with
  | (none, _) => .error .nullDeref
  | (some p, t) =>
    .ok ({ t with initproc := p }.updProc p (fun x => { x with state := .RUNNABLE }))

/-- The end of a successful `fork` in `cur`. -/
def forkFinish (t : Ptable) (cur np : Slot) : Ptable :=
  t.updProc np (fun x => { x with parent := some cur, state := .RUNNABLE })

/-- The failure path of `allocproc` or `fork`: only the state is taken back. -/
def forkFail (t : Ptable) (np : Slot) : Ptable :=
  t.updProc np (fun x => { x with state := .UNUSED })

def wakeup1 (t : Ptable) (chan : Chan) : Ptable :=
  { t with proc := fun p =>
      if (t.proc p).state = .SLEEPING ∧ (t.proc p).chan = some chan then
        { t.proc p with state := .RUNNABLE }
      else t.proc p }

/-- `wakeup1(p)` for a process pointer; sleeping on a null pointer is not
possible, so waking it does nothing. -/
def wakeupProc (t : Ptable) : Option Slot → Ptable
  | none => t
  | some p => wakeup1 t (.proc p)

def getTimeQuantum (i : Int) : Int := 2 * i + 4

def getProc (t : Ptable) (pid : Int) : Option Slot :=
  firstSlot (fun p => (t.proc p).pid == pid && (t.proc p).state != .UNUSED)

def clearProc (t : Ptable) (p : Slot) : Except Fault Ptable :=
  if (t.proc p).state = .UNUSED then .ok t
  else do
    let t := t.updProc p (fun x => { x with priority := 3, tq := 0 })
    let t ← erasequeue t (t.proc p).queue p
    pushqueue t 0 p

/-- `schedulerUnlock(password)` with `p = myproc()`. -/
def schedulerUnlock (t : Ptable) (p : Option Slot) (password : Int) : Except Fault Ptable :=
  if password ≠ PASSWORD then
    match p with
    | none => .error .nullDeref
    | some p => .ok (t.updProc p (fun x => { x with killed := true }))
  else if t.lockpid = 0 then .ok t
  else match p with
    | none => .ok { t with lockpid := 0 }
    | some p =>
      if (t.proc p).pid ≠ t.lockpid then .ok t
      else do
        let t ← erasequeue t (t.proc p).queue p
        let t ← pushfrontqueue t 0 p
        let t := t.updProc p (fun x => { x with priority := 3, tq := 0 })
        .ok { t with lockpid := 0 }

/-- `schedulerLock(password)` called by `p`. -/
def schedulerLock (t : Ptable) (p : Slot) (password : Int) : Ptable :=
  if password ≠ PASSWORD then t.updProc p (fun x => { x with killed := true })
  else if t.lockpid ≠ (t.proc p).pid ∧ t.lockpid ≠ 0 then
    t.updProc p (fun x => { x with killed := true })
  else { t with lockpid := (t.proc p).pid, ticks := 0 }

/-- One pass of the inner loop of `boostPriority` over the table. -/
def boostPass (t : Ptable) : Except Fault Ptable := (List.finRange NPROC).foldlM clearProc t

/-- The outer loop of `boostPriority`. -/
def boostLoop : Nat → Ptable → Except Fault Ptable
  | 0, t => .ok t
  | n + 1, t => do boostLoop n (← boostPass t)

/-- `if (ptable.lockpid) schedulerUnlock(PASSWORD)` in `boostPriority`. -/
def boostUnlock (t : Ptable) : Except Fault Ptable :=
  if t.lockpid = 0 then .ok t else schedulerUnlock t none PASSWORD

def boostPriority (t : Ptable) : Except Fault Ptable :=
  boostUnlock { t with ticks := 0 } >>= boostLoop NPROC

/-- The walk of `getProcessToRun` along L0 or L1: the first RUNNABLE process.
The outer `none` is a walk that never ends. -/
def firstRunnable (t : Ptable) : Nat → Option Slot → Option (Option Slot)
  | _, none => some none
  | 0, some _ => none
  | n + 1, some p =>
    if (t.proc p).state = .RUNNABLE then some (some p) else firstRunnable t n (t.next p)

/-- The walk along L2 with the running minimum and the process that gave it. -/
def leastPriority (t : Ptable) : Nat → Option Slot → Int → Option Slot → Option (Option Slot)
  | _, none, _, p => some p
  | 0, some _, _, _ => none
  | n + 1, some tmp, minPriority, p =>
    if (t.proc tmp).state ≠ .RUNNABLE then leastPriority t n (t.next tmp) minPriority p
    else if (t.proc tmp).priority < minPriority then
      leastPriority t n (t.next tmp) (t.proc tmp).priority (some tmp)
    else leastPriority t n (t.next tmp) minPriority p

/-- The three walks of `getProcessToRun`. -/
def pickQueues (t : Ptable) : Except Fault (Option Slot) :=
  match firstRunnable t NPROC (frontqueue t 0) with
  | none => .error .loops
  | some (some p) => .ok (some p)
  | some none =>
    match firstRunnable t NPROC (frontqueue t 1) with
    | none => .error .loops
    | some (some p) => .ok (some p)
    | some none =>
      match leastPriority t NPROC (frontqueue t 2) 4 none with
      | none => .error .loops
      | some p => .ok p

def getProcessToRun (t : Ptable) : Except Fault (Option Slot × Ptable) :=
  if t.lockpid = 0 then do .ok (← pickQueues t, t)
  else match getProc t t.lockpid with
    | none => .error .nullDeref
    | some p =>
      if (t.proc p).state = .RUNNABLE then .ok (some p, t)
      else do
        let t ← schedulerUnlock t none PASSWORD
        .ok (← pickQueues t, t)

def expireTimeQuantum (t : Ptable) (p : Slot) : Except Fault Ptable :=
  let t := t.updProc p (fun x => { x with tq := 0 })
  if (t.proc p).level < NQUEUE - 1 then
    match (t.proc p).queue with
    | none => .error .nullDeref
    | some tmpq =>
      erasequeue t (some tmpq) p >>= fun t =>
        if h : tmpq.val + 1 < NQUEUE then pushqueue t ⟨tmpq.val + 1, h⟩ p else .error .outOfBounds
  else if (t.proc p).priority = 0 then .ok t
  else .ok (t.updProc p (fun x => { x with priority := x.priority - 1 }))

/-- The inner loop of `scheduler`: pick, and expire used up quanta, until a
process with quantum left or none is found. -/
def pickLoop : Nat → Ptable → Except Fault (Option Slot × Ptable)
  | 0, _ => .error .loops
  | n + 1, t => do
    match ← getProcessToRun t with
    | (none, t) => .ok (none, t)
    | (some p, t) =>
      if (t.proc p).tq = getTimeQuantum (t.proc p).level then do
        pickLoop n (← expireTimeQuantum t p)
      else .ok (some p, t)

/-- The round robin of `scheduler` in L0 and L1: to the back of the queue. -/
def roundRobin (t : Ptable) (p : Slot) : Except Fault Ptable :=
  if (t.proc p).level < NQUEUE - 1 then
    match (t.proc p).queue with
    | none => erasequeue t none p
    | some tmp => erasequeue t (some tmp) p >>= fun t => pushqueue t tmp p
  else .ok t

/-- One tick is charged to the process, and the CPU switches to it. -/
def runProc (t : Ptable) (p : Slot) : Except Fault Ptable := do
  let t ← roundRobin (t.updProc p (fun x => { x with tq := x.tq + 1 })) p
  .ok (t.updProc p (fun x => { x with state := .RUNNING }))

/-- One round of `scheduler` up to the switch. -/
def dispatch (t : Ptable) : Except Fault Ptable := do
  match ← pickLoop (NPROC + 1) t with
  | (none, t) => .ok t
  | (some p, t) => runProc t p

def setPriority (t : Ptable) (pid priority : Int) : Ptable :=
  if priority < 0 ∨ priority > 3 then t
  else match getProc t pid with
    | none => t
    | some p => t.updProc p (fun x => { x with priority := priority })

/-- `ptable.queue + level`. -/
def queueAt (level : Int) : Option QIdx :=
  if h : level.toNat < NQUEUE then some ⟨level.toNat, h⟩ else none

def setLevel (t : Ptable) (pid level : Int) : Except Fault Ptable :=
  if level < 0 ∨ level > 3 then .ok t
  else match getProc t pid with
    | none => .ok t
    | some p => do
      let t ← erasequeue t (t.proc p).queue p
      match queueAt level with
      | none => .error .outOfBounds
      | some q => pushqueue t q p

def kill (t : Ptable) (pid : Int) : Ptable :=
  match firstSlot (fun p => (t.proc p).pid == pid) with
  | none => t
  | some p => t.updProc p (fun x =>
      { x with killed := true, state := if x.state = .SLEEPING then .RUNNABLE else x.state })

/-- `sleep(chan, lk)` up to the switch. -/
def sleep (t : Ptable) (p : Slot) (chan : Chan) : Ptable :=
  t.updProc p (fun x => { x with chan := some chan, state := .SLEEPING })

def yield (t : Ptable) (p : Slot) : Ptable := t.updProc p (fun x => { x with state := .RUNNABLE })

/-- The reaping branch of `wait`. -/
def reap (t : Ptable) (p : Slot) : Except Fault Ptable := do
  let t ← erasequeue t (t.proc p).queue p
  .ok (t.updProc p (fun x =>
    { x with
      pid := 0, parent := none, killed := false, state := .UNUSED
      priority := -1, tq := -1 }))

/-- One turn of the loop of `wait` in `cur`: reap the first ZOMBIE child, or
give up, or sleep. -/
def wait (t : Ptable) (cur : Slot) : Except Fault Ptable :=
  match firstSlot (fun p => (t.proc p).parent == some cur && (t.proc p).state == .ZOMBIE) with
  | some p => reap t p
  | none =>
    if (firstSlot (fun p => (t.proc p).parent == some cur)).isNone ∨ (t.proc cur).killed then .ok t
    else .ok (sleep t cur (.proc cur))

/-- `p->parent = initproc` for the children of `cur`. -/
def reparent (t : Ptable) (cur : Slot) : Ptable :=
  { t with proc := fun p =>
      if (t.proc p).parent = some cur then { t.proc p with parent := some t.initproc }
      else t.proc p }

/-- The loop of `exit` that passes abandoned children to `initproc`, waking it
when one of them is a ZOMBIE. -/
def passChildren (t : Ptable) (cur : Slot) : Ptable :=
  if (List.finRange NPROC).any (fun p => (t.proc p).parent == some cur && (t.proc p).state == .ZOMBIE)
  then wakeup1 (reparent t cur) (.proc t.initproc)
  else reparent t cur

/-- `exit` behind the manual unlock: wake the parent, pass the children to
`initproc`, become a ZOMBIE. -/
def exitTail (t : Ptable) (cur : Slot) : Ptable :=
  (passChildren (wakeupProc t (t.proc cur).parent) cur).updProc cur
    (fun x => { x with state := .ZOMBIE })

/-! ## The machine -/

inductive Act where
  | userinit
  | allocproc (cur : Slot)
  | forkFinish (cur np : Slot)
  | forkFail (np : Slot)
  | exitUnlock (cur : Slot)
  | exitTail (cur : Slot)
  | wait (cur : Slot)
  | dispatch
  | expireTimeQuantum (p : Slot)
  | boostPriority
  | unlockSched
  | setPriority (pid priority : Int)
  | schedulerLock (cur : Slot) (password : Int)
  | schedulerUnlock (cur : Slot) (password : Int)
  | setLevel (pid level : Int)
  | sleep (cur : Slot) (chan : Chan)
  | wakeup (chan : Chan)
  | kill (pid : Int)
  | yield (cur : Slot)
  deriving DecidableEq, Repr

/-- `f` on behalf of `cur`, which has to be running. -/
def byProc (t : Ptable) (cur : Slot) (r : Except Fault Ptable) : Except Fault Ptable :=
  if (t.proc cur).state = .RUNNING then r else .error .disabled

def exec (t : Ptable) : Act → Except Fault Ptable
  | .userinit => if t.nextpid = 1 then userinit t else .error .disabled
  | .allocproc cur => byProc t cur ((allocproc t).map Prod.snd)
  | .forkFinish cur np =>
    if (t.proc np).state = .EMBRYO then byProc t cur (.ok (forkFinish t cur np))
    else .error .disabled
  | .forkFail np => if (t.proc np).state = .EMBRYO then .ok (forkFail t np) else .error .disabled
  | .exitUnlock cur =>
    byProc t cur (if t.lockpid = (t.proc cur).pid then schedulerUnlock t (some cur) PASSWORD else .ok t)
  | .exitTail cur => if cur = t.initproc then .error (.panic "init exiting")
    else byProc t cur (.ok (exitTail t cur))
  | .wait cur => byProc t cur (wait t cur)
  | .dispatch => dispatch t
  | .expireTimeQuantum p =>
    if (t.proc p).state = .RUNNABLE then expireTimeQuantum t p else .error .disabled
  | .boostPriority => boostPriority t
  | .unlockSched => schedulerUnlock t none PASSWORD
  | .setPriority pid priority => .ok (setPriority t pid priority)
  | .schedulerLock cur password => byProc t cur (.ok (schedulerLock t cur password))
  | .schedulerUnlock cur password => byProc t cur (schedulerUnlock t (some cur) password)
  | .setLevel pid level => setLevel t pid level
  | .sleep cur chan => byProc t cur (.ok (sleep t cur chan))
  | .wakeup chan => .ok (wakeup1 t chan)
  | .kill pid => .ok (kill t pid)
  | .yield cur => byProc t cur (.ok (yield t cur))

def step (t : Ptable) (a : Act) : Option Ptable := (exec t a).toOption

end Xv6.Mlfq
