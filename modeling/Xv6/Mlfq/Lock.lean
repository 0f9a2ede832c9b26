import Xv6.Mlfq.Sched

/- The scheduler lock of the MLFQ scheduler (`schedulerLock`, `schedulerUnlock`) on one
   CPU. `exit`, `boostPriority` and `getProcessToRun` drop `ptable.lock` around a call of
   `schedulerUnlock`; what each of them does with the lock held is a step of its own,
   and between two steps of `exit` a timer interrupt can switch to the scheduler and
   from there to another process. Interrupt handlers can wake processes between any
   two steps.

   `LockInv` says that `lockpid` names a process that can still run and that the
   scheduler, having found it not `RUNNABLE`, has cleared it before it looks at the
   queues. It is kept by every step but one: `setLevel` lets the level 3 pass, and the
   `struct queue` that is not there has `lockpid` as its `front`, so that `pushqueue`
   writes the address of the process over it (`setLevel_takes_lock`). -/
namespace Xv6.Mlfq

/-! ## The machine -/

/-- Where the scheduler is. `pickUnlock`, `pickRest`: in `getProcessToRun`, before and
behind its call of `schedulerUnlock`. `boostUnlock`, `boostRest`: the same in
`boostPriority`. -/
inductive SchedPc where
  | top
  | pickUnlock
  | pickRest
  | boostUnlock
  | boostRest
  deriving DecidableEq, Repr

/-- Where a process is in `exit`, once it has found that it holds the scheduler lock:
before and behind its call of `schedulerUnlock`. -/
inductive ExitPc where
  | out
  | unlock
  | tail
  deriving DecidableEq, Repr

/-- The memory around the process table: `addr p` is the address of `ptable.proc[p]` as an
`int`, and the three words behind `lockpid` are what `ptable.queue + 3` has besides its
`front`. -/
structure Words where
  addr : Slot → Int
  back : Int
  level : Int
  size : Int

/-- One CPU: `cur` is `c->proc`, and with no current process the scheduler is at
`pc`. `astray` is a process whose `queue` is `ptable.queue + 3`. -/
structure Core where
  t : Ptable
  cur : Option Slot
  pc : SchedPc
  exit : Slot → ExitPc
  words : Words
  astray : Option Slot

/-- What the current process does with the lock held. -/
inductive ProcCall where
  | allocproc
  | forkFinish (np : Slot)
  | forkFail (np : Slot)
  | wait
  | setPriority (pid priority : Int)
  | schedulerLock (password : Int)
  | schedulerUnlock (password : Int)
  | setLevel (pid level : Int)
  | kill (pid : Int)
  | sleep (chan : Chan)
  | yield
  | exit
  | exitUnlock
  | exitTail
  deriving DecidableEq, Repr

inductive CoreAct where
  | userinit
  | choose
  | pickUnlock
  | pickRest
  | boost
  | boostUnlock
  | boostRest
  | wakeup (chan : Chan)
  | call (k : ProcCall)
  deriving DecidableEq, Repr

namespace Core

def setExit (m : Core) (p : Slot) (pc : ExitPc) : Core :=
  { m with exit := fun q => if q = p then pc else m.exit q }

/-- The end of a round of `scheduler`: the process it has chosen runs. -/
def switchTo (m : Core) (r : Except Fault (Option Slot × Ptable)) : Except Fault Core := do
  match ← r with
  | (none, t) => .ok { m with t := t, pc := .top }
  | (some p, t) => do
    let t ← runProc t p
    .ok { m with t := t, cur := some p, pc := .top }

/-- A round of `scheduler`, up to the point where `getProcessToRun` drops the lock
because the process that has locked the scheduler is not `RUNNABLE`. -/
def choose (m : Core) : Except Fault Core :=
  if m.t.lockpid = 0 then m.switchTo (pickLoop (NPROC + 1) m.t)
  else match getProc m.t m.t.lockpid with
    | none => .error .nullDeref
    | some p =>
      if (m.t.proc p).state = .RUNNABLE then m.switchTo (pickLoop (NPROC + 1) m.t)
      else .ok { m with pc := .pickUnlock }

/-- `getProcessToRun` behind `schedulerUnlock`, and the rest of the round. -/
def pickRest (t : Ptable) : Except Fault (Option Slot × Ptable) := do
  match ← pickQueues t with
  | none => .ok (none, t)
  | some p =>
    if (t.proc p).tq = getTimeQuantum (t.proc p).level then do
      pickLoop (NPROC + 1) (← expireTimeQuantum t p)
    else .ok (some p, t)

/-- `boostPriority` up to the point where it drops the lock, or to its end if the
scheduler is not locked. -/
def boost (m : Core) : Except Fault Core :=
  if m.t.lockpid = 0 then do
    let t ← boostLoop NPROC { m.t with ticks := 0 }
    .ok { m with t := t }
  else .ok { m with t := { m.t with ticks := 0 }, pc := .boostUnlock }

/-- `exit` from its `acquire` on. -/
def exitStart (m : Core) (p : Slot) : Core :=
  if m.t.lockpid = (m.t.proc p).pid then m.setExit p .unlock
  else { m with t := exitTail m.t p, cur := none }

/-- `pushqueue(ptable.queue + 3, p)`. A `back` that is not NULL is followed, wherever it
points to. -/
def pushAstray (m : Core) (p : Slot) : Except Fault Core :=
  if m.words.back ≠ 0 then .error .outOfBounds
  else .ok { m with
    t := { m.t.updProc p (fun x => { x with level := m.words.level, prev := none, next := none }) with
      lockpid := m.words.addr p }
    words := { m.words with back := m.words.addr p, size := m.words.size + 1 }
    astray := some p }

/-- `setLevel`, with the level that its check lets pass and that is none. -/
def setLevel (m : Core) (pid level : Int) : Except Fault Core :=
  if level = NQUEUE then
    match getProc m.t pid with
    | none => .ok m
    | some q => do
      let t ← erasequeue m.t (m.t.proc q).queue q
      { m with t := t }.pushAstray q
  else do
    let t ← Mlfq.setLevel m.t pid level
    .ok { m with t := t }

/-- The current process `p` goes on. A process in `exit` makes no other call, but it
can lose the CPU. -/
def call (m : Core) (p : Slot) (k : ProcCall) : Except Fault Core :=
  match k, m.exit p with
  | .yield, _ => .ok { m with t := yield m.t p, cur := none }
  | .exitUnlock, .unlock => do
    let t ← schedulerUnlock m.t (some p) PASSWORD
    .ok ({ m with t := t }.setExit p .tail)
  | .exitTail, .tail => .ok ({ m with t := exitTail m.t p, cur := none }.setExit p .out)
  | .allocproc, .out => do
    let r ← allocproc m.t
    .ok { m with t := r.2 }
  | .forkFinish np, .out =>
    if (m.t.proc np).state = .EMBRYO then .ok { m with t := forkFinish m.t p np }
    else .error .disabled
  | .forkFail np, .out =>
    if (m.t.proc np).state = .EMBRYO then .ok { m with t := forkFail m.t np } else .error .disabled
  | .wait, .out => do
    let t ← wait m.t p
    .ok { m with t := t, cur := if (t.proc p).state = .RUNNING then some p else none }
  | .setPriority pid priority, .out => .ok { m with t := setPriority m.t pid priority }
  | .schedulerLock password, .out => .ok { m with t := schedulerLock m.t p password }
  | .schedulerUnlock password, .out => do
    let t ← schedulerUnlock m.t (some p) password
    .ok { m with t := t }
  | .setLevel pid level, .out => m.setLevel pid level
  | .kill pid, .out => .ok { m with t := kill m.t pid }
  | .sleep chan, .out => .ok { m with t := sleep m.t p chan, cur := none }
  | .exit, .out =>
    if p = m.t.initproc then .error (.panic "init exiting") else .ok (m.exitStart p)
  | _, _ => .error .disabled

end Core

def coreExec (m : Core) : CoreAct → Except Fault Core
  | .userinit => do
    if m.t.nextpid = 1 then
      let t ← userinit m.t
      .ok { m with t := t }
    else .error .disabled
  | .wakeup chan => .ok { m with t := wakeup1 m.t chan }
  | .choose => if m.cur = none ∧ m.pc = .top then m.choose else .error .disabled
  | .pickUnlock =>
    if m.cur = none ∧ m.pc = .pickUnlock then do
      let t ← schedulerUnlock m.t none PASSWORD
      .ok { m with t := t, pc := .pickRest }
    else .error .disabled
  | .pickRest =>
    if m.cur = none ∧ m.pc = .pickRest then m.switchTo (Core.pickRest m.t) else .error .disabled
  | .boost => if m.cur = none ∧ m.pc = .top then m.boost else .error .disabled
  | .boostUnlock =>
    if m.cur = none ∧ m.pc = .boostUnlock then do
      let t ← schedulerUnlock m.t none PASSWORD
      .ok { m with t := t, pc := .boostRest }
    else .error .disabled
  | .boostRest =>
    if m.cur = none ∧ m.pc = .boostRest then do
      let t ← boostLoop NPROC m.t
      .ok { m with t := t, pc := .top }
    else .error .disabled
  | .call k =>
    match m.cur with
    | some p => m.call p k
    | none => .error .disabled

/-- With a process astray only its way back to the scheduler is followed. -/
def coreStep (m : Core) (a : CoreAct) : Option Core :=
  if m.astray = none ∨ a = .call .yield then (coreExec m a).toOption else none

/-- The machine after `pinit`. -/
def coreBoot (w : Words) : Core where
  t := pinit
  cur := none
  pc := .top
  exit := fun _ => .out
  words := w
  astray := none

/-- `setLevel` with the pid of a process and a level that is none. -/
def Core.WrongLevel (m : Core) : CoreAct → Prop
  | .call (.setLevel pid level) => level = NQUEUE ∧ (getProc m.t pid).isSome
  | _ => False

instance Core.WrongLevel.decidable (m : Core) (a : CoreAct) : Decidable (m.WrongLevel a) := by
  unfold Core.WrongLevel
  split <;> infer_instance

/-! ## Who is who -/

/-- The same processes in the same states, and the same lock. -/
structure SameIds (t t' : Ptable) : Prop where
  lockpid : t'.lockpid = t.lockpid
  nextpid : t'.nextpid = t.nextpid
  pid : ∀ p, (t'.proc p).pid = (t.proc p).pid
  state : ∀ p, (t'.proc p).state = (t.proc p).state

theorem SameIds.refl (t : Ptable) : SameIds t t := ⟨rfl, rfl, fun _ => rfl, fun _ => rfl⟩

theorem SameIds.trans {t u v : Ptable} (h : SameIds t u) (h' : SameIds u v) : SameIds t v :=
  ⟨h'.lockpid.trans h.lockpid, h'.nextpid.trans h.nextpid, fun p => (h'.pid p).trans (h.pid p),
    fun p => (h'.state p).trans (h.state p)⟩

theorem SameIds.updProc {t u : Ptable} (h : SameIds t u) (p : Slot) {f : Proc → Proc}
    (hp : ∀ x, (f x).pid = x.pid) (hs : ∀ x, (f x).state = x.state) : SameIds t (u.updProc p f) := by
  refine ⟨h.lockpid, h.nextpid, fun r => ?_, fun r => ?_⟩
  · rw [Ptable.updProc_proc]
    split
    · rw [hp]; exact h.pid r
    · exact h.pid r
  · rw [Ptable.updProc_proc]
    split
    · rw [hs]; exact h.state r
    · exact h.state r

theorem SameIds.links {t u : Ptable} (h : SameIds t u) (p : Slot) {f : Proc → Proc}
    (hf : ∀ x, (f x).pid = x.pid ∧ (f x).state = x.state) : SameIds t (u.updProc p f) :=
  h.updProc p (fun x => (hf x).1) (fun x => (hf x).2)

theorem SameIds.updQueue {t u : Ptable} (h : SameIds t u) (q : QIdx) (f : Queue → Queue) :
    SameIds t (u.updQueue q f) := ⟨h.lockpid, h.nextpid, h.pid, h.state⟩

theorem SameIds.clearLinks {t u : Ptable} (h : SameIds t u) (p : Slot) : SameIds t (u.clearLinks p) :=
  h.links p (fun _ => by exact ⟨rfl, rfl⟩)

/-- A computation that succeeds in two parts. -/
theorem bind_ok {α β : Type} {r : Except Fault α} {f : α → Except Fault β} {b : β}
    (h : (r >>= f) = .ok b) : ∃ a, r = .ok a ∧ f a = .ok b := by
  cases r with
  | error e => cases h
  | ok a => exact ⟨a, rfl, h⟩

section Frames

variable {t t' : Ptable} {p : Slot} {q : QIdx}

theorem unlink_ids (h : unlink t q p = .ok t') : SameIds t t' := by
  unfold unlink at h
  split at h
  · cases h
    exact ((SameIds.refl t).updQueue q _).clearLinks p
  · split at h
    · split at h <;> cases h
      exact (((SameIds.refl t).updQueue q _).links _ (fun _ => by exact ⟨rfl, rfl⟩)).clearLinks p
    · split at h
      · split at h <;> cases h
        exact (((SameIds.refl t).updQueue q _).links _ (fun _ => by exact ⟨rfl, rfl⟩)).clearLinks p
      · split at h <;> cases h
        exact (((SameIds.refl t).links _ (fun _ => by exact ⟨rfl, rfl⟩)).links _
          (fun _ => by exact ⟨rfl, rfl⟩)).clearLinks p

theorem erasequeue_ids {q : Option QIdx} (h : erasequeue t q p = .ok t') : SameIds t t' := by
  unfold erasequeue at h
  split at h
  · cases h
  · split at h
    · cases h
      exact SameIds.refl t
    · split at h <;> try cases h
      exact (((SameIds.refl t).links p (fun _ => by exact ⟨rfl, rfl⟩)).updQueue _ _).trans (unlink_ids h)

theorem pushqueue_ids (h : pushqueue t q p = .ok t') : SameIds t t' := by
  unfold pushqueue at h
  split at h
  · cases h
  · simp only at h
    split at h <;> cases h
    · exact (((((SameIds.refl t).links p (fun _ => by exact ⟨rfl, rfl⟩)).updQueue q _).links p
        (fun _ => by exact ⟨rfl, rfl⟩)).updQueue q _).clearLinks p
    · exact (((((SameIds.refl t).links p (fun _ => by exact ⟨rfl, rfl⟩)).updQueue q _).links p
        (fun _ => by exact ⟨rfl, rfl⟩)).links _ (fun _ => by exact ⟨rfl, rfl⟩)).links p
          (fun _ => by exact ⟨rfl, rfl⟩) |>.updQueue q _

theorem pushfrontqueue_ids (h : pushfrontqueue t q p = .ok t') : SameIds t t' := by
  unfold pushfrontqueue at h
  split at h
  · cases h
  · simp only at h
    split at h
    · cases h
      exact (((SameIds.refl t).links p (fun _ => by exact ⟨rfl, rfl⟩)).updQueue q _).clearLinks p
    · split at h <;> cases h
      · exact (((((SameIds.refl t).links p (fun _ => by exact ⟨rfl, rfl⟩)).updQueue q _).updQueue q _).links _
          (fun _ => by exact ⟨rfl, rfl⟩)).links p (fun _ => by exact ⟨rfl, rfl⟩)
      · exact (((((SameIds.refl t).links p (fun _ => by exact ⟨rfl, rfl⟩)).updQueue q _).links p
          (fun _ => by exact ⟨rfl, rfl⟩)).updQueue q _).links _ (fun _ => by exact ⟨rfl, rfl⟩)

/-- The process leaves its queue and goes to another one. -/
theorem requeue_ids {q₀ : Option QIdx}
    (h : (erasequeue t q₀ p >>= fun t => pushqueue t q p) = .ok t') : SameIds t t' := by
  obtain ⟨u, h1, h2⟩ := bind_ok h
  exact (erasequeue_ids h1).trans (pushqueue_ids h2)

theorem clearProc_ids (h : clearProc t p = .ok t') : SameIds t t' := by
  unfold clearProc at h
  split at h
  · cases h
    exact SameIds.refl t
  · exact ((SameIds.refl t).links p (fun _ => by exact ⟨rfl, rfl⟩)).trans (requeue_ids h)

theorem boostPass_ids (h : boostPass t = .ok t') : SameIds t t' := by
  have hfold : ∀ (l : List Slot) (t t' : Ptable), l.foldlM clearProc t = .ok t' → SameIds t t' := by
    intro l
    induction l with
    | nil =>
      intro t t' h
      cases h
      exact SameIds.refl t
    | cons p l ih =>
      intro t t' h
      rw [List.foldlM_cons] at h
      obtain ⟨u, h1, h2⟩ := bind_ok h
      exact (clearProc_ids h1).trans (ih u t' h2)
  exact hfold _ t t' h

theorem boostLoop_ids : ∀ (n : Nat) (t t' : Ptable), boostLoop n t = .ok t' → SameIds t t' := by
  intro n
  induction n with
  | zero =>
    intro t t' h
    cases h
    exact SameIds.refl t
  | succ n ih =>
    intro t t' h
    obtain ⟨u, h1, h2⟩ := bind_ok h
    exact (boostPass_ids h1).trans (ih u t' h2)

theorem expireTimeQuantum_ids (h : expireTimeQuantum t p = .ok t') : SameIds t t' := by
  have h0 : SameIds t (t.updProc p (fun x => { x with tq := 0 })) :=
    (SameIds.refl t).links p (fun _ => by exact ⟨rfl, rfl⟩)
  unfold expireTimeQuantum at h
  simp only at h
  split at h
  · split at h
    · cases h
    · obtain ⟨u, h1, h2⟩ := bind_ok h
      split at h2
      · exact (h0.trans (erasequeue_ids h1)).trans (pushqueue_ids h2)
      · cases h2
  · split at h <;> cases h
    · exact h0
    · exact h0.links p (fun _ => by exact ⟨rfl, rfl⟩)

theorem roundRobin_ids (h : roundRobin t p = .ok t') : SameIds t t' := by
  unfold roundRobin at h
  split at h
  · split at h
    · exact erasequeue_ids h
    · exact requeue_ids h
  · cases h
    exact SameIds.refl t

/-- `getProc` finds a process by what `SameIds` keeps. -/
theorem SameIds.getProc (h : SameIds t t') (pid : Int) : getProc t' pid = getProc t pid := by
  have hf : (fun p => (t'.proc p).pid == pid && (t'.proc p).state != .UNUSED) =
      fun p => (t.proc p).pid == pid && (t.proc p).state != .UNUSED := by
    funext p
    rw [h.pid p, h.state p]
  unfold Mlfq.getProc
  rw [hf]

theorem firstRunnable_runnable : ∀ (n : Nat) (s : Option Slot), firstRunnable t n s = some (some p) →
    (t.proc p).state = .RUNNABLE := by
  intro n
  induction n with
  | zero =>
    intro s h
    cases s <;> cases h
  | succ n ih =>
    intro s h
    cases s with
    | none => cases h
    | some r =>
      simp only [firstRunnable] at h
      split at h
      · cases h
        assumption
      · exact ih _ h

theorem leastPriority_runnable : ∀ (n : Nat) (s : Option Slot) (k : Int) (r : Option Slot),
    (∀ x, r = some x → (t.proc x).state = .RUNNABLE) → leastPriority t n s k r = some (some p) →
    (t.proc p).state = .RUNNABLE := by
  intro n
  induction n with
  | zero =>
    intro s k r hr h
    cases s with
    | none =>
      simp only [leastPriority, Option.some.injEq] at h
      exact hr p h
    | some x => cases h
  | succ n ih =>
    intro s k r hr h
    cases s with
    | none =>
      simp only [leastPriority, Option.some.injEq] at h
      exact hr p h
    | some x =>
      simp only [leastPriority] at h
      split at h
      · exact ih _ _ _ hr h
      · rename_i hx
        split at h
        · refine ih _ _ _ (fun y hy => ?_) h
          cases hy
          exact not_not.mp hx
        · exact ih _ _ _ hr h

theorem pickQueues_runnable (h : pickQueues t = .ok (some p)) : (t.proc p).state = .RUNNABLE := by
  unfold pickQueues at h
  split at h
  · cases h
  · rename_i r hr
    cases h
    exact firstRunnable_runnable _ _ hr
  · split at h
    · cases h
    · rename_i r hr
      cases h
      exact firstRunnable_runnable _ _ hr
    · split at h
      · cases h
      · rename_i r hr
        cases h
        exact leastPriority_runnable _ _ _ _ (fun _ hx => by cases hx) hr

/-- The choice of the scheduler while it is not locked. -/
theorem pickLoop_unlocked : ∀ (n : Nat) (t t' : Ptable) (r : Option Slot), t.lockpid = 0 →
    pickLoop n t = .ok (r, t') → SameIds t t' ∧ ∀ p, r = some p → (t'.proc p).state = .RUNNABLE := by
  intro n
  induction n with
  | zero => intro t t' r _ h; cases h
  | succ n ih =>
    intro t t' r hl h
    simp only [pickLoop, getProcessToRun, if_pos hl] at h
    obtain ⟨x, h1, h2⟩ := bind_ok h
    obtain ⟨y, hy, h1⟩ := bind_ok h1
    cases h1
    cases y with
    | none =>
      cases h2
      exact ⟨SameIds.refl t, fun _ hp => by cases hp⟩
    | some p =>
      simp only at h2
      split at h2
      · obtain ⟨u, h3, h4⟩ := bind_ok h2
        have hids := expireTimeQuantum_ids h3
        obtain ⟨h5, h6⟩ := ih u t' r (hids.lockpid.trans hl) h4
        exact ⟨hids.trans h5, h6⟩
      · cases h2
        refine ⟨SameIds.refl t, fun q hq => ?_⟩
        cases hq
        exact pickQueues_runnable hy

/-- The choice of the scheduler while a process that is `RUNNABLE` has locked it. -/
theorem pickLoop_locked : ∀ (n : Nat) (t t' : Ptable) (r : Option Slot), t.lockpid ≠ 0 →
    getProc t t.lockpid = some p → (t.proc p).state = .RUNNABLE → pickLoop n t = .ok (r, t') →
    SameIds t t' ∧ r = some p := by
  intro n
  induction n with
  | zero => intro t t' r _ _ _ h; cases h
  | succ n ih =>
    intro t t' r hl hp hs h
    simp only [pickLoop, getProcessToRun, if_neg hl, hp, if_pos hs] at h
    obtain ⟨x, h1, h2⟩ := bind_ok h
    cases h1
    simp only at h2
    split at h2
    · obtain ⟨u, h3, h4⟩ := bind_ok h2
      have hids := expireTimeQuantum_ids h3
      have hp' : getProc u u.lockpid = some p := by
        rw [hids.getProc, hids.lockpid]
        exact hp
      obtain ⟨h5, h6⟩ := ih u t' r (by rw [hids.lockpid]; exact hl) hp'
        ((hids.state p).trans hs) h4
      exact ⟨hids.trans h5, h6⟩
    · cases h2
      exact ⟨SameIds.refl t, rfl⟩

end Frames

/-! ## The invariant -/

/-- A process that has started and not ended. -/
def Proc.Awake (x : Proc) : Prop := x.state = .RUNNABLE ∨ x.state = .RUNNING ∨ x.state = .SLEEPING

structure LockInv (m : Core) : Prop where
  pos : ∀ p, (m.t.proc p).state ≠ .UNUSED → 0 < (m.t.proc p).pid ∧ (m.t.proc p).pid < m.t.nextpid
  uniq : ∀ p q, (m.t.proc p).state ≠ .UNUSED → (m.t.proc q).state ≠ .UNUSED →
    (m.t.proc p).pid = (m.t.proc q).pid → p = q
  next : 0 < m.t.nextpid
  lock : m.t.lockpid = 0 ∨ ∃ p, (m.t.proc p).pid = m.t.lockpid ∧ (m.t.proc p).Awake
  run : ∀ p, (m.t.proc p).state = .RUNNING ↔ m.cur = some p
  idle : m.cur ≠ none → m.pc = .top
  cleared : m.pc = .pickRest ∨ m.pc = .boostRest → m.t.lockpid = 0
  exit : ∀ p, m.exit p ≠ .out → (m.t.proc p).state = .RUNNABLE ∨ (m.t.proc p).state = .RUNNING
  tail : ∀ p, m.exit p = .tail → m.t.lockpid ≠ (m.t.proc p).pid

theorem Proc.Awake.used {x : Proc} (h : x.Awake) : x.state ≠ .UNUSED := by
  rcases h with h | h | h <;> simp [h]

section Rules

variable {m m' : Core} {p : Slot}

/-- Processes change their states, and nothing else that matters. -/
theorem LockInv.states (h : LockInv m) (hl : m'.t.lockpid = m.t.lockpid)
    (hn : m'.t.nextpid = m.t.nextpid)
    (hused : ∀ q, (m'.t.proc q).state ≠ .UNUSED →
      (m.t.proc q).state ≠ .UNUSED ∧ (m'.t.proc q).pid = (m.t.proc q).pid)
    (hawake : ∀ q, (m.t.proc q).Awake → (m.t.proc q).pid = m.t.lockpid → (m'.t.proc q).Awake)
    (hrun : ∀ q, (m'.t.proc q).state = .RUNNING ↔ m'.cur = some q)
    (hidle : m'.cur ≠ none → m'.pc = .top)
    (hpc : m'.pc = .pickRest ∨ m'.pc = .boostRest → m.t.lockpid = 0)
    (hexit : ∀ q, m'.exit q ≠ .out →
      (m'.t.proc q).state = .RUNNABLE ∨ (m'.t.proc q).state = .RUNNING)
    (htail : ∀ q, m'.exit q = .tail → m.t.lockpid ≠ (m.t.proc q).pid) : LockInv m' := by
  constructor
  · intro q hq
    obtain ⟨h1, h2⟩ := hused q hq
    rw [h2, hn]
    exact h.pos q h1
  · intro q r hq hr he
    obtain ⟨h1, h2⟩ := hused q hq
    obtain ⟨h3, h4⟩ := hused r hr
    rw [h2, h4] at he
    exact h.uniq q r h1 h3 he
  · rw [hn]
    exact h.next
  · rw [hl]
    rcases h.lock with h0 | ⟨q, hq, ha⟩
    · exact .inl h0
    · have ha' := hawake q ha hq
      exact .inr ⟨q, (hused q ha'.used).2.trans hq, ha'⟩
  · exact hrun
  · exact hidle
  · rw [hl]
    exact hpc
  · exact hexit
  · intro q hq
    have hu : (m'.t.proc q).state ≠ .UNUSED := by
      rcases hexit q (by simp [hq]) with hs | hs <;> simp [hs]
    rw [hl, (hused q hu).2]
    exact htail q hq

/-- Nothing that matters changes in the table. -/
theorem LockInv.same (h : LockInv m) (ht : SameIds m.t m'.t) (hc : m'.cur = m.cur)
    (he : m'.exit = m.exit) (hidle : m'.cur ≠ none → m'.pc = .top)
    (hpc : m'.pc = .pickRest ∨ m'.pc = .boostRest → m.t.lockpid = 0) : LockInv m' := by
  refine h.states ht.lockpid ht.nextpid ?_ ?_ ?_ hidle hpc ?_ ?_
  · intro q hq
    rw [ht.state q] at hq
    exact ⟨hq, ht.pid q⟩
  · intro q ha _
    unfold Proc.Awake
    rw [ht.state q]
    exact ha
  · intro q
    rw [ht.state q, hc]
    exact h.run q
  · intro q hq
    rw [ht.state q]
    rw [he] at hq
    exact h.exit q hq
  · intro q hq
    rw [he] at hq
    exact h.tail q hq

/-- The scheduler lock is taken or given up. -/
theorem LockInv.relock (h : LockInv m) {l : Int} {t : Ptable} (ht : SameIds m.t t)
    (hl : l = 0 ∨ ∃ p, (m.t.proc p).pid = l ∧ (m.t.proc p).Awake ∧ m.exit p ≠ .tail)
    (hpc : l ≠ 0 → m.cur ≠ none) :
    LockInv { m with t := { t with lockpid := l } } := by
  constructor
  · intro q hq
    show 0 < (t.proc q).pid ∧ (t.proc q).pid < t.nextpid
    rw [ht.pid q, ht.nextpid]
    exact h.pos q (ht.state q ▸ hq)
  · intro q r hq hr he
    have he' : (t.proc q).pid = (t.proc r).pid := he
    rw [ht.pid q, ht.pid r] at he'
    exact h.uniq q r (ht.state q ▸ hq) (ht.state r ▸ hr) he'
  · show 0 < t.nextpid
    rw [ht.nextpid]
    exact h.next
  · rcases hl with hl | ⟨p, hp, ha, -⟩
    · exact .inl hl
    · refine .inr ⟨p, ?_, ?_⟩
      · show (t.proc p).pid = l
        rw [ht.pid p]
        exact hp
      · show (t.proc p).Awake
        unfold Proc.Awake
        rw [ht.state p]
        exact ha
  · intro q
    show (t.proc q).state = .RUNNING ↔ _
    rw [ht.state q]
    exact h.run q
  · exact h.idle
  · intro hp
    show l = 0
    by_contra hl0
    have htop := h.idle (hpc hl0)
    rcases hp with hp | hp <;> simp [htop] at hp
  · intro q hq
    show (t.proc q).state = .RUNNABLE ∨ (t.proc q).state = .RUNNING
    rw [ht.state q]
    exact h.exit q hq
  · intro q hq
    show l ≠ (t.proc q).pid
    rw [ht.pid q]
    have hq' : m.exit q = .tail := hq
    have hu : (m.t.proc q).state ≠ .UNUSED := by
      rcases h.exit q (by simp [hq']) with hs | hs <;> simp [hs]
    rcases hl with hl | ⟨p, hp, ha, hx⟩
    · rw [hl]
      have := (h.pos q hu).1
      omega
    · intro he
      have hpq := h.uniq p q ha.used hu (hp.trans he)
      exact hx (hpq ▸ hq)

end Rules

/-! ## Steps -/

section Steps

variable {m m' : Core} {t t' : Ptable} {p : Slot}

/-- `schedulerUnlock` clears the lock, for the scheduler or for the process that holds
it, or leaves it alone. -/
theorem schedulerUnlock_spec {c : Option Slot} {password : Int}
    (h : schedulerUnlock t c password = .ok t') :
    SameIds t t' ∧ (c = none → t'.lockpid = 0) ∨
      t.lockpid ≠ 0 ∧ (∀ q, c = some q → (t.proc q).pid = t.lockpid) ∧
        ∃ u, SameIds t u ∧ t' = { u with lockpid := 0 } := by
  unfold schedulerUnlock at h
  split at h
  · split at h <;> cases h
    exact .inl ⟨(SameIds.refl t).links _ (fun _ => by exact ⟨rfl, rfl⟩), fun hc => by cases hc⟩
  · split at h
    · rename_i h0
      cases h
      exact .inl ⟨SameIds.refl t, fun _ => h0⟩
    · rename_i h0
      split at h
      · cases h
        exact .inr ⟨h0, fun q hq => (by cases hq), t, SameIds.refl t, rfl⟩
      · rename_i q
        split at h
        · cases h
          exact .inl ⟨SameIds.refl t, fun hc => by cases hc⟩
        · rename_i hpid
          obtain ⟨u, h1, h2⟩ := bind_ok h
          obtain ⟨v, h3, h4⟩ := bind_ok h2
          cases h4
          refine .inr ⟨h0, fun r hr => ?_, _, ((erasequeue_ids h1).trans
            (pushfrontqueue_ids h3)).links q (fun _ => by exact ⟨rfl, rfl⟩), rfl⟩
          cases hr
          exact not_not.mp hpid

theorem setLevel_ids {pid level : Int} (h : setLevel t pid level = .ok t') : SameIds t t' := by
  unfold setLevel at h
  split at h
  · cases h
    exact SameIds.refl t
  · split at h
    · cases h
      exact SameIds.refl t
    · obtain ⟨u, h1, h2⟩ := bind_ok h
      split at h2
      · cases h2
      · exact (erasequeue_ids h1).trans (pushqueue_ids h2)

theorem setPriority_ids (t : Ptable) (pid priority : Int) : SameIds t (setPriority t pid priority) := by
  unfold setPriority
  split
  · exact SameIds.refl t
  · split
    · exact SameIds.refl t
    · exact (SameIds.refl t).links _ (fun _ => by exact ⟨rfl, rfl⟩)

/-- A `SLEEPING` process may have become `RUNNABLE`. -/
def Woken (t t' : Ptable) : Prop :=
  t'.lockpid = t.lockpid ∧ t'.nextpid = t.nextpid ∧ ∀ p, (t'.proc p).pid = (t.proc p).pid ∧
    ((t'.proc p).state = (t.proc p).state ∨
      (t.proc p).state = .SLEEPING ∧ (t'.proc p).state = .RUNNABLE)

theorem wakeup1_woken (t : Ptable) (chan : Chan) : Woken t (wakeup1 t chan) := by
  refine ⟨rfl, rfl, fun p => ?_⟩
  simp only [wakeup1]
  split
  · rename_i hs
    exact ⟨rfl, .inr ⟨hs.1, rfl⟩⟩
  · exact ⟨rfl, .inl rfl⟩

theorem kill_woken (t : Ptable) (pid : Int) : Woken t (kill t pid) := by
  unfold kill
  split
  · exact ⟨rfl, rfl, fun _ => ⟨rfl, .inl rfl⟩⟩
  · rename_i r _
    refine ⟨rfl, rfl, fun p => ?_⟩
    rw [Ptable.updProc_proc]
    split
    · refine ⟨rfl, ?_⟩
      by_cases hs : (t.proc p).state = .SLEEPING
      · exact .inr ⟨hs, by simp [hs]⟩
      · exact .inl (by simp [hs])
    · exact ⟨rfl, .inl rfl⟩

theorem Woken.trans {t'' : Ptable} (h : Woken t t') (h' : Woken t' t'') : Woken t t'' := by
  obtain ⟨h1, h2, h3⟩ := h
  obtain ⟨h4, h5, h6⟩ := h'
  refine ⟨h4.trans h1, h5.trans h2, fun p => ⟨(h6 p).1.trans (h3 p).1, ?_⟩⟩
  rcases (h3 p).2 with ha | ⟨ha, hb⟩ <;> rcases (h6 p).2 with hc | ⟨hc, hd⟩
  · exact .inl (hc.trans ha)
  · exact .inr ⟨ha ▸ hc, hd⟩
  · exact .inr ⟨ha, hc.trans hb⟩
  · exact .inr ⟨ha, hd⟩

theorem LockInv.woken (h : LockInv m) (hw : Woken m.t t) : LockInv { m with t := t } := by
  obtain ⟨hl, hn, hs⟩ := hw
  refine h.states hl hn ?_ ?_ ?_ h.idle h.cleared ?_ h.tail
  · intro q hq
    refine ⟨fun hu => hq ?_, (hs q).1⟩
    rcases (hs q).2 with he | ⟨he, -⟩
    · exact he.trans hu
    · rw [hu] at he
      cases he
  · intro q ha _
    rcases (hs q).2 with he | ⟨-, he⟩
    · unfold Proc.Awake
      rw [he]
      exact ha
    · exact .inl he
  · intro q
    rw [← h.run q]
    rcases (hs q).2 with he | ⟨he, he'⟩
    · show (t.proc q).state = .RUNNING ↔ _
      rw [he]
    · show (t.proc q).state = .RUNNING ↔ _
      rw [he, he']
      simp
  · intro q hq
    rcases (hs q).2 with he | ⟨-, he⟩
    · show (t.proc q).state = .RUNNABLE ∨ (t.proc q).state = .RUNNING
      rw [he]
      exact h.exit q hq
    · exact .inl he

/-- The current process leaves the CPU in the state `s`. -/
theorem LockInv.leave (h : LockInv m) (hc : m.cur = some p) {s : ProcState} (hs : s ≠ .RUNNING)
    {e : Slot → ExitPc} (he : ∀ q, q ≠ p → e q = m.exit q)
    (hep : e p ≠ .out → s = .RUNNABLE ∧ (e p = .tail → m.exit p = .tail))
    (hz : s = .RUNNABLE ∨ s = .SLEEPING ∨ m.t.lockpid ≠ (m.t.proc p).pid)
    (hl : t.lockpid = m.t.lockpid) (hn : t.nextpid = m.t.nextpid)
    (hpid : ∀ q, (t.proc q).pid = (m.t.proc q).pid) (hst : (t.proc p).state = s)
    (hw : ∀ q, q ≠ p → (t.proc q).state = (m.t.proc q).state ∨
      (m.t.proc q).state = .SLEEPING ∧ (t.proc q).state = .RUNNABLE) :
    LockInv { m with t := t, cur := none, exit := e } := by
  have hrun := (h.run p).mpr hc
  have htop := h.idle (by simp [hc])
  refine h.states hl hn ?_ ?_ ?_ (fun hne => absurd rfl hne) h.cleared ?_ ?_
  · intro q hq
    refine ⟨fun hu' => ?_, hpid q⟩
    by_cases hqp : q = p
    · rw [hqp, hrun] at hu'
      cases hu'
    · rcases hw q hqp with h1 | ⟨h1, -⟩
      · exact hq (h1.trans hu')
      · rw [hu'] at h1
        cases h1
  · intro q ha hlock
    by_cases hqp : q = p
    · subst hqp
      show (t.proc q).Awake
      unfold Proc.Awake
      rw [hst]
      rcases hz with hz | hz | hz
      · exact .inl hz
      · exact .inr (.inr hz)
      · exact absurd hlock.symm hz
    · rcases hw q hqp with h1 | ⟨-, h1⟩
      · show (t.proc q).Awake
        unfold Proc.Awake
        rw [h1]
        exact ha
      · exact .inl h1
  · intro q
    refine ⟨fun hq => ?_, fun hq => by cases hq⟩
    have hq' : (t.proc q).state = .RUNNING := hq
    by_cases hqp : q = p
    · rw [hqp, hst] at hq'
      exact absurd hq' hs
    · rcases hw q hqp with h1 | ⟨-, h1⟩
      · rw [h1, h.run q, hc] at hq'
        exact absurd (Option.some.inj hq').symm hqp
      · rw [h1] at hq'
        cases hq'
  · intro q hq
    by_cases hqp : q = p
    · subst hqp
      exact .inl (hst.trans (hep hq).1)
    · have hq' : m.exit q ≠ .out := by
        rw [← he q hqp]
        exact hq
      rcases hw q hqp with h1 | ⟨-, h1⟩
      · show (t.proc q).state = .RUNNABLE ∨ (t.proc q).state = .RUNNING
        rw [h1]
        exact h.exit q hq'
      · exact .inl h1
  · intro q hq
    have hq' : e q = .tail := hq
    by_cases hqp : q = p
    · subst hqp
      exact h.tail q ((hep (by simp [hq'])).2 hq')
    · rw [he q hqp] at hq'
      exact h.tail q hq'

/-- A process that was `RUNNABLE` gets the CPU. -/
theorem LockInv.switchTo (h : LockInv m) (hc : m.cur = none) (ht : SameIds m.t t)
    (hs : (t.proc p).state = .RUNNABLE) (hr : runProc t p = .ok t') :
    LockInv { m with t := t', cur := some p, pc := .top } := by
  obtain ⟨u, h1, h2⟩ := bind_ok hr
  cases h2
  have hu : SameIds m.t u := ht.trans (((SameIds.refl t).links p
    (fun _ => by exact ⟨rfl, rfl⟩)).trans (roundRobin_ids h1))
  have hother : ∀ q, q ≠ p → ((u.updProc p (fun x => { x with state := .RUNNING })).proc q).state =
      (m.t.proc q).state := by
    intro q hq
    rw [Ptable.updProc_proc, if_neg hq]
    exact hu.state q
  have hself : ((u.updProc p (fun x => { x with state := .RUNNING })).proc p).state = .RUNNING := by
    simp
  have hp : (m.t.proc p).state = .RUNNABLE := (ht.state p).symm.trans hs
  refine h.states hu.lockpid hu.nextpid ?_ ?_ ?_ (fun _ => rfl) (fun hpc => by simp at hpc) ?_ h.tail
  · intro q hq
    constructor
    · by_cases hqp : q = p
      · rw [hqp, hp]
        simp
      · rw [← hother q hqp]
        exact hq
    · show ((u.updProc p (fun x => { x with state := .RUNNING })).proc q).pid = _
      rw [← hu.pid q, Ptable.updProc_proc]
      split <;> rfl
  · intro q ha _
    by_cases hqp : q = p
    · rw [hqp]
      exact .inr (.inl hself)
    · show ((u.updProc p (fun x => { x with state := .RUNNING })).proc q).Awake
      unfold Proc.Awake
      rw [hother q hqp]
      exact ha
  · intro q
    by_cases hqp : q = p
    · subst hqp
      exact ⟨fun _ => rfl, fun _ => hself⟩
    · refine ⟨fun hq => ?_, fun hq => absurd (Option.some.inj hq).symm hqp⟩
      have hq' : (m.t.proc q).state = .RUNNING := by
        rw [← hother q hqp]
        exact hq
      rw [h.run q, hc] at hq'
      cases hq'
  · intro q hq
    by_cases hqp : q = p
    · rw [hqp]
      exact .inr hself
    · show ((u.updProc p (fun x => { x with state := .RUNNING })).proc q).state = .RUNNABLE ∨
        ((u.updProc p (fun x => { x with state := .RUNNING })).proc q).state = .RUNNING
      rw [hother q hqp]
      exact h.exit q hq

theorem LockInv.ofSwitch (h : LockInv m) (hc : m.cur = none)
    {r : Except Fault (Option Slot × Ptable)} (hr : ∀ x t, r = .ok (x, t) →
      SameIds m.t t ∧ ∀ p, x = some p → (t.proc p).state = .RUNNABLE)
    (hs : m.switchTo r = .ok m') : LockInv m' := by
  obtain ⟨⟨x, t⟩, h1, h2⟩ := bind_ok hs
  obtain ⟨ht, hx⟩ := hr x t h1
  cases x with
  | none =>
    cases h2
    exact h.same ht rfl rfl (fun _ => rfl) (fun hpc => by simp at hpc)
  | some p =>
    obtain ⟨u, h3, h4⟩ := bind_ok h2
    cases h4
    exact h.switchTo hc ht (hx p rfl) h3

theorem pickRest_unlocked {r : Option Slot} (hl : t.lockpid = 0)
    (h : Core.pickRest t = .ok (r, t')) :
    SameIds t t' ∧ ∀ p, r = some p → (t'.proc p).state = .RUNNABLE := by
  obtain ⟨x, h1, h2⟩ := bind_ok h
  cases x with
  | none =>
    cases h2
    exact ⟨SameIds.refl t, fun _ hp => by cases hp⟩
  | some q =>
    simp only at h2
    split at h2
    · obtain ⟨u, h3, h4⟩ := bind_ok h2
      have hids := expireTimeQuantum_ids h3
      obtain ⟨h5, h6⟩ := pickLoop_unlocked _ u t' r (hids.lockpid.trans hl) h4
      exact ⟨hids.trans h5, h6⟩
    · cases h2
      refine ⟨SameIds.refl t, fun p hp => ?_⟩
      cases hp
      exact pickQueues_runnable h1

theorem LockInv.choose (h : LockInv m) (hc : m.cur = none) (hs : m.choose = .ok m') : LockInv m' := by
  unfold Core.choose at hs
  split at hs
  · rename_i hl
    exact h.ofSwitch hc (fun x t hx => pickLoop_unlocked _ m.t t x hl hx) hs
  · rename_i hl
    split at hs
    · cases hs
    · rename_i p hp
      split at hs
      · rename_i hrun
        refine h.ofSwitch hc (fun x t hx => ?_) hs
        obtain ⟨h1, h2⟩ := pickLoop_locked _ m.t t x hl hp hrun hx
        refine ⟨h1, fun q hq => ?_⟩
        rw [h2] at hq
        cases hq
        exact (h1.state p).trans hrun
      · cases hs
        exact h.same (SameIds.refl _) rfl rfl (fun hne => absurd hc hne) (fun hpc => by simp at hpc)

/-- `allocproc` gives a free slot a pid that no process has had. -/
theorem LockInv.allocproc (h : LockInv m) {r : Option Slot} (hr : allocproc m.t = .ok (r, t')) :
    LockInv { m with t := t' } ∧ ∀ p, r = some p → (t'.proc p).state = .EMBRYO := by
  unfold Mlfq.allocproc at hr
  split at hr
  · cases hr
    exact ⟨h, fun _ hp => by cases hp⟩
  · rename_i p hp
    have hfree : (m.t.proc p).state = .UNUSED := by simpa [firstSlot] using List.find?_some hp
    obtain ⟨u, h1, h2⟩ := bind_ok hr
    cases h2
    have hu := pushqueue_ids h1
    have hpid : ∀ q, (t'.proc q).pid = if q = p then m.t.nextpid else (m.t.proc q).pid := by
      intro q
      rw [hu.pid q]
      show (if q = p then _ else m.t.proc q).pid = _
      split <;> rfl
    have hstate : ∀ q, (t'.proc q).state = if q = p then .EMBRYO else (m.t.proc q).state := by
      intro q
      rw [hu.state q]
      show (if q = p then _ else m.t.proc q).state = _
      split <;> rfl
    have hold : ∀ q, q ≠ p → (t'.proc q).state ≠ .UNUSED →
        (m.t.proc q).state ≠ .UNUSED ∧ (t'.proc q).pid = (m.t.proc q).pid := by
      intro q hq hs
      rw [hstate, if_neg hq] at hs
      exact ⟨hs, by rw [hpid, if_neg hq]⟩
    have hnext : t'.nextpid = m.t.nextpid + 1 := hu.nextpid
    refine ⟨⟨fun q hq => ?_, fun q q' hq hq' he => ?_, ?_, ?_, fun q => ?_, h.idle, ?_, fun q hq => ?_,
      fun q hq => ?_⟩, fun q hq => ?_⟩
    · show 0 < (t'.proc q).pid ∧ (t'.proc q).pid < t'.nextpid
      have hn := h.next
      by_cases hqp : q = p
      · rw [hpid, if_pos hqp, hnext]
        omega
      · obtain ⟨h3, h4⟩ := hold q hqp hq
        have := h.pos q h3
        rw [h4, hnext]
        omega
    · have he' : (t'.proc q).pid = (t'.proc q').pid := he
      by_cases hqp : q = p <;> by_cases hqp' : q' = p
      · rw [hqp, hqp']
      · obtain ⟨h3, h4⟩ := hold q' hqp' hq'
        have := h.pos q' h3
        rw [hpid q, if_pos hqp, h4] at he'
        omega
      · obtain ⟨h3, h4⟩ := hold q hqp hq
        have := h.pos q h3
        rw [hpid q', if_pos hqp', h4] at he'
        omega
      · obtain ⟨h3, h4⟩ := hold q hqp hq
        obtain ⟨h5, h6⟩ := hold q' hqp' hq'
        rw [h4, h6] at he'
        exact h.uniq q q' h3 h5 he'
    · show 0 < t'.nextpid
      have := h.next
      omega
    · show t'.lockpid = 0 ∨ ∃ q, (t'.proc q).pid = t'.lockpid ∧ (t'.proc q).Awake
      rw [hu.lockpid]
      rcases h.lock with h0 | ⟨q, hq, ha⟩
      · exact .inl h0
      · have hqp : q ≠ p := fun he => ha.used (he ▸ hfree)
        refine .inr ⟨q, by rw [hpid, if_neg hqp]; exact hq, ?_⟩
        unfold Proc.Awake
        rw [hstate, if_neg hqp]
        exact ha
    · show (t'.proc q).state = .RUNNING ↔ m.cur = some q
      rw [hstate, ← h.run q]
      split
      · rename_i hqp
        rw [hqp, hfree]
        simp
      · exact Iff.rfl
    · show _ → t'.lockpid = 0
      rw [hu.lockpid]
      exact h.cleared
    · show (t'.proc q).state = .RUNNABLE ∨ (t'.proc q).state = .RUNNING
      have hx := h.exit q hq
      have hqp : q ≠ p := by
        rintro rfl
        simp [hfree] at hx
      rw [hstate, if_neg hqp]
      exact hx
    · show t'.lockpid ≠ (t'.proc q).pid
      have hq' : m.exit q = .tail := hq
      have hx := h.exit q (by simp [hq'])
      have hqp : q ≠ p := by
        rintro rfl
        simp [hfree] at hx
      rw [hu.lockpid, hpid, if_neg hqp]
      exact h.tail q hq
    · cases hq
      rw [hstate, if_pos rfl]

/-- A slot under construction becomes a process, or is given back. -/
theorem LockInv.born (h : LockInv m) {f : Proc → Proc} (hf : ∀ x, (f x).pid = x.pid)
    (hs : ∀ x, (f x).state = .RUNNABLE ∨ (f x).state = .UNUSED)
    (hp : (m.t.proc p).state = .EMBRYO) : LockInv { m with t := m.t.updProc p f } := by
  have hproc : ∀ q, (m.t.updProc p f).proc q = if q = p then f (m.t.proc q) else m.t.proc q :=
    fun _ => rfl
  refine h.states rfl rfl (fun q hq => ⟨?_, ?_⟩) (fun q ha _ => ?_) (fun q => ?_) h.idle h.cleared
    (fun q hq => ?_) h.tail
  · by_cases hqp : q = p
    · rw [hqp, hp]
      simp
    · have hq' : ((m.t.updProc p f).proc q).state ≠ .UNUSED := hq
      rwa [hproc, if_neg hqp] at hq'
  · show ((m.t.updProc p f).proc q).pid = _
    rw [hproc]
    split
    · exact hf _
    · rfl
  · have hqp : q ≠ p := by
      rintro rfl
      rcases ha with ha | ha | ha <;> simp [hp] at ha
    show ((m.t.updProc p f).proc q).Awake
    rw [hproc, if_neg hqp]
    exact ha
  · show ((m.t.updProc p f).proc q).state = .RUNNING ↔ m.cur = some q
    rw [hproc, ← h.run q]
    split
    · rename_i hqp
      rw [hqp, hp]
      rcases hs (m.t.proc p) with hs | hs <;> simp [hs]
    · exact Iff.rfl
  · show ((m.t.updProc p f).proc q).state = .RUNNABLE ∨ ((m.t.updProc p f).proc q).state = .RUNNING
    have hx := h.exit q hq
    have hqp : q ≠ p := by
      rintro rfl
      simp [hp] at hx
    rw [hproc, if_neg hqp]
    exact hx

theorem LockInv.userinit (h : LockInv m) (hs : userinit m.t = .ok t') : LockInv { m with t := t' } := by
  obtain ⟨⟨x, u⟩, h1, h2⟩ := bind_ok hs
  cases x with
  | none => cases h2
  | some p =>
    cases h2
    obtain ⟨h3, h4⟩ := h.allocproc h1
    have h5 := h3.born (p := p) (f := fun x => { x with state := .RUNNABLE }) (fun _ => rfl)
      (fun _ => .inl rfl) (h4 p rfl)
    refine h5.same ?_ rfl rfl h.idle h5.cleared
    exact ⟨rfl, rfl, fun _ => rfl, fun _ => rfl⟩

/-- `exit` wakes its parent and init, and ends the process. -/
theorem exitTail_spec (t : Ptable) (p : Slot) :
    (exitTail t p).lockpid = t.lockpid ∧ (exitTail t p).nextpid = t.nextpid ∧
      (∀ q, ((exitTail t p).proc q).pid = (t.proc q).pid) ∧
      ((exitTail t p).proc p).state = .ZOMBIE ∧
      ∀ q, q ≠ p → ((exitTail t p).proc q).state = (t.proc q).state ∨
        (t.proc q).state = .SLEEPING ∧ ((exitTail t p).proc q).state = .RUNNABLE := by
  have h1 : Woken t (wakeupProc t (t.proc p).parent) := by
    unfold wakeupProc
    split
    · exact ⟨rfl, rfl, fun _ => ⟨rfl, .inl rfl⟩⟩
    · exact wakeup1_woken t _
  have h2 : ∀ u : Ptable, Woken u (reparent u p) := by
    intro u
    refine ⟨rfl, rfl, fun q => ?_⟩
    simp only [reparent]
    split <;> exact ⟨rfl, .inl rfl⟩
  have h3 : ∀ u : Ptable, Woken u (passChildren u p) := by
    intro u
    unfold passChildren
    split
    · exact (h2 u).trans (wakeup1_woken _ _)
    · exact h2 u
  obtain ⟨hl, hn, hw⟩ := h1.trans (h3 _)
  refine ⟨hl, hn, fun q => ?_, by simp [exitTail], fun q hq => ?_⟩
  · rw [← (hw q).1]
    simp only [exitTail, Ptable.updProc_proc]
    split <;> rfl
  · simp only [exitTail, Ptable.updProc_proc, if_neg hq]
    exact (hw q).2

theorem LockInv.exitTail (h : LockInv m) (hc : m.cur = some p)
    (hl : m.t.lockpid ≠ (m.t.proc p).pid) {e : Slot → ExitPc} (he : ∀ q, q ≠ p → e q = m.exit q)
    (hep : e p = .out) : LockInv { m with t := exitTail m.t p, cur := none, exit := e } := by
  obtain ⟨h1, h2, h3, h4, h5⟩ := exitTail_spec m.t p
  exact h.leave hc (s := .ZOMBIE) (by simp) he (fun hne => absurd hep hne)
    (.inr (.inr hl)) h1 h2 h3 h4 h5

/-- Only the state of the current process changes. -/
theorem LockInv.suspend (h : LockInv m) (hc : m.cur = some p) {f : Proc → Proc}
    (hf : ∀ x, (f x).pid = x.pid) {s : ProcState} (hs : ∀ x, (f x).state = s)
    (hr : s = .RUNNABLE ∨ s = .SLEEPING ∧ m.exit p = .out) :
    LockInv { m with t := m.t.updProc p f, cur := none } := by
  have hne : s ≠ .RUNNING := by
    rcases hr with hr | ⟨hr, -⟩ <;> simp [hr]
  refine h.leave hc hne (e := m.exit) (fun _ _ => rfl) ?_ ?_ rfl rfl ?_ ?_ ?_
  · intro hx
    refine ⟨?_, id⟩
    rcases hr with hr | ⟨-, hr⟩
    · exact hr
    · exact absurd hr hx
  · exact hr.imp id (fun hr => .inl hr.1)
  · intro q
    rw [Ptable.updProc_proc]
    split
    · exact hf _
    · rfl
  · simpa using hs (m.t.proc p)
  · intro q hq
    rw [Ptable.updProc_proc, if_neg hq]
    exact .inl rfl

/-- A zombie is reaped. -/
theorem LockInv.freed (h : LockInv m) {q : Slot} (hz : (m.t.proc q).state = .ZOMBIE) {u : Ptable}
    (hu : SameIds m.t u) {f : Proc → Proc} (hf : ∀ x, (f x).state = .UNUSED) :
    LockInv { m with t := u.updProc q f } ∧
      ∀ r, r ≠ q → ((u.updProc q f).proc r).state = (m.t.proc r).state := by
  have hother : ∀ r, r ≠ q → ((u.updProc q f).proc r).state = (m.t.proc r).state := by
    intro r hr
    rw [Ptable.updProc_proc, if_neg hr]
    exact hu.state r
  have hself : ((u.updProc q f).proc q).state = .UNUSED := by
    rw [Ptable.updProc_proc, if_pos rfl]
    exact hf _
  refine ⟨h.states hu.lockpid hu.nextpid (fun r hr => ?_) (fun r ha _ => ?_) (fun r => ?_) h.idle
    h.cleared (fun r hr => ?_) h.tail, hother⟩
  · have hrq : r ≠ q := fun he => hr (he ▸ hself)
    refine ⟨hother r hrq ▸ hr, ?_⟩
    show ((u.updProc q f).proc r).pid = _
    rw [Ptable.updProc_proc, if_neg hrq]
    exact hu.pid r
  · have hrq : r ≠ q := by
      rintro rfl
      rcases ha with ha | ha | ha <;> simp [hz] at ha
    show ((u.updProc q f).proc r).Awake
    unfold Proc.Awake
    rw [hother r hrq]
    exact ha
  · show ((u.updProc q f).proc r).state = .RUNNING ↔ m.cur = some r
    rw [← h.run r]
    by_cases hrq : r = q
    · rw [hrq, hself, hz]
      simp
    · rw [hother r hrq]
  · have hx := h.exit r hr
    have hrq : r ≠ q := by
      rintro rfl
      simp [hz] at hx
    show ((u.updProc q f).proc r).state = .RUNNABLE ∨ ((u.updProc q f).proc r).state = .RUNNING
    rw [hother r hrq]
    exact hx

theorem LockInv.wait (h : LockInv m) (hc : m.cur = some p) (hx : m.exit p = .out)
    (hs : wait m.t p = .ok t') : LockInv { m with
      t := t', cur := if (t'.proc p).state = .RUNNING then some p else none } := by
  have hrun := (h.run p).mpr hc
  unfold Mlfq.wait at hs
  split at hs
  · rename_i q hq
    have hz : (m.t.proc q).state = .ZOMBIE := by
      have hf := List.find?_some hq
      simp only [Bool.and_eq_true, beq_iff_eq] at hf
      exact hf.2
    have hpq : p ≠ q := by
      rintro rfl
      rw [hrun] at hz
      cases hz
    obtain ⟨u, h1, h2⟩ := bind_ok hs
    cases h2
    obtain ⟨h3, h4⟩ := h.freed hz (erasequeue_ids h1) (f := fun x => { x with
      pid := 0, parent := none, killed := false, state := .UNUSED
      priority := -1, tq := -1 }) (fun _ => rfl)
    rw [h4 p hpq, if_pos hrun, ← hc]
    exact h3
  · split at hs <;> cases hs
    · rw [if_pos hrun, ← hc]
      exact h
    · have hsl : ((sleep m.t p (.proc p)).proc p).state = .SLEEPING := by simp [Mlfq.sleep]
      rw [hsl, if_neg (by simp)]
      exact h.suspend hc (fun _ => by rfl) (s := .SLEEPING) (fun _ => by rfl) (.inr ⟨rfl, hx⟩)

/-- `schedulerUnlock`, called by the scheduler or by a process. -/
theorem LockInv.unlock (h : LockInv m) {c : Option Slot} {password : Int}
    (hs : schedulerUnlock m.t c password = .ok t') : LockInv { m with t := t' } := by
  rcases schedulerUnlock_spec hs with ⟨ht, -⟩ | ⟨-, -, u, hu, rfl⟩
  · exact h.same ht rfl rfl h.idle h.cleared
  · exact h.relock hu (.inl rfl) (fun h0 => absurd rfl h0)

theorem LockInv.schedulerLock (h : LockInv m) (hc : m.cur = some p) (hx : m.exit p = .out)
    (password : Int) : LockInv { m with t := schedulerLock m.t p password } := by
  have hids : SameIds m.t (m.t.updProc p (fun x => { x with killed := true })) :=
    (SameIds.refl _).links p (fun _ => by exact ⟨rfl, rfl⟩)
  have hrun := (h.run p).mpr hc
  unfold Mlfq.schedulerLock
  split
  · exact h.same hids rfl rfl h.idle h.cleared
  · split
    · exact h.same hids rfl rfl h.idle h.cleared
    · refine (h.relock (l := (m.t.proc p).pid) (t := { m.t with ticks := 0 })
        ⟨rfl, rfl, fun _ => rfl, fun _ => rfl⟩ (.inr ⟨p, rfl, .inr (.inl hrun), ?_⟩) ?_)
      · simp [hx]
      · simp [hc]

theorem LockInv.setExit (h : LockInv m) {pc : ExitPc} (hr : (m.t.proc p).state = .RUNNING)
    (ht : pc = .tail → m.t.lockpid ≠ (m.t.proc p).pid) : LockInv (m.setExit p pc) := by
  refine h.states rfl rfl (fun q hq => ⟨hq, rfl⟩) (fun q ha _ => ha) h.run h.idle h.cleared ?_ ?_
  · intro q hq
    by_cases hqp : q = p
    · rw [hqp]
      exact .inr hr
    · exact h.exit q (by simpa [Core.setExit, hqp] using hq)
  · intro q hq
    by_cases hqp : q = p
    · subst hqp
      exact ht (by simpa [Core.setExit] using hq)
    · exact h.tail q (by simpa [Core.setExit, hqp] using hq)

/-- A `setLevel` that stays within the queues. -/
theorem Core.setLevel_ok {pid level : Int} (hw : ¬ m.WrongLevel (.call (.setLevel pid level)))
    (hs : m.setLevel pid level = .ok m') : ∃ t, SameIds m.t t ∧ m' = { m with t := t } := by
  unfold Core.setLevel at hs
  split at hs
  next hl =>
    cases hp : getProc m.t pid with
    | none =>
      rw [hp] at hs
      cases hs
      exact ⟨m.t, SameIds.refl m.t, rfl⟩
    | some q => exact absurd ⟨hl, by rw [hp]; rfl⟩ hw
  next =>
    obtain ⟨t, h1, h2⟩ := bind_ok hs
    cases h2
    exact ⟨t, setLevel_ids h1, rfl⟩

theorem LockInv.call (h : LockInv m) (hc : m.cur = some p) {k : ProcCall}
    (hw : ¬ m.WrongLevel (.call k)) (hs : m.call p k = .ok m') : LockInv m' := by
  have hrun := (h.run p).mpr hc
  unfold Core.call at hs
  split at hs
  · cases hs
    exact h.suspend hc (fun _ => by rfl) (s := .RUNNABLE) (fun _ => by rfl) (.inl rfl)
  · obtain ⟨t, h1, h2⟩ := bind_ok hs
    cases h2
    have h3 := h.unlock h1
    refine h3.setExit ?_ (fun _ => ?_)
    · exact (h3.run p).mpr hc
    · -- the lock was this process's and is free now, or was another's all along
      have hpos := (h.pos p (by simp [hrun])).1
      rcases schedulerUnlock_spec h1 with ⟨ht, -⟩ | ⟨-, -, u, hu, rfl⟩
      · show t.lockpid ≠ (t.proc p).pid
        intro he
        have hne : ¬ (m.t.lockpid = (m.t.proc p).pid) := by
          intro heq
          unfold schedulerUnlock at h1
          rw [if_neg (by simp), if_neg (by omega)] at h1
          simp only at h1
          rw [if_neg (by simp [heq])] at h1
          obtain ⟨v, h4, h5⟩ := bind_ok h1
          obtain ⟨w, h6, h7⟩ := bind_ok h5
          cases h7
          have h0 := ht.lockpid
          simp only at h0
          omega
        rw [ht.lockpid, ht.pid p] at he
        exact hne he
      · show (0 : Int) ≠ (u.proc p).pid
        rw [hu.pid p]
        omega
  · rename_i hx
    cases hs
    refine h.exitTail hc (h.tail p hx) (fun q hq => ?_) ?_
    · simp [hq]
    · simp
  · obtain ⟨⟨r, t⟩, h1, h2⟩ := bind_ok hs
    cases h2
    exact (h.allocproc h1).1
  · split at hs
    · rename_i hs'
      cases hs
      exact h.born (fun _ => by rfl) (fun _ => .inl (by rfl)) hs'
    · cases hs
  · split at hs
    · rename_i hs'
      cases hs
      exact h.born (fun _ => by rfl) (fun _ => .inr (by rfl)) hs'
    · cases hs
  · rename_i hx
    obtain ⟨t, h1, h2⟩ := bind_ok hs
    cases h2
    exact h.wait hc hx h1
  · cases hs
    exact h.same (setPriority_ids _ _ _) rfl rfl h.idle h.cleared
  · rename_i hx
    cases hs
    exact h.schedulerLock hc hx _
  · obtain ⟨t, h1, h2⟩ := bind_ok hs
    cases h2
    exact h.unlock h1
  · obtain ⟨t, ht, rfl⟩ := Core.setLevel_ok hw hs
    exact h.same ht rfl rfl h.idle h.cleared
  · cases hs
    exact h.woken (kill_woken _ _)
  · rename_i hx
    cases hs
    exact h.suspend hc (fun _ => by rfl) (s := .SLEEPING) (fun _ => by rfl) (.inr ⟨rfl, hx⟩)
  · rename_i hx
    split at hs
    · cases hs
    · cases hs
      unfold Core.exitStart
      split
      · exact h.setExit hrun (fun ht => by cases ht)
      · rename_i hl
        exact h.exitTail hc hl (fun _ _ => rfl) hx
  · cases hs

theorem coreStep_ok {a : CoreAct} (hs : coreStep m a = some m') : coreExec m a = .ok m' := by
  unfold coreStep at hs
  obtain ⟨-, hs⟩ := Option.ite_none_right_eq_some.mp hs
  cases he : coreExec m a with
  | error e => simp [he, Except.toOption] at hs
  | ok m'' =>
    rw [he] at hs
    simp only [Except.toOption, Option.some.injEq] at hs
    rw [hs]

/-- The scheduler moves on with no process on the CPU. -/
theorem LockInv.goto (h : LockInv m) (hc : m.cur = none) {pc : SchedPc}
    (hpc : pc = .pickRest ∨ pc = .boostRest → m.t.lockpid = 0) : LockInv { m with pc := pc } :=
  h.same (SameIds.refl _) rfl rfl (fun hne => absurd hc hne) hpc

theorem LockInv.step (h : LockInv m) {a : CoreAct} (hw : ¬ m.WrongLevel a)
    (hs : coreStep m a = some m') : LockInv m' := by
  replace hs := coreStep_ok hs
  cases a with
  | userinit =>
    simp only [coreExec] at hs
    split at hs
    · obtain ⟨t, h1, h2⟩ := bind_ok hs
      cases h2
      exact h.userinit h1
    · cases hs
  | choose =>
    simp only [coreExec] at hs
    split at hs
    · rename_i hc
      exact h.choose hc.1 hs
    · cases hs
  | pickUnlock =>
    simp only [coreExec] at hs
    split at hs
    · rename_i hc
      obtain ⟨t, h1, h2⟩ := bind_ok hs
      cases h2
      refine LockInv.goto (h.unlock h1) hc.1 (fun _ => ?_)
      rcases schedulerUnlock_spec h1 with ⟨-, ht⟩ | ⟨-, -, u, hu, rfl⟩
      · exact ht rfl
      · rfl
    · cases hs
  | pickRest =>
    simp only [coreExec] at hs
    split at hs
    · rename_i hc
      have hl := h.cleared (.inl hc.2)
      exact h.ofSwitch hc.1 (fun x t hx => pickRest_unlocked hl hx) hs
    · cases hs
  | boost =>
    simp only [coreExec] at hs
    split at hs
    · rename_i hc
      unfold Core.boost at hs
      split at hs
      · obtain ⟨t, h1, h2⟩ := bind_ok hs
        cases h2
        have ht : SameIds m.t t := by
          refine SameIds.trans ?_ (boostLoop_ids _ _ _ h1)
          exact ⟨rfl, rfl, fun _ => rfl, fun _ => rfl⟩
        exact h.same ht rfl rfl h.idle h.cleared
      · cases hs
        refine h.same ?_ rfl rfl (fun hne => absurd hc.1 hne) (fun hpc => by simp at hpc)
        exact ⟨rfl, rfl, fun _ => rfl, fun _ => rfl⟩
    · cases hs
  | boostUnlock =>
    simp only [coreExec] at hs
    split at hs
    · rename_i hc
      obtain ⟨t, h1, h2⟩ := bind_ok hs
      cases h2
      refine LockInv.goto (h.unlock h1) hc.1 (fun _ => ?_)
      rcases schedulerUnlock_spec h1 with ⟨-, ht⟩ | ⟨-, -, u, hu, rfl⟩
      · exact ht rfl
      · rfl
    · cases hs
  | boostRest =>
    simp only [coreExec] at hs
    split at hs
    · rename_i hc
      obtain ⟨t, h1, h2⟩ := bind_ok hs
      cases h2
      exact h.same (boostLoop_ids _ _ _ h1) rfl rfl (fun _ => rfl) (fun hpc => by simp at hpc)
    · cases hs
  | wakeup chan =>
    cases hs
    exact h.woken (wakeup1_woken _ _)
  | call k =>
    simp only [coreExec] at hs
    split at hs
    · rename_i p hc
      exact h.call hc hw hs
    · cases hs

theorem LockInv.boot (w : Words) : LockInv (coreBoot w) := by
  constructor <;> simp [coreBoot, pinit]

end Steps

/-! ## The protocol -/

/-- The steps that may give up the lock of the process `p`: the scheduler, in
`getProcessToRun` behind its finding that `p` is not `RUNNABLE` or in `boostPriority`, and
`p` itself, by `schedulerUnlock` or `exit`. -/
def Releases (m : Core) (p : Slot) : CoreAct → Prop
  | .pickUnlock => True
  | .boostUnlock => True
  | .call (.schedulerUnlock _) => m.cur = some p
  | .call .exitUnlock => m.cur = some p
  | _ => False

/-- What the scheduler lock promises in the state `m`. -/
structure LockProtocol (m : Core) : Prop where
  holder : m.t.lockpid = 0 ∨ ∃ p, getProc m.t m.t.lockpid = some p ∧
    (m.t.proc p).pid = m.t.lockpid ∧ (m.t.proc p).state ≠ .UNUSED ∧ (m.t.proc p).state ≠ .ZOMBIE
  released : ∀ a m', ¬ m.WrongLevel a → coreStep m a = some m' → m.t.lockpid ≠ 0 → m'.t.lockpid ≠ m.t.lockpid →
    m'.t.lockpid = 0 ∧ ∃ p, (m.t.proc p).pid = m.t.lockpid ∧ Releases m p a
  dispatched : ∀ a m' p, coreStep m a = some m' → m.t.lockpid ≠ 0 → m.cur = none →
    m'.cur = some p → (m'.t.proc p).pid = m.t.lockpid

section Protocol

variable {m m' : Core} {t t' : Ptable} {p : Slot}

/-- `getProc` finds the process that has locked the scheduler. -/
theorem LockInv.getProc (h : LockInv m) (hl : m.t.lockpid ≠ 0) :
    ∃ p, getProc m.t m.t.lockpid = some p ∧ (m.t.proc p).pid = m.t.lockpid ∧ (m.t.proc p).Awake := by
  rcases h.lock with h0 | ⟨p, hp, ha⟩
  · exact absurd h0 hl
  · refine ⟨p, ?_, hp, ha⟩
    have hm : (List.finRange NPROC).find? (fun q => (m.t.proc q).pid == m.t.lockpid &&
        (m.t.proc q).state != .UNUSED) ≠ none := by
      intro hn
      have := List.find?_eq_none.mp hn p (List.mem_finRange p)
      simp [hp, ha.used] at this
    obtain ⟨q, hq⟩ := Option.ne_none_iff_exists'.mp hm
    have hq' := List.find?_some hq
    simp only [Bool.and_eq_true, beq_iff_eq, bne_iff_ne] at hq'
    have hqp := h.uniq q p hq'.2 ha.used (hq'.1.trans hp.symm)
    subst hqp
    exact hq

theorem Core.switchTo_lockpid {r : Except Fault (Option Slot × Ptable)}
    (hr : ∀ x t, r = .ok (x, t) → SameIds m.t t) (hs : m.switchTo r = .ok m') :
    m'.t.lockpid = m.t.lockpid := by
  obtain ⟨⟨x, t⟩, h1, h2⟩ := bind_ok hs
  cases x with
  | none =>
    cases h2
    exact (hr none t h1).lockpid
  | some p =>
    obtain ⟨u, h3, h4⟩ := bind_ok h2
    cases h4
    obtain ⟨v, h5, h6⟩ := bind_ok h3
    cases h6
    have hv := ((SameIds.refl t).links p (fun _ => by exact ⟨rfl, rfl⟩)).trans (roundRobin_ids h5)
    exact hv.lockpid.trans (hr (some p) t h1).lockpid

theorem Core.choose_lockpid (hs : m.choose = .ok m') : m'.t.lockpid = m.t.lockpid := by
  unfold Core.choose at hs
  split at hs
  · rename_i hl
    exact Core.switchTo_lockpid (fun x t hx => (pickLoop_unlocked _ m.t t x hl hx).1) hs
  · rename_i hl
    split at hs
    · cases hs
    · rename_i p hp
      split at hs
      · rename_i hr
        exact Core.switchTo_lockpid (fun x t hx => (pickLoop_locked _ m.t t x hl hp hr hx).1) hs
      · cases hs
        rfl

/-- The calls of a process leave another's scheduler lock alone. -/
theorem call_lockpid (hc : m.cur = some p) {k : ProcCall} (hw : ¬ m.WrongLevel (.call k))
    (hs : m.call p k = .ok m') (hl : m.t.lockpid ≠ 0) (hne : m'.t.lockpid ≠ m.t.lockpid) :
    m'.t.lockpid = 0 ∧ (m.t.proc p).pid = m.t.lockpid ∧ Releases m p (.call k) := by
  have hunlock : ∀ {t'} {password : Int}, schedulerUnlock m.t (some p) password = .ok t' →
      t'.lockpid ≠ m.t.lockpid → t'.lockpid = 0 ∧ (m.t.proc p).pid = m.t.lockpid := by
    intro t' password h1 h2
    rcases schedulerUnlock_spec h1 with ⟨ht, -⟩ | ⟨-, hpid, u, -, rfl⟩
    · exact absurd ht.lockpid h2
    · exact ⟨rfl, hpid p rfl⟩
  unfold Core.call at hs
  split at hs
  · cases hs
    exact absurd rfl hne
  · obtain ⟨t, h1, h2⟩ := bind_ok hs
    cases h2
    obtain ⟨h3, h4⟩ := hunlock h1 hne
    exact ⟨h3, h4, hc⟩
  · cases hs
    exact absurd (exitTail_spec m.t p).1 hne
  · obtain ⟨⟨r, t⟩, h1, h2⟩ := bind_ok hs
    cases h2
    refine absurd ?_ hne
    unfold Mlfq.allocproc at h1
    split at h1
    · cases h1
      rfl
    · obtain ⟨u, h3, h4⟩ := bind_ok h1
      cases h4
      exact (pushqueue_ids h3).lockpid
  · split at hs <;> cases hs
    exact absurd rfl hne
  · split at hs <;> cases hs
    exact absurd rfl hne
  · obtain ⟨t, h1, h2⟩ := bind_ok hs
    cases h2
    refine absurd ?_ hne
    unfold Mlfq.wait at h1
    split at h1
    · obtain ⟨u, h3, h4⟩ := bind_ok h1
      cases h4
      exact (erasequeue_ids h3).lockpid
    · split at h1 <;> cases h1 <;> rfl
  · cases hs
    exact absurd (setPriority_ids _ _ _).lockpid hne
  · -- `schedulerLock` of a locked scheduler: the same lock again, or an error
    cases hs
    refine absurd ?_ hne
    unfold Mlfq.schedulerLock
    split
    · rfl
    · split
      · rfl
      · rename_i hx
        show (m.t.proc p).pid = m.t.lockpid
        by_contra hx'
        exact hx ⟨fun he => hx' he.symm, hl⟩
  · obtain ⟨t, h1, h2⟩ := bind_ok hs
    cases h2
    obtain ⟨h3, h4⟩ := hunlock h1 hne
    exact ⟨h3, h4, hc⟩
  · obtain ⟨t, ht, rfl⟩ := Core.setLevel_ok hw hs
    exact absurd ht.lockpid hne
  · cases hs
    exact absurd (kill_woken _ _).1 hne
  · cases hs
    exact absurd rfl hne
  · split at hs
    · cases hs
    · cases hs
      refine absurd ?_ hne
      unfold Core.exitStart
      split
      · rfl
      · exact (exitTail_spec m.t p).1
  · cases hs

/-- A step of the machine keeps the scheduler lock or gives it up. -/
theorem LockInv.released (h : LockInv m) {a : CoreAct} (hw : ¬ m.WrongLevel a)
    (hs : coreStep m a = some m') (hl : m.t.lockpid ≠ 0) (hne : m'.t.lockpid ≠ m.t.lockpid) :
    m'.t.lockpid = 0 ∧ ∃ p, (m.t.proc p).pid = m.t.lockpid ∧ Releases m p a := by
  obtain ⟨p, -, hp, -⟩ := h.getProc hl
  replace hs := coreStep_ok hs
  cases a with
  | userinit =>
    simp only [coreExec] at hs
    split at hs
    · obtain ⟨t, h1, h2⟩ := bind_ok hs
      cases h2
      obtain ⟨⟨x, u⟩, h3, h4⟩ := bind_ok h1
      cases x with
      | none => cases h4
      | some q =>
        cases h4
        refine absurd ?_ hne
        unfold Mlfq.allocproc at h3
        split at h3
        · cases h3
        · obtain ⟨v, h5, h6⟩ := bind_ok h3
          cases h6
          exact (pushqueue_ids h5).lockpid
    · cases hs
  | choose =>
    simp only [coreExec] at hs
    split at hs
    · exact absurd (Core.choose_lockpid hs) hne
    · cases hs
  | pickUnlock =>
    simp only [coreExec] at hs
    split at hs
    · obtain ⟨t, h1, h2⟩ := bind_ok hs
      cases h2
      rcases schedulerUnlock_spec h1 with ⟨ht, -⟩ | ⟨-, -, u, -, rfl⟩
      · exact absurd ht.lockpid hne
      · exact ⟨rfl, p, hp, trivial⟩
    · cases hs
  | pickRest =>
    simp only [coreExec] at hs
    split at hs
    · rename_i hc
      exact absurd (h.cleared (.inl hc.2)) hl
    · cases hs
  | boost =>
    simp only [coreExec] at hs
    split at hs
    · unfold Core.boost at hs
      rw [if_neg hl] at hs
      cases hs
      exact absurd rfl hne
    · cases hs
  | boostUnlock =>
    simp only [coreExec] at hs
    split at hs
    · obtain ⟨t, h1, h2⟩ := bind_ok hs
      cases h2
      rcases schedulerUnlock_spec h1 with ⟨ht, -⟩ | ⟨-, -, u, -, rfl⟩
      · exact absurd ht.lockpid hne
      · exact ⟨rfl, p, hp, trivial⟩
    · cases hs
  | boostRest =>
    simp only [coreExec] at hs
    split at hs
    · rename_i hc
      exact absurd (h.cleared (.inr hc.2)) hl
    · cases hs
  | wakeup chan =>
    cases hs
    exact absurd rfl hne
  | call k =>
    simp only [coreExec] at hs
    split at hs
    · rename_i q hc
      obtain ⟨h1, h2, h3⟩ := call_lockpid hc hw hs hl hne
      exact ⟨h1, q, h2, h3⟩
    · cases hs

/-- While the scheduler is locked it gives the CPU to the process that has locked it. -/
theorem LockInv.dispatched (h : LockInv m) {a : CoreAct} (hs : coreStep m a = some m')
    (hl : m.t.lockpid ≠ 0) (hc : m.cur = none) (hp : m'.cur = some p) :
    (m'.t.proc p).pid = m.t.lockpid := by
  obtain ⟨q, hq, hpid, -⟩ := h.getProc hl
  have hnone : ∀ {t : Ptable} {pc : SchedPc}, ({ m with t := t, pc := pc } : Core).cur ≠ some p :=
    fun he => by
      rw [show ({ m with t := _, pc := _ } : Core).cur = m.cur from rfl, hc] at he
      cases he
  replace hs := coreStep_ok hs
  cases a with
  | userinit =>
    simp only [coreExec] at hs
    split at hs
    · obtain ⟨t, h1, h2⟩ := bind_ok hs
      cases h2
      exact absurd hp hnone
    · cases hs
  | choose =>
    simp only [coreExec] at hs
    split at hs
    · unfold Core.choose at hs
      rw [if_neg hl, hq] at hs
      simp only at hs
      split at hs
      · rename_i hr
        obtain ⟨⟨x, t⟩, h1, h2⟩ := bind_ok hs
        obtain ⟨h3, rfl⟩ := pickLoop_locked _ m.t t x hl hq hr h1
        obtain ⟨u, h4, h5⟩ := bind_ok h2
        cases h5
        cases hp
        obtain ⟨v, h6, h7⟩ := bind_ok h4
        cases h7
        have hv := h3.trans (((SameIds.refl t).links p (fun _ => by exact ⟨rfl, rfl⟩)).trans
          (roundRobin_ids h6))
        show ((v.updProc p (fun x => { x with state := .RUNNING })).proc p).pid = _
        rw [Ptable.updProc_proc, if_pos rfl, ← hpid]
        exact hv.pid p
      · cases hs
        exact absurd hp hnone
    · cases hs
  | pickUnlock =>
    simp only [coreExec] at hs
    split at hs
    · obtain ⟨t, h1, h2⟩ := bind_ok hs
      cases h2
      exact absurd hp hnone
    · cases hs
  | pickRest =>
    simp only [coreExec] at hs
    split at hs
    · rename_i hpc
      exact absurd (h.cleared (.inl hpc.2)) hl
    · cases hs
  | boost =>
    simp only [coreExec] at hs
    split at hs
    · unfold Core.boost at hs
      rw [if_neg hl] at hs
      cases hs
      exact absurd hp hnone
    · cases hs
  | boostUnlock =>
    simp only [coreExec] at hs
    split at hs
    · obtain ⟨t, h1, h2⟩ := bind_ok hs
      cases h2
      exact absurd hp hnone
    · cases hs
  | boostRest =>
    simp only [coreExec] at hs
    split at hs
    · rename_i hpc
      exact absurd (h.cleared (.inr hpc.2)) hl
    · cases hs
  | wakeup chan =>
    cases hs
    exact absurd hp hnone
  | call k =>
    simp only [coreExec] at hs
    split at hs
    · rename_i q hcq
      rw [hc] at hcq
      cases hcq
    · cases hs

theorem LockInv.protocol (h : LockInv m) : LockProtocol m := by
  refine ⟨?_, fun a m' hw hs hl hne => h.released hw hs hl hne,
    fun a m' p hs hl hc hp => h.dispatched hs hl hc hp⟩
  by_cases hl : m.t.lockpid = 0
  · exact .inl hl
  · obtain ⟨p, h1, h2, h3⟩ := h.getProc hl
    refine .inr ⟨p, h1, h2, h3.used, ?_⟩
    rcases h3 with h3 | h3 | h3 <;> simp [h3]

/-- A lock that is not given up is the lock that was taken. -/
theorem LockInv.held {as : List CoreAct} (h : LockInv m)
    (hm : Lib.Meets coreStep (fun s a => s.t.lockpid ≠ 0 ∧ ¬ s.WrongLevel a) m as)
    (hr : Lib.run coreStep m as = some m') (hl : m'.t.lockpid ≠ 0) :
    LockInv m' ∧ m'.t.lockpid = m.t.lockpid := by
  induction as generalizing m with
  | nil =>
    cases hr
    exact ⟨h, rfl⟩
  | cons a as ih =>
    obtain ⟨m1, hs, hr⟩ := Lib.run_cons hr
    obtain ⟨h1, h2⟩ := ih (h.step hm.1.2 hs) (hm.2 m1 hs) hr
    refine ⟨h1, h2.trans ?_⟩
    by_contra hne
    have h0 := (h.released hm.1.2 hs hm.1.1 hne).1
    rw [h2, h0] at hl
    exact hl rfl

end Protocol

/-- In every run in which no `setLevel` names the level `NQUEUE` and a process: in every state
that is reached the scheduler lock is free or belongs to a process that has not ended, and
only the steps that `Releases` names give it up. From a successful `schedulerLock` of a
process on, until the lock is given up, every process the scheduler dispatches is that
process. -/
theorem scheduler_lock_protocol (w : Words) (as : List CoreAct) (m : Core)
    (hm : Lib.Meets coreStep (fun s a => ¬ s.WrongLevel a) (coreBoot w) as)
    (hr : Lib.run coreStep (coreBoot w) as = some m) :
    LockProtocol m ∧
      ∀ p password m1, m.cur = some p → coreStep m (.call (.schedulerLock password)) = some m1 →
        m1.t.lockpid = (m.t.proc p).pid →
        ∀ bs m2, Lib.Meets coreStep (fun s a => s.t.lockpid ≠ 0 ∧ ¬ s.WrongLevel a) m1 bs →
          Lib.run coreStep m1 bs = some m2 → m2.t.lockpid ≠ 0 →
          ∀ a m3 q, coreStep m2 a = some m3 → m2.cur = none → m3.cur = some q →
            (m3.t.proc q).pid = (m.t.proc p).pid := by
  have h : LockInv m := Lib.run_inv (fun _ _ _ h hw hs => h.step hw hs) as _ m (LockInv.boot w) hm hr
  refine ⟨h.protocol, fun p password m1 _ hs1 hl1 bs m2 hm2 hr2 hl2 a m3 q hs3 hc hq => ?_⟩
  obtain ⟨h2, he⟩ := (h.step id hs1).held hm2 hr2 hl2
  calc (m3.t.proc q).pid = m2.t.lockpid := h2.dispatched hs3 hl2 hc hq
    _ = m1.t.lockpid := he
    _ = (m.t.proc p).pid := hl1

def fails {α : Type} (r : Except Fault α) (e : Fault) : Bool :=
  match r with
  | .error f => f = e
  | .ok _ => false

theorem fails_iff {α : Type} {r : Except Fault α} {e : Fault} : fails r e = true ↔ r = .error e := by
  cases r <;> simp [fails]

/-- A kernel address, with slots of 148 bytes, and zeros behind the table. -/
def bssWords : Words where
  addr := fun p => 0x80112d54 + 148 * p.val - 2 ^ 32
  back := 0
  level := 0
  size := 0

/-- The first process has asked for level 2, and for level 3 with a pid that is not there;
it locks the scheduler, yields, and is dispatched again. -/
theorem scheduler_lock_protocol_yield : ∃ m m1 m2 m3,
    Lib.run coreStep (coreBoot bssWords)
        [.userinit, .choose, .call (.setLevel 1 2), .call (.setLevel 9 3)] = some m ∧
      coreStep m (.call (.schedulerLock PASSWORD)) = some m1 ∧
      Lib.run coreStep m1 [.call .yield] = some m2 ∧ m2.t.lockpid = 1 ∧
      coreStep m2 .choose = some m3 ∧ m3.cur = some 0 ∧
      (m3.t.proc 0).pid = (m.t.proc 0).pid := by
  have h0 : (Lib.run coreStep (coreBoot bssWords)
      [.userinit, .choose, .call (.setLevel 1 2), .call (.setLevel 9 3)]).any (fun m =>
        m.cur = some 0 ∧ (coreStep m (.call (.schedulerLock PASSWORD))).any (fun m1 =>
          m1.t.lockpid = (m.t.proc 0).pid ∧ m1.t.lockpid = 1 ∧
          (Lib.run coreStep m1 [.call .yield]).any (fun m2 => m2.t.lockpid = 1 ∧ m2.cur = none ∧
            (coreStep m2 .choose).any (fun m3 => m3.cur = some 0)))) := by
    decide +kernel
  obtain ⟨m, hr, h1⟩ := (Option.any_eq_true _ _).mp h0
  obtain ⟨hc, h1⟩ := of_decide_eq_true h1
  obtain ⟨m1, hs1, h2⟩ := (Option.any_eq_true _ _).mp h1
  obtain ⟨hl1, hone, h2⟩ := of_decide_eq_true h2
  obtain ⟨m2, hr2, h3⟩ := (Option.any_eq_true _ _).mp h2
  obtain ⟨hl2, hc2, h3⟩ := of_decide_eq_true h3
  obtain ⟨m3, hs3, hc3⟩ := (Option.any_eq_true _ _).mp h3
  have hc3 := of_decide_eq_true hc3
  refine ⟨m, m1, m2, m3, hr, hs1, hr2, hl2, hs3, hc3, ?_⟩
  refine (scheduler_lock_protocol bssWords _ m (by decide +kernel) hr).2 0 PASSWORD m1 hc hs1 hl1
    [.call .yield] m2 ⟨⟨by simp [hone], id⟩, fun _ _ => trivial⟩ hr2 (by simp [hl2]) .choose m3 0 hs3 hc2 hc3

/-- The first process moves itself to level 3: `lockpid` is its address and no pid, and the
next round of the scheduler follows a null pointer. -/
theorem setLevel_takes_lock : ∃ m m1,
    Lib.run coreStep (coreBoot bssWords) [.userinit, .choose, .call (.setLevel 1 3)] = some m ∧
      m.t.lockpid = bssWords.addr 0 ∧ ¬ LockProtocol m ∧
      coreStep m (.call .yield) = some m1 ∧ m1.cur = none ∧ coreExec m1 .choose = .error .nullDeref := by
  have h0 : (Lib.run coreStep (coreBoot bssWords) [.userinit, .choose, .call (.setLevel 1 3)]).any (fun m =>
      m.t.lockpid = bssWords.addr 0 ∧ m.t.lockpid ≠ 0 ∧ getProc m.t m.t.lockpid = none ∧
      (coreStep m (.call .yield)).any (fun m1 => m1.cur = none ∧ fails (coreExec m1 .choose) .nullDeref)) := by
    decide +kernel
  obtain ⟨m, hr, h1⟩ := (Option.any_eq_true _ _).mp h0
  obtain ⟨hl, hne, hp, h1⟩ := of_decide_eq_true h1
  obtain ⟨m1, hs1, h2⟩ := (Option.any_eq_true _ _).mp h1
  obtain ⟨hc, h2⟩ := of_decide_eq_true h2
  refine ⟨m, m1, hr, hl, fun h => ?_, hs1, hc, ?_⟩
  · rcases h.holder with h0 | ⟨p, h3, -⟩
    · exact hne h0
    · rw [hp] at h3
      cases h3
  · exact fails_iff.mp h2

end Xv6.Mlfq
