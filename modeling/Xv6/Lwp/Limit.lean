import Xv6.Lwp.Records

/- The memory limit of a process (`setmemorylimit` and `growproc` of
   `project2_LWP/proc.c`). `sz` and `limit` are written by six calls, most of them
   without a lock, and only `growproc` and `setmemorylimit` compare the two.

   `Mem` is the process table with, for every thread, how far it is in one of these
   calls. A step is one stretch of code of the current thread of a process between
   two accesses to `sz` or `limit`; a process may switch between its threads before
   every step, and the steps of different processes come in any order. A call under
   `ptable.lock` is one step. -/
namespace Xv6.Lwp

/-- A `uint` plus an `int`. -/
def addU (a : Nat) (n : Int) : Nat := ((a + n) % 2 ^ 32).toNat

/-- The slot of a process in use, for its pid. -/
def getProc (proc : Slot → Proc) (pid : Int) : Option Slot :=
  (List.finRange NPROC).find? (fun p => (proc p).pid = pid ∧ (proc p).state ≠ .UNUSED)

/-- The size `growproc(n)` asks for, from the size and the limit it has read. -/
def growTarget (sz limit : Nat) (n : Int) : Nat :=
  if limit ≠ 0 ∧ addU sz n > limit then limit else addU sz n

/-- `allocuvm(pgdir, oldsz, newsz)`; `mapped` says whether the pages can be had. -/
def allocuvm (oldsz newsz : Nat) (mapped : Bool) : Nat :=
  if newsz ≥ KERNBASE then 0
  else if newsz < oldsz then oldsz
  else if mapped then newsz else 0

/-- `deallocuvm(pgdir, oldsz, newsz)`. -/
def deallocuvm (oldsz newsz : Nat) : Nat := if newsz ≥ oldsz then oldsz else newsz

/-- The size `growproc(n)` writes: `sz` is the size it has read and `target` what
it asks for. `none` when it returns -1. -/
def grown (sz target : Nat) (n : Int) (mapped : Bool) : Option Nat :=
  if 0 < n then
    if allocuvm sz target mapped = 0 then none else some (allocuvm sz target mapped)
  else if n < 0 then
    if deallocuvm sz (addU sz n) = 0 then none else some (deallocuvm sz (addU sz n))
  else some sz

/-- How far a thread is in a call that reads or writes `sz` or `limit`. -/
inductive MemPc where
  | idle
  | limitFound (q : Slot) (limit : Nat)
  | limitChecked (q : Slot) (limit : Nat)
  | grow (n : Int) (sz target : Nat)
  | forkAlloc (np : Slot)
  | forkSz (np : Slot)
  | forkLimit (np : Slot)
  | undoAlloc (np : Slot) (th : Option ThIdx)
  | undoFork (np : Slot)
  | execKill (n : Nat) (pages : Nat)
  | execLoad (pages : Nat)
  deriving DecidableEq, Repr

inductive MemCall where
  | setmemorylimit (pid limit : Int)
  | limitCheck
  | limitWrite
  | sbrk (n : Int)
  | growEnd (mapped : Bool)
  | threadCreate (page : Option Nat) (mapped copied : Bool)
  | threadExit (retval : Nat)
  | threadJoin (j : ThIdx)
  | fork (page : Option Nat)
  | forkFail
  | forkSz
  | forkLimit
  | forkFinish
  | forkUndo
  | exec (stacksize : Int)
  | execKill
  | execCommit (img : Nat)
  | execFail
  | exit
  | wait
  deriving DecidableEq, Repr

/-- A process switches to another of its threads, or its current thread goes on. -/
inductive MemAct where
  | switch (p : Slot) (i : ThIdx)
  | call (p : Slot) (k : MemCall)
  deriving DecidableEq, Repr

structure Mem where
  proc : Slot → Proc
  pos : Slot → ThIdx → MemPc
  initproc : Slot
  nextpid : Int
  nexttid : Nat

namespace Mem

def setProc (m : Mem) (p : Slot) (x : Proc) : Mem :=
  { m with proc := fun q => if q = p then x else m.proc q }

def setPos (m : Mem) (p : Slot) (i : ThIdx) (pc : MemPc) : Mem :=
  { m with pos := fun q j => if q = p ∧ j = i then pc else m.pos q j }

/-- The position of the current thread of `p`. -/
def cur (m : Mem) (p : Slot) : MemPc := m.pos p (m.proc p).thidx

/-- The current thread of `p` moves on to `pc`. -/
def goto (m : Mem) (p : Slot) (pc : MemPc) : Mem := m.setPos p (m.proc p).thidx pc

/-- `setmemorylimit` up to its test of `limit`. -/
def setmemorylimit (m : Mem) (p : Slot) (pid limit : Int) : Mem :=
  match getProc m.proc pid with
  | none => m
  | some q => if limit < 0 then m else m.goto p (.limitFound q limit.toNat)

/-- `thread_create`, without its effect on `ptable.lock`. -/
def threadCreate (m : Mem) (p : Slot) (page : Option Nat) (mapped copied : Bool) : Mem :=
  match (m.proc p).allocth m.nexttid with
  | none => m
  | some (j, x) =>
    match page with
    | none =>
      { m.setProc p (x.setThread j { x.thread j with kstack := 0, state := .UNUSED }) with
        nexttid := m.nexttid + 1 }
    | some a =>
      match (x.kernelStack j a).userStack j mapped copied with
      | .ok y => { (m.setProc p y).setPos p j .idle with nexttid := m.nexttid + 1 }
      | .error y => { m.setProc p y with nexttid := m.nexttid + 1 }

/-- The slot `np` with its kernel stack, or given back if there is none. -/
def kstackOf (x : Proc) : Option Nat → Proc
  | some a => { x with kstack := a, tf := Proc.tfOf a, context := Proc.contextOf a }
  | none => { x with kstack := 0, state := .UNUSED }

/-- `fork` goes on with the slot `np` if `kalloc` has returned a page. If not, `allocproc`
has yet to give back the thread slot `th`. -/
def forkPos (np : Slot) (th : Option ThIdx) : Option Nat → MemPc
  | some _ => .forkAlloc np
  | none => .undoAlloc np th

/-- `allocproc` in `fork`; `page` is what `kalloc` returns. -/
def allocproc (m : Mem) (p : Slot) (page : Option Nat) : Mem :=
  match (List.finRange NPROC).find? (fun q => (m.proc q).state = .UNUSED) with
  | none => m
  | some np =>
    match (m.proc np).allocth m.nexttid with
    | none =>
      { (m.setProc np (kstackOf ((m.proc np).embryo m.nextpid) page)).goto p
          (forkPos np none page) with
        nextpid := m.nextpid + 1 }
    | some (j, x) =>
      { (m.setProc np (kstackOf (x.embryo m.nextpid) page)).goto p (forkPos np (some j) page) with
        nextpid := m.nextpid + 1, nexttid := m.nexttid + 1 }

/-- The second write of a failed `allocproc`, to the slot `allocth` returned; without
`ptable.lock` it comes when the slot `np` may be another process's. `thread[-1].state` is
the word of `freedustack[58]`. -/
def undoAlloc (m : Mem) (np : Slot) : Option ThIdx → Mem
  | some j => m.setProc np ((m.proc np).setThread j { (m.proc np).thread j with state := .UNUSED })
  | none => m.setProc np ((m.proc np).setFreed 58 0)

/-- The second write of a failed `fork`, to `np->thread[np->thidx]`. -/
def undoFork (m : Mem) (np : Slot) : Mem := m.undoAlloc np (some (m.proc np).thidx)

/-- One iteration of the loop of `exec` over the thread slots. -/
def execKill (m : Mem) (p : Slot) (n pages : Nat) : Mem :=
  if h : n < NTHREAD then
    if ⟨n, h⟩ = (m.proc p).thidx then m.goto p (.execKill (n + 1) pages)
    else ((m.setProc p ((m.proc p).execKill ⟨n, h⟩)).setPos p ⟨n, h⟩ .idle).goto p
      (.execKill (n + 1) pages)
  else m.goto p (.execLoad pages)

/-- `exit`; the children pass to `initproc`. -/
def exit (m : Mem) (p : Slot) : Mem :=
  { m.setProc p { m.proc p with state := .ZOMBIE } with
    proc := fun q =>
      let x := (m.setProc p { m.proc p with state := .ZOMBIE }).proc q
      if x.parent = some p then { x with parent := some m.initproc } else x }

/-- One pass of `wait`: the first zombie child is reaped. -/
def wait (m : Mem) (p : Slot) : Mem :=
  match (List.finRange NPROC).find? (fun q =>
      (m.proc q).parent = some p ∧ (m.proc q).state = .ZOMBIE) with
  | some q =>
    { m.setProc q (m.proc q).reap with pos := fun r j => if r = q then .idle else m.pos r j }
  | none => m

/-- The current thread of `p` makes a call, or goes on in one. -/
def call (m : Mem) (p : Slot) (k : MemCall) : Option Mem :=
  match k, m.cur p with
  | .setmemorylimit pid limit, .idle => some (m.setmemorylimit p pid limit)
  | .limitCheck, .limitFound q limit =>
    if (m.proc q).sz > limit then some (m.goto p .idle) else some (m.goto p (.limitChecked q limit))
  | .limitWrite, .limitChecked q limit =>
    some ((m.setProc q { m.proc q with limit := limit }).goto p .idle)
  | .sbrk n, .idle =>
    some (m.goto p (.grow n (m.proc p).sz (growTarget (m.proc p).sz (m.proc p).limit n)))
  | .growEnd mapped, .grow n sz target =>
    match grown sz target n mapped with
    | none => some (m.goto p .idle)
    | some sz' => some ((m.setProc p { m.proc p with sz := sz' }).goto p .idle)
  | .threadCreate page mapped copied, .idle => some (m.threadCreate p page mapped copied)
  | .threadExit retval, .idle => some (m.setProc p ((m.proc p).threadExit retval))
  | .threadJoin j, .idle =>
    if ((m.proc p).thread j).state = .ZOMBIE then some (m.setProc p ((m.proc p).joinReap j))
    else none
  | .fork page, .idle => some (m.allocproc p page)
  | .forkFail, .forkAlloc np =>
    some ((m.setProc np { m.proc np with pgdir := none, kstack := 0, state := .UNUSED }).goto p
      (.undoFork np))
  | .forkSz, .forkAlloc np =>
    some ((m.setProc np { m.proc np with
      pgdir := some (m.proc p).copyuvm, sz := (m.proc p).sz, parent := some p }).goto p (.forkSz np))
  | .forkLimit, .forkSz np =>
    -- the size is the one copied before
    some ((m.setProc np { Proc.forkFields (m.proc p) (m.proc np) p with
      sz := (m.proc np).sz }).goto p (.forkLimit np))
  | .forkFinish, .forkLimit np => some ((m.setProc np (m.proc np).forkFinish).goto p .idle)
  | .forkUndo, .undoAlloc np th => some ((m.undoAlloc np th).goto p .idle)
  | .forkUndo, .undoFork np => some ((m.undoFork np).goto p .idle)
  | .exec stacksize, .idle => some (m.goto p (.execKill 0 (Proc.clampStack stacksize)))
  | .execKill, .execKill n pages => some (m.execKill p n pages)
  | .execCommit img, .execLoad pages =>
    if Proc.stackTop img pages < KERNBASE then
      some ((m.setProc p ((m.proc p).execCommit img pages)).goto p .idle)
    else none
  | .execFail, .execLoad _ => some (m.goto p .idle)
  | .exit, .idle => if p = m.initproc then none else some (m.exit p)
  | .wait, .idle => some (m.wait p)
  | _, _ => none

end Mem

def memStep (m : Mem) : MemAct → Option Mem
  | .switch p i =>
    if (m.proc p).state = .RUNNABLE ∨ (m.proc p).state = .RUNNING then
      if ((m.proc p).thread i).state = .UNUSED ∨ ((m.proc p).thread i).state = .EMBRYO ∨
          ((m.proc p).thread i).state = .ZOMBIE then none
      else some (m.setProc p { m.proc p with thidx := i })
    else none
  | .call p k =>
    if (m.proc p).state = .RUNNABLE ∨ (m.proc p).state = .RUNNING then m.call p k else none

/-! ## What a call can do -/

/-- The calls of the current thread of `p`, with the position of each and the table
it leaves. -/
inductive MemStep (m : Mem) (p : Slot) : MemCall → Mem → Prop where
  | setmemorylimit {pid limit : Int} : MemStep m p (.setmemorylimit pid limit)
      (m.setmemorylimit p pid limit)
  | checkFail {q : Slot} {limit : Nat} (hpc : m.cur p = .limitFound q limit) :
    MemStep m p .limitCheck (m.goto p .idle)
  | limitCheck {q : Slot} {limit : Nat} (hpc : m.cur p = .limitFound q limit) :
    MemStep m p .limitCheck (m.goto p (.limitChecked q limit))
  | limitWrite {q : Slot} {limit : Nat} (hpc : m.cur p = .limitChecked q limit) :
    MemStep m p .limitWrite ((m.setProc q { m.proc q with limit := limit }).goto p .idle)
  | sbrk {n : Int} : MemStep m p (.sbrk n)
      (m.goto p (.grow n (m.proc p).sz (growTarget (m.proc p).sz (m.proc p).limit n)))
  | growFail {mapped : Bool} : MemStep m p (.growEnd mapped) (m.goto p .idle)
  | growEnd {n : Int} {sz target sz' : Nat} {mapped : Bool} (hpc : m.cur p = .grow n sz target)
    (hg : grown sz target n mapped = some sz') :
    MemStep m p (.growEnd mapped) ((m.setProc p { m.proc p with sz := sz' }).goto p .idle)
  | threadCreate {page : Option Nat} {mapped copied : Bool} :
    MemStep m p (.threadCreate page mapped copied) (m.threadCreate p page mapped copied)
  | threadExit {retval : Nat} :
    MemStep m p (.threadExit retval) (m.setProc p ((m.proc p).threadExit retval))
  | threadJoin {j : ThIdx} : MemStep m p (.threadJoin j) (m.setProc p ((m.proc p).joinReap j))
  | fork {page : Option Nat} : MemStep m p (.fork page) (m.allocproc p page)
  | forkFail {np : Slot} (hpc : m.cur p = .forkAlloc np) :
    MemStep m p .forkFail
      ((m.setProc np { m.proc np with pgdir := none, kstack := 0, state := .UNUSED }).goto p (.undoFork np))
  | forkSz {np : Slot} (hpc : m.cur p = .forkAlloc np) :
    MemStep m p .forkSz ((m.setProc np { m.proc np with
      pgdir := some (m.proc p).copyuvm, sz := (m.proc p).sz, parent := some p }).goto p (.forkSz np))
  | forkLimit {np : Slot} (hpc : m.cur p = .forkSz np) :
    MemStep m p .forkLimit ((m.setProc np { Proc.forkFields (m.proc p) (m.proc np) p with
      sz := (m.proc np).sz }).goto p (.forkLimit np))
  | forkFinish {np : Slot} (hpc : m.cur p = .forkLimit np) :
    MemStep m p .forkFinish ((m.setProc np (m.proc np).forkFinish).goto p .idle)
  | forkUndo {np : Slot} {th : Option ThIdx} :
    MemStep m p .forkUndo ((m.undoAlloc np th).goto p .idle)
  | exec {stacksize : Int} :
    MemStep m p (.exec stacksize) (m.goto p (.execKill 0 (Proc.clampStack stacksize)))
  | execKill {n pages : Nat} : MemStep m p .execKill (m.execKill p n pages)
  | execCommit {img pages : Nat} (hpc : m.cur p = .execLoad pages) :
    MemStep m p (.execCommit img) ((m.setProc p ((m.proc p).execCommit img pages)).goto p .idle)
  | execFail : MemStep m p .execFail (m.goto p .idle)
  | exit : MemStep m p .exit (m.exit p)
  | wait : MemStep m p .wait (m.wait p)

theorem Mem.call_step {m m' : Mem} {p : Slot} {k : MemCall} (h : m.call p k = some m') :
    MemStep m p k m' := by
  unfold Mem.call at h
  split at h
  · cases h; exact .setmemorylimit
  · split at h <;> cases h
    · exact .checkFail ‹_›
    · exact .limitCheck ‹_›
  · cases h; exact .limitWrite ‹_›
  · cases h; exact .sbrk
  · split at h <;> cases h
    · exact .growFail
    · exact .growEnd ‹_› ‹_›
  · cases h; exact .threadCreate
  · cases h; exact .threadExit
  · split at h <;> cases h
    exact .threadJoin
  · cases h; exact .fork
  · cases h; exact .forkFail ‹_›
  · cases h; exact .forkSz ‹_›
  · cases h; exact .forkLimit ‹_›
  · cases h; exact .forkFinish ‹_›
  · cases h; exact .forkUndo
  · cases h; exact .forkUndo
  · cases h; exact .exec
  · cases h; exact .execKill
  · split at h <;> cases h
    exact .execCommit ‹_›
  · cases h; exact .execFail
  · split at h <;> cases h
    exact .exit
  · cases h; exact .wait
  · cases h

/-! ## The invariant -/

/-- The size of the process is within its limit, if it has one. -/
def Proc.Within (x : Proc) : Prop := x.limit ≠ 0 → x.sz ≤ x.limit

/-- The slot a thread builds in the middle of `fork`. -/
def MemPc.claim : MemPc → Option Slot
  | .forkAlloc np | .forkSz np | .forkLimit np => some np
  | _ => none

/-- The thread has read the size or the limit of its process, and writes one of them
later. -/
def MemPc.inFlight : MemPc → Bool
  | .grow _ _ _ | .forkSz _ => true
  | _ => false

/-- A position that depends on no size and no limit. -/
def MemPc.Plain (pc : MemPc) : Prop := pc.claim = none ∧ pc.inFlight = false

structure MemInv (m : Mem) : Prop where
  live : ∀ p, (m.proc p).Live → (m.proc p).Within
  grow : ∀ p i n sz target, (m.proc p).Live → m.pos p i = .grow n sz target →
    (m.proc p).limit ≠ 0 → sz ≤ (m.proc p).limit ∧ target ≤ (m.proc p).limit
  claim : ∀ p i np, (m.pos p i).claim = some np → (m.proc np).state = .EMBRYO
  owner : ∀ p i q j np, (m.pos p i).claim = some np → (m.pos q j).claim = some np → p = q ∧ i = j
  copied : ∀ p i np, (m.proc p).Live → m.pos p i = .forkSz np →
    (m.proc p).limit ≠ 0 → (m.proc np).sz ≤ (m.proc p).limit
  child : ∀ p i np, m.pos p i = .forkLimit np → (m.proc np).Within
  fresh : ∀ p i, (m.proc p).Unborn → m.pos p i = .idle

theorem grown_le {sz target sz' L : Nat} {n : Int} {mapped : Bool} (hs : sz ≤ L) (ht : target ≤ L)
    (h : grown sz target n mapped = some sz') : sz' ≤ L := by
  unfold grown allocuvm deallocuvm at h
  split_ifs at h <;> cases h <;> omega

theorem growTarget_le (sz : Nat) {limit : Nat} (n : Int) (h : limit ≠ 0) :
    growTarget sz limit n ≤ limit := by
  unfold growTarget
  split_ifs with hc
  · exact Nat.le_refl _
  · have : ¬ addU sz n > limit := fun hgt => hc ⟨h, hgt⟩
    omega

theorem Proc.Live.not_unborn {x : Proc} (h : x.Live) : ¬ x.Unborn := by
  rcases h with h | h <;> simp [Proc.Unborn, h]

theorem MemInv.not_live {m : Mem} (h : MemInv m) {p np : Slot} {i : ThIdx}
    (hc : (m.pos p i).claim = some np) : ¬ (m.proc np).Live := by
  have hs := h.claim p i np hc
  simp [Proc.Live, hs]

section Rules

variable {m m' : Mem} {p np : Slot} {i : ThIdx}

/-- Sizes and limits are the same, no process has become live, and no thread is at a
new position that depends on them. -/
theorem MemInv.frame (h : MemInv m) (hsz : ∀ q, (m'.proc q).sz = (m.proc q).sz)
    (hlim : ∀ q, (m'.proc q).limit = (m.proc q).limit)
    (hlive : ∀ q, (m'.proc q).Live → (m.proc q).Live)
    (hemb : ∀ q, (m.proc q).state = .EMBRYO → (m'.proc q).state = .EMBRYO)
    (hpos : ∀ q j, m'.pos q j = m.pos q j ∨ (m'.pos q j).Plain)
    (hfresh : ∀ q j, (m'.proc q).Unborn → m'.pos q j = .idle) : MemInv m' := by
  have hclaim : ∀ q j r, (m'.pos q j).claim = some r → (m.pos q j).claim = some r := by
    intro q j r hc
    rcases hpos q j with he | he
    · rw [← he]; exact hc
    · simp [he.1] at hc
  have hold : ∀ q j pc, m'.pos q j = pc → ¬ pc.Plain → m.pos q j = pc := by
    intro q j pc hc hn
    rcases hpos q j with he | he
    · rw [← he]; exact hc
    · exact absurd (hc ▸ he) hn
  constructor
  · intro q hq
    unfold Proc.Within
    rw [hsz q, hlim q]
    exact h.live q (hlive q hq)
  · intro q j n sz target hq hpc
    rw [hlim q]
    exact h.grow q j n sz target (hlive q hq) (hold q j _ hpc (by simp [MemPc.Plain, MemPc.inFlight]))
  · exact fun q j r hc => hemb r (h.claim q j r (hclaim q j r hc))
  · exact fun q j q' j' r hc hc' => h.owner q j q' j' r (hclaim q j r hc) (hclaim q' j' r hc')
  · intro q j r hq hpc
    rw [hlim q, hsz r]
    exact h.copied q j r (hlive q hq) (hold q j _ hpc (by simp [MemPc.Plain, MemPc.inFlight]))
  · intro q j r hpc
    unfold Proc.Within
    rw [hsz r, hlim r]
    exact h.child q j r (hold q j _ hpc (by simp [MemPc.Plain, MemPc.claim]))
  · exact hfresh

/-- The current thread moves on to a plain position. -/
theorem MemInv.goto (h : MemInv m) (hp : (m.proc p).Live) {pc : MemPc} (hpc : pc.Plain) :
    MemInv (m.goto p pc) := by
  refine h.frame (fun _ => rfl) (fun _ => rfl) (fun _ hq => hq) (fun _ hq => hq) ?_ ?_
  · intro q j
    by_cases he : q = p ∧ j = (m.proc p).thidx
    · exact .inr (by simpa [Mem.goto, Mem.setPos, he] using hpc)
    · exact .inl (by simp [Mem.goto, Mem.setPos, he])
  · intro q j hu
    have hqp : q ≠ p := by
      intro he
      exact hp.not_unborn (he ▸ hu)
    simpa [Mem.goto, Mem.setPos, hqp] using h.fresh q j hu

/-- A thread is gone, or has just been made. -/
theorem MemInv.clear (h : MemInv m) (p : Slot) (i : ThIdx) : MemInv (m.setPos p i .idle) := by
  refine h.frame (fun _ => rfl) (fun _ => rfl) (fun _ hq => hq) (fun _ hq => hq) ?_ ?_
  · intro q j
    by_cases he : q = p ∧ j = i
    · exact .inr (by simp [Mem.setPos, he, MemPc.Plain, MemPc.claim, MemPc.inFlight])
    · exact .inl (by simp [Mem.setPos, he])
  · intro q j hu
    by_cases he : q = p ∧ j = i
    · simp [Mem.setPos, he]
    · simpa [Mem.setPos, he] using h.fresh q j hu

/-- A live process has another size, within its limit. -/
theorem MemInv.resize (h : MemInv m) (hp : (m.proc p).Live) {x : Proc}
    (hx : x.Live ∨ x.state = .ZOMBIE) (hl : x.limit = (m.proc p).limit) (hw : x.Within) :
    MemInv (m.setProc p x) := by
  have hself : (m.setProc p x).proc p = x := by simp [Mem.setProc]
  have hother : ∀ {q}, q ≠ p → (m.setProc p x).proc q = m.proc q := by
    intro q hq
    simp [Mem.setProc, hq]
  have hlim : ∀ q, ((m.setProc p x).proc q).limit = (m.proc q).limit := by
    intro q
    by_cases hq : q = p
    · rw [hq, hself, hl]
    · rw [hother hq]
  have hlive : ∀ q, ((m.setProc p x).proc q).Live → (m.proc q).Live := by
    intro q hq
    by_cases hqp : q = p
    · rw [hqp]
      exact hp
    · rwa [hother hqp] at hq
  -- a slot under construction is not `p`
  have hne : ∀ q j r, (m.pos q j).claim = some r → r ≠ p := by
    intro q j r hc hr
    exact h.not_live hc (hr ▸ hp)
  constructor
  · intro q hq
    by_cases hqp : q = p
    · rw [hqp, hself]
      exact hw
    · rw [hother hqp] at hq ⊢
      exact h.live q hq
  · intro q j n sz target hq hpc
    rw [hlim q]
    exact h.grow q j n sz target (hlive q hq) hpc
  · intro q j r hc
    rw [hother (hne q j r hc)]
    exact h.claim q j r hc
  · exact h.owner
  · intro q j r hq hpc
    have hc : (m.pos q j).claim = some r := by
      have hpc' : m.pos q j = .forkSz r := hpc
      rw [hpc']; rfl
    rw [hlim q, hother (hne q j r hc)]
    exact h.copied q j r (hlive q hq) hpc
  · intro q j r hpc
    have hc : (m.pos q j).claim = some r := by
      have hpc' : m.pos q j = .forkLimit r := hpc
      rw [hpc']; rfl
    rw [hother (hne q j r hc)]
    exact h.child q j r hpc
  · intro q j hu
    by_cases hqp : q = p
    · rw [hqp, hself] at hu
      rcases hx with hx | hx
      · exact absurd hu hx.not_unborn
      · simp [Proc.Unborn, hx] at hu
    · rw [hother hqp] at hu
      exact h.fresh q j hu

/-- A process has another limit, which its size does not exceed, and no thread of it
goes by the old one. -/
theorem MemInv.limitWrite (h : MemInv m) {q : Slot} {L : Nat} (hsz : (m.proc q).sz ≤ L)
    (hq : ∀ j, (m.pos q j).inFlight = false) :
    MemInv (m.setProc q { m.proc q with limit := L }) := by
  obtain ⟨x, hx⟩ : ∃ x, x = { m.proc q with limit := L } := ⟨_, rfl⟩
  rw [← hx]
  have hself : (m.setProc q x).proc q = x := by simp [Mem.setProc]
  have hother : ∀ {r}, r ≠ q → (m.setProc q x).proc r = m.proc r := by
    intro r hr
    simp [Mem.setProc, hr]
  have hstate : ∀ r, ((m.setProc q x).proc r).state = (m.proc r).state := by
    intro r
    by_cases hr : r = q
    · rw [hr, hself, hx]
    · rw [hother hr]
  have hszs : ∀ r, ((m.setProc q x).proc r).sz = (m.proc r).sz := by
    intro r
    by_cases hr : r = q
    · rw [hr, hself, hx]
    · rw [hother hr]
  have hlive : ∀ r, ((m.setProc q x).proc r).Live → (m.proc r).Live := by
    intro r hr
    unfold Proc.Live at hr
    rwa [hstate r] at hr
  have hw : x.Within := fun _ => by rw [hx]; exact hsz
  constructor
  · intro r hr
    by_cases hrq : r = q
    · rw [hrq, hself]
      exact hw
    · rw [hother hrq]
      exact h.live r (hlive r hr)
  · intro r j n sz target hr hpc
    by_cases hrq : r = q
    · have hpc' : m.pos r j = .grow n sz target := hpc
      have hf := hq j
      rw [← hrq, hpc'] at hf
      cases hf
    · rw [hother hrq]
      exact h.grow r j n sz target (hlive r hr) hpc
  · intro r j s hc
    rw [hstate s]
    exact h.claim r j s hc
  · exact h.owner
  · intro r j s hr hpc
    by_cases hrq : r = q
    · have hpc' : m.pos r j = .forkSz s := hpc
      have hf := hq j
      rw [← hrq, hpc'] at hf
      cases hf
    · rw [hother hrq, hszs s]
      exact h.copied r j s (hlive r hr) hpc
  · intro r j s hpc
    by_cases hsq : s = q
    · rw [hsq, hself]
      exact hw
    · rw [hother hsq]
      exact h.child r j s hpc
  · intro r j hu
    unfold Proc.Unborn at hu
    rw [hstate r] at hu
    exact h.fresh r j hu

/-- The current thread of `p` changes the slot `np`, which is free or which it builds,
and moves on to `pc`. -/
theorem MemInv.build (h : MemInv m) (hp : (m.proc p).Live) (hn : (m.proc np).Unborn)
    (hown : ∀ q j, (m.pos q j).claim = some np → q = p ∧ j = (m.proc p).thidx) {x : Proc} {pc : MemPc}
    (hpc : ∀ r, pc.claim = some r → r = np ∧ x.state = .EMBRYO)
    (hgrow : ∀ n sz target, pc ≠ .grow n sz target)
    (hcopy : pc = .forkSz np → (m.proc p).limit ≠ 0 → x.sz ≤ (m.proc p).limit)
    (hchild : pc = .forkLimit np → x.Within) (hx : x.Live → x.Within) : MemInv ((m.setProc np x).goto p pc) := by
  have hpn : p ≠ np := by
    intro he
    exact hp.not_unborn (he ▸ hn)
  have hself : ((m.setProc np x).goto p pc).proc np = x := by
    simp [Mem.goto, Mem.setPos, Mem.setProc]
  have hother : ∀ {q}, q ≠ np → ((m.setProc np x).goto p pc).proc q = m.proc q := by
    intro q hq
    simp [Mem.goto, Mem.setPos, Mem.setProc, hq]
  have hth : ((m.setProc np x).proc p).thidx = (m.proc p).thidx := by
    simp [Mem.setProc, hpn]
  have hcur : ((m.setProc np x).goto p pc).pos p (m.proc p).thidx = pc := by
    simp [Mem.goto, Mem.setPos, hth]
  have hpos : ∀ q j, ¬ (q = p ∧ j = (m.proc p).thidx) →
      ((m.setProc np x).goto p pc).pos q j = m.pos q j := by
    intro q j hne
    rw [← hth] at hne
    simp [Mem.goto, Mem.setPos, hne]
    rfl
  -- the claim of another thread is an old one, on another slot
  have hclaim : ∀ q j r, (((m.setProc np x).goto p pc).pos q j).claim = some r →
      (q = p ∧ j = (m.proc p).thidx) ∧ r = np ∨
        ¬ (q = p ∧ j = (m.proc p).thidx) ∧ (m.pos q j).claim = some r ∧ r ≠ np := by
    intro q j r hc
    by_cases he : q = p ∧ j = (m.proc p).thidx
    · obtain ⟨rfl, rfl⟩ := he
      rw [hcur] at hc
      exact .inl ⟨⟨rfl, rfl⟩, (hpc r hc).1⟩
    · rw [hpos q j he] at hc
      refine .inr ⟨he, hc, ?_⟩
      intro hr
      exact he (hown q j (hr ▸ hc))
  constructor
  · intro q hq
    by_cases hqn : q = np
    · rw [hqn, hself] at hq ⊢
      exact hx hq
    · rw [hother hqn] at hq ⊢
      exact h.live q hq
  · intro q j n sz target hq hpc'
    by_cases he : q = p ∧ j = (m.proc p).thidx
    · obtain ⟨rfl, rfl⟩ := he
      rw [hcur] at hpc'
      exact absurd hpc' (hgrow n sz target)
    · rw [hpos q j he] at hpc'
      have hqn : q ≠ np := by
        intro hqn
        rw [h.fresh q j (hqn ▸ hn)] at hpc'
        cases hpc'
      rw [hother hqn] at hq ⊢
      exact h.grow q j n sz target hq hpc'
  · intro q j r hc
    rcases hclaim q j r hc with ⟨⟨rfl, rfl⟩, rfl⟩ | ⟨-, hc, hr⟩
    · rw [hcur] at hc
      rw [hself]
      exact (hpc r hc).2
    · rw [hother hr]
      exact h.claim q j r hc
  · intro q j q' j' r hc hc'
    rcases hclaim q j r hc with ⟨he, hr⟩ | ⟨-, hc, hr⟩ <;>
      rcases hclaim q' j' r hc' with ⟨he', hr'⟩ | ⟨-, hc', hr'⟩
    · exact ⟨he.1.trans he'.1.symm, he.2.trans he'.2.symm⟩
    · exact absurd hr hr'
    · exact absurd hr' hr
    · exact h.owner q j q' j' r hc hc'
  · intro q j r hq hpc'
    rcases hclaim q j r (by rw [hpc']; rfl) with ⟨⟨rfl, rfl⟩, rfl⟩ | ⟨he, -, hr⟩
    · rw [hcur] at hpc'
      rw [hself, hother hpn]
      exact hcopy hpc'
    · rw [hpos q j he] at hpc'
      have hqn : q ≠ np := by
        intro hqn
        rw [h.fresh q j (hqn ▸ hn)] at hpc'
        cases hpc'
      rw [hother hqn] at hq ⊢
      rw [hother hr]
      exact h.copied q j r hq hpc'
  · intro q j r hpc'
    rcases hclaim q j r (by rw [hpc']; rfl) with ⟨⟨rfl, rfl⟩, rfl⟩ | ⟨he, -, hr⟩
    · rw [hcur] at hpc'
      rw [hself]
      exact hchild hpc'
    · rw [hpos q j he] at hpc'
      rw [hother hr]
      exact h.child q j r hpc'
  · intro q j hu
    have hqp : q ≠ p := by
      intro he
      rw [he, hother hpn] at hu
      exact hp.not_unborn hu
    rw [hpos q j (fun he => hqp he.1)]
    by_cases hqn : q = np
    · rw [hqn]
      exact h.fresh np j hn
    · rw [hother hqn] at hu
      exact h.fresh q j hu

end Rules

/-! ## The condition -/

/-- The size `thread_create` leaves when the new thread gets the slot `j`: the reuse
of a freed stack rounds the size up, a new stack lies on top of it. -/
def Proc.createdSize (x : Proc) (j : ThIdx) : Nat :=
  if x.freedustack j ≠ 0 then PGROUNDUP x.sz else stackTop x.sz x.stacksize

/-- `thread_create` with the slot `j` comes to its write of `sz`: it has a kernel stack, a
user stack, and its arguments on it. -/
def Proc.creates (x : Proc) (j : ThIdx) (page : Option Nat) (mapped copied : Bool) : Prop :=
  page ≠ none ∧ copied = true ∧
    (x.freedustack j ≠ 0 ∨ mapped = true ∧ stackTop x.sz x.stacksize < KERNBASE)

instance Proc.creates.decidable (x : Proc) (j : ThIdx) (page : Option Nat) (mapped copied : Bool) :
    Decidable (x.creates j page mapped copied) :=
  inferInstanceAs (Decidable (_ ∧ _ ∧ (_ ∨ _)))

/-- The calls that do not look at the limit stay within it when they write a size, and
`setmemorylimit` writes a limit that its test still allows, while no thread of the process
is between a read of its size or limit and the write that follows. -/
def LimitKept (m : Mem) : MemAct → Prop
  | .call p (.threadCreate page mapped copied) =>
    match (m.proc p).allocth m.nexttid with
    | some (j, _) => (m.proc p).creates j page mapped copied → (m.proc p).limit ≠ 0 →
        (m.proc p).createdSize j ≤ (m.proc p).limit
    | none => True
  | .call p (.execCommit img) =>
    match m.cur p with
    | .execLoad pages => (m.proc p).limit ≠ 0 → Proc.stackTop img pages ≤ (m.proc p).limit
    | _ => True
  | .call p .limitWrite =>
    match m.cur p with
    | .limitChecked q limit => (m.proc q).sz ≤ limit ∧ ∀ j, (m.pos q j).inFlight = false
    | _ => True
  | _ => True

instance LimitKept.decidable (m : Mem) : (a : MemAct) → Decidable (LimitKept m a)
  | .call p (.threadCreate page mapped copied) =>
    match h : (m.proc p).allocth m.nexttid with
    | some (j, _) => decidable_of_iff
        ((m.proc p).creates j page mapped copied → (m.proc p).limit ≠ 0 →
          (m.proc p).createdSize j ≤ (m.proc p).limit) (by simp [LimitKept, h])
    | none => .isTrue (by simp [LimitKept, h])
  | .call p (.execCommit img) =>
    match h : m.cur p with
    | .execLoad pages => decidable_of_iff
        ((m.proc p).limit ≠ 0 → Proc.stackTop img pages ≤ (m.proc p).limit) (by simp [LimitKept, h])
    | .idle | .limitFound _ _ | .limitChecked _ _ | .grow _ _ _ | .forkAlloc _ | .forkSz _
    | .forkLimit _ | .undoAlloc _ _ | .undoFork _ | .execKill _ _ => .isTrue (by simp [LimitKept, h])
  | .call p .limitWrite =>
    match h : m.cur p with
    | .limitChecked q limit => decidable_of_iff
        ((m.proc q).sz ≤ limit ∧ ∀ j, (m.pos q j).inFlight = false) (by simp [LimitKept, h])
    | .idle | .limitFound _ _ | .execLoad _ | .grow _ _ _ | .forkAlloc _ | .forkSz _
    | .forkLimit _ | .undoAlloc _ _ | .undoFork _ | .execKill _ _ => .isTrue (by simp [LimitKept, h])
  | .switch _ _ | .call _ (.setmemorylimit _ _) | .call _ .limitCheck | .call _ (.sbrk _)
  | .call _ (.growEnd _) | .call _ (.threadExit _) | .call _ (.threadJoin _) | .call _ (.fork _)
  | .call _ .forkFail | .call _ .forkSz | .call _ .forkLimit | .call _ .forkFinish
  | .call _ .forkUndo | .call _ (.exec _) | .call _ .execKill | .call _ .execFail | .call _ .exit | .call _ .wait =>
    .isTrue trivial

/-! ## Steps -/

section Steps

variable {m m' : Mem} {p np : Slot}

/-- Ids do not matter. -/
theorem MemInv.congr (h : MemInv m) (hp : m'.proc = m.proc) (hpos : m'.pos = m.pos) : MemInv m' := by
  obtain ⟨h1, h2, h3, h4, h5, h6, h7⟩ := h
  rw [← hp, ← hpos] at *
  exact ⟨h1, h2, h3, h4, h5, h6, h7⟩

theorem MemInv.cur_claim (h : MemInv m) (hc : (m.cur p).claim = some np) :
    (m.proc np).state = .EMBRYO ∧
      ∀ q j, (m.pos q j).claim = some np → q = p ∧ j = (m.proc p).thidx :=
  ⟨h.claim p _ np hc, fun q j hq => h.owner q j p _ np hq hc⟩

/-- A free slot is claimed by nobody. -/
theorem MemInv.unclaimed (h : MemInv m) (hn : (m.proc np).state = .UNUSED) (q : Slot) (j : ThIdx) :
    (m.pos q j).claim ≠ some np := by
  intro hc
  have hs := h.claim q j np hc
  rw [hn] at hs
  cases hs

theorem Proc.Within.congr {x y : Proc} (h : x.Within) (hs : y.sz = x.sz) (hl : y.limit = x.limit) :
    y.Within := by
  unfold Proc.Within
  rw [hs, hl]
  exact h

/-- A live process is changed, but not its size, its limit or its life. -/
theorem MemInv.touch (h : MemInv m) (hp : (m.proc p).Live) {x : Proc} (hx : x.Live ∨ x.state = .ZOMBIE)
    (hs : x.sz = (m.proc p).sz) (hl : x.limit = (m.proc p).limit) : MemInv (m.setProc p x) :=
  h.resize hp hx hl ((h.live p hp).congr hs hl)

theorem Mem.setProc_live {x : Proc} (hx : x.Live) : ((m.setProc p x).proc p).Live := by
  simpa [Mem.setProc] using hx

theorem Proc.userStack_size {x y : Proc} {j : ThIdx} {mapped copied : Bool}
    (h : x.userStack j mapped copied = .ok y) : y.sz = x.createdSize j ∧ y.limit = x.limit ∧
      copied = true ∧ (x.freedustack j ≠ 0 ∨ mapped = true ∧ stackTop x.sz x.stacksize < KERNBASE) := by
  unfold Proc.userStack at h
  split_ifs at h with h1 h2 h3 <;> cases h
  · exact ⟨by simp [Proc.createdSize, h1, Proc.start], rfl, h2, .inl h1⟩
  · exact ⟨by simp [Proc.createdSize, h1, Proc.start], rfl, by assumption, .inr (by assumption)⟩

theorem Proc.userStack_failed {x y : Proc} {j : ThIdx} {mapped copied : Bool}
    (h : x.userStack j mapped copied = .error y) : y.sz = x.sz ∧ y.limit = x.limit := by
  unfold Proc.userStack at h
  split_ifs at h <;> cases h <;> exact ⟨rfl, rfl⟩

theorem MemInv.threadCreate (h : MemInv m) (hp : (m.proc p).Live) {page : Option Nat}
    {mapped copied : Bool} (hk : LimitKept m (.call p (.threadCreate page mapped copied))) :
    MemInv (m.threadCreate p page mapped copied) := by
  unfold Mem.threadCreate
  split
  · exact h
  · rename_i j x hx
    simp only [LimitKept, hx] at hk
    obtain ⟨-, rfl⟩ := Proc.allocth_eq hx
    split
    · have h1 := h.touch hp (x := ((m.proc p).setThread j
        { (m.proc p).thread j with tid := m.nexttid, state := .EMBRYO }).setThread j
        { ((m.proc p).setThread j
          { (m.proc p).thread j with tid := m.nexttid, state := .EMBRYO }).thread j with
            kstack := 0, state := .UNUSED }) (.inl hp) rfl rfl
      exact h1.congr rfl rfl
    · rename_i a
      split
      · rename_i y hy
        obtain ⟨hsz, hl, hcopied, hroom⟩ := Proc.userStack_size hy
        have hlim : y.limit = (m.proc p).limit := hl
        have hlive : y.Live := by
          unfold Proc.Live
          rw [Proc.userStack_state (.inl hy)]
          exact hp
        have hw : y.Within := by
          unfold Proc.Within
          rw [hsz, hlim]
          exact hk ⟨Option.some_ne_none a, hcopied, hroom⟩
        have h1 := (h.resize hp (.inl hlive) hlim hw).clear p j
        exact h1.congr rfl rfl
      · rename_i y hy
        have hsz : y.sz = (m.proc p).sz := (Proc.userStack_failed hy).1
        have hlim : y.limit = (m.proc p).limit := (Proc.userStack_failed hy).2
        have hlive : y.Live := by
          unfold Proc.Live
          rw [Proc.userStack_state (.inr hy)]
          exact hp
        have h1 := h.touch hp (.inl hlive) hsz hlim
        exact h1.congr rfl rfl

theorem Mem.kstackOf_state (x : Proc) (page : Option Nat) :
    (Mem.kstackOf x page).state = x.state ∨ (Mem.kstackOf x page).state = .UNUSED := by
  cases page with
  | some a => exact .inl rfl
  | none => exact .inr rfl

theorem MemInv.allocproc (h : MemInv m) (hp : (m.proc p).Live) (page : Option Nat) :
    MemInv (m.allocproc p page) := by
  unfold Mem.allocproc
  split
  · exact h
  · rename_i np hnp
    have hn : (m.proc np).state = .UNUSED := by simpa using List.find?_some hnp
    have hbuild : ∀ x th, MemInv ((m.setProc np (Mem.kstackOf (Proc.embryo x m.nextpid) page)).goto p
        (Mem.forkPos np th page)) := by
      intro x th
      have hst := Mem.kstackOf_state (Proc.embryo x m.nextpid) page
      refine h.build hp (.inl hn) (fun q j hq => absurd hq (h.unclaimed hn q j)) ?_ ?_ ?_ ?_ ?_
      · intro r hr
        cases page with
        | some a => exact ⟨(Option.some.inj hr).symm, rfl⟩
        | none => cases hr
      · intro n sz target hpc
        cases page <;> cases hpc
      · intro hpc
        cases page <;> cases hpc
      · intro hpc
        cases page <;> cases hpc
      · intro hlive
        rcases hst with hst | hst
        · exact absurd (.inr hst) hlive.not_unborn
        · exact absurd (.inl hst) hlive.not_unborn
    split
    · exact (hbuild (m.proc np) none).congr rfl rfl
    · rename_i j x _
      exact (hbuild x (some j)).congr rfl rfl

/-- The late write of a failed `fork` changes no size, no limit and no process state. -/
theorem MemInv.undoAlloc (h : MemInv m) (np : Slot) (th : Option ThIdx) :
    MemInv (m.undoAlloc np th) ∧ ∀ q, ((m.undoAlloc np th).proc q).state = (m.proc q).state := by
  have hrec : ∀ q, ((m.undoAlloc np th).proc q).sz = (m.proc q).sz ∧
      ((m.undoAlloc np th).proc q).limit = (m.proc q).limit ∧
      ((m.undoAlloc np th).proc q).state = (m.proc q).state := by
    intro q
    cases th <;> by_cases hq : q = np <;>
      simp [Mem.undoAlloc, Mem.setProc, hq, Proc.setThread, Proc.setFreed]
  have hpos : (m.undoAlloc np th).pos = m.pos := by cases th <;> rfl
  refine ⟨h.frame (fun q => (hrec q).1) (fun q => (hrec q).2.1) (fun q hq => ?_) (fun q hq => ?_)
    (fun q j => .inl (by rw [hpos])) (fun q j hu => ?_), fun q => (hrec q).2.2⟩
  · unfold Proc.Live at hq
    rwa [(hrec q).2.2] at hq
  · rw [(hrec q).2.2]
    exact hq
  · unfold Proc.Unborn at hu
    rw [(hrec q).2.2] at hu
    rw [hpos]
    exact h.fresh q j hu

/-- Whose child a process is does not matter. -/
theorem MemInv.exit (h : MemInv m) (hp : (m.proc p).Live) : MemInv (m.exit p) := by
  have h1 := h.touch hp (x := { m.proc p with state := .ZOMBIE }) (.inr rfl) rfl rfl
  have hrec : ∀ q, ((m.exit p).proc q).sz = ((m.setProc p { m.proc p with state := .ZOMBIE }).proc q).sz ∧
      ((m.exit p).proc q).limit = ((m.setProc p { m.proc p with state := .ZOMBIE }).proc q).limit ∧
      ((m.exit p).proc q).state = ((m.setProc p { m.proc p with state := .ZOMBIE }).proc q).state := by
    intro q
    unfold Mem.exit
    dsimp only
    split_ifs <;> exact ⟨rfl, rfl, rfl⟩
  refine h1.frame (fun q => (hrec q).1) (fun q => (hrec q).2.1) (fun q hq => ?_) (fun q hq => ?_)
    (fun q j => .inl rfl) (fun q j hu => ?_)
  · unfold Proc.Live at hq
    rwa [(hrec q).2.2] at hq
  · rw [(hrec q).2.2]
    exact hq
  · unfold Proc.Unborn at hu
    rw [(hrec q).2.2] at hu
    exact h1.fresh q j hu

theorem MemInv.execKill (h : MemInv m) (hp : (m.proc p).Live) (n pages : Nat) :
    MemInv (m.execKill p n pages) := by
  unfold Mem.execKill
  split
  · rename_i hn
    split
    · exact h.goto hp ⟨rfl, rfl⟩
    · obtain ⟨x, hx⟩ : ∃ x, x = (m.proc p).execKill ⟨n, hn⟩ := ⟨_, rfl⟩
      have hlive : x.Live := by
        rw [hx]
        unfold Proc.execKill
        split <;> exact hp
      have hsize : x.sz = (m.proc p).sz ∧ x.limit = (m.proc p).limit := by
        rw [hx]
        unfold Proc.execKill
        split <;> exact ⟨rfl, rfl⟩
      rw [← hx]
      have h1 := (h.touch hp (.inl hlive) hsize.1 hsize.2).clear p ⟨n, hn⟩
      exact h1.goto (Mem.setProc_live hlive) ⟨rfl, rfl⟩
  · exact h.goto hp ⟨rfl, rfl⟩

theorem MemInv.wait (h : MemInv m) : MemInv (m.wait p) := by
  unfold Mem.wait
  split
  · rename_i q hq
    have hz : (m.proc q).state = .ZOMBIE := by
      have hf := List.find?_some hq
      simp only [decide_eq_true_eq] at hf
      exact hf.2
    have hself : (m.setProc q (m.proc q).reap).proc q = (m.proc q).reap := by simp [Mem.setProc]
    have hother : ∀ {r}, r ≠ q → (m.setProc q (m.proc q).reap).proc r = m.proc r := by
      intro r hr
      simp [Mem.setProc, hr]
    refine ⟨fun r hr => ?_, fun r j n sz target hr hpc => ?_, fun r j s hc => ?_,
      fun r j r' j' s hc hc' => ?_, fun r j s hr hpc => ?_, fun r j s hpc => ?_, fun r j hu => ?_⟩
    all_goals
      simp only at *
    · by_cases hrq : r = q
      · rw [hrq, hself] at hr
        simp [Proc.reap, Proc.Live] at hr
      · rw [hother hrq] at hr ⊢
        exact h.live r hr
    · split at hpc
      · cases hpc
      · rename_i hrq
        rw [hother hrq] at hr ⊢
        exact h.grow r j n sz target hr hpc
    · split at hc
      · cases hc
      · have hcl := h.claim r j s hc
        have hsq : s ≠ q := by
          intro he
          rw [he, hz] at hcl
          cases hcl
        rw [hother hsq]
        exact hcl
    · split at hc
      · cases hc
      · split at hc'
        · cases hc'
        · exact h.owner r j r' j' s hc hc'
    · split at hpc
      · cases hpc
      · rename_i hrq
        have hcl := h.claim r j s (by rw [hpc]; rfl)
        have hsq : s ≠ q := by
          intro he
          rw [he, hz] at hcl
          cases hcl
        rw [hother hrq] at hr ⊢
        rw [hother hsq]
        exact h.copied r j s hr hpc
    · split at hpc
      · cases hpc
      · have hcl := h.claim r j s (by rw [hpc]; rfl)
        have hsq : s ≠ q := by
          intro he
          rw [he, hz] at hcl
          cases hcl
        rw [hother hsq]
        exact h.child r j s hpc
    · split
      · rfl
      · rename_i hrq
        rw [hother hrq] at hu
        exact h.fresh r j hu
  · exact h

theorem MemInv.call (h : MemInv m) (hp : (m.proc p).Live) {k : MemCall} (hk : LimitKept m (.call p k))
    (hs : MemStep m p k m') : MemInv m' := by
  cases hs with
  | setmemorylimit =>
    unfold Mem.setmemorylimit
    split
    · exact h
    · split
      · exact h
      · exact h.goto hp ⟨rfl, rfl⟩
  | checkFail => exact h.goto hp ⟨rfl, rfl⟩
  | limitCheck => exact h.goto hp ⟨rfl, rfl⟩
  | @limitWrite q limit hpc =>
    simp only [LimitKept, hpc] at hk
    refine (h.limitWrite hk.1 hk.2).goto ?_ ⟨rfl, rfl⟩
    by_cases hq : p = q
    · subst hq
      exact Mem.setProc_live hp
    · simpa [Mem.setProc, hq] using hp
  | @sbrk n =>
    -- what `growproc` has read and asks for is within the limit
    obtain ⟨t, ht⟩ : ∃ t, t = growTarget (m.proc p).sz (m.proc p).limit n := ⟨_, rfl⟩
    rw [← ht]
    have hcur : ∀ q j, (m.goto p (.grow n (m.proc p).sz t)).pos q j = m.pos q j ∨
        q = p ∧ (m.goto p (.grow n (m.proc p).sz t)).pos q j = .grow n (m.proc p).sz t := by
      intro q j
      by_cases he : q = p ∧ j = (m.proc p).thidx
      · exact .inr ⟨he.1, by simp [Mem.goto, Mem.setPos, he]⟩
      · exact .inl (by simp [Mem.goto, Mem.setPos, he])
    have hclaim : ∀ q j r, ((m.goto p (.grow n (m.proc p).sz t)).pos q j).claim = some r →
        (m.pos q j).claim = some r := by
      intro q j r hc
      rcases hcur q j with he | ⟨-, he⟩
      · rwa [he] at hc
      · rw [he] at hc
        cases hc
    refine ⟨h.live, fun q j n' sz target hq hpc => ?_, fun q j r hc => h.claim q j r (hclaim q j r hc),
      fun q j q' j' r hc hc' => h.owner q j q' j' r (hclaim q j r hc) (hclaim q' j' r hc'),
      fun q j r hq hpc => ?_, fun q j r hpc => ?_, fun q j hu => ?_⟩
    · rcases hcur q j with he | ⟨rfl, he⟩
      · exact h.grow q j n' sz target hq (he ▸ hpc)
      · rw [he] at hpc
        cases hpc
        exact fun hl => ⟨h.live q hq hl, ht ▸ growTarget_le _ n hl⟩
    · rcases hcur q j with he | ⟨-, he⟩
      · exact h.copied q j r hq (he ▸ hpc)
      · rw [he] at hpc
        cases hpc
    · rcases hcur q j with he | ⟨-, he⟩
      · exact h.child q j r (he ▸ hpc)
      · rw [he] at hpc
        cases hpc
    · rcases hcur q j with he | ⟨rfl, -⟩
      · rw [he]
        exact h.fresh q j hu
      · exact absurd hu hp.not_unborn
  | growFail => exact h.goto hp ⟨rfl, rfl⟩
  | @growEnd n sz target sz' mapped hpc hg =>
    have hb := h.grow p _ n sz target hp hpc
    have hw : Proc.Within { m.proc p with sz := sz' } :=
      fun hl => grown_le (hb hl).1 (hb hl).2 hg
    have h1 := h.resize hp (x := { m.proc p with sz := sz' }) (.inl hp) rfl hw
    exact h1.goto (Mem.setProc_live hp) ⟨rfl, rfl⟩
  | threadCreate => exact h.threadCreate hp hk
  | @threadExit retval =>
    refine h.touch hp (.inl ?_) ?_ ?_
    · unfold Proc.threadExit
      split
      · exact .inl rfl
      · exact hp
    · unfold Proc.threadExit
      split <;> rfl
    · unfold Proc.threadExit
      split <;> rfl
  | threadJoin => exact h.touch hp (.inl hp) rfl rfl
  | fork => exact h.allocproc hp _
  | @forkFail np hpc =>
    obtain ⟨hn, hown⟩ := h.cur_claim (show (m.cur p).claim = some np by rw [hpc]; rfl)
    refine h.build hp (.inr hn) hown ?_ ?_ ?_ ?_ ?_
    · intro r hr
      cases hr
    · exact fun n sz target hpc' => by cases hpc'
    · exact fun hpc' => by cases hpc'
    · exact fun hpc' => by cases hpc'
    · exact fun hl => absurd (.inl rfl) hl.not_unborn
  | @forkSz np hpc =>
    obtain ⟨hn, hown⟩ := h.cur_claim (show (m.cur p).claim = some np by rw [hpc]; rfl)
    refine h.build hp (.inr hn) hown ?_ ?_ ?_ ?_ ?_
    · exact fun r hr => ⟨(Option.some.inj hr).symm, hn⟩
    · exact fun n sz target hpc' => by cases hpc'
    · exact fun _ => h.live p hp
    · exact fun hpc' => by cases hpc'
    · exact fun hl => absurd (.inr hn) hl.not_unborn
  | @forkLimit np hpc =>
    obtain ⟨hn, hown⟩ := h.cur_claim (show (m.cur p).claim = some np by rw [hpc]; rfl)
    refine h.build hp (.inr hn) hown ?_ ?_ ?_ ?_ ?_
    · exact fun r hr => ⟨(Option.some.inj hr).symm, hn⟩
    · exact fun n sz target hpc' => by cases hpc'
    · exact fun hpc' => by cases hpc'
    · exact fun _ => h.copied p _ np hp hpc
    · exact fun hl => absurd (.inr hn) hl.not_unborn
  | @forkFinish np hpc =>
    obtain ⟨hn, hown⟩ := h.cur_claim (show (m.cur p).claim = some np by rw [hpc]; rfl)
    refine h.build hp (.inr hn) hown ?_ ?_ ?_ ?_ ?_
    · intro r hr
      cases hr
    · exact fun n sz target hpc' => by cases hpc'
    · exact fun hpc' => by cases hpc'
    · exact fun hpc' => by cases hpc'
    · exact fun _ => h.child p _ np hpc
  | @forkUndo np th =>
    obtain ⟨h1, hstate⟩ := h.undoAlloc np th
    refine h1.goto ?_ ⟨rfl, rfl⟩
    unfold Proc.Live
    rw [hstate p]
    exact hp
  | exec => exact h.goto hp ⟨rfl, rfl⟩
  | execKill => exact h.execKill hp _ _
  | @execCommit img pages hpc =>
    simp only [LimitKept, hpc] at hk
    have h1 := h.resize hp (x := (m.proc p).execCommit img pages) (.inl hp) rfl hk
    exact h1.goto (Mem.setProc_live hp) ⟨rfl, rfl⟩
  | execFail => exact h.goto hp ⟨rfl, rfl⟩
  | exit => exact h.exit hp
  | wait => exact h.wait

theorem MemInv.step (h : MemInv m) {a : MemAct} (hk : LimitKept m a) (hs : memStep m a = some m') :
    MemInv m' := by
  cases a with
  | switch p i =>
    simp only [memStep] at hs
    split_ifs at hs with hp
    cases hs
    exact h.touch hp (.inl hp) rfl rfl
  | call p k =>
    simp only [memStep] at hs
    split_ifs at hs with hp
    exact h.call hp hk (Mem.call_step hs)

end Steps

/-! ## Whole runs -/

/-- The table after `userinit`. -/
def memBoot (page : Nat) : Mem :=
  { proc := (boot page).proc, pos := fun _ _ => .idle, initproc := 0, nextpid := 2, nexttid := 2 }

theorem MemInv.boot (page : Nat) : MemInv (memBoot page) := by
  have hlim : ∀ p, ((memBoot page).proc p).limit = 0 := by
    intro p
    by_cases hp : p = 0
    · simp [memBoot, Lwp.boot, hp, Proc.setThread]
    · simp [memBoot, Lwp.boot, hp]
  refine ⟨fun p _ hl => absurd (hlim p) hl, ?_, ?_, ?_, ?_, ?_, fun _ _ _ => rfl⟩
  · intro p i n sz target _ hpc
    cases hpc
  · intro p i np hc
    cases hc
  · intro p i q j np hc
    cases hc
  · intro p i np _ hpc
    cases hpc
  · intro p i np hpc
    cases hpc

/-- In every run that meets the condition every live process stays within its
limit. -/
theorem limit_kept (page : Nat) (as : List MemAct) (m : Mem)
    (hk : Lib.Meets memStep LimitKept (memBoot page) as)
    (hr : Lib.run memStep (memBoot page) as = some m) (p : Slot) (hp : (m.proc p).Live) :
    (m.proc p).limit ≠ 0 → (m.proc p).sz ≤ (m.proc p).limit :=
  (Lib.run_inv (fun _ _ _ h hk hs => MemInv.step h hk hs) as _ m (MemInv.boot page) hk hr).live p hp

/-- `init` executes an image and limits itself to the size it has. -/
def limitSelf : List MemAct :=
  [.call 0 (.exec 1)] ++ (List.replicate (NTHREAD + 1) (.call 0 .execKill) ++
    [.call 0 (.execCommit 12288), .call 0 (.setmemorylimit 1 20480), .call 0 .limitCheck,
     .call 0 .limitWrite])

/-- A `sbrk` of one page then gives nothing. -/
theorem limit_kept_limitSelf : ∃ m, Lib.run memStep (memBoot 4096)
    (limitSelf ++ [.call 0 (.sbrk 4096), .call 0 (.growEnd true)]) = some m ∧
    (m.proc 0).limit = 20480 ∧ (m.proc 0).sz ≤ (m.proc 0).limit := by
  have hrun : (Lib.run memStep (memBoot 4096)
      (limitSelf ++ [.call 0 (.sbrk 4096), .call 0 (.growEnd true)])).any (fun m =>
        (m.proc 0).limit = 20480 ∧ (m.proc 0).state = .RUNNABLE) := by
    decide +kernel
  obtain ⟨m, hr, hm⟩ := (Option.any_eq_true _ _).mp hrun
  simp only [decide_eq_true_eq] at hm
  exact ⟨m, hr, hm.1, limit_kept 4096 _ m (by decide +kernel) hr 0 (.inl hm.2) (by simp [hm.1])⟩

/-- A `thread_create` puts a stack on top of the limit. -/
theorem thread_create_exceeds_limit : ∃ m, Lib.run memStep (memBoot 4096)
    (limitSelf ++ [.call 0 (.threadCreate (some 8192) true true)]) = some m ∧
    (m.proc 0).Live ∧ ¬ ((m.proc 0).limit ≠ 0 → (m.proc 0).sz ≤ (m.proc 0).limit) := by
  have hrun : (Lib.run memStep (memBoot 4096)
      (limitSelf ++ [.call 0 (.threadCreate (some 8192) true true)])).any (fun m =>
        (m.proc 0).state = .RUNNABLE ∧ (m.proc 0).limit ≠ 0 ∧ (m.proc 0).limit < (m.proc 0).sz) := by
    decide +kernel
  obtain ⟨m, hr, hm⟩ := (Option.any_eq_true _ _).mp hrun
  simp only [decide_eq_true_eq] at hm
  exact ⟨m, hr, .inl hm.1, fun h => absurd (h hm.2.1) (by omega)⟩

end Xv6.Lwp
