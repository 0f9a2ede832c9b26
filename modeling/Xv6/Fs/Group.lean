import Xv6.Fs.Block
import Xv6.Lib.RedoLog
import Xv6.Lib.Refs
import Xv6.Lib.Run

/- The log of the kernels in which operations run side by side and are committed together
   (`log.c` of `project1_scheduler` and of `project2_LWP`, the same file), for any number
   of processes.

   A step is a section under `log.lock`, or one block written by `commit`. Between `bread`
   and `brelse` an operation has its buffer alone, so that the change of the buffer and the
   `log_write` behind it are one step. `cache` is what the buffer cache has for a block,
   and what is on the disk for a block that it does not have.

   `id` of an operation, `history` and `durable` are for the proofs, and no step reads
   them: the numbers of the operations and what they have logged, and how much of it the
   last write of a header has covered.

   What is proved: whatever the interleaving, a crash at any write shows some of the
   operations completely and nothing of the others, and all of them when the log is idle
   (`group_crash`); nobody sleeps in `begin_op` who could go on (`group_awake`); and the
   log does not overflow in all runs of operations that log at most `m` new blocks,
   exactly when `m` is at most 9, one less than `MAXOPBLOCKS` (`group_fits_iff`). -/
namespace Xv6.Fs.Group

open Lib.RedoLog (Home upd applyWrites applyWrites_append Recoverable recoverable_of_empty Reboots recovered)

abbrev MAXOPBLOCKS : Nat := 10
abbrev LOGSIZE : Nat := MAXOPBLOCKS * 3

/-- Where a process is: in no operation, in the loop of `begin_op`, in an operation that
has logged `used` new blocks; in `commit`, at the loop of `write_log`, at `write_head`, at
the loop of `install_trans`, at the second `write_head`; or in `end_op` behind it. -/
inductive Pc where
  | idle
  | begins (asleep : Bool)
  | inOp (id used : Nat)
  | writeLog (tail : Nat)
  | writeHead
  | install (tail : Nat)
  | erase
  | ends
  deriving DecidableEq, Repr

structure State (P : Type) where
  disk : Nat → Block
  cache : Nat → Block
  lh : List Nat
  outstanding : Int
  committing : Bool
  pc : P → Pc
  fault : Option String
  next : Nat
  history : List (Nat × Nat × Block)
  durable : Nat

inductive Act (P : Type) where
  | beginOp (p : P)
  | logWrite (p : P) (b : Nat) (data : Block)
  | endOp (p : P)
  | commit (p : P)

/-- `wakeup(&log)`. -/
def wakeup {P : Type} (pc : P → Pc) : P → Pc := fun q =>
  match pc q with
  | .begins _ => .begins false
  | x => x

namespace State

variable {P : Type} [DecidableEq P]

/-- After `initlog`. -/
def boot (disk : Nat → Block) : State P where
  disk := disk
  cache := disk
  lh := []
  outstanding := 0
  committing := false
  pc := fun _ => .idle
  fault := none
  next := 0
  history := []
  durable := 0

def setPc (s : State P) (p : P) (x : Pc) : State P := { s with pc := Function.update s.pc p x }

def panic (s : State P) (msg : String) : State P := { s with fault := some msg }

/-- A round of the loop of `begin_op`. -/
def beginOp (s : State P) (p : P) : State P :=
  if s.committing = true then s.setPc p (.begins true)
  else if (LOGSIZE : Int) < s.lh.length + (s.outstanding + 1) * MAXOPBLOCKS then s.setPc p (.begins true)
  else { s.setPc p (.inOp s.next 0) with outstanding := s.outstanding + 1, next := s.next + 1 }

/-- `log_write` by an operation, of a buffer that it has filled with `data`. -/
def logWrite (size : Nat) (s : State P) (p : P) (id used b : Nat) (data : Block) : State P :=
  if LOGSIZE ≤ s.lh.length ∨ size - 1 ≤ s.lh.length then s.panic "too big a transaction"
  else if s.outstanding < 1 then s.panic "log_write outside of trans"
  else { s.setPc p (.inOp id (if b ∈ s.lh then used else used + 1)) with
    cache := upd s.cache b data
    lh := if b ∈ s.lh then s.lh else s.lh ++ [b]
    history := s.history ++ [(id, b, data)] }

/-- `end_op`, up to `commit`. -/
def endOp (s : State P) (p : P) : State P :=
  if s.committing = true then { s with outstanding := s.outstanding - 1 }.panic "log.committing"
  else if s.outstanding - 1 = 0 then
    { s.setPc p (if 0 < s.lh.length then .writeLog 0 else .ends) with
      outstanding := s.outstanding - 1, committing := true }
  else
    { s with outstanding := s.outstanding - 1, pc := Function.update (wakeup s.pc) p .idle }

/-- A step of `commit`, or the rest of `end_op`. -/
def commit (start : Nat) (s : State P) (p : P) : Option (State P) :=
  match s.pc p with
  | .idle => none
  | .begins _ => none
  | .inOp _ _ => none
  | .writeLog tail =>
    match s.lh[tail]? with
    | some b => some { s.setPc p (.writeLog (tail + 1)) with disk := upd s.disk (start + 1 + tail) (s.cache b) }
    | none => some (s.setPc p .writeHead)
  | .writeHead =>
    some { s.setPc p (.install 0) with
      disk := upd s.disk start ((s.disk start).setHeader s.lh), durable := s.history.length }
  | .install tail =>
    match s.lh[tail]? with
    | some b =>
      some { s.setPc p (.install (tail + 1)) with
        disk := upd s.disk b (s.disk (start + 1 + tail)), cache := upd s.cache b (s.disk (start + 1 + tail)) }
    | none => some { s.setPc p .erase with lh := [] }
  | .erase => some { s.setPc p .ends with disk := upd s.disk start ((s.disk start).setHeader s.lh) }
  | .ends => some { s with committing := false, pc := Function.update (wakeup s.pc) p .idle }

end State

section Machine

variable {P : Type} [DecidableEq P]

/-- The log of a disk with `size` blocks for it from `start` on. Operations log blocks
outside of it. -/
def groupStep (start size : Nat) (s : State P) (a : Act P) : Option (State P) :=
  if s.fault = none then
    match a with
    | .beginOp p => if s.pc p = .idle ∨ s.pc p = .begins false then some (s.beginOp p) else none
    | .logWrite p b data =>
      match s.pc p with
      | .inOp id used =>
        if Home start (size - 1) b ∧ b < 2 ^ 32 then some (s.logWrite size p id used b data) else none
      | _ => none
    | .endOp p =>
      match s.pc p with
      | .inOp _ _ => some (s.endOp p)
      | _ => none
    | .commit p => s.commit start p
  else none

/-- The new blocks that the operation of a process has logged. -/
def Pc.used : Pc → Nat
  | .idle => 0
  | .begins _ => 0
  | .inOp _ used => used
  | .writeLog _ => 0
  | .writeHead => 0
  | .install _ => 0
  | .erase => 0
  | .ends => 0

/-- No operation logs more than `m` blocks that are not in the log already. -/
def AtMost (m : Nat) (s : State P) : Act P → Prop
  | .beginOp _ => True
  | .logWrite p b _ => b ∈ s.lh ∨ (s.pc p).used < m
  | .endOp _ => True
  | .commit _ => True

omit [DecidableEq P] in
instance AtMost.decidable (m : Nat) (s : State P) : ∀ a, Decidable (AtMost m s a)
  | .beginOp _ => inferInstanceAs (Decidable True)
  | .logWrite p b _ => inferInstanceAs (Decidable (b ∈ s.lh ∨ (s.pc p).used < m))
  | .endOp _ => inferInstanceAs (Decidable True)
  | .commit _ => inferInstanceAs (Decidable True)

/-- The blocks after some of what was logged. -/
def replay (disk : Nat → Block) (ws : List (Nat × Nat × Block)) : Nat → Block :=
  applyWrites disk (ws.map fun w => w.2)

/-- What a crash shows: however often the recovery is interrupted, in the end the blocks
have the first `durable` updates. No operation is cut in two by this, none that is still
under way is seen, and when the log is idle all updates are. -/
structure CrashShows (start size : Nat) (disk : Nat → Block) (s : State P) : Prop where
  shown : ∀ d, Reboots start Block.header Block.setHeader s.disk d → ∀ x, Home start (size - 1) x →
    recovered start Block.header Block.setHeader d x = replay disk (s.history.take s.durable) x
  whole : ∀ w ∈ s.history.take s.durable, ∀ v ∈ s.history.drop s.durable, w.1 ≠ v.1
  hidden : ∀ p id used, s.pc p = .inOp id used → ∀ w ∈ s.history.take s.durable, w.1 ≠ id
  idle : s.outstanding = 0 → s.committing = false → s.durable = s.history.length

def Pc.committing : Pc → Bool
  | .idle => false
  | .begins _ => false
  | .inOp _ _ => false
  | .writeLog _ => true
  | .writeHead => true
  | .install _ => true
  | .erase => true
  | .ends => true

/-- Who sleeps in `begin_op` could not go on, and a process is on its way that will wake
him up. -/
def Awake (s : State P) : Prop :=
  ∀ p, s.pc p = .begins true →
    (s.committing = true ∨ (LOGSIZE : Int) < s.lh.length + (s.outstanding + 1) * MAXOPBLOCKS) ∧
    ∃ q, (s.pc q).committing = true ∨ ∃ id used, s.pc q = .inOp id used

/-! ## The kinds of steps -/

variable {s s' : State P} {start size : Nat} {disk : Nat → Block} {a : Act P}

inductive Effect (start size : Nat) (s : State P) : Act P → State P → Prop
  | sleep (p : P) (hp : s.pc p = .idle ∨ s.pc p = .begins false)
      (hwhy : s.committing = true ∨ (LOGSIZE : Int) < s.lh.length + (s.outstanding + 1) * MAXOPBLOCKS) :
      Effect start size s (.beginOp p) (s.setPc p (.begins true))
  | enter (p : P) (hp : s.pc p = .idle ∨ s.pc p = .begins false) (hc : s.committing = false)
      (hroom : s.lh.length + (s.outstanding + 1) * MAXOPBLOCKS ≤ (LOGSIZE : Int)) :
      Effect start size s (.beginOp p)
        { s.setPc p (.inOp s.next 0) with outstanding := s.outstanding + 1, next := s.next + 1 }
  | tooBig (p : P) (id used b : Nat) (data : Block) (hp : s.pc p = .inOp id used)
      (hfull : LOGSIZE ≤ s.lh.length ∨ size - 1 ≤ s.lh.length) :
      Effect start size s (.logWrite p b data) (s.panic "too big a transaction")
  | outside (p : P) (id used b : Nat) (data : Block) (hp : s.pc p = .inOp id used) (ho : s.outstanding < 1) :
      Effect start size s (.logWrite p b data) (s.panic "log_write outside of trans")
  | log (p : P) (id used b : Nat) (data : Block) (hp : s.pc p = .inOp id used)
      (hb : Home start (size - 1) b ∧ b < 2 ^ 32) (hroom : s.lh.length < LOGSIZE ∧ s.lh.length < size - 1) :
      Effect start size s (.logWrite p b data)
        { s.setPc p (.inOp id (if b ∈ s.lh then used else used + 1)) with
          cache := upd s.cache b data
          lh := if b ∈ s.lh then s.lh else s.lh ++ [b]
          history := s.history ++ [(id, b, data)] }
  | twice (p : P) (id used : Nat) (hp : s.pc p = .inOp id used) (hc : s.committing = true) :
      Effect start size s (.endOp p) ({ s with outstanding := s.outstanding - 1 }.panic "log.committing")
  | last (p : P) (id used : Nat) (hp : s.pc p = .inOp id used) (hc : s.committing = false)
      (ho : s.outstanding - 1 = 0) :
      Effect start size s (.endOp p) { s.setPc p (if 0 < s.lh.length then .writeLog 0 else .ends) with
        outstanding := s.outstanding - 1, committing := true }
  | leave (p : P) (id used : Nat) (hp : s.pc p = .inOp id used) (hc : s.committing = false)
      (ho : s.outstanding - 1 ≠ 0) :
      Effect start size s (.endOp p)
        { s with outstanding := s.outstanding - 1, pc := Function.update (wakeup s.pc) p .idle }
  | copy (p : P) (tail b : Nat) (hp : s.pc p = .writeLog tail) (hb : s.lh[tail]? = some b) :
      Effect start size s (.commit p)
        { s.setPc p (.writeLog (tail + 1)) with disk := upd s.disk (start + 1 + tail) (s.cache b) }
  | copied (p : P) (tail : Nat) (hp : s.pc p = .writeLog tail) (hb : s.lh[tail]? = none) :
      Effect start size s (.commit p) (s.setPc p .writeHead)
  | head (p : P) (hp : s.pc p = .writeHead) :
      Effect start size s (.commit p) { s.setPc p (.install 0) with
        disk := upd s.disk start ((s.disk start).setHeader s.lh), durable := s.history.length }
  | install (p : P) (tail b : Nat) (hp : s.pc p = .install tail) (hb : s.lh[tail]? = some b) :
      Effect start size s (.commit p) { s.setPc p (.install (tail + 1)) with
        disk := upd s.disk b (s.disk (start + 1 + tail)), cache := upd s.cache b (s.disk (start + 1 + tail)) }
  | installed (p : P) (tail : Nat) (hp : s.pc p = .install tail) (hb : s.lh[tail]? = none) :
      Effect start size s (.commit p) { s.setPc p .erase with lh := [] }
  | erase (p : P) (hp : s.pc p = .erase) :
      Effect start size s (.commit p)
        { s.setPc p .ends with disk := upd s.disk start ((s.disk start).setHeader s.lh) }
  | finish (p : P) (hp : s.pc p = .ends) :
      Effect start size s (.commit p)
        { s with committing := false, pc := Function.update (wakeup s.pc) p .idle }

theorem groupStep_effect (hs : groupStep start size s a = some s') : s.fault = none ∧ Effect start size s a s' := by
  obtain ⟨hf, hs⟩ := Option.ite_none_right_eq_some.mp hs
  refine ⟨hf, ?_⟩
  cases a with
  | beginOp p =>
    obtain ⟨hp, he⟩ := Option.ite_none_right_eq_some.mp hs
    cases he
    unfold State.beginOp
    split
    · next hc => exact .sleep p hp (.inl hc)
    · next hc =>
      split
      · next hl => exact .sleep p hp (.inr hl)
      · next hl => exact .enter p hp (Bool.eq_false_of_not_eq_true hc) (Int.not_lt.mp hl)
  | logWrite p b data =>
    simp only at hs
    split at hs
    · next id used hp =>
      obtain ⟨hb, he⟩ := Option.ite_none_right_eq_some.mp hs
      cases he
      unfold State.logWrite
      split
      · next hfull => exact .tooBig p id used b data hp hfull
      · next hroom =>
        split
        · next ho => exact .outside p id used b data hp ho
        · exact .log p id used b data hp hb (by omega)
    · cases hs
  | endOp p =>
    simp only at hs
    split at hs
    · next id used hp =>
      cases hs
      unfold State.endOp
      split
      · next hc => exact .twice p id used hp hc
      · next hc =>
        have hc := Bool.eq_false_of_not_eq_true hc
        split
        · next ho => exact .last p id used hp hc ho
        · next ho => exact .leave p id used hp hc ho
    · cases hs
  | commit p =>
    simp only [State.commit] at hs
    split at hs
    · cases hs
    · cases hs
    · cases hs
    · next tail hp =>
      split at hs
      · next b hb =>
        cases hs
        exact .copy p tail b hp hb
      · next hb =>
        cases hs
        exact .copied p tail hp hb
    · next hp =>
      cases hs
      exact .head p hp
    · next tail hp =>
      split at hs
      · next b hb =>
        cases hs
        exact .install p tail b hp hb
      · next hb =>
        cases hs
        exact .installed p tail hp hb
    · next hp =>
      cases hs
      exact .erase p hp
    · next hp =>
      cases hs
      exact .finish p hp

/-! ## Whose turn it is -/

def Pc.busy : Pc → ℤ
  | .idle => 0
  | .begins _ => 0
  | .inOp _ _ => 1
  | .writeLog _ => 0
  | .writeHead => 0
  | .install _ => 0
  | .erase => 0
  | .ends => 0

structure Turn [Fintype P] (s : State P) : Prop where
  count : s.outstanding = ∑ p, (s.pc p).busy
  alone : ∀ p, (s.pc p).committing = true → s.committing = true ∧ ∀ q, (s.pc q).committing = true → q = p
  someone : s.committing = true → ∃ p, (s.pc p).committing = true
  closed : s.committing = true → s.outstanding = 0
  empty : s.committing = false → s.outstanding = 0 → s.lh = []
  erased : ∀ p, s.pc p = .erase ∨ s.pc p = .ends → s.lh = []
  sleep : ∀ p, s.pc p = .begins true →
    s.committing = true ∨ (LOGSIZE : Int) < s.lh.length + (s.outstanding + 1) * MAXOPBLOCKS

section Wakeup

variable {pc : P → Pc} {p q : P}

omit [DecidableEq P] in
theorem wakeup_committing : (wakeup pc q).committing = (pc q).committing := by
  unfold wakeup
  cases pc q <;> rfl

omit [DecidableEq P] in
theorem wakeup_busy : (wakeup pc q).busy = (pc q).busy := by
  unfold wakeup
  cases pc q <;> rfl

omit [DecidableEq P] in
theorem wakeup_eq {x : Pc} (hx : ∀ b, x ≠ .begins b) : wakeup pc q = x ↔ pc q = x := by
  unfold wakeup
  split
  · next b hb =>
    rw [hb]
    exact iff_of_false (fun h => hx _ h.symm) (fun h => hx _ h.symm)
  · rfl

omit [DecidableEq P] in
theorem wakeup_awake : wakeup pc q ≠ .begins true := by
  unfold wakeup
  cases pc q <;> simp

/-- Who sleeps after a step of `p` slept before it. -/
theorem update_begins {x : Pc} (hq : Function.update pc p x q = .begins true) (hx : x ≠ .begins true) :
    pc q = .begins true := by
  rcases eq_or_ne q p with rfl | hqp
  · rw [Function.update_self] at hq
    exact absurd hq hx
  · rwa [Function.update_of_ne hqp] at hq

theorem Pc.committing_late {x : Pc} (hx : x = .erase ∨ x = .ends) : x.committing = true := by
  rcases hx with rfl | rfl <;> rfl

theorem Pc.outside {x : Pc} (hx : x = .idle ∨ x = .begins false) : x.busy = 0 ∧ x.committing = false := by
  rcases hx with rfl | rfl <;> exact ⟨rfl, rfl⟩

end Wakeup

section Turn

variable [Fintype P] {p q : P} {x : Pc}

omit [DecidableEq P] in
theorem busy_nonneg (x : Pc) : 0 ≤ x.busy := by
  cases x <;> simp [Pc.busy]

theorem sum_busy (pc : P → Pc) (p : P) (x : Pc) :
    ∑ q, (Function.update pc p x q).busy = ∑ q, (pc q).busy - (pc p).busy + x.busy :=
  Lib.Refs.sum_update Pc.busy pc p x

omit [DecidableEq P] in
theorem Turn.nonneg (h : Turn s) : 0 ≤ s.outstanding := by
  rw [h.count]
  exact Finset.sum_nonneg fun q _ => busy_nonneg _

omit [DecidableEq P] in
theorem Turn.inOp (h : Turn s) {id used : Nat} (hp : s.pc p = .inOp id used) :
    1 ≤ s.outstanding ∧ s.committing = false := by
  have hle : (s.pc p).busy ≤ ∑ q, (s.pc q).busy :=
    Finset.single_le_sum (f := fun q => (s.pc q).busy) (fun q _ => busy_nonneg _) (Finset.mem_univ p)
  rw [hp, ← h.count] at hle
  refine ⟨hle, ?_⟩
  by_contra hc
  have := h.closed (Bool.eq_true_of_not_eq_false hc)
  change 1 ≤ s.outstanding at hle
  omega

omit [DecidableEq P] in
/-- Where there is an operation, or a commit, there is a process that will wake up the others. -/
theorem Turn.awake (h : Turn s) : Awake s := by
  intro p hp
  have hwhy := h.sleep p hp
  refine ⟨hwhy, ?_⟩
  by_cases hc : s.committing = true
  · obtain ⟨q, hq⟩ := h.someone hc
    exact ⟨q, .inl hq⟩
  by_contra hno
  have hzero : s.outstanding = 0 := by
    rw [h.count]
    apply Finset.sum_eq_zero
    intro q _
    cases hq : s.pc q with
    | inOp id used => exact absurd ⟨q, .inr ⟨id, used, hq⟩⟩ hno
    | idle => rfl
    | begins => rfl
    | writeLog => rfl
    | writeHead => rfl
    | install => rfl
    | erase => rfl
    | ends => rfl
  have hlh := h.empty (Bool.eq_false_of_not_eq_true hc) hzero
  rcases hwhy with hwhy | hwhy
  · exact hc hwhy
  · rw [hlh, hzero] at hwhy
    simp at hwhy

/-- The process `p` goes on with its commit. -/
theorem Turn.advance (h : Turn s) (hp : (s.pc p).committing = true) (hx : x.committing = true)
    (hpc : s'.pc = Function.update s.pc p x) (hc : s'.committing = s.committing)
    (ho : s'.outstanding = s.outstanding)
    (herase : x = .erase ∨ x = .ends → s'.lh = []) : Turn s' := by
  have hbusy : ∀ {y : Pc}, y.committing = true → y.busy = 0 := by
    intro y hy
    cases y <;> first | rfl | cases hy
  have hcommit := (h.alone p hp).1
  have hsame : ∀ q, (s'.pc q).committing = (s.pc q).committing := by
    intro q
    rw [hpc]
    rcases eq_or_ne q p with rfl | hq
    · rw [Function.update_self, hp, hx]
    · rw [Function.update_of_ne hq]
  refine ⟨?_, fun q hq => ?_, fun _ => ⟨p, (hsame p).trans hp⟩, fun _ => ?_, fun hn => ?_, fun q hq => ?_,
    fun _ _ => .inl (hc.trans hcommit)⟩
  · rw [ho, hpc, sum_busy, hbusy hp, hbusy hx, h.count]
    omega
  · obtain ⟨ht, hone⟩ := h.alone q ((hsame q).symm.trans hq)
    exact ⟨hc.trans ht, fun r hr => hone r ((hsame r).symm.trans hr)⟩
  · rw [ho]
    exact h.closed hcommit
  · rw [hc, hcommit] at hn
    cases hn
  · rcases eq_or_ne q p with rfl | hne
    · rw [hpc, Function.update_self] at hq
      exact herase hq
    · rw [hpc, Function.update_of_ne hne] at hq
      exact absurd ((h.alone p hp).2 q (Pc.committing_late hq)) hne

/-- The process `p` is not in `commit`, and does not enter it. -/
theorem Turn.move (h : Turn s) {m : P → Pc} (hcom : ∀ q, (m q).committing = (s.pc q).committing)
    (hbusy : ∀ q, (m q).busy = (s.pc q).busy) (herased : ∀ q y, y.committing = true → (m q = y ↔ s.pc q = y))
    (hp : (s.pc p).committing = false) (hx : x.committing = false) (hpc : s'.pc = Function.update m p x)
    (hc : s'.committing = s.committing) (ho : s'.outstanding = s.outstanding - (s.pc p).busy + x.busy)
    (hclosed : s.committing = true → x.busy = (s.pc p).busy) (hlh : s'.lh = s.lh ∨ s.committing = false)
    (hempty : s.committing = false → s'.outstanding = 0 → s'.lh = [])
    (hsleep : ∀ q, s'.pc q = .begins true →
      s.committing = true ∨ (LOGSIZE : Int) < s'.lh.length + (s'.outstanding + 1) * MAXOPBLOCKS) : Turn s' := by
  have hsame : ∀ q, (s'.pc q).committing = (s.pc q).committing := by
    intro q
    rw [hpc]
    rcases eq_or_ne q p with rfl | hq
    · rw [Function.update_self, hx, hp]
    · rw [Function.update_of_ne hq, hcom]
  refine ⟨?_, fun q hq => ?_, fun ht => ?_, fun ht => ?_, fun ht => ?_, fun q hq => ?_, fun q hq => ?_⟩
  · rw [hpc, sum_busy, ho, hbusy, h.count, Finset.sum_congr rfl (fun q _ => hbusy q)]
  · obtain ⟨ht, hone⟩ := h.alone q ((hsame q).symm.trans hq)
    exact ⟨hc.trans ht, fun r hr => hone r ((hsame r).symm.trans hr)⟩
  · obtain ⟨q, hq⟩ := h.someone (hc.symm.trans ht)
    exact ⟨q, (hsame q).trans hq⟩
  · have hz := h.closed (hc.symm.trans ht)
    have hb := hclosed (hc.symm.trans ht)
    omega
  · exact hempty (hc.symm.trans ht)
  · have hcq := Pc.committing_late hq
    have hqp : q ≠ p := by
      rintro rfl
      rw [hpc, Function.update_self, hx] at hcq
      cases hcq
    rcases hlh with hlh | hno
    · rw [hlh]
      apply h.erased q
      rw [hpc, Function.update_of_ne hqp] at hq
      rcases hq with hq | hq
      · exact .inl ((herased q _ rfl).mp hq)
      · exact .inr ((herased q _ rfl).mp hq)
    · have := (h.alone q ((hsame q).symm.trans hcq)).1
      rw [hno] at this
      cases this
  · rw [hc]
    exact hsleep q hq

theorem Turn.sleepOn (h : Turn s) (hp : s.pc p = .idle ∨ s.pc p = .begins false)
    (hwhy : s.committing = true ∨ (LOGSIZE : Int) < s.lh.length + (s.outstanding + 1) * MAXOPBLOCKS) :
    Turn (s.setPc p (.begins true)) := by
  obtain ⟨hbusy, hidle⟩ := Pc.outside hp
  refine h.move (m := s.pc) (fun _ => rfl) (fun _ => rfl) (fun _ _ _ => Iff.rfl) hidle rfl rfl rfl ?_
    (fun _ => hbusy.symm) (.inl rfl) h.empty (fun _ _ => hwhy)
  rw [hbusy]
  exact (Int.add_zero _ |>.trans (Int.sub_zero _)).symm

theorem Turn.enter (h : Turn s) (hp : s.pc p = .idle ∨ s.pc p = .begins false) (hc : s.committing = false)
    (hroom : s.lh.length + (s.outstanding + 1) * MAXOPBLOCKS ≤ (LOGSIZE : Int)) :
    Turn { s.setPc p (.inOp s.next 0) with outstanding := s.outstanding + 1, next := s.next + 1 } := by
  obtain ⟨hbusy, hidle⟩ := Pc.outside hp
  refine h.move (p := p) (m := s.pc) (fun _ => rfl) (fun _ => rfl) (fun _ _ _ => Iff.rfl) hidle rfl rfl rfl ?_
    (fun ht => ?_) (.inl rfl) (fun _ ho => ?_) (fun q hq => ?_)
  · rw [hbusy, Int.sub_zero]
    rfl
  · rw [hc] at ht
    cases ht
  · change s.outstanding + 1 = 0 at ho
    have := h.nonneg
    omega
  · change Function.update s.pc p _ q = _ at hq
    right
    change (LOGSIZE : Int) < s.lh.length + (s.outstanding + 1 + 1) * MAXOPBLOCKS
    rcases h.sleep q (update_begins hq nofun) with ht | hl
    · rw [hc] at ht
      cases ht
    · omega

theorem Turn.log (h : Turn s) {id used b : Nat} {data : Block} (hp : s.pc p = .inOp id used) :
    Turn { s.setPc p (.inOp id (if b ∈ s.lh then used else used + 1)) with
      cache := upd s.cache b data
      lh := if b ∈ s.lh then s.lh else s.lh ++ [b]
      history := s.history ++ [(id, b, data)] } := by
  obtain ⟨hone, hc⟩ := h.inOp hp
  refine h.move (p := p) (m := s.pc) (fun _ => rfl) (fun _ => rfl) (fun _ _ _ => Iff.rfl) (by rw [hp]; rfl) rfl
    rfl rfl ?_ (fun _ => by rw [hp]; rfl) (.inr hc) (fun _ ho => ?_) (fun q hq => ?_)
  · rw [hp]
    exact (Int.sub_add_cancel _ _).symm
  · change s.outstanding = 0 at ho
    omega
  · change Function.update s.pc p _ q = _ at hq
    right
    have hlen : (s.lh.length : Int) ≤ ((if b ∈ s.lh then s.lh else s.lh ++ [b]).length : Int) := by
      split
      · exact le_refl _
      · simp
    change (LOGSIZE : Int) < ((if b ∈ s.lh then s.lh else s.lh ++ [b]).length : Int) +
      (s.outstanding + 1) * MAXOPBLOCKS
    rcases h.sleep q (update_begins hq nofun) with ht | hl
    · rw [hc] at ht
      cases ht
    · omega

/-- The last operation ends, and its process begins to commit. -/
theorem Turn.last (h : Turn s) {id used : Nat} (hp : s.pc p = .inOp id used) (hc : s.committing = false)
    (ho : s.outstanding - 1 = 0) :
    Turn { s.setPc p (if 0 < s.lh.length then .writeLog 0 else .ends) with
      outstanding := s.outstanding - 1, committing := true } := by
  have hnone : ∀ q, (s.pc q).committing = false := by
    intro q
    apply Bool.eq_false_of_not_eq_true
    intro hq
    have ht := (h.alone q hq).1
    rw [hc] at ht
    cases ht
  let x : Pc := if 0 < s.lh.length then .writeLog 0 else .ends
  have hx : x.busy = 0 ∧ x.committing = true := by
    unfold x
    split <;> exact ⟨rfl, rfl⟩
  have honly : ∀ q, (Function.update s.pc p x q).committing = true → q = p := by
    intro q hq
    by_contra hqp
    rw [Function.update_of_ne hqp, hnone q] at hq
    cases hq
  refine ⟨?_, fun q hq => ?_, fun _ => ⟨p, ?_⟩, fun _ => ho, nofun, fun q hq => ?_, fun _ _ => .inl rfl⟩
  · change s.outstanding - 1 = ∑ q, (Function.update s.pc p x q).busy
    rw [sum_busy, hx.1, hp, h.count, add_zero]
    rfl
  · obtain rfl := honly q hq
    exact ⟨rfl, honly⟩
  · change (Function.update s.pc p x p).committing = true
    rw [Function.update_self, hx.2]
  · change Function.update s.pc p x q = .erase ∨ Function.update s.pc p x q = .ends at hq
    obtain rfl : q = p := honly q (Pc.committing_late hq)
    rw [Function.update_self] at hq
    unfold x at hq
    split at hq
    · simp at hq
    · next hlen => exact List.length_eq_zero_iff.mp (Nat.eq_zero_of_not_pos hlen)

theorem Turn.leave (h : Turn s) {id used : Nat} (hp : s.pc p = .inOp id used) (hc : s.committing = false)
    (ho : s.outstanding - 1 ≠ 0) :
    Turn { s with outstanding := s.outstanding - 1, pc := Function.update (wakeup s.pc) p .idle } := by
  refine h.move (p := p) (m := wakeup s.pc) (fun _ => wakeup_committing) (fun _ => wakeup_busy)
    (fun q y hy => wakeup_eq (fun b hb => by rw [hb] at hy; cases hy)) (by rw [hp]; rfl) rfl rfl rfl ?_
    (fun ht => ?_) (.inl rfl) (fun _ hz => ?_) (fun q hq => ?_)
  · rw [hp]
    exact (Int.add_zero _).symm
  · rw [hc] at ht
    cases ht
  · exact absurd hz ho
  · change Function.update (wakeup s.pc) p .idle q = _ at hq
    exact absurd (update_begins hq nofun) wakeup_awake

/-- The end of a commit: everybody who sleeps is woken up. -/
theorem Turn.finish (h : Turn s) (hp : s.pc p = .ends) :
    Turn { s with committing := false, pc := Function.update (wakeup s.pc) p .idle } := by
  have hnone : ∀ q, (Function.update (wakeup s.pc) p .idle q).committing = false := by
    intro q
    rcases eq_or_ne q p with rfl | hqp
    · rw [Function.update_self]
      rfl
    · rw [Function.update_of_ne hqp, wakeup_committing]
      apply Bool.eq_false_of_not_eq_true
      intro hq
      exact hqp ((h.alone p (by rw [hp]; rfl)).2 q hq)
  refine ⟨?_, fun q hq => ?_, nofun, nofun, fun _ _ => h.erased p (.inr hp), fun q hq => ?_, fun q hq => ?_⟩
  · change s.outstanding = ∑ q, (Function.update (wakeup s.pc) p .idle q).busy
    rw [sum_busy, wakeup_busy, hp, h.count, Finset.sum_congr rfl (fun q _ => wakeup_busy)]
    exact (Int.add_zero _ |>.trans (Int.sub_zero _)).symm
  · rw [hnone q] at hq
    cases hq
  · have hcq : (Function.update (wakeup s.pc) p .idle q).committing = true := Pc.committing_late hq
    rw [hnone q] at hcq
    cases hcq
  · change Function.update (wakeup s.pc) p .idle q = _ at hq
    exact absurd (update_begins hq nofun) wakeup_awake

theorem Turn.step (h : Turn s) (he : Effect start size s a s') : Turn s' := by
  cases he with
  | sleep p hp hwhy => exact h.sleepOn hp hwhy
  | enter p hp hc hroom => exact h.enter hp hc hroom
  | tooBig => exact ⟨h.count, h.alone, h.someone, h.closed, h.empty, h.erased, h.sleep⟩
  | outside => exact ⟨h.count, h.alone, h.someone, h.closed, h.empty, h.erased, h.sleep⟩
  | log p id used b data hp hb hroom => exact h.log hp
  | twice p id used hp hc =>
    rw [(h.inOp hp).2] at hc
    cases hc
  | last p id used hp hc ho => exact h.last hp hc ho
  | leave p id used hp hc ho => exact h.leave hp hc ho
  | copy p tail b hp hb => exact h.advance (p := p) (by rw [hp]; rfl) rfl rfl rfl rfl (by simp)
  | copied p tail hp hb => exact h.advance (p := p) (by rw [hp]; rfl) rfl rfl rfl rfl (by simp)
  | head p hp => exact h.advance (p := p) (by rw [hp]; rfl) rfl rfl rfl rfl (by simp)
  | install p tail b hp hb => exact h.advance (p := p) (by rw [hp]; rfl) rfl rfl rfl rfl (by simp)
  | installed p tail hp hb => exact h.advance (p := p) (by rw [hp]; rfl) rfl rfl rfl rfl (fun _ => rfl)
  | erase p hp =>
    exact h.advance (p := p) (by rw [hp]; rfl) rfl rfl rfl rfl (fun _ => h.erased p (.inl hp))
  | finish p hp => exact h.finish hp

end Turn

/-! ## What is on the disk -/

/-- The first `m` copies are in the log. -/
def Copied (start : Nat) (s : State P) (m : Nat) : Prop :=
  ∀ j b, j < m → s.lh[j]? = some b → s.disk (start + 1 + j) = s.cache b

/-- The header is empty, and the blocks are as the durable updates make them. -/
structure Quiet (start size : Nat) (disk : Nat → Block) (s : State P) : Prop where
  head : (s.disk start).header = []
  home : ∀ x, Home start (size - 1) x → s.disk x = replay disk (s.history.take s.durable) x

/-- What a commit has done so far. -/
def Phase (start size : Nat) (disk : Nat → Block) (s : State P) : Pc → Prop
  | .idle => True
  | .begins _ => True
  | .inOp _ _ => True
  | .writeLog tail => Quiet start size disk s ∧ Copied start s tail
  | .writeHead => Quiet start size disk s ∧ Copied start s s.lh.length
  | .install tail => Copied start s s.lh.length ∧ (s.disk start).header = s.lh ∧
      (∀ x, Home start (size - 1) x → x ∉ s.lh → s.disk x = s.cache x) ∧
      (∀ j b, j < tail → s.lh[j]? = some b → s.disk b = s.cache b) ∧ s.durable = s.history.length
  | .erase => Recoverable start (size - 1) Block.header s.disk s.cache ∧
      (∀ x, Home start (size - 1) x → s.disk x = s.cache x) ∧ s.durable = s.history.length
  | .ends => Quiet start size disk s ∧ s.durable = s.history.length

structure Content (start size : Nat) (disk : Nat → Block) (s : State P) : Prop where
  home : ∀ b ∈ s.lh, Home start (size - 1) b ∧ b < 2 ^ 32
  room : s.lh.length ≤ LOGSIZE ∧ s.lh.length ≤ size - 1
  cache : ∀ x, Home start (size - 1) x → s.cache x = replay disk s.history x
  clean : ∀ x, Home start (size - 1) x → x ∉ s.lh → replay disk (s.history.take s.durable) x = s.cache x
  durable : s.durable ≤ s.history.length
  empty : s.lh = [] → s.durable = s.history.length
  quiet : s.committing = false → Quiet start size disk s
  phase : ∀ p, Phase start size disk s (s.pc p)

section Content

variable {p q : P} {x : Pc}

omit [DecidableEq P] in
theorem phase_of_idle (hx : x.committing = false) : Phase start size disk s x := by
  cases x with
  | idle => trivial
  | begins => trivial
  | inOp => trivial
  | writeLog => cases hx
  | writeHead => cases hx
  | install => cases hx
  | erase => cases hx
  | ends => cases hx

omit [DecidableEq P] in
/-- What the steps outside of `commit` leave as it is. -/
theorem Content.same (h : Content start size disk s) (hd : s'.disk = s.disk) (hc : s'.cache = s.cache)
    (hlh : s'.lh = s.lh) (hh : s'.history = s.history) (hn : s'.durable = s.durable)
    (hquiet : s'.committing = false → Quiet start size disk s)
    (hphase : ∀ q, (s'.pc q).committing = true → Phase start size disk s (s'.pc q)) :
    Content start size disk s' := by
  have hq : Quiet start size disk s → Quiet start size disk s' := by
    intro h
    refine ⟨?_, fun x hx => ?_⟩
    · rw [hd]
      exact h.head
    · rw [hd, hh, hn]
      exact h.home x hx
  have hcop : ∀ {m}, Copied start s m → Copied start s' m := by
    intro m h j b hj hb
    rw [hd, hc]
    exact h j b hj (hlh ▸ hb)
  refine ⟨hlh ▸ h.home, hlh ▸ h.room, ?_, ?_, ?_, ?_, fun ht => hq (hquiet ht), fun q => ?_⟩
  · rw [hc, hh]
    exact h.cache
  · rw [hlh, hh, hn, hc]
    exact h.clean
  · rw [hh, hn]
    exact h.durable
  · rw [hlh, hh, hn]
    exact h.empty
  · by_cases hcom : (s'.pc q).committing = true
    · have hph := hphase q hcom
      generalize s'.pc q = x at hph
      cases x with
      | idle => trivial
      | begins => trivial
      | inOp => trivial
      | writeLog tail => exact ⟨hq hph.1, hcop hph.2⟩
      | writeHead => exact ⟨hq hph.1, hlh ▸ hcop hph.2⟩
      | install tail =>
        obtain ⟨h1, h2, h3, h4, h5⟩ := hph
        refine ⟨hlh ▸ hcop h1, ?_, ?_, ?_, ?_⟩
        · rw [hd, hlh]
          exact h2
        · rw [hd, hlh, hc]
          exact h3
        · rw [hd, hlh, hc]
          exact h4
        · rw [hn, hh]
          exact h5
      | erase =>
        obtain ⟨h1, h2, h3⟩ := hph
        refine ⟨?_, ?_, ?_⟩
        · rw [hd, hc]
          exact h1
        · rw [hd, hc]
          exact h2
        · rw [hn, hh]
          exact h3
      | ends =>
        refine ⟨hq hph.1, ?_⟩
        rw [hn, hh]
        exact hph.2
    · exact phase_of_idle (Bool.eq_false_of_not_eq_true hcom)

/-- Nobody but `p` is in `commit`. -/
theorem Turn.phase_alone [Fintype P] (h : Turn s) (hp : (s.pc p).committing = true)
    (hpc : s'.pc = Function.update s.pc p x) (hx : Phase start size disk s' x) :
    ∀ q, Phase start size disk s' (s'.pc q) := by
  intro q
  rw [hpc]
  rcases eq_or_ne q p with rfl | hq
  · rw [Function.update_self]
    exact hx
  · rw [Function.update_of_ne hq]
    apply phase_of_idle
    apply Bool.eq_false_of_not_eq_true
    intro hcq
    exact hq ((h.alone p hp).2 q hcq)

omit [DecidableEq P] in
theorem Content.home_at (h : Content start size disk s) {j b : Nat} (hb : s.lh[j]? = some b) :
    Home start (size - 1) b ∧ j < size - 1 := by
  have hj := (List.getElem?_eq_some_iff.mp hb).1
  have hroom := h.room.2
  exact ⟨(h.home b (List.mem_of_getElem? hb)).1, by omega⟩

omit [DecidableEq P] in
theorem Content.all_shown (h : Content start size disk s) (hn : s.durable = s.history.length) :
    ∀ x, Home start (size - 1) x → replay disk (s.history.take s.durable) x = s.cache x := by
  intro x hx
  rw [hn, List.take_length]
  exact (h.cache x hx).symm

omit [DecidableEq P] in
theorem replay_append (ws : List (Nat × Nat × Block)) (w : Nat × Nat × Block) :
    replay disk (ws ++ [w]) = upd (replay disk ws) w.2.1 w.2.2 := by
  unfold replay
  rw [List.map_append, applyWrites_append]
  rfl

omit [DecidableEq P] in
theorem Content.log (h : Content start size disk s) {id b : Nat} {data : Block}
    (hb : Home start (size - 1) b ∧ b < 2 ^ 32) (hroom : s.lh.length < LOGSIZE ∧ s.lh.length < size - 1)
    (hd : s'.disk = s.disk) (hc : s'.cache = upd s.cache b data)
    (hlh : s'.lh = if b ∈ s.lh then s.lh else s.lh ++ [b]) (hh : s'.history = s.history ++ [(id, b, data)])
    (hn : s'.durable = s.durable) (hcom : s.committing = false) (hpc : ∀ q, (s'.pc q).committing = false) :
    Content start size disk s' := by
  have hmem : ∀ y, y ∈ s'.lh ↔ y = b ∨ y ∈ s.lh := by
    intro y
    rw [hlh]
    split
    · next hin => exact ⟨.inr, fun hy => hy.elim (fun he => he ▸ hin) (fun hy => hy)⟩
    · rw [List.mem_append, List.mem_singleton]
      exact or_comm
  have htake : s'.history.take s'.durable = s.history.take s.durable := by
    rw [hh, hn, List.take_append_of_le_length h.durable]
  have hquiet : Quiet start size disk s' := by
    obtain ⟨h1, h2⟩ := h.quiet hcom
    refine ⟨?_, fun y hy => ?_⟩
    · rw [hd]
      exact h1
    · rw [hd, htake]
      exact h2 y hy
  refine ⟨fun y hy => ?_, ?_, fun y hy => ?_, fun y hy hno => ?_, ?_, fun hnil => ?_, fun _ => hquiet,
    fun q => phase_of_idle (hpc q)⟩
  · rcases (hmem y).mp hy with rfl | hy
    · exact hb
    · exact h.home y hy
  · rw [hlh]
    split
    · exact h.room
    · rw [List.length_append, List.length_singleton]
      omega
  · rw [hc, hh, replay_append]
    unfold upd
    split
    · rfl
    · exact h.cache y hy
  · rw [htake, hc]
    rw [hmem, not_or] at hno
    rw [upd, if_neg hno.1]
    exact h.clean y hy hno.2
  · rw [hn, hh, List.length_append]
    exact Nat.le_add_right_of_le h.durable
  · have : b ∈ s'.lh := (hmem b).mpr (.inl rfl)
    rw [hnil] at this
    cases this

/-- Steps that change what `p` does, but nothing of what it works on. -/
theorem Content.move (h : Content start size disk s) {m : P → Pc} (hd : s'.disk = s.disk) (hc : s'.cache = s.cache)
    (hlh : s'.lh = s.lh) (hh : s'.history = s.history) (hn : s'.durable = s.durable)
    (hcom : s'.committing = false → Quiet start size disk s) (hpc : s'.pc = Function.update m p x)
    (hx : Phase start size disk s x)
    (hsame : ∀ q, q ≠ p → (m q).committing = true → s.pc q = m q) : Content start size disk s' := by
  refine h.same hd hc hlh hh hn hcom (fun q hq => ?_)
  rw [hpc] at hq ⊢
  rcases eq_or_ne q p with rfl | hqp
  · rw [Function.update_self]
    exact hx
  · rw [Function.update_of_ne hqp] at hq ⊢
    rw [← hsame q hqp hq]
    exact h.phase q

/-- One block of the log area is written; no block outside of it changes. -/
theorem Content.copy [Fintype P] (ht : Turn s) (h : Content start size disk s) {tail b : Nat}
    (hp : s.pc p = .writeLog tail) (hb : s.lh[tail]? = some b) :
    Content start size disk
      { s.setPc p (.writeLog (tail + 1)) with disk := upd s.disk (start + 1 + tail) (s.cache b) } := by
  obtain ⟨hq, hcop⟩ : Phase start size disk s (.writeLog tail) := hp ▸ h.phase p
  have htail := (h.home_at hb).2
  have hquiet : Quiet start size disk
      { s.setPc p (.writeLog (tail + 1)) with disk := upd s.disk (start + 1 + tail) (s.cache b) } := by
    refine ⟨?_, fun x hx => ?_⟩
    · change (upd s.disk (start + 1 + tail) (s.cache b) start).header = []
      rw [upd, if_neg (by omega)]
      exact hq.head
    · change upd s.disk (start + 1 + tail) (s.cache b) x = _
      rw [upd, if_neg (hx.ne_copy htail)]
      exact hq.home x hx
  refine ⟨h.home, h.room, h.cache, h.clean, h.durable, h.empty, fun _ => hquiet, ?_⟩
  refine ht.phase_alone (by rw [hp]; rfl) rfl ⟨hquiet, fun j c hj hc => ?_⟩
  change upd s.disk (start + 1 + tail) (s.cache b) (start + 1 + j) = s.cache c
  rcases Nat.lt_succ_iff_lt_or_eq.mp hj with hlt | rfl
  · rw [upd, if_neg (by omega)]
    exact hcop j c hlt hc
  · rw [upd, if_pos rfl]
    exact congrArg s.cache (Option.some.inj (hb.symm.trans hc))

/-- The write of the header. -/
theorem Content.head [Fintype P] (ht : Turn s) (h : Content start size disk s) (hp : s.pc p = .writeHead) :
    Content start size disk { s.setPc p (.install 0) with
      disk := upd s.disk start ((s.disk start).setHeader s.lh), durable := s.history.length } := by
  obtain ⟨hq, hcop⟩ : Phase start size disk s .writeHead := hp ▸ h.phase p
  have hcommit := (ht.alone p (by rw [hp]; rfl)).1
  have hlen : s.lh.length < 128 := lt_of_le_of_lt h.room.1 (by decide)
  refine ⟨h.home, h.room, h.cache, fun x hx _ => ?_, le_refl _, fun _ => rfl, fun hno => ?_, ?_⟩
  · change replay disk (s.history.take s.history.length) x = s.cache x
    rw [List.take_length]
    exact (h.cache x hx).symm
  · exact nomatch hcommit.symm.trans hno
  refine ht.phase_alone (by rw [hp]; rfl) rfl ⟨fun j b hj hb => ?_, ?_, fun x hx hno => ?_, fun j b hj => ?_, rfl⟩
  · change upd s.disk start _ (start + 1 + j) = s.cache b
    rw [upd, if_neg (by omega)]
    exact hcop j b hj hb
  · change (upd s.disk start _ start).header = s.lh
    rw [upd, if_pos rfl]
    exact Block.header_setHeader _ hlen (fun v hv => (h.home v hv).2)
  · change upd s.disk start _ x = s.cache x
    rw [upd, if_neg hx.ne_start, hq.home x hx]
    exact h.clean x hx hno
  · exact absurd hj (Nat.not_lt_zero j)

/-- A block is written home. -/
theorem Content.install [Fintype P] (ht : Turn s) (h : Content start size disk s) {tail b : Nat}
    (hp : s.pc p = .install tail) (hb : s.lh[tail]? = some b) :
    Content start size disk { s.setPc p (.install (tail + 1)) with
      disk := upd s.disk b (s.disk (start + 1 + tail)), cache := upd s.cache b (s.disk (start + 1 + tail)) } := by
  obtain ⟨hcop, hhead, hrest, hdone, hall⟩ : Phase start size disk s (.install tail) := hp ▸ h.phase p
  have hcommit := (ht.alone p (by rw [hp]; rfl)).1
  have hhome := (h.home_at hb).1
  have hval : s.disk (start + 1 + tail) = s.cache b := hcop tail b (List.getElem?_eq_some_iff.mp hb).1 hb
  have hcache : upd s.cache b (s.disk (start + 1 + tail)) = s.cache := by
    funext x
    unfold upd
    split
    · next hx => rw [hval, hx]
    · rfl
  rw [hcache, hval]
  refine ⟨h.home, h.room, h.cache, h.clean, h.durable, h.empty, fun hno => ?_, ?_⟩
  · exact nomatch hcommit.symm.trans hno
  refine ht.phase_alone (by rw [hp]; rfl) rfl ⟨fun j c hj hc => ?_, ?_, fun x hx hno => ?_, fun j c hj hc => ?_, hall⟩
  · change upd s.disk b (s.cache b) (start + 1 + j) = s.cache c
    rw [upd, if_neg (hhome.ne_copy (h.home_at hc).2).symm]
    exact hcop j c hj hc
  · change (upd s.disk b (s.cache b) start).header = s.lh
    rw [upd, if_neg hhome.ne_start.symm]
    exact hhead
  · change upd s.disk b (s.cache b) x = s.cache x
    have hin : b ∈ s.lh := List.mem_of_getElem? hb
    have hne : x ≠ b := by
      rintro rfl
      exact hno hin
    rw [upd, if_neg hne]
    exact hrest x hx hno
  · change upd s.disk b (s.cache b) c = s.cache c
    unfold upd
    split
    · next he => rw [he]
    · next hne =>
      rcases Nat.lt_succ_iff_lt_or_eq.mp hj with hlt | rfl
      · exact hdone j c hlt hc
      · exact absurd (Option.some.inj (hc.symm.trans hb)) hne

/-- The log is emptied in memory, when all blocks are at home. -/
theorem Content.installed [Fintype P] (ht : Turn s) (h : Content start size disk s) {tail : Nat}
    (hp : s.pc p = .install tail) (hb : s.lh[tail]? = none) :
    Content start size disk { s.setPc p .erase with lh := [] } := by
  obtain ⟨hcop, hhead, hrest, hdone, hall⟩ : Phase start size disk s (.install tail) := hp ▸ h.phase p
  have hcommit := (ht.alone p (by rw [hp]; rfl)).1
  have hlen : s.lh.length ≤ tail := List.getElem?_eq_none_iff.mp hb
  have hhome : ∀ x, Home start (size - 1) x → s.disk x = s.cache x := by
    intro x hx
    by_cases hin : x ∈ s.lh
    · obtain ⟨j, hj⟩ := List.mem_iff_getElem?.mp hin
      have := (List.getElem?_eq_some_iff.mp hj).1
      exact hdone j x (by omega) hj
    · exact hrest x hx hin
  refine ⟨nofun, ⟨Nat.zero_le _, Nat.zero_le _⟩, h.cache, fun x hx _ => h.all_shown hall x hx, h.durable,
    fun _ => hall, fun hno => (nomatch hcommit.symm.trans hno), ?_⟩
  refine ht.phase_alone (by rw [hp]; rfl) rfl ⟨?_, hhome, hall⟩
  refine ⟨fun b hb => ?_, ?_, fun i b hi => ?_, fun x hx _ => hhome x hx⟩
  · exact (h.home b (hhead ▸ hb)).1
  · exact hhead ▸ h.room.2
  · have hi : s.lh[i]? = some b := hhead ▸ hi
    exact hcop i b (List.getElem?_eq_some_iff.mp hi).1 hi

theorem Content.erase [Fintype P] (ht : Turn s) (h : Content start size disk s) (hp : s.pc p = .erase) :
    Content start size disk
      { s.setPc p .ends with disk := upd s.disk start ((s.disk start).setHeader s.lh) } := by
  obtain ⟨-, hhome, hall⟩ : Phase start size disk s .erase := hp ▸ h.phase p
  have hquiet : Quiet start size disk
      { s.setPc p .ends with disk := upd s.disk start ((s.disk start).setHeader s.lh) } := by
    refine ⟨?_, fun x hx => ?_⟩
    · change (upd s.disk start ((s.disk start).setHeader s.lh) start).header = []
      rw [upd, if_pos rfl, ht.erased p (.inl hp)]
      exact Block.header_setHeader_nil _
    · change upd s.disk start _ x = replay disk (s.history.take s.durable) x
      rw [upd, if_neg hx.ne_start, hhome x hx, h.all_shown hall x hx]
  refine ⟨h.home, h.room, h.cache, h.clean, h.durable, h.empty, fun _ => hquiet, ?_⟩
  exact ht.phase_alone (by rw [hp]; rfl) rfl ⟨hquiet, hall⟩

theorem Content.step [Fintype P] (ht : Turn s) (h : Content start size disk s) (he : Effect start size s a s') :
    Content start size disk s' := by
  cases he with
  | sleep p hp hwhy =>
    exact h.move (p := p) (m := s.pc) rfl rfl rfl rfl rfl h.quiet rfl trivial (fun _ _ _ => rfl)
  | enter p hp hc hroom =>
    exact h.move (p := p) (m := s.pc) rfl rfl rfl rfl rfl h.quiet rfl trivial (fun _ _ _ => rfl)
  | tooBig => exact h.same rfl rfl rfl rfl rfl h.quiet (fun q _ => h.phase q)
  | outside => exact h.same rfl rfl rfl rfl rfl h.quiet (fun q _ => h.phase q)
  | log p id used b data hp hb hroom =>
    obtain ⟨-, hc⟩ := ht.inOp hp
    refine h.log hb hroom rfl rfl rfl rfl rfl hc (fun q => ?_)
    change (Function.update s.pc p (.inOp id _) q).committing = false
    rcases eq_or_ne q p with rfl | hqp
    · rw [Function.update_self]
      rfl
    · rw [Function.update_of_ne hqp]
      apply Bool.eq_false_of_not_eq_true
      intro hq
      exact nomatch hc.symm.trans (ht.alone q hq).1
  | twice p id used hp hc => exact h.same rfl rfl rfl rfl rfl h.quiet (fun q _ => h.phase q)
  | last p id used hp hc ho =>
    refine h.move (p := p) (m := s.pc) rfl rfl rfl rfl rfl nofun rfl ?_ (fun _ _ _ => rfl)
    split
    · exact ⟨h.quiet hc, fun j b hj => absurd hj (Nat.not_lt_zero j)⟩
    · next hlen =>
      exact ⟨h.quiet hc, h.empty (List.length_eq_zero_iff.mp (Nat.eq_zero_of_not_pos hlen))⟩
  | leave p id used hp hc ho =>
    refine h.move (p := p) (m := wakeup s.pc) rfl rfl rfl rfl rfl h.quiet rfl trivial (fun q _ hq => ?_)
    exact (wakeup_eq (fun b hb => by rw [hb] at hq; cases hq)).mp rfl
  | copy p tail b hp hb => exact h.copy ht hp hb
  | copied p tail hp hb =>
    obtain ⟨hq, hcop⟩ : Phase start size disk s (.writeLog tail) := hp ▸ h.phase p
    refine h.move (p := p) (m := s.pc) rfl rfl rfl rfl rfl h.quiet rfl ⟨hq, fun j b hj hb' => ?_⟩ (fun _ _ _ => rfl)
    exact hcop j b (hj.trans_le (List.getElem?_eq_none_iff.mp hb)) hb'
  | head p hp => exact h.head ht hp
  | install p tail b hp hb => exact h.install ht hp hb
  | installed p tail hp hb => exact h.installed ht hp hb
  | erase p hp => exact h.erase ht hp
  | finish p hp =>
    obtain ⟨hq, -⟩ : Phase start size disk s .ends := hp ▸ h.phase p
    refine h.move (p := p) (m := wakeup s.pc) rfl rfl rfl rfl rfl (fun _ => hq) rfl trivial (fun q _ hcq => ?_)
    exact (wakeup_eq (fun b hb => by rw [hb] at hcq; cases hcq)).mp rfl

/-! ## Which operations are durable -/

/-- The operations with numbers below `base` are durable, and all others are not. -/
structure Divided (s : State P) (base : Nat) : Prop where
  old : ∀ w ∈ s.history.take s.durable, w.1 < base
  new : ∀ w ∈ s.history.drop s.durable, base ≤ w.1
  active : ∀ p id used, s.pc p = .inOp id used → base ≤ id ∧ id < s.next
  next : ∀ w ∈ s.history, w.1 < s.next
  le : base ≤ s.next

omit [DecidableEq P] in
/-- A step that logs nothing and lets nobody enter an operation. -/
theorem Divided.move {base : Nat} (h : Divided s base) (hh : s'.history = s.history) (hn : s'.durable = s.durable)
    (hnext : s'.next = s.next) (hpc : ∀ p id used, s'.pc p = .inOp id used → s.pc p = .inOp id used) :
    Divided s' base := by
  refine ⟨?_, ?_, fun p id used hp => ?_, ?_, hnext ▸ h.le⟩
  · rw [hh, hn]
    exact h.old
  · rw [hh, hn]
    exact h.new
  · rw [hnext]
    exact h.active p id used (hpc p id used hp)
  · rw [hh, hnext]
    exact h.next

theorem Divided.step [Fintype P] (ht : Turn s) (hc : Content start size disk s) {base : Nat} (h : Divided s base)
    (he : Effect start size s a s') : ∃ base', Divided s' base' := by
  have hupd : ∀ {m : P → Pc} {p : P} {x : Pc}, (∀ id used, x ≠ .inOp id used) →
      (∀ q id used, m q = .inOp id used → s.pc q = .inOp id used) →
      ∀ q id used, Function.update m p x q = .inOp id used → s.pc q = .inOp id used := by
    intro m p x hx hpc q id used hq
    rcases eq_or_ne q p with rfl | hqp
    · rw [Function.update_self] at hq
      exact absurd hq (hx id used)
    · rw [Function.update_of_ne hqp] at hq
      exact hpc q id used hq
  have hwake : ∀ q id used, wakeup s.pc q = .inOp id used → s.pc q = .inOp id used :=
    fun q id used hq => (wakeup_eq (x := .inOp id used) (fun _ => nofun)).mp hq
  cases he with
  | sleep p hp hwhy =>
    exact ⟨base, h.move rfl rfl rfl (hupd (m := s.pc) (p := p) (x := .begins true) nofun fun _ _ _ hq => hq)⟩
  | enter p hp hcom hroom =>
    refine ⟨base, h.old, h.new, fun q id used hq => ?_, fun w hw => ?_, ?_⟩
    · change Function.update s.pc p (.inOp s.next 0) q = .inOp id used at hq
      rcases eq_or_ne q p with rfl | hqp
      · rw [Function.update_self] at hq
        cases hq
        exact ⟨h.le, Nat.lt_succ_self _⟩
      · rw [Function.update_of_ne hqp] at hq
        obtain ⟨h1, h2⟩ := h.active q id used hq
        exact ⟨h1, h2.trans (Nat.lt_succ_self _)⟩
    · exact (h.next w hw).trans (Nat.lt_succ_self _)
    · exact h.le.trans (Nat.le_succ _)
  | tooBig => exact ⟨base, h.move rfl rfl rfl fun _ _ _ hq => hq⟩
  | outside => exact ⟨base, h.move rfl rfl rfl fun _ _ _ hq => hq⟩
  | log p id used b data hp hb hroom =>
    obtain ⟨h1, h2⟩ := h.active p id used hp
    refine ⟨base, fun w hw => ?_, fun w hw => ?_, fun q id' used' hq => ?_, fun w hw => ?_, h.le⟩
    · change w ∈ (s.history ++ [(id, b, data)]).take s.durable at hw
      rw [List.take_append_of_le_length hc.durable] at hw
      exact h.old w hw
    · change w ∈ (s.history ++ [(id, b, data)]).drop s.durable at hw
      rw [List.drop_append_of_le_length hc.durable] at hw
      rcases List.mem_append.mp hw with hw | hw
      · exact h.new w hw
      · rw [List.mem_singleton.mp hw]
        exact h1
    · change Function.update s.pc p (.inOp id _) q = .inOp id' used' at hq
      rcases eq_or_ne q p with rfl | hqp
      · rw [Function.update_self] at hq
        cases hq
        exact ⟨h1, h2⟩
      · rw [Function.update_of_ne hqp] at hq
        exact h.active q id' used' hq
    · rcases List.mem_append.mp hw with hw | hw
      · exact h.next w hw
      · rw [List.mem_singleton.mp hw]
        exact h2
  | twice p id used hp hcom => exact ⟨base, h.move rfl rfl rfl fun _ _ _ hq => hq⟩
  | last p id used hp hcom ho =>
    refine ⟨base, h.move rfl rfl rfl (hupd (fun id' used' hx => ?_) fun _ _ _ hq => hq)⟩
    split at hx <;> cases hx
  | leave p id used hp hcom ho => exact ⟨base, h.move rfl rfl rfl (hupd nofun hwake)⟩
  | copy p tail b hp hb => exact ⟨base, h.move rfl rfl rfl (hupd nofun fun _ _ _ hq => hq)⟩
  | copied p tail hp hb =>
    exact ⟨base, h.move rfl rfl rfl (hupd (m := s.pc) (p := p) (x := .writeHead) nofun fun _ _ _ hq => hq)⟩
  | head p hp =>
    -- nobody is in an operation while a commit goes on
    have hcom := (ht.alone p (by rw [hp]; rfl)).1
    refine ⟨s.next, fun w hw => ?_, fun w hw => ?_, fun q id used hq => ?_, h.next, le_refl _⟩
    · exact h.next w (List.mem_of_mem_take hw)
    · change w ∈ s.history.drop s.history.length at hw
      rw [List.drop_length] at hw
      cases hw
    · have hq := hupd (m := s.pc) (p := p) (x := .install 0) nofun (fun _ _ _ hq => hq) q id used hq
      exact nomatch hcom.symm.trans (ht.inOp hq).2
  | install p tail b hp hb => exact ⟨base, h.move rfl rfl rfl (hupd nofun fun _ _ _ hq => hq)⟩
  | installed p tail hp hb => exact ⟨base, h.move rfl rfl rfl (hupd nofun fun _ _ _ hq => hq)⟩
  | erase p hp => exact ⟨base, h.move rfl rfl rfl (hupd nofun fun _ _ _ hq => hq)⟩
  | finish p hp => exact ⟨base, h.move rfl rfl rfl (hupd nofun hwake)⟩

omit [DecidableEq P] in
/-- At every moment a recovery would give the blocks with the durable updates. -/
theorem Content.recoverable [Fintype P] (ht : Turn s) (h : Content start size disk s) :
    Recoverable start (size - 1) Block.header s.disk (replay disk (s.history.take s.durable)) := by
  have hquiet : Quiet start size disk s →
      Recoverable start (size - 1) Block.header s.disk (replay disk (s.history.take s.durable)) :=
    fun hq => recoverable_of_empty hq.head hq.home
  by_cases hcom : s.committing = true
  · obtain ⟨p, hp⟩ := ht.someone hcom
    have hph := h.phase p
    cases hpc : s.pc p with
    | idle =>
      rw [hpc] at hp
      cases hp
    | begins =>
      rw [hpc] at hp
      cases hp
    | inOp =>
      rw [hpc] at hp
      cases hp
    | writeLog tail =>
      rw [hpc] at hph
      exact hquiet hph.1
    | writeHead =>
      rw [hpc] at hph
      exact hquiet hph.1
    | install tail =>
      rw [hpc] at hph
      obtain ⟨hcop, hhead, hrest, -, hall⟩ := hph
      have hrec : Recoverable start (size - 1) Block.header s.disk s.cache := by
        refine ⟨fun b hb => ?_, ?_, fun i b hi => ?_, fun x hx hno => ?_⟩
        · exact (h.home b (hhead ▸ hb)).1
        · exact hhead ▸ h.room.2
        · have hi : s.lh[i]? = some b := hhead ▸ hi
          exact hcop i b (List.getElem?_eq_some_iff.mp hi).1 hi
        · exact hrest x hx (hhead ▸ hno)
      exact hrec.congr (fun x hx => (h.all_shown hall x hx).symm)
    | erase =>
      rw [hpc] at hph
      exact hph.1.congr (fun x hx => (h.all_shown hph.2.2 x hx).symm)
    | ends =>
      rw [hpc] at hph
      exact hquiet hph.1
  · exact hquiet (h.quiet (Bool.eq_false_of_not_eq_true hcom))

/-- The durable updates stay. -/
theorem Effect.durable (hc : Content start size disk s) (he : Effect start size s a s') :
    s.history.take s.durable <+: s'.history.take s'.durable := by
  cases he with
  | log p id used b data hp hb hroom =>
    change _ <+: (s.history ++ [(id, b, data)]).take s.durable
    rw [List.take_append_of_le_length hc.durable]
  | head p hp =>
    change _ <+: s.history.take s.history.length
    rw [List.take_length]
    exact List.take_prefix _ _
  | sleep => exact List.prefix_refl _
  | enter => exact List.prefix_refl _
  | tooBig => exact List.prefix_refl _
  | outside => exact List.prefix_refl _
  | twice => exact List.prefix_refl _
  | last => exact List.prefix_refl _
  | leave => exact List.prefix_refl _
  | copy => exact List.prefix_refl _
  | copied => exact List.prefix_refl _
  | install => exact List.prefix_refl _
  | installed => exact List.prefix_refl _
  | erase => exact List.prefix_refl _
  | finish => exact List.prefix_refl _

end Content

/-! ## Runs -/

structure Sound [Fintype P] (start size : Nat) (disk : Nat → Block) (s : State P) : Prop where
  turn : Turn s
  content : Content start size disk s
  divided : ∃ base, Divided s base

section Runs

variable [Fintype P]

theorem Sound.step (h : Sound start size disk s) (hs : groupStep start size s a = some s') :
    Sound start size disk s' := by
  obtain ⟨-, he⟩ := groupStep_effect hs
  obtain ⟨base, hd⟩ := h.divided
  exact ⟨h.turn.step he, h.content.step h.turn he, hd.step h.turn h.content he⟩

/-- The only panic is that of a full log. -/
theorem Effect.fault (ht : Turn s) (he : Effect start size s a s') : s'.fault = s.fault ∨
    s'.fault = some "too big a transaction" ∧ (LOGSIZE ≤ s.lh.length ∨ size - 1 ≤ s.lh.length) := by
  cases he with
  | tooBig p id used b data hp hfull => exact .inr ⟨rfl, hfull⟩
  | outside p id used b data hp ho =>
    have := (ht.inOp hp).1
    omega
  | twice p id used hp hc =>
    rw [(ht.inOp hp).2] at hc
    cases hc
  | sleep => exact .inl rfl
  | enter => exact .inl rfl
  | log => exact .inl rfl
  | last => exact .inl rfl
  | leave => exact .inl rfl
  | copy => exact .inl rfl
  | copied => exact .inl rfl
  | head => exact .inl rfl
  | install => exact .inl rfl
  | installed => exact .inl rfl
  | erase => exact .inl rfl
  | finish => exact .inl rfl

omit [DecidableEq P] in
theorem boot_sound (hdisk : (disk start).header = []) : Sound start size disk (State.boot disk : State P) := by
  have hquiet : Quiet start size disk (State.boot disk : State P) := ⟨hdisk, fun _ _ => rfl⟩
  refine ⟨⟨?_, nofun, nofun, nofun, fun _ _ => rfl, fun _ _ => rfl, nofun⟩,
    ⟨nofun, ⟨Nat.zero_le _, Nat.zero_le _⟩, fun _ _ => rfl, fun _ _ _ => rfl, le_refl _, fun _ => rfl,
      fun _ => hquiet, fun _ => trivial⟩, 0, nofun, nofun, nofun, nofun, le_refl _⟩
  exact (Finset.sum_eq_zero fun _ _ => rfl).symm

theorem run_sound (hdisk : (disk start).header = []) {as : List (Act P)}
    (hr : Lib.run (groupStep start size) (State.boot disk) as = some s) : Sound start size disk s :=
  Lib.run_inv_all (fun _ _ _ h hs => h.step hs) (boot_sound hdisk) hr

omit [DecidableEq P] in
theorem Sound.crashShows (h : Sound start size disk s) : CrashShows start size disk s := by
  obtain ⟨ht, hc, base, hd⟩ := h
  refine ⟨fun d hd x hx => ?_, fun w hw v hv => ?_, fun p id used hp w hw => ?_, fun ho hcom => ?_⟩
  · have hrec := (hc.recoverable ht).reboots Block.header_setHeader_nil hd
    exact (hrec.recovered Block.header_setHeader_nil).2 x hx
  · exact ((hd.old w hw).trans_le (hd.new v hv)).ne
  · exact ((hd.old w hw).trans_le (hd.active p id used hp).1).ne
  · exact hc.empty (ht.empty hcom ho)

/-! ## The room in the log -/

/-- What an operation may still log. -/
def Pc.left : Pc → ℤ
  | .idle => 0
  | .begins _ => 0
  | .inOp _ used => 9 - used
  | .writeLog _ => 0
  | .writeHead => 0
  | .install _ => 0
  | .erase => 0
  | .ends => 0

/-- What is logged and what the operations may still log leaves the log one block short of
what `log_write` takes. -/
structure Fits (s : State P) : Prop where
  sum : s.lh.length + ∑ p, (s.pc p).left ≤ (LOGSIZE - 2 : ℤ)
  used : ∀ p, (s.pc p).used ≤ 9
  fault : s.fault = none

omit [DecidableEq P] [Fintype P] in
theorem left_eq (x : Pc) : x.left = 9 * x.busy - x.used := by
  cases x <;> simp [Pc.left, Pc.busy, Pc.used]

omit [DecidableEq P] in
theorem Fits.left_nonneg (h : Fits s) (p : P) : 0 ≤ (s.pc p).left := by
  have hused := h.used p
  cases hp : s.pc p with
  | inOp id used =>
    rw [hp] at hused
    change 0 ≤ 9 - (used : ℤ)
    change used ≤ 9 at hused
    omega
  | idle => exact le_refl _
  | begins => exact le_refl _
  | writeLog => exact le_refl _
  | writeHead => exact le_refl _
  | install => exact le_refl _
  | erase => exact le_refl _
  | ends => exact le_refl _

theorem sum_left (pc : P → Pc) (p : P) (x : Pc) :
    ∑ q, (Function.update pc p x q).left = ∑ q, (pc q).left - (pc p).left + x.left :=
  Lib.Refs.sum_update Pc.left pc p x

omit [DecidableEq P] in
theorem Turn.left_le (ht : Turn s) : ∑ p, (s.pc p).left ≤ 9 * s.outstanding := by
  rw [ht.count, Finset.mul_sum]
  refine Finset.sum_le_sum fun p _ => ?_
  rw [left_eq]
  omega

/-- A step that neither lets an operation in nor logs a new block. -/
theorem Fits.move (h : Fits s) {m : P → Pc} {p : P} {x : Pc} (hpc : s'.pc = Function.update m p x)
    (hlh : s'.lh.length ≤ s.lh.length) (hf : s'.fault = s.fault) (hleft : ∀ q, (m q).left = (s.pc q).left)
    (hused : ∀ q, (m q).used = (s.pc q).used) (hx : x.left = 0 ∧ x.used = 0) : Fits s' := by
  refine ⟨?_, fun q => ?_, hf.trans h.fault⟩
  · have hsum := h.sum
    have hp := h.left_nonneg p
    rw [hpc, sum_left, hx.1, hleft, Finset.sum_congr rfl (fun q _ => hleft q)]
    omega
  · rw [hpc]
    rcases eq_or_ne q p with rfl | hq
    · rw [Function.update_self, hx.2]
      exact Nat.zero_le _
    · rw [Function.update_of_ne hq, hused]
      exact h.used q

theorem Fits.step (hsize : LOGSIZE ≤ size) (ht : Turn s) (h : Fits s) {m : Nat} (hm : m ≤ 9)
    (ho : AtMost m s a) (he : Effect start size s a s') : Fits s' := by
  have hwake : ∀ q, (wakeup s.pc q).left = (s.pc q).left ∧ (wakeup s.pc q).used = (s.pc q).used := by
    intro q
    unfold wakeup
    cases s.pc q <;> exact ⟨rfl, rfl⟩
  cases he with
  | sleep p hp hwhy =>
    exact h.move (p := p) (m := s.pc) rfl (le_refl _) rfl (fun _ => rfl) (fun _ => rfl) ⟨rfl, rfl⟩
  | enter p hp hcom hroom =>
    have hz : (s.pc p).left = 0 := by rcases hp with hp | hp <;> rw [hp] <;> rfl
    refine ⟨?_, fun q => ?_, h.fault⟩
    · change s.lh.length + ∑ q, (Function.update s.pc p (.inOp s.next 0) q).left ≤ _
      rw [sum_left, hz]
      have hle := ht.left_le
      have hnn := ht.nonneg
      have hempty := ht.empty hcom
      have hnine : (Pc.inOp s.next 0).left = 9 := rfl
      have hlog : (LOGSIZE : ℤ) = 30 := rfl
      have hmax : (MAXOPBLOCKS : ℤ) = 10 := rfl
      rw [hmax] at hroom
      rcases eq_or_lt_of_le hnn with hz | hpos
      · rw [hempty hz.symm] at hroom ⊢
        simp only [List.length_nil] at hroom ⊢
        omega
      · omega
    · change (Function.update s.pc p (.inOp s.next 0) q).used ≤ 9
      rcases eq_or_ne q p with rfl | hq
      · rw [Function.update_self]
        exact Nat.zero_le _
      · rw [Function.update_of_ne hq]
        exact h.used q
  | tooBig p id used b data hp hfull =>
    have hsum := h.sum
    have hnn := Finset.sum_nonneg (s := Finset.univ) fun q _ => h.left_nonneg q
    have hlog : (LOGSIZE : ℤ) = 30 := rfl
    have hlog' : LOGSIZE = 30 := rfl
    omega
  | outside p id used b data hp hout =>
    have := (ht.inOp hp).1
    omega
  | log p id used b data hp hb hroom =>
    have hsum := h.sum
    have hlog : (LOGSIZE : ℤ) = 30 := rfl
    have hused := h.used p
    rw [hp] at hused
    have hin : b ∈ s.lh ∨ used < m := by
      have ho : b ∈ s.lh ∨ (s.pc p).used < m := ho
      rw [hp] at ho
      exact ho
    refine ⟨?_, fun q => ?_, h.fault⟩
    · change ((if b ∈ s.lh then s.lh else s.lh ++ [b]).length : ℤ) +
        ∑ q, (Function.update s.pc p (.inOp id (if b ∈ s.lh then used else used + 1)) q).left ≤ _
      have hleft : ∀ n, (Pc.inOp id n).left = 9 - n := fun _ => rfl
      rw [sum_left, hp, hleft, hleft]
      split
      · omega
      · rw [List.length_append, List.length_singleton]
        push_cast
        omega
    · change (Function.update s.pc p (.inOp id _) q).used ≤ 9
      rcases eq_or_ne q p with rfl | hq
      · rw [Function.update_self]
        change (if b ∈ s.lh then used else used + 1) ≤ 9
        change used ≤ 9 at hused
        split
        · exact hused
        · next hno =>
          have := hin.resolve_left hno
          omega
      · rw [Function.update_of_ne hq]
        exact h.used q
  | twice p id used hp hc =>
    rw [(ht.inOp hp).2] at hc
    cases hc
  | last p id used hp hc hout =>
    refine h.move (p := p) (m := s.pc) rfl (le_refl _) rfl (fun _ => rfl) (fun _ => rfl) ?_
    split <;> exact ⟨rfl, rfl⟩
  | leave p id used hp hc hout =>
    exact h.move (p := p) (m := wakeup s.pc) rfl (le_refl _) rfl (fun q => (hwake q).1) (fun q => (hwake q).2)
      ⟨rfl, rfl⟩
  | copy p => exact h.move (p := p) (m := s.pc) rfl (le_refl _) rfl (fun _ => rfl) (fun _ => rfl) ⟨rfl, rfl⟩
  | copied p => exact h.move (p := p) (m := s.pc) rfl (le_refl _) rfl (fun _ => rfl) (fun _ => rfl) ⟨rfl, rfl⟩
  | head p => exact h.move (p := p) (m := s.pc) rfl (le_refl _) rfl (fun _ => rfl) (fun _ => rfl) ⟨rfl, rfl⟩
  | install p => exact h.move (p := p) (m := s.pc) rfl (le_refl _) rfl (fun _ => rfl) (fun _ => rfl) ⟨rfl, rfl⟩
  | installed p =>
    exact h.move (p := p) (m := s.pc) rfl (Nat.zero_le _) rfl (fun _ => rfl) (fun _ => rfl) ⟨rfl, rfl⟩
  | erase p => exact h.move (p := p) (m := s.pc) rfl (le_refl _) rfl (fun _ => rfl) (fun _ => rfl) ⟨rfl, rfl⟩
  | finish p =>
    exact h.move (p := p) (m := wakeup s.pc) rfl (le_refl _) rfl (fun q => (hwake q).1) (fun q => (hwake q).2)
      ⟨rfl, rfl⟩

theorem run_fits (hdisk : (disk start).header = []) (hsize : LOGSIZE ≤ size) {m : Nat} (hm : m ≤ 9)
    {as : List (Act P)} (hmeets : Lib.Meets (groupStep start size) (AtMost m) (State.boot disk) as)
    (hr : Lib.run (groupStep start size) (State.boot disk) as = some s) : s.fault = none := by
  have hboot : Fits (State.boot disk : State P) := by
    refine ⟨?_, fun _ => Nat.zero_le _, rfl⟩
    change (0 : ℤ) + ∑ _p : P, (0 : ℤ) ≤ _
    rw [Finset.sum_const_zero]
    decide
  have hrun : Sound start size disk s ∧ Fits s := by
    refine Lib.run_inv (I := fun u => Sound start size disk u ∧ Fits u) ?_ as _ s ⟨boot_sound hdisk, hboot⟩ hmeets hr
    rintro u a u' ⟨hu, hf⟩ ho hstep
    exact ⟨hu.step hstep, hf.step hsize hu.turn hm ho (groupStep_effect hstep).2⟩
  exact hrun.2.fault

end Runs

end Machine

section Main

variable {P : Type} [DecidableEq P] [Fintype P]

/-- In every state of every run, a crash shows whole operations, and what it shows at one
moment it shows ever after. -/
theorem group_crash (start size : Nat) (disk : Nat → Block) (as bs : List (Act P)) (s t : State P)
    (hdisk : (disk start).header = [])
    (hs : Lib.run (groupStep start size) (State.boot disk) as = some s)
    (ht : Lib.run (groupStep start size) s bs = some t) :
    CrashShows start size disk s ∧ s.history.take s.durable <+: t.history.take t.durable := by
  have hsound := run_sound hdisk hs
  refine ⟨hsound.crashShows, ?_⟩
  have hrun : Sound start size disk t ∧ s.history.take s.durable <+: t.history.take t.durable := by
    refine Lib.run_inv_all (I := fun u => Sound start size disk u ∧
      s.history.take s.durable <+: u.history.take u.durable) ?_ ⟨hsound, List.prefix_refl _⟩ ht
    rintro u a u' ⟨hu, hp⟩ hstep
    exact ⟨hu.step hstep, hp.trans ((groupStep_effect hstep).2.durable hu.content)⟩
  exact hrun.2

/-- Nobody sleeps who could go on, and no check of `log.c` but that of the size panics. -/
theorem group_awake (start size : Nat) (disk : Nat → Block) (as : List (Act P)) (s : State P)
    (hdisk : (disk start).header = []) (hs : Lib.run (groupStep start size) (State.boot disk) as = some s) :
    Awake s ∧ (s.fault = none ∨ s.fault = some "too big a transaction") := by
  have hrun : Sound start size disk s ∧ (s.fault = none ∨ s.fault = some "too big a transaction") := by
    refine Lib.run_inv_all (I := fun u => Sound start size disk u ∧
      (u.fault = none ∨ u.fault = some "too big a transaction")) ?_ ⟨boot_sound hdisk, .inl rfl⟩ hs
    rintro u a u' ⟨hu, -⟩ hstep
    refine ⟨hu.step hstep, ?_⟩
    obtain ⟨hf, he⟩ := groupStep_effect hstep
    rcases he.fault hu.turn with hsame | ⟨hfull, -⟩
    · exact .inl (hsame.trans hf)
    · exact .inr hfull
  exact ⟨hrun.1.turn.awake, hrun.2⟩

local instance (priority := 2000) two_neZero : NeZero 2 := ⟨by decide⟩
local instance (priority := 2000) three_neZero : NeZero 3 := ⟨by decide⟩

/-- Two operations at the same time, and the commit of both up to the header. -/
def twoOps : List (Act (Fin 2)) :=
  [.beginOp 0, .logWrite 0 100 (fun _ => 1), .beginOp 1, .logWrite 1 101 (fun _ => 2), .endOp 0,
    .logWrite 1 100 (fun _ => 3), .endOp 1, .commit 1, .commit 1, .commit 1]

theorem group_crash_twoOps : ∃ s t : State (Fin 2),
    Lib.run (groupStep 2 LOGSIZE) (State.boot fun _ => Block.zero) twoOps = some s ∧
    Lib.run (groupStep 2 LOGSIZE) s [.commit 1] = some t ∧
    CrashShows 2 LOGSIZE (fun _ => Block.zero) s ∧ s.history.take s.durable <+: t.history.take t.durable :=
  ⟨_, _, rfl, rfl, group_crash 2 LOGSIZE (fun _ => Block.zero) twoOps [.commit 1] _ _ rfl rfl rfl⟩

theorem group_awake_twoOps : ∃ s : State (Fin 2),
    Lib.run (groupStep 2 LOGSIZE) (State.boot fun _ => Block.zero) twoOps = some s ∧
    Awake s ∧ (s.fault = none ∨ s.fault = some "too big a transaction") :=
  ⟨_, rfl, group_awake 2 LOGSIZE (fun _ => Block.zero) twoOps _ rfl rfl⟩

/-- Three operations begin, and each logs ten blocks. -/
def tenEach : List (Act (Fin 3)) :=
  [.beginOp 0, .beginOp 1, .beginOp 2] ++
    (List.range 10).map (fun i => .logWrite 0 (100 + i) Block.zero) ++
    (List.range 10).map (fun i => .logWrite 1 (110 + i) Block.zero) ++
    (List.range 10).map (fun i => .logWrite 2 (120 + i) Block.zero)

theorem tenEach_run : ∃ t : State (Fin 3),
    Lib.Meets (groupStep 2 LOGSIZE) (AtMost MAXOPBLOCKS) (State.boot fun _ => Block.zero) tenEach ∧
    Lib.run (groupStep 2 LOGSIZE) (State.boot fun _ => Block.zero) tenEach = some t ∧
    t.fault = some "too big a transaction" :=
  ⟨_, by decide, rfl, rfl⟩

/-- The log of the disk that `mkfs` makes is large enough in all runs of operations that log
at most `m` new blocks, exactly when `m` is less than `MAXOPBLOCKS`. -/
theorem group_fits_iff (m : Nat) :
    (∀ (P : Type) [DecidableEq P] [Fintype P] (disk : Nat → Block) (as : List (Act P)) (t : State P),
      (disk 2).header = [] → Lib.Meets (groupStep 2 LOGSIZE) (AtMost m) (State.boot disk) as →
      Lib.run (groupStep 2 LOGSIZE) (State.boot disk) as = some t → t.fault = none) ↔ m < MAXOPBLOCKS := by
  constructor
  · intro hall
    by_contra hm
    obtain ⟨t, hmeets, hr, hf⟩ := tenEach_run
    have hmeets' : Lib.Meets (groupStep 2 LOGSIZE) (AtMost m) (State.boot fun _ => Block.zero) tenEach := by
      refine Lib.Meets.mono (fun s a ho => ?_) _ _ hmeets
      cases a with
      | logWrite p b data =>
        refine Or.imp_right (fun hu => ?_) ho
        omega
      | beginOp => trivial
      | endOp => trivial
      | commit => trivial
    have hnone := hall (Fin 3) (fun _ => Block.zero) tenEach t rfl hmeets' hr
    rw [hnone] at hf
    cases hf
  · intro hm P _ _ disk as t hdisk hmeets hr
    exact run_fits hdisk (le_refl _) (Nat.lt_succ_iff.mp hm) hmeets hr

end Main

end Xv6.Fs.Group
