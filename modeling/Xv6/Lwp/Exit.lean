import Xv6.Lib.Run
import Xv6.Lwp.Proc

/- The unlocked part of `exit` (`project2_LWP/proc.c`): it closes the open files of
   the process and releases its working directory before it takes `ptable.lock`. The
   table `ofile[]` and `cwd` belong to the process, so several of its threads can be
   in this code at once: a killed process has all of its threads call `exit`.

   A step is one statement; `fileclose`, `begin_op`, `iput` and `end_op` can sleep, and
   while one thread sleeps there another one goes on. The calls made are recorded. The
   resources are released once exactly when no thread looks at a slot that another one
   is closing and none calls `iput` behind another one (`exit_releases_once`). -/
namespace Xv6.Lwp

abbrev NOFILE : Nat := 16

/-- Where a thread is in `exit`. `closing fd`: inside `fileclose(ofile[fd])`.
`inIput`, `endOp`: inside the calls of these names. -/
inductive ExitPc where
  | out
  | loop (fd : Nat)
  | closing (fd : Fin NOFILE)
  | beginOp
  | iput
  | inIput
  | endOp
  | locked
  deriving DecidableEq, Repr

/-- A process with threads in `exit`. Files and inodes are numbers, `none` is a null
pointer. `closes` and `iputs` record the calls of `fileclose` by slot and of `iput` by
argument; `zombie` says that the process has become one, and none of its threads runs
again. -/
structure Teardown where
  ofile : Fin NOFILE → Option Nat
  cwd : Option Nat
  pc : ThIdx → ExitPc
  closes : List (Fin NOFILE)
  iputs : List (Option Nat)
  zombie : Bool

namespace Teardown

def setPc (m : Teardown) (i : ThIdx) (pc : ExitPc) : Teardown :=
  { m with pc := fun j => if j = i then pc else m.pc j }

/-- The next statement of thread `i`. -/
def next (m : Teardown) (i : ThIdx) : Teardown :=
  match m.pc i with
  | .out => m.setPc i (.loop 0)
  | .loop fd =>
    if h : fd < NOFILE then
      if m.ofile ⟨fd, h⟩ = none then m.setPc i (.loop (fd + 1))
      else { m.setPc i (.closing ⟨fd, h⟩) with closes := ⟨fd, h⟩ :: m.closes }
    else m.setPc i .beginOp
  | .closing fd =>
    { m.setPc i (.loop (fd + 1)) with ofile := fun k => if k = fd then none else m.ofile k }
  | .beginOp => m.setPc i .iput
  | .iput => { m.setPc i .inIput with iputs := m.cwd :: m.iputs }
  | .inIput => m.setPc i .endOp
  | .endOp => { m.setPc i .locked with cwd := none }
  | .locked => { m with zombie := true }

end Teardown

/-- Thread `i` calls `exit`, or goes on in it. -/
def exitStep (m : Teardown) (i : ThIdx) : Option Teardown :=
  if m.zombie then none else some (m.next i)

/-- The process before any of its threads calls `exit`. -/
def beforeExit (ofile : Fin NOFILE → Option Nat) (cwd : Nat) : Teardown :=
  { ofile := ofile, cwd := some cwd, pc := fun _ => .out, closes := [], iputs := [], zombie := false }

/-- Thread `i` does not look at a slot that another thread is closing, and does not
call `iput` after another thread has. -/
def Alone (m : Teardown) (i : ThIdx) : Prop :=
  match m.pc i with
  | .loop fd => ∀ j k, m.pc j = .closing k → k.val ≠ fd
  | .iput => m.cwd ≠ none ∧ ∀ j, m.pc j ≠ .inIput ∧ m.pc j ≠ .endOp
  | _ => True

instance Alone.decidable (m : Teardown) (i : ThIdx) : Decidable (Alone m i) :=
  match h : m.pc i with
  | .loop fd => decidable_of_iff (∀ j k, m.pc j = .closing k → k.val ≠ fd) (by simp [Alone, h])
  | .iput => decidable_of_iff (m.cwd ≠ none ∧ ∀ j, m.pc j ≠ .inIput ∧ m.pc j ≠ .endOp)
      (by simp [Alone, h])
  | .out | .closing _ | .beginOp | .inIput | .endOp | .locked => .isTrue (by simp [Alone, h])

/-- No resource is released twice, `iput` never gets a null pointer, and when the
process is a zombie everything it had is released. -/
structure ReleasedOnce (ofile : Fin NOFILE → Option Nat) (cwd : Nat) (m : Teardown) : Prop where
  closed : ∀ fd, m.closes.count fd ≤ 1
  open' : ∀ fd, fd ∈ m.closes → ofile fd ≠ none
  put : m.iputs = [] ∨ m.iputs = [some cwd]
  allClosed : m.zombie = true → ∀ fd, ofile fd ≠ none → m.closes.count fd = 1
  allPut : m.zombie = true → m.iputs = [some cwd]

/-! ## The invariant -/

/-- The slots a thread has behind it. -/
def ExitPc.behind : ExitPc → Nat
  | .out => 0
  | .loop fd => fd
  | .closing fd => fd
  | _ => NOFILE

/-- The thread has called `iput` and not yet cleared `cwd`. -/
def ExitPc.putting : ExitPc → Bool
  | .inIput | .endOp => true
  | _ => false

/-- `closes` and `iputs` say what has been released: a slot that is empty now, or that
a thread is closing; the working directory, if it is null or a thread is releasing
it. -/
structure ExitInv (ofile : Fin NOFILE → Option Nat) (cwd : Nat) (m : Teardown) : Prop where
  slot : ∀ fd, m.ofile fd = none ∨ m.ofile fd = ofile fd
  count : ∀ fd, m.closes.count fd =
    if ofile fd ≠ none ∧ (m.ofile fd = none ∨ ∃ i, m.pc i = .closing fd) then 1 else 0
  closing : ∀ i fd, m.pc i = .closing fd → m.ofile fd ≠ none
  one : ∀ i j fd, m.pc i = .closing fd → m.pc j = .closing fd → i = j
  behind : ∀ i fd, fd.val < (m.pc i).behind → m.ofile fd = none
  dir : m.cwd = none ∨ m.cwd = some cwd
  put : m.iputs = if m.cwd = none ∨ ∃ i, (m.pc i).putting = true then [some cwd] else []
  putting : ∀ i, (m.pc i).putting = true → m.cwd ≠ none
  onePut : ∀ i j, (m.pc i).putting = true → (m.pc j).putting = true → i = j
  cleared : ∀ i, m.pc i = .locked → m.cwd = none
  zombie : m.zombie = true → (∀ fd, m.ofile fd = none) ∧ m.cwd = none

/-- A mark of a second release. -/
def Twice (m : Teardown) : Prop :=
  (∃ fd, 2 ≤ m.closes.count fd) ∨ none ∈ m.iputs ∨ 2 ≤ m.iputs.length

theorem ExitInv.releasedOnce {ofile : Fin NOFILE → Option Nat} {cwd : Nat} {m : Teardown}
    (h : ExitInv ofile cwd m) : ReleasedOnce ofile cwd m := by
  refine ⟨fun fd => ?_, fun fd hfd ho => ?_, ?_, fun hz fd ho => ?_, fun hz => ?_⟩
  · rw [h.count fd]
    split <;> omega
  · have hpos := List.count_pos_iff.mpr hfd
    rw [h.count fd] at hpos
    simp [ho] at hpos
  · rw [h.put]
    split
    · exact .inr rfl
    · exact .inl rfl
  · rw [h.count fd, if_pos ⟨ho, .inl ((h.zombie hz).1 fd)⟩]
  · rw [h.put, if_pos (.inl (h.zombie hz).2)]

theorem ReleasedOnce.not_twice {ofile : Fin NOFILE → Option Nat} {cwd : Nat} {m : Teardown}
    (h : ReleasedOnce ofile cwd m) : ¬ Twice m := by
  intro ht
  rcases ht with ⟨fd, hfd⟩ | ht | ht
  · have := h.closed fd
    omega
  · rcases h.put with hp | hp <;> simp [hp] at ht
  · rcases h.put with hp | hp <;> simp [hp] at ht

section Steps

variable {ofile : Fin NOFILE → Option Nat} {cwd : Nat} {m : Teardown} {i : ThIdx}

@[simp] theorem Teardown.setPc_pc (m : Teardown) (i : ThIdx) (pc : ExitPc) (j : ThIdx) :
    (m.setPc i pc).pc j = if j = i then pc else m.pc j := rfl

/-- Some thread is at a position with `P` after thread `i` has moved to `pc`, which has
`P` if the old one has. -/
theorem Teardown.exists_setPc {P : ExitPc → Prop} (pc : ExitPc) (hp : P pc ↔ P (m.pc i)) :
    (∃ j, P ((m.setPc i pc).pc j)) ↔ ∃ j, P (m.pc j) := by
  have hj : ∀ j, P ((m.setPc i pc).pc j) ↔ P (m.pc j) := by
    intro j
    rw [Teardown.setPc_pc]
    split
    · rename_i he
      rw [he]
      exact hp
    · exact Iff.rfl
  exact exists_congr hj

/-- Thread `i` moves on without releasing anything. -/
theorem ExitInv.move (h : ExitInv ofile cwd m) {pc : ExitPc}
    (hc : ∀ fd, pc = .closing fd ↔ m.pc i = .closing fd)
    (hp : pc.putting = (m.pc i).putting) (hb : ∀ fd : Fin NOFILE, fd.val < pc.behind → m.ofile fd = none)
    (hl : pc = .locked → m.cwd = none) : ExitInv ofile cwd (m.setPc i pc) := by
  have hclosing : ∀ j fd, (m.setPc i pc).pc j = .closing fd → m.pc j = .closing fd := by
    intro j fd hj
    rw [Teardown.setPc_pc] at hj
    split at hj
    · rename_i he
      rw [he]
      exact (hc fd).mp hj
    · exact hj
  have hputting : ∀ j, ((m.setPc i pc).pc j).putting = true → (m.pc j).putting = true := by
    intro j hj
    rw [Teardown.setPc_pc] at hj
    split at hj
    · rename_i he
      rw [he, ← hp]
      exact hj
    · exact hj
  constructor
  · exact h.slot
  · intro fd
    have hex := Teardown.exists_setPc (m := m) (i := i) (P := (· = .closing fd)) _ (hc fd)
    show m.closes.count fd = _
    rw [h.count fd]
    simp only [hex]
    rfl
  · exact fun j fd hj => h.closing j fd (hclosing j fd hj)
  · exact fun j k fd hj hk => h.one j k fd (hclosing j fd hj) (hclosing k fd hk)
  · intro j fd hj
    rw [Teardown.setPc_pc] at hj
    split at hj
    · exact hb fd hj
    · exact h.behind j fd hj
  · exact h.dir
  · have hex := Teardown.exists_setPc (m := m) (i := i) (P := fun k => k.putting = true)
      pc (by rw [hp])
    show m.iputs = _
    rw [h.put]
    simp only [hex]
    rfl
  · exact fun j hj => h.putting j (hputting j hj)
  · exact fun j k hj hk => h.onePut j k (hputting j hj) (hputting k hk)
  · intro j hj
    rw [Teardown.setPc_pc] at hj
    split at hj
    · exact hl hj
    · exact h.cleared j hj
  · exact h.zombie

/-- `fileclose` is called on a slot that nobody is closing. -/
theorem ExitInv.callClose (h : ExitInv ofile cwd m) {fd : Fin NOFILE} (hpc : m.pc i = .loop fd)
    (ho : m.ofile fd ≠ none) (ha : ∀ j, m.pc j ≠ .closing fd) :
    ExitInv ofile cwd { m.setPc i (.closing fd) with closes := fd :: m.closes } := by
  have hof : ofile fd ≠ none := by
    rcases h.slot fd with hs | hs
    · exact absurd hs ho
    · exact hs ▸ ho
  have hclosing : ∀ j k, (m.setPc i (.closing fd)).pc j = .closing k →
      j = i ∧ k = fd ∨ j ≠ i ∧ k ≠ fd ∧ m.pc j = .closing k := by
    intro j k hj
    rw [Teardown.setPc_pc] at hj
    split at hj
    · rename_i he
      cases hj
      exact .inl ⟨he, rfl⟩
    · rename_i he
      exact .inr ⟨he, fun hk => ha j (hk ▸ hj), hj⟩
  have hputting : ∀ j, ((m.setPc i (.closing fd)).pc j).putting = true → (m.pc j).putting = true := by
    intro j hj
    rw [Teardown.setPc_pc] at hj
    split at hj
    · cases hj
    · exact hj
  constructor
  · exact h.slot
  · intro k
    by_cases hk : k = fd
    · subst hk
      have h0 : m.closes.count k = 0 := by
        rw [h.count k, if_neg]
        rintro ⟨-, hn | ⟨j, hj⟩⟩
        · exact ho hn
        · exact ha j hj
      have hex : ∃ j, (m.setPc i (.closing k)).pc j = .closing k := ⟨i, by simp⟩
      show (k :: m.closes).count k = _
      rw [List.count_cons_self, h0, if_pos ⟨hof, .inr hex⟩]
    · have hex : (∃ j, (m.setPc i (.closing fd)).pc j = .closing k) ↔ ∃ j, m.pc j = .closing k := by
        constructor
        · rintro ⟨j, hj⟩
          rcases hclosing j k hj with ⟨-, he⟩ | ⟨-, -, hj⟩
          · exact absurd he hk
          · exact ⟨j, hj⟩
        · rintro ⟨j, hj⟩
          have hji : j ≠ i := by
            rintro rfl
            rw [hpc] at hj
            cases hj
          exact ⟨j, by simpa [hji] using hj⟩
      show (fd :: m.closes).count k = _
      rw [List.count_cons_of_ne (Ne.symm hk), h.count k]
      simp only [hex]
      rfl
  · intro j k hj
    rcases hclosing j k hj with ⟨-, rfl⟩ | ⟨-, -, hj⟩
    · exact ho
    · exact h.closing j k hj
  · intro j l k hj hl
    rcases hclosing j k hj with ⟨h1, h2⟩ | ⟨-, h2, hj⟩ <;>
      rcases hclosing l k hl with ⟨h3, h4⟩ | ⟨-, h4, hl⟩
    · exact h1.trans h3.symm
    · exact absurd h2 h4
    · exact absurd h4 h2
    · exact h.one j l k hj hl
  · intro j k hj
    rw [show ({ m.setPc i (.closing fd) with closes := fd :: m.closes } : Teardown).pc j =
      (m.setPc i (.closing fd)).pc j from rfl, Teardown.setPc_pc] at hj
    split at hj
    · exact h.behind i k (by rw [hpc]; exact hj)
    · exact h.behind j k hj
  · exact h.dir
  · have hex := Teardown.exists_setPc (m := m) (i := i) (P := fun k => k.putting = true)
      (.closing fd) (by rw [hpc]; simp [ExitPc.putting])
    show m.iputs = _
    rw [h.put]
    simp only [hex]
    rfl
  · exact fun j hj => h.putting j (hputting j hj)
  · exact fun j k hj hk => h.onePut j k (hputting j hj) (hputting k hk)
  · intro j hj
    rw [show ({ m.setPc i (.closing fd) with closes := fd :: m.closes } : Teardown).pc j =
      (m.setPc i (.closing fd)).pc j from rfl, Teardown.setPc_pc] at hj
    split at hj
    · cases hj
    · exact h.cleared j hj
  · exact h.zombie

/-- `fileclose` has returned and the slot is cleared. -/
theorem ExitInv.clearSlot (h : ExitInv ofile cwd m) {fd : Fin NOFILE} (hpc : m.pc i = .closing fd) :
    ExitInv ofile cwd { m.setPc i (.loop (fd + 1)) with
      ofile := fun k => if k = fd then none else m.ofile k } := by
  have hclosing : ∀ j k, (m.setPc i (.loop (fd + 1))).pc j = .closing k →
      j ≠ i ∧ k ≠ fd ∧ m.pc j = .closing k := by
    intro j k hj
    rw [Teardown.setPc_pc] at hj
    split at hj
    · cases hj
    · rename_i he
      exact ⟨he, fun hk => he (h.one j i fd (hk ▸ hj) hpc), hj⟩
  have hputting : ∀ j, ((m.setPc i (.loop (fd + 1))).pc j).putting = true →
      (m.pc j).putting = true := by
    intro j hj
    rw [Teardown.setPc_pc] at hj
    split at hj
    · cases hj
    · exact hj
  constructor
  · intro k
    show (if k = fd then none else m.ofile k) = none ∨ (if k = fd then none else m.ofile k) = ofile k
    split
    · exact .inl rfl
    · exact h.slot k
  · intro k
    by_cases hk : k = fd
    · subst hk
      show m.closes.count k = _
      rw [h.count k]
      have hex : ∃ j, m.pc j = .closing k := ⟨i, hpc⟩
      simp [hex]
    · have hex : (∃ j, (m.setPc i (.loop (fd + 1))).pc j = .closing k) ↔ ∃ j, m.pc j = .closing k := by
        constructor
        · rintro ⟨j, hj⟩
          exact ⟨j, (hclosing j k hj).2.2⟩
        · rintro ⟨j, hj⟩
          have hji : j ≠ i := by
            rintro rfl
            rw [hpc] at hj
            cases hj
            exact hk rfl
          exact ⟨j, by simpa [hji] using hj⟩
      show m.closes.count k = _
      rw [h.count k]
      simp only [hk, if_false, hex]
  · intro j k hj
    obtain ⟨-, hk, hj⟩ := hclosing j k hj
    show (if k = fd then none else m.ofile k) ≠ none
    rw [if_neg hk]
    exact h.closing j k hj
  · exact fun j l k hj hl => h.one j l k (hclosing j k hj).2.2 (hclosing l k hl).2.2
  · intro j k hj
    show (if k = fd then none else m.ofile k) = none
    split
    · rfl
    · rename_i hk
      by_cases hji : j = i
      · -- the slots before `fd` were empty already
        subst hji
        refine h.behind j k ?_
        have hlt : k.val < fd.val + 1 := by simpa [ExitPc.behind] using hj
        have hne : k.val ≠ fd.val := fun he => hk (Fin.ext he)
        rw [hpc]
        show k.val < fd.val
        omega
      · refine h.behind j k ?_
        simpa [hji] using hj
  · exact h.dir
  · have hex := Teardown.exists_setPc (m := m) (i := i) (P := fun k => k.putting = true)
      (.loop (fd + 1)) (by rw [hpc]; simp [ExitPc.putting])
    show m.iputs = _
    rw [h.put]
    simp only [hex]
    rfl
  · exact fun j hj => h.putting j (hputting j hj)
  · exact fun j k hj hk => h.onePut j k (hputting j hj) (hputting k hk)
  · intro j hj
    by_cases hji : j = i
    · simp [hji] at hj
    · exact h.cleared j (by simpa [hji] using hj)
  · intro hz
    refine ⟨fun k => ?_, (h.zombie hz).2⟩
    show (if k = fd then none else m.ofile k) = none
    split
    · rfl
    · exact (h.zombie hz).1 k

/-- `iput` is called by the first thread that gets there. -/
theorem ExitInv.callIput (h : ExitInv ofile cwd m) (hpc : m.pc i = .iput) (hcwd : m.cwd ≠ none)
    (ha : ∀ j, m.pc j ≠ .inIput ∧ m.pc j ≠ .endOp) :
    ExitInv ofile cwd { m.setPc i .inIput with iputs := m.cwd :: m.iputs } := by
  have hnone : ∀ j, (m.pc j).putting = false := by
    intro j
    obtain ⟨h1, h2⟩ := ha j
    cases hj : m.pc j <;> simp_all [ExitPc.putting]
  have hdir : m.cwd = some cwd := h.dir.resolve_left hcwd
  have hputting : ∀ j, ((m.setPc i .inIput).pc j).putting = true → j = i := by
    intro j hj
    rw [Teardown.setPc_pc] at hj
    split at hj
    · assumption
    · simp [hnone j] at hj
  have hclosing : ∀ j fd, (m.setPc i .inIput).pc j = .closing fd → m.pc j = .closing fd := by
    intro j fd hj
    rw [Teardown.setPc_pc] at hj
    split at hj
    · cases hj
    · exact hj
  constructor
  · exact h.slot
  · intro fd
    have hex := Teardown.exists_setPc (m := m) (i := i) (P := (· = .closing fd))
      .inIput (by rw [hpc]; simp)
    show m.closes.count fd = _
    rw [h.count fd]
    simp only [hex]
    rfl
  · exact fun j fd hj => h.closing j fd (hclosing j fd hj)
  · exact fun j k fd hj hk => h.one j k fd (hclosing j fd hj) (hclosing k fd hk)
  · intro j fd hj
    by_cases hji : j = i
    · refine h.behind i fd ?_
      rw [hpc]
      simp [ExitPc.behind]
    · exact h.behind j fd (by simpa [hji] using hj)
  · exact h.dir
  · have hempty : m.iputs = [] := by
      rw [h.put, if_neg]
      rintro (hn | ⟨j, hj⟩)
      · exact hcwd hn
      · simp [hnone j] at hj
    have hex : ∃ j, ((m.setPc i .inIput).pc j).putting = true := ⟨i, by simp [ExitPc.putting]⟩
    show m.cwd :: m.iputs = _
    rw [hempty, hdir, if_pos (.inr hex)]
  · exact fun _ _ => hcwd
  · exact fun j k hj hk => (hputting j hj).trans (hputting k hk).symm
  · intro j hj
    by_cases hji : j = i
    · simp [hji] at hj
    · exact h.cleared j (by simpa [hji] using hj)
  · exact h.zombie

/-- `end_op` has returned and `cwd` is cleared. -/
theorem ExitInv.clearCwd (h : ExitInv ofile cwd m) (hpc : m.pc i = .endOp) :
    ExitInv ofile cwd { m.setPc i .locked with cwd := none } := by
  have hput : (m.pc i).putting = true := by rw [hpc]; rfl
  have hputting : ∀ j, ((m.setPc i .locked).pc j).putting = true → False := by
    intro j hj
    rw [Teardown.setPc_pc] at hj
    split at hj
    · cases hj
    · rename_i hji
      exact hji (h.onePut j i hj hput)
  have hclosing : ∀ j fd, (m.setPc i .locked).pc j = .closing fd → m.pc j = .closing fd := by
    intro j fd hj
    rw [Teardown.setPc_pc] at hj
    split at hj
    · cases hj
    · exact hj
  constructor
  · exact h.slot
  · intro fd
    have hex := Teardown.exists_setPc (m := m) (i := i) (P := (· = .closing fd))
      .locked (by rw [hpc]; simp)
    show m.closes.count fd = _
    rw [h.count fd]
    simp only [hex]
    rfl
  · exact fun j fd hj => h.closing j fd (hclosing j fd hj)
  · exact fun j k fd hj hk => h.one j k fd (hclosing j fd hj) (hclosing k fd hk)
  · intro j fd hj
    by_cases hji : j = i
    · refine h.behind i fd ?_
      rw [hpc]
      simp [ExitPc.behind]
    · exact h.behind j fd (by simpa [hji] using hj)
  · exact .inl rfl
  · show m.iputs = _
    rw [h.put, if_pos (.inr ⟨i, hput⟩), if_pos (.inl rfl)]
  · exact fun j hj => (hputting j hj).elim
  · exact fun j k hj => (hputting j hj).elim
  · exact fun _ _ => rfl
  · exact fun hz => ⟨(h.zombie hz).1, rfl⟩

theorem ExitInv.step (h : ExitInv ofile cwd m) (ha : Alone m i) {m' : Teardown}
    (hs : exitStep m i = some m') : ExitInv ofile cwd m' := by
  unfold exitStep at hs
  split_ifs at hs
  cases hs
  cases hpc : m.pc i with
  | out =>
    simp only [Teardown.next, hpc]
    exact h.move (by simp [hpc]) (by simp [hpc, ExitPc.putting]) (by simp [ExitPc.behind]) (by simp)
  | loop fd =>
    simp only [Alone, hpc] at ha
    simp only [Teardown.next, hpc]
    split
    · rename_i hlt
      split
      · rename_i ho
        refine h.move (by simp [hpc]) (by simp [hpc, ExitPc.putting]) (fun k hk => ?_) (by simp)
        by_cases he : k.val = fd
        · rw [show k = ⟨fd, hlt⟩ from Fin.ext he]
          exact ho
        · refine h.behind i k ?_
          rw [hpc]
          have hk' : k.val < fd + 1 := hk
          show k.val < fd
          omega
      · rename_i ho
        have hpc' : m.pc i = .loop (⟨fd, hlt⟩ : Fin NOFILE) := hpc
        exact h.callClose hpc' ho (fun j hj => ha j _ hj rfl)
    · rename_i hge
      refine h.move (by simp [hpc]) (by simp [hpc, ExitPc.putting]) (fun k hk => ?_) (by simp)
      refine h.behind i k ?_
      rw [hpc]
      show k.val < fd
      have hlt : k.val < NOFILE := k.isLt
      omega
  | closing fd =>
    simp only [Teardown.next, hpc]
    exact h.clearSlot hpc
  | beginOp =>
    simp only [Teardown.next, hpc]
    refine h.move (by simp [hpc]) (by simp [hpc, ExitPc.putting]) (fun k hk => ?_) (by simp)
    exact h.behind i k (by rw [hpc]; exact hk)
  | iput =>
    simp only [Alone, hpc] at ha
    simp only [Teardown.next, hpc]
    exact h.callIput hpc ha.1 ha.2
  | inIput =>
    simp only [Teardown.next, hpc]
    refine h.move (by simp [hpc]) (by simp [hpc, ExitPc.putting]) (fun k hk => ?_) (by simp)
    exact h.behind i k (by rw [hpc]; exact hk)
  | endOp =>
    simp only [Teardown.next, hpc]
    exact h.clearCwd hpc
  | locked =>
    simp only [Teardown.next, hpc]
    refine ⟨h.slot, h.count, h.closing, h.one, h.behind, h.dir, h.put, h.putting, h.onePut,
      h.cleared, fun _ => ⟨fun fd => ?_, h.cleared i hpc⟩⟩
    exact h.behind i fd (by rw [hpc]; exact fd.isLt)

/-- A step that is not `Alone` releases something a second time, or calls `iput` with a
null pointer. -/
theorem ExitInv.twice (h : ExitInv ofile cwd m) (ha : ¬ Alone m i) {m' : Teardown}
    (hs : exitStep m i = some m') : Twice m' := by
  unfold exitStep at hs
  split_ifs at hs
  cases hs
  cases hpc : m.pc i with
  | loop fd =>
    simp only [Alone, hpc] at ha
    push Not at ha
    obtain ⟨j, k, hj, rfl⟩ := ha
    have ho := h.closing j k hj
    have hof : ofile k ≠ none := by
      rcases h.slot k with hk | hk
      · exact absurd hk ho
      · exact hk ▸ ho
    have hone : m.closes.count k = 1 := by rw [h.count k, if_pos ⟨hof, .inr ⟨j, hj⟩⟩]
    simp only [Teardown.next, hpc, k.isLt, dif_pos, Fin.eta, if_neg ho]
    refine .inl ⟨k, ?_⟩
    show 2 ≤ (k :: m.closes).count k
    rw [List.count_cons_self, hone]
  | iput =>
    simp only [Alone, hpc] at ha
    simp only [Teardown.next, hpc]
    by_cases hn : m.cwd = none
    · exact .inr (.inl (by simp [hn]))
    · have hex : ∃ j, (m.pc j).putting = true := by
        by_contra hno
        push Not at hno
        refine ha ⟨hn, fun j => ⟨fun hj => ?_, fun hj => ?_⟩⟩
        · exact hno j (by rw [hj]; rfl)
        · exact hno j (by rw [hj]; rfl)
      refine .inr (.inr ?_)
      show 2 ≤ (m.cwd :: m.iputs).length
      rw [h.put, if_pos (.inr hex)]
      simp
  | _ => simp [Alone, hpc] at ha

/-- What has been recorded stays recorded. -/
theorem Twice.step {m' : Teardown} (h : Twice m) (hs : exitStep m i = some m') : Twice m' := by
  unfold exitStep at hs
  split_ifs at hs
  cases hs
  have hc : ∀ fd, m.closes.count fd ≤ (m.next i).closes.count fd := by
    intro fd
    unfold Teardown.next
    split
    all_goals first | exact Nat.le_refl _ | skip
    split
    · split
      · exact Nat.le_refl _
      · exact List.count_le_count_cons
    · exact Nat.le_refl _
  have hp : m.iputs.Sublist (m.next i).iputs := by
    unfold Teardown.next
    split
    all_goals first | exact List.Sublist.refl _ | exact List.sublist_cons_self _ _ | skip
    split
    · split <;> exact List.Sublist.refl _
    · exact List.Sublist.refl _
  rcases h with ⟨fd, hfd⟩ | h | h
  · exact .inl ⟨fd, hfd.trans (hc fd)⟩
  · exact .inr (.inl (hp.subset h))
  · exact .inr (.inr (h.trans hp.length_le))

theorem ExitInv.init (ofile : Fin NOFILE → Option Nat) (cwd : Nat) :
    ExitInv ofile cwd (beforeExit ofile cwd) := by
  constructor <;> simp [beforeExit, ExitPc.putting, ExitPc.behind]

end Steps

/-! ## Whole runs -/

/-- However the threads of a process that call `exit` interleave: each open file is
closed once and the working directory is released once exactly when no thread looks
at a slot that another one is closing and none calls `iput` behind another one. -/
theorem exit_releases_once (ofile : Fin NOFILE → Option Nat) (cwd : Nat) (as : List ThIdx)
    (m : Teardown) (hr : Lib.run exitStep (beforeExit ofile cwd) as = some m) :
    ReleasedOnce ofile cwd m ↔ Lib.Meets exitStep Alone (beforeExit ofile cwd) as := by
  have hstep : ∀ s i s', ExitInv ofile cwd s → Alone s i → exitStep s i = some s' →
      ExitInv ofile cwd s' := fun _ _ _ h ha hs => h.step ha hs
  constructor
  · intro h
    exact Lib.meets_of_unmarked hstep (fun _ _ _ h ha hs => h.twice ha hs)
      (fun _ _ _ h hs => h.step hs) as _ m (ExitInv.init ofile cwd) hr h.not_twice
  · intro hm
    exact (Lib.run_inv hstep as _ m (ExitInv.init ofile cwd) hm hr).releasedOnce

/-- A process with the file 5 in slot 0 and no other. -/
def oneFile : Fin NOFILE → Option Nat := fun fd => if fd = 0 then some 5 else none

/-- One thread executes `exit` to its end. -/
def exitAlone : List ThIdx := List.replicate 24 0

theorem exit_releases_once_exitAlone : ∃ m,
    Lib.run exitStep (beforeExit oneFile 1) exitAlone = some m ∧ m.zombie = true ∧
      ReleasedOnce oneFile 1 m := by
  have hrun : (Lib.run exitStep (beforeExit oneFile 1) exitAlone).any (fun m => m.zombie = true) := by
    decide +kernel
  obtain ⟨m, hr, hm⟩ := (Option.any_eq_true _ _).mp hrun
  exact ⟨m, hr, by simpa using hm,
    (exit_releases_once oneFile 1 exitAlone m hr).mpr (by decide +kernel)⟩

/-- Thread 0 sleeps in the `fileclose` of slot 0 when thread 1 calls `exit`, and thread
1 finds the slot still in use. -/
theorem exit_closes_twice : ∃ m, Lib.run exitStep (beforeExit oneFile 1) [0, 0, 1, 1] = some m ∧
    m.closes = [0, 0] ∧ ¬ ReleasedOnce oneFile 1 m := by
  have hrun : (Lib.run exitStep (beforeExit oneFile 1) [0, 0, 1, 1]).any
      (fun m => m.closes = [0, 0]) := by
    decide +kernel
  obtain ⟨m, hr, hm⟩ := (Option.any_eq_true _ _).mp hrun
  have hm : m.closes = [0, 0] := by simpa using hm
  refine ⟨m, hr, hm, fun h => ?_⟩
  have h0 := h.closed 0
  rw [hm] at h0
  simp at h0

end Xv6.Lwp
