import Xv6.Lib.Ring
import Xv6.Lib.Run

/- Pipes (`pipe.c`, the same file in the three kernels), for any number of processes
   that read and write one pipe.

   What a process does between taking `p->lock` and giving it back, by a return or in
   `sleep`, is one step. The bytes live in a ring of 512 slots with two counters that
   wrap around. `sent` and `received` record, for the proofs, the bytes that were stored
   and the bytes that were copied out; no step reads them. `kill` takes another lock, so on
   another CPU it can come between a test of `killed` and the `sleep` behind it.

   What is proved: the bytes come out as they went in, none lost and none twice, and
   a read gets nothing only when the write end is closed and the pipe is drained
   (`pipe_fifo`); and nobody sleeps beside bytes he could read or room he could write to,
   in exactly the runs in which no killed process writes more than the pipe has room for
   while a reader is asleep (`nobody_forgotten_iff`). Such a write returns -1 and leaves
   its bytes in the pipe without a `wakeup`. -/
namespace Xv6.Ipc

open Lib.Ring (Holds slot)

abbrev PIPESIZE : Nat := 512

/-- `struct pipe`, without its lock. -/
structure Pipe where
  data : Fin PIPESIZE → UInt8
  nread : UInt32
  nwrite : UInt32
  readopen : Bool
  writeopen : Bool

/-- How a section of `pipewrite` under the lock ends: `rest` is still to be written. -/
inductive WriteEnd where
  | done
  | failed
  | sleeps (rest : List UInt8)
  deriving DecidableEq, Repr

/-- `p->data[p->nwrite++ % PIPESIZE] = b`. -/
def Pipe.put (p : Pipe) (b : UInt8) : Pipe :=
  { p with data := Function.update p.data (slot PIPESIZE p.nwrite) b, nwrite := p.nwrite + 1 }

/-- The loop of `pipewrite`, for the bytes from `addr + i` on. -/
def pipewrite (killed : Bool) : Pipe → List UInt8 → Pipe × WriteEnd
  | p, [] => (p, .done)
  | p, b :: bs =>
    if p.nwrite = p.nread + UInt32.ofNat PIPESIZE then
      if p.readopen = false ∨ killed = true then (p, .failed) else (p, .sleeps (b :: bs))
    else pipewrite killed (p.put b) bs

inductive ReadEnd where
  | done (bytes : List UInt8)
  | failed
  | sleeps
  deriving DecidableEq, Repr

/-- The second loop of `piperead`. -/
def copyLoop : Nat → Pipe → Pipe × List UInt8
  | 0, p => (p, [])
  | n + 1, p =>
    if p.nread = p.nwrite then (p, [])
    else
      let (p', bs) := copyLoop n { p with nread := p.nread + 1 }
      (p', p.data (slot PIPESIZE p.nread) :: bs)

def piperead (killed : Bool) (p : Pipe) (n : Nat) : Pipe × ReadEnd :=
  if p.nread = p.nwrite ∧ p.writeopen = true then
    if killed = true then (p, .failed) else (p, .sleeps)
  else
    let (p', bs) := copyLoop n p
    (p', .done bs)

/-! ## The processes at a pipe -/

/-- A call that is in progress: `pipewrite` of `n` bytes with `rest` left, or `piperead`
of `n` bytes. -/
inductive Call where
  | write (rest : List UInt8) (n : Nat)
  | read (n : Nat)
  deriving DecidableEq, Repr

def Call.isRead : Call → Bool
  | .write _ _ => false
  | .read _ => true

/-- One pipe and the processes at it. A process sleeps on `&p->nread` in a `read` and on
`&p->nwrite` in a `write`. `ret` is what its last call returned, and `freed` says that the
page was given to `kfree`. -/
structure Plumbing (P : Type) where
  pipe : Pipe
  call : P → Option Call
  asleep : P → Bool
  killed : P → Bool
  ret : P → Int
  freed : Bool
  sent : List UInt8
  received : List UInt8

/-- A `late` kill finds `p` between its test of `killed` and its `sleep`, which comes first
here: `p` is asleep and stays so. -/
inductive PipeAct (P : Type) where
  | write (p : P) (bytes : List UInt8)
  | read (p : P) (n : Nat)
  | resume (p : P)
  | kill (p : P) (late : Bool)
  | close (writable : Bool)

namespace Plumbing

variable {P : Type} [DecidableEq P]

/-- After `pipealloc`. -/
def boot (data : Fin PIPESIZE → UInt8) : Plumbing P where
  pipe := { data := data, nread := 0, nwrite := 0, readopen := true, writeopen := true }
  call := fun _ => none
  asleep := fun _ => false
  killed := fun _ => false
  ret := fun _ => 0
  freed := false
  sent := []
  received := []

/-- `wakeup(&p->nread)`, or `wakeup(&p->nwrite)`. -/
def wakeup (s : Plumbing P) (readers : Bool) : P → Bool := fun q =>
  s.asleep q && (s.call q).map Call.isRead != some readers

/-- A section of `pipewrite` with `bs` left of the `n` bytes. -/
def writeSection (s : Plumbing P) (p : P) (bs : List UInt8) (n : Nat) : Plumbing P :=
  let (pipe, e) := pipewrite (s.killed p) s.pipe bs
  let s' := { s with pipe := pipe, sent := s.sent ++ bs.take (pipe.nwrite - s.pipe.nwrite).toNat }
  match e with
  | .done =>
    { s' with call := Function.update s.call p none, asleep := s.wakeup true,
              ret := Function.update s.ret p n }
  | .failed =>
    { s' with call := Function.update s.call p none, ret := Function.update s.ret p (-1) }
  | .sleeps rest =>
    { s' with call := Function.update s.call p (some (.write rest n)),
              asleep := Function.update (s.wakeup true) p true }

/-- A section of `piperead`. -/
def readSection (s : Plumbing P) (p : P) (n : Nat) : Plumbing P :=
  match piperead (s.killed p) s.pipe n with
  | (pipe, .done bs) =>
    { s with pipe := pipe, call := Function.update s.call p none, asleep := s.wakeup false,
             ret := Function.update s.ret p bs.length, received := s.received ++ bs }
  | (pipe, .failed) =>
    { s with pipe := pipe, call := Function.update s.call p none, ret := Function.update s.ret p (-1) }
  | (pipe, .sleeps) =>
    { s with pipe := pipe, call := Function.update s.call p (some (.read n)),
             asleep := Function.update s.asleep p true }

/-- `pipeclose`. -/
def pipeclose (s : Plumbing P) (writable : Bool) : Plumbing P :=
  let pipe := if writable then { s.pipe with writeopen := false } else { s.pipe with readopen := false }
  { s with pipe := pipe, asleep := s.wakeup writable,
           freed := s.freed || !pipe.readopen && !pipe.writeopen }

end Plumbing

section Machine

variable {P : Type} [DecidableEq P]

/-- A process enters one call at a time, and goes on with it when it is awake. -/
def pipeStep (s : Plumbing P) : PipeAct P → Option (Plumbing P)
  | .write p bs => if s.call p = none then some (s.writeSection p bs bs.length) else none
  | .read p n => if s.call p = none then some (s.readSection p n) else none
  | .resume p =>
    if s.asleep p = false then
      match s.call p with
      | some (.write rest n) => some (s.writeSection p rest n)
      | some (.read n) => some (s.readSection p n)
      | none => none
    else none
  | .kill p late =>
    some { s with killed := Function.update s.killed p true
                  asleep := if late then s.asleep else Function.update s.asleep p false }
  | .close writable => some (s.pipeclose writable)

/-- `a` is a section of `pipewrite` by `p` with `bs` left. -/
def Writes (s : Plumbing P) (p : P) (bs : List UInt8) : PipeAct P → Prop
  | .write q bytes => q = p ∧ bytes = bs
  | .read _ _ => False
  | .resume q => q = p ∧ ∃ n, s.call p = some (.write bs n)
  | .kill _ _ => False
  | .close _ => False

/-- `a` is a section of `piperead` by `p`. -/
def Reads (s : Plumbing P) (p : P) (n : Nat) : PipeAct P → Prop
  | .write _ _ => False
  | .read q m => q = p ∧ m = n
  | .resume q => q = p ∧ s.call p = some (.read n)
  | .kill _ _ => False
  | .close _ => False

/-- A process in `piperead` is asleep. -/
def ReaderAsleep (s : Plumbing P) : Prop := ∃ q n, s.asleep q = true ∧ s.call q = some (.read n)

/-- Who sleeps in `piperead` has nothing to read, and who sleeps in `pipewrite` has no
room; the other end is open. -/
structure NobodyForgotten (s : Plumbing P) : Prop where
  reader : ∀ q n, s.asleep q = true → s.call q = some (.read n) →
    s.pipe.nread = s.pipe.nwrite ∧ s.pipe.writeopen = true
  writer : ∀ q rest n, s.asleep q = true → s.call q = some (.write rest n) →
    s.pipe.nwrite = s.pipe.nread + UInt32.ofNat PIPESIZE ∧ s.pipe.readopen = true

/-- While a reader sleeps, nobody whose call will fail at a full pipe writes more than the
pipe has room for. -/
def WritesFit (s : Plumbing P) (a : PipeAct P) : Prop :=
  ∀ p bs, Writes s p bs a → ReaderAsleep s → PIPESIZE < bs.length →
    s.killed p = false ∧ s.pipe.readopen = true

/-- The bytes in the pipe, oldest first: the slots between the counters hold them. -/
def Pipe.Contains (p : Pipe) (l : List UInt8) : Prop := Holds p.data p.nread p.nwrite l

/-- The bytes in the pipe are those that were sent and not received, in order. A write adds
as many of its bytes as there is room for. A read that is not refused takes the oldest ones,
and none only when it asked for none or when the pipe is drained and its write end closed. -/
def InOrder (t : Plumbing P) : Prop :=
  ∃ l, t.pipe.Contains l ∧ t.sent = t.received ++ l ∧ l.length ≤ PIPESIZE ∧
    l.length = (t.pipe.nwrite - t.pipe.nread).toNat ∧
    ∀ (a : PipeAct P) (u : Plumbing P), pipeStep t a = some u →
      (∀ p bs, Writes t p bs a → u.sent = t.sent ++ bs.take (PIPESIZE - l.length) ∧
        u.received = t.received) ∧
      ∀ p n, Reads t p n a → u.call p = none → 0 ≤ u.ret p →
        u.sent = t.sent ∧ u.received = t.received ++ l.take n ∧ u.ret p = (l.take n).length ∧
        (u.ret p = 0 → n = 0 ∨ l = [] ∧ t.pipe.writeopen = false)

/-- What `file.c` promises: an end is closed once, when it is open and nobody is in a call
on it, and a call on an end starts while it is open. -/
def Referenced (s : Plumbing P) : PipeAct P → Prop
  | .write _ _ => s.pipe.writeopen = true
  | .read _ _ => s.pipe.readopen = true
  | .resume _ => True
  | .kill _ _ => True
  | .close true => s.pipe.writeopen = true ∧ ∀ p rest n, s.call p ≠ some (.write rest n)
  | .close false => s.pipe.readopen = true ∧ ∀ p n, s.call p ≠ some (.read n)

/-! ## The two loops -/

variable {p p' : Pipe} {l bs : List UInt8} {killed : Bool}

theorem pipesize_dvd : PIPESIZE ∣ 2 ^ 32 := ⟨2 ^ 23, by decide⟩

theorem Pipe.Contains.empty_iff (h : p.Contains l) : p.nread = p.nwrite ↔ l = [] :=
  Holds.eq_iff h (by decide)

theorem Pipe.Contains.full_iff (h : p.Contains l) :
    p.nwrite = p.nread + UInt32.ofNat PIPESIZE ↔ l.length = PIPESIZE :=
  Holds.full_iff h (by decide)

/-- What a section of `pipewrite` leaves: the pipe takes what it has room for. -/
structure Stored (killed : Bool) (p : Pipe) (l bs : List UInt8) (p' : Pipe) (e : WriteEnd) : Prop where
  contains : p'.Contains (l ++ bs.take (PIPESIZE - l.length))
  nread : p'.nread = p.nread
  nwrite : p'.nwrite = p.nwrite + UInt32.ofNat (min bs.length (PIPESIZE - l.length))
  readopen : p'.readopen = p.readopen
  writeopen : p'.writeopen = p.writeopen
  ends : e = if bs.length ≤ PIPESIZE - l.length then .done
    else if p.readopen = false ∨ killed = true then .failed
    else .sleeps (bs.drop (PIPESIZE - l.length))

theorem Stored.stay (h : p.Contains l) {e : WriteEnd} (hk : bs.take (PIPESIZE - l.length) = [])
    (hz : min bs.length (PIPESIZE - l.length) = 0)
    (he : e = if bs.length ≤ PIPESIZE - l.length then .done
      else if p.readopen = false ∨ killed = true then .failed
      else .sleeps (bs.drop (PIPESIZE - l.length))) : Stored killed p l bs p e := by
  refine ⟨?_, rfl, ?_, rfl, rfl, he⟩
  · rw [hk, List.append_nil]
    exact h
  · rw [hz]
    exact (UInt32.add_zero _).symm

theorem pipewrite_stored : ∀ (bs : List UInt8) (p : Pipe) (l : List UInt8), p.Contains l →
    Stored killed p l bs (pipewrite killed p bs).1 (pipewrite killed p bs).2 := by
  intro bs
  induction bs with
  | nil =>
    intro p l h
    exact Stored.stay h List.take_nil (Nat.zero_min _) (if_pos (Nat.zero_le _)).symm
  | cons b bs ih =>
    intro p l h
    have hroom := h.room
    rw [pipewrite]
    split
    · next hfull =>
      have hlen := h.full_iff.mp hfull
      have hz : PIPESIZE - l.length = 0 := by omega
      have hlong : ¬ (b :: bs).length ≤ PIPESIZE - l.length := by
        rw [hz, List.length_cons]
        omega
      split
      · next hc =>
        refine Stored.stay h (by rw [hz, List.take_zero]) (by rw [hz, Nat.min_zero]) ?_
        rw [if_neg hlong, if_pos hc]
      · next hc =>
        refine Stored.stay h (by rw [hz, List.take_zero]) (by rw [hz, Nat.min_zero]) ?_
        rw [if_neg hlong, if_neg hc, hz, List.drop_zero]
    · next hfull =>
      have hlen : l.length < PIPESIZE := by
        have := mt h.full_iff.mpr hfull
        omega
      have hput : (p.put b).Contains (l ++ [b]) := Holds.push pipesize_dvd h hlen b
      obtain ⟨hcon, hnr, hnw, hro, hwo, hend⟩ := ih (p.put b) (l ++ [b]) hput
      have hk : PIPESIZE - l.length = PIPESIZE - (l ++ [b]).length + 1 := by
        rw [List.length_append, List.length_singleton]
        omega
      refine ⟨?_, hnr, ?_, hro, hwo, ?_⟩
      · rw [hk, List.take_succ_cons, List.append_cons]
        exact hcon
      · rw [hnw, hk, List.length_cons, Nat.succ_min_succ]
        exact Lib.Ring.add_one_add _ _
      · rw [hend, hk]
        simp only [List.length_cons, List.drop_succ_cons, Nat.add_le_add_iff_right]
        rfl

/-- What the second loop of `piperead` leaves. -/
theorem copyLoop_spec : ∀ (n : Nat) (p : Pipe) (l : List UInt8), p.Contains l →
    (copyLoop n p).2 = l.take n ∧ (copyLoop n p).1.Contains (l.drop n) ∧
    (copyLoop n p).1.readopen = p.readopen ∧ (copyLoop n p).1.writeopen = p.writeopen := by
  intro n
  induction n with
  | zero => exact fun p l h => ⟨rfl, h, rfl, rfl⟩
  | succ n ih =>
    intro p l h
    rw [copyLoop]
    cases l with
    | nil =>
      rw [if_pos (h.empty_iff.mpr rfl)]
      exact ⟨rfl, h, rfl, rfl⟩
    | cons b l =>
      rw [if_neg (fun he => List.cons_ne_nil b l (h.empty_iff.mp he))]
      obtain ⟨hb, hrest⟩ := Holds.pop h
      obtain ⟨hbs, hcon, hro, hwo⟩ := ih { p with nread := p.nread + 1 } l hrest
      refine ⟨?_, hcon, hro, hwo⟩
      rw [List.take_succ_cons, ← hbs]
      exact congrArg (· :: _) hb

/-! ## What a step does -/

variable {s s' t u : Plumbing P} {q : P} {a : PipeAct P} {as : List (PipeAct P)} {n : Nat}

/-- A section of `pipewrite` in a pipe that holds `l`. -/
structure Wrote (s : Plumbing P) (p : P) (bs : List UInt8) (n : Nat) (l : List UInt8)
    (s' : Plumbing P) : Prop where
  contains : s'.pipe.Contains (l ++ bs.take (PIPESIZE - l.length))
  sent : s'.sent = s.sent ++ bs.take (PIPESIZE - l.length)
  received : s'.received = s.received
  readopen : s'.pipe.readopen = s.pipe.readopen
  writeopen : s'.pipe.writeopen = s.pipe.writeopen
  killed : s'.killed = s.killed
  freed : s'.freed = s.freed
  ends : (bs.length ≤ PIPESIZE - l.length ∧ s'.call = Function.update s.call p none ∧
      s'.asleep = s.wakeup true ∧ s'.ret = Function.update s.ret p n) ∨
    (PIPESIZE - l.length < bs.length ∧ (s.pipe.readopen = false ∨ s.killed p = true) ∧
      s'.call = Function.update s.call p none ∧ s'.asleep = s.asleep ∧
      s'.ret = Function.update s.ret p (-1)) ∨
    (PIPESIZE - l.length < bs.length ∧ s.pipe.readopen = true ∧ s.killed p = false ∧
      s'.call = Function.update s.call p (some (.write (bs.drop (PIPESIZE - l.length)) n)) ∧
      s'.asleep = Function.update (s.wakeup true) p true ∧ s'.ret = s.ret)

theorem writeSection_wrote (h : s.pipe.Contains l) (p : P) (bs : List UInt8) (n : Nat) :
    Wrote s p bs n l (s.writeSection p bs n) := by
  obtain ⟨hcon, -, hnw, hro, hwo, hend⟩ : Stored (s.killed p) s.pipe l bs _ _ :=
    pipewrite_stored bs s.pipe l h
  have hroom := h.room
  have hcount : ((pipewrite (s.killed p) s.pipe bs).1.nwrite - s.pipe.nwrite).toNat =
      min bs.length (PIPESIZE - l.length) := by
    have hsize : PIPESIZE = 512 := rfl
    rw [hnw, UInt32.add_comm, UInt32.add_sub_cancel, UInt32.toNat_ofNat']
    apply Nat.mod_eq_of_lt
    omega
  have htake : bs.take (min bs.length (PIPESIZE - l.length)) = bs.take (PIPESIZE - l.length) := by
    rw [List.take_eq_take_iff]
    omega
  unfold Plumbing.writeSection
  generalize pipewrite (s.killed p) s.pipe bs = r at hcon hro hwo hend hcount
  obtain ⟨pipe, e⟩ := r
  simp only at hcon hro hwo hend hcount ⊢
  rw [hcount, htake]
  split at hend
  · next hle =>
    subst hend
    exact ⟨hcon, rfl, rfl, hro, hwo, rfl, rfl, .inl ⟨hle, rfl, rfl, rfl⟩⟩
  · next hlt =>
    split at hend
    · next hfail =>
      subst hend
      exact ⟨hcon, rfl, rfl, hro, hwo, rfl, rfl, .inr (.inl ⟨by omega, hfail, rfl, rfl, rfl⟩)⟩
    · next hfail =>
      subst hend
      have hro' : s.pipe.readopen = true := by
        apply Bool.eq_true_of_not_eq_false
        exact fun hf => hfail (.inl hf)
      have hk' : s.killed p = false := by
        apply Bool.eq_false_of_not_eq_true
        exact fun hk => hfail (.inr hk)
      exact ⟨hcon, rfl, rfl, hro, hwo, rfl, rfl, .inr (.inr ⟨by omega, hro', hk', rfl, rfl, rfl⟩)⟩

/-- A section of `piperead` in a pipe that holds `l`. -/
structure Got (s : Plumbing P) (p : P) (n : Nat) (l : List UInt8) (s' : Plumbing P) : Prop where
  readopen : s'.pipe.readopen = s.pipe.readopen
  writeopen : s'.pipe.writeopen = s.pipe.writeopen
  killed : s'.killed = s.killed
  freed : s'.freed = s.freed
  sent : s'.sent = s.sent
  ends : ((l ≠ [] ∨ s.pipe.writeopen = false) ∧ s'.pipe.Contains (l.drop n) ∧
      s'.received = s.received ++ l.take n ∧ s'.call = Function.update s.call p none ∧
      s'.asleep = s.wakeup false ∧ s'.ret = Function.update s.ret p ((l.take n).length : Nat)) ∨
    (l = [] ∧ s.pipe.writeopen = true ∧ s'.pipe = s.pipe ∧ s'.received = s.received ∧
      (s.killed p = true ∧ s'.call = Function.update s.call p none ∧ s'.asleep = s.asleep ∧
          s'.ret = Function.update s.ret p (-1) ∨
        s.killed p = false ∧ s'.call = Function.update s.call p (some (.read n)) ∧
          s'.asleep = Function.update s.asleep p true ∧ s'.ret = s.ret))

theorem readSection_got (h : s.pipe.Contains l) (p : P) (n : Nat) :
    Got s p n l (s.readSection p n) := by
  unfold Plumbing.readSection piperead
  split
  · next pipe bs heq =>
    split at heq
    · split at heq <;> cases heq
    · next hne =>
      obtain ⟨hbs, hcon, hro, hwo⟩ := copyLoop_spec n s.pipe l h
      simp only [Prod.mk.injEq, ReadEnd.done.injEq] at heq
      obtain ⟨rfl, rfl⟩ := heq
      refine ⟨hro, hwo, rfl, rfl, rfl, .inl ⟨?_, hcon, ?_, rfl, rfl, ?_⟩⟩
      · by_contra hc
        rw [not_or, not_not] at hc
        exact hne ⟨h.empty_iff.mpr hc.1, Bool.eq_true_of_not_eq_false hc.2⟩
      · rw [hbs]
      · rw [hbs]
  · next pipe heq =>
    split at heq
    · next he =>
      split at heq
      · next hk =>
        cases heq
        exact ⟨rfl, rfl, rfl, rfl, rfl,
          .inr ⟨h.empty_iff.mp he.1, he.2, rfl, rfl, .inl ⟨hk, rfl, rfl, rfl⟩⟩⟩
      · cases heq
    · cases heq
  · next pipe heq =>
    split at heq
    · next he =>
      split at heq
      · cases heq
      · next hk =>
        cases heq
        refine ⟨rfl, rfl, rfl, rfl, rfl, .inr ⟨h.empty_iff.mp he.1, he.2, rfl, rfl, .inr ?_⟩⟩
        exact ⟨Bool.eq_false_of_not_eq_true hk, rfl, rfl, rfl⟩
    · cases heq

omit [DecidableEq P] in
theorem Writes.inj {bs' : List UInt8} (h : Writes s q bs a) {q' : P} (h' : Writes s q' bs' a) :
    q = q' ∧ bs = bs' := by
  cases a with
  | write => exact ⟨h.1.symm.trans h'.1, h.2.symm.trans h'.2⟩
  | resume =>
    obtain ⟨rfl, m, hm⟩ := h
    obtain ⟨rfl, m', hm'⟩ := h'
    rw [hm] at hm'
    cases hm'
    exact ⟨rfl, rfl⟩
  | read => exact h.elim
  | kill => exact h.elim
  | close => exact h.elim

omit [DecidableEq P] in
theorem Reads.inj {m : Nat} (h : Reads s q n a) {q' : P} (h' : Reads s q' m a) : q = q' ∧ n = m := by
  cases a with
  | read => exact ⟨h.1.symm.trans h'.1, h.2.symm.trans h'.2⟩
  | resume =>
    obtain ⟨rfl, hm⟩ := h
    obtain ⟨rfl, hm'⟩ := h'
    rw [hm] at hm'
    cases hm'
    exact ⟨rfl, rfl⟩
  | write => exact h.elim
  | kill => exact h.elim
  | close => exact h.elim

omit [DecidableEq P] in
theorem Writes.not_reads (h : Writes s q bs a) {q' : P} : ¬ Reads s q' n a := by
  intro h'
  cases a with
  | resume =>
    obtain ⟨rfl, m, hm⟩ := h
    obtain ⟨rfl, hm'⟩ := h'
    rw [hm] at hm'
    cases hm'
  | write => exact h'.elim
  | read => exact h.elim
  | kill => exact h.elim
  | close => exact h.elim

/-- The kinds of steps. A process that runs a section is in no call, or awake. -/
inductive PipeEffect (s : Plumbing P) (a : PipeAct P) (l : List UInt8) (s' : Plumbing P) : Prop
  | write (p : P) (bs : List UInt8) (n : Nat) (hw : Writes s p bs a)
      (ha : s.call p = none ∨ s.asleep p = false) (h : Wrote s p bs n l s')
  | read (p : P) (n : Nat) (hr : Reads s p n a) (ha : s.call p = none ∨ s.asleep p = false)
      (h : Got s p n l s')
  | kill (p : P) (late : Bool) (asleep : P → Bool) (ha : a = .kill p late)
      (hless : ∀ q, asleep q = true → s.asleep q = true)
      (h : s' = { s with killed := Function.update s.killed p true, asleep := asleep })
  | close (writable : Bool) (ha : a = .close writable) (h : s' = s.pipeclose writable)

theorem pipeStep_effect (h : s.pipe.Contains l) (hs : pipeStep s a = some s') :
    PipeEffect s a l s' := by
  cases a with
  | write p bs =>
    obtain ⟨hc, he⟩ := Option.ite_none_right_eq_some.mp hs
    cases he
    exact .write p bs bs.length ⟨rfl, rfl⟩ (.inl hc) (writeSection_wrote h p bs _)
  | read p n =>
    obtain ⟨hc, he⟩ := Option.ite_none_right_eq_some.mp hs
    cases he
    exact .read p n ⟨rfl, rfl⟩ (.inl hc) (readSection_got h p n)
  | resume p =>
    obtain ⟨ha, he⟩ := Option.ite_none_right_eq_some.mp hs
    split at he
    · next rest n hc =>
      cases he
      exact .write p rest n ⟨rfl, n, hc⟩ (.inr ha) (writeSection_wrote h p rest n)
    · next n hc =>
      cases he
      exact .read p n ⟨rfl, hc⟩ (.inr ha) (readSection_got h p n)
    · cases he
  | kill p late =>
    cases hs
    refine .kill p late _ rfl (fun q hq => ?_) rfl
    split at hq
    · exact hq
    · rw [Function.update_apply] at hq
      split at hq
      · cases hq
      · exact hq
  | close writable =>
    cases hs
    exact .close writable rfl rfl

omit [DecidableEq P] in
theorem pipeclose_bytes (writable : Bool) : (s.pipeclose writable).pipe.data = s.pipe.data ∧
    (s.pipeclose writable).pipe.nread = s.pipe.nread ∧
    (s.pipeclose writable).pipe.nwrite = s.pipe.nwrite ∧
    (s.pipeclose writable).sent = s.sent ∧ (s.pipeclose writable).received = s.received := by
  cases writable <;> exact ⟨rfl, rfl, rfl, rfl, rfl⟩

omit [DecidableEq P] in
theorem pipeclose_calls (writable : Bool) : (s.pipeclose writable).call = s.call ∧
    (s.pipeclose writable).asleep = s.wakeup writable ∧
    (s.pipeclose writable).pipe.writeopen = (s.pipe.writeopen && !writable) ∧
    (s.pipeclose writable).pipe.readopen = (s.pipe.readopen && writable) := by
  cases writable <;> simp [Plumbing.pipeclose]

/-! ## The order of the bytes -/

/-- What was sent and is not received yet is in the pipe. -/
structure Carries (s : Plumbing P) (l : List UInt8) : Prop where
  contains : s.pipe.Contains l
  fifo : s.sent = s.received ++ l

theorem Carries.step (h : Carries s l) (hs : pipeStep s a = some s') : ∃ l', Carries s' l' := by
  cases pipeStep_effect h.contains hs with
  | write p bs n _ _ hw =>
    refine ⟨_, hw.contains, ?_⟩
    rw [hw.sent, hw.received, h.fifo, List.append_assoc]
  | read p n _ _ hg =>
    rcases hg.ends with ⟨-, hcon, hrec, -⟩ | ⟨-, -, hpipe, hrec, -⟩
    · refine ⟨_, hcon, ?_⟩
      rw [hg.sent, hrec, h.fifo, List.append_assoc, List.take_append_drop]
    · refine ⟨l, ?_, ?_⟩
      · rw [hpipe]
        exact h.contains
      · rw [hg.sent, hrec]
        exact h.fifo
  | kill p _ _ _ _ he =>
    subst he
    exact ⟨l, h.contains, h.fifo⟩
  | close writable _ he =>
    subst he
    obtain ⟨hd, hr, hw, hsent, hrec⟩ := pipeclose_bytes (s := s) writable
    refine ⟨l, ?_, ?_⟩
    · unfold Pipe.Contains
      rw [hd, hr, hw]
      exact h.contains
    · rw [hsent, hrec]
      exact h.fifo

omit [DecidableEq P] in
theorem boot_carries (data : Fin PIPESIZE → UInt8) : Carries (Plumbing.boot data : Plumbing P) [] :=
  ⟨Holds.nil data 0, rfl⟩

theorem run_carries (data : Fin PIPESIZE → UInt8)
    (hr : Lib.run pipeStep (Plumbing.boot data) as = some t) : ∃ l, Carries t l :=
  Lib.run_inv_all (I := fun s => ∃ l, Carries s l) (fun _ _ _ ⟨_, h⟩ hs => h.step hs)
    ⟨[], boot_carries data⟩ hr

theorem Carries.inOrder (h : Carries t l) : InOrder t := by
  obtain ⟨hcon, hfifo⟩ := h
  refine ⟨l, hcon, hfifo, hcon.room, (Holds.sub_eq hcon (by decide)).symm, fun a u hs => ?_⟩
  cases pipeStep_effect hcon hs with
  | write p bs n hw _ h =>
    refine ⟨fun p' bs' hw' => ?_, fun p' n' hr => absurd hr hw.not_reads⟩
    obtain ⟨-, rfl⟩ := hw.inj hw'
    exact ⟨h.sent, h.received⟩
  | read p n hr _ h =>
    refine ⟨fun p' bs' hw => absurd hr hw.not_reads, fun p' n' hr' hret hpos => ?_⟩
    obtain ⟨rfl, rfl⟩ := hr.inj hr'
    rcases h.ends with ⟨hopen, -, hrec, -, -, hval⟩ | ⟨-, -, -, -, hfail | hsleep⟩
    · have hp : u.ret p = ((l.take n).length : Nat) := by rw [hval, Function.update_self]
      refine ⟨h.sent, hrec, hp, fun hz => ?_⟩
      rw [hp, List.length_take] at hz
      rcases Nat.eq_zero_or_pos n with hn | hn
      · exact .inl hn
      · have hl : l = [] := List.length_eq_zero_iff.mp (by omega)
        rcases hopen with hne | hclosed
        · exact absurd hl hne
        · exact .inr ⟨hl, hclosed⟩
    · obtain ⟨-, -, -, hval⟩ := hfail
      rw [hval, Function.update_self] at hpos
      omega
    · obtain ⟨-, hcall, -, -⟩ := hsleep
      rw [hcall, Function.update_self] at hret
      cases hret
  | kill p _ _ ha _ _ =>
    subst ha
    exact ⟨fun _ _ hw => hw.elim, fun _ _ hr => hr.elim⟩
  | close writable ha _ =>
    subst ha
    exact ⟨fun _ _ hw => hw.elim, fun _ _ hr => hr.elim⟩

/-- In every state of every run the bytes come out as they went in. -/
theorem pipe_fifo (data : Fin PIPESIZE → UInt8) (as : List (PipeAct P)) (t : Plumbing P)
    (hr : Lib.run pipeStep (Plumbing.boot data) as = some t) : InOrder t := by
  obtain ⟨l, hl⟩ := run_carries data hr
  exact hl.inOrder

/-! ## Who sleeps -/

omit [DecidableEq P] in
theorem NobodyForgotten.congr (h : NobodyForgotten s) (hpipe : s'.pipe = s.pipe)
    (hsub : ∀ q c, s'.asleep q = true → s'.call q = some c → s.asleep q = true ∧ s.call q = some c) :
    NobodyForgotten s' := by
  constructor
  · intro q n ha hc
    obtain ⟨ha', hc'⟩ := hsub q _ ha hc
    rw [hpipe]
    exact h.reader q n ha' hc'
  · intro q rest n ha hc
    obtain ⟨ha', hc'⟩ := hsub q _ ha hc
    rw [hpipe]
    exact h.writer q rest n ha' hc'

omit [DecidableEq P] in
theorem asleep_of_wakeup {readers : Bool} {c : Call} (ha : s.wakeup readers q = true)
    (hc : s.call q = some c) : s.asleep q = true ∧ c.isRead ≠ readers := by
  unfold Plumbing.wakeup at ha
  rw [hc] at ha
  simpa using ha

/-- A pipe that was full, or got more bytes than it had room for, is full. -/
theorem Wrote.full {p : P} (hw : Wrote s p bs n l s')
    (h : PIPESIZE ≤ l.length ∨ PIPESIZE - l.length < bs.length) :
    s'.pipe.nwrite = s'.pipe.nread + UInt32.ofNat PIPESIZE := by
  have hroom := hw.contains.room
  apply hw.contains.full_iff.mpr
  rw [List.length_append, List.length_take] at hroom ⊢
  omega

theorem NobodyForgotten.wrote {p : P} (h : NobodyForgotten s) (hcon : s.pipe.Contains l)
    (hw : Wrote s p bs n l s')
    (hfit : ReaderAsleep s → PIPESIZE < bs.length → s.killed p = false ∧ s.pipe.readopen = true) :
    NobodyForgotten s' := by
  -- who sleeps for room does so beside a full pipe, and it still is
  have hkeep : ∀ q rest m, s.asleep q = true → s.call q = some (.write rest m) →
      s'.pipe.nwrite = s'.pipe.nread + UInt32.ofNat PIPESIZE ∧ s'.pipe.readopen = true := by
    intro q rest m ha hc
    obtain ⟨hfull, hopen⟩ := h.writer q rest m ha hc
    refine ⟨hw.full (.inl (hcon.full_iff.mp hfull).ge), ?_⟩
    rw [hw.readopen]
    exact hopen
  have hother : ∀ {q : P} {c x : Option Call}, Function.update s.call p x q = c → q ≠ p →
      s.call q = c := fun hc hne => by rwa [Function.update_of_ne hne] at hc
  rcases hw.ends with ⟨-, hcall, hasleep, -⟩ | ⟨hlong, hfail, hcall, hasleep, -⟩ |
    ⟨hlong, hopen, -, hcall, hasleep, -⟩
  · have hne : ∀ q c, s'.call q = some c → q ≠ p := by
      rintro q c hc rfl
      rw [hcall, Function.update_self] at hc
      cases hc
    refine ⟨fun q m ha hc => ?_, fun q rest m ha hc => ?_⟩
    · have hc' := hother (hcall ▸ hc) (hne q _ hc)
      exact absurd rfl (asleep_of_wakeup (hasleep ▸ ha) hc').2
    · have hc' := hother (hcall ▸ hc) (hne q _ hc)
      exact hkeep q rest m (asleep_of_wakeup (hasleep ▸ ha) hc').1 hc'
  · have hne : ∀ q c, s'.call q = some c → q ≠ p := by
      rintro q c hc rfl
      rw [hcall, Function.update_self] at hc
      cases hc
    refine ⟨fun q m ha hc => ?_, fun q rest m ha hc => ?_⟩
    · -- a reader was asleep beside an empty pipe, so that the call was too long
      have hc' := hother (hcall ▸ hc) (hne q _ hc)
      have ha' : s.asleep q = true := hasleep ▸ ha
      have hl := hcon.empty_iff.mp (h.reader q m ha' hc').1
      rw [hl, List.length_nil, Nat.sub_zero] at hlong
      obtain ⟨hk, ho⟩ := hfit ⟨q, m, ha', hc'⟩ hlong
      rw [hk, ho] at hfail
      simp at hfail
    · have hc' := hother (hcall ▸ hc) (hne q _ hc)
      exact hkeep q rest m (hasleep ▸ ha) hc'
  · have hstay : ∀ q, q ≠ p → s'.asleep q = true → s.wakeup true q = true := by
      intro q hq ha
      rwa [hasleep, Function.update_of_ne hq] at ha
    refine ⟨fun q m ha hc => ?_, fun q rest m ha hc => ?_⟩
    · have hq : q ≠ p := by
        rintro rfl
        rw [hcall, Function.update_self] at hc
        cases hc
      exact absurd rfl (asleep_of_wakeup (hstay q hq ha) (hother (hcall ▸ hc) hq)).2
    · rcases eq_or_ne q p with rfl | hq
      · refine ⟨hw.full (.inr hlong), ?_⟩
        rw [hw.readopen]
        exact hopen
      · have hc' := hother (hcall ▸ hc) hq
        exact hkeep q rest m (asleep_of_wakeup (hstay q hq ha) hc').1 hc'

theorem NobodyForgotten.got {p : P} (h : NobodyForgotten s) (hcon : s.pipe.Contains l)
    (hg : Got s p n l s') : NobodyForgotten s' := by
  have hother : ∀ {q : P} {c x : Option Call}, Function.update s.call p x q = c → q ≠ p →
      s.call q = c := fun hc hne => by rwa [Function.update_of_ne hne] at hc
  rcases hg.ends with ⟨hopen, -, -, hcall, hasleep, -⟩ | ⟨hl, hwo, hpipe, -, hfail | hsleep⟩
  · have hne : ∀ q c, s'.call q = some c → q ≠ p := by
      rintro q c hc rfl
      rw [hcall, Function.update_self] at hc
      cases hc
    refine ⟨fun q m ha hc => ?_, fun q rest m ha hc => ?_⟩
    · -- nobody slept for bytes: there were some, or the write end was closed
      have hc' := hother (hcall ▸ hc) (hne q _ hc)
      obtain ⟨he, hw⟩ := h.reader q m (asleep_of_wakeup (hasleep ▸ ha) hc').1 hc'
      rcases hopen with hl | hclosed
      · exact absurd (hcon.empty_iff.mp he) hl
      · rw [hw] at hclosed
        cases hclosed
    · have hc' := hother (hcall ▸ hc) (hne q _ hc)
      exact absurd rfl (asleep_of_wakeup (hasleep ▸ ha) hc').2
  · obtain ⟨-, hcall, hasleep, -⟩ := hfail
    refine h.congr hpipe (fun q c ha hc => ?_)
    have hq : q ≠ p := by
      rintro rfl
      rw [hcall, Function.update_self] at hc
      cases hc
    exact ⟨hasleep ▸ ha, hother (hcall ▸ hc) hq⟩
  · obtain ⟨-, hcall, hasleep, -⟩ := hsleep
    rw [show s' = { s' with pipe := s.pipe } by rw [← hpipe]]
    refine ⟨fun q m ha hc => ?_, fun q rest m ha hc => ?_⟩
    · rcases eq_or_ne q p with rfl | hq
      · exact ⟨hcon.empty_iff.mpr hl, hwo⟩
      · refine h.reader q m ?_ (hother (hcall ▸ hc) hq)
        rwa [hasleep, Function.update_of_ne hq] at ha
    · have hq : q ≠ p := by
        rintro rfl
        rw [hcall, Function.update_self] at hc
        cases hc
      refine h.writer q rest m ?_ (hother (hcall ▸ hc) hq)
      rwa [hasleep, Function.update_of_ne hq] at ha

omit [DecidableEq P] in
theorem NobodyForgotten.close (h : NobodyForgotten s) (writable : Bool) :
    NobodyForgotten (s.pipeclose writable) := by
  obtain ⟨hcall, hasleep, hwo, hro⟩ := pipeclose_calls (s := s) writable
  obtain ⟨-, hnr, hnw, -⟩ := pipeclose_bytes (s := s) writable
  constructor
  · intro q m ha hc
    rw [hcall] at hc
    obtain ⟨ha', hne⟩ := asleep_of_wakeup (hasleep ▸ ha) hc
    obtain rfl : writable = false := by simpa [Call.isRead] using hne
    rw [hnr, hnw, hwo]
    simpa using h.reader q m ha' hc
  · intro q rest m ha hc
    rw [hcall] at hc
    obtain ⟨ha', hne⟩ := asleep_of_wakeup (hasleep ▸ ha) hc
    obtain rfl : writable = true := by simpa [Call.isRead] using hne
    rw [hnr, hnw, hro]
    simpa using h.writer q rest m ha' hc

theorem NobodyForgotten.step (h : NobodyForgotten s) (hcon : s.pipe.Contains l)
    (hfit : WritesFit s a) (hs : pipeStep s a = some s') : NobodyForgotten s' := by
  cases pipeStep_effect hcon hs with
  | write p bs n hw _ hwrote => exact h.wrote hcon hwrote (hfit p bs hw)
  | read p n _ _ hgot => exact h.got hcon hgot
  | kill p _ _ _ hless he =>
    subst he
    exact h.congr rfl (fun q c ha hc => ⟨hless q ha, hc⟩)
  | close writable _ he =>
    subst he
    exact h.close writable

/-- A write that fails in front of a sleeping reader leaves him beside a full pipe. -/
theorem NobodyForgotten.fits (h : NobodyForgotten s) (hcon : s.pipe.Contains l)
    (hs : pipeStep s a = some s') (h' : NobodyForgotten s') : WritesFit s a := by
  intro p bs hw hasleep hlong
  obtain ⟨q, m, ha, hc⟩ := hasleep
  have hl := hcon.empty_iff.mp (h.reader q m ha hc).1
  cases pipeStep_effect hcon hs with
  | write p' bs' n hw' hp hwrote =>
    obtain ⟨rfl, rfl⟩ := hw'.inj hw
    subst hl
    rcases hwrote.ends with ⟨hle, -⟩ | ⟨-, -, hcall, hsleep, -⟩ | ⟨-, hopen, hk, -⟩
    · rw [List.length_nil, Nat.sub_zero] at hle
      omega
    · have hq : q ≠ p' := by
        rintro rfl
        rcases hp with hp | hp
        · rw [hp] at hc
          cases hc
        · rw [hp] at ha
          cases ha
      have hc' : s'.call q = some (.read m) := by rw [hcall, Function.update_of_ne hq, hc]
      have hempty := hwrote.contains.empty_iff.mp (h'.reader q m (hsleep ▸ ha) hc').1
      have hlen := congrArg List.length hempty
      have hsize : PIPESIZE = 512 := rfl
      rw [List.nil_append, List.length_take, List.length_nil] at hlen
      omega
    · exact ⟨hk, hopen⟩
  | read p' n hr _ _ => exact absurd hr hw.not_reads
  | kill p' _ _ he _ _ =>
    subst he
    exact hw.elim
  | close writable he _ =>
    subst he
    exact hw.elim

/-- In the states of a run nobody sleeps in `piperead` beside bytes or a closed write end,
and nobody in `pipewrite` beside room or a closed read end, exactly when no call of
`pipewrite` fails in front of a sleeping reader with more bytes than fit. -/
theorem nobody_forgotten_iff (data : Fin PIPESIZE → UInt8) (as : List (PipeAct P)) (t : Plumbing P)
    (hr : Lib.run pipeStep (Plumbing.boot data) as = some t) :
    (∀ n u, Lib.run pipeStep (Plumbing.boot data) (as.take n) = some u → NobodyForgotten u) ↔
      Lib.Meets pipeStep WritesFit (Plumbing.boot data) as := by
  refine Lib.good_iff_meets (I := fun s => NobodyForgotten s ∧ ∃ l, Carries s l) (fun s h => h.1)
    ?_ ?_ as _ ⟨⟨?_, ?_⟩, [], boot_carries data⟩ ⟨t, hr⟩
  · rintro s a s' ⟨h, l, hl⟩ hfit hs
    exact ⟨h.step hl.contains hfit hs, hl.step hs⟩
  · rintro s a s' ⟨h, l, hl⟩ hs h'
    exact h.fits hl.contains hs h'
  · intro q m ha
    cases ha
  · intro q rest m ha
    cases ha

/-- While the promise is kept, a pipe whose page was freed has no process in a call. -/
structure Attended (s : Plumbing P) : Prop where
  freed : s.freed = true ↔ s.pipe.readopen = false ∧ s.pipe.writeopen = false
  reader : ∀ q n, s.call q = some (.read n) → s.pipe.readopen = true
  writer : ∀ q rest n, s.call q = some (.write rest n) → s.pipe.writeopen = true

/-- Only the call of `p` has changed, and `p` is at an end that is open. -/
theorem Attended.recall {p : P} {c : Option Call} (h : Attended s)
    (hcall : s'.call = Function.update s.call p c) (hfreed : s'.freed = s.freed)
    (hro : s'.pipe.readopen = s.pipe.readopen) (hwo : s'.pipe.writeopen = s.pipe.writeopen)
    (hr : ∀ n, c = some (.read n) → s.pipe.readopen = true)
    (hw : ∀ rest n, c = some (.write rest n) → s.pipe.writeopen = true) : Attended s' := by
  refine ⟨?_, fun q n hc => ?_, fun q rest n hc => ?_⟩
  · rw [hfreed, hro, hwo]
    exact h.freed
  · rw [hro]
    rcases eq_or_ne q p with rfl | hq
    · rw [hcall, Function.update_self] at hc
      exact hr n hc
    · rw [hcall, Function.update_of_ne hq] at hc
      exact h.reader q n hc
  · rw [hwo]
    rcases eq_or_ne q p with rfl | hq
    · rw [hcall, Function.update_self] at hc
      exact hw rest n hc
    · rw [hcall, Function.update_of_ne hq] at hc
      exact h.writer q rest n hc

theorem Attended.step (h : Attended s) (hcon : s.pipe.Contains l) (href : Referenced s a)
    (hs : pipeStep s a = some s') : Attended s' := by
  cases pipeStep_effect hcon hs with
  | write p bs n hw _ hwrote =>
    have hopen : s.pipe.writeopen = true := by
      cases a with
      | write => exact href
      | resume =>
        obtain ⟨rfl, m, hm⟩ := hw
        exact h.writer _ bs m hm
      | read => exact hw.elim
      | kill => exact hw.elim
      | close => exact hw.elim
    rcases hwrote.ends with ⟨-, hcall, -⟩ | ⟨-, -, hcall, -⟩ | ⟨-, -, -, hcall, -⟩ <;>
    · refine h.recall hcall hwrote.freed hwrote.readopen hwrote.writeopen (fun m hm => ?_)
        (fun _ _ _ => hopen)
      cases hm
  | read p n hr _ hgot =>
    have hopen : s.pipe.readopen = true := by
      cases a with
      | read => exact href
      | resume =>
        obtain ⟨rfl, hm⟩ := hr
        exact h.reader _ n hm
      | write => exact hr.elim
      | kill => exact hr.elim
      | close => exact hr.elim
    rcases hgot.ends with ⟨-, -, -, hcall, -⟩ | ⟨-, -, -, -, ⟨-, hcall, -⟩ | ⟨-, hcall, -⟩⟩ <;>
    · refine h.recall hcall hgot.freed hgot.readopen hgot.writeopen (fun _ _ => hopen)
        (fun rest m hm => ?_)
      cases hm
  | kill p _ _ _ _ he =>
    subst he
    exact ⟨h.freed, h.reader, h.writer⟩
  | close writable ha he =>
    subst ha he
    obtain ⟨hcall, -, hwo, hro⟩ := pipeclose_calls (s := s) writable
    have hfreed : (s.pipeclose writable).freed =
        (s.freed || !(s.pipeclose writable).pipe.readopen && !(s.pipeclose writable).pipe.writeopen) := by
      cases writable <;> rfl
    have hopen : s.freed = false := by
      apply Bool.eq_false_of_not_eq_true
      intro hf
      obtain ⟨hr0, hw0⟩ := h.freed.mp hf
      cases writable with
      | true =>
        rw [href.1] at hw0
        cases hw0
      | false =>
        rw [href.1] at hr0
        cases hr0
    refine ⟨?_, fun q n hc => ?_, fun q rest n hc => ?_⟩
    · rw [hfreed, hopen]
      simp
    · rw [hcall] at hc
      cases writable with
      | true => simpa [hro] using h.reader q n hc
      | false => exact absurd hc (href.2 q n)
    · rw [hcall] at hc
      cases writable with
      | true => exact absurd hc (href.2 q rest n)
      | false => simpa [hwo] using h.writer q rest n hc

end Machine

/-! ## Runs -/

section Runs

/-- One process writes three bytes and another one reads two of them. -/
def writeThenRead : List (PipeAct Nat) := [.write 0 [1, 2, 3], .read 1 2]

theorem pipe_fifo_writeThenRead : ∃ t,
    Lib.run pipeStep (Plumbing.boot fun _ => 0) writeThenRead = some t ∧ InOrder t :=
  ⟨_, rfl, pipe_fifo (fun _ => 0) writeThenRead _ rfl⟩

theorem nobody_forgotten_iff_writeThenRead : ∃ t,
    Lib.run pipeStep (Plumbing.boot fun _ => 0) writeThenRead = some t ∧
    ((∀ n u, Lib.run pipeStep (Plumbing.boot fun _ => 0) (writeThenRead.take n) = some u →
        NobodyForgotten u) ↔ Lib.Meets pipeStep WritesFit (Plumbing.boot fun _ => 0) writeThenRead) :=
  ⟨_, rfl, nobody_forgotten_iff (fun _ => 0) writeThenRead _ rfl⟩

/-- A process sleeps in `piperead`; another one is killed in the kernel and writes 513 bytes.
He fails with a full pipe, and the reader sleeps on. -/
theorem reader_forgotten : ∃ s t : Plumbing Nat,
    Lib.run pipeStep (Plumbing.boot fun _ => 0) [.read 0 1, .kill 1 false] = some s ∧
    pipeStep s (.write 1 (List.replicate 513 7)) = some t ∧ NobodyForgotten s ∧ ¬ NobodyForgotten t := by
  have hrun : ∃ s, Lib.run pipeStep (Plumbing.boot fun _ => 0 : Plumbing Nat) [.read 0 1, .kill 1 false] = some s ∧
      s.pipe.nread = s.pipe.nwrite ∧ s.pipe.writeopen = true ∧ s.killed 1 = true ∧
      s.asleep 0 = true ∧ s.call 0 = some (.read 1) ∧ s.call 1 = none ∧
      ∀ q rest n, s.call q ≠ some (.write rest n) := by
    refine ⟨_, rfl, rfl, rfl, rfl, rfl, rfl, rfl, fun q rest n hc => ?_⟩
    change Function.update (fun _ => none) 0 (some (Call.read 1)) q = _ at hc
    rw [Function.update_apply] at hc
    split at hc <;> cases hc
  obtain ⟨s, hr, hempty, hwo, hk, ha, hc, hfree, hnw⟩ := hrun
  have hgood : NobodyForgotten s := ⟨fun _ _ _ _ => ⟨hempty, hwo⟩, fun q rest n _ h => absurd h (hnw q rest n)⟩
  obtain ⟨l, hl⟩ := run_carries _ hr
  have hs : pipeStep s (.write 1 (List.replicate 513 7)) = some _ := if_pos hfree
  refine ⟨s, _, hr, hs, hgood, fun h' => ?_⟩
  have hfit := hgood.fits hl.contains hs h' 1 _ ⟨rfl, rfl⟩ ⟨0, 1, ha, hc⟩ (by rw [List.length_replicate]; decide)
  rw [hk] at hfit
  cases hfit.1

end Runs

end Xv6.Ipc
