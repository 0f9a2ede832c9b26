import Xv6.Fs.Block
import Xv6.Lib.Links
import Xv6.Lib.Run

/- The disk driver (`ide.c`, the same file in the three kernels), for any number of processes
   and of buffers.

   A process comes to the driver with a buffer whose lock it has (`bread`, `bwrite`), for a
   block below `FSSIZE`, and disk 1 is there; otherwise the driver panics. What it does under
   `idelock` up to `sleep` or the return of `iderw` is one step, the interrupt handler is one
   step, and that the drive finishes a command is one step; a command can fail. Interrupts
   come when a command is finished, and otherwise only while the drive has nothing to do, never
   while it is busy. Who changes a locked buffer marks it dirty in the same step (`log_write`
   does so later, under the same lock). `returns` records, for the proofs, the buffer of each
   return of `iderw`. `view` shows the first buffer of the queue as served from the interrupt
   on, before the handler has run.

   What is proved: each run is a run of a disk where a request takes effect in one step
   (`ide_refines`); no buffer that is waited for gets lost, nobody sleeps whose request is
   done, the driver never waits for a busy drive, and a buffer that is valid and not dirty has
   what the disk has, in every state, if no command fails (`ide_sound`); and requests are
   served in turn (`ide_served`). -/
namespace Xv6.Dev

open Fs (Block)
open Lib (Links lastNode)

abbrev FSSIZE : Nat := 1000000
abbrev ROOTDEV : Nat := 1

/-- A block in a buffer; `valid` and `dirty` are `B_VALID` and `B_DIRTY`. -/
structure Cached where
  valid : Bool := false
  dirty : Bool := false
  dev : Nat := 0
  blockno : Nat := 0
  data : Block := Block.zero

/-- A block that is not to be read nor to be written: what `iderw` waits for. -/
abbrev Cached.Done (x : Cached) : Prop := x.valid = true ∧ x.dirty = false

/-- `struct buf`, without the fields of `bio.c`. -/
structure Buf (n : Nat) extends Cached where
  qnext : Option (Fin n) := none

/-- What `idestart` writes to the ports 0x1f3 to 0x1f7. -/
structure Regs where
  r3 : Nat := 0
  r4 : Nat := 0
  r5 : Nat := 0
  r6 : Nat := 0
  write : Bool := false

def Regs.disk (r : Regs) : Nat := r.r6 / 16 % 2
def Regs.sector (r : Regs) : Nat := r.r3 + 256 * r.r4 + 65536 * r.r5 + 16777216 * (r.r6 % 16)

/-- The drive: `IDE_BSY`, and `IDE_DF` or `IDE_ERR`, whether an interrupt is raised, the
last command, the data port, and the blocks of disk 0 and disk 1. -/
structure Drive where
  bsy : Bool := false
  err : Bool := false
  irq : Bool := false
  regs : Regs := {}
  port : Block := Block.zero
  disk : Nat → Nat → Block

/-- A panic, or the loop of `idewait` with `idelock` held. -/
inductive Stuck where
  | panic (msg : String)
  | spins
  deriving DecidableEq, Repr

/-- The buffers with the owners of their locks, the queue, the drive, and the processes in
`iderw` with the buffers they wait for. -/
structure Ide (n : Nat) (P : Type) where
  buf : Fin n → Buf n
  owner : Fin n → Option P
  idequeue : Option (Fin n)
  havedisk1 : Bool
  drive : Drive
  call : P → Option (Fin n)
  asleep : P → Bool
  stuck : Option Stuck
  returns : List (P × Nat × Block)

inductive IdeAct (n : Nat) (P : Type) where
  | assign (b : Fin n) (blockno : Nat)
  | take (p : P) (b : Fin n)
  | release (p : P) (b : Fin n)
  | modify (p : P) (b : Fin n) (data : Block)
  | bread (p : P) (b : Fin n)
  | bwrite (p : P) (b : Fin n)
  | resume (p : P)
  | kill (p : P)
  | finish (err : Bool)
  | intr

def IdeAct.fails {n : Nat} {P : Type} : IdeAct n P → Bool
  | .finish err => err
  | _ => false

def IdeAct.isFinish {n : Nat} {P : Type} : IdeAct n P → Bool
  | .finish _ => true
  | _ => false

namespace Ide

variable {n : Nat} {P : Type} [DecidableEq P]

def boot (disk : Nat → Nat → Block) (havedisk1 : Bool) : Ide n P where
  buf := fun _ => {}
  owner := fun _ => none
  idequeue := none
  havedisk1 := havedisk1
  drive := { disk := disk }
  call := fun _ => none
  asleep := fun _ => false
  stuck := none
  returns := []

def setBuf (s : Ide n P) (b : Fin n) (x : Buf n) : Ide n P :=
  { s with buf := Function.update s.buf b x }

/-- The ports, for a block of one sector. -/
def command (b : Cached) : Regs where
  r3 := b.blockno % 256
  r4 := b.blockno / 256 % 256
  r5 := b.blockno / 65536 % 256
  r6 := 224 + 16 * (b.dev % 2) + b.blockno / 16777216 % 16
  write := b.dirty

def idestart (s : Ide n P) (b : Fin n) : Except Stuck (Ide n P) :=
  if (s.buf b).blockno ≥ FSSIZE then .error (.panic "incorrect blockno")
  else if s.drive.bsy then .error .spins
  else
    .ok { s with drive := { s.drive with
      bsy := true, err := false, regs := command (s.buf b).toCached
      port := if (s.buf b).dirty then (s.buf b).data else s.drive.port } }

/-- The interrupt handler takes `b` from the queue, with what the drive has read for it, and
wakes up who waits for it. -/
def unqueue (s : Ide n P) (b : Fin n) : Ide n P :=
  let x := s.buf b
  let data := if x.dirty = false ∧ s.drive.err = false then s.drive.port else x.data
  { s with
    idequeue := x.qnext
    buf := Function.update s.buf b { x with valid := true, dirty := false, data := data }
    asleep := fun p => if s.call p = some b then false else s.asleep p }

def ideintr (s : Ide n P) : Except Stuck (Ide n P) :=
  match s.idequeue with
  | none => .ok s
  | some b =>
    if (s.buf b).dirty = false ∧ s.drive.bsy then .error .spins
    else
      let s := s.unqueue b
      match s.idequeue with
      | none => .ok s
      | some c => s.idestart c

/-- The loop at the end of `iderw`. -/
def waits (s : Ide n P) (p : P) (b : Fin n) : Ide n P :=
  let x := s.buf b
  if x.Done then
    { s with call := Function.update s.call p none
             returns := s.returns ++ [(p, x.blockno, x.data)] }
  else { s with call := Function.update s.call p (some b), asleep := Function.update s.asleep p true }

/-- Append `b` to `idequeue`. -/
def enqueue (s : Ide n P) (b : Fin n) : Ide n P :=
  let s := s.setBuf b { s.buf b with qnext := none }
  match s.idequeue with
  | none => { s with idequeue := some b }
  | some c =>
    let l := lastNode (fun x => (s.buf x).qnext) n c
    s.setBuf l { s.buf l with qnext := some b }

def iderw (s : Ide n P) (p : P) (b : Fin n) : Except Stuck (Ide n P) :=
  if s.owner b ≠ some p then .error (.panic "iderw: buf not locked")
  else if (s.buf b).Done then .error (.panic "iderw: nothing to do")
  else if (s.buf b).dev ≠ 0 ∧ s.havedisk1 = false then .error (.panic "iderw: ide disk 1 not present")
  else
    let s := s.enqueue b
    (if s.idequeue = some b then s.idestart b else .ok s).map fun s => s.waits p b

/-- Nobody goes on after a panic. -/
def settle (s : Ide n P) : Except Stuck (Ide n P) → Ide n P
  | .ok t => t
  | .error e => { s with stuck := some e }

/-- The drive does its command. -/
def finish (s : Ide n P) (err : Bool) : Ide n P :=
  let d := s.drive
  let r := d.regs
  { s with drive := { d with
      bsy := false, err := err, irq := true
      port := if r.write = false ∧ err = false then d.disk r.disk r.sector else d.port
      disk := if r.write = true ∧ err = false then
          Function.update d.disk r.disk (Function.update (d.disk r.disk) r.sector d.port)
        else d.disk } }

/-- A process that is not in `iderw`, with the lock of `b`. -/
abbrev Holds (s : Ide n P) (p : P) (b : Fin n) : Prop := s.owner b = some p ∧ s.call p = none

/-- The callers in `bio.c`. `bget` gives a buffer that nobody has to a block that no buffer has;
all blocks that are used are on `ROOTDEV`. -/
def step (s : Ide n P) : IdeAct n P → Option (Ide n P)
  | .assign b blockno =>
    if s.stuck = none ∧ s.owner b = none ∧ (s.buf b).dirty = false ∧
        ∀ c, ¬ ((s.buf c).dev = ROOTDEV ∧ (s.buf c).blockno = blockno) then
      some (s.setBuf b { s.buf b with dev := ROOTDEV, blockno := blockno, valid := false })
    else none
  | .take p b =>
    if s.stuck = none ∧ s.call p = none ∧ s.owner b = none ∧ (s.buf b).dev = ROOTDEV then
      some { s with owner := Function.update s.owner b (some p) }
    else none
  | .release p b =>
    if s.stuck = none ∧ s.Holds p b then some { s with owner := Function.update s.owner b none }
    else none
  | .modify p b data =>
    if s.stuck = none ∧ s.Holds p b ∧ (s.buf b).valid then
      some (s.setBuf b { s.buf b with data := data, dirty := true })
    else none
  | .bread p b =>
    if s.stuck = none ∧ s.Holds p b then
      some (if (s.buf b).valid then s else s.settle (s.iderw p b))
    else none
  | .bwrite p b =>
    if s.stuck = none ∧ s.Holds p b ∧ (s.buf b).valid then
      let s := s.setBuf b { s.buf b with dirty := true }
      some (s.settle (s.iderw p b))
    else none
  | .resume p =>
    if s.stuck = none ∧ s.asleep p = false then (s.call p).map (s.waits p) else none
  | .kill p => if s.stuck = none then some { s with asleep := Function.update s.asleep p false } else none
  | .finish err => if s.stuck = none ∧ s.drive.bsy then some (s.finish err) else none
  | .intr =>
    if s.stuck = none ∧ s.drive.bsy = false then
      let s := { s with drive := { s.drive with irq := false } }
      some (s.settle s.ideintr)
    else none

/-- What the driver keeps, with the buffers of the queue in order. -/
structure Running (s : Ide n P) (q : List (Fin n)) : Prop where
  stuck : s.stuck = none
  disk1 : s.havedisk1 = true
  links : Links (fun x => (s.buf x).qnext) s.idequeue q
  nodup : q.Nodup
  range : ∀ b, (s.buf b).blockno < FSSIZE
  unique : ∀ b c, (s.buf b).dev = ROOTDEV → (s.buf c).dev = ROOTDEV →
    (s.buf b).blockno = (s.buf c).blockno → b = c
  idle : q = [] → s.drive.bsy = false ∧ s.drive.irq = false
  started : ∀ b l, q = b :: l → s.drive.regs = command (s.buf b).toCached ∧ s.drive.irq = !s.drive.bsy ∧
    ((s.buf b).dirty = true → s.drive.port = (s.buf b).data)
  wanted : ∀ b ∈ q, ¬ (s.buf b).Done ∧ ∃ p, s.call p = some b
  owned : ∀ p b, s.call p = some b → s.owner b = some p ∧ (b ∈ q ∨ (s.buf b).Done)
  root : ∀ p b, s.owner b = some p → (s.buf b).dev = ROOTDEV
  sleeps : ∀ p, s.asleep p = true → ∃ b ∈ q, s.call p = some b

omit [DecidableEq P] in
theorem Running.boot (disk : Nat → Nat → Block) : Running (boot disk true : Ide n P) [] where
  stuck := rfl
  disk1 := rfl
  links := rfl
  nodup := List.nodup_nil
  range := fun _ => Nat.succ_pos _
  unique := fun _ _ h => (nomatch h)
  idle := fun _ => ⟨rfl, rfl⟩
  started := fun _ _ h => (nomatch h)
  wanted := fun _ h => (nomatch h)
  owned := fun _ _ h => (nomatch h)
  root := fun _ _ h => (nomatch h)
  sleeps := fun _ h => (nomatch h)

/-- The drive finds the block that the registers were written for. -/
theorem command_block {x : Cached} (h : x.blockno < FSSIZE) (hr : x.dev = ROOTDEV) :
    (command x).disk = ROOTDEV ∧ (command x).sector = x.blockno := by
  have hlt : x.blockno < 1000000 := h
  have hroot : x.dev = 1 := hr
  constructor
  · show (224 + 16 * (x.dev % 2) + x.blockno / 16777216 % 16) / 16 % 2 = 1
    omega
  · show x.blockno % 256 + 256 * (x.blockno / 256 % 256) + 65536 * (x.blockno / 65536 % 256) +
      16777216 * ((224 + 16 * (x.dev % 2) + x.blockno / 16777216 % 16) % 16) = x.blockno
    omega

namespace Running

variable {s : Ide n P} {q : List (Fin n)} {b : Fin n} {p : P}

omit [DecidableEq P] in
theorem head (h : Running s q) : s.idequeue = q.head? := h.links.head

omit [DecidableEq P] in
/-- A buffer whose owner is not in `iderw` is not in the queue. -/
theorem not_mem (h : Running s q) (hp : s.Holds p b) : b ∉ q ∧ ∀ r, s.call r ≠ some b := by
  have hcall : ∀ r, s.call r ≠ some b := by
    intro r hr
    have howner := (h.owned r b hr).1.symm.trans hp.1
    cases howner
    rw [hp.2] at hr
    cases hr
  refine ⟨fun hmem => ?_, hcall⟩
  obtain ⟨r, hr⟩ := (h.wanted b hmem).2
  exact hcall r hr

omit [DecidableEq P] in
/-- The same for a buffer that nobody owns. -/
theorem not_mem_free (h : Running s q) (hb : s.owner b = none) : b ∉ q ∧ ∀ r, s.call r ≠ some b := by
  have hcall : ∀ r, s.call r ≠ some b := by
    intro r hr
    have howner := (h.owned r b hr).1
    rw [hb] at howner
    cases howner
  refine ⟨fun hmem => ?_, hcall⟩
  obtain ⟨r, hr⟩ := (h.wanted b hmem).2
  exact hcall r hr

omit [DecidableEq P] in
/-- A buffer that is not in use by the driver may be written, except for its link. -/
theorem edit (h : Running s q) (hb : b ∉ q) (hcall : ∀ r, s.call r ≠ some b) (x : Cached)
    (hrange : x.blockno < FSSIZE)
    (hroot : ∀ r, s.owner b = some r → x.dev = ROOTDEV)
    (hunique : ∀ c, c ≠ b → x.dev = ROOTDEV → (s.buf c).dev = ROOTDEV → x.blockno ≠ (s.buf c).blockno) :
    Running (s.setBuf b { s.buf b with toCached := x }) q := by
  have hother : ∀ c ∈ q, Function.update s.buf b { s.buf b with toCached := x } c = s.buf c := by
    intro c hc
    apply Function.update_of_ne
    intro he
    exact hb (he ▸ hc)
  refine ⟨h.stuck, h.disk1, h.links.congr fun c hc => congrArg Buf.qnext (hother c hc), h.nodup,
    fun c => ?_, fun c d hc hd hcd => ?_, h.idle, fun c l hc => ?_, fun c hc => ?_, fun r c hc => ?_,
    fun r c hc => ?_, h.sleeps⟩
  all_goals dsimp only [setBuf] at *
  · rcases eq_or_ne c b with he | hne
    · rw [he, Function.update_self]
      exact hrange
    · rw [Function.update_of_ne hne]
      exact h.range c
  · rcases eq_or_ne c b with hcb | hcb <;> rcases eq_or_ne d b with hdb | hdb
    · rw [hcb, hdb]
    · rw [hcb, Function.update_self] at hc hcd
      rw [Function.update_of_ne hdb] at hd hcd
      exact absurd hcd (hunique d hdb hc hd)
    · rw [hdb, Function.update_self] at hd hcd
      rw [Function.update_of_ne hcb] at hc hcd
      exact absurd hcd.symm (hunique c hcb hd hc)
    · rw [Function.update_of_ne hcb] at hc hcd
      rw [Function.update_of_ne hdb] at hd hcd
      exact h.unique c d hc hd hcd
  · rw [hother c (by rw [hc]; exact List.mem_cons_self)]
    exact h.started c l hc
  · rw [hother c hc]
    exact h.wanted c hc
  · have hne : c ≠ b := fun he => hcall r (he ▸ hc)
    rw [Function.update_of_ne hne]
    exact h.owned r c hc
  · rcases eq_or_ne c b with he | hne
    · rw [he, Function.update_self]
      exact hroot r (he ▸ hc)
    · rw [Function.update_of_ne hne]
      exact h.root r c hc

omit [DecidableEq P] in
/-- The flags and the data of a buffer that its owner works on. -/
theorem write (h : Running s q) (hp : s.Holds p b) (x : Cached) (hdev : x.dev = (s.buf b).dev)
    (hno : x.blockno = (s.buf b).blockno) :
    Running (s.setBuf b { s.buf b with toCached := x }) q := by
  obtain ⟨hb, hcall⟩ := h.not_mem hp
  apply h.edit hb hcall x
  · rw [hno]
    exact h.range b
  · intro r hr
    rw [hdev]
    exact h.root r b hr
  · intro c hne hx hc he
    exact hne (h.unique c b hc (hdev ▸ hx) (he.symm.trans hno))

omit [DecidableEq P] in
/-- The queue is not longer than there are buffers. -/
theorem length_le (h : Running s q) : q.length ≤ n := by
  have hcard := h.nodup.length_le_card
  rwa [Fintype.card_fin] at hcard

omit [DecidableEq P] in
theorem enqueue (h : Running s q) (hb : b ∉ q) : ∃ buf',
    s.enqueue b = { s with buf := buf', idequeue := (q ++ [b]).head? } ∧
      (∀ c, (buf' c).toCached = (s.buf c).toCached) ∧
      Links (fun x => (buf' x).qnext) (q ++ [b]).head? (q ++ [b]) := by
  -- the links after `b->qnext = 0`
  obtain ⟨buf, hbuf⟩ : ∃ buf, buf = Function.update s.buf b { s.buf b with qnext := none } := ⟨_, rfl⟩
  have hqnext : (fun x => (buf x).qnext) = Function.update (fun x => (s.buf x).qnext) b none := by
    rw [hbuf]
    exact Function.comp_update Buf.qnext s.buf b _
  have hkeep : ∀ c, (buf c).toCached = (s.buf c).toCached := by
    intro c
    rw [hbuf]
    rcases eq_or_ne c b with he | hne
    · rw [he, Function.update_self]
    · rw [Function.update_of_ne hne]
  have hlinks : Links (fun x => (buf x).qnext) q.head? q := by
    rw [hqnext, ← h.head]
    exact h.links.update_of_not_mem hb none
  have hnone : (buf b).qnext = none := by
    rw [hbuf, Function.update_self]
  rw [Ide.enqueue, setBuf, ← hbuf, h.head]
  cases q with
  | nil => exact ⟨buf, rfl, hkeep, rfl, hnone⟩
  | cons c q =>
    have hne := List.cons_ne_nil c q
    have hlast := Links.lastNode_eq hlinks (Nat.le_of_succ_le h.length_le)
    dsimp only [List.head?_cons]
    rw [hlast, setBuf]
    refine ⟨_, rfl, fun d => ?_, ?_⟩
    · rcases eq_or_ne d ((c :: q).getLast hne) with he | hd
      · rw [he, Function.update_self]
        exact hkeep _
      · rw [Function.update_of_ne hd]
        exact hkeep d
    · have hupdate : (fun x => (Function.update buf ((c :: q).getLast hne)
          { buf ((c :: q).getLast hne) with qnext := some b } x).qnext) =
          Function.update (fun x => (buf x).qnext) ((c :: q).getLast hne) (some b) :=
        Function.comp_update Buf.qnext buf _ _
      rw [hupdate]
      exact hlinks.append hne h.nodup hb hnone

end Running

end Ide

/-! ## A disk that serves each request in one step -/

/-- A request is served: read, when the block is not dirty, or written. After an error the
flags are set all the same. -/
def Cached.serve (x : Cached) (err : Bool) (block : Block) : Cached :=
  { x with valid := true, dirty := false
           data := if x.dirty = false ∧ err = false then block else x.data }

structure Atomic (n : Nat) (P : Type) where
  cached : Fin n → Cached
  owner : Fin n → Option P
  disk : Nat → Nat → Block
  call : P → Option (Fin n)
  returns : List (P × Nat × Block)

inductive AtomicAct (n : Nat) (P : Type) where
  | assign (b : Fin n) (blockno : Nat)
  | take (p : P) (b : Fin n)
  | release (p : P) (b : Fin n)
  | modify (p : P) (b : Fin n) (data : Block)
  | bread (p : P) (b : Fin n)
  | bwrite (p : P) (b : Fin n)
  | serve (p : P) (b : Fin n) (err : Bool)
  | returns (p : P)

section Machine

variable {n : Nat} {P : Type} [DecidableEq P]

def Atomic.step (s : Atomic n P) : AtomicAct n P → Option (Atomic n P)
  | .assign b blockno =>
    if s.owner b = none ∧ (s.cached b).dirty = false ∧
        ∀ c, ¬ ((s.cached c).dev = ROOTDEV ∧ (s.cached c).blockno = blockno) then
      let x := s.cached b
      some { s with
        cached := Function.update s.cached b { x with dev := ROOTDEV, blockno := blockno, valid := false } }
    else none
  | .take p b =>
    if s.call p = none ∧ s.owner b = none ∧ (s.cached b).dev = ROOTDEV then
      some { s with owner := Function.update s.owner b (some p) }
    else none
  | .release p b =>
    if s.owner b = some p ∧ s.call p = none then
      some { s with owner := Function.update s.owner b none }
    else none
  | .modify p b data =>
    if s.owner b = some p ∧ s.call p = none ∧ (s.cached b).valid then
      some { s with
        cached := Function.update s.cached b { s.cached b with data := data, dirty := true } }
    else none
  | .bread p b =>
    if s.owner b = some p ∧ s.call p = none ∧ (s.cached b).valid = false then
      some { s with call := Function.update s.call p (some b) }
    else none
  | .bwrite p b =>
    if s.owner b = some p ∧ s.call p = none ∧ (s.cached b).valid then
      some { s with
        cached := Function.update s.cached b { s.cached b with dirty := true }
        call := Function.update s.call p (some b) }
    else none
  | .serve p b err =>
    let x := s.cached b
    if s.call p = some b ∧ ¬ x.Done then
      some { s with
        cached := Function.update s.cached b (x.serve err (s.disk x.dev x.blockno))
        disk := if x.dirty ∧ err = false then
            Function.update s.disk x.dev (Function.update (s.disk x.dev) x.blockno x.data)
          else s.disk }
    else none
  | .returns p =>
    (s.call p).bind fun b =>
      let x := s.cached b
      if x.Done then
        some { s with call := Function.update s.call p none
                      returns := s.returns ++ [(p, x.blockno, x.data)] }
      else none

namespace Ide

/-- What is to be seen of the driver: the request at the head of the queue is served as soon as
the drive has raised its interrupt. -/
def view (s : Ide n P) : Atomic n P where
  cached := fun b =>
    if s.idequeue = some b ∧ s.drive.irq = true then
      (s.buf b).toCached.serve s.drive.err s.drive.port
    else (s.buf b).toCached
  owner := s.owner
  disk := s.drive.disk
  call := s.call
  returns := s.returns

omit [DecidableEq P] in
theorem view_served {s : Ide n P} {b : Fin n} (hb : s.idequeue = some b) (hirq : s.drive.irq = true) :
    s.view.cached b = (s.buf b).toCached.serve s.drive.err s.drive.port :=
  if_pos ⟨hb, hirq⟩

omit [DecidableEq P] in
theorem view_unserved {s : Ide n P} {b : Fin n} (h : s.idequeue ≠ some b ∨ s.drive.irq = false) :
    s.view.cached b = (s.buf b).toCached := by
  apply if_neg
  rintro ⟨hb, hirq⟩
  rcases h with h | h
  · exact h hb
  · rw [h] at hirq
    cases hirq

namespace Running

variable {s : Ide n P} {q : List (Fin n)} {b : Fin n} {p : P}

omit [DecidableEq P] in
/-- A buffer that is not in the queue is seen as it is. -/
theorem view_cached (h : Running s q) (hb : b ∉ q) : s.view.cached b = (s.buf b).toCached := by
  apply view_unserved
  left
  rw [h.head]
  exact fun hhead => hb (List.mem_of_mem_head? hhead)

/-- The process `p` sleeps for `b`, which is the last of the queue; `buf` are the buffers with
their new links. -/
def queued (s : Ide n P) (q : List (Fin n)) (p : P) (b : Fin n) (buf : Fin n → Buf n) : Ide n P := { s with
  buf := buf, idequeue := (q ++ [b]).head?
  drive := if q = [] then
      { s.drive with bsy := true, err := false, regs := command (buf b).toCached
                     port := if (buf b).dirty then (buf b).data else s.drive.port }
    else s.drive
  call := Function.update s.call p (some b), asleep := Function.update s.asleep p true }

section Queued

variable {buf : Fin n → Buf n}

theorem iderw_queued (h : Running s q) (hp : s.Holds p b) (hd : ¬ (s.buf b).Done) (hb : b ∉ q)
    (henq : s.enqueue b = { s with buf := buf, idequeue := (q ++ [b]).head? })
    (hkeep : ∀ c, (buf c).toCached = (s.buf c).toCached) : s.iderw p b = .ok (queued s q p b buf) := by
  have hdone : ¬ (buf b).Done := by
    rw [hkeep]
    exact hd
  have hdisk : ¬ ((s.buf b).dev ≠ 0 ∧ s.havedisk1 = false) := by
    rw [h.disk1]
    exact fun hn => (nomatch hn.2)
  rw [iderw, if_neg (not_not_intro hp.1), if_neg hd, if_neg hdisk]
  dsimp only
  rw [henq, queued]
  dsimp only
  cases q with
  | nil =>
    have hrange : ¬ (buf b).blockno ≥ FSSIZE := by
      rw [hkeep]
      exact Nat.not_le.mpr (h.range b)
    have hready : ¬ s.drive.bsy = true := by
      rw [(h.idle rfl).1]
      exact Bool.false_ne_true
    have hhead : ([] ++ [b]).head? = some b := rfl
    rw [if_pos hhead, idestart, if_neg hrange, if_neg hready, Except.map, waits, if_neg hdone, if_pos rfl]
  | cons c l =>
    have hcb : c ≠ b := fun he => hb (List.mem_cons.mpr (.inl he.symm))
    have hhead : ¬ (c :: l ++ [b]).head? = some b := fun he => hcb (Option.some.inj he)
    rw [if_neg hhead, Except.map, waits, if_neg hdone, if_neg (List.cons_ne_nil c l)]

theorem queued_running (h : Running s q) (hp : s.Holds p b) (hd : ¬ (s.buf b).Done) (hb : b ∉ q)
    (hkeep : ∀ c, (buf c).toCached = (s.buf c).toCached)
    (hlinks : Links (fun x => (buf x).qnext) (q ++ [b]).head? (q ++ [b])) :
    Running (queued s q p b buf) (q ++ [b]) := by
  refine ⟨h.stuck, h.disk1, hlinks, ?_, fun c => ?_, fun c d hc hd => ?_, fun hnil => ?_,
    fun c l hc => ?_, fun c hc => ?_, fun r c hc => ?_, fun r c hc => ?_, fun r hr => ?_⟩
  · exact List.nodup_append.mpr ⟨h.nodup, List.nodup_singleton b,
      fun x hx y hy he => hb (List.mem_singleton.mp hy ▸ he ▸ hx)⟩
  all_goals dsimp only [queued] at *
  · rw [hkeep]
    exact h.range c
  · rw [hkeep] at hc hd ⊢
    rw [hkeep]
    exact h.unique c d hc hd
  · exact absurd hnil (List.append_ne_nil_of_right_ne_nil q (List.cons_ne_nil b []))
  · cases q with
    | nil =>
      rw [List.nil_append, List.cons.injEq] at hc
      rw [← hc.1, if_pos rfl]
      refine ⟨rfl, (h.idle rfl).2, fun hdirty => ?_⟩
      exact if_pos hdirty
    | cons d l' =>
      rw [List.cons_append, List.cons.injEq] at hc
      rw [if_neg (List.cons_ne_nil d l'), ← hc.1, hkeep]
      exact h.started d l' rfl
  · rw [hkeep]
    rcases List.mem_append.mp hc with hc | hc
    · obtain ⟨hnd, r, hr⟩ := h.wanted c hc
      have hne : r ≠ p := by
        intro he
        rw [he, hp.2] at hr
        cases hr
      exact ⟨hnd, r, (Function.update_of_ne hne _ _).trans hr⟩
    · rw [List.mem_singleton.mp hc]
      exact ⟨hd, p, Function.update_self _ _ _⟩
  · rw [hkeep]
    rcases eq_or_ne r p with he | hne
    · rw [he, Function.update_self] at hc
      cases hc
      exact ⟨he ▸ hp.1, .inl (List.mem_append_right q (List.mem_singleton_self b))⟩
    · rw [Function.update_of_ne hne] at hc
      obtain ⟨howner, hin⟩ := h.owned r c hc
      exact ⟨howner, hin.imp_left (List.mem_append_left [b])⟩
  · rw [hkeep]
    exact h.root r c hc
  · rcases eq_or_ne r p with he | hne
    · rw [he, Function.update_self]
      exact ⟨b, List.mem_append_right q (List.mem_singleton_self b), rfl⟩
    · rw [Function.update_of_ne hne] at hr ⊢
      obtain ⟨c, hc, hrc⟩ := h.sleeps r hr
      exact ⟨c, List.mem_append_left [b] hc, hrc⟩

theorem queued_view (h : Running s q) (hkeep : ∀ c, (buf c).toCached = (s.buf c).toCached) :
    (queued s q p b buf).view = { s.view with call := Function.update s.call p (some b) } := by
  have hcached : ∀ c, (queued s q p b buf).view.cached c = s.view.cached c := by
    intro c
    dsimp only [view, queued]
    rw [hkeep c, h.head]
    cases q with
    | nil =>
      rw [if_pos rfl]
      dsimp only
      rw [(h.idle rfl).2, if_neg (fun hn => (nomatch hn.2)), if_neg (fun hn => (nomatch hn.1))]
    | cons d l =>
      rw [if_neg (List.cons_ne_nil d l)]
      rfl
  have hdisk : (queued s q p b buf).view.disk = s.view.disk := by
    dsimp only [view, queued]
    split <;> rfl
  have hview : (queued s q p b buf).view = { s.view with
      cached := (queued s q p b buf).view.cached, disk := (queued s q p b buf).view.disk
      call := Function.update s.call p (some b) } := rfl
  rw [hview, hdisk, funext hcached]

end Queued

/-- What the call of `iderw` does up to `sleep`. -/
theorem request (h : Running s q) (hp : s.Holds p b) (hd : ¬ (s.buf b).Done) :
    ∃ t, s.iderw p b = .ok t ∧ Running t (q ++ [b]) ∧
      t.view = { s.view with call := Function.update s.call p (some b) } ∧ (q ≠ [] → t.drive = s.drive) := by
  obtain ⟨hb, -⟩ := h.not_mem hp
  obtain ⟨buf, henq, hkeep, hlinks⟩ := h.enqueue hb
  exact ⟨queued s q p b buf, h.iderw_queued hp hd hb henq hkeep, h.queued_running hp hd hb hkeep hlinks,
    h.queued_view hkeep, fun hne => if_neg hne⟩

omit [DecidableEq P] in
/-- While the drive works or has raised its interrupt, there is a first request. -/
theorem first (h : Running s q) (hd : s.drive.bsy = true ∨ s.drive.irq = true) :
    ∃ b l p, q = b :: l ∧ s.call p = some b ∧ s.owner b = some p ∧ ¬ (s.buf b).Done := by
  cases q with
  | nil =>
    obtain ⟨hb, hi⟩ := h.idle rfl
    rw [hb, hi] at hd
    exact hd.elim nofun nofun
  | cons b l =>
    obtain ⟨hnd, p, hp⟩ := h.wanted b List.mem_cons_self
    exact ⟨b, l, p, rfl, hp, (h.owned p b hp).1, hnd⟩

theorem finish (h : Running s q) (hbsy : s.drive.bsy = true) (err : Bool) :
    Running (s.finish err) q ∧ (s.finish err).drive.irq = true ∧
      ∃ p b, Atomic.step s.view (.serve p b err) = some (s.finish err).view := by
  obtain ⟨b, l, p, hq, hcall, howner, hnd⟩ := h.first (.inl hbsy)
  obtain ⟨hregs, hirq, hport⟩ := h.started b l hq
  obtain ⟨hdisk, hsector⟩ := command_block (h.range b) (h.root p b howner)
  rw [hbsy] at hirq
  have hhead : s.idequeue = some b := by
    rw [h.head, hq]
    rfl
  have hview : s.view.cached b = (s.buf b).toCached := view_unserved (.inr hirq)
  refine ⟨⟨h.stuck, h.disk1, h.links, h.nodup, h.range, h.unique, fun hnil => ?_, fun c l' hc => ?_,
    h.wanted, h.owned, h.root, h.sleeps⟩, rfl, p, b, ?_⟩
  · rw [hnil] at hq
    cases hq
  · obtain ⟨hregs', -, hport'⟩ := h.started c l' hc
    refine ⟨hregs', rfl, fun hdirty => ?_⟩
    dsimp only [Ide.finish]
    have hwrite : s.drive.regs.write = true := by
      rw [hregs']
      exact hdirty
    rw [hwrite, if_neg (fun hn => (nomatch hn.1))]
    exact hport' hdirty
  · have hwrite : s.drive.regs.write = (s.buf b).dirty := by
      rw [hregs]
      rfl
    rw [← hregs] at hdisk hsector
    have hserve : Function.update s.view.cached b
        ((s.buf b).toCached.serve err (s.drive.disk (s.buf b).dev (s.buf b).blockno)) =
        (s.finish err).view.cached := by
      funext c
      rcases eq_or_ne c b with he | hne
      · rw [he, Function.update_self, view_served (s := s.finish err) hhead rfl]
        dsimp only [Cached.serve, Ide.finish]
        rw [hwrite, hdisk, hsector, h.root p b howner]
        split <;> rfl
      · have hother : s.idequeue ≠ some c := by
          rw [hhead]
          exact fun he => hne (Option.some.inj he).symm
        rw [Function.update_of_ne hne, view_unserved (.inl hother),
          view_unserved (s := s.finish err) (.inl hother)]
        rfl
    have hwritten : (if (s.buf b).dirty = true ∧ err = false then
        Function.update s.drive.disk (s.buf b).dev
          (Function.update (s.drive.disk (s.buf b).dev) (s.buf b).blockno (s.buf b).data)
        else s.drive.disk) = (s.finish err).drive.disk := by
      dsimp only [Ide.finish]
      rw [hwrite, hdisk, hsector, h.root p b howner]
      split
      next hw => rw [hport hw.1]
      next => rfl
    dsimp only [Atomic.step]
    rw [hview, if_pos ⟨hcall, hnd⟩]
    rw [show s.view.disk = s.drive.disk from rfl, hserve, hwritten]
    rfl

omit [DecidableEq P] in
/-- The first request is taken from the queue, and the drive has been set up for the next one. -/
theorem unqueue {l : List (Fin n)} (h : Running s (b :: l)) (hirq : s.drive.irq = true) {d : Drive}
    (hdisk : d.disk = s.drive.disk) (hlow : d.irq = false)
    (hidle : l = [] → d.bsy = false)
    (hstarted : ∀ c l', l = c :: l' → d.regs = command (s.buf c).toCached ∧ d.bsy = true ∧
      ((s.buf c).dirty = true → d.port = (s.buf c).data)) :
    Running { s.unqueue b with drive := d } l ∧ ({ s.unqueue b with drive := d } : Ide n P).view = s.view := by
  obtain ⟨hb, hl⟩ := List.nodup_cons.mp h.nodup
  have hhead : s.idequeue = some b := h.head
  have hself : (s.unqueue b).buf b =
      { s.buf b with toCached := (s.buf b).toCached.serve s.drive.err s.drive.port } :=
    Function.update_self _ _ _
  have hkeep : ∀ c, c ≠ b → (s.unqueue b).buf c = s.buf c := fun c hc => Function.update_of_ne hc _ _
  have hname : ∀ c, ((s.unqueue b).buf c).dev = (s.buf c).dev ∧
      ((s.unqueue b).buf c).blockno = (s.buf c).blockno ∧ ((s.unqueue b).buf c).qnext = (s.buf c).qnext := by
    intro c
    rcases eq_or_ne c b with he | hne
    · rw [he, hself]
      exact ⟨rfl, rfl, rfl⟩
    · rw [hkeep c hne]
      exact ⟨rfl, rfl, rfl⟩
  have hmem : ∀ c ∈ l, c ≠ b := fun c hc he => hb (he ▸ hc)
  constructor
  · refine ⟨h.stuck, h.disk1, ?_, hl, fun c => ?_, fun c e hc he => ?_, fun hnil => ⟨hidle hnil, hlow⟩,
      fun c l' hc => ?_, fun c hc => ?_, fun p c hc => ?_, fun p c hc => ?_, fun p hp => ?_⟩
    all_goals dsimp only at *
    · exact h.links.2.congr fun c _ => (hname c).2.2
    · rw [(hname c).2.1]
      exact h.range c
    · rw [(hname c).1] at hc
      rw [(hname e).1] at he
      rw [(hname c).2.1, (hname e).2.1]
      exact h.unique c e hc he
    · rw [hkeep c (hmem c (hc ▸ List.mem_cons_self))]
      obtain ⟨hregs, hbsy, hport⟩ := hstarted c l' hc
      refine ⟨hregs, ?_, hport⟩
      rw [hlow, hbsy]
      rfl
    · rw [hkeep c (hmem c hc)]
      exact h.wanted c (List.mem_cons_of_mem b hc)
    · obtain ⟨howner, hin⟩ := h.owned p c hc
      refine ⟨howner, ?_⟩
      rcases eq_or_ne c b with he | hne
      · right
        rw [he, hself]
        exact ⟨rfl, rfl⟩
      · rw [hkeep c hne]
        exact hin.imp_left fun hc => (List.mem_cons.mp hc).resolve_left hne
    · rw [(hname c).1]
      exact h.root p c hc
    · have hasleep : (if s.call p = some b then false else s.asleep p) = true := hp
      rw [Bool.ite_eq_true_distrib] at hasleep
      split at hasleep
      · cases hasleep
      next hne =>
        obtain ⟨c, hc, hpc⟩ := h.sleeps p hasleep
        refine ⟨c, (List.mem_cons.mp hc).resolve_left (fun he => hne (he ▸ hpc)), hpc⟩
  · have hcached : ({ s.unqueue b with drive := d } : Ide n P).view.cached = s.view.cached := by
      funext c
      rw [view_unserved (s := { s.unqueue b with drive := d }) (.inr hlow)]
      dsimp only
      rcases eq_or_ne c b with he | hne
      · rw [he, hself, view_served hhead hirq]
      · rw [hkeep c hne, view_unserved]
        left
        rw [hhead]
        exact fun he => hne (Option.some.inj he).symm
    rw [view] at hcached ⊢
    dsimp only at hcached ⊢
    rw [hcached, hdisk]
    rfl

omit [DecidableEq P] in
/-- The handler serves the first request and starts the next one. -/
theorem intr (h : Running s q) (hready : s.drive.bsy = false) :
    ∃ t, { s with drive := { s.drive with irq := false } }.ideintr = .ok t ∧ Running t q.tail ∧
      t.view = s.view ∧ t.call = s.call ∧
      ∀ b l, q = b :: l → (t.buf b).Done ∧ ∀ p, s.call p = some b → t.asleep p = false := by
  cases q with
  | nil =>
    have hdrive : { s with drive := { s.drive with irq := false } } = s := by
      have hirq := (h.idle rfl).2
      rw [← hirq]
    rw [hdrive, ideintr, h.head]
    exact ⟨s, rfl, h, rfl, rfl, nofun⟩
  | cons b l =>
    have hirq := (h.started b l rfl).2.1
    rw [hready] at hirq
    obtain ⟨u, hu⟩ : ∃ u : Ide n P, u = { s with drive := { s.drive with irq := false } } := ⟨_, rfl⟩
    have hhead : u.idequeue = some b := by
      rw [hu]
      exact h.head
    have hnext : (u.unqueue b).idequeue = l.head? := by
      rw [hu]
      exact h.links.2.head
    have hready' : ¬ ((u.buf b).dirty = false ∧ u.drive.bsy = true) := by
      rw [show u.drive.bsy = false by rw [hu]; exact hready]
      exact fun hn => (nomatch hn.2)
    have hserved : ((s.unqueue b).buf b).Done ∧ ∀ p, s.call p = some b → (s.unqueue b).asleep p = false := by
      refine ⟨?_, fun p hp => if_pos hp⟩
      rw [show (s.unqueue b).buf b = _ from Function.update_self _ _ _]
      exact ⟨rfl, rfl⟩
    rw [← hu, ideintr, hhead]
    dsimp only
    rw [if_neg hready', hnext]
    cases l with
    | nil =>
      have hrun := h.unqueue hirq (d := { s.drive with irq := false }) rfl rfl (fun _ => hready) nofun
      refine ⟨_, rfl, ?_, ?_, ?_, fun c l' hc => ?_⟩
      all_goals rw [hu]
      · exact hrun.1
      · exact hrun.2
      · rfl
      · cases hc
        exact hserved
    | cons c l =>
      dsimp only [List.head?_cons]
      have hcb : c ≠ b := fun he => (List.nodup_cons.mp h.nodup).1 (he ▸ List.mem_cons_self)
      have hbuf : (u.unqueue b).buf c = s.buf c := by
        rw [hu]
        exact Function.update_of_ne hcb _ _
      have hrange : ¬ ((u.unqueue b).buf c).blockno ≥ FSSIZE := by
        rw [hbuf]
        exact Nat.not_le.mpr (h.range c)
      have hbsy : ¬ (u.unqueue b).drive.bsy = true := by
        rw [show (u.unqueue b).drive.bsy = false by rw [hu]; exact hready]
        exact Bool.false_ne_true
      have hrun := h.unqueue hirq (d := { s.drive with
        irq := false, bsy := true, err := false, regs := command (s.buf c).toCached
        port := if (s.buf c).dirty then (s.buf c).data else s.drive.port }) rfl rfl nofun
        (fun c' l' hc => by cases hc; exact ⟨rfl, rfl, fun hd => if_pos hd⟩)
      rw [idestart, if_neg hrange, if_neg hbsy, hbuf]
      refine ⟨_, rfl, ?_, ?_, ?_, fun c' l' hc => ?_⟩
      all_goals rw [hu]
      · exact hrun.1
      · exact hrun.2
      · rfl
      · cases hc
        exact hserved

omit [DecidableEq P] in
theorem view_name (s : Ide n P) (b : Fin n) :
    (s.view.cached b).dev = (s.buf b).dev ∧ (s.view.cached b).blockno = (s.buf b).blockno := by
  dsimp only [view]
  split <;> exact ⟨rfl, rfl⟩

omit [DecidableEq P] in
theorem view_edit (h : Running s q) (hb : b ∉ q) (x : Cached) :
    (s.setBuf b { s.buf b with toCached := x }).view =
      { s.view with cached := Function.update s.view.cached b x } := by
  have hcached : (s.setBuf b { s.buf b with toCached := x }).view.cached =
      Function.update s.view.cached b x := by
    funext c
    have hbuf : (s.setBuf b { s.buf b with toCached := x }).buf =
        Function.update s.buf b { s.buf b with toCached := x } := rfl
    rcases eq_or_ne c b with he | hne
    · have hhead : s.idequeue ≠ some b := by
        rw [h.head]
        exact fun he => hb (List.mem_of_mem_head? he)
      rw [he, Function.update_self]
      refine (view_unserved (s := s.setBuf b { s.buf b with toCached := x }) (.inl hhead)).trans ?_
      rw [hbuf, Function.update_self]
    · rw [Function.update_of_ne hne]
      dsimp only [view]
      rw [hbuf, Function.update_of_ne hne]
      rfl
  rw [← hcached]
  rfl

/-- A process that is awake in the loop of `iderw` returns when its request is done. -/
theorem waits (h : Running s q) (hp : s.call p = some b) : Running (s.waits p b) q ∧
    ((s.waits p b).view = s.view ∨ Atomic.step s.view (.returns p) = some (s.waits p b).view) ∧
    (s.waits p b).drive = s.drive ∧ ∀ r c, c ∈ q → s.call r = some c → (s.waits p b).call r = some c := by
  rw [Ide.waits]
  split
  next hdone =>
    have hb : b ∉ q := fun hmem => (h.wanted b hmem).1 hdone
    have hstays : ∀ r c, c ∈ q → s.call r = some c → Function.update s.call p none r = some c := by
      intro r c hc hr
      have hne : r ≠ p := by
        intro he
        rw [he, hp] at hr
        cases hr
        exact hb hc
      exact (Function.update_of_ne hne _ _).trans hr
    refine ⟨?_, ?_, rfl, hstays⟩
    · refine ⟨h.stuck, h.disk1, h.links, h.nodup, h.range, h.unique, h.idle, h.started, fun c hc => ?_,
        fun r c hc => ?_, h.root, fun r hr => ?_⟩
      all_goals dsimp only at *
      · obtain ⟨hnd, r, hr⟩ := h.wanted c hc
        exact ⟨hnd, r, hstays r c hc hr⟩
      · rcases eq_or_ne r p with he | hne
        · rw [he, Function.update_self] at hc
          cases hc
        · rw [Function.update_of_ne hne] at hc
          exact h.owned r c hc
      · obtain ⟨c, hc, hrc⟩ := h.sleeps r hr
        exact ⟨c, hc, hstays r c hc hrc⟩
    · right
      dsimp only [Atomic.step]
      rw [show s.view.call p = some b from hp, Option.bind_some, h.view_cached hb, if_pos hdone]
      rfl
  next hnd =>
    have hcall : Function.update s.call p (some b) = s.call := by
      rw [← hp]
      exact Function.update_eq_self p s.call
    have hmem : b ∈ q := (h.owned p b hp).2.resolve_right hnd
    rw [hcall]
    refine ⟨?_, .inl rfl, rfl, fun r c _ hr => hr⟩
    · refine { h with sleeps := fun r hr => ?_ }
      rcases eq_or_ne r p with he | hne
      · exact ⟨b, hmem, he ▸ hp⟩
      · dsimp only at hr
        rw [Function.update_of_ne hne] at hr
        exact h.sleeps r hr

end Running

/-- The block numbers that `bread` gets are those of blocks on the disk. -/
def InRange : IdeAct n P → Prop
  | .assign _ blockno => blockno < FSSIZE
  | _ => True

instance (a : IdeAct n P) : Decidable (InRange a) :=
  match a with
  | .assign _ blockno => inferInstanceAs (Decidable (blockno < FSSIZE))
  | .take .. | .release .. | .modify .. | .bread .. | .bwrite .. | .resume .. | .kill .. | .finish .. | .intr =>
    .isTrue trivial

/-- What a step does to the queue, to a raised interrupt and to who waits. -/
def Moves (s s' : Ide n P) (q q' : List (Fin n)) : IdeAct n P → Prop
  | .intr => q' = q.tail ∧ s'.call = s.call ∧
      ∀ b l, q = b :: l → (s'.buf b).Done ∧ ∀ p, s.call p = some b → s'.asleep p = false
  | .finish _ => q' = q ∧ s'.drive.irq = true ∧ s'.call = s.call
  | _ => q <+: q' ∧ (q ≠ [] → s'.drive = s.drive) ∧
      ∀ p b, b ∈ q → s.call p = some b → s'.call p = some b

omit [DecidableEq P] in
theorem Moves.cases {s s' : Ide n P} {q q' : List (Fin n)} {a : IdeAct n P} (h : Moves s s' q q' a) :
    (a = .intr ∧ q' = q.tail ∧ s'.call = s.call ∧
      ∀ b l, q = b :: l → (s'.buf b).Done ∧ ∀ p, s.call p = some b → s'.asleep p = false) ∨
    (∃ err, a = .finish err ∧ q' = q ∧ s'.drive.irq = true ∧ s'.call = s.call) ∨
    (¬ a.isFinish ∧ q <+: q' ∧ (q ≠ [] → s'.drive = s.drive) ∧
      ∀ p b, b ∈ q → s.call p = some b → s'.call p = some b) := by
  cases a with
  | intr => exact .inl ⟨rfl, h⟩
  | finish err => exact .inr (.inl ⟨err, rfl, h⟩)
  | _ => exact .inr (.inr ⟨Bool.false_ne_true, h⟩)

/-- A request fails when the drive says so. -/
def Causes (a : IdeAct n P) : AtomicAct n P → Prop
  | .serve _ _ err => a = .finish err
  | _ => True

/-- A step to which the queue is `q` keeps the driver in order, and is for the disk a step of
its own or none. -/
def Advances (s s' : Ide n P) (q : List (Fin n)) (a : IdeAct n P) : Prop :=
  ∃ q', Running s' q' ∧ Moves s s' q q' a ∧
    (s'.view = s.view ∨ ∃ c, Causes a c ∧ Atomic.step s.view c = some s'.view)

section Advances

variable {s s' : Ide n P} {q : List (Fin n)} {b : Fin n} {p : P}

omit [DecidableEq P] in
/-- A step that does not go to the driver. -/
theorem Moves.still (q : List (Fin n)) (hd : s'.drive = s.drive) (hc : s'.call = s.call) :
    q <+: q ∧ (q ≠ [] → s'.drive = s.drive) ∧ ∀ p b, b ∈ q → s.call p = some b → s'.call p = some b :=
  ⟨List.prefix_refl q, fun _ => hd, fun _ _ _ hp => hc ▸ hp⟩

/-- A step that adds a request. -/
theorem Moves.joined (hp : s.Holds p b) (hd : q ≠ [] → s'.drive = s.drive)
    (hc : s'.call = Function.update s.call p (some b)) :
    q <+: q ++ [b] ∧ (q ≠ [] → s'.drive = s.drive) ∧
      ∀ r c, c ∈ q → s.call r = some c → s'.call r = some c := by
  refine ⟨List.prefix_append q [b], hd, fun r c _ hr => ?_⟩
  have hne : r ≠ p := by
    intro he
    rw [he, hp.2] at hr
    cases hr
  rw [hc, Function.update_of_ne hne]
  exact hr

theorem Running.assign (h : Running s q) {blockno : Nat} (ha : blockno < FSSIZE)
    (hs : Ide.step s (.assign b blockno) = some s') :
    Advances s s' q (.assign b blockno) := by
  obtain ⟨⟨-, howner, hdirty, hfree⟩, hs⟩ := Option.ite_none_right_eq_some.mp hs
  obtain rfl := Option.some.inj hs
  obtain ⟨hb, hcall⟩ := h.not_mem_free howner
  refine ⟨q, h.edit hb hcall { (s.buf b).toCached with dev := ROOTDEV, blockno := blockno, valid := false }
    ha (fun r hr => rfl) (fun c _ _ hc he => hfree c ⟨hc, he.symm⟩), Moves.still q rfl rfl,
    .inr ⟨.assign b blockno, trivial, ?_⟩⟩
  have hfree' : ∀ c, ¬ ((s.view.cached c).dev = ROOTDEV ∧ (s.view.cached c).blockno = blockno) := by
    intro c
    rw [(view_name s c).1, (view_name s c).2]
    exact hfree c
  rw [Atomic.step, h.view_cached hb, if_pos ⟨howner, hdirty, hfree'⟩]
  exact congrArg some (h.view_edit hb _).symm

theorem Running.take (h : Running s q) (hs : Ide.step s (.take p b) = some s') :
    Advances s s' q (.take p b) := by
  obtain ⟨⟨-, hp, howner, hroot⟩, hs⟩ := Option.ite_none_right_eq_some.mp hs
  obtain rfl := Option.some.inj hs
  obtain ⟨-, hcall⟩ := h.not_mem_free howner
  refine ⟨q, { h with owned := fun r c hc => ?_, root := fun r c hc => ?_ }, Moves.still q rfl rfl,
    .inr ⟨.take p b, trivial, ?_⟩⟩
  · have hne : c ≠ b := fun he => hcall r (he ▸ hc)
    dsimp only
    rw [Function.update_of_ne hne]
    exact h.owned r c hc
  · rcases eq_or_ne c b with he | hne
    · rw [he]
      exact hroot
    · dsimp only at hc
      rw [Function.update_of_ne hne] at hc
      exact h.root r c hc
  · rw [Atomic.step, (view_name s b).1, if_pos ⟨hp, howner, hroot⟩]
    rfl

theorem Running.release (h : Running s q) (hs : Ide.step s (.release p b) = some s') :
    Advances s s' q (.release p b) := by
  obtain ⟨⟨-, hp⟩, hs⟩ := Option.ite_none_right_eq_some.mp hs
  obtain rfl := Option.some.inj hs
  obtain ⟨-, hcall⟩ := h.not_mem hp
  refine ⟨q, { h with owned := fun r c hc => ?_, root := fun r c hc => ?_ }, Moves.still q rfl rfl,
    .inr ⟨.release p b, trivial, ?_⟩⟩
  · have hne : c ≠ b := fun he => hcall r (he ▸ hc)
    dsimp only
    rw [Function.update_of_ne hne]
    exact h.owned r c hc
  · dsimp only at hc
    rcases eq_or_ne c b with he | hne
    · rw [he, Function.update_self] at hc
      cases hc
    · rw [Function.update_of_ne hne] at hc
      exact h.root r c hc
  · rw [Atomic.step, if_pos ⟨hp.1, hp.2⟩]
    rfl

theorem Running.modify (h : Running s q) {data : Block} (hs : Ide.step s (.modify p b data) = some s') :
    Advances s s' q (.modify p b data) := by
  obtain ⟨⟨-, hp, hvalid⟩, hs⟩ := Option.ite_none_right_eq_some.mp hs
  obtain rfl := Option.some.inj hs
  obtain ⟨hb, hcall⟩ := h.not_mem hp
  refine ⟨q, h.write hp { (s.buf b).toCached with data := data, dirty := true } rfl rfl,
    Moves.still q rfl rfl, .inr ⟨.modify p b data, trivial, ?_⟩⟩
  rw [Atomic.step, h.view_cached hb, if_pos ⟨hp.1, hp.2, hvalid⟩]
  exact congrArg some (h.view_edit hb _).symm

theorem Running.bread (h : Running s q) (hs : Ide.step s (.bread p b) = some s') :
    Advances s s' q (.bread p b) := by
  obtain ⟨⟨-, hp⟩, hs⟩ := Option.ite_none_right_eq_some.mp hs
  obtain rfl := Option.some.inj hs
  obtain ⟨hb, hcall⟩ := h.not_mem hp
  split
  · exact ⟨q, h, Moves.still q rfl rfl, .inl rfl⟩
  next hinvalid =>
    obtain ⟨t, ht, hrun, hview, hdrive⟩ := h.request hp (fun hd => hinvalid hd.1)
    rw [ht]
    refine ⟨q ++ [b], hrun, Moves.joined hp hdrive (congrArg Atomic.call hview), .inr ⟨.bread p b, trivial, ?_⟩⟩
    rw [Atomic.step, h.view_cached hb, if_pos ⟨hp.1, hp.2, Bool.eq_false_iff.mpr hinvalid⟩]
    exact congrArg some hview.symm

theorem Running.bwrite (h : Running s q) (hs : Ide.step s (.bwrite p b) = some s') :
    Advances s s' q (.bwrite p b) := by
  obtain ⟨⟨-, hp, hvalid⟩, hs⟩ := Option.ite_none_right_eq_some.mp hs
  obtain rfl := Option.some.inj hs
  obtain ⟨hb, hcall⟩ := h.not_mem hp
  have hdirty := h.write hp { (s.buf b).toCached with dirty := true } rfl rfl
  have hnd : ¬ ((s.setBuf b { s.buf b with dirty := true }).buf b).Done := by
    rw [show (s.setBuf b { s.buf b with dirty := true }).buf b = _ from Function.update_self _ _ _]
    exact fun hd => (nomatch hd.2)
  obtain ⟨t, ht, hrun, hview, hdrive⟩ := hdirty.request hp hnd
  dsimp only
  rw [ht]
  refine ⟨q ++ [b], hrun, Moves.joined hp hdrive (congrArg Atomic.call hview), .inr ⟨.bwrite p b, trivial, ?_⟩⟩
  rw [Atomic.step, h.view_cached hb, if_pos ⟨hp.1, hp.2, hvalid⟩]
  rw [settle, hview, h.view_edit hb]
  rfl

theorem Running.kill (h : Running s q) (hs : Ide.step s (.kill p) = some s') :
    Advances s s' q (.kill p) := by
  obtain ⟨-, hs⟩ := Option.ite_none_right_eq_some.mp hs
  obtain rfl := Option.some.inj hs
  refine ⟨q, { h with sleeps := fun r hr => ?_ }, Moves.still q rfl rfl, .inl rfl⟩
  apply h.sleeps r
  dsimp only at hr
  rcases eq_or_ne r p with he | hne
  · rw [he, Function.update_self] at hr
    cases hr
  · rwa [Function.update_of_ne hne] at hr

theorem Running.step {a : IdeAct n P} (h : Running s q) (ha : InRange a) (hs : Ide.step s a = some s') :
    Advances s s' q a := by
  cases a with
  | assign b blockno => exact h.assign ha hs
  | take p b => exact h.take hs
  | release p b => exact h.release hs
  | modify p b data => exact h.modify hs
  | bread p b => exact h.bread hs
  | bwrite p b => exact h.bwrite hs
  | resume p =>
    obtain ⟨-, hs⟩ := Option.ite_none_right_eq_some.mp hs
    obtain ⟨b, hcall, rfl⟩ := Option.map_eq_some_iff.mp hs
    obtain ⟨hrun, hview, hdrive, hstays⟩ := h.waits hcall
    exact ⟨q, hrun, ⟨List.prefix_refl q, fun _ => hdrive, hstays⟩,
      hview.imp_right fun hv => ⟨.returns p, trivial, hv⟩⟩
  | kill p => exact h.kill hs
  | finish err =>
    obtain ⟨⟨-, hbsy⟩, hs⟩ := Option.ite_none_right_eq_some.mp hs
    obtain rfl := Option.some.inj hs
    obtain ⟨hrun, hirq, p, b, hview⟩ := h.finish hbsy err
    exact ⟨q, hrun, ⟨rfl, hirq, rfl⟩, .inr ⟨.serve p b err, rfl, hview⟩⟩
  | intr =>
    obtain ⟨⟨-, hready⟩, hs⟩ := Option.ite_none_right_eq_some.mp hs
    obtain rfl := Option.some.inj hs
    obtain ⟨t, ht, hrun, hview, hcall, hserved⟩ := h.intr hready
    dsimp only
    rw [ht]
    exact ⟨q.tail, hrun, ⟨rfl, hcall, hserved⟩, .inl hview⟩

end Advances

end Ide

/-! ## A disk without errors -/

/-- The buffers that are valid and not dirty have what the disk has. -/
structure Clean (s : Atomic n P) : Prop where
  unique : ∀ b c, (s.cached b).dev = ROOTDEV → (s.cached c).dev = ROOTDEV →
    (s.cached b).blockno = (s.cached c).blockno → b = c
  owned : ∀ p b, s.call p = some b → s.owner b = some p
  root : ∀ p b, s.owner b = some p → (s.cached b).dev = ROOTDEV
  clean : ∀ b, (s.cached b).Done →
    (s.cached b).dev = ROOTDEV ∧ (s.cached b).data = s.disk ROOTDEV (s.cached b).blockno

namespace Clean

variable {s s' : Atomic n P} {b : Fin n} {p : P}

theorem update_name {f : Fin n → Cached} {x : Cached} (hdev : x.dev = (f b).dev)
    (hno : x.blockno = (f b).blockno) (c : Fin n) :
    (Function.update f b x c).dev = (f c).dev ∧ (Function.update f b x c).blockno = (f c).blockno := by
  rcases eq_or_ne c b with he | hne
  · rw [he, Function.update_self]
    exact ⟨hdev, hno⟩
  · rw [Function.update_of_ne hne]
    exact ⟨rfl, rfl⟩

omit [DecidableEq P] in
/-- A buffer keeps its block, and what is not done needs not be what the disk has. -/
theorem dirty (h : Clean s) (x : Cached) (hdev : x.dev = (s.cached b).dev)
    (hno : x.blockno = (s.cached b).blockno) (hnd : ¬ x.Done) :
    Clean { s with cached := Function.update s.cached b x } := by
  have hname := update_name (f := s.cached) hdev hno
  refine ⟨fun c d hc hd he => ?_, h.owned, fun r c hc => ?_, fun c hc => ?_⟩
  all_goals dsimp only at *
  · rw [(hname c).1] at hc
    rw [(hname d).1] at hd
    rw [(hname c).2, (hname d).2] at he
    exact h.unique c d hc hd he
  · rw [(hname c).1]
    exact h.root r c hc
  · rcases eq_or_ne c b with he | hne
    · rw [he, Function.update_self] at hc
      exact absurd hc hnd
    · rw [Function.update_of_ne hne] at hc ⊢
      exact h.clean c hc

theorem asks (h : Clean s) (hp : s.owner b = some p) (r : P) (c : Fin n)
    (hc : Function.update s.call p (some b) r = some c) : s.owner c = some r := by
  rcases eq_or_ne r p with he | hne
  · rw [he, Function.update_self] at hc
    cases hc
    exact he ▸ hp
  · rw [Function.update_of_ne hne] at hc
    exact h.owned r c hc

theorem assign (h : Clean s) {blockno : Nat} (hs : Atomic.step s (.assign b blockno) = some s') : Clean s' := by
  obtain ⟨⟨howner, hdirty, hfree⟩, hs⟩ := Option.ite_none_right_eq_some.mp hs
  obtain rfl := Option.some.inj hs
  refine ⟨fun c d hc hd he => ?_, h.owned, fun r c hc => ?_, fun c hc => ?_⟩
  all_goals dsimp only at *
  · rcases eq_or_ne c b with hcb | hcb <;> rcases eq_or_ne d b with hdb | hdb
    · rw [hcb, hdb]
    · rw [hcb, Function.update_self, Function.update_of_ne hdb] at he
      rw [Function.update_of_ne hdb] at hd
      exact absurd ⟨hd, he.symm⟩ (hfree d)
    · rw [hdb, Function.update_self, Function.update_of_ne hcb] at he
      rw [Function.update_of_ne hcb] at hc
      exact absurd ⟨hc, he⟩ (hfree c)
    · rw [Function.update_of_ne hcb] at hc he
      rw [Function.update_of_ne hdb] at hd he
      exact h.unique c d hc hd he
  · have hne : c ≠ b := by
      intro he
      rw [he, howner] at hc
      cases hc
    rw [Function.update_of_ne hne]
    exact h.root r c hc
  · rcases eq_or_ne c b with he | hne
    · rw [he, Function.update_self] at hc
      exact (nomatch hc.1)
    · rw [Function.update_of_ne hne] at hc ⊢
      exact h.clean c hc

theorem take (h : Clean s) (hs : Atomic.step s (.take p b) = some s') : Clean s' := by
  obtain ⟨⟨hp, howner, hroot⟩, hs⟩ := Option.ite_none_right_eq_some.mp hs
  obtain rfl := Option.some.inj hs
  refine { h with owned := fun r c hc => ?_, root := fun r c hc => ?_ }
  all_goals dsimp only at *
  · have hne : c ≠ b := by
      intro he
      have := h.owned r c hc
      rw [he, howner] at this
      cases this
    rw [Function.update_of_ne hne]
    exact h.owned r c hc
  · rcases eq_or_ne c b with he | hne
    · rw [he]
      exact hroot
    · rw [Function.update_of_ne hne] at hc
      exact h.root r c hc

theorem release (h : Clean s) (hs : Atomic.step s (.release p b) = some s') : Clean s' := by
  obtain ⟨⟨hp, hcall⟩, hs⟩ := Option.ite_none_right_eq_some.mp hs
  obtain rfl := Option.some.inj hs
  refine { h with owned := fun r c hc => ?_, root := fun r c hc => ?_ }
  all_goals dsimp only at *
  · have hne : c ≠ b := by
      intro he
      have howner := h.owned r c hc
      rw [he, hp] at howner
      cases howner
      rw [hcall] at hc
      cases hc
    rw [Function.update_of_ne hne]
    exact h.owned r c hc
  · rcases eq_or_ne c b with he | hne
    · rw [he, Function.update_self] at hc
      cases hc
    · rw [Function.update_of_ne hne] at hc
      exact h.root r c hc

theorem returns (h : Clean s) (hs : Atomic.step s (.returns p) = some s') : Clean s' := by
  obtain ⟨b, hcall, hs⟩ := Option.bind_eq_some_iff.mp hs
  obtain ⟨-, hs⟩ := Option.ite_none_right_eq_some.mp hs
  obtain rfl := Option.some.inj hs
  refine { h with owned := fun r c hc => ?_ }
  dsimp only at hc
  rcases eq_or_ne r p with he | hne
  · rw [he, Function.update_self] at hc
    cases hc
  · rw [Function.update_of_ne hne] at hc
    exact h.owned r c hc

theorem serve (h : Clean s) (hs : Atomic.step s (.serve p b false) = some s') : Clean s' := by
  obtain ⟨⟨hcall, hnd⟩, hs⟩ := Option.ite_none_right_eq_some.mp hs
  obtain rfl := Option.some.inj hs
  have hroot := h.root p b (h.owned p b hcall)
  rw [hroot]
  obtain ⟨x, hx⟩ : ∃ x, x = (s.cached b).serve false (s.disk ROOTDEV (s.cached b).blockno) := ⟨_, rfl⟩
  rw [← hx]
  have hname := update_name (f := s.cached) (show x.dev = (s.cached b).dev by rw [hx]; rfl)
    (show x.blockno = (s.cached b).blockno by rw [hx]; rfl)
  refine ⟨fun c d hc hd he => ?_, h.owned, fun r c hc => ?_, fun c hc => ?_⟩
  all_goals dsimp only at *
  · rw [(hname c).1] at hc
    rw [(hname d).1] at hd
    rw [(hname c).2, (hname d).2] at he
    exact h.unique c d hc hd he
  · rw [(hname c).1]
    exact h.root r c hc
  · rcases eq_or_ne c b with he | hne
    · rw [he, Function.update_self, hx]
      refine ⟨hroot, ?_⟩
      dsimp only [Cached.serve]
      cases hd : (s.cached b).dirty with
      | false => rfl
      | true =>
        rw [if_neg (fun hn => (nomatch hn.1)), if_pos ⟨rfl, rfl⟩, Function.update_self, Function.update_self]
    · rw [Function.update_of_ne hne] at hc ⊢
      obtain ⟨hdev, hdata⟩ := h.clean c hc
      have hno : (s.cached c).blockno ≠ (s.cached b).blockno :=
        fun he => hne (h.unique c b hdev hroot he)
      refine ⟨hdev, ?_⟩
      split
      · rw [Function.update_self, Function.update_of_ne hno]
        exact hdata
      · exact hdata

theorem step (h : Clean s) {a : AtomicAct n P} (ha : ∀ p b, a ≠ .serve p b true)
    (hs : Atomic.step s a = some s') : Clean s' := by
  cases a with
  | assign b blockno => exact h.assign hs
  | take p b => exact h.take hs
  | release p b => exact h.release hs
  | modify p b data =>
    obtain ⟨⟨hp, -, -⟩, hs⟩ := Option.ite_none_right_eq_some.mp hs
    obtain rfl := Option.some.inj hs
    exact h.dirty _ rfl rfl fun hd => (nomatch hd.2)
  | bread p b =>
    obtain ⟨⟨hp, -, -⟩, hs⟩ := Option.ite_none_right_eq_some.mp hs
    obtain rfl := Option.some.inj hs
    exact { h with owned := h.asks hp }
  | bwrite p b =>
    obtain ⟨⟨hp, -, -⟩, hs⟩ := Option.ite_none_right_eq_some.mp hs
    obtain rfl := Option.some.inj hs
    have hdirty := h.dirty { s.cached b with dirty := true } rfl rfl fun hd => (nomatch hd.2)
    exact { hdirty with owned := h.asks hp }
  | serve p b err =>
    have herr : err = false := Bool.eq_false_iff.mpr fun he => ha p b (he ▸ rfl)
    rw [herr] at hs
    exact h.serve hs
  | returns p => exact h.returns hs

end Clean

/-! ## Runs -/

namespace Ide

/-- What a run comes to: the state of the driver, a run of the disk beside it, and what the
buffers have when no command fails. -/
theorem running_run : ∀ (as : List (IdeAct n P)) (s t : Ide n P) (q : List (Fin n)), Running s q →
    (∀ a ∈ as, InRange a) → Lib.run step s as = some t →
    ∃ q' bs, Running t q' ∧ Lib.run Atomic.step s.view bs = some t.view ∧
      ((∀ a ∈ as, a.fails = false) → Clean s.view → Clean t.view) := by
  intro as
  induction as with
  | nil =>
    intro s t q h _ hr
    cases hr
    exact ⟨q, [], h, rfl, fun _ hc => hc⟩
  | cons a as ih =>
    intro s t q h ha hr
    obtain ⟨m, hs, hr⟩ := Lib.run_cons hr
    obtain ⟨q', hm, -, hview⟩ := h.step (ha a List.mem_cons_self) hs
    obtain ⟨q'', bs, ht, hbs, hclean⟩ := ih m t q' hm (fun b hb => ha b (List.mem_cons_of_mem a hb)) hr
    rcases hview with hview | ⟨c, hcause, hstep⟩
    · refine ⟨q'', bs, ht, hview ▸ hbs, fun hno hc => ?_⟩
      exact hclean (fun b hb => hno b (List.mem_cons_of_mem a hb)) (hview ▸ hc)
    · refine ⟨q'', c :: bs, ht, ?_, fun hno hc => ?_⟩
      · rw [Lib.run, hstep, Option.bind_some]
        exact hbs
      · apply hclean fun b hb => hno b (List.mem_cons_of_mem a hb)
        apply hc.step _ hstep
        rintro p b rfl
        have herr := hno a List.mem_cons_self
        rw [show a = .finish true from hcause] at herr
        cases herr

/-- A request with `pre` before it is done when the drive has finished two commands more than there
are in `pre`, whatever else happens; and then the process is awake. -/
theorem served : ∀ (as : List (IdeAct n P)) (s t : Ide n P) (pre post : List (Fin n)) (b : Fin n) (p : P),
    Running s (pre ++ b :: post) → s.call p = some b → (∀ a ∈ as, InRange a) →
    Lib.run step s as = some t →
    pre.length + 1 < as.countP IdeAct.isFinish + s.drive.irq.toNat →
    ∃ k u, Lib.run step s (as.take k) = some u ∧ u.call p = some b ∧ u.asleep p = false ∧
      (u.buf b).Done := by
  intro as
  induction as with
  | nil =>
    intro s t pre post b p _ _ _ _ hlt
    rw [List.countP_nil] at hlt
    have := Bool.toNat_le s.drive.irq
    omega
  | cons a as ih =>
    intro s t pre post b p h hp ha hr hlt
    obtain ⟨m, hs, hr⟩ := Lib.run_cons hr
    obtain ⟨q', hm, hmoves, -⟩ := h.step (ha a List.mem_cons_self) hs
    have ha' : ∀ b ∈ as, InRange b := fun b hb => ha b (List.mem_cons_of_mem a hb)
    have hmem : b ∈ pre ++ b :: post := List.mem_append_right pre List.mem_cons_self
    have hnext : ∀ pre' post', q' = pre' ++ b :: post' → m.call p = some b →
        pre'.length + 1 < as.countP IdeAct.isFinish + m.drive.irq.toNat →
        ∃ k u, Lib.run step s ((a :: as).take k) = some u ∧ u.call p = some b ∧ u.asleep p = false ∧
          (u.buf b).Done := by
      intro pre' post' hq hcall hlt
      obtain ⟨k, u, hu, hdone⟩ := ih m t pre' post' b p (hq ▸ hm) hcall ha' hr hlt
      refine ⟨k + 1, u, ?_, hdone⟩
      rw [List.take_succ_cons, Lib.run, hs, Option.bind_some]
      exact hu
    rcases hmoves.cases with ⟨rfl, hq, hcall, hserved⟩ | ⟨err, rfl, hq, hirq, hcall⟩ | ⟨hno, hq, hdrive, hcall⟩
    · rw [List.countP_cons_of_neg Bool.false_ne_true] at hlt
      have hirq := Bool.toNat_le s.drive.irq
      cases pre with
      | nil =>
        obtain ⟨hdone, hawake⟩ := hserved b post rfl
        refine ⟨1, m, ?_, hcall ▸ hp, hawake p hp, hdone⟩
        rw [List.take_succ_cons, List.take_zero, Lib.run, hs]
        rfl
      | cons c pre =>
        apply hnext pre post hq (hcall ▸ hp)
        rw [List.length_cons] at hlt
        omega
    · have hlow : s.drive.irq = false := by
        obtain ⟨⟨-, hbsy⟩, -⟩ := Option.ite_none_right_eq_some.mp hs
        obtain ⟨c, l, -, hq', -⟩ := h.first (.inl hbsy)
        rw [(h.started c l hq').2.1, hbsy]
        rfl
      rw [List.countP_cons_of_pos rfl, hlow] at hlt
      apply hnext pre post hq (hcall ▸ hp)
      rw [hirq]
      exact hlt
    · rw [List.countP_cons_of_neg hno] at hlt
      obtain ⟨new, hnew⟩ := hq
      apply hnext pre (post ++ new)
      · rw [← hnew, List.append_assoc]
        rfl
      · exact hcall p b hmem hp
      · rw [hdrive (List.ne_nil_of_mem hmem)]
        exact hlt

/-- A run of the driver is a run of the disk, with the same flags and data in the buffers, the
same blocks on the disk, the same callers and the same returns. -/
theorem ide_refines (disk : Nat → Nat → Block) (as : List (IdeAct n P)) (t : Ide n P)
    (ha : ∀ a ∈ as, InRange a) (hr : Lib.run step (boot disk true) as = some t) :
    ∃ bs, Lib.run Atomic.step (view (boot disk true : Ide n P)) bs = some t.view := by
  obtain ⟨-, bs, -, hbs, -⟩ := running_run as _ t [] (Running.boot disk) ha hr
  exact ⟨bs, hbs⟩

local instance (priority := 2000) bufs_neZero : NeZero 2 := ⟨by decide⟩

/-- Two processes read two blocks at the same time, and the first one writes its block back. -/
def readsAndWrite : List (IdeAct 2 Bool) :=
  [.assign 0 5, .take true 0, .bread true 0, .assign 1 6, .take false 1, .bread false 1, .finish false,
    .intr, .resume true, .modify true 0 fun _ => 7, .bwrite true 0, .finish false, .intr, .resume false,
    .finish false]

theorem ide_refines_readsAndWrite : ∃ t bs,
    Lib.run step (boot (fun _ _ _ => 1) true) readsAndWrite = some t ∧
    Lib.run Atomic.step (view (boot (fun _ _ _ => 1) true : Ide 2 Bool)) bs = some t.view := by
  have hrun : ∃ t, Lib.run step (boot (fun _ _ _ => 1) true) readsAndWrite = some t := ⟨_, rfl⟩
  obtain ⟨t, hr⟩ := hrun
  obtain ⟨bs, hbs⟩ := ide_refines (fun _ _ _ => 1) readsAndWrite t (by decide) hr
  exact ⟨t, bs, hr, hbs⟩

/-- In every state the driver is in order, and if no command fails, what is valid and not dirty is
what the disk has. -/
theorem ide_sound (disk : Nat → Nat → Block) (as : List (IdeAct n P)) (t : Ide n P)
    (ha : ∀ a ∈ as, InRange a) (hr : Lib.run step (boot disk true) as = some t) :
    (∃ q, Running t q) ∧ ((∀ a ∈ as, a.fails = false) →
      ∀ b, (t.buf b).Done → (t.buf b).data = t.drive.disk ROOTDEV (t.buf b).blockno) := by
  obtain ⟨q, -, ht, -, hclean⟩ := running_run as _ t [] (Running.boot disk) ha hr
  refine ⟨⟨q, ht⟩, fun hno b hb => ?_⟩
  have hboot : Clean (view (boot disk true : Ide n P)) := by
    refine ⟨fun b c hb => ?_, fun _ _ h => (nomatch h), fun _ _ h => (nomatch h), fun b hb => ?_⟩
    · exact (nomatch hb)
    · exact (nomatch hb.1)
  have hview : t.view.cached b = (t.buf b).toCached :=
    ht.view_cached fun hmem => (ht.wanted b hmem).1 hb
  have hdata := ((hclean hno hboot).clean b (hview ▸ hb)).2
  rwa [hview] at hdata

theorem ide_sound_readsAndWrite : ∃ t q,
    Lib.run step (boot (fun _ _ _ => 1) true) readsAndWrite = some t ∧ Running t q ∧
    ∀ b, (t.buf b).Done → (t.buf b).data = t.drive.disk ROOTDEV (t.buf b).blockno := by
  have hrun : ∃ t, Lib.run step (boot (fun _ _ _ => 1) true) readsAndWrite = some t := ⟨_, rfl⟩
  obtain ⟨t, hr⟩ := hrun
  obtain ⟨⟨q, hq⟩, hdata⟩ := ide_sound (fun _ _ _ => 1) readsAndWrite t (by decide) hr
  exact ⟨t, q, hr, hq, hdata (by decide)⟩

/-- Who waits for a buffer is awake, with its request done, before the drive has finished more
commands than there are buffers. -/
theorem ide_served (disk : Nat → Nat → Block) (as bs : List (IdeAct n P)) (s t : Ide n P) (p : P) (b : Fin n)
    (ha : ∀ a ∈ as ++ bs, InRange a) (hs : Lib.run step (boot disk true) as = some s)
    (hp : s.call p = some b) (hr : Lib.run step s bs = some t) (hlt : n < bs.countP IdeAct.isFinish) :
    ∃ k u, Lib.run step s (bs.take k) = some u ∧ u.call p = some b ∧ u.asleep p = false ∧
      (u.buf b).Done := by
  obtain ⟨q, -, h, -⟩ := running_run as _ s [] (Running.boot disk)
    (fun a hm => ha a (List.mem_append_left bs hm)) hs
  rcases (h.owned p b hp).2 with hmem | hdone
  · obtain ⟨pre, post, rfl⟩ := List.append_of_mem hmem
    apply served bs s t pre post b p h hp (fun a hm => ha a (List.mem_append_right as hm)) hr
    have hlen := h.length_le
    rw [List.length_append, List.length_cons] at hlen
    omega
  · refine ⟨0, s, rfl, hp, ?_, hdone⟩
    apply Bool.eq_false_iff.mpr
    intro hasleep
    obtain ⟨c, hc, hpc⟩ := h.sleeps p hasleep
    rw [hp] at hpc
    cases hpc
    exact (h.wanted b hc).1 hdone

theorem ide_served_readsAndWrite : ∃ s k u,
    Lib.run step (boot (fun _ _ _ => 1) true) (readsAndWrite.take 6) = some s ∧
    Lib.run step s ((readsAndWrite.drop 6).take k) = some u ∧ u.call false = some 1 ∧
    u.asleep false = false ∧ (u.buf 1).Done := by
  have hrun : ∃ s t, Lib.run step (boot (fun _ _ _ => 1) true) (readsAndWrite.take 6) = some s ∧
      s.call false = some 1 ∧ Lib.run step s (readsAndWrite.drop 6) = some t := ⟨_, _, rfl, rfl, rfl⟩
  obtain ⟨s, t, hs, hp, hr⟩ := hrun
  obtain ⟨k, u, hu, hdone⟩ := ide_served (fun _ _ _ => 1) (readsAndWrite.take 6) (readsAndWrite.drop 6)
    s t false 1 (by decide) hs hp hr (by decide)
  exact ⟨s, k, u, hs, hu, hdone⟩

end Ide

end Machine

end Xv6.Dev
