import Xv6.Fs.Block
import Xv6.Lib.RedoLog

/- The buffer cache and the log of the file-system kernel
   (`project3_filesystem/bio.c`, `log.c`, `ide.c`), as one process uses them.

   The state has the disk, the buffers in the order of the list from `head.next`
   to `head.prev`, and the log. A call either returns or faults: it panics, or the
   process waits for a lock that it holds itself. The state at a fault is kept,
   because the disk survives it.

   A buffer is named by its block number; there is one device. `writes` and
   `flushes` record what happened and are read by no modelled code: every block
   written to the disk, in issue order, and for every flush started by `bget` the
   blocks the caller held and the blocks recorded in the log. -/
namespace Xv6.Fs

abbrev MAXOPBLOCKS : Nat := 10
abbrev NBUF : Nat := MAXOPBLOCKS * 5
abbrev NRESBUF : Nat := 2
abbrev LOGSIZE : Nat := MAXOPBLOCKS * 5 + NRESBUF

/-- `struct buf`; `blockno` is `none` until the buffer is first assigned to a
block, `valid` and `dirty` are `B_VALID` and `B_DIRTY`. -/
structure Buf where
  blockno : Option Nat := none
  valid : Bool := false
  dirty : Bool := false
  locked : Bool := false
  refcnt : Nat := 0
  data : Block := Block.zero

/-- A flush started by `bget`: the blocks whose buffers the caller holds, and the
blocks in `log.lh`. -/
structure Flush where
  held : List Nat
  lh : List Nat
  deriving DecidableEq, Repr

/-- The disk, the buffer cache and `struct log`. `start` and `size` are
`log.start` and `log.size`. -/
structure Store where
  disk : Nat → Block
  bufs : List Buf
  start : Nat
  size : Nat
  lh : List Nat := []
  outstanding : Nat := 0
  committing : Bool := false
  synchronizing : Nat := 0
  writes : List (Nat × Block) := []
  flushes : List Flush := []

/-- How a call can fail to return: a panic; a wait for the lock of buffer `b`,
which the process holds itself; a wait for a wakeup that nobody is left to give.
`unheld`: the call is made without the buffer it works on. -/
inductive Fault where
  | panic (msg : String)
  | deadlock (b : Nat)
  | asleep
  | unheld (b : Nat)
  deriving DecidableEq, Repr

abbrev M := EStateM Fault Store

namespace Buf

/-- The buffer can be recycled. -/
def free (x : Buf) : Bool := x.refcnt = 0 ∧ x.dirty = false

/-- The buffer as `bget` takes it for block `b`. -/
def assign (b : Nat) (x : Buf) : Buf :=
  { x with blockno := some b, valid := false, dirty := false, refcnt := 1, locked := true }

/-- One more reference, and the lock. -/
def lock (x : Buf) : Buf := { x with refcnt := x.refcnt + 1, locked := true }

def unlock (x : Buf) : Buf := { x with refcnt := x.refcnt - 1, locked := false }

/-- Read from the disk. -/
def fill (d : Block) (x : Buf) : Buf := { x with data := d, valid := true }

/-- New data, written to the disk. -/
def put (d : Block) (x : Buf) : Buf := { x with data := d, valid := true, dirty := false }

/-- New data, recorded in the log. -/
def log (d : Block) (x : Buf) : Buf := { x with data := d, dirty := true }

end Buf

namespace Store

def find (s : Store) (b : Nat) : Option Buf := s.bufs.find? (fun x => x.blockno = some b)

def modBuf (s : Store) (b : Nat) (f : Buf → Buf) : Store :=
  { s with bufs := s.bufs.map (fun x => if x.blockno = some b then f x else x) }

/-- The count `bget` starts with. -/
def avail (s : Store) : Nat := s.bufs.countP Buf.free

/-- The blocks whose buffers are locked. -/
def held (s : Store) : List Nat := (s.bufs.filter (·.locked)).filterMap (·.blockno)

/-- `bget` starts a flush in this state. -/
def needsFlush (s : Store) : Bool := s.avail ≤ NRESBUF ∧ s.synchronizing = 0

end Store

/-! ## bio.c -/

/-- Assign the last buffer of the list that can be recycled to block `b`. Nobody
refers to it, so its lock is free. -/
def recycle (b : Nat) : List Buf → Option (List Buf)
  | [] => none
  | x :: xs =>
    match recycle b xs with
    | some ys => some (x :: ys)
    | none =>
      if x.free then some (x.assign b :: xs) else none

/-- `bget` behind its flush. -/
def bgetFind (b : Nat) : M Unit := fun s =>
  match s.find b with
  | some x =>
    if x.locked then .error (.deadlock b) (s.modBuf b Buf.lock)
    else .ok () (s.modBuf b Buf.lock)
  | none =>
    match recycle b s.bufs with
    | some bufs => .ok () { s with bufs := bufs }
    | none => .error (.panic "bget: no buffers") s

/-- `iderw` on a buffer that is not valid. -/
def iderwRead (b : Nat) : M Block := fun s =>
  match s.find b with
  | some x =>
    if x.valid then .ok x.data s
    else .ok (s.disk b) (s.modBuf b (Buf.fill (s.disk b)))
  | none => .error (.unheld b) s

/-- `memmove` of `data` into the held buffer of `b`, and `bwrite`. -/
def bwrite (b : Nat) (data : Block) : M Unit := fun s =>
  match s.find b with
  | some x =>
    if x.locked then
      .ok () { s.modBuf b (Buf.put data) with
        disk := Lib.RedoLog.upd s.disk b data, writes := s.writes ++ [(b, data)] }
    else .error (.panic "bwrite") s
  | none => .error (.panic "bwrite") s

/-- Release the buffer of `b`; it goes to the front of the list if it is not in
use any more. -/
def brelse (b : Nat) : M Unit := fun s =>
  match s.find b with
  | some x =>
    if x.locked then
      if x.unlock.refcnt = 0 then
        .ok () { s with bufs := x.unlock :: s.bufs.filter (fun y => y.blockno ≠ some b) }
      else .ok () (s.modBuf b Buf.unlock)
    else .error (.panic "brelse") s
  | none => .error (.panic "brelse") s

/-- `bget`; `flush` is its call of `sync1(0)`. -/
def bgetWith (flush : M Unit) (b : Nat) : M Unit := do
  let s ← get
  if s.needsFlush then
    modify (fun s => { s with
      synchronizing := s.synchronizing + 1
      flushes := s.flushes ++ [{ held := s.held, lh := s.lh }] })
    flush
    modify (fun s => { s with synchronizing := 0 })
  bgetFind b

def breadWith (flush : M Unit) (b : Nat) : M Block := do
  bgetWith flush b
  iderwRead b

/-! ## log.c -/

/-- `bread` as a commit calls it. The flag `synchronizing` is set then, so that
`bget` starts no flush (`breadWith_synchronizing`). -/
def breadIn (b : Nat) : M Block := breadWith (throw .asleep) b

/-- The loop of `install_trans`, from `tail` on; `rd` is `bread`. -/
def installFrom (rd : Nat → M Block) : Nat → List Nat → M Unit
  | _, [] => pure ()
  | tail, b :: bs => do
    let s ← get
    let lbuf ← rd (s.start + 1 + tail)
    let _ ← rd b
    bwrite b lbuf
    brelse (s.start + 1 + tail)
    brelse b
    installFrom rd (tail + 1) bs

def installTrans (rd : Nat → M Block) : M Unit := do
  installFrom rd 0 (← get).lh

def readHead (rd : Nat → M Block) : M Unit := do
  let s ← get
  let buf ← rd s.start
  modify (fun s => { s with lh := buf.header })
  brelse s.start

def writeHead (rd : Nat → M Block) : M Unit := do
  let s ← get
  let buf ← rd s.start
  bwrite s.start (buf.setHeader s.lh)
  brelse s.start

/-- The loop of `write_log`, from `tail` on. -/
def writeLogFrom (rd : Nat → M Block) : Nat → List Nat → M Unit
  | _, [] => pure ()
  | tail, b :: bs => do
    let s ← get
    let _ ← rd (s.start + 1 + tail)
    let buf ← rd b
    bwrite (s.start + 1 + tail) buf
    brelse b
    brelse (s.start + 1 + tail)
    writeLogFrom rd (tail + 1) bs

def writeLog (rd : Nat → M Block) : M Unit := do
  writeLogFrom rd 0 (← get).lh

def clearLh : M Unit := modify (fun s => { s with lh := [] })

def commit : M Unit := do
  if (← get).committing = false then throw (.panic "in commit, log.committing 0")
  if (← get).lh.length > 0 then
    writeLog breadIn
    writeHead breadIn
    installTrans breadIn
    clearLh
    writeHead breadIn

/-- `sync1` in a single process: a call of `sync` that finds a commit in progress
would sleep with nobody left to wake it. -/
def sync1 (isSyscall : Bool) : M Int := do
  if isSyscall && (← get).committing then throw .asleep
  modify (fun s => { s with committing := true })
  let n := (← get).lh.length
  commit
  modify (fun s => { s with committing := false })
  if (← get).lh.length ≠ 0 then return -1
  return n

def sysSync : M Int := do
  modify (fun s => { s with synchronizing := 1 })
  let res ← sync1 true
  modify (fun s => { s with synchronizing := 0 })
  return res

/-- `sync1(0)` as `bget` calls it. -/
def flush : M Unit := do
  let _ ← sync1 false

def bread (b : Nat) : M Block := breadWith flush b

/-- `memmove` of `data` into the held buffer of `b`, and `log_write`. -/
def logWrite (b : Nat) (data : Block) : M Unit := fun s =>
  match s.find b with
  | some x =>
    if x.locked then
      if s.lh.length ≥ LOGSIZE ∨ s.lh.length ≥ s.size - 1 then
        .error (.panic "too big a transaction") s
      else
        .ok () { s.modBuf b (Buf.log data) with
          lh := if b ∈ s.lh then s.lh else s.lh ++ [b] }
    else .error (.unheld b) s
  | none => .error (.unheld b) s

def beginOp : M Unit := do
  if (← get).committing then throw .asleep
  modify (fun s => { s with outstanding := s.outstanding + 1 })

def endOp : M Unit := do
  modify (fun s => { s with outstanding := s.outstanding - 1 })
  if (← get).committing then throw .asleep

def recoverFromLog : M Unit := do
  readHead bread
  installTrans bread
  clearLh
  writeHead bread

/-- The kernel starts with the disk `d`: `binit`, and the log area of the
superblock. -/
def reboot (start size : Nat) (d : Nat → Block) : Store :=
  { disk := d, bufs := List.replicate NBUF {}, start := start, size := size }

end Xv6.Fs
