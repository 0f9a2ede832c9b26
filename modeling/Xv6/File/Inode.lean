import Xv6.Fs.Block

/- Block allocation, the block map and the contents of inodes
   (`project3_filesystem/fs.c`, `fs.h`).

   The functions work on the blocks as the buffer cache shows them: `bread` is the
   current contents of a block and `logWrite` replaces them. The free map and the inode
   blocks are kept apart from the other blocks, as a bit for every block and a `dinode`
   for every inode number. An inode that a process has locked is passed to a function as
   a value, and what the function changes in it is returned. A panic ends the run. -/
namespace Xv6.File

open Fs (Block BSIZE)

abbrev NDIRECT : Nat := 10
abbrev NINDIRECT : Nat := 128
abbrev NDOUBLE : Nat := NINDIRECT * NINDIRECT
abbrev NTRIPLE : Nat := NINDIRECT * NINDIRECT * NINDIRECT
abbrev MAXFILE : Nat := NDIRECT + NINDIRECT + NDOUBLE + NTRIPLE
abbrev BPB : Nat := BSIZE * 8
abbrev ROOTINO : Nat := 1
abbrev DIRSIZ : Nat := 14

instance (priority := 2000) addrs_neZero : NeZero (NDIRECT + 1) := ⟨by decide⟩
instance (priority := 2000) roots_neZero : NeZero 13 := ⟨by decide⟩

theorem lt_roots {n : Nat} (h : n < 10) : n < 13 := by omega

/-- `struct superblock`; `size` is a `uint`, and not all blocks are data blocks. -/
structure Superblock where
  size : Nat
  nblocks : Nat
  ninodes : Nat
  nlog : Nat
  logstart : Nat
  inodestart : Nat
  bmapstart : Nat
  size_lt : size < 2 ^ 32
  nblocks_lt : nblocks < size
  deriving DecidableEq

/-- The number of blocks before the data blocks. -/
def Superblock.nmeta (sb : Superblock) : Nat := sb.size - sb.nblocks

/-- The `type` of an inode; `none` is 0, a free inode. -/
inductive FileType where
  | none
  | T_DIR
  | T_FILE
  | T_DEV
  | T_SYM
  deriving DecidableEq, Repr

/-- `struct dinode`. -/
structure Dinode where
  type : FileType := .none
  major : Int16 := 0
  minor : Int16 := 0
  nlink : Int16 := 0
  size : Nat := 0
  addrs : Fin (NDIRECT + 1) → Nat := fun _ => 0
  D_addr : Nat := 0
  T_addr : Nat := 0
  deriving DecidableEq

namespace Dinode

/-- The thirteen pointers of an inode: `addrs`, `D_addr` and `T_addr`. -/
def root (ip : Dinode) (r : Fin 13) : Nat :=
  if h : r.val < 11 then ip.addrs ⟨r.val, h⟩ else if r = 11 then ip.D_addr else ip.T_addr

def setRoot (ip : Dinode) (r : Fin 13) (addr : Nat) : Dinode :=
  if h : r.val < 11 then { ip with addrs := Function.update ip.addrs ⟨r.val, h⟩ addr }
  else if r = 11 then { ip with D_addr := addr } else { ip with T_addr := addr }

/-- A regular file or a directory: its pointers are pointers. -/
def isFile (ip : Dinode) : Prop := ip.type = .T_FILE ∨ ip.type = .T_DIR

instance isFile.decidable (ip : Dinode) : Decidable ip.isFile := inferInstanceAs (Decidable (_ ∨ _))

theorem root_setRoot (ip : Dinode) (r r' : Fin 13) (addr : Nat) :
    (ip.setRoot r addr).root r' = if r' = r then addr else ip.root r' := by
  have hcases : ∀ x : Fin 13, x.val < 11 ∨ x = 11 ∨ x = 12 := by decide
  rcases hcases r with h | rfl | rfl
  · rcases hcases r' with h' | rfl | rfl
    · simp [root, setRoot, h, h', Function.update_apply, Fin.ext_iff]
    · have hne : (11 : Fin 13) ≠ r := fun he => by simp [← he] at h
      simp [root, setRoot, h, hne]
    · have hne : (12 : Fin 13) ≠ r := fun he => by simp [← he] at h
      simp [root, setRoot, h, hne]
  · rcases hcases r' with h' | rfl | rfl
    · have hne : r' ≠ 11 := fun he => by simp [he] at h'
      simp [root, setRoot, h', hne]
    · simp [root, setRoot]
    · simp [root, setRoot]
  · rcases hcases r' with h' | rfl | rfl
    · have hne : r' ≠ 12 := fun he => by simp [he] at h'
      simp [root, setRoot, h', hne]
    · simp [root, setRoot]
    · simp [root, setRoot]

@[simp] theorem setRoot_type (ip : Dinode) (r : Fin 13) (addr : Nat) :
    (ip.setRoot r addr).type = ip.type := by
  unfold setRoot
  split
  · rfl
  · split <;> rfl

@[simp] theorem setRoot_size (ip : Dinode) (r : Fin 13) (addr : Nat) :
    (ip.setRoot r addr).size = ip.size := by
  unfold setRoot
  split
  · rfl
  · split <;> rfl

end Dinode

/-- An inode in memory: its number and the copy of its `dinode`. -/
structure Inode extends Dinode where
  inum : Nat

structure Disk where
  bitmap : Nat → Bool
  dinode : Nat → Dinode
  block : Nat → Block

namespace Disk

def setBlock (d : Disk) (b : Nat) (data : Block) : Disk :=
  { d with block := Function.update d.block b data }

def setBit (d : Disk) (b : Nat) (x : Bool) : Disk :=
  { d with bitmap := Function.update d.bitmap b x }

def setDinode (d : Disk) (i : Nat) (di : Dinode) : Disk :=
  { d with dinode := Function.update d.dinode i di }

end Disk

abbrev FsM := EStateM String Disk

/-! ## Blocks -/

def bread (b : Nat) : FsM Block := do
  return (← get).block b

def logWrite (b : Nat) (data : Block) : FsM Unit :=
  modify fun d => d.setBlock b data

def bzero (bno : Nat) : FsM Unit := logWrite bno Block.zero

/-- The inner loop of `balloc`: `n` bits from bit `bi` of the free map block of block `b`. -/
def scanBits (sb : Superblock) (bitmap : Nat → Bool) (b : Nat) : Nat → Nat → Option Nat
  | 0, _ => none
  | n + 1, bi =>
    if b + bi < sb.size then
      if bitmap (b + bi) = false then some (b + bi) else scanBits sb bitmap b n (bi + 1)
    else none

/-- The outer loop of `balloc`, over at most `n` blocks of the free map. -/
def scanBlocks (sb : Superblock) (bitmap : Nat → Bool) : Nat → Nat → Option Nat
  | 0, _ => none
  | n + 1, b =>
    if b < sb.size then
      match scanBits sb bitmap b BPB 0 with
      | some x => some x
      | none => scanBlocks sb bitmap n (b + BPB)
    else none

def balloc (sb : Superblock) : FsM Nat := do
  match scanBlocks sb (← get).bitmap (sb.size / BPB + 1) 0 with
  | some b => do
    modify fun d => d.setBit b true  -- Mark block in use.
    bzero b
    return b
  | none => throw "balloc: out of blocks"

def bfree (b : Nat) : FsM Unit := do
  if (← get).bitmap b = false then throw "freeing free block"
  modify fun d => d.setBit b false

/-! ## The block map -/

def bmapstep (sb : Superblock) (addr idx : Nat) : FsM Nat := do
  let a ← bread addr
  if a.word idx = 0 then
    let addr' ← balloc sb
    logWrite addr (a.setWord idx addr')
    return addr'
  else
    return a.word idx

/-- `if((addr = ip->X) == 0) ip->X = addr = balloc(ip->dev)` for a pointer `X` of the inode. -/
def bmaproot (sb : Superblock) (ip : Dinode) (r : Fin 13) : FsM (Dinode × Nat) := do
  if ip.root r = 0 then
    let addr ← balloc sb
    return (ip.setRoot r addr, addr)
  else
    return (ip, ip.root r)

/-- The single-indirect range repeats the text of `bmapstep` in place. -/
def bmap (sb : Superblock) (ip : Dinode) (bn : Nat) : FsM (Dinode × Nat) :=
  if h : bn < NDIRECT then
    bmaproot sb ip ⟨bn, by simp only [NDIRECT] at h; omega⟩
  else
  let bn := bn - NDIRECT
  if bn < NINDIRECT then do
    let (ip, addr) ← bmaproot sb ip 10
    let addr ← bmapstep sb addr bn
    return (ip, addr)
  else
  let bn := bn - NINDIRECT
  if bn < NDOUBLE then do
    let (ip, addr) ← bmaproot sb ip 11
    let addr ← bmapstep sb addr (bn / NINDIRECT)
    let addr ← bmapstep sb addr (bn % NINDIRECT)
    return (ip, addr)
  else
  let bn := bn - NDOUBLE
  if bn < NTRIPLE then do
    let (ip, addr) ← bmaproot sb ip 12
    let addr ← bmapstep sb addr (bn / (NINDIRECT * NINDIRECT))
    let bn := bn % (NINDIRECT * NINDIRECT)
    let addr ← bmapstep sb addr (bn / NINDIRECT)
    let addr ← bmapstep sb addr (bn % NINDIRECT)
    return (ip, addr)
  else throw "bmap: out of range"

/-! ## Inodes -/

def iupdate (ip : Inode) : FsM Unit :=
  modify fun d => d.setDinode ip.inum ip.toDinode

/-- Free every block that the block `a` of pointers names. -/
def bfreeWords (a : Block) : FsM Unit :=
  (List.range NINDIRECT).forM fun j => if a.word j ≠ 0 then bfree (a.word j) else pure ()

def freeDouble (ip : Dinode) (addr : Nat) : FsM Unit := do
  let a ← bread addr
  (List.range NINDIRECT).forM fun i =>
    if a.word i ≠ 0 then do
      let b ← bread (a.word i)
      bfreeWords b
      bfree (a.word i)
    else pure ()
  bfree ip.D_addr

/-- The parts of `itrunc`, one for each kind of pointer. -/
def truncDirect (ip : Dinode) (i : Fin (NDIRECT + 1)) : FsM Dinode := do
  if ip.addrs i ≠ 0 then
    bfree (ip.addrs i)
    return { ip with addrs := Function.update ip.addrs i 0 }
  else return ip

def truncIndirect (ip : Dinode) : FsM Dinode := do
  if ip.addrs 10 ≠ 0 then
    let a ← bread (ip.addrs 10)
    bfreeWords a
    bfree (ip.addrs 10)
    return { ip with addrs := Function.update ip.addrs 10 0 }
  else return ip

def truncDouble (ip : Dinode) : FsM Dinode := do
  if ip.D_addr ≠ 0 then
    freeDouble ip ip.D_addr
    return { ip with D_addr := 0 }
  else return ip

def truncTriple (ip : Dinode) : FsM Dinode := do
  if ip.T_addr ≠ 0 then
    let a ← bread ip.T_addr
    (List.range NINDIRECT).forM fun j =>
      if a.word j ≠ 0 then freeDouble ip (a.word j) else pure ()
    bfree ip.T_addr
    return { ip with T_addr := 0 }
  else return ip

def itrunc (ip : Inode) : FsM Inode := do
  let di ← (List.finRange NDIRECT).foldlM (fun di i => truncDirect di i.castSucc) ip.toDinode
  let di ← truncIndirect di
  let di ← truncDouble di
  let di ← truncTriple di
  let ip := { ip with toDinode := { di with size := 0 } }
  iupdate ip
  return ip

/-! ## The contents of regular files and directories -/

/-- A `uint` returned as an `int`. -/
def asInt (n : Nat) : Int := if n < 2 ^ 31 then n else n - 2 ^ 32

/-- `memmove(data + start, src, m)`. -/
def blit (b : Block) (start m : Nat) (src : Nat → UInt8) : Block := fun i =>
  if start ≤ i.val ∧ i.val < start + m then src (i.val - start) else b i

/-- The `m` bytes from `data + start` on. -/
def bytesOf (b : Block) (start m : Nat) : List UInt8 :=
  (List.range m).map fun i => if h : start + i < BSIZE then b ⟨start + i, h⟩ else 0

/-- The loop of `readi`: `n` bytes are left to read from `off` on. Every pass reads at
least one of them, so that `n` passes are enough. -/
def readLoop (sb : Superblock) : Nat → Inode → Nat → Nat → FsM (Inode × List UInt8)
  | 0, ip, _, _ => return (ip, [])
  | fuel + 1, ip, off, n =>
    if n = 0 then return (ip, [])
    else do
      let (di, b) ← bmap sb ip.toDinode (off / BSIZE)
      let data ← bread b
      let m := min n (BSIZE - off % BSIZE)
      let (ip, rest) ← readLoop sb fuel { ip with toDinode := di } (off + m) (n - m)
      return (ip, bytesOf data (off % BSIZE) m ++ rest)

/-- `readi` from its test of `off` on: what it does with an inode that is neither a
symbolic link nor a device. The bytes are those that it stores at `dst`. -/
def readiFile (sb : Superblock) (ip : Inode) (off n : UInt32) : FsM (Int × Inode × List UInt8) := do
  if off.toNat > ip.size ∨ off + n < off then return (-1, ip, [])
  let n := if (off + n).toNat > ip.size then ip.size - off.toNat else n.toNat
  let (ip, bytes) ← readLoop sb n ip off.toNat n
  return (asInt n, ip, bytes)

/-- The loop of `writei`, with the offset it ends at. -/
def writeLoop (sb : Superblock) : Nat → Inode → (Nat → UInt8) → Nat → Nat → FsM (Inode × Nat)
  | 0, ip, _, off, _ => return (ip, off)
  | fuel + 1, ip, src, off, n =>
    if n = 0 then return (ip, off)
    else do
      let (di, b) ← bmap sb ip.toDinode (off / BSIZE)
      let data ← bread b
      let m := min n (BSIZE - off % BSIZE)
      logWrite b (blit data (off % BSIZE) m src)
      writeLoop sb fuel { ip with toDinode := di } (fun i => src (i + m)) (off + m) (n - m)

/-- `writei` from its test of `off` on. -/
def writeiFile (sb : Superblock) (ip : Inode) (src : Nat → UInt8) (off n : UInt32) :
    FsM (Int × Inode) := do
  if off.toNat > ip.size ∨ off + n < off then return (-1, ip)
  if (off + n).toNat > MAXFILE * BSIZE then return (-1, ip)
  let (ip, off') ← writeLoop sb n.toNat ip src off.toNat n.toNat
  if n > 0 ∧ off' > ip.size then
    let ip := { ip with size := off' }
    iupdate ip
    return (asInt n.toNat, ip)
  return (asInt n.toNat, ip)

end Xv6.File
