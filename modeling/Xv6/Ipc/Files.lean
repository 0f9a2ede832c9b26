import Xv6.Lib.Refs
import Xv6.Ipc.Pipe

/- Open files (`file.c`, `pipe.c`, the descriptor calls of `sysfile.c`, and what `fork` and
   `exit` do with descriptors), for any number of processes. This is the code of
   `project1_scheduler`, where a process is one thread and there are no symbolic links: in
   `project3_filesystem` a `readi` or `writei` of a link keeps the reference that its `namei`
   has got, and the count of that inode is too high from then on.

   A step is one section under `ftable.lock`, under the lock of a pipe, or under
   `icache.lock`. What a process does to its own `ofile[]` in between is seen by nobody
   else and belongs to the step before or after it. What a process still has to do in its
   system call is its `todo`. What is in an inode is left out, and with it the check of
   `filewrite` that `writei` has written what it was asked to.

   What is proved: in every state of every run the reference count of a file is the
   number of descriptors for it and of calls that still own one, and likewise for inodes
   and the two ends of each pipe (`counts_exact`); so no check of `file.c` panics, a pipe
   is never used after its page was freed, and `pipeclose` is called once for each end,
   when nobody is in a call on it (`files_sound`). This is the promise on which the pipe
   of the module before rests. -/
namespace Xv6.Ipc

open Lib.Refs (Balanced)

abbrev NFILE : Nat := 100
abbrev NOFILE : Nat := 16

/-- A `struct file *`: the index in `ftable.file[]`. -/
abbrev Fid := Fin NFILE

inductive FdType where
  | FD_NONE
  | FD_PIPE
  | FD_INODE
  deriving DecidableEq, Repr

/-- `struct file`; a pipe is known by its page and an inode by its number. -/
structure File where
  type : FdType := .FD_NONE
  ref : Int := 0
  readable : Bool := false
  writable : Bool := false
  pipe : Nat := 0
  ip : Nat := 0
  deriving DecidableEq

def File.permits (x : File) (writing : Bool) : Bool := if writing then x.writable else x.readable

/-- What a process has still to do in the kernel: `fileclose` of a file and, when it was the
last reference, of the copy `ff`; the loops of `exit` and `fork` from a descriptor on;
`pipealloc` behind its first and its second `filealloc`; a call of `pipewrite` or
`piperead` on a file. -/
inductive Job (P : Type) where
  | close (f : Fid)
  | release (ff : File)
  | exit (fd : Nat)
  | fork (np : P) (fd : Nat)
  | pipe1 (f0 : Fid)
  | pipe2 (f0 f1 : Fid)
  | inPipe (f : Fid)

inductive Life where
  | unused
  | embryo
  | alive
  | zombie
  deriving DecidableEq, Repr

/-- `held` are the inodes that the file-system calls of the process have got from `namei`
and the like and not put back. -/
structure Proc (P : Type) where
  life : Life := .unused
  todo : List (Job P) := []
  ofile : Fin NOFILE → Option Fid := fun _ => none
  cwd : Option Nat := none
  held : List Nat := []

def Proc.does {P : Type} (x : Proc P) (js : List (Job P)) : Proc P := { x with todo := js }

/-- `page k` is the pipe in page `k`, if there is one; `iref` are the counts of the inodes
in memory; `fault` is the panic or the wild access that ended the run. -/
structure System (P : Type) where
  file : Fid → File
  proc : P → Proc P
  page : Nat → Option (Plumbing P)
  iref : Nat → Int
  killed : P → Bool
  fault : Option String

inductive FileAct (P : Type) where
  | iget (p : P) (i : Nat)
  | iput (p : P) (i : Nat)
  | chdir (p : P) (i : Nat)
  | sysOpen (p : P) (i : Nat) (readable writable : Bool)
  | sysDup (p : P) (fd : Fin NOFILE)
  | sysClose (p : P) (fd : Fin NOFILE)
  | sysWrite (p : P) (fd : Fin NOFILE) (bytes : List UInt8)
  | sysRead (p : P) (fd : Fin NOFILE) (n : Nat)
  | sysPipe (p : P)
  | fork (p np : P)
  | exit (p : P)
  | wait (np : P)
  | kill (p : P) (late : Bool)
  | go (p : P) (page : Option (Nat × (Fin PIPESIZE → UInt8)))

/-- `fdalloc`. -/
def fdalloc (ofile : Fin NOFILE → Option Fid) (f : Fid) : Option (Fin NOFILE → Option Fid) :=
  ((List.finRange NOFILE).find? fun fd => ofile fd = none).map fun fd =>
    Function.update ofile fd (some f)

namespace System

variable {P : Type} [DecidableEq P]

def setFile (s : System P) (f : Fid) (x : File) : System P :=
  { s with file := Function.update s.file f x }

def setProc (s : System P) (p : P) (x : Proc P) : System P :=
  { s with proc := Function.update s.proc p x }

def setTodo (s : System P) (p : P) (js : List (Job P)) : System P :=
  s.setProc p ((s.proc p).does js)

def setPage (s : System P) (k : Nat) (w : Option (Plumbing P)) : System P :=
  { s with page := Function.update s.page k w }

def setIref (s : System P) (i : Nat) (n : Int) : System P :=
  { s with iref := Function.update s.iref i n }

def fail (s : System P) (msg : String) : System P := { s with fault := some msg }

/-- The process is in user mode, or between two calls of a system call. -/
def user (s : System P) (p : P) : Bool := (s.proc p).life = .alive && (s.proc p).todo.isEmpty

/-- `filealloc`: the file that it sets up. -/
def filealloc (s : System P) : Option Fid :=
  (List.finRange NFILE).find? fun f => (s.file f).ref = 0

/-- `filedup`, up to the panic. -/
def filedup (s : System P) (f : Fid) : Option (System P) :=
  if (s.file f).ref < 1 then none
  else some (s.setFile f { s.file f with ref := (s.file f).ref + 1 })

/-- The part of `fileclose` under the lock; `js` is what comes after the call. -/
def fileclose (s : System P) (p : P) (f : Fid) (js : List (Job P)) : System P :=
  let x := s.file f
  if x.ref < 1 then s.fail "fileclose"
  else if 0 < x.ref - 1 then (s.setFile f { x with ref := x.ref - 1 }).setTodo p js
  else (s.setFile f { x with ref := 0, type := .FD_NONE }).setTodo p (.release x :: js)

/-- The part of `fileclose` behind the lock. -/
def release (s : System P) (p : P) (ff : File) (js : List (Job P)) : System P :=
  match ff.type with
  | .FD_NONE => s.setTodo p js
  | .FD_PIPE =>
    match s.page ff.pipe with
    | none => s.fail "pipeclose"
    | some w =>
      let w := w.pipeclose ff.writable
      (s.setPage ff.pipe (if w.freed then none else some w)).setTodo p js
  | .FD_INODE => (s.setIref ff.ip (s.iref ff.ip - 1)).setTodo p js

/-- A call on the pipe of `f`, started or gone on with. -/
def pipeCall (s : System P) (p : P) (f : Fid) (a : PipeAct P) : Option (System P) :=
  match s.page (s.file f).pipe with
  | none => some (s.fail "freed pipe")
  | some w =>
    (pipeStep { w with killed := s.killed } a).map fun w' =>
      (s.setPage (s.file f).pipe (some w')).setTodo p
        (if w'.call p = none then [] else [.inPipe f])

/-- The rest of `pipealloc` and `sys_pipe`, for the page that `kalloc` returned. -/
def pipealloc (s : System P) (p : P) (f0 f1 : Fid) : Option (Nat × (Fin PIPESIZE → UInt8)) →
    Option (System P)
  | none => some (s.setTodo p [.close f0, .close f1])
  | some (k, data) =>
    if s.page k = none then
      let s' := ((s.setFile f0 { s.file f0 with type := .FD_PIPE, readable := true, writable := false,
                                                pipe := k }).setFile f1
          { s.file f1 with type := .FD_PIPE, readable := false, writable := true, pipe := k }).setPage k
        (some (Plumbing.boot data))
      match (fdalloc (s.proc p).ofile f0).bind fun o => fdalloc o f1 with
      | some ofile => some (s'.setProc p { s.proc p with todo := [], ofile := ofile })
      | none => some (s'.setTodo p [.close f0, .close f1])
    else none

/-- The loop of `exit` at `fd`, and what follows it. -/
def exitAt (s : System P) (p : P) (fd : Nat) : System P :=
  let x := s.proc p
  if h : fd < NOFILE then
    match x.ofile ⟨fd, h⟩ with
    | none => s.setTodo p [.exit (fd + 1)]
    | some f =>
      s.setProc p { x with ofile := Function.update x.ofile ⟨fd, h⟩ none,
                           todo := [.close f, .exit (fd + 1)] }
  else
    match x.cwd with
    | none => s.fail "iput"
    | some i => (s.setIref i (s.iref i - 1)).setProc p { x with cwd := none, todo := [], life := .zombie }

/-- The loop of `fork` at `fd`, and what follows it. -/
def forkAt (s : System P) (p np : P) (fd : Nat) : System P :=
  let x := s.proc p
  if h : fd < NOFILE then
    match x.ofile ⟨fd, h⟩ with
    | none => s.setTodo p [.fork np (fd + 1)]
    | some f =>
      match s.filedup f with
      | none => s.fail "filedup"
      | some s =>
        (s.setProc np { s.proc np with ofile := Function.update (s.proc np).ofile ⟨fd, h⟩ (some f) }).setTodo
          p [.fork np (fd + 1)]
  else
    match x.cwd with
    | none => s.fail "idup"
    | some i =>
      ((s.setIref i (s.iref i + 1)).setProc np { s.proc np with cwd := some i, life := .alive }).setTodo p []

/-- The next section of what `p` is doing. -/
def go (s : System P) (p : P) (page : Option (Nat × (Fin PIPESIZE → UInt8))) : Option (System P) :=
  match (s.proc p).todo with
  | [] => none
  | .close f :: js => some (s.fileclose p f js)
  | .release ff :: js => some (s.release p ff js)
  | .exit fd :: _ => some (s.exitAt p fd)
  | .fork np fd :: _ => some (s.forkAt p np fd)
  | .pipe1 f0 :: _ =>
    match s.filealloc with
    | none => some (s.setTodo p [.close f0])
    | some f1 => some ((s.setFile f1 { s.file f1 with ref := 1 }).setTodo p [.pipe2 f0 f1])
  | .pipe2 f0 f1 :: _ => s.pipealloc p f0 f1 page
  | .inPipe f :: _ => s.pipeCall p f (.resume p)

/-- `fileread` and `filewrite`, for the section that `a` is in a pipe. -/
def access (s : System P) (p : P) (fd : Fin NOFILE) (writing : Bool) (a : PipeAct P) : Option (System P) :=
  match (s.proc p).ofile fd with
  | none => some s
  | some f =>
    if (s.file f).permits writing = false then some s
    else
      match (s.file f).type with
      | .FD_PIPE => s.pipeCall p f a
      | .FD_INODE => if s.iref (s.file f).ip < 1 then some (s.fail "ilock") else some s
      | .FD_NONE => some (s.fail (if writing then "filewrite" else "fileread"))

end System

section Machine

variable {P : Type} [DecidableEq P]

def fileStep (s : System P) : FileAct P → Option (System P)
  | .iget p i =>
    if s.user p then
      some ((s.setIref i (s.iref i + 1)).setProc p { s.proc p with held := i :: (s.proc p).held })
    else none
  | .iput p i =>
    if s.user p ∧ i ∈ (s.proc p).held then
      some ((s.setIref i (s.iref i - 1)).setProc p { s.proc p with held := (s.proc p).held.erase i })
    else none
  | .chdir p i =>
    if s.user p ∧ i ∈ (s.proc p).held then
      -- `iput(curproc->cwd); curproc->cwd = ip;`
      match (s.proc p).cwd with
      | none => some (s.fail "iput")
      | some c =>
        some ((s.setIref c (s.iref c - 1)).setProc p
          { s.proc p with held := (s.proc p).held.erase i, cwd := some i })
    else none
  | .sysOpen p i readable writable =>
    if s.user p ∧ i ∈ (s.proc p).held then
      match s.filealloc with
      | none => some s
      | some f =>
        match fdalloc (s.proc p).ofile f with
        | none => some ((s.setFile f { s.file f with ref := 1 }).setTodo p [.close f])
        | some ofile =>
          some ((s.setFile f { s.file f with ref := 1, type := .FD_INODE, ip := i, readable := readable,
                                             writable := writable }).setProc p
            { s.proc p with held := (s.proc p).held.erase i, ofile := ofile })
    else none
  | .sysDup p fd =>
    if s.user p then
      match (s.proc p).ofile fd with
      | none => some s
      | some f =>
        match fdalloc (s.proc p).ofile f with
        | none => some s
        | some ofile =>
          match s.filedup f with
          | none => some (s.fail "filedup")
          | some s => some (s.setProc p { s.proc p with ofile := ofile })
    else none
  | .sysClose p fd =>
    if s.user p then
      match (s.proc p).ofile fd with
      | none => some s
      | some f =>
        some (s.setProc p { s.proc p with ofile := Function.update (s.proc p).ofile fd none,
                                          todo := [.close f] })
    else none
  | .sysWrite p fd bytes => if s.user p then s.access p fd true (.write p bytes) else none
  | .sysRead p fd n => if s.user p then s.access p fd false (.read p n) else none
  | .sysPipe p =>
    if s.user p then
      match s.filealloc with
      | none => some s
      | some f0 => some ((s.setFile f0 { s.file f0 with ref := 1 }).setTodo p [.pipe1 f0])
    else none
  | .fork p np =>
    if s.user p ∧ (s.proc np).life = .unused then
      some ((s.setProc np { s.proc np with life := .embryo }).setTodo p [.fork np 0])
    else none
  | .exit p =>
    if s.user p ∧ (s.proc p).held = [] then some (s.setTodo p [.exit 0]) else none
  | .wait np =>
    if (s.proc np).life = .zombie then
      some { s.setProc np { s.proc np with life := .unused } with
        killed := Function.update s.killed np false }
    else none
  | .kill p late =>
    -- a late kill finds `p` between a test of `killed` and its `sleep`
    some { s with killed := Function.update s.killed p true,
                  page := if late then s.page else fun k => (s.page k).map fun w =>
                    { w with asleep := Function.update w.asleep p false } }
  | .go p page => s.go p page

end Machine

/-! ## Who owns what -/

section Counts

variable {P : Type}

/-- `1` for a thing that is there. -/
def one (c : Prop) [Decidable c] : ℤ := if c then 1 else 0

def Job.files : Job P → Fid → ℤ
  | .close f, g => one (f = g)
  | .release _, _ => 0
  | .exit _, _ => 0
  | .fork _ _, _ => 0
  | .pipe1 f0, g => one (f0 = g)
  | .pipe2 f0 f1, g => one (f0 = g) + one (f1 = g)
  | .inPipe _, _ => 0

/-- The references to a file that a process has: its descriptors, and what it has still to
close. -/
def Proc.files (x : Proc P) (g : Fid) : ℤ :=
  ∑ fd, one (x.ofile fd = some g) + (x.todo.map fun j => j.files g).sum

/-- The reference to an inode that an open file has. -/
def File.inode (x : File) (i : Nat) : ℤ := one (x.type = .FD_INODE ∧ x.ip = i)

/-- The end of a pipe that an open file stands for: its page, and whether it is written to. -/
def File.pipeEnd (x : File) (e : Nat × Bool) : ℤ :=
  one (x.type = .FD_PIPE ∧ x.pipe = e.1 ∧ x.writable = e.2)

def Job.inode : Job P → Nat → ℤ
  | .close _, _ => 0
  | .release ff, i => ff.inode i
  | .exit _, _ => 0
  | .fork _ _, _ => 0
  | .pipe1 _, _ => 0
  | .pipe2 _ _, _ => 0
  | .inPipe _, _ => 0

def Job.pipeEnd : Job P → Nat × Bool → ℤ
  | .close _, _ => 0
  | .release ff, e => ff.pipeEnd e
  | .exit _, _ => 0
  | .fork _ _, _ => 0
  | .pipe1 _, _ => 0
  | .pipe2 _ _, _ => 0
  | .inPipe _, _ => 0

def Proc.inodes (x : Proc P) (i : Nat) : ℤ :=
  one (x.cwd = some i) + (x.held.count i : ℤ) + (x.todo.map fun j => j.inode i).sum

def Proc.pipeEnds (x : Proc P) (e : Nat × Bool) : ℤ := (x.todo.map fun j => j.pipeEnd e).sum

def Plumbing.isOpen (w : Plumbing P) (writable : Bool) : Bool :=
  if writable then w.pipe.writeopen else w.pipe.readopen

def openEnd (w : Option (Plumbing P)) (writable : Bool) : ℤ := one (w.any (·.isOpen writable) = true)

/-- `1` for the end of a pipe that is open. -/
def System.openEnd (s : System P) (e : Nat × Bool) : ℤ := Ipc.openEnd (s.page e.1) e.2

/-- The count of a file is the number of its descriptors and of the calls that own one; the
count of an inode that of the open files, current directories and calls that refer to it;
and an end of a pipe is open when one file, or one call that is about to close it, stands
for it. -/
structure CountsExact [Fintype P] (s : System P) : Prop where
  files : Balanced (fun f => (s.file f).ref) (fun p => (s.proc p).files)
  inodes : Balanced s.iref (Sum.elim (fun p => (s.proc p).inodes) (fun f => (s.file f).inode))
  ends : Balanced s.openEnd (Sum.elim (fun p => (s.proc p).pipeEnds) (fun f => (s.file f).pipeEnd))

/-! ## The invariant -/

/-- Files that `pipealloc` has got and not set up. -/
def Job.fresh : Job P → List Fid
  | .pipe1 f0 => [f0]
  | .pipe2 f0 f1 => [f0, f1]
  | _ => []

/-- Jobs that may wait behind another one. -/
def Job.plain : Job P → Prop
  | .close _ => True
  | .release _ => True
  | .exit _ => True
  | .fork _ _ => False
  | .pipe1 _ => False
  | .pipe2 _ _ => False
  | .inPipe _ => False

/-- Jobs that may have another one behind them. -/
def Job.short : Job P → Prop
  | .close _ => True
  | .release _ => True
  | .exit _ => False
  | .fork _ _ => False
  | .pipe1 _ => False
  | .pipe2 _ _ => False
  | .inPipe _ => False

def Orderly : List (Job P) → Prop
  | [] => True
  | j :: js => (js = [] ∨ j.short ∧ ∀ i ∈ js, i.plain) ∧ Orderly js

structure Proc.Ok (file : Fid → File) (x : Proc P) : Prop where
  typed : ∀ fd f, x.ofile fd = some f → (file f).type ≠ .FD_NONE
  fresh : ∀ j ∈ x.todo, ∀ f ∈ j.fresh, (file f).type = .FD_NONE ∧ (file f).ref = 1
  inPipe : ∀ f, .inPipe f ∈ x.todo → (file f).type = .FD_PIPE ∧ ∃ fd, x.ofile fd = some f
  exit : ∀ fd, .exit fd ∈ x.todo → x.held = [] ∧ ∀ fd', fd'.val < fd → x.ofile fd' = none
  idle : x.life ≠ .alive → x.todo = [] ∧ x.cwd = none ∧ x.held = []
  empty : x.life = .unused ∨ x.life = .zombie → ∀ fd, x.ofile fd = none
  cwd : x.life = .alive → x.cwd ≠ none
  order : Orderly x.todo

structure File.Ok (x : File) : Prop where
  live : x.type ≠ .FD_NONE → 0 < x.ref
  mode : x.type = .FD_PIPE → x.readable = !x.writable

structure Sane [Fintype P] (s : System P) : Prop extends CountsExact s where
  fault : s.fault = none
  good : ∀ f, (s.file f).Ok
  ok : ∀ p, (s.proc p).Ok s.file
  pages : ∀ k w, s.page k = some w → (∃ l, Carries w l) ∧ Attended w ∧ w.freed = false
  calls : ∀ k w p c, s.page k = some w → w.call p = some c → ∃ f, (s.proc p).todo = [.inPipe f] ∧
    (s.file f).type = .FD_PIPE ∧ (s.file f).pipe = k ∧ (s.file f).writable = !c.isRead
  forks : ∀ p np fd, .fork np fd ∈ (s.proc p).todo → (s.proc np).life = .embryo ∧
    (∀ fd', fd ≤ fd'.val → (s.proc np).ofile fd' = none) ∧
    ∀ q fd', .fork np fd' ∈ (s.proc q).todo → q = p

/-! ## Claims -/

variable {x : Proc P} {g f : Fid}

theorem one_nonneg (c : Prop) [Decidable c] : 0 ≤ one c := by
  unfold one
  split <;> omega

theorem one_le (c : Prop) [Decidable c] : one c ≤ 1 := by
  unfold one
  split <;> omega

theorem one_pos {c : Prop} [Decidable c] (h : c) : one c = 1 := if_pos h

theorem one_neg {c : Prop} [Decidable c] (h : ¬ c) : one c = 0 := if_neg h

theorem fds_update (o : Fin NOFILE → Option Fid) (fd : Fin NOFILE) (v : Option Fid) (g : Fid) :
    ∑ fd', one (Function.update o fd v fd' = some g) =
      ∑ fd', one (o fd' = some g) - one (o fd = some g) + one (v = some g) :=
  Lib.Refs.sum_update (fun v => one (v = some g)) o fd v

/-- The claims of a process after it has changed its list of jobs. -/
theorem Proc.files_does (x : Proc P) (js : List (Job P)) (g : Fid) : (x.does js).files g =
    x.files g - (x.todo.map fun j => j.files g).sum + (js.map fun j => j.files g).sum := by
  rw [Proc.files, Proc.files, add_sub_cancel_right]
  rfl

theorem Proc.files_fd (x y : Proc P) {fd : Fin NOFILE} {v : Option Fid}
    (hy : y.ofile = Function.update x.ofile fd v) (g : Fid) : y.files g =
      x.files g - (x.todo.map fun j => j.files g).sum - one (x.ofile fd = some g) + one (v = some g) +
        (y.todo.map fun j => j.files g).sum := by
  rw [Proc.files, Proc.files, hy, fds_update]
  omega

/-- A new descriptor is a new reference. -/
theorem Proc.files_newFd (x y : Proc P) {fd : Fin NOFILE} (hy : y.ofile = Function.update x.ofile fd (some f))
    (hfd : x.ofile fd = none) (ht : y.todo = x.todo) (g : Fid) : y.files g = x.files g + one (f = g) := by
  have hnone : one ((none : Option Fid) = some g) = 0 := one_neg nofun
  rw [Proc.files_fd x y hy, hfd, ht, hnone]
  simp only [Option.some_inj]
  omega

theorem Proc.inodes_does (x : Proc P) (js : List (Job P)) (i : Nat) : (x.does js).inodes i =
    x.inodes i - (x.todo.map fun j => j.inode i).sum + (js.map fun j => j.inode i).sum := by
  rw [Proc.inodes, Proc.inodes, add_sub_cancel_right]
  rfl

theorem Proc.inodes_same (x y : Proc P) {i : Nat} (hc : y.cwd = x.cwd) (hh : y.held = x.held)
    (hj : (y.todo.map fun j => j.inode i).sum = (x.todo.map fun j => j.inode i).sum) : y.inodes i = x.inodes i := by
  rw [Proc.inodes, Proc.inodes, hc, hh, hj]

theorem Proc.pipeEnds_does (x : Proc P) (js : List (Job P)) (e : Nat × Bool) : (x.does js).pipeEnds e =
    x.pipeEnds e - (x.todo.map fun j => j.pipeEnd e).sum + (js.map fun j => j.pipeEnd e).sum := by
  rw [Proc.pipeEnds, Proc.pipeEnds, sub_self, zero_add]
  rfl

/-- Nothing that `fork` has still to do is a claim. -/
theorem Proc.does_fork {x : Proc P} {np : P} {js : List (Job P)} (hold : x.todo = [] ∨ ∃ fd, x.todo = [.fork np fd])
    (hnew : js = [] ∨ ∃ fd, js = [.fork np fd]) :
    (x.does js).files = x.files ∧ (x.does js).inodes = x.inodes ∧ (x.does js).pipeEnds = x.pipeEnds := by
  have hsum : ∀ {c : Job P → ℤ} {l : List (Job P)}, (∀ fd, c (.fork np fd) = 0) →
      (l = [] ∨ ∃ fd, l = [.fork np fd]) → (l.map c).sum = 0 := by
    intro c l hc hl
    rcases hl with rfl | ⟨fd, rfl⟩
    · rfl
    · simp [hc]
  refine ⟨funext fun g => ?_, funext fun i => ?_, funext fun e => ?_⟩
  · rw [Proc.files_does, hsum (fun _ => rfl) hold, hsum (fun _ => rfl) hnew, sub_zero, add_zero]
  · rw [Proc.inodes_does, hsum (fun _ => rfl) hold, hsum (fun _ => rfl) hnew, sub_zero, add_zero]
  · rw [Proc.pipeEnds_does, hsum (fun _ => rfl) hold, hsum (fun _ => rfl) hnew, sub_zero, add_zero]

theorem Job.files_nonneg (j : Job P) (g : Fid) : 0 ≤ j.files g := by
  cases j with
  | close f => exact one_nonneg _
  | pipe1 f0 => exact one_nonneg _
  | pipe2 f0 f1 => exact add_nonneg (one_nonneg _) (one_nonneg _)
  | release => exact le_refl _
  | exit => exact le_refl _
  | fork => exact le_refl _
  | inPipe => exact le_refl _

theorem Job.inode_nonneg (j : Job P) (i : Nat) : 0 ≤ j.inode i := by
  cases j with
  | release ff => exact one_nonneg _
  | close => exact le_refl _
  | pipe1 => exact le_refl _
  | pipe2 => exact le_refl _
  | exit => exact le_refl _
  | fork => exact le_refl _
  | inPipe => exact le_refl _

theorem Job.pipeEnd_nonneg (j : Job P) (e : Nat × Bool) : 0 ≤ j.pipeEnd e := by
  cases j with
  | release ff => exact one_nonneg _
  | close => exact le_refl _
  | pipe1 => exact le_refl _
  | pipe2 => exact le_refl _
  | exit => exact le_refl _
  | fork => exact le_refl _
  | inPipe => exact le_refl _

/-- The claim of one job is within that of all of them. -/
theorem le_sum_todo {c : Job P → ℤ} (hc : ∀ j, 0 ≤ c j) {j : Job P} {js : List (Job P)} (hj : j ∈ js) :
    c j ≤ (js.map c).sum := by
  apply List.single_le_sum _ _ (List.mem_map_of_mem hj)
  intro n hn
  obtain ⟨i, -, rfl⟩ := List.mem_map.mp hn
  exact hc i

theorem sum_todo_nonneg {c : Job P → ℤ} (hc : ∀ j, 0 ≤ c j) (js : List (Job P)) : 0 ≤ (js.map c).sum := by
  apply List.sum_nonneg
  intro n hn
  obtain ⟨j, -, rfl⟩ := List.mem_map.mp hn
  exact hc j

theorem fds_nonneg (o : Fin NOFILE → Option Fid) (g : Fid) : 0 ≤ ∑ fd, one (o fd = some g) :=
  Finset.sum_nonneg fun _ _ => one_nonneg _

theorem one_le_fds {o : Fin NOFILE → Option Fid} {fd : Fin NOFILE} (h : o fd = some g) :
    1 ≤ ∑ fd, one (o fd = some g) := by
  rw [← one_pos h]
  exact Finset.single_le_sum (f := fun fd => one (o fd = some g)) (fun _ _ => one_nonneg _) (Finset.mem_univ fd)

theorem Proc.files_nonneg (x : Proc P) (g : Fid) : 0 ≤ x.files g :=
  add_nonneg (fds_nonneg _ g) (sum_todo_nonneg (fun j => j.files_nonneg g) _)

theorem Proc.inodes_nonneg (x : Proc P) (i : Nat) : 0 ≤ x.inodes i :=
  add_nonneg (add_nonneg (one_nonneg _) (Int.natCast_nonneg _))
    (sum_todo_nonneg (fun j => j.inode_nonneg i) _)

theorem Proc.pipeEnds_nonneg (x : Proc P) (e : Nat × Bool) : 0 ≤ x.pipeEnds e :=
  sum_todo_nonneg (fun j => j.pipeEnd_nonneg e) _

/-- A descriptor is a reference. -/
theorem Proc.files_ofile {fd : Fin NOFILE} (h : x.ofile fd = some g) : 0 < x.files g := by
  have hone := one_le_fds h
  have hjobs := sum_todo_nonneg (fun j => Job.files_nonneg j g) x.todo
  unfold Proc.files
  omega

theorem Proc.files_job {j : Job P} (hj : j ∈ x.todo) : j.files g ≤ x.files g := by
  have hle := le_sum_todo (fun j => Job.files_nonneg j g) hj
  have hfds := fds_nonneg x.ofile g
  unfold Proc.files
  omega

theorem Job.files_fresh {j : Job P} (h : f ∈ j.fresh) : 0 < j.files f := by
  cases j with
  | pipe1 f0 =>
    obtain rfl := List.mem_singleton.mp h
    simp [Job.files, one]
  | pipe2 f0 f1 =>
    have h0 := one_nonneg (f0 = f)
    have h1 := one_nonneg (f1 = f)
    have hor : f0 = f ∨ f1 = f := by simpa [Job.fresh, eq_comm] using h
    simp only [Job.files]
    rcases hor with he | he
    · rw [one_pos he]
      omega
    · rw [one_pos he]
      omega
  | close => cases h
  | release => cases h
  | exit => cases h
  | fork => cases h
  | inPipe => cases h

theorem fdalloc_spec {o o' : Fin NOFILE → Option Fid} (h : fdalloc o f = some o') :
    ∃ fd, o fd = none ∧ o' = Function.update o fd (some f) := by
  obtain ⟨fd, hfd, rfl⟩ := Option.map_eq_some_iff.mp h
  have hnone := List.find?_some hfd
  exact ⟨fd, of_decide_eq_true hnone, rfl⟩

theorem filealloc_spec {s : System P} (h : s.filealloc = some f) : (s.file f).ref = 0 := by
  have hfree := List.find?_some h
  exact of_decide_eq_true hfree

def File.setRef (x : File) (n : Int) : File := { x with ref := n }

/-- What a step of somebody else leaves of the files that a process refers to: all but the
count, and a count of 1. -/
def Keeps (file file' : Fid → File) (x : Proc P) : Prop :=
  ∀ g, 0 < x.files g → file' g = (file g).setRef (file' g).ref ∧
    ((file g).ref = 1 → (file' g).ref = 1)

theorem Keeps.type {file file' : Fid → File} (hk : Keeps file file' x) (hg : 0 < x.files g) :
    (file' g).type = (file g).type := by
  have heq := congrArg File.type (hk g hg).1
  exact heq

theorem Proc.Ok.keep {file file' : Fid → File} (h : x.Ok file) (hk : Keeps file file' x) : x.Ok file' := by
  refine { h with typed := fun fd f hf => ?_, fresh := fun j hj f hf => ?_, inPipe := fun f hf => ?_ }
  · rw [hk.type (Proc.files_ofile hf)]
    exact h.typed fd f hf
  · have hpos : 0 < x.files f := lt_of_lt_of_le (Job.files_fresh hf) (Proc.files_job hj)
    obtain ⟨ht, hr⟩ := h.fresh j hj f hf
    exact ⟨(hk.type hpos).trans ht, (hk f hpos).2 hr⟩
  · obtain ⟨ht, fd, hfd⟩ := h.inPipe f hf
    exact ⟨(hk.type (Proc.files_ofile hfd)).trans ht, fd, hfd⟩

/-! ## A step of one process -/

variable [Fintype P] {s s' : System P} {p q np : P}

/-- The claims of `p` and of the file `f` change, and the counts by as much. -/
theorem CountsExact.shift [DecidableEq P] (h : CountsExact s) (p : P) (f : Fid)
    (hproc : ∀ q, q ≠ p → (s'.proc q).files = (s.proc q).files ∧ (s'.proc q).inodes = (s.proc q).inodes ∧
      (s'.proc q).pipeEnds = (s.proc q).pipeEnds)
    (hfile : ∀ g, g ≠ f → s'.file g = s.file g)
    (hfiles : ∀ g, (s'.file g).ref - (s.file g).ref = (s'.proc p).files g - (s.proc p).files g)
    (hinodes : ∀ i, s'.iref i - s.iref i = (s'.proc p).inodes i - (s.proc p).inodes i +
      ((s'.file f).inode i - (s.file f).inode i))
    (hends : ∀ e, s'.openEnd e - s.openEnd e = (s'.proc p).pipeEnds e - (s.proc p).pipeEnds e +
      ((s'.file f).pipeEnd e - (s.file f).pipeEnd e)) : CountsExact s' := by
  constructor
  · exact h.files.shift p (fun q hq => (hproc q hq).1) hfiles
  · refine h.inodes.pass (p := .inl p) (q := .inr f) Sum.inl_ne_inr (fun r hp hf => ?_) hinodes
    rcases r with q | g
    · exact (hproc q (fun hq => hp (hq ▸ rfl))).2.1
    · exact congrArg File.inode (hfile g (fun hg => hf (hg ▸ rfl)))
  · refine h.ends.pass (p := .inl p) (q := .inr f) Sum.inl_ne_inr (fun r hp hf => ?_) hends
    rcases r with q | g
    · exact (hproc q (fun hq => hp (hq ▸ rfl))).2.2
    · exact congrArg File.pipeEnd (hfile g (fun hg => hf (hg ▸ rfl)))

omit [Fintype P] in
theorem claims_nonneg (s : System P) (c : P ⊕ Fid) (i : Nat) :
    0 ≤ Sum.elim (fun p => (s.proc p).inodes) (fun f => (s.file f).inode) c i := by
  rcases c with p | f
  · exact Proc.inodes_nonneg _ i
  · exact one_nonneg _

omit [Fintype P] in
theorem endClaims_nonneg (s : System P) (c : P ⊕ Fid) (e : Nat × Bool) :
    0 ≤ Sum.elim (fun p => (s.proc p).pipeEnds) (fun f => (s.file f).pipeEnd) c e := by
  rcases c with p | f
  · exact Proc.pipeEnds_nonneg _ e
  · exact one_nonneg _

theorem CountsExact.files_le (h : CountsExact s) (p : P) (f : Fid) : (s.proc p).files f ≤ (s.file f).ref :=
  h.files.claim_le (fun _ => Proc.files_nonneg _ f) p

/-- A step that changes one file, to which `p` has the only reference or of which only the
count changes. -/
theorem CountsExact.keeps [DecidableEq P] (h : CountsExact s) {x : File}
    (hmine : (s.file f).ref ≤ (s.proc p).files f ∨
      x = (s.file f).setRef x.ref ∧ 0 < (s.proc p).files f) (hq : q ≠ p) :
    Keeps s.file (Function.update s.file f x) (s.proc q) := by
  intro g hg
  rcases eq_or_ne g f with rfl | hne
  · rw [Function.update_self]
    have hboth := h.files.claims_le (fun _ => Proc.files_nonneg _ g) hq
    rcases hmine with hall | ⟨hx, hp⟩
    · omega
    · exact ⟨hx, fun hr => by omega⟩
  · rw [Function.update_of_ne hne]
    exact ⟨rfl, id⟩

/-- What is left to show of a step of `p`, when it works on `np` at most besides. -/
theorem Sane.of_step (h : Sane s) (p np : P) (hnp : np = p ∨ (s.proc np).life ≠ .alive)
    (counts : CountsExact s') (fault : s'.fault = none) (good : ∀ f, (s'.file f).Ok)
    (hproc : ∀ q, q ≠ p → q ≠ np → s'.proc q = s.proc q)
    (hkeep : ∀ q, q ≠ p → Keeps s.file s'.file (s.proc q))
    (ok : (s'.proc p).Ok s'.file) (okNew : (s'.proc np).Ok s'.file)
    (pages : ∀ k w, s'.page k = some w → (∃ l, Carries w l) ∧ Attended w ∧ w.freed = false)
    (hcalls : ∀ k w q c, q ≠ p → s'.page k = some w → w.call q = some c →
      ∃ v, s.page k = some v ∧ v.call q = some c)
    (hmine : ∀ k w c, s'.page k = some w → w.call p = some c → ∃ f, (s'.proc p).todo = [.inPipe f] ∧
      (s'.file f).type = .FD_PIPE ∧ (s'.file f).pipe = k ∧ (s'.file f).writable = !c.isRead)
    (forks : ∀ p np fd, .fork np fd ∈ (s'.proc p).todo → (s'.proc np).life = .embryo ∧
      (∀ fd', fd ≤ fd'.val → (s'.proc np).ofile fd' = none) ∧
      ∀ q fd', .fork np fd' ∈ (s'.proc q).todo → q = p) : Sane s' := by
  refine { toCountsExact := counts, fault, good, pages, forks, ok := fun q => ?_, calls := fun k w q c hw hc => ?_ }
  · by_cases hq : q = p
    · exact hq ▸ ok
    by_cases hq' : q = np
    · exact hq' ▸ okNew
    rw [hproc q hq hq']
    exact (h.ok q).keep (hkeep q hq)
  · by_cases hq : q = p
    · subst hq
      exact hmine k w c hw hc
    obtain ⟨v, hv, hvc⟩ := hcalls k w q c hq hw hc
    obtain ⟨f, htodo, ht, hk, hmode⟩ := h.calls k v q c hv hvc
    have hq' : q ≠ np := by
      rintro rfl
      have hidle := (h.ok q).idle (hnp.resolve_left hq)
      rw [htodo] at hidle
      cases hidle.1
    obtain ⟨-, fd, hfd⟩ := (h.ok q).inPipe f (htodo ▸ List.mem_singleton_self _)
    have hsame := (hkeep q hq f (Proc.files_ofile hfd)).1
    refine ⟨f, (congrArg Proc.todo (hproc q hq hq')).trans htodo, ?_⟩
    rw [hsame]
    exact ⟨ht, hk, hmode⟩

/-- The calls of `fork` of the others go on as before. -/
theorem Sane.forks_local (h : Sane s) (hlife : (s.proc p).life ≠ .embryo)
    (hproc : ∀ q, q ≠ p → s'.proc q = s.proc q) (hforks : ∀ np fd, .fork np fd ∉ (s'.proc p).todo) :
    ∀ q np fd, .fork np fd ∈ (s'.proc q).todo → (s'.proc np).life = .embryo ∧
      (∀ fd', fd ≤ fd'.val → (s'.proc np).ofile fd' = none) ∧
      ∀ r fd', .fork np fd' ∈ (s'.proc r).todo → r = q := by
  intro q np fd hj
  have hq : q ≠ p := by
    rintro rfl
    exact hforks np fd hj
  rw [hproc q hq] at hj
  obtain ⟨hemb, hfds, honly⟩ := h.forks q np fd hj
  have hnp : np ≠ p := by
    rintro rfl
    exact hlife hemb
  rw [hproc np hnp]
  refine ⟨hemb, hfds, fun r fd' hr => ?_⟩
  have hr' : r ≠ p := by
    rintro rfl
    exact hforks np fd' hr
  rw [hproc r hr'] at hr
  exact honly r fd' hr

/-- A step of `p` that leaves the pipes and the other processes alone. -/
theorem Sane.local (h : Sane s) (p : P) (hlife : (s.proc p).life ≠ .embryo)
    (hidle : ∀ f, (s.proc p).todo ≠ [.inPipe f]) (counts : CountsExact s') (fault : s'.fault = none)
    (good : ∀ f, (s'.file f).Ok) (hproc : ∀ q, q ≠ p → s'.proc q = s.proc q)
    (hkeep : ∀ q, q ≠ p → Keeps s.file s'.file (s.proc q)) (ok : (s'.proc p).Ok s'.file)
    (hpage : s'.page = s.page) (hforks : ∀ np fd, .fork np fd ∉ (s'.proc p).todo) : Sane s' := by
  refine h.of_step p p (.inl rfl) counts fault good (fun q hq _ => hproc q hq) hkeep ok ok ?_ ?_ ?_ ?_
  · rw [hpage]
    exact h.pages
  · intro k w q c _ hw hc
    exact ⟨w, hpage ▸ hw, hc⟩
  · intro k w c hw hc
    obtain ⟨f, htodo, -⟩ := h.calls k w p c (hpage ▸ hw) hc
    exact absurd htodo (hidle f)
  · exact h.forks_local hlife hproc hforks

/-- A step of `p` on its own state and on the counts of inodes. -/
theorem Sane.setProc [DecidableEq P] (h : Sane s) (p : P) (x : Proc P) (hfile : s'.file = s.file)
    (hpage : s'.page = s.page) (hfault : s'.fault = s.fault) (hproc : s'.proc = Function.update s.proc p x)
    (hlife : (s.proc p).life ≠ .embryo) (hidle : ∀ f, (s.proc p).todo ≠ [.inPipe f])
    (hfiles : ∀ g, x.files g = (s.proc p).files g)
    (hinodes : ∀ i, s'.iref i - s.iref i = x.inodes i - (s.proc p).inodes i)
    (hends : ∀ e, x.pipeEnds e = (s.proc p).pipeEnds e) (ok : x.Ok s.file)
    (hforks : ∀ np fd, .fork np fd ∉ x.todo) : Sane s' := by
  have hself : s'.proc p = x := by rw [hproc, Function.update_self]
  have hother : ∀ q, q ≠ p → s'.proc q = s.proc q := fun q hq => by rw [hproc, Function.update_of_ne hq]
  have hopen : ∀ e, s'.openEnd e = s.openEnd e := fun e => by rw [System.openEnd, hpage, System.openEnd]
  refine h.local p hlife hidle ?_ (hfault.trans h.fault) (hfile ▸ h.good) hother
    (fun q _ g _ => hfile ▸ ⟨rfl, id⟩) ?_ hpage ?_
  · refine h.shift p 0 (fun q hq => hother q hq ▸ ⟨rfl, rfl, rfl⟩) (fun _ _ => by rw [hfile]) (fun g => ?_)
      (fun i => ?_) (fun e => ?_)
    · rw [hself, hfiles, hfile, sub_self, sub_self]
    · rw [hself, hfile, sub_self, add_zero]
      exact hinodes i
    · rw [hself, hends, hopen, hfile, sub_self, sub_self, sub_self, add_zero]
  · rw [hself, hfile]
    exact ok
  · rw [hself]
    exact hforks

/-- A step of `p` on its own state and on the pipe in page `k`. -/
theorem Sane.setPage [DecidableEq P] (h : Sane s) (p : P) (k : Nat) (x : Proc P) (v : Option (Plumbing P))
    (hfile : s'.file = s.file) (hpage : s'.page = Function.update s.page k v) (hfault : s'.fault = s.fault)
    (hproc : s'.proc = Function.update s.proc p x) (hiref : s'.iref = s.iref)
    (hlife : (s.proc p).life ≠ .embryo) (hfiles : ∀ g, x.files g = (s.proc p).files g)
    (hinodes : ∀ i, x.inodes i = (s.proc p).inodes i)
    (hends : ∀ b, openEnd v b - openEnd (s.page k) b = x.pipeEnds (k, b) - (s.proc p).pipeEnds (k, b))
    (hother : ∀ e, e.1 ≠ k → x.pipeEnds e = (s.proc p).pipeEnds e)
    (pages : ∀ w, v = some w → (∃ l, Carries w l) ∧ Attended w ∧ w.freed = false)
    (hcalls : ∀ w q c, q ≠ p → v = some w → w.call q = some c → ∃ u, s.page k = some u ∧ u.call q = some c)
    (hmine : ∀ w c, v = some w → w.call p = some c → ∃ f, x.todo = [.inPipe f] ∧
      (s.file f).type = .FD_PIPE ∧ (s.file f).pipe = k ∧ (s.file f).writable = !c.isRead)
    (hnone : ∀ k' w, k' ≠ k → s.page k' = some w → w.call p = none)
    (ok : x.Ok s.file) (hforks : ∀ np fd, .fork np fd ∉ x.todo) : Sane s' := by
  have hself : s'.proc p = x := by rw [hproc, Function.update_self]
  have hsame : ∀ q, q ≠ p → s'.proc q = s.proc q := fun q hq => by rw [hproc, Function.update_of_ne hq]
  have hk : s'.page k = v := by rw [hpage, Function.update_self]
  have hne : ∀ k', k' ≠ k → s'.page k' = s.page k' := fun k' h' => by rw [hpage, Function.update_of_ne h']
  have hok : (s'.proc p).Ok s'.file := by
    rw [hself, hfile]
    exact ok
  refine h.of_step p p (.inl rfl) ?_ (hfault.trans h.fault) (hfile ▸ h.good) (fun q hq _ => hsame q hq)
    (fun q _ g _ => hfile ▸ ⟨rfl, id⟩) hok hok (fun k' w hw => ?_) (fun k' w q c hq hw hc => ?_)
    (fun k' w c hw hc => ?_) (h.forks_local hlife hsame (hself ▸ hforks))
  · refine h.shift p 0 (fun q hq => hsame q hq ▸ ⟨rfl, rfl, rfl⟩) (fun _ _ => by rw [hfile]) (fun g => ?_)
      (fun i => ?_) (fun e => ?_)
    · rw [hself, hfiles, hfile, sub_self, sub_self]
    · rw [hself, hinodes, hiref, hfile, sub_self, sub_self, sub_self, add_zero]
    · rw [hself, hfile, sub_self, add_zero, System.openEnd, System.openEnd]
      rcases eq_or_ne e.1 k with rfl | he
      · rw [hk]
        exact hends e.2
      · rw [hne _ he, hother e he, sub_self, sub_self]
  · rcases eq_or_ne k' k with rfl | h'
    · exact pages w (hk.symm.trans hw)
    · exact h.pages k' w ((hne k' h').symm.trans hw)
  · rcases eq_or_ne k' k with rfl | h'
    · exact hcalls w q c hq (hk.symm.trans hw) hc
    · exact ⟨w, (hne k' h').symm.trans hw, hc⟩
  · rw [hself, hfile]
    rcases eq_or_ne k' k with rfl | h'
    · exact hmine w c (hk.symm.trans hw) hc
    · rw [hnone k' w h' ((hne k' h').symm.trans hw)] at hc
      cases hc

/-- A step of `p` on its own state and on the file `f`. -/
theorem Sane.setFile [DecidableEq P] (h : Sane s) (p : P) (f : Fid) (x : Proc P) (y : File)
    (hfile : s'.file = Function.update s.file f y) (hpage : s'.page = s.page) (hfault : s'.fault = s.fault)
    (hproc : s'.proc = Function.update s.proc p x) (hiref : s'.iref = s.iref)
    (hlife : (s.proc p).life ≠ .embryo) (hidle : ∀ f, (s.proc p).todo ≠ [.inPipe f])
    (href : y.ref - (s.file f).ref = x.files f - (s.proc p).files f)
    (hfiles : ∀ g, g ≠ f → x.files g = (s.proc p).files g)
    (hinodes : ∀ i, x.inodes i + y.inode i = (s.proc p).inodes i + (s.file f).inode i)
    (hends : ∀ e, x.pipeEnds e + y.pipeEnd e = (s.proc p).pipeEnds e + (s.file f).pipeEnd e)
    (hy : y.Ok) (hmine : (s.file f).ref ≤ (s.proc p).files f ∨
      y = (s.file f).setRef y.ref ∧ 0 < (s.proc p).files f)
    (ok : x.Ok (Function.update s.file f y)) (hforks : ∀ np fd, .fork np fd ∉ x.todo) : Sane s' := by
  have hself : s'.proc p = x := by rw [hproc, Function.update_self]
  have hother : ∀ q, q ≠ p → s'.proc q = s.proc q := fun q hq => by rw [hproc, Function.update_of_ne hq]
  have hsame : ∀ g, g ≠ f → s'.file g = s.file g := fun g hg => by rw [hfile, Function.update_of_ne hg]
  have hf : s'.file f = y := by rw [hfile, Function.update_self]
  have hopen : ∀ e, s'.openEnd e = s.openEnd e := fun e => by rw [System.openEnd, hpage, System.openEnd]
  refine h.local p hlife hidle ?_ (hfault.trans h.fault) (fun g => ?_) hother
    (fun q hq => hfile ▸ h.keeps hmine hq) ?_ hpage ?_
  · refine h.shift p f (fun q hq => hother q hq ▸ ⟨rfl, rfl, rfl⟩) hsame (fun g => ?_) (fun i => ?_)
      (fun e => ?_)
    · rw [hself]
      rcases eq_or_ne g f with rfl | hg
      · rw [hf]
        exact href
      · rw [hsame g hg, hfiles g hg, sub_self, sub_self]
    · rw [hself, hf, hiref]
      have := hinodes i
      omega
    · rw [hself, hf, hopen]
      have := hends e
      omega
  · rcases eq_or_ne g f with rfl | hg
    · rw [hf]
      exact hy
    · rw [hsame g hg]
      exact h.good g
  · rw [hself, hfile]
    exact ok
  · rw [hself]
    exact hforks

omit [Fintype P] in
theorem Keeps.update {file : Fid → File} {y : File}
    (h : 0 < x.files f → y = (file f).setRef y.ref ∧ ((file f).ref = 1 → y.ref = 1)) :
    Keeps file (Function.update file f y) x := by
  intro g hg
  rcases eq_or_ne g f with rfl | hne
  · rw [Function.update_self]
    exact h hg
  · rw [Function.update_of_ne hne]
    exact ⟨rfl, id⟩

omit [Fintype P] in
theorem Job.plain.fresh {j : Job P} (h : j.plain) : j.fresh = [] := by
  cases j with
  | close => rfl
  | release => rfl
  | exit => rfl
  | fork => exact h.elim
  | pipe1 => exact h.elim
  | pipe2 => exact h.elim
  | inPipe => exact h.elim

omit [Fintype P] in
theorem Proc.Ok.typed_update {file : Fid → File} (h : x.Ok file) {y : File}
    (hy : ∀ fd, x.ofile fd = some f → y.type ≠ .FD_NONE) :
    ∀ fd g, x.ofile fd = some g → (Function.update file f y g).type ≠ .FD_NONE := by
  intro fd g hg
  rcases eq_or_ne g f with rfl | hne
  · rw [Function.update_self]
    exact hy fd hg
  · rw [Function.update_of_ne hne]
    exact h.typed fd g hg

omit [Fintype P] in
/-- A process with plain jobs only. -/
theorem Proc.Ok.plain {file : Fid → File} (hlife : x.life = .alive) (hcwd : x.cwd ≠ none)
    (hjs : ∀ j ∈ x.todo, j.plain) (hord : Orderly x.todo)
    (hexit : ∀ fd, .exit fd ∈ x.todo → x.held = [] ∧ ∀ fd' : Fin NOFILE, fd'.val < fd → x.ofile fd' = none)
    (htyped : ∀ fd f, x.ofile fd = some f → (file f).type ≠ .FD_NONE) : x.Ok file where
  typed := htyped
  fresh j hj f hf := by
    rw [(hjs j hj).fresh] at hf
    cases hf
  inPipe f hf := (hjs _ hf).elim
  exit := hexit
  idle hn := absurd hlife hn
  empty hn := by
    rw [hlife] at hn
    simp at hn
  cwd _ := hcwd
  order := hord

theorem Sane.alive (h : Sane s) (ht : (s.proc p).todo ≠ []) : (s.proc p).life = .alive := by
  by_contra hn
  exact ht ((h.ok p).idle hn).1

theorem Sane.order (h : Sane s) {j : Job P} {js : List (Job P)} (ht : (s.proc p).todo = j :: js) :
    (js = [] ∨ j.short ∧ ∀ i ∈ js, i.plain) ∧ Orderly js := by
  have horder := (h.ok p).order
  rw [ht] at horder
  exact horder

theorem Sane.later (h : Sane s) {j : Job P} {js : List (Job P)} (ht : (s.proc p).todo = j :: js) :
    ∀ i ∈ js, i.plain := by
  rcases (h.order ht).1 with rfl | hjs
  · exact fun _ hi => absurd hi List.not_mem_nil
  · exact hjs.2

section Steps

variable [DecidableEq P] {js : List (Job P)}

omit [DecidableEq P] in
/-- What the steps on a process that is alive and in no pipe have in common. -/
theorem Sane.ready (h : Sane s) {j : Job P} (ht : (s.proc p).todo = j :: js) (hj : ∀ f, j ≠ .inPipe f) :
    (s.proc p).life = .alive ∧ (s.proc p).life ≠ .embryo ∧ ∀ f, (s.proc p).todo ≠ [.inPipe f] := by
  have hlife := h.alive (p := p) (ht ▸ List.cons_ne_nil _ _)
  refine ⟨hlife, ?_, fun f hf => ?_⟩
  · rw [hlife]
    exact nofun
  · rw [ht] at hf
    exact hj f (List.cons.inj hf).1

theorem Sane.fileclose (h : Sane s) (ht : (s.proc p).todo = .close f :: js) : Sane (s.fileclose p f js) := by
  obtain ⟨hlife, hemb, hidle⟩ := h.ready ht (fun _ => nofun)
  have hclaim : ∀ g, (s.proc p).files g = ((s.proc p).does js).files g + one (f = g) := by
    intro g
    rw [Proc.files_does, ht, List.map_cons, List.sum_cons, Job.files]
    omega
  have hrest := Proc.files_nonneg ((s.proc p).does js) f
  have hle := h.files_le p f
  have hone := hclaim f
  rw [one_pos rfl] at hone
  have hother : ∀ g, g ≠ f → ((s.proc p).does js).files g = (s.proc p).files g := by
    intro g hg
    rw [hclaim g, one_neg (fun hfg => hg hfg.symm), add_zero]
  unfold System.fileclose
  simp only
  rw [if_neg (by omega)]
  split
  · next hmore =>
    refine h.setFile p f ((s.proc p).does js) _ rfl rfl rfl rfl rfl hemb hidle ?_ hother
      (fun i => ?_) (fun e => ?_) ⟨fun _ => hmore, (h.good f).mode⟩ (.inr ⟨rfl, by omega⟩) ?_
      (fun np fd hj => h.later ht _ hj)
    · simp only
      omega
    · rw [Proc.inodes_does, ht, List.map_cons, List.sum_cons, Job.inode, zero_add, sub_add_cancel]
      rfl
    · rw [Proc.pipeEnds_does, ht, List.map_cons, List.sum_cons, Job.pipeEnd, zero_add, sub_add_cancel]
      rfl
    · exact .plain hlife ((h.ok p).cwd hlife) (h.later ht) (h.order ht).2
        (fun fd hfd => (h.ok p).exit fd (ht ▸ List.mem_cons_of_mem _ hfd))
        ((h.ok p).typed_update (fun fd hfd => (h.ok p).typed fd f hfd))
  · next hlast =>
    have hsame : ∀ g, ((s.proc p).does (.release (s.file f) :: js)).files g = ((s.proc p).does js).files g := by
      intro g
      rw [Proc.files_does, Proc.files_does, List.map_cons, List.sum_cons, Job.files, zero_add]
    refine h.setFile p f ((s.proc p).does (.release (s.file f) :: js)) _ rfl rfl rfl rfl rfl hemb hidle
      ?_ (fun g hg => (hsame g).trans (hother g hg)) (fun i => ?_) (fun e => ?_)
      ⟨fun hn => absurd rfl hn, nofun⟩ (.inl (by omega)) ?_ (fun np fd hj => ?_)
    · rw [hsame]
      simp only
      omega
    · have hnone : ({ s.file f with ref := 0, type := .FD_NONE } : File).inode i = 0 := one_neg nofun
      rw [Proc.inodes_does, ht, List.map_cons, List.sum_cons, List.map_cons, List.sum_cons, Job.inode, Job.inode,
        hnone]
      omega
    · have hnone : ({ s.file f with ref := 0, type := .FD_NONE } : File).pipeEnd e = 0 := one_neg nofun
      rw [Proc.pipeEnds_does, ht, List.map_cons, List.sum_cons, List.map_cons, List.sum_cons, Job.pipeEnd,
        Job.pipeEnd, hnone]
      omega
    · -- the job was the only reference, so that no descriptor is left
      refine .plain hlife ((h.ok p).cwd hlife) ?_ ⟨.inr ⟨trivial, h.later ht⟩, (h.order ht).2⟩ (fun fd hfd => ?_)
        ((h.ok p).typed_update (fun fd hfd => ?_))
      · exact List.forall_mem_cons.mpr ⟨trivial, h.later ht⟩
      · rcases List.mem_cons.mp hfd with he | hfd
        · cases he
        · exact (h.ok p).exit fd (ht ▸ List.mem_cons_of_mem _ hfd)
      · have hpos : 0 < ((s.proc p).does js).files f := Proc.files_ofile hfd
        omega
    · rcases List.mem_cons.mp hj with he | hj
      · cases he
      · exact h.later ht _ hj

omit [DecidableEq P] in
/-- Which ends of pipes are open, and who stands for them. -/
theorem Sane.end_open (h : Sane s) {e : Nat × Bool} {c : P ⊕ Fid}
    (hc : 0 < Sum.elim (fun p => (s.proc p).pipeEnds) (fun f => (s.file f).pipeEnd) c e) :
    ∃ w, s.page e.1 = some w ∧ w.isOpen e.2 = true := by
  have hle := h.ends.claim_le (fun r => endClaims_nonneg s r e) c
  have hpos : s.openEnd e ≠ 0 := by omega
  by_contra hn
  apply hpos
  apply one_neg
  rw [Option.any_eq_true]
  exact hn

omit [DecidableEq P] in
theorem Sane.one_for_end (h : Sane s) {e : Nat × Bool} {c d : P ⊕ Fid} (hcd : c ≠ d)
    (hc : 0 < Sum.elim (fun p => (s.proc p).pipeEnds) (fun f => (s.file f).pipeEnd) c e) :
    Sum.elim (fun p => (s.proc p).pipeEnds) (fun f => (s.file f).pipeEnd) d e ≤ 0 := by
  classical
  have hle := h.ends.claims_le (fun r => endClaims_nonneg s r e) hcd
  have hone : s.openEnd e ≤ 1 := one_le _
  omega

omit [Fintype P] [DecidableEq P] in
theorem pipeclose_isOpen (w : Plumbing P) (b b' : Bool) :
    (w.pipeclose b).isOpen b' = (w.isOpen b' && b' != b) := by
  cases b <;> cases b' <;> simp [Plumbing.pipeclose, Plumbing.isOpen]

omit [Fintype P] [DecidableEq P] in
/-- When a page is given back, no end of its pipe is open. -/
theorem Attended.openEnd_freed {w : Plumbing P} (h : Attended w) (b : Bool) :
    openEnd (if w.freed then none else some w) b = openEnd (some w) b := by
  split
  · next hf =>
    obtain ⟨hr, hw⟩ := h.freed.mp hf
    have hclosed : w.isOpen b = false := by cases b <;> assumption
    simp [openEnd, hclosed]
  · rfl

omit [DecidableEq P] in
/-- Nobody is in a call on the end that is closed. -/
theorem Sane.referenced (h : Sane s) {ff : File} {w : Plumbing P} (ht : (s.proc p).todo = .release ff :: js)
    (hty : ff.type = .FD_PIPE) (hw : s.page ff.pipe = some w) (hopen : w.isOpen ff.writable = true) :
    Referenced w (.close ff.writable) := by
  have hclaim : ff.pipeEnd (ff.pipe, ff.writable) = 1 := one_pos ⟨hty, rfl, rfl⟩
  have hp : 0 < (s.proc p).pipeEnds (ff.pipe, ff.writable) := by
    have hle := le_sum_todo (fun j => Job.pipeEnd_nonneg j (ff.pipe, ff.writable))
      (ht ▸ List.mem_cons_self : Job.release ff ∈ (s.proc p).todo)
    rw [Job.pipeEnd, hclaim] at hle
    exact hle
  have hcall : ∀ q c, w.call q = some c → ff.writable ≠ !c.isRead := by
    intro q c hc hmode
    obtain ⟨f, -, hf, hk, hfw⟩ := h.calls ff.pipe w q c hw hc
    have hone := h.one_for_end (c := .inl p) (d := .inr f) Sum.inl_ne_inr hp
    have hfile : (s.file f).pipeEnd (ff.pipe, ff.writable) = 1 := one_pos ⟨hf, hk, hfw.trans hmode.symm⟩
    simp only [Sum.elim_inr, hfile] at hone
    omega
  generalize ff.writable = b at hopen hcall
  cases b with
  | true => exact ⟨hopen, fun q rest n hc => hcall q _ hc rfl⟩
  | false => exact ⟨hopen, fun q n hc => hcall q _ hc rfl⟩

theorem Sane.release (h : Sane s) {ff : File} (ht : (s.proc p).todo = .release ff :: js) :
    Sane (s.release p ff js) := by
  obtain ⟨hlife, hemb, hidle⟩ := h.ready ht (fun _ => nofun)
  have hfiles : ∀ g, ((s.proc p).does js).files g = (s.proc p).files g := by
    intro g
    rw [Proc.files_does, ht, List.map_cons, List.sum_cons, Job.files, zero_add, sub_add_cancel]
  have hinode : ∀ i, ((s.proc p).does js).inodes i = (s.proc p).inodes i - ff.inode i := by
    intro i
    rw [Proc.inodes_does, ht, List.map_cons, List.sum_cons, Job.inode]
    omega
  have hends : ∀ e, ((s.proc p).does js).pipeEnds e = (s.proc p).pipeEnds e - ff.pipeEnd e := by
    intro e
    rw [Proc.pipeEnds_does, ht, List.map_cons, List.sum_cons, Job.pipeEnd]
    omega
  have hok : ((s.proc p).does js).Ok s.file :=
    .plain hlife ((h.ok p).cwd hlife) (h.later ht) (h.order ht).2
      (fun fd hfd => (h.ok p).exit fd (ht ▸ List.mem_cons_of_mem _ hfd)) (h.ok p).typed
  have hforks : ∀ np fd, .fork np fd ∉ ((s.proc p).does js).todo := fun np fd hj => h.later ht _ hj
  unfold System.release
  split
  · next hty =>
    refine h.setProc p ((s.proc p).does js) rfl rfl rfl rfl hemb hidle hfiles (fun i => ?_) (fun e => ?_) hok hforks
    · have hnone : ff.inode i = 0 := one_neg (by rw [hty]; nofun)
      rw [hinode, hnone]
      exact (sub_self _).trans (by omega)
    · have hnone : ff.pipeEnd e = 0 := one_neg (by rw [hty]; nofun)
      rw [hends, hnone, sub_zero]
  · next hty =>
    have hclaim : ff.pipeEnd (ff.pipe, ff.writable) = 1 := one_pos ⟨hty, rfl, rfl⟩
    have hp : 0 < (s.proc p).pipeEnds (ff.pipe, ff.writable) := by
      have hnn := Proc.pipeEnds_nonneg ((s.proc p).does js) (ff.pipe, ff.writable)
      rw [hends, hclaim] at hnn
      omega
    obtain ⟨w, hw, hopen⟩ := h.end_open (c := .inl p) hp
    obtain ⟨⟨l, hcar⟩, hatt, hfree⟩ := h.pages _ w hw
    have hatt' : Attended (w.pipeclose ff.writable) := hatt.step hcar.contains (h.referenced ht hty hw hopen) rfl
    have hcar' := hcar.step (a := .close ff.writable) rfl
    simp only at hw hopen
    have hnone : ∀ k v, s.page k = some v → v.call p = none := by
      intro k v hv
      by_contra hc
      obtain ⟨c, hc⟩ := Option.ne_none_iff_exists'.mp hc
      obtain ⟨f, htodo, -⟩ := h.calls k v p c hv hc
      exact hidle f htodo
    have hstill : ∀ {w' : Plumbing P} (v), (if w'.freed then none else some w') = some v →
        v = w' ∧ v.freed = false := by
      intro w' v hv
      split at hv
      · cases hv
      · next hnf =>
        cases hv
        exact ⟨rfl, Bool.eq_false_of_not_eq_true hnf⟩
    rw [hw]
    simp only
    generalize hw' : w.pipeclose ff.writable = w' at hatt' hcar'
    refine h.setPage p ff.pipe ((s.proc p).does js) (if w'.freed then none else some w') rfl rfl rfl rfl rfl hemb
      hfiles (fun i => ?_) (fun b => ?_) (fun e he => ?_) (fun v hv => ?_) (fun v q c _ hv hc => ?_)
      (fun v c hv hc => ?_) (fun k v hk hv => hnone k v hv) hok hforks
    · have hnone : ff.inode i = 0 := one_neg (by rw [hty]; nofun)
      rw [hinode, hnone, sub_zero]
    · rw [hends, hatt'.openEnd_freed, hw, openEnd, openEnd, Option.any_some, Option.any_some, ← hw',
        pipeclose_isOpen, sub_sub_cancel_left]
      rcases eq_or_ne b ff.writable with rfl | hb
      · rw [hclaim, hopen]
        simp [one]
      · have hother : ff.pipeEnd (ff.pipe, b) = 0 := one_neg (fun hn => hb hn.2.2.symm)
        simp [hother, hb]
    · have hother : ff.pipeEnd e = 0 := one_neg (fun hn => he hn.2.1.symm)
      rw [hends, hother, sub_zero]
    · obtain ⟨rfl, hnf⟩ := hstill v hv
      exact ⟨hcar', hatt', hnf⟩
    · obtain ⟨rfl, -⟩ := hstill v hv
      rw [← hw', (pipeclose_calls ff.writable).1] at hc
      exact ⟨w, hw, hc⟩
    · obtain ⟨rfl, -⟩ := hstill v hv
      rw [← hw', (pipeclose_calls ff.writable).1, hnone _ w hw] at hc
      cases hc
  · next hty =>
    refine h.setProc p ((s.proc p).does js) rfl rfl rfl rfl hemb hidle hfiles (fun i => ?_) (fun e => ?_) hok hforks
    · rw [hinode]
      change Function.update s.iref ff.ip (s.iref ff.ip - 1) i - s.iref i = _
      rcases eq_or_ne i ff.ip with rfl | hi
      · have hone : ff.inode ff.ip = 1 := one_pos ⟨hty, rfl⟩
        rw [Function.update_self, hone]
        omega
      · have hnone : ff.inode i = 0 := one_neg (fun hn => hi hn.2.symm)
        rw [Function.update_of_ne hi, hnone]
        omega
    · have hnone : ff.pipeEnd e = 0 := one_neg (by rw [hty]; nofun)
      rw [hends, hnone, sub_zero]

omit [Fintype P] [DecidableEq P] in
/-- The process that runs in the pipe. -/
def PipeAct.actor : PipeAct P → Option P
  | .write p _ => some p
  | .read p _ => some p
  | .resume p => some p
  | .kill _ _ => none
  | .close _ => none

omit [Fintype P] in
/-- A section of `p` in a pipe leaves the ends and the calls of the others alone. -/
theorem pipeStep_own {w w' : Plumbing P} {a : PipeAct P} {l : List UInt8} (hcon : w.pipe.Contains l)
    (hs : pipeStep w a = some w') (hp : a.actor = some p) :
    (∀ q, q ≠ p → w'.call q = w.call q) ∧ w'.freed = w.freed ∧ (∀ b, w'.isOpen b = w.isOpen b) ∧
    ∀ c, w'.call p = some c → (∃ bs, Writes w p bs a) ∧ c.isRead = false ∨
      (∃ n, Reads w p n a) ∧ c.isRead = true := by
  have hact : ∀ {q bs}, Writes w q bs a → q = p := by
    intro q bs hw
    cases a with
    | write => exact hw.1.symm.trans (Option.some.inj hp)
    | resume => exact hw.1.symm.trans (Option.some.inj hp)
    | read => exact hw.elim
    | kill => exact hw.elim
    | close => exact hw.elim
  have hact' : ∀ {q n}, Reads w q n a → q = p := by
    intro q n hr
    cases a with
    | read => exact hr.1.symm.trans (Option.some.inj hp)
    | resume => exact hr.1.symm.trans (Option.some.inj hp)
    | write => exact hr.elim
    | kill => exact hr.elim
    | close => exact hr.elim
  cases pipeStep_effect hcon hs with
  | write q bs n hw _ h =>
    obtain rfl := hact hw
    have hopen : ∀ b, w'.isOpen b = w.isOpen b := by
      intro b
      unfold Plumbing.isOpen
      rw [h.readopen, h.writeopen]
    rcases h.ends with ⟨-, hcall, -⟩ | ⟨-, -, hcall, -⟩ | ⟨-, -, -, hcall, -⟩ <;>
    · refine ⟨fun r hr => by rw [hcall, Function.update_of_ne hr], h.freed, hopen, fun c hc => ?_⟩
      rw [hcall, Function.update_self] at hc
      cases hc <;> exact .inl ⟨⟨bs, hw⟩, rfl⟩
  | read q n hr _ h =>
    obtain rfl := hact' hr
    have hopen : ∀ b, w'.isOpen b = w.isOpen b := by
      intro b
      unfold Plumbing.isOpen
      rw [h.readopen, h.writeopen]
    rcases h.ends with ⟨-, -, -, hcall, -⟩ | ⟨-, -, -, -, ⟨-, hcall, -⟩ | ⟨-, hcall, -⟩⟩ <;>
    · refine ⟨fun r hr' => by rw [hcall, Function.update_of_ne hr'], h.freed, hopen, fun c hc => ?_⟩
      rw [hcall, Function.update_self] at hc
      cases hc <;> exact .inr ⟨⟨n, hr⟩, rfl⟩
  | kill q _ _ ha _ _ =>
    subst ha
    cases hp
  | close b ha _ =>
    subst ha
    cases hp

omit [Fintype P] [DecidableEq P] in
theorem sum_inPipe {c : Job P → ℤ} (hc : c (.inPipe f) = 0) (h : js = [] ∨ js = [.inPipe f]) :
    (js.map c).sum = 0 := by
  rcases h with rfl | rfl
  · rfl
  · simp [hc]

theorem Sane.pipeCall (h : Sane s) {a : PipeAct P} {fd : Fin NOFILE} (hact : a.actor = some p)
    (hlife : (s.proc p).life = .alive) (hfd : (s.proc p).ofile fd = some f)
    (hty : (s.file f).type = .FD_PIPE) (htodo : (s.proc p).todo = [] ∨ (s.proc p).todo = [.inPipe f])
    (hwrite : ∀ q bs, a = .write q bs → (s.file f).writable = true)
    (hread : ∀ q n, a = .read q n → (s.file f).writable = false) (hs : s.pipeCall p f a = some s') :
    Sane s' := by
  have hclaim : (s.file f).pipeEnd ((s.file f).pipe, (s.file f).writable) = 1 := one_pos ⟨hty, rfl, rfl⟩
  obtain ⟨w, hw, hopen⟩ := h.end_open (c := .inr f) (e := ((s.file f).pipe, (s.file f).writable))
    (by simp only [Sum.elim_inr, hclaim]; omega)
  simp only at hw hopen
  obtain ⟨⟨l, hcar⟩, hatt, hfree⟩ := h.pages _ w hw
  unfold System.pipeCall at hs
  rw [hw] at hs
  obtain ⟨w', hstep, rfl⟩ := Option.map_eq_some_iff.mp hs
  have hmode : ∀ c, w.call p = some c → (s.file f).writable = !c.isRead := by
    intro c hc
    obtain ⟨g, hg, -, -, hgw⟩ := h.calls _ w p c hw hc
    rcases htodo with ht | ht
    · rw [ht] at hg
      cases hg
    · rw [ht] at hg
      cases hg
      exact hgw
  have hw0 : Carries { w with killed := s.killed } l := ⟨hcar.contains, hcar.fifo⟩
  have ha0 : Attended { w with killed := s.killed } := ⟨hatt.freed, hatt.reader, hatt.writer⟩
  have href : Referenced { w with killed := s.killed } a := by
    cases a with
    | write q bs =>
      rw [hwrite q bs rfl] at hopen
      exact hopen
    | read q n =>
      rw [hread q n rfl] at hopen
      exact hopen
    | resume => trivial
    | kill => cases hact
    | close => cases hact
  obtain ⟨hcall, hfreed, hsame, hend⟩ := pipeStep_own hw0.contains hstep hact
  have hjs : ∀ o : Option Call, (if o = none then [] else [Job.inPipe (P := P) f]) = [] ∨
      (if o = none then [] else [Job.inPipe (P := P) f]) = [.inPipe f] := fun o => by
    split
    · exact .inl rfl
    · exact .inr rfl
  have hplain : ∀ {j : Job P}, j ∈ (if w'.call p = none then [] else [Job.inPipe f]) → j = .inPipe f := by
    intro j hj
    split at hj
    · cases hj
    · exact List.mem_singleton.mp hj
  refine h.setPage p (s.file f).pipe ((s.proc p).does (if w'.call p = none then [] else [.inPipe f]))
    (some w') rfl rfl rfl rfl rfl ?_ (fun g => ?_) (fun i => ?_)
    (fun b => ?_) (fun e _ => ?_) (fun v hv => ?_) (fun v q c hq hv hc => ?_) (fun v c hv hc => ?_)
    (fun k v hk hv => ?_) ?_ (fun np fd hj => ?_)
  · rw [hlife]
    exact nofun
  · rw [Proc.files_does, sum_inPipe rfl htodo, sum_inPipe rfl (hjs _)]
    omega
  · rw [Proc.inodes_does, sum_inPipe rfl htodo, sum_inPipe rfl (hjs _)]
    omega
  · rw [Proc.pipeEnds_does, sum_inPipe rfl htodo, sum_inPipe rfl (hjs _), hw, openEnd, openEnd,
      Option.any_some, Option.any_some, hsame b]
    change one (w.isOpen b = true) - one (w.isOpen b = true) = _
    omega
  · rw [Proc.pipeEnds_does, sum_inPipe rfl htodo, sum_inPipe rfl (hjs _)]
    omega
  · cases hv
    exact ⟨hw0.step hstep, ha0.step hw0.contains href hstep, hfreed.trans hfree⟩
  · cases hv
    rw [hcall q hq] at hc
    exact ⟨w, hw, hc⟩
  · cases hv
    refine ⟨f, ?_, hty, rfl, ?_⟩
    · rw [hc]
      rfl
    · rcases hend c hc with ⟨⟨bs, hws⟩, hr⟩ | ⟨⟨n, hrs⟩, hr⟩
      · rw [hr]
        cases a with
        | write q b => exact hwrite q b rfl
        | resume =>
          obtain ⟨-, m, hm⟩ := hws
          exact hmode _ hm
        | read => exact hws.elim
        | kill => exact hws.elim
        | close => exact hws.elim
      · rw [hr]
        cases a with
        | read q m => exact hread q m rfl
        | resume => exact hmode _ hrs.2
        | write => exact hrs.elim
        | kill => exact hrs.elim
        | close => exact hrs.elim
  · by_contra hc
    obtain ⟨c, hc⟩ := Option.ne_none_iff_exists'.mp hc
    obtain ⟨g, hg, -, hgk, -⟩ := h.calls k v p c hv hc
    rcases htodo with ht | ht
    · rw [ht] at hg
      cases hg
    · rw [ht] at hg
      cases hg
      exact hk hgk.symm
  · refine { h.ok p with
      fresh := fun j hj g hg => ?_, inPipe := fun g hg => ?_, exit := fun n hn => ?_
      idle := fun hn => absurd hlife hn, order := ?_ }
    · rw [hplain hj] at hg
      cases hg
    · cases hplain hg
      exact ⟨hty, fd, hfd⟩
    · cases hplain hn
    · change Orderly (if w'.call p = none then [] else [.inPipe f])
      split
      · trivial
      · exact ⟨.inl rfl, trivial⟩
  · cases hplain hj

/-- A step that only changes what `p` has still to do. -/
theorem Sane.setTodo (h : Sane s) (p : P) (js : List (Job P)) (hlife : (s.proc p).life ≠ .embryo)
    (hidle : ∀ f, (s.proc p).todo ≠ [.inPipe f])
    (hfiles : ∀ g, (js.map fun j => j.files g).sum = ((s.proc p).todo.map fun j => j.files g).sum)
    (hinodes : ∀ i, (js.map fun j => j.inode i).sum = ((s.proc p).todo.map fun j => j.inode i).sum)
    (hends : ∀ e, (js.map fun j => j.pipeEnd e).sum = ((s.proc p).todo.map fun j => j.pipeEnd e).sum)
    (ok : ((s.proc p).does js).Ok s.file) (hforks : ∀ np fd, .fork np fd ∉ js) : Sane (s.setTodo p js) := by
  refine h.setProc p ((s.proc p).does js) rfl rfl rfl rfl hlife hidle (fun g => ?_) (fun i => ?_) (fun e => ?_)
    ok hforks
  · rw [Proc.files_does, hfiles, sub_add_cancel]
  · rw [Proc.inodes_does, hinodes, sub_add_cancel]
    exact (sub_self _).trans (sub_self _).symm
  · rw [Proc.pipeEnds_does, hends, sub_add_cancel]

theorem Sane.exitAt (h : Sane s) {fd : Nat} (ht : (s.proc p).todo = .exit fd :: js) : Sane (s.exitAt p fd) := by
  obtain ⟨hlife, hemb, hidle⟩ := h.ready ht (fun _ => nofun)
  obtain rfl : js = [] := (h.order ht).1.resolve_right (fun hn => hn.1)
  obtain ⟨hheld, hclosed⟩ := (h.ok p).exit fd (ht ▸ List.mem_cons_self)
  unfold System.exitAt
  simp only
  split
  · next hfd =>
    have hnext : ∀ o : Fin NOFILE → Option Fid, o ⟨fd, hfd⟩ = none →
        (∀ fd' : Fin NOFILE, fd'.val < fd → o fd' = none) → ∀ fd' : Fin NOFILE, fd'.val < fd + 1 → o fd' = none := by
      intro o ho hlt fd' hfd'
      rcases Nat.lt_succ_iff_lt_or_eq.mp hfd' with hlt' | heq
      · exact hlt fd' hlt'
      · obtain rfl : fd' = ⟨fd, hfd⟩ := Fin.ext heq
        exact ho
    split
    · next hnone =>
      refine h.setTodo p [.exit (fd + 1)] hemb hidle (fun g => ht ▸ rfl) (fun i => ht ▸ rfl) (fun e => ht ▸ rfl)
        (.plain hlife ((h.ok p).cwd hlife) ?_ ⟨.inl rfl, trivial⟩ (fun n hn => ?_) (h.ok p).typed)
        (fun np fd' hj => ?_)
      · exact List.forall_mem_singleton.mpr trivial
      · cases List.mem_singleton.mp hn
        exact ⟨hheld, hnext _ hnone hclosed⟩
      · cases List.mem_singleton.mp hj
    · next f hf =>
      refine h.setProc p { s.proc p with ofile := Function.update (s.proc p).ofile ⟨fd, hfd⟩ none,
                                         todo := [.close f, .exit (fd + 1)] } rfl rfl rfl rfl hemb hidle
        (fun g => ?_) (fun i => ?_) (fun e => ?_)
        (.plain hlife ((h.ok p).cwd hlife) ?_ ⟨.inr ⟨trivial, ?_⟩, .inl rfl, trivial⟩ (fun n hn => ?_)
          (fun fd' g hg => ?_)) (fun np fd' hj => ?_)
      · rw [Proc.files_fd (s.proc p) _ rfl, ht, hf]
        simp [Job.files, one]
      · refine (sub_self _).trans (sub_eq_zero_of_eq ?_).symm
        apply Proc.inodes_same
        · rfl
        · rfl
        · rw [ht]
          rfl
      · rw [Proc.pipeEnds, Proc.pipeEnds, ht]
        rfl
      · intro j hj
        rcases List.mem_cons.mp hj with rfl | hj
        · trivial
        · rw [List.mem_singleton.mp hj]
          trivial
      · exact List.forall_mem_singleton.mpr trivial
      · have hn : n = fd + 1 := by simpa using hn
        subst hn
        refine ⟨hheld, hnext _ (Function.update_self ..) (fun fd' hfd' => ?_)⟩
        have hne : fd' ≠ ⟨fd, hfd⟩ := Fin.ne_of_lt hfd'
        exact (Function.update_of_ne hne ..).trans (hclosed fd' hfd')
      · rcases eq_or_ne fd' ⟨fd, hfd⟩ with rfl | hne
        · simp at hg
        · exact (h.ok p).typed fd' g (by simpa [hne] using hg)
      · simp at hj
  · next hfd =>
    have hall : ∀ fd', (s.proc p).ofile fd' = none := fun fd' => hclosed fd' (by omega)
    split
    · next hnone => exact absurd hnone ((h.ok p).cwd hlife)
    · next i hi =>
      refine h.setProc p { s.proc p with cwd := none, todo := [], life := .zombie } rfl rfl rfl rfl hemb hidle
        (fun g => ?_) (fun k => ?_) (fun e => ?_)
        { typed := (h.ok p).typed, fresh := fun j hj => absurd hj List.not_mem_nil
          inPipe := fun f hf => absurd hf List.not_mem_nil, exit := fun n hn => absurd hn List.not_mem_nil
          idle := fun _ => ⟨rfl, rfl, hheld⟩, empty := fun _ => hall, cwd := (fun ha => by cases ha), order := trivial }
        (fun np fd' hj => absurd hj List.not_mem_nil)
      · rw [Proc.files, Proc.files, ht]
        rfl
      · change Function.update s.iref i (s.iref i - 1) k - s.iref k = _
        have hcwd : one ((none : Option Nat) = some k) = 0 := one_neg (Option.some_ne_none k).symm
        rw [Proc.inodes, Proc.inodes, ht, hi]
        simp only
        rcases eq_or_ne k i with rfl | hk
        · rw [Function.update_self, one_pos rfl]
          simp [Job.inode, one]
        · rw [Function.update_of_ne hk]
          simp [Job.inode, one, hk.symm]
      · rw [Proc.pipeEnds, Proc.pipeEnds, ht]
        rfl

omit [DecidableEq P] in
/-- A file that is not in use has no type. -/
theorem Sane.free (h : Sane s) (hf : (s.file f).ref = 0) : (s.file f).type = .FD_NONE := by
  by_contra hn
  have := (h.good f).live hn
  omega

theorem Sane.pipe1 (h : Sane s) {f0 f1 : Fid} (ht : (s.proc p).todo = .pipe1 f0 :: js)
    (ha : s.filealloc = some f1) :
    Sane ((s.setFile f1 { s.file f1 with ref := 1 }).setTodo p [.pipe2 f0 f1]) := by
  obtain ⟨hlife, hemb, hidle⟩ := h.ready ht (fun _ => nofun)
  obtain rfl : js = [] := (h.order ht).1.resolve_right (fun hn => hn.1)
  have hfree := filealloc_spec ha
  obtain ⟨hty0, href0⟩ := (h.ok p).fresh _ (ht ▸ List.mem_cons_self) f0 List.mem_cons_self
  have hne : f0 ≠ f1 := by
    rintro rfl
    omega
  refine h.setFile p f1 ((s.proc p).does [.pipe2 f0 f1]) { s.file f1 with ref := 1 } rfl rfl rfl rfl rfl hemb hidle
    ?_ (fun g hg => ?_) (fun i => ?_) (fun e => ?_) ⟨fun _ => Int.one_pos, (h.good f1).mode⟩ (.inl ?_)
    { h.ok p with
      typed := (h.ok p).typed_update (fun fd hfd => (h.ok p).typed fd f1 hfd)
      fresh := fun j hj g hg => ?_, inPipe := fun g hg => ?_, exit := fun n hn => ?_
      idle := fun hn => absurd hlife hn, order := ⟨.inl rfl, trivial⟩ } (fun np fd hj => ?_)
  · rw [Proc.files_does, ht, hfree]
    simp only [List.map_cons, List.map_nil, List.sum_cons, List.sum_nil, Job.files, one_pos]
    omega
  · rw [Proc.files_does, ht]
    simp [Job.files, one, hg.symm]
  · rw [Proc.inodes_does, ht]
    exact congrArg (· + _) (sub_add_cancel _ _)
  · rw [Proc.pipeEnds_does, ht]
    exact congrArg (· + _) (sub_add_cancel _ _)
  · rw [hfree]
    exact Proc.files_nonneg _ _
  · obtain rfl := List.mem_singleton.mp hj
    rcases List.mem_cons.mp hg with rfl | hg
    · rw [Function.update_of_ne hne]
      exact ⟨hty0, href0⟩
    · obtain rfl := List.mem_singleton.mp hg
      rw [Function.update_self]
      exact ⟨h.free hfree, rfl⟩
  · cases List.mem_singleton.mp hg
  · cases List.mem_singleton.mp hn
  · cases List.mem_singleton.mp hj

omit [Fintype P] [DecidableEq P] in
theorem boot_attended (data : Fin PIPESIZE → UInt8) : Attended (Plumbing.boot data : Plumbing P) :=
  ⟨by simp [Plumbing.boot], nofun, nofun⟩

/-- The two files of a new pipe. -/
theorem Sane.pipe2 (h : Sane s) {f0 f1 : Fid} {k : Nat} {data : Fin PIPESIZE → UInt8} {x : Proc P}
    (ht : (s.proc p).todo = .pipe2 f0 f1 :: js) (hk : s.page k = none)
    (hfile : s'.file = Function.update (Function.update s.file f0
        { s.file f0 with type := .FD_PIPE, readable := true, writable := false, pipe := k }) f1
      { s.file f1 with type := .FD_PIPE, readable := false, writable := true, pipe := k })
    (hpage : s'.page = Function.update s.page k (some (Plumbing.boot data))) (hfault : s'.fault = s.fault)
    (hproc : s'.proc = Function.update s.proc p x) (hiref : s'.iref = s.iref)
    (hfiles : ∀ g, x.files g = (s.proc p).files g) (hinodes : ∀ i, x.inodes i = (s.proc p).inodes i)
    (hends : ∀ e, x.pipeEnds e = (s.proc p).pipeEnds e)
    (hlife : x.life = .alive) (hcwd : x.cwd = (s.proc p).cwd) (hplain : ∀ j ∈ x.todo, j.plain)
    (hord : Orderly x.todo) (hexit : ∀ fd, .exit fd ∉ x.todo)
    (hfds : ∀ fd g, x.ofile fd = some g → g = f0 ∨ g = f1 ∨ (s.proc p).ofile fd = some g) : Sane s' := by
  obtain ⟨hlife0, hemb, hidle⟩ := h.ready ht (fun _ => nofun)
  obtain ⟨hty0, href0⟩ := (h.ok p).fresh _ (ht ▸ List.mem_cons_self) f0 List.mem_cons_self
  obtain ⟨hty1, href1⟩ := (h.ok p).fresh _ (ht ▸ List.mem_cons_self) f1 (List.mem_cons_of_mem _ List.mem_cons_self)
  have hne : f0 ≠ f1 := by
    rintro rfl
    have hjob := Proc.files_job (g := f0) (ht ▸ List.mem_cons_self : Job.pipe2 f0 f0 ∈ (s.proc p).todo)
    have hle := h.files_le p f0
    simp only [Job.files, one_pos] at hjob
    omega
  have hself : s'.proc p = x := by rw [hproc, Function.update_self]
  have hother : ∀ q, q ≠ p → s'.proc q = s.proc q := fun q hq => by rw [hproc, Function.update_of_ne hq]
  have hf0 : s'.file f0 = { s.file f0 with type := .FD_PIPE, readable := true, writable := false, pipe := k } := by
    rw [hfile, Function.update_of_ne hne, Function.update_self]
  have hf1 : s'.file f1 = { s.file f1 with type := .FD_PIPE, readable := false, writable := true, pipe := k } := by
    rw [hfile, Function.update_self]
  have hfo : ∀ g, g ≠ f0 → g ≠ f1 → s'.file g = s.file g := fun g h0 h1 => by
    rw [hfile, Function.update_of_ne h1, Function.update_of_ne h0]
  have hcase : ∀ g, g = f0 ∨ g = f1 ∨ g ≠ f0 ∧ g ≠ f1 := fun g => by
    rcases eq_or_ne g f0 with h0 | h0
    · exact .inl h0
    rcases eq_or_ne g f1 with h1 | h1
    · exact .inr (.inl h1)
    · exact .inr (.inr ⟨h0, h1⟩)
  have hpageK : s'.page k = some (Plumbing.boot data) := by rw [hpage, Function.update_self]
  have hpageNe : ∀ k', k' ≠ k → s'.page k' = s.page k' := fun k' h' => by rw [hpage, Function.update_of_ne h']
  have hcounts : CountsExact s' := by
    refine ⟨h.files.congr (fun g => ?_) (fun q => ?_), h.inodes.congr (fun i => by rw [hiref]) (fun c => ?_),
      h.ends.pass (p := .inr f0) (q := .inr f1) (fun he => hne (Sum.inr.inj he)) (fun c h0 h1 => ?_) (fun e => ?_)⟩
    · rcases hcase g with rfl | rfl | ⟨h0, h1⟩
      · rw [hf0]
      · rw [hf1]
      · rw [hfo g h0 h1]
    · rcases eq_or_ne q p with rfl | hq
      · rw [hself]
        exact funext hfiles
      · rw [hother q hq]
    · rcases c with q | g
      · rcases eq_or_ne q p with rfl | hq
        · rw [Sum.elim_inl, Sum.elim_inl, hself]
          exact funext hinodes
        · rw [Sum.elim_inl, Sum.elim_inl, hother q hq]
      · funext i
        rcases hcase g with rfl | rfl | ⟨h0, h1⟩
        · rw [Sum.elim_inr, Sum.elim_inr, hf0, File.inode, File.inode, hty0, one_neg nofun, one_neg nofun]
        · rw [Sum.elim_inr, Sum.elim_inr, hf1, File.inode, File.inode, hty1, one_neg nofun, one_neg nofun]
        · rw [Sum.elim_inr, Sum.elim_inr, hfo g h0 h1]
    · rcases c with q | g
      · rcases eq_or_ne q p with rfl | hq
        · rw [Sum.elim_inl, Sum.elim_inl, hself]
          exact funext hends
        · rw [Sum.elim_inl, Sum.elim_inl, hother q hq]
      · rw [Sum.elim_inr, Sum.elim_inr, hfo g (fun hg => h0 (hg ▸ rfl)) (fun hg => h1 (hg ▸ rfl))]
    · obtain ⟨k', b⟩ := e
      rw [Sum.elim_inr, Sum.elim_inr, Sum.elim_inr, Sum.elim_inr, hf0, hf1]
      simp only [File.pipeEnd, hty0, hty1, System.openEnd]
      rcases eq_or_ne k' k with rfl | h'
      · rw [hpageK, hk]
        cases b <;> simp [openEnd, one, Plumbing.isOpen, Plumbing.boot]
      · rw [hpageNe k' h', sub_self]
        simp [one, h'.symm]
  have hfree : ∀ q, q ≠ p → ∀ g, 0 < (s.proc q).files g → g ≠ f0 ∧ g ≠ f1 := by
    intro q hq g hg
    have hboth := h.files.claims_le (fun r => Proc.files_nonneg _ g) hq
    have hjob := Proc.files_job (g := g) (ht ▸ List.mem_cons_self : Job.pipe2 f0 f1 ∈ (s.proc p).todo)
    have hn0 := one_nonneg (f0 = g)
    have hn1 := one_nonneg (f1 = g)
    rw [Job.files] at hjob
    constructor
    · rintro rfl
      rw [one_pos rfl] at hjob
      omega
    · rintro rfl
      rw [one_pos rfl] at hjob
      omega
  have hok : (s'.proc p).Ok s'.file := by
    rw [hself]
    refine .plain hlife ?_ hplain hord (fun fd hfd => absurd hfd (hexit fd)) (fun fd g hg => ?_)
    · rw [hcwd]
      exact (h.ok p).cwd hlife0
    · rcases hcase g with rfl | rfl | ⟨h0, h1⟩
      · rw [hf0]
        exact nofun
      · rw [hf1]
        exact nofun
      · rw [hfo g h0 h1]
        exact (h.ok p).typed fd g (((hfds fd g hg).resolve_left h0).resolve_left h1)
  have hold : ∀ k' w q c, s'.page k' = some w → w.call q = some c → s.page k' = some w := by
    intro k' w q c hw hc
    rcases eq_or_ne k' k with rfl | h'
    · rw [hpageK] at hw
      cases hw
      cases hc
    · rwa [hpageNe k' h'] at hw
  refine h.of_step p p (.inl rfl) hcounts (hfault.trans h.fault) (fun g => ?_) (fun q hq _ => hother q hq)
    (fun q hq g hg => ?_) hok hok (fun k' w hw => ?_) (fun k' w q c _ hw hc => ⟨w, hold k' w q c hw hc, hc⟩)
    (fun k' w c hw hc => ?_) (h.forks_local hemb hother (fun np fd => hself ▸ hplain (.fork np fd)))
  · rcases hcase g with rfl | rfl | ⟨h0, h1⟩
    · rw [hf0]
      exact ⟨fun _ => by simp only; omega, fun _ => rfl⟩
    · rw [hf1]
      exact ⟨fun _ => by simp only; omega, fun _ => rfl⟩
    · rw [hfo g h0 h1]
      exact h.good g
  · obtain ⟨h0, h1⟩ := hfree q hq g hg
    rw [hfo g h0 h1]
    exact ⟨rfl, id⟩
  · rcases eq_or_ne k' k with rfl | h'
    · rw [hpageK] at hw
      cases hw
      exact ⟨⟨[], boot_carries data⟩, boot_attended data, rfl⟩
    · exact h.pages k' w ((hpageNe k' h').symm.trans hw)
  · obtain ⟨f, htodo, -⟩ := h.calls k' w p c (hold k' w p c hw hc) hc
    exact absurd htodo (hidle f)

theorem Sane.pipealloc (h : Sane s) {f0 f1 : Fid} {page : Option (Nat × (Fin PIPESIZE → UInt8))}
    (ht : (s.proc p).todo = .pipe2 f0 f1 :: js) (hs : s.pipealloc p f0 f1 page = some s') : Sane s' := by
  obtain ⟨hlife, hemb, hidle⟩ := h.ready ht (fun _ => nofun)
  obtain rfl : js = [] := (h.order ht).1.resolve_right (fun hn => hn.1)
  have hplain : ∀ j ∈ [Job.close (P := P) f0, .close f1], j.plain := by
    intro j hj
    rcases List.mem_cons.mp hj with rfl | hj
    · trivial
    · rw [List.mem_singleton.mp hj]
      trivial
  have hord : Orderly [Job.close (P := P) f0, .close f1] :=
    ⟨.inr ⟨trivial, fun j hj => hplain j (List.mem_cons_of_mem _ hj)⟩, .inl rfl, trivial⟩
  have hjobs : ∀ g, ([Job.close (P := P) f0, .close f1].map fun j => j.files g).sum =
      ([Job.pipe2 (P := P) f0 f1].map fun j => j.files g).sum := by
    intro g
    simp only [List.map_cons, List.map_nil, List.sum_cons, List.sum_nil, Job.files]
    omega
  unfold System.pipealloc at hs
  split at hs
  · cases hs
    refine h.setTodo p _ hemb hidle (fun g => ht ▸ hjobs g) (fun i => ht ▸ rfl) (fun e => ht ▸ rfl)
      (.plain hlife ((h.ok p).cwd hlife) hplain hord (fun n hn => ?_) (h.ok p).typed) (fun np fd hj => ?_)
    · simp [Proc.does] at hn
    · simp at hj
  · next k data =>
    obtain ⟨hk, hs⟩ := Option.ite_none_right_eq_some.mp hs
    simp only at hs
    split at hs
    · next ofile hall =>
      cases hs
      obtain ⟨o, ho, ho'⟩ := Option.bind_eq_some_iff.mp hall
      obtain ⟨fd0, hfd0, rfl⟩ := fdalloc_spec ho
      obtain ⟨fd1, hfd1, rfl⟩ := fdalloc_spec ho'
      let o := Function.update (Function.update (s.proc p).ofile fd0 (some f0)) fd1 (some f1)
      refine h.pipe2 (x := { s.proc p with todo := [], ofile := o }) ht hk rfl rfl rfl rfl rfl (fun g => ?_)
        (fun i => ?_) (fun e => ?_) hlife rfl (fun j hj => absurd hj List.not_mem_nil) trivial
        (fun fd => List.not_mem_nil) (fun fd g hg => ?_)
      · rw [Proc.files, Proc.files, ht]
        change ∑ fd, one (Function.update (Function.update (s.proc p).ofile fd0 (some f0)) fd1 (some f1) fd =
          some g) + 0 = _
        rw [fds_update, fds_update, hfd1, hfd0]
        simp [Job.files, one, add_assoc]
      · apply Proc.inodes_same
        · rfl
        · rfl
        · rw [ht]
          rfl
      · rw [Proc.pipeEnds, Proc.pipeEnds, ht]
        rfl
      · have hg : o fd = some g := hg
        simp only [o, Function.update_apply] at hg
        split at hg
        · exact .inr (.inl (Option.some.inj hg).symm)
        · split at hg
          · exact .inl (Option.some.inj hg).symm
          · exact .inr (.inr hg)
    · cases hs
      refine h.pipe2 (x := (s.proc p).does [.close f0, .close f1])
        ht hk rfl rfl rfl rfl rfl (fun g => ?_) (fun i => ?_) (fun e => ?_) hlife rfl hplain hord ?_
        (fun fd g hg => .inr (.inr hg))
      · rw [Proc.files_does, ht, hjobs]
        omega
      · rw [Proc.inodes_does, ht]
        exact sub_add_cancel _ _
      · rw [Proc.pipeEnds_does, ht]
        exact sub_add_cancel _ _
      · intro fd hfd
        simp [Proc.does] at hfd

/-- Who is a child of `fork` after a section of `fork` of `p` on the child `np`. -/
theorem Sane.forks_fork (h : Sane s) {y : Proc P} (hp : (s.proc p).life = .alive)
    (honly : ∀ q fd, .fork np fd ∈ (s.proc q).todo → q = p) (hchild : s'.proc np = y) (hy : y.todo = [])
    (hother : ∀ q, q ≠ p → q ≠ np → s'.proc q = s.proc q)
    (hjob : ∀ j ∈ (s'.proc p).todo, ∃ fd : Nat, j = .fork np fd ∧ y.life = .embryo ∧
      ∀ fd' : Fin NOFILE, fd ≤ fd'.val → y.ofile fd' = none) :
    ∀ q m fd, .fork m fd ∈ (s'.proc q).todo → (s'.proc m).life = .embryo ∧
      (∀ fd', fd ≤ fd'.val → (s'.proc m).ofile fd' = none) ∧
      ∀ r fd', .fork m fd' ∈ (s'.proc r).todo → r = q := by
  have hidle : ∀ {m fd}, Job.fork m fd ∉ (s'.proc np).todo := by
    intro m fd hj
    rw [hchild, hy] at hj
    cases hj
  intro q m fd hj
  rcases eq_or_ne q p with rfl | hq
  · obtain ⟨n, hn, hemb, hnone⟩ := hjob _ hj
    cases hn
    rw [hchild]
    refine ⟨hemb, hnone, fun r fd' hr => ?_⟩
    by_contra hrq
    have hrn : r ≠ np := by
      rintro rfl
      exact hidle hr
    rw [hother r hrq hrn] at hr
    exact hrq (honly r fd' hr)
  · have hqn : q ≠ np := by
      rintro rfl
      exact hidle hj
    rw [hother q hq hqn] at hj
    obtain ⟨hemb, hfds, hone⟩ := h.forks q m fd hj
    have hmn : m ≠ np := by
      rintro rfl
      exact hq (honly q fd hj)
    have hmp : m ≠ p := by
      rintro rfl
      rw [hp] at hemb
      cases hemb
    rw [hother m hmp hmn]
    refine ⟨hemb, hfds, fun r fd' hr => ?_⟩
    have hrp : r ≠ p := by
      rintro rfl
      obtain ⟨n, hn, -⟩ := hjob _ hr
      cases hn
      exact hmn rfl
    have hrn : r ≠ np := by
      rintro rfl
      exact hidle hr
    rw [hother r hrp hrn] at hr
    exact hone r fd' hr

/-- A section of `fork` of `p`, on the child `np` and the file `f`. -/
theorem Sane.forkStep (h : Sane s) {y : Proc P} {z : File} (hp : (s.proc p).life = .alive)
    (hnp : (s.proc np).life ≠ .alive)
    (htodo : (s.proc p).todo = [] ∨ ∃ fd, (s.proc p).todo = [.fork np fd])
    (honly : ∀ q fd, .fork np fd ∈ (s.proc q).todo → q = p)
    (hjs : js = [] ∨ ∃ fd : Nat, js = [.fork np fd] ∧ y.life = .embryo ∧ ∀ fd' : Fin NOFILE, fd ≤ fd'.val →
      y.ofile fd' = none)
    (hidle : ∀ g, (s.proc p).todo ≠ [.inPipe g])
    (hfile : s'.file = Function.update s.file f z) (hpage : s'.page = s.page) (hfault : s'.fault = s.fault)
    (hproc : s'.proc = Function.update (Function.update s.proc np y) p ((s.proc p).does js))
    (hz : z = (s.file f).setRef z.ref)
    (hmine : z.ref = (s.file f).ref ∨ z.ref = (s.file f).ref + 1 ∧ 0 < (s.proc p).files f)
    (hfiles : ∀ g, y.files g = (s.proc np).files g + (z.ref - (s.file f).ref) * one (g = f))
    (hinodes : ∀ i, s'.iref i - s.iref i = y.inodes i - (s.proc np).inodes i)
    (hends : ∀ e, y.pipeEnds e = (s.proc np).pipeEnds e) (hy : y.todo = []) (oky : y.Ok s'.file) :
    Sane s' := by
  have hne : np ≠ p := by
    rintro rfl
    exact hnp hp
  have hself : s'.proc p = (s.proc p).does js := by rw [hproc, Function.update_self]
  have hchild : s'.proc np = y := by rw [hproc, Function.update_of_ne hne, Function.update_self]
  have hother : ∀ q, q ≠ p → q ≠ np → s'.proc q = s.proc q := fun q hq hq' => by
    rw [hproc, Function.update_of_ne hq, Function.update_of_ne hq']
  have hf : s'.file f = z := by rw [hfile, Function.update_self]
  have hsame : ∀ g, g ≠ f → s'.file g = s.file g := fun g hg => by rw [hfile, Function.update_of_ne hg]
  have htype : ∀ g, s'.file g = (s.file g).setRef (s'.file g).ref := fun g => by
    rcases eq_or_ne g f with rfl | hg
    · rw [hf]
      exact hz
    · rw [hsame g hg]
      rfl
  have hkind : ∀ g, (s'.file g).type = (s.file g).type := fun g => by
    rw [htype g]
    rfl
  have hclaims := Proc.does_fork htodo (hjs.imp_right fun ⟨fd, hfd, _⟩ => ⟨fd, hfd⟩)
  have hjob : ∀ j ∈ js, ∃ fd : Nat, j = .fork np fd ∧ y.life = .embryo ∧ ∀ fd' : Fin NOFILE, fd ≤ fd'.val →
      y.ofile fd' = none := by
    intro j hj
    rcases hjs with rfl | ⟨fd, rfl, hfd⟩
    · cases hj
    · exact ⟨fd, List.mem_singleton.mp hj, hfd⟩
  have hok : (s'.proc p).Ok s'.file := by
    rw [hself]
    refine { h.ok p with
      typed := fun fd g hg => ?_, fresh := fun j hj g hg => ?_, inPipe := fun g hg => ?_
      exit := fun n hn => ?_, idle := fun hn => absurd hp hn, order := ?_ }
    · rw [hkind]
      exact (h.ok p).typed fd g hg
    · obtain ⟨fd, rfl, -⟩ := hjob j hj
      cases hg
    · obtain ⟨fd, hfd, -⟩ := hjob _ hg
      cases hfd
    · obtain ⟨fd, hfd, -⟩ := hjob _ hn
      cases hfd
    · change Orderly js
      rcases hjs with rfl | ⟨fd, rfl, -⟩
      · trivial
      · exact ⟨.inl rfl, trivial⟩
  refine h.of_step p np (.inr hnp) ?_ (hfault.trans h.fault) (fun g => ?_) hother (fun q hq g hg => ?_) hok
    (hchild ▸ oky) (hpage ▸ h.pages) (fun k w q c _ hw hc => ⟨w, hpage ▸ hw, hc⟩) (fun k w c hw hc => ?_)
    (fun q m fd hj => ?_)
  · refine h.shift np f (fun q hq => ?_) hsame (fun g => ?_) (fun i => ?_) (fun e => ?_)
    · rcases eq_or_ne q p with rfl | hq'
      · rw [hself]
        exact hclaims
      · rw [hother q hq' hq]
        exact ⟨rfl, rfl, rfl⟩
    · rw [hchild, hfiles]
      rcases eq_or_ne g f with rfl | hg
      · rw [hf, one_pos rfl]
        omega
      · rw [hsame g hg, one_neg hg]
        omega
    · rw [hchild, hf, hz]
      exact (hinodes i).trans (add_zero _).symm |>.trans (congrArg _ (sub_self _).symm)
    · rw [hchild, hends, hf, hz, System.openEnd, hpage]
      change _ - Ipc.openEnd (s.page e.1) e.2 = _ + ((s.file f).pipeEnd e - (s.file f).pipeEnd e)
      omega
  · refine ⟨fun hn => ?_, fun ht => ?_⟩
    · rw [hkind] at hn
      have hpos := (h.good g).live hn
      rcases eq_or_ne g f with rfl | hg
      · rw [hf]
        omega
      · rw [hsame g hg]
        exact hpos
    · rw [hkind] at ht
      rw [htype g]
      exact (h.good g).mode ht
  · refine ⟨htype g, fun hr => ?_⟩
    rcases eq_or_ne g f with rfl | hg'
    · have hboth := h.files.claims_le (fun r => Proc.files_nonneg _ g) hq
      rw [hf]
      omega
    · rw [hsame g hg']
      exact hr
  · obtain ⟨g, hg, -⟩ := h.calls k w p c (hpage ▸ hw) hc
    exact absurd hg (hidle g)
  · refine h.forks_fork hp honly hchild hy hother ?_ q m fd hj
    rw [hself]
    exact hjob

theorem Sane.forkAt (h : Sane s) {fd : Nat} (ht : (s.proc p).todo = .fork np fd :: js) :
    Sane (s.forkAt p np fd) := by
  obtain ⟨hlife, hemb, hidle⟩ := h.ready ht (fun _ => nofun)
  obtain rfl : js = [] := (h.order ht).1.resolve_right (fun hn => hn.1)
  obtain ⟨hnp, hfds, honly⟩ := h.forks p np fd (ht ▸ List.mem_cons_self)
  have hchild : (s.proc np).life ≠ .alive := by
    rw [hnp]
    exact nofun
  obtain ⟨htodo, hcwd, hheld⟩ := (h.ok np).idle hchild
  have hne : np ≠ p := by
    rintro rfl
    exact hchild hlife
  unfold System.forkAt
  simp only
  split
  · next hfd =>
    have hmore : ∀ fd' : Fin NOFILE, fd + 1 ≤ fd'.val → (s.proc np).ofile fd' = none :=
      fun fd' hfd' => hfds fd' (by omega)
    split
    · next hnone =>
      refine h.forkStep (f := 0) (z := s.file 0) (y := s.proc np) hlife hchild (.inr ⟨fd, ht⟩) honly
        (.inr ⟨fd + 1, rfl, hnp, hmore⟩) hidle (Function.update_eq_self ..).symm rfl rfl ?_ rfl (.inl rfl)
        (fun g => ?_) (fun i => ?_) (fun e => rfl) htodo (h.ok np)
      · rw [Function.update_eq_self]
        rfl
      · rw [sub_self, zero_mul, add_zero]
      · exact (sub_self _).trans (sub_self _).symm
    · next f hf =>
      have hpos := Proc.files_ofile hf
      have hdup : s.filedup f = some (s.setFile f { s.file f with ref := (s.file f).ref + 1 }) := by
        have hle := h.files_le p f
        unfold System.filedup
        rw [if_neg (by omega)]
      have hempty : (s.proc np).ofile ⟨fd, hfd⟩ = none := hfds _ (le_refl fd)
      rw [hdup]
      simp only
      let o := Function.update (s.proc np).ofile ⟨fd, hfd⟩ (some f)
      have ho : ∀ fd' g, o fd' = some g → g = f ∨ (s.proc np).ofile fd' = some g := by
        intro fd' g hg
        simp only [o, Function.update_apply] at hg
        split at hg
        · exact .inl (Option.some.inj hg).symm
        · exact .inr hg
      refine h.forkStep (f := f) (z := { s.file f with ref := (s.file f).ref + 1 })
        (y := { s.proc np with ofile := o }) hlife hchild (.inr ⟨fd, ht⟩) honly
        (.inr ⟨fd + 1, rfl, hnp, fun fd' hfd' => ?_⟩) hidle rfl rfl rfl ?_ rfl (.inr ⟨rfl, hpos⟩)
        (fun g => ?_) (fun i => ?_) (fun e => rfl) htodo
        { h.ok np with
          typed := fun fd' g hg => ?_, fresh := fun j hj => absurd hj (htodo ▸ List.not_mem_nil)
          inPipe := fun g hg => absurd hg (htodo ▸ List.not_mem_nil)
          exit := fun n hn => absurd hn (htodo ▸ List.not_mem_nil), empty := fun hn => ?_ }
      · have hne' : fd' ≠ ⟨fd, hfd⟩ := Fin.ne_of_gt (show fd < fd'.val by omega)
        exact (Function.update_of_ne hne' ..).trans (hmore fd' hfd')
      · change Function.update (Function.update s.proc np { s.proc np with ofile := o }) p
          ((Function.update s.proc np { s.proc np with ofile := o } p).does _) = _
        rw [Function.update_of_ne hne.symm]
      · change ∑ fd', one (o fd' = some g) + _ = _
        rw [fds_update, hempty, Proc.files]
        simp only [one_neg (Option.some_ne_none g).symm, Option.some_inj, eq_comm (a := f)]
        rw [add_sub_cancel_left, one_mul]
        omega
      · change s.iref i - s.iref i = (s.proc np).inodes i - (s.proc np).inodes i
        rw [sub_self, sub_self]
      · rcases ho fd' g hg with rfl | hg
        · change (Function.update s.file g { s.file g with ref := (s.file g).ref + 1 } g).type ≠ _
          rw [Function.update_self]
          exact (h.ok p).typed _ g hf
        · exact (h.ok np).typed_update (y := { s.file f with ref := (s.file f).ref + 1 })
            (fun _ _ => (h.ok p).typed _ f hf) fd' g hg
      · have hn : (s.proc np).life = .unused ∨ (s.proc np).life = .zombie := hn
        rw [hnp] at hn
        simp at hn
  · next hfd =>
    split
    · next hnone => exact absurd hnone ((h.ok p).cwd hlife)
    · next i hi =>
      refine h.forkStep (f := 0) (z := s.file 0) (y := { s.proc np with cwd := some i, life := .alive })
        hlife hchild (.inr ⟨fd, ht⟩) honly (.inl rfl) hidle (Function.update_eq_self ..).symm rfl rfl ?_ rfl
        (.inl rfl) (fun g => ?_) (fun k => ?_) (fun e => rfl) htodo
        (.plain rfl (Option.some_ne_none i) ?_ ?_ ?_ (h.ok np).typed)
      · change Function.update (Function.update s.proc np _) p ((Function.update s.proc np _ p).does _) = _
        rw [Function.update_of_ne hne.symm]
      · rw [sub_self, zero_mul, add_zero]
        rfl
      · change Function.update s.iref i (s.iref i + 1) k - s.iref k = _
        rw [Proc.inodes, Proc.inodes, hcwd]
        simp only [one_neg (Option.some_ne_none k).symm]
        rcases eq_or_ne k i with rfl | hk
        · rw [Function.update_self, one_pos rfl]
          omega
        · rw [Function.update_of_ne hk, one_neg (fun he => hk (Option.some.inj he).symm)]
          omega
      · exact fun j hj => absurd hj (htodo ▸ List.not_mem_nil)
      · change Orderly (s.proc np).todo
        rw [htodo]
        trivial
      · exact fun n hn => absurd hn (htodo ▸ List.not_mem_nil)

theorem Sane.go (h : Sane s) {page : Option (Nat × (Fin PIPESIZE → UInt8))} (hs : s.go p page = some s') :
    Sane s' := by
  unfold System.go at hs
  split at hs
  · cases hs
  · next f js ht =>
    cases hs
    exact h.fileclose ht
  · next ff js ht =>
    cases hs
    exact h.release ht
  · next fd js ht =>
    cases hs
    exact h.exitAt ht
  · next np fd js ht =>
    cases hs
    exact h.forkAt ht
  · next f0 js ht =>
    split at hs
    · cases hs
      obtain ⟨hlife, hemb, hidle⟩ := h.ready ht (fun _ => nofun)
      obtain rfl : js = [] := (h.order ht).1.resolve_right (fun hn => hn.1)
      refine h.setTodo p [.close f0] hemb hidle (fun g => ht ▸ rfl) (fun i => ht ▸ rfl) (fun e => ht ▸ rfl)
        (.plain hlife ((h.ok p).cwd hlife) (List.forall_mem_singleton.mpr trivial) ⟨.inl rfl, trivial⟩
          (fun n hn => ?_) (h.ok p).typed) (fun np fd hj => ?_)
      · cases List.mem_singleton.mp hn
      · cases List.mem_singleton.mp hj
    · next f1 ha =>
      cases hs
      exact h.pipe1 ht ha
  · next f0 f1 js ht => exact h.pipealloc ht hs
  · next f js ht =>
    have hlife := h.alive (p := p) (ht ▸ List.cons_ne_nil _ _)
    obtain rfl : js = [] := (h.order ht).1.resolve_right (fun hn => hn.1)
    obtain ⟨hty, fd, hfd⟩ := (h.ok p).inPipe f (ht ▸ List.mem_cons_self)
    exact h.pipeCall (a := .resume p) rfl hlife hfd hty (.inr ht) (fun _ _ => nofun) (fun _ _ => nofun) hs

omit [Fintype P] [DecidableEq P] in
/-- A process that may enter a system call. -/
theorem user_spec (hu : s.user p = true) : (s.proc p).life = .alive ∧ (s.proc p).todo = [] := by
  unfold System.user at hu
  rw [Bool.and_eq_true, decide_eq_true_eq, List.isEmpty_iff] at hu
  exact hu

theorem Sane.access (h : Sane s) {fd : Fin NOFILE} {writing : Bool} {a : PipeAct P} (hu : s.user p = true)
    (hact : a.actor = some p) (hwrite : ∀ q bs, a = .write q bs → writing = true)
    (hread : ∀ q n, a = .read q n → writing = false) (hs : s.access p fd writing a = some s') : Sane s' := by
  obtain ⟨hlife, htodo⟩ := user_spec hu
  unfold System.access at hs
  split at hs
  · cases hs
    exact h
  · next f hf =>
    split at hs
    · cases hs
      exact h
    · next hmode =>
      split at hs
      · next hty =>
        have hok : (s.file f).permits writing = true := Bool.eq_true_of_not_eq_false hmode
        refine h.pipeCall hact hlife hf hty (.inl htodo) (fun q bs ha => ?_) (fun q n ha => ?_) hs
        · rw [hwrite q bs ha] at hok
          exact hok
        · rw [hread q n ha] at hok
          have hr := (h.good f).mode hty
          have hok : (s.file f).readable = true := hok
          rw [hok] at hr
          simpa using hr
      · next hty =>
        have hclaim : (s.file f).inode (s.file f).ip = 1 := one_pos ⟨hty, rfl⟩
        have hle := h.inodes.claim_le (fun c => claims_nonneg s c (s.file f).ip) (.inr f)
        rw [Sum.elim_inr, hclaim] at hle
        rw [if_neg (by omega)] at hs
        cases hs
        exact h
      · next hty => exact absurd hty ((h.ok p).typed fd f hf)

omit [Fintype P] [DecidableEq P] in
theorem user_ready (hu : s.user p = true) :
    (s.proc p).life ≠ .embryo ∧ ∀ f, (s.proc p).todo ≠ [.inPipe f] := by
  obtain ⟨hlife, htodo⟩ := user_spec hu
  rw [hlife, htodo]
  exact ⟨nofun, fun _ => nofun⟩

/-- A step of a process in user mode on what it refers to, but no descriptor. -/
theorem Sane.inodeStep (h : Sane s) {x : Proc P} (hu : s.user p = true) (hfile : s'.file = s.file)
    (hpage : s'.page = s.page) (hfault : s'.fault = s.fault) (hproc : s'.proc = Function.update s.proc p x)
    (hlife : x.life = (s.proc p).life) (htodo : x.todo = (s.proc p).todo) (hofile : x.ofile = (s.proc p).ofile)
    (hcwd : x.cwd ≠ none) (hinodes : ∀ i, s'.iref i - s.iref i = one (x.cwd = some i) + (x.held.count i : ℤ) -
      (one ((s.proc p).cwd = some i) + ((s.proc p).held.count i : ℤ))) : Sane s' := by
  obtain ⟨hl, ht⟩ := user_spec hu
  obtain ⟨hemb, hidle⟩ := user_ready hu
  have hnil : ∀ j, j ∉ x.todo := by
    rw [htodo, ht]
    exact fun _ => List.not_mem_nil
  refine h.setProc p x hfile hpage hfault hproc hemb hidle (fun g => ?_) (fun i => ?_) (fun e => ?_)
    (.plain (hlife.trans hl) hcwd (fun j hj => absurd hj (hnil j)) ?_ (fun fd hfd => absurd hfd (hnil _)) ?_)
    (fun np fd => hnil _)
  · rw [Proc.files, Proc.files, hofile, htodo]
  · have := hinodes i
    rw [Proc.inodes, Proc.inodes, htodo]
    omega
  · rw [Proc.pipeEnds, Proc.pipeEnds, htodo]
  · rw [htodo, ht]
    trivial
  · rw [hofile]
    exact (h.ok p).typed

theorem count_erase_int (l : List Nat) (i k : Nat) (hi : i ∈ l) :
    ((l.erase i).count k : ℤ) = l.count k - one (i = k) := by
  have hpos := List.count_pos_iff.mpr hi
  rcases eq_or_ne i k with rfl | hk
  · rw [List.count_erase_self, one_pos rfl]
    omega
  · rw [List.count_erase_of_ne hk.symm, one_neg hk, sub_zero]

theorem Sane.iget (h : Sane s) {p : P} {i : Nat}
    (hs : Ipc.fileStep s (.iget p i) = some s') : Sane s' := by
  obtain ⟨hu, hs⟩ := Option.ite_none_right_eq_some.mp hs
  cases hs
  refine h.inodeStep (x := { s.proc p with held := i :: (s.proc p).held }) hu rfl rfl rfl rfl rfl rfl rfl
    ((h.ok p).cwd (user_spec hu).1) (fun k => ?_)
  change Function.update s.iref i (s.iref i + 1) k - s.iref k = _
  dsimp only
  rcases eq_or_ne i k with rfl | hk
  · rw [Function.update_self, List.count_cons_self]
    push_cast
    omega
  · rw [Function.update_of_ne hk.symm, List.count_cons_of_ne hk]
    omega

theorem Sane.iput (h : Sane s) {p : P} {i : Nat}
    (hs : Ipc.fileStep s (.iput p i) = some s') : Sane s' := by
  obtain ⟨⟨hu, hi⟩, hs⟩ := Option.ite_none_right_eq_some.mp hs
  cases hs
  refine h.inodeStep (x := { s.proc p with held := (s.proc p).held.erase i }) hu rfl rfl rfl rfl rfl rfl rfl
    ((h.ok p).cwd (user_spec hu).1) (fun k => ?_)
  change Function.update s.iref i (s.iref i - 1) k - s.iref k = _
  rw [count_erase_int _ i k hi]
  dsimp only
  rcases eq_or_ne i k with rfl | hk
  · rw [Function.update_self, one_pos rfl]
    omega
  · rw [Function.update_of_ne hk.symm, one_neg hk]
    omega

theorem Sane.chdir (h : Sane s) {p : P} {i : Nat}
    (hs : Ipc.fileStep s (.chdir p i) = some s') : Sane s' := by
  obtain ⟨⟨hu, hi⟩, hs⟩ := Option.ite_none_right_eq_some.mp hs
  split at hs
  · next hnone => exact absurd hnone ((h.ok p).cwd (user_spec hu).1)
  · next c hc =>
    cases hs
    refine h.inodeStep (x := { s.proc p with held := (s.proc p).held.erase i, cwd := some i }) hu rfl rfl rfl rfl
      rfl rfl rfl (Option.some_ne_none i) (fun k => ?_)
    change Function.update s.iref c (s.iref c - 1) k - s.iref k = _
    rw [count_erase_int _ i k hi, hc]
    simp only [Option.some_inj]
    rcases eq_or_ne c k with rfl | hk
    · rw [Function.update_self, one_pos (rfl : c = c)]
      omega
    · rw [Function.update_of_ne hk.symm, one_neg hk]
      omega

theorem Sane.sysOpen (h : Sane s) {p : P} {i : Nat} {readable writable : Bool}
    (hs : Ipc.fileStep s (.sysOpen p i readable writable) = some s') : Sane s' := by
  obtain ⟨⟨hu, hi⟩, hs⟩ := Option.ite_none_right_eq_some.mp hs
  obtain ⟨hlife, htodo⟩ := user_spec hu
  obtain ⟨hemb, hidle⟩ := user_ready hu
  split at hs
  · cases hs
    exact h
  · next f ha =>
    have hfree := filealloc_spec ha
    have hty := h.free hfree
    have hmine : (s.file f).ref ≤ (s.proc p).files f := hfree ▸ Proc.files_nonneg _ f
    split at hs
    · cases hs
      refine h.setFile p f ((s.proc p).does [.close f]) { s.file f with ref := 1 } rfl rfl rfl rfl rfl hemb hidle
        ?_ (fun g hg => ?_) (fun k => ?_) (fun e => ?_) ⟨fun _ => Int.one_pos, (h.good f).mode⟩ (.inl hmine)
        (.plain hlife ((h.ok p).cwd hlife) (List.forall_mem_singleton.mpr trivial) ⟨.inl rfl, trivial⟩
          (fun n hn => ?_) ((h.ok p).typed_update (fun fd hfd => (h.ok p).typed fd f hfd))) (fun np fd hj => ?_)
      · rw [Proc.files_does, htodo, hfree]
        simp [Job.files, one]
      · rw [Proc.files_does, htodo]
        simp [Job.files, one, hg.symm]
      · rw [Proc.inodes_does, htodo]
        exact congrArg (· + _) (sub_add_cancel _ _)
      · rw [Proc.pipeEnds_does, htodo]
        exact congrArg (· + _) (sub_add_cancel _ _)
      · cases List.mem_singleton.mp hn
      · cases List.mem_singleton.mp hj
    · next o ho =>
      cases hs
      obtain ⟨fd, hfd, rfl⟩ := fdalloc_spec ho
      have hfiles : ∀ g, ({ s.proc p with
          held := (s.proc p).held.erase i, ofile := Function.update (s.proc p).ofile fd (some f) } : Proc P).files g =
          (s.proc p).files g + one (f = g) := Proc.files_newFd (s.proc p) _ rfl hfd rfl
      have htyped : ∀ fd' g, Function.update (s.proc p).ofile fd (some f) fd' = some g →
          (Function.update s.file f { s.file f with ref := 1, type := .FD_INODE, ip := i, readable := readable,
                                                    writable := writable } g).type ≠ .FD_NONE := by
        intro fd' g hg
        rcases eq_or_ne g f with rfl | hgf
        · rw [Function.update_self]
          exact nofun
        · rw [Function.update_of_ne hgf]
          rw [Function.update_apply] at hg
          split at hg
          · exact absurd (Option.some.inj hg).symm hgf
          · exact (h.ok p).typed fd' g hg
      refine h.setFile p f { s.proc p with held := (s.proc p).held.erase i,
                                           ofile := Function.update (s.proc p).ofile fd (some f) }
        { s.file f with ref := 1, type := .FD_INODE, ip := i, readable := readable, writable := writable }
        rfl rfl rfl rfl rfl hemb hidle ?_ (fun g hg => ?_) (fun k => ?_) (fun e => ?_)
        ⟨fun _ => Int.one_pos, nofun⟩ (.inl hmine)
        (.plain hlife ((h.ok p).cwd hlife) (fun j hj => absurd hj (htodo ▸ List.not_mem_nil)) ?_
          (fun n hn => absurd hn (htodo ▸ List.not_mem_nil)) htyped)
        (fun np n hj => absurd hj (htodo ▸ List.not_mem_nil))
      · rw [hfiles, hfree, one_pos rfl]
        dsimp only
        omega
      · rw [hfiles, one_neg (fun he => hg he.symm), add_zero]
      · rw [Proc.inodes, Proc.inodes, File.inode, File.inode, hty, one_neg (by exact nofun : ¬ (FdType.FD_NONE =
          .FD_INODE ∧ (s.file f).ip = k))]
        dsimp only
        rw [count_erase_int _ i k hi]
        simp only [true_and]
        omega
      · rw [File.pipeEnd, File.pipeEnd, hty, one_neg nofun, one_neg nofun]
        rfl
      · change Orderly (s.proc p).todo
        rw [htodo]
        trivial

theorem Sane.sysDup (h : Sane s) {p : P} {fd : Fin NOFILE}
    (hs : Ipc.fileStep s (.sysDup p fd) = some s') : Sane s' := by
  obtain ⟨hu, hs⟩ := Option.ite_none_right_eq_some.mp hs
  obtain ⟨hlife, htodo⟩ := user_spec hu
  obtain ⟨hemb, hidle⟩ := user_ready hu
  split at hs
  · cases hs
    exact h
  · next f hf =>
    split at hs
    · cases hs
      exact h
    · next o ho =>
      obtain ⟨fd', hfd', rfl⟩ := fdalloc_spec ho
      have hpos := Proc.files_ofile hf
      have hle := h.files_le p f
      rw [System.filedup, if_neg (by omega)] at hs
      cases hs
      have hfiles : ∀ g, ({ s.proc p with
          ofile := Function.update (s.proc p).ofile fd' (some f) } : Proc P).files g =
          (s.proc p).files g + one (f = g) := Proc.files_newFd (s.proc p) _ rfl hfd' rfl
      refine h.setFile p f { s.proc p with ofile := Function.update (s.proc p).ofile fd' (some f) }
        { s.file f with ref := (s.file f).ref + 1 } rfl rfl rfl rfl rfl hemb hidle ?_ (fun g hg => ?_)
        (fun k => rfl) (fun e => rfl) ⟨fun _ => by dsimp only; omega, (h.good f).mode⟩ (.inr ⟨rfl, hpos⟩)
        (.plain hlife ((h.ok p).cwd hlife) (fun j hj => absurd hj (htodo ▸ List.not_mem_nil)) ?_
          (fun n hn => absurd hn (htodo ▸ List.not_mem_nil)) (fun k g hg => ?_))
        (fun np n hj => absurd hj (htodo ▸ List.not_mem_nil))
      · rw [hfiles, one_pos rfl]
        dsimp only
        omega
      · rw [hfiles, one_neg (fun he => hg he.symm), add_zero]
      · change Orderly (s.proc p).todo
        rw [htodo]
        trivial
      · have hdesc : ∃ n, (s.proc p).ofile n = some g := by
          dsimp only at hg
          rw [Function.update_apply] at hg
          split at hg
          · exact ⟨fd, hf.trans hg⟩
          · exact ⟨k, hg⟩
        obtain ⟨n, hn⟩ := hdesc
        exact (h.ok p).typed_update (y := { s.file f with ref := (s.file f).ref + 1 })
          (fun m hm => (h.ok p).typed m f hm) n g hn

theorem Sane.sysClose (h : Sane s) {p : P} {fd : Fin NOFILE}
    (hs : Ipc.fileStep s (.sysClose p fd) = some s') : Sane s' := by
  obtain ⟨hu, hs⟩ := Option.ite_none_right_eq_some.mp hs
  obtain ⟨hlife, htodo⟩ := user_spec hu
  obtain ⟨hemb, hidle⟩ := user_ready hu
  split at hs
  · cases hs
    exact h
  · next f hf =>
    cases hs
    refine h.setProc p { s.proc p with ofile := Function.update (s.proc p).ofile fd none, todo := [.close f] }
      rfl rfl rfl rfl hemb hidle (fun g => ?_) (fun k => ?_) (fun e => ?_)
      (.plain hlife ((h.ok p).cwd hlife) (List.forall_mem_singleton.mpr trivial) ⟨.inl rfl, trivial⟩
        (fun n hn => ?_) (fun k g hg => ?_)) (fun np n hj => ?_)
    · rw [Proc.files_fd (s.proc p) _ rfl, hf, htodo]
      simp [Job.files, one]
    · refine (sub_self _).trans (sub_eq_zero_of_eq ?_).symm
      apply Proc.inodes_same
      · rfl
      · rfl
      · rw [htodo]
        rfl
    · rw [Proc.pipeEnds, Proc.pipeEnds, htodo]
      rfl
    · cases List.mem_singleton.mp hn
    · dsimp only at hg
      rw [Function.update_apply] at hg
      split at hg
      · cases hg
      · exact (h.ok p).typed k g hg
    · cases List.mem_singleton.mp hj

theorem Sane.sysPipe (h : Sane s) {p : P}
    (hs : Ipc.fileStep s (.sysPipe p) = some s') : Sane s' := by
  obtain ⟨hu, hs⟩ := Option.ite_none_right_eq_some.mp hs
  obtain ⟨hlife, htodo⟩ := user_spec hu
  obtain ⟨hemb, hidle⟩ := user_ready hu
  split at hs
  · cases hs
    exact h
  · next f ha =>
    cases hs
    have hfree := filealloc_spec ha
    refine h.setFile p f ((s.proc p).does [.pipe1 f]) { s.file f with ref := 1 } rfl rfl rfl rfl rfl hemb hidle
      ?_ (fun g hg => ?_) (fun k => ?_) (fun e => ?_) ⟨fun _ => Int.one_pos, (h.good f).mode⟩
      (.inl (hfree ▸ Proc.files_nonneg _ f))
      { h.ok p with
        typed := (h.ok p).typed_update (fun fd hfd => (h.ok p).typed fd f hfd)
        fresh := fun j hj g hg => ?_, inPipe := fun g hg => ?_, exit := fun n hn => ?_
        idle := fun hn => absurd hlife hn, order := ⟨.inl rfl, trivial⟩ } (fun np fd hj => ?_)
    · rw [Proc.files_does, htodo, hfree]
      simp [Job.files, one]
    · rw [Proc.files_does, htodo]
      simp [Job.files, one, hg.symm]
    · rw [Proc.inodes_does, htodo]
      exact congrArg (· + _) (sub_add_cancel _ _)
    · rw [Proc.pipeEnds_does, htodo]
      exact congrArg (· + _) (sub_add_cancel _ _)
    · obtain rfl := List.mem_singleton.mp hj
      obtain rfl := List.mem_singleton.mp hg
      rw [Function.update_self]
      exact ⟨h.free hfree, rfl⟩
    · cases List.mem_singleton.mp hg
    · cases List.mem_singleton.mp hn
    · cases List.mem_singleton.mp hj

theorem Sane.fork (h : Sane s) {p np : P}
    (hs : Ipc.fileStep s (.fork p np) = some s') : Sane s' := by
  obtain ⟨⟨hu, hun⟩, hs⟩ := Option.ite_none_right_eq_some.mp hs
  cases hs
  obtain ⟨hlife, htodo⟩ := user_spec hu
  have hchild : (s.proc np).life ≠ .alive := by
    rw [hun]
    exact nofun
  obtain ⟨hnil, hcwd, hheld⟩ := (h.ok np).idle hchild
  have hne : p ≠ np := by
    rintro rfl
    exact hchild hlife
  have hempty : ∀ fd, (s.proc np).ofile fd = none := (h.ok np).empty (.inl hun)
  have honly : ∀ q fd, .fork np fd ∈ (s.proc q).todo → q = p := by
    intro q fd hj
    have hemb := (h.forks q np fd hj).1
    rw [hun] at hemb
    cases hemb
  refine h.forkStep (f := 0) (z := s.file 0) (y := { s.proc np with life := .embryo }) hlife hchild (.inl htodo)
    honly (.inr ⟨0, rfl, rfl, fun fd' _ => hempty fd'⟩) (user_ready hu).2 (Function.update_eq_self ..).symm
    rfl rfl ?_ rfl (.inl rfl) (fun g => ?_) (fun i => ?_) (fun e => rfl) hnil
    { h.ok np with
      idle := fun _ => ⟨hnil, hcwd, hheld⟩, empty := fun _ => hempty, cwd := nofun }
  · change Function.update (Function.update s.proc np _) p ((Function.update s.proc np _ p).does _) = _
    rw [Function.update_of_ne hne]
  · rw [sub_self, zero_mul, add_zero]
    rfl
  · change s.iref i - s.iref i = (s.proc np).inodes i - (s.proc np).inodes i
    rw [sub_self, sub_self]

theorem Sane.exit (h : Sane s) {p : P}
    (hs : Ipc.fileStep s (.exit p) = some s') : Sane s' := by
  obtain ⟨⟨hu, hheld⟩, hs⟩ := Option.ite_none_right_eq_some.mp hs
  cases hs
  obtain ⟨hlife, htodo⟩ := user_spec hu
  obtain ⟨hemb, hidle⟩ := user_ready hu
  refine h.setTodo p [.exit 0] hemb hidle (fun g => by rw [htodo]; rfl) (fun i => by rw [htodo]; rfl)
    (fun e => by rw [htodo]; rfl)
    (.plain hlife ((h.ok p).cwd hlife) (List.forall_mem_singleton.mpr trivial) ⟨.inl rfl, trivial⟩
      (fun n hn => ?_) (h.ok p).typed) (fun np fd hj => ?_)
  · cases List.mem_singleton.mp hn
    exact ⟨hheld, fun fd hfd => absurd hfd (Nat.not_lt_zero _)⟩
  · cases List.mem_singleton.mp hj

theorem Sane.wait (h : Sane s) {np : P}
    (hs : Ipc.fileStep s (.wait np) = some s') : Sane s' := by
  obtain ⟨hz, hs⟩ := Option.ite_none_right_eq_some.mp hs
  cases hs
  have hchild : (s.proc np).life ≠ .alive := by
    rw [hz]
    exact nofun
  obtain ⟨hnil, hcwd, hheld⟩ := (h.ok np).idle hchild
  refine h.setProc np { s.proc np with life := .unused } rfl rfl rfl rfl ?_ (fun f => ?_) (fun g => rfl)
    (fun i => ?_) (fun e => rfl)
    { h.ok np with
      idle := fun _ => ⟨hnil, hcwd, hheld⟩, empty := fun _ => (h.ok np).empty (.inr hz), cwd := nofun }
    (fun m fd hj => absurd hj (hnil ▸ List.not_mem_nil))
  · rw [hz]
    exact nofun
  · rw [hnil]
    exact nofun
  · change s.iref i - s.iref i = (s.proc np).inodes i - (s.proc np).inodes i
    rw [sub_self, sub_self]

theorem Sane.kill (h : Sane s) {p : P} {late : Bool}
    (hs : Ipc.fileStep s (.kill p late) = some s') : Sane s' := by
  cases hs
  cases late with
  | true => exact { h with files := h.files, inodes := h.inodes, ends := h.ends }
  | false =>
    have hold : ∀ k w, (s.page k).map (fun w => { w with asleep := Function.update w.asleep p false }) = some w →
        ∃ v, s.page k = some v ∧ w = { v with asleep := Function.update v.asleep p false } := by
      intro k w hw
      obtain ⟨v, hv, rfl⟩ := Option.map_eq_some_iff.mp hw
      exact ⟨v, hv, rfl⟩
    refine { h with
      files := h.files, inodes := h.inodes, ends := h.ends.congr (fun e => ?_) (fun _ => rfl)
      pages := fun k w hw => ?_, calls := fun k w q c hw hc => ?_ }
    · change openEnd ((s.page e.1).map _) e.2 = openEnd (s.page e.1) e.2
      cases s.page e.1 with
      | none => rfl
      | some v => rfl
    · obtain ⟨v, hv, rfl⟩ := hold k w hw
      obtain ⟨⟨l, hl⟩, ha, hf⟩ := h.pages k v hv
      exact ⟨⟨l, hl.contains, hl.fifo⟩, ⟨ha.freed, ha.reader, ha.writer⟩, hf⟩
    · obtain ⟨v, hv, rfl⟩ := hold k w hw
      exact h.calls k v q c hv hc

theorem Sane.fileStep (h : Sane s) {a : FileAct P} (hs : fileStep s a = some s') : Sane s' := by
  cases a with
  | iget p i => exact h.iget hs
  | iput p i => exact h.iput hs
  | chdir p i => exact h.chdir hs
  | sysOpen p i readable writable => exact h.sysOpen hs
  | sysDup p fd => exact h.sysDup hs
  | sysClose p fd => exact h.sysClose hs
  | sysWrite p fd bytes =>
    obtain ⟨hu, hs⟩ := Option.ite_none_right_eq_some.mp hs
    exact h.access (a := .write p bytes) hu rfl (fun _ _ _ => rfl) (fun _ _ => nofun) hs
  | sysRead p fd n =>
    obtain ⟨hu, hs⟩ := Option.ite_none_right_eq_some.mp hs
    exact h.access (a := .read p n) hu rfl (fun _ _ => nofun) (fun _ _ _ => rfl) hs
  | sysPipe p => exact h.sysPipe hs
  | fork p np => exact h.fork hs
  | exit p => exact h.exit hs
  | wait np => exact h.wait hs
  | kill p late => exact h.kill hs
  | go p page => exact h.go hs

end Steps

/-! ## Runs -/

/-- After `userinit`: one process, in the directory `root`. -/
def System.boot [DecidableEq P] (p : P) (root : Nat) : System P where
  file := fun _ => {}
  proc := Function.update (fun _ => {}) p { life := .alive, cwd := some root }
  page := fun _ => none
  iref := Function.update (fun _ => 0) root 1
  killed := fun _ => false
  fault := none

/-- What a process sees of the open files: no check of `file.c` panics, a descriptor is for
an open file, a pipe delivers its bytes in order, its page is there as long as one of its
ends is open, and no call goes on at an end that is closed. -/
structure Sound [DecidableEq P] (s : System P) : Prop where
  fault : s.fault = none
  descriptor : ∀ p fd f, (s.proc p).ofile fd = some f → (s.file f).type ≠ .FD_NONE ∧ 0 < (s.file f).ref
  order : ∀ k w, s.page k = some w → InOrder w
  kept : ∀ k w, s.page k = some w → w.freed = false ∧ ∃ b, w.isOpen b = true
  served : ∀ k w q c, s.page k = some w → w.call q = some c → w.isOpen (!c.isRead) = true
  gone : ∀ p, (s.proc p).life = .unused ∨ (s.proc p).life = .zombie → ∀ fd, (s.proc p).ofile fd = none

theorem Sane.sound [DecidableEq P] (h : Sane s) : Sound s where
  fault := h.fault
  descriptor p fd f hf := ⟨(h.ok p).typed fd f hf, (h.good f).live ((h.ok p).typed fd f hf)⟩
  order k w hw := (h.pages k w hw).1.choose_spec.inOrder
  kept k w hw := by
    obtain ⟨-, ha, hf⟩ := h.pages k w hw
    refine ⟨hf, ?_⟩
    by_contra hno
    have hclosed : ∀ b, w.isOpen b = false := fun b => Bool.eq_false_of_not_eq_true fun hb => hno ⟨b, hb⟩
    rw [ha.freed.mpr ⟨hclosed false, hclosed true⟩] at hf
    cases hf
  served k w q c hw hc := by
    obtain ⟨-, ha, -⟩ := h.pages k w hw
    cases c with
    | write rest n => exact ha.writer q rest n hc
    | read n => exact ha.reader q n hc
  gone p := (h.ok p).empty

omit [Fintype P] in
theorem boot_proc [DecidableEq P] (p : P) (root : Nat) (q : P) : (System.boot p root).proc q =
    if q = p then { life := .alive, cwd := some root } else {} := by
  change Function.update (fun _ => ({} : Proc P)) p { life := .alive, cwd := some root } q = _
  exact Function.update_apply ..

theorem boot_counts [DecidableEq P] (p : P) (root : Nat) : CountsExact (System.boot p root) := by
  -- the state before `userinit`
  have hnone : CountsExact ({ System.boot p root with proc := fun _ => {}, iref := fun _ => 0 } : System P) := by
    refine ⟨fun g => ?_, fun i => ?_, fun e => ?_⟩
    · simp [Proc.files, one, System.boot]
    · simp [Proc.inodes, File.inode, one, System.boot]
    · simp [Proc.pipeEnds, File.pipeEnd, System.openEnd, openEnd, one, System.boot]
  refine hnone.shift p 0 (fun q hq => ?_) (fun g _ => rfl) (fun g => ?_) (fun i => ?_) (fun e => ?_)
  · rw [boot_proc, if_neg hq]
    exact ⟨rfl, rfl, rfl⟩
  · rw [boot_proc, if_pos rfl]
    rfl
  · rw [boot_proc, if_pos rfl]
    change Function.update (fun _ => (0 : ℤ)) root 1 i - 0 = one (some root = some i) + 0 + 0 - 0 + (0 - 0)
    rcases eq_or_ne i root with rfl | hi
    · rw [Function.update_self, one_pos rfl]
      rfl
    · rw [Function.update_of_ne hi, one_neg (fun he => hi (Option.some.inj he).symm)]
      rfl
  · rw [boot_proc, if_pos rfl]
    rfl

theorem boot_sane [DecidableEq P] (p : P) (root : Nat) : Sane (System.boot p root) := by
  have htodo : ∀ q, ((System.boot p root).proc q).todo = [] := fun q => by
    rw [boot_proc]
    split <;> rfl
  have hofile : ∀ q fd, ((System.boot p root).proc q).ofile fd = none := fun q fd => by
    rw [boot_proc]
    split <;> rfl
  have hnil : ∀ q j, j ∉ ((System.boot p root).proc q).todo := fun q j => htodo q ▸ List.not_mem_nil
  refine { toCountsExact := boot_counts p root, fault := rfl, good := fun f => ⟨fun hn => absurd rfl hn, nofun⟩
           ok := fun q => ?_, pages := nofun, calls := nofun, forks := fun q np fd hj => absurd hj (hnil q _) }
  refine { typed := fun fd f hf => ?_, fresh := fun j hj => absurd hj (hnil q j)
           inPipe := fun f hf => absurd hf (hnil q _), exit := fun fd hf => absurd hf (hnil q _)
           idle := fun hn => ?_, empty := fun _ => hofile q, cwd := fun hl => ?_, order := htodo q ▸ trivial }
  · rw [hofile] at hf
    cases hf
  · rw [boot_proc] at hn ⊢
    split at hn
    · exact absurd rfl hn
    · next hq =>
      rw [if_neg hq]
      exact ⟨rfl, rfl, rfl⟩
  · rw [boot_proc] at hl ⊢
    split at hl
    · next hq =>
      rw [if_pos hq]
      exact nofun
    · cases hl

end Counts

section Main

variable {P : Type} [DecidableEq P] [Fintype P]

/-- The reference counts are exact in every state of every run. -/
theorem counts_exact (p : P) (root : Nat) (as : List (FileAct P)) (t : System P)
    (hr : Lib.run fileStep (System.boot p root) as = some t) : CountsExact t :=
  (Lib.run_inv_all (fun _ _ _ h hs => Sane.fileStep h hs) (boot_sane p root) hr).toCountsExact

theorem files_sound (p : P) (root : Nat) (as : List (FileAct P)) (t : System P)
    (hr : Lib.run fileStep (System.boot p root) as = some t) : Sound t :=
  (Lib.run_inv_all (fun _ _ _ h hs => Sane.fileStep h hs) (boot_sane p root) hr).sound

local instance (priority := 2000) procs_neZero : NeZero 2 := ⟨by decide⟩
local instance (priority := 2000) ofile_neZero : NeZero NOFILE := ⟨by decide⟩

/-- A pipe whose write end is duplicated, and a child that has all three descriptors. The
parent writes and closes its read end; the child reads a byte, opens a file, and exits; the
read end goes with its last descriptor, and a write fails. -/
def pipeline : List (FileAct (Fin 2)) :=
  [.sysPipe 0, .go 0 none, .go 0 (some (7, fun _ => 0)), .sysDup 0 1, .fork 0 1] ++
  List.replicate 17 (.go 0 none) ++
  [.sysWrite 0 1 [1, 2], .sysClose 0 0, .go 0 none, .sysRead 1 0 1, .iget 1 5, .sysOpen 1 5 true false,
   .exit 1] ++
  List.replicate 23 (.go 1 none) ++ [.wait 1, .sysWrite 0 2 [3]]

theorem counts_exact_pipeline : ∃ t, Lib.run fileStep (System.boot 0 1) pipeline = some t ∧
    (t.file 0).ref = 0 ∧ (t.file 1).ref = 2 ∧ (t.page 7).isSome = true ∧ CountsExact t := by
  have hrun : ∃ t, Lib.run fileStep (System.boot 0 1) pipeline = some t ∧
      (t.file 0).ref = 0 ∧ (t.file 1).ref = 2 ∧ (t.page 7).isSome = true :=
    ⟨_, rfl, rfl, rfl, rfl⟩
  obtain ⟨t, hr, hread, hwrite, hpage⟩ := hrun
  exact ⟨t, hr, hread, hwrite, hpage, counts_exact 0 1 pipeline t hr⟩

theorem files_sound_pipeline : ∃ t, Lib.run fileStep (System.boot 0 1) pipeline = some t ∧
    (t.proc 1).life = .unused ∧ Sound t := by
  have hrun : ∃ t, Lib.run fileStep (System.boot 0 1) pipeline = some t ∧ (t.proc 1).life = .unused :=
    ⟨_, rfl, rfl⟩
  obtain ⟨t, hr, hgone⟩ := hrun
  exact ⟨t, hr, hgone, files_sound 0 1 pipeline t hr⟩

end Main

end Xv6.Ipc
