import Xv6.Vm.Memory

/- `exec` and `exec2` (`project2_LWP/exec.c`), with every way they can fail: no
   such file, a bad ELF header or segment, no memory, arguments too large. The
   file system is a parameter (`Files`): what `namei` finds and what `readi`
   gives.

   The new image is built in a page directory of its own, so a failure after that
   point leaves the process alone; but the loop that removes the other threads
   comes before the first check. A failing call leaves the process as it was
   exactly when that loop had nothing to remove (`exec_fail_intact_iff`). -/
namespace Xv6.Vm
open Lwp (PGSIZE KERNBASE PGROUNDUP ThIdx NTHREAD Thread)

abbrev MAXARG : Nat := 32
abbrev ELF_MAGIC : Nat := 0x464C457F
abbrev ELF_PROG_LOAD : Nat := 1

/-- The registers of `struct trapframe` that the kernel code here writes. -/
structure Trapframe where
  eip : Nat := 0
  esp : Nat := 0
  deriving DecidableEq, Repr

/-- `struct proc`, as far as `exec` and `thread_create` read or write it. -/
structure Proc where
  sz : Nat
  pgdir : Pgdir
  stacksize : Nat
  freedustack : ThIdx → Nat
  thread : ThIdx → Thread
  thidx : ThIdx
  kstack : Nat
  tf : Trapframe
  ustack : Nat

def Proc.setThread (p : Proc) (i : ThIdx) (th : Thread) : Proc :=
  { p with thread := fun j => if j = i then th else p.thread j }

def Proc.setFreed (p : Proc) (i : ThIdx) (a : Nat) : Proc :=
  { p with freedustack := fun j => if j = i then a else p.freedustack j }

/-- The file system: the inode of a path, and up to `n` bytes of an inode from an
offset on (`none` for -1). -/
structure Files where
  namei : List UInt8 → Option Nat
  readi : Nat → Nat → Nat → Option (List UInt8)

/-! ## Reading an ELF file -/

/-- The little-endian number in `n` bytes from `o` on. -/
def field (bs : List UInt8) (o n : Nat) : Nat :=
  ((bs.drop o).take n).foldr (fun b v => b.toNat + 256 * v) 0

/-- `struct elfhdr` (52 bytes). -/
structure Elfhdr where
  magic : Nat
  entry : Nat
  phoff : Nat
  phnum : Nat

def elfhdr (bs : List UInt8) : Elfhdr :=
  { magic := field bs 0 4, entry := field bs 24 4, phoff := field bs 28 4, phnum := field bs 44 2 }

/-- `struct proghdr` (32 bytes). -/
structure Proghdr where
  type : Nat
  off : Nat
  vaddr : Nat
  filesz : Nat
  memsz : Nat

def proghdr (bs : List UInt8) : Proghdr :=
  { type := field bs 0 4, off := field bs 4 4, vaddr := field bs 8 4, filesz := field bs 16 4
    memsz := field bs 20 4 }

/-- `readi(ip, dst, off, n) == n`, with the bytes. -/
def Files.readAll (fs : Files) (ip off n : Nat) : Option (List UInt8) :=
  (fs.readi ip off n).filter (fun bs => bs.length = n)

/-- The loop of `loaduvm` from byte `i` of the segment on. -/
def loadLoop (fs : Files) (ip : Nat) (d : Pgdir) (addr off sz : Nat) : Nat → Nat → VmM Bool
  | 0, _ => return true
  | fuel + 1, i =>
    if i < sz then
      match d.table (PDX (addr + i)) with
      | none => throw "loaduvm: address should exist"
      | some _ =>
        if (fs.readAll ip (u32 (off + i)) (min (sz - i) PGSIZE)).isSome then
          loadLoop fs ip d addr off sz fuel (i + PGSIZE)
        else return false
    else return true

/-- `loaduvm`; the caller has checked that `addr` is page-aligned. -/
def loaduvm (fs : Files) (ip : Nat) (d : Pgdir) (addr off sz : Nat) : VmM Bool :=
  loadLoop fs ip d addr off sz (sz / PGSIZE + 1) 0

/-- The loop of `exec` over `n` program headers from `off` on: the directory, and
the size of the image if nothing is wrong. -/
def loadSegments (fs : Files) (ip : Nat) : Nat → Nat → Pgdir → Nat → VmM (Pgdir × Option Nat)
  | 0, _, d, sz => return (d, some sz)
  | n + 1, off, d, sz =>
    match fs.readAll ip off 32 with
    | none => return (d, none)
    | some bs =>
      let ph := proghdr bs
      if ph.type ≠ ELF_PROG_LOAD then loadSegments fs ip n (u32 (off + 32)) d sz
      else if ph.memsz < ph.filesz then return (d, none)
      else if u32 (ph.vaddr + ph.memsz) < ph.vaddr then return (d, none)
      else do
        let (d, sz) ← allocuvm d sz (u32 (ph.vaddr + ph.memsz))
        if sz = 0 then return (d, none)
        else if ph.vaddr % PGSIZE ≠ 0 then return (d, none)
        else if ← loaduvm fs ip d ph.vaddr ph.off ph.filesz then
          loadSegments fs ip n (u32 (off + 32)) d sz
        else return (d, none)

/-- The loop that pushes the argument strings below `sp`: the new `argc` and
`sp`. -/
def pushArgs (d : Pgdir) : List (List UInt8) → Nat → Nat → VmM (Option (Nat × Nat))
  | [], argc, sp => return some (argc, sp)
  | s :: argv, argc, sp =>
    if argc ≥ MAXARG then return none
    else do
      let sp := u32 (2 ^ 32 + sp - (s.length + 1)) / 4 * 4
      if ← copyout d sp (s.length + 1) then pushArgs d argv (argc + 1) sp else return none

/-- What `exec` commits to. -/
structure Image where
  pgdir : Pgdir
  sz : Nat
  entry : Nat
  sp : Nat
  ustack : Nat

/-- The code after `bad:`, with a page directory. -/
def bad (d : Pgdir) : VmM (Option Image) := do
  let _ ← freevm d
  return none

/-- The user stack of `pages` pages above an image of `sz` bytes, with the
arguments on it. -/
def buildStack (pages : Nat) (argv : List (List UInt8)) (entry : Nat) (d : Pgdir) (sz : Nat) :
    VmM (Option Image) := do
  let sz := u32 (PGROUNDUP sz)
  let (d, sz) ← allocuvm d sz (u32 (sz + (1 + pages) * PGSIZE))
  if sz = 0 then bad d
  else
    let d ← clearpteu d (u32 (2 ^ 32 + sz - (1 + pages) * PGSIZE))
    match ← pushArgs d argv 0 sz with
    | none => bad d
    | some (argc, sp) =>
      let sp := u32 (2 ^ 32 + sp - (3 + argc + 1) * 4)
      if ← copyout d sp ((3 + argc + 1) * 4) then
        return some { pgdir := d, sz := sz, entry := entry, sp := sp, ustack := sz }
      else bad d

/-- `exec` from `ilock` to the commit. -/
def load (L : Layout) (fs : Files) (ip pages : Nat) (argv : List (List UInt8)) :
    VmM (Option Image) :=
  match fs.readAll ip 0 52 with
  | none => return none
  | some bs =>
    if (elfhdr bs).magic ≠ ELF_MAGIC then return none
    else do
      match ← setupkvm L with
      | none => return none
      | some d =>
        let (d, sz) ← loadSegments fs ip (elfhdr bs).phnum (elfhdr bs).phoff d 0
        match sz with
        | none => bad d
        | some sz => buildStack pages argv (elfhdr bs).entry d sz

/-! ## exec -/

/-- One iteration of the loop over the thread slots. -/
def Proc.clearThread (p : Proc) (i : ThIdx) : VmM Proc :=
  if i = p.thidx then return p
  else do
    if (p.thread i).kstack ≠ 0 then kfree (p.thread i).kstack
    return (p.setFreed i 0).setThread i {}

def Proc.clearThreads (p : Proc) : VmM Proc :=
  (List.finRange NTHREAD).foldlM Proc.clearThread p

def Proc.commit (p : Proc) (pages : Nat) (x : Image) : Proc :=
  { p.setThread p.thidx { p.thread p.thidx with state := .RUNNING } with
    pgdir := x.pgdir, sz := x.sz, tf := { eip := x.entry, esp := x.sp }, stacksize := pages
    ustack := x.ustack }

/-- The common body of `exec` and `exec2`. `switchuvm` refuses a process without a
kernel stack. -/
def execWith (L : Layout) (fs : Files) (pages : Nat) (path : List UInt8) (argv : List (List UInt8))
    (p : Proc) : VmM (Proc × Int) := do
  let p ← p.clearThreads
  match fs.namei path with
  | none => return (p, -1)
  | some ip =>
    match ← load L fs ip pages argv with
    | none => return (p, -1)
    | some x =>
      if p.kstack = 0 then throw "switchuvm: no kstack"
      let _ ← freevm p.pgdir
      return (p.commit pages x, 0)

def exec (L : Layout) (fs : Files) (path : List UInt8) (argv : List (List UInt8)) (p : Proc) :
    VmM (Proc × Int) :=
  execWith L fs 1 path argv p

def exec2 (L : Layout) (fs : Files) (path : List UInt8) (argv : List (List UInt8)) (stacksize : Int)
    (p : Proc) : VmM (Proc × Int) :=
  execWith L fs (Lwp.Proc.clampStack stacksize) path argv p

/-! ## What the loop over the threads leaves -/

section Rules

variable {F s : List Nat} {d : Pgdir} {p : Proc}

/-- Thread slots other than the caller's that hold nothing. -/
def Proc.Alone (p : Proc) : Prop :=
  ∀ i, i ≠ p.thidx → p.thread i = {} ∧ p.freedustack i = 0

/-- The process `q` is `p` without the threads of `l`. -/
structure Proc.Cleared (p q : Proc) (l : List ThIdx) : Prop where
  thread : ∀ i, q.thread i = if i ∈ l ∧ i ≠ p.thidx then {} else p.thread i
  freed : ∀ i, q.freedustack i = if i ∈ l ∧ i ≠ p.thidx then 0 else p.freedustack i
  rest : q = { p with thread := q.thread, freedustack := q.freedustack }

/-- The free list grows by kernel stacks of the threads that are removed. -/
def Proc.Returned (p : Proc) (s s' : List Nat) : Prop :=
  ∀ a ∈ s', a ∈ s ∨ ∃ i, i ≠ p.thidx ∧ (p.thread i).kstack = a ∧ a ≠ 0

theorem Proc.Cleared.step {q : Proc} {l : List ThIdx} (h : p.Cleared q l) (hs : p.Returned F s)
    (i : ThIdx) : Lib.wp (q.clearThread i)
      (fun q' s' => p.Cleared q' (i :: l) ∧ p.Returned F s') (fun _ _ => True) s := by
  have hth : q.thidx = p.thidx := by rw [h.rest]
  unfold Proc.clearThread
  by_cases hi : i = q.thidx
  · rw [if_pos hi]
    rw [hth] at hi
    refine ⟨⟨fun j => ?_, fun j => ?_, h.rest⟩, hs⟩
    · rw [h.thread j]
      by_cases hj : j = p.thidx
      · simp [hj]
      · simp [hj, hi]
    · rw [h.freed j]
      by_cases hj : j = p.thidx
      · simp [hj]
      · simp [hj, hi]
  · rw [if_neg hi]
    have hip : i ≠ p.thidx := by rwa [hth] at hi
    have hdone : p.Cleared ((q.setFreed i 0).setThread i {}) (i :: l) := by
      refine ⟨fun j => ?_, fun j => ?_, ?_⟩
      · show (if j = i then {} else q.thread j) = _
        by_cases hj : j = i
        · simp [hj, hip]
        · simp [hj, h.thread j]
      · show (if j = i then 0 else q.freedustack j) = _
        by_cases hj : j = i
        · simp [hj, hip]
        · simp [hj, h.freed j]
      · conv_lhs => rw [h.rest]
        rfl
    by_cases hk : (q.thread i).kstack ≠ 0
    · simp only [if_pos hk]
      refine Lib.wp_modify (Lib.wp_pure ⟨hdone, fun a ha => ?_⟩)
      rcases List.mem_cons.mp ha with rfl | ha
      · -- a kernel stack that is still there is one of `p`
        refine .inr ⟨i, hip, ?_, hk⟩
        have hqi := h.thread i
        split at hqi
        · rw [hqi] at hk
          exact absurd rfl hk
        · rw [hqi]
      · exact hs a ha
    · simp only [if_neg hk]
      exact Lib.wp_pure ⟨hdone, hs⟩

theorem wp_clearThreads (p : Proc) (s : List Nat) : Lib.wp p.clearThreads
    (fun q s' => p.Cleared q (List.finRange NTHREAD) ∧ p.Returned s s') (fun _ _ => True) s := by
  have hloop : ∀ (l : List ThIdx) (q : Proc) (done : List ThIdx) (t : List Nat), p.Cleared q done →
      p.Returned s t → Lib.wp (l.foldlM Proc.clearThread q)
        (fun q' s' => p.Cleared q' (l.reverse ++ done) ∧ p.Returned s s') (fun _ _ => True) t := by
    intro l
    induction l with
    | nil => exact fun q done t hq ht => Lib.wp_pure ⟨by simpa using hq, ht⟩
    | cons i l ih =>
      intro q done t hq ht
      rw [List.foldlM_cons]
      refine (hq.step ht i).bind (fun _ _ _ => trivial) (fun q' t' hq' => ?_)
      have h1 := ih q' (i :: done) t' hq'.1 hq'.2
      simpa using h1
  have hstart : p.Cleared p [] := ⟨fun i => by simp, fun i => by simp, rfl⟩
  refine (hloop _ p [] s hstart (fun a ha => .inl ha)).mono (fun q s' hq => ?_) (fun _ _ _ => trivial)
  refine ⟨⟨fun i => ?_, fun i => ?_, hq.1.rest⟩, hq.2⟩
  · simpa using hq.1.thread i
  · simpa using hq.1.freed i

/-! ## What the rest gives back -/

theorem gives_loadLoop (fs : Files) (ip : Nat) (d : Pgdir) (addr off sz : Nat) : ∀ (fuel i : Nat)
    (s : List Nat), Within F s → Gives F (loadLoop fs ip d addr off sz fuel i) (fun _ => True) s := by
  intro fuel
  induction fuel with
  | zero => exact fun i s hs => gives_pure hs trivial
  | succ fuel ih =>
    intro i s hs
    unfold loadLoop
    split
    · split
      · exact gives_throw
      · split
        · exact ih _ s hs
        · exact gives_pure hs trivial
    · exact gives_pure hs trivial

theorem gives_loadSegments (fs : Files) (ip : Nat) : ∀ (n off : Nat) (d : Pgdir) (sz : Nat)
    (s : List Nat), Within F s → d.Uses F →
    Gives F (loadSegments fs ip n off d sz) (fun r => r.1.Uses F) s := by
  intro n
  induction n with
  | zero => exact fun off d sz s hs h => gives_pure hs h
  | succ n ih =>
    intro off d sz s hs h
    unfold loadSegments
    split
    · exact gives_pure hs h
    · rename_i bs _
      simp only
      by_cases ht : (proghdr bs).type ≠ ELF_PROG_LOAD
      · rw [if_pos ht]; exact ih _ d sz s hs h
      by_cases hm : (proghdr bs).memsz < (proghdr bs).filesz
      · rw [if_neg ht, if_pos hm]; exact gives_pure hs h
      by_cases hw : u32 ((proghdr bs).vaddr + (proghdr bs).memsz) < (proghdr bs).vaddr
      · rw [if_neg ht, if_neg hm, if_pos hw]; exact gives_pure hs h
      · rw [if_neg ht, if_neg hm, if_neg hw]
        refine (gives_allocuvm hs h sz _).bind (fun r s' hs' hd => ?_)
        split_ifs
        · exact gives_pure hs' hd
        · exact gives_pure hs' hd
        · refine (gives_loadLoop fs ip r.1 _ _ _ _ 0 s' hs').bind (fun ok s' hs' _ => ?_)
          cases ok with
          | true => exact ih _ r.1 r.2 s' hs' hd
          | false => exact gives_pure hs' hd

theorem gives_pushArgs (d : Pgdir) : ∀ (argv : List (List UInt8)) (argc sp : Nat) (s : List Nat),
    Within F s → Gives F (pushArgs d argv argc sp) (fun _ => True) s := by
  intro argv
  induction argv with
  | nil => exact fun argc sp s hs => gives_pure hs trivial
  | cons a argv ih =>
    intro argc sp s hs
    unfold pushArgs
    split
    · exact gives_pure hs trivial
    · refine (gives_copyout hs d _ _).bind (fun ok s' hs' _ => ?_)
      cases ok with
      | true => exact ih _ _ s' hs'
      | false => exact gives_pure hs' trivial

theorem gives_bad (hs : Within F s) (h : d.Uses F) : Gives F (bad d) (fun _ => True) s :=
  (gives_freevm hs h).bind (fun _ _ hs' _ => gives_pure hs' trivial)

theorem gives_buildStack (hs : Within F s) (h : d.Uses F) (pages : Nat) (argv : List (List UInt8))
    (entry sz : Nat) : Gives F (buildStack pages argv entry d sz) (fun _ => True) s := by
  unfold buildStack
  refine (gives_allocuvm hs h _ _).bind (fun r s' hs' hd => ?_)
  obtain ⟨d', sz'⟩ := r
  simp only
  split
  · exact gives_bad hs' hd
  · refine (gives_clearpteu hs' hd _).bind (fun d'' s' hs' hd => ?_)
    refine (gives_pushArgs d'' argv 0 sz' s' hs').bind (fun r s' hs' _ => ?_)
    cases r with
    | none => exact gives_bad hs' hd
    | some r =>
      obtain ⟨argc, sp⟩ := r
      refine (gives_copyout hs' d'' _ _).bind (fun ok s' hs' _ => ?_)
      cases ok with
      | true => exact gives_pure hs' trivial
      | false => exact gives_bad hs' hd

theorem gives_load (hs : Within F s) (L : Layout) (fs : Files) (ip pages : Nat)
    (argv : List (List UInt8)) : Gives F (load L fs ip pages argv) (fun _ => True) s := by
  unfold load
  split
  · exact gives_pure hs trivial
  · split
    · exact gives_pure hs trivial
    · refine (gives_setupkvm hs L).bind (fun r s' hs' hr => ?_)
      cases r with
      | none => exact gives_pure hs' trivial
      | some d =>
        refine (gives_loadSegments fs ip _ _ d 0 s' hs' (hr d rfl)).bind (fun r s' hs' hd => ?_)
        obtain ⟨d', sz⟩ := r
        cases sz with
        | none => exact gives_bad hs' hd
        | some sz => exact gives_buildStack hs' hd pages argv _ sz

/-- A call of `exec` that fails has removed the other threads and nothing else. -/
theorem wp_execWith (L : Layout) (fs : Files) (pages : Nat) (path : List UInt8)
    (argv : List (List UInt8)) (p : Proc) (s : List Nat) :
    Lib.wp (execWith L fs pages path argv p)
      (fun r s' => r.2 = -1 → p.Cleared r.1 (List.finRange NTHREAD) ∧ p.Returned s s')
      (fun _ _ => True) s := by
  unfold execWith
  refine (wp_clearThreads p s).bind (fun _ _ _ => trivial) (fun q t hq => ?_)
  split
  · exact Lib.wp_pure (fun _ => hq)
  · rename_i ip _
    have hload := gives_load (F := t) (fun _ ha => ha) L fs ip pages argv
    refine Lib.wp.bind hload (fun _ _ _ => trivial) (fun r s' hr => ?_)
    cases r with
    | none => exact Lib.wp_pure (fun _ => ⟨hq.1, fun a ha => hq.2 a (hr.1 a ha)⟩)
    | some x =>
      simp only
      split
      · exact Lib.wp_throw trivial
      · have hfree : Lib.wp (freevm q.pgdir) (fun _ _ => True) (fun _ _ => True) s' := by
          unfold Lib.wp
          split <;> trivial
        refine Lib.wp.bind hfree (fun _ _ _ => trivial) (fun _ s'' _ => Lib.wp_pure (fun h => ?_))
        -- the call has succeeded
        exact absurd (show (0 : Int) = -1 from h) (by decide)

end Rules

/-! ## Failing calls -/

/-- The process and its kernel stacks are as before: `s` and `s'` are the free
lists. -/
structure Intact (p p' : Proc) (s s' : List Nat) : Prop where
  proc : p' = p
  kstack : ∀ i, (p.thread i).kstack ∉ s → (p.thread i).kstack ∉ s'

theorem exec_fail_intact_iff (L : Layout) (fs : Files) (path : List UInt8) (argv : List (List UInt8))
    (stacksize : Int) (p p' : Proc) (s s' : List Nat)
    (h : exec L fs path argv p s = .ok (p', -1) s' ∨
      exec2 L fs path argv stacksize p s = .ok (p', -1) s') :
    Intact p p' s s' ↔ p.Alone := by
  have hfail : p.Cleared p' (List.finRange NTHREAD) ∧ p.Returned s s' := by
    rcases h with h | h
    · exact (wp_execWith L fs 1 path argv p s).ok h rfl
    · exact (wp_execWith L fs _ path argv p s).ok h rfl
  obtain ⟨hc, hret⟩ := hfail
  constructor
  · intro hi i hne
    have h1 := hc.thread i
    have h2 := hc.freed i
    rw [if_pos ⟨List.mem_finRange i, hne⟩, hi.proc] at h1 h2
    exact ⟨h1, h2⟩
  · intro hal
    have hthread : p'.thread = p.thread := by
      funext i
      rw [hc.thread i]
      split
      · rename_i hi
        rw [(hal i hi.2).1]
      · rfl
    have hfreed : p'.freedustack = p.freedustack := by
      funext i
      rw [hc.freed i]
      split
      · rename_i hi
        rw [(hal i hi.2).2]
      · rfl
    refine ⟨?_, fun i hi hmem => ?_⟩
    · rw [hc.rest, hthread, hfreed]
    · -- no kernel stack was given back
      rcases hret _ hmem with hmem | ⟨j, hj, ha, hne⟩
      · exact hi hmem
      · rw [(hal j hj).1] at ha
        exact hne ha.symm

/-- No file at all. -/
def noFiles : Files := { namei := fun _ => none, readi := fun _ _ _ => none }

/-- A process with an empty address space that runs in thread 0. -/
def oneThread : Proc :=
  { sz := 0, pgdir := { page := 4096, table := fun _ => none, pte := fun _ => none }, stacksize := 1
    freedustack := fun _ => 0
    thread := fun i => if i = 0 then { tid := 1, kstack := 8192, state := .RUNNING } else {}
    thidx := 0, kstack := 8192, tf := {}, ustack := 0 }

/-- The same process with a second thread. -/
def twoThreads : Proc := oneThread.setThread 1 { tid := 2, kstack := 12288, state := .RUNNABLE }

def someLayout : Layout :=
  { data := KERNLINK + PGSIZE, low := by decide, high := by decide }

/-- Nothing in the loop over the thread slots can fail. -/
theorem clearThreads_ok (p : Proc) (s : List Nat) :
    ∃ q t, p.clearThreads s = .ok q t ∧ s.length ≤ t.length := by
  have hloop : ∀ (l : List ThIdx) (q : Proc) (t : List Nat),
      ∃ q' t', l.foldlM Proc.clearThread q t = .ok q' t' ∧ t.length ≤ t'.length := by
    intro l
    induction l with
    | nil => exact fun q t => ⟨q, t, rfl, le_rfl⟩
    | cons i l ih =>
      intro q t
      have hone : ∃ q' t', q.clearThread i t = .ok q' t' ∧ t.length ≤ t'.length := by
        unfold Proc.clearThread
        split
        · exact ⟨_, _, rfl, le_rfl⟩
        · by_cases hk : (q.thread i).kstack ≠ 0
          · simp only [if_pos hk]
            exact ⟨_, _, rfl, Nat.le_succ _⟩
          · simp only [if_neg hk]
            exact ⟨_, _, rfl, le_rfl⟩
      obtain ⟨q', t', hq, hlen⟩ := hone
      obtain ⟨r, u, hr, hlen'⟩ := ih q' t'
      refine ⟨r, u, ?_, hlen.trans hlen'⟩
      rw [List.foldlM_cons, Lib.run_bind hq]
      exact hr
  exact hloop _ p s

/-- A run that fails at a missing file. -/
theorem exec_noFiles (p : Proc) (s : List Nat) : ∃ p' s', exec someLayout noFiles [] [] p s = .ok (p', -1) s' := by
  obtain ⟨q, t, hq, -⟩ := clearThreads_ok p s
  refine ⟨q, t, ?_⟩
  rw [exec, execWith, Lib.run_bind hq]
  rfl

theorem exec_fail_oneThread : ∃ p' s',
    exec someLayout noFiles [] [] oneThread [16384] = .ok (p', -1) s' ∧
      Intact oneThread p' [16384] s' := by
  obtain ⟨p', s', h⟩ := exec_noFiles oneThread [16384]
  refine ⟨p', s', h, (exec_fail_intact_iff someLayout noFiles [] [] 0 oneThread p' [16384] s'
    (.inl h)).mpr (fun i hi => ?_)⟩
  exact ⟨if_neg hi, rfl⟩

/-- A missing file costs the process its second thread. -/
theorem exec_fail_twoThreads : ∃ p' s',
    exec someLayout noFiles [] [] twoThreads [16384] = .ok (p', -1) s' ∧
      ¬ Intact twoThreads p' [16384] s' := by
  obtain ⟨p', s', h⟩ := exec_noFiles twoThreads [16384]
  refine ⟨p', s', h, fun hi => ?_⟩
  have h1 := ((wp_execWith someLayout noFiles 1 [] [] twoThreads [16384]).ok h rfl).1.thread 1
  rw [hi.proc] at h1
  have hstate := congrArg Thread.state h1
  revert hstate
  decide

end Xv6.Vm
