import Xv6.Lib.Hoare
import Xv6.File.Inode

/- Inodes in memory, directories and path names (`project3_filesystem/fs.c`).

   The state has the disk, `icache.inode[]` and the current directory of the one
   process that runs. An entry of the cache is known by its index. Its sleep-lock
   is held by that process or by nobody: a call that asks for a lock that is held
   does not return (`deadlock`).

   `readi` and `writei` of a directory are their last parts, `readiFile` and
   `writeiFile`; the rest is in the next module, because it looks up paths. -/
namespace Xv6.File

open Fs (Block BSIZE)

abbrev NINODE : Nat := 50
abbrev NDEV : Nat := 10
abbrev ROOTDEV : Nat := 1

instance : NeZero NINODE := ⟨by decide⟩

/-- A `struct inode *`: the index in `icache.inode[]`. -/
abbrev Ino := Fin NINODE

/-- `struct inode`. -/
structure Entry where
  dev : Nat := 0
  inum : Nat := 0
  ref : Int := 0
  locked : Bool := false
  valid : Bool := false
  di : Dinode := {}

/-- `cwd` is that of the process; `behind` is what memory holds behind `icache`, up
to a NUL, and `outside` the bytes that were written behind the thirteen words of an
inode. They are only recorded: the next entry, which they overwrite, is as before in
the model, so that what it says of later states is of a run with nothing in `outside`. -/
structure Kernel where
  disk : Disk
  icache : Ino → Entry
  cwd : Ino
  behind : List UInt8 := []
  outside : List (Ino × List UInt8) := []

inductive Fault where
  | panic (msg : String)
  | deadlock (ip : Ino)
  deriving DecidableEq, Repr

abbrev KM := EStateM Fault Kernel

namespace Kernel

def setEntry (k : Kernel) (i : Ino) (x : Entry) : Kernel :=
  { k with icache := Function.update k.icache i x }

def type (k : Kernel) (i : Ino) : FileType := (k.icache i).di.type

end Kernel

def panic {α : Type} (msg : String) : KM α := throw (.panic msg)

/-- File-system code that works on the disk. -/
def onDisk {α : Type} (x : FsM α) : KM α := fun k =>
  match x k.disk with
  | .ok a d => .ok a { k with disk := d }
  | .error msg d => .error (.panic msg) { k with disk := d }

/-- The fields of an entry behind its lock. -/
def setDi (ip : Ino) (di : Dinode) : KM Unit :=
  modify fun k => k.setEntry ip { k.icache ip with di := di }

/-! ## References and locks -/

/-- `iget`. The entry that is recycled is the first one without a reference. -/
def iget (inum : Nat) : KM Ino := fun k =>
  match (List.finRange NINODE).find? (fun i => (k.icache i).ref > 0 ∧ (k.icache i).inum = inum) with
  | some i => .ok i (k.setEntry i { k.icache i with ref := (k.icache i).ref + 1 })
  | none =>
    match (List.finRange NINODE).find? (fun i => (k.icache i).ref = 0) with
    | some i =>
      .ok i (k.setEntry i { k.icache i with dev := ROOTDEV, inum := inum, ref := 1, valid := false })
    | none => .error (.panic "iget: no inodes") k

def idup (ip : Ino) : KM Ino := fun k =>
  .ok ip (k.setEntry ip { k.icache ip with ref := (k.icache ip).ref + 1 })

/-- `acquiresleep` and `releasesleep` of `ip->lock`. -/
def acquire (ip : Ino) : KM Unit := fun k =>
  if (k.icache ip).locked then .error (.deadlock ip) k
  else .ok () (k.setEntry ip { k.icache ip with locked := true })

def release (ip : Ino) : KM Unit := fun k =>
  .ok () (k.setEntry ip { k.icache ip with locked := false })

def ilock (ip : Ino) : KM Unit := do
  if ((← get).icache ip).ref < 1 then panic "ilock"
  acquire ip
  let k ← get
  if (k.icache ip).valid = false then
    let di := k.disk.dinode (k.icache ip).inum
    set (k.setEntry ip { k.icache ip with di := di, valid := true })
    if di.type = .none then panic "ilock: no type"

def iunlock (ip : Ino) : KM Unit := do
  let k ← get
  if (k.icache ip).locked = false ∨ (k.icache ip).ref < 1 then panic "iunlock"
  release ip

/-- `itrunc` and the rest of what `iput` does to an inode nobody refers to. -/
def ifree (ip : Ino) : KM Unit := do
  let x := (← get).icache ip
  let y ← onDisk (itrunc { x.di with inum := x.inum })
  let di := { y.toDinode with type := .none }
  onDisk (iupdate { di with inum := x.inum })
  modify fun k => k.setEntry ip { k.icache ip with di := di, valid := false }

def iput (ip : Ino) : KM Unit := do
  acquire ip
  let x := (← get).icache ip
  if x.valid ∧ x.di.nlink = 0 ∧ x.ref = 1 then ifree ip
  release ip
  modify fun k => k.setEntry ip { k.icache ip with ref := (k.icache ip).ref - 1 }

def iunlockput (ip : Ino) : KM Unit := do
  iunlock ip
  iput ip

/-- Code on the contents of the locked inode `ip`, which may change the inode. -/
def onInode {α : Type} (ip : Ino) (f : Inode → FsM (α × Inode)) : KM α := do
  let x := (← get).icache ip
  let (a, y) ← onDisk (f { x.di with inum := x.inum })
  setDi ip y.toDinode
  return a

/-! ## Directories -/

/-- `struct dirent`, with the name up to its first NUL. -/
structure Dirent where
  inum : Nat
  name : List UInt8

def dirent (bs : List UInt8) : Dirent :=
  { inum := (bs.getD 0 0).toNat + 256 * (bs.getD 1 0).toNat
    name := ((bs.drop 2).take DIRSIZ).takeWhile (· ≠ 0) }

/-- `readi(dp, &de, off, sizeof(de)) == sizeof(de)` for a directory, with `de`. -/
def readDirent (sb : Superblock) (dp : Ino) (off : Nat) : KM (Option Dirent) := do
  let (n, bs) ← onInode dp fun x => do
    let (n, x, bs) ← readiFile sb x (UInt32.ofNat off) 16
    return ((n, bs), x)
  return if n = 16 then some (dirent bs) else none

/-- The loop of `dirlookup`; every round advances by one entry. -/
def dirlookupLoop (sb : Superblock) (dp : Ino) (name : List UInt8) : Nat → Nat → KM (Option (Ino × Nat))
  | 0, _ => return none
  | fuel + 1, off => do
    if off < ((← get).icache dp).di.size then
      match ← readDirent sb dp off with
      | none => panic "dirlookup read"
      | some de =>
        if de.inum ≠ 0 ∧ de.name = name then return some (← iget de.inum, off)
        else dirlookupLoop sb dp name fuel (off + 16)
    else return none

/-- `dirlookup`: the inode and the offset of the entry. -/
def dirlookup (sb : Superblock) (dp : Ino) (name : List UInt8) : KM (Option (Ino × Nat)) := do
  let x := (← get).icache dp
  if x.di.type ≠ .T_DIR then panic "dirlookup not DIR"
  dirlookupLoop sb dp name (x.di.size / 16 + 1) 0

/-! ## Paths -/

/-- The byte `/`. -/
def slash : UInt8 := 47

/-- `skipelem`: the next element of a path and what follows it. -/
def skipelem (path : List UInt8) : Option (List UInt8 × List UInt8) :=
  match path.dropWhile (· = slash) with
  | [] => none
  | c :: p =>
    some (((c :: p).takeWhile (· ≠ slash)).take DIRSIZ,
      ((c :: p).dropWhile (· ≠ slash)).dropWhile (· = slash))

/-- The loop of `namex`. Every round takes at least one byte of the path, so that
its length is enough of them. -/
def namexLoop (sb : Superblock) (nameiparent : Bool) : Nat → List UInt8 → Ino →
    KM (Option (Ino × List UInt8))
  | 0, _, ip => return some (ip, [])
  | fuel + 1, path, ip =>
    match skipelem path with
    | none =>
      if nameiparent then do
        iput ip
        return none
      else return some (ip, [])
    | some (name, rest) => do
      ilock ip
      if (← get).type ip ≠ .T_DIR then
        iunlockput ip
        return none
      else if nameiparent ∧ rest = [] then
        iunlock ip
        return some (ip, name)
      else
        match ← dirlookup sb ip name with
        | none =>
          iunlockput ip
          return none
        | some (next, _) =>
          iunlockput ip
          namexLoop sb nameiparent fuel rest next

def namex (sb : Superblock) (path : List UInt8) (nameiparent : Bool) :
    KM (Option (Ino × List UInt8)) := do
  let ip ← if path.head? = some slash then iget ROOTINO else idup (← get).cwd
  namexLoop sb nameiparent (path.length + 1) path ip

def namei (sb : Superblock) (path : List UInt8) : KM (Option Ino) := do
  return (← namex sb path false).map (·.1)

def nameiparent (sb : Superblock) (path : List UInt8) : KM (Option (Ino × List UInt8)) :=
  namex sb path true

/-! ## What the calls do to references and locks -/

theorem run_get {α : Type} {f : Kernel → KM α} {k : Kernel} :
    ((get : KM Kernel) >>= f) k = f k k := rfl

namespace Kernel

/-- The locks the process holds. -/
def locks (k : Kernel) (i : Ino) : Bool := (k.icache i).locked

def refs (k : Kernel) (i : Ino) : Int := (k.icache i).ref

end Kernel

/-- Entries that are referred to before and after stay valid. -/
def Kept (k k' : Kernel) : Prop :=
  ∀ i, 0 < k.refs i → 0 < k'.refs i → (k.icache i).valid = true → (k'.icache i).valid = true

/-- What a call has done to the locks and the references. -/
structure Moved (k k' : Kernel) (L : Ino → Bool) (R : Ino → Int) : Prop where
  locks : k'.locks = L
  refs : k'.refs = R
  kept : Kept k k'
  cwd : k'.cwd = k.cwd

abbrev Any (_ : Fault) (_ : Kernel) : Prop := True

section Rules

variable {k k' : Kernel} {ip : Ino}

theorem locks_setEntry (x : Entry) : (k.setEntry ip x).locks = Function.update k.locks ip x.locked := by
  funext i
  by_cases hi : i = ip
  · subst hi; simp [Kernel.locks, Kernel.setEntry]
  · simp [Kernel.locks, Kernel.setEntry, hi]

theorem refs_setEntry (x : Entry) : (k.setEntry ip x).refs = Function.update k.refs ip x.ref := by
  funext i
  by_cases hi : i = ip
  · subst hi; simp [Kernel.refs, Kernel.setEntry]
  · simp [Kernel.refs, Kernel.setEntry, hi]

theorem setEntry_self (x : Entry) : (k.setEntry ip x).icache ip = x := by
  simp [Kernel.setEntry]

theorem setEntry_other {i : Ino} (hi : i ≠ ip) (x : Entry) :
    (k.setEntry ip x).icache i = k.icache i := by
  simp [Kernel.setEntry, hi]

/-- One entry gets the lock and the references that are given, and stays valid if it
was and is referred to. -/
theorem moved_setEntry {p : Ino} {x : Entry}
    (hv : 0 < k.refs p → 0 < x.ref → (k.icache p).valid = true → x.valid = true) :
    Moved k (k.setEntry p x) (Function.update k.locks p x.locked)
      (Function.update k.refs p x.ref) := by
  refine ⟨locks_setEntry x, refs_setEntry x, fun i h0 h1 hval => ?_, rfl⟩
  by_cases hi : i = p
  · subst hi
    rw [setEntry_self]
    refine hv h0 ?_ hval
    rw [refs_setEntry, Function.update_self] at h1
    exact h1
  · rw [setEntry_other hi]
    exact hval

theorem moved_setEntry_same {p : Ino} {x : Entry} (hl : x.locked = (k.icache p).locked)
    (hr : x.ref = (k.icache p).ref) (hv : x.valid = (k.icache p).valid) :
    Moved k (k.setEntry p x) k.locks k.refs := by
  have h := moved_setEntry (k := k) (p := p) (x := x) (fun _ _ h => hv.trans h)
  rw [hl, hr, show (k.icache p).locked = k.locks p from rfl, Function.update_eq_self,
    show (k.icache p).ref = k.refs p from rfl, Function.update_eq_self] at h
  exact h

theorem Moved.refl (k : Kernel) : Moved k k k.locks k.refs := ⟨rfl, rfl, fun _ _ _ h => h, rfl⟩

/-- One call after the other; what is referred to at the ends is so in between. -/
theorem Moved.trans {k'' : Kernel} {L L' : Ino → Bool} {R R' : Ino → Int} (h : Moved k k' L R)
    (h' : Moved k' k'' L' R') (hb : ∀ i, 0 < k.refs i → 0 < R' i → 0 < R i) :
    Moved k k'' L' R' := by
  refine ⟨h'.locks, h'.refs, fun i h0 h2 hv => ?_, h'.cwd.trans h.cwd⟩
  have h1 : 0 < k'.refs i := by
    rw [h.refs]
    refine hb i h0 ?_
    rw [← h'.refs]
    exact h2
  exact h'.kept i h1 h2 (h.kept i h0 h1 hv)

/-- A step that changes no references. -/
theorem Moved.then_same {k'' : Kernel} {L L' : Ino → Bool} {R : Ino → Int} (h : Moved k k' L R)
    (h' : Moved k' k'' L' k'.refs) : Moved k k'' L' R := by
  rw [h.refs] at h'
  exact h.trans h' (fun _ _ h1 => h1)

theorem moved_of_icache (h : k'.icache = k.icache) (hc : k'.cwd = k.cwd) :
    Moved k k' k.locks k.refs := by
  refine ⟨?_, ?_, fun i _ _ hv => by rw [h]; exact hv, hc⟩
  · funext i
    simp only [Kernel.locks, h]
  · funext i
    simp only [Kernel.refs, h]

theorem wp_iget (inum : Nat) :
    Lib.wp (iget inum) (fun j k' =>
      Moved k k' k.locks (Function.update k.refs j (k.refs j + 1)) ∧ k'.disk = k.disk) Any k := by
  unfold Lib.wp iget
  cases h1 : (List.finRange NINODE).find?
      (fun i => (k.icache i).ref > 0 ∧ (k.icache i).inum = inum) with
  | some i =>
    have h := moved_setEntry (k := k) (p := i)
      (x := { k.icache i with ref := (k.icache i).ref + 1 }) (fun _ _ h => h)
    rw [show (k.icache i).locked = k.locks i from rfl, Function.update_eq_self] at h
    exact ⟨h, rfl⟩
  | none =>
    simp only
    cases h2 : (List.finRange NINODE).find? (fun i => (k.icache i).ref = 0) with
    | none => trivial
    | some i =>
      have h0 : (k.icache i).ref = 0 := by simpa using List.find?_some h2
      have h := moved_setEntry (k := k) (p := i)
        (x := { k.icache i with dev := ROOTDEV, inum := inum, ref := 1, valid := false })
        (fun hp _ _ => absurd h0 (by have : 0 < (k.icache i).ref := hp; omega))
      rw [show (k.icache i).locked = k.locks i from rfl, Function.update_eq_self] at h
      refine ⟨?_, rfl⟩
      rw [show k.refs i = 0 from h0]
      exact h

theorem wp_idup (ip : Ino) : Lib.wp (idup ip) (fun j k' => j = ip ∧
    Moved k k' k.locks (Function.update k.refs j (k.refs j + 1)) ∧ k'.disk = k.disk) Any k := by
  have h := moved_setEntry (k := k) (p := ip)
    (x := { k.icache ip with ref := (k.icache ip).ref + 1 }) (fun _ _ h => h)
  rw [show (k.icache ip).locked = k.locks ip from rfl, Function.update_eq_self] at h
  exact ⟨rfl, h, rfl⟩

theorem wp_acquire (ip : Ino) : Lib.wp (acquire ip) (fun _ k' => k.locks ip = false ∧
    k' = k.setEntry ip { k.icache ip with locked := true }) Any k := by
  unfold Lib.wp acquire
  by_cases hl : (k.icache ip).locked = true
  · simp only [if_pos hl]
    trivial
  · simp only [if_neg hl]
    exact ⟨Bool.eq_false_iff.mpr hl, trivial⟩

theorem moved_lock {p : Ino} (b : Bool) : Moved k (k.setEntry p { k.icache p with locked := b })
    (Function.update k.locks p b) k.refs := by
  have h := moved_setEntry (k := k) (p := p) (x := { k.icache p with locked := b })
    (fun _ _ h => h)
  rw [show (k.icache p).ref = k.refs p from rfl, Function.update_eq_self] at h
  exact h

theorem wp_ilock (ip : Ino) : Lib.wp (ilock ip) (fun _ k' => k.locks ip = false ∧ 1 ≤ k.refs ip ∧
    Moved k k' (Function.update k.locks ip true) k.refs ∧ k'.disk = k.disk ∧
      (k'.icache ip).valid = true) Any k := by
  unfold ilock
  refine Lib.wp_get ?_
  by_cases hr : (k.icache ip).ref < 1
  · rw [if_pos hr]
    trivial
  · rw [if_neg hr]
    refine (wp_acquire ip).bind (fun _ _ _ => trivial) (fun _ k₁ h1 => ?_)
    obtain ⟨hl, h1⟩ := h1
    have hm1 : Moved k k₁ (Function.update k.locks ip true) k.refs := by
      rw [h1]
      exact moved_lock true
    have hd1 : k₁.disk = k.disk := by rw [h1]; rfl
    have hr1 : 1 ≤ k.refs ip := by
      simp only [Kernel.refs]
      omega
    refine Lib.wp_get ?_
    by_cases hv : (k₁.icache ip).valid = false
    · simp only [if_pos hv]
      -- the entry is read from the disk
      have hm2 : Moved k₁ (k₁.setEntry ip { k₁.icache ip with
          di := k₁.disk.dinode (k₁.icache ip).inum, valid := true }) k₁.locks k₁.refs := by
        have h := moved_setEntry (k := k₁) (p := ip) (x := { k₁.icache ip with
          di := k₁.disk.dinode (k₁.icache ip).inum, valid := true }) (fun _ _ _ => rfl)
        rw [show (k₁.icache ip).locked = k₁.locks ip from rfl, Function.update_eq_self,
          show (k₁.icache ip).ref = k₁.refs ip from rfl, Function.update_eq_self] at h
        exact h
      rw [hm1.locks] at hm2
      refine Lib.wp_bind ?_
      show Lib.wp _ _ _ (k₁.setEntry ip _)
      split
      · trivial
      · exact Lib.wp_pure ⟨hl, hr1, hm1.then_same hm2, hd1, by rw [setEntry_self]⟩
    · simp only [if_neg hv]
      exact Lib.wp_pure ⟨hl, hr1, hm1, hd1, by simpa using hv⟩

theorem wp_iunlock (ip : Ino) : Lib.wp (iunlock ip) (fun _ k' => k.locks ip = true ∧
    1 ≤ k.refs ip ∧ Moved k k' (Function.update k.locks ip false) k.refs ∧ k'.disk = k.disk) Any k := by
  unfold iunlock
  refine Lib.wp_get ?_
  by_cases hp : (k.icache ip).locked = false ∨ (k.icache ip).ref < 1
  · simp only [if_pos hp]
    trivial
  · simp only [if_neg hp]
    refine ⟨?_, ?_, moved_lock false, rfl⟩
    · have hl : ¬ (k.icache ip).locked = false := fun h => hp (.inl h)
      simpa [Kernel.locks] using hl
    · have hr : ¬ (k.icache ip).ref < 1 := fun h => hp (.inr h)
      simp only [Kernel.refs]
      omega

theorem iunlock_run (hl : k.locks ip = true) (hr : 1 ≤ k.refs ip) :
    iunlock ip k = .ok () (k.setEntry ip { k.icache ip with locked := false }) := by
  have hp : ¬ ((k.icache ip).locked = false ∨ (k.icache ip).ref < 1) := by
    rintro (h | h)
    · have hl' : (k.icache ip).locked = true := hl
      rw [hl'] at h
      exact absurd h (by decide)
    · have hr' : 1 ≤ (k.icache ip).ref := hr
      omega
  unfold iunlock
  rw [run_get]
  simp only [if_neg hp]
  rfl

/-- `ilock` of an entry that has been read from the disk. -/
theorem ilock_run (hl : k.locks ip = false) (hr : 1 ≤ k.refs ip) (hv : (k.icache ip).valid = true) :
    ilock ip k = .ok () (k.setEntry ip { k.icache ip with locked := true }) := by
  have hr' : ¬ (k.icache ip).ref < 1 := by
    have h : 1 ≤ (k.icache ip).ref := hr
    omega
  have hl' : ¬ (k.icache ip).locked = true := by
    have h : (k.icache ip).locked = false := hl
    simp only [h, Bool.false_eq_true, not_false_eq_true]
  have hacq : acquire ip k = .ok () (k.setEntry ip { k.icache ip with locked := true }) := by
    unfold acquire
    exact if_neg hl'
  have hv' : ¬ ((k.setEntry ip { k.icache ip with locked := true }).icache ip).valid = false := by
    rw [setEntry_self]
    simp only [hv, Bool.true_eq_false, not_false_eq_true]
  unfold ilock
  rw [run_get]
  simp only [if_neg hr']
  rw [Lib.run_bind hacq, run_get, if_neg hv']
  rfl

theorem wp_onDisk {α : Type} (x : FsM α) :
    Lib.wp (onDisk x) (fun _ k' => k'.icache = k.icache ∧ k'.cwd = k.cwd) Any k := by
  unfold Lib.wp onDisk
  cases x k.disk with
  | ok a d => exact ⟨rfl, rfl⟩
  | error e d => trivial

/-- `ifree` changes the disk and its entry, but not the lock and the references. -/
theorem wp_ifree (ip : Ino) : Lib.wp (ifree ip) (fun _ k' => k'.locks = k.locks ∧
    k'.refs = k.refs ∧ k'.cwd = k.cwd ∧ ∀ i, i ≠ ip → k'.icache i = k.icache i) Any k := by
  unfold ifree
  refine Lib.wp_get ?_
  refine (wp_onDisk _).bind (fun _ _ _ => trivial) (fun y k₁ h1 => ?_)
  refine (wp_onDisk _).bind (fun _ _ _ => trivial) (fun _ k₂ h2 => ?_)
  have h12 : k₂.icache = k.icache := h2.1.trans h1.1
  have hc2 : k₂.cwd = k.cwd := h2.2.trans h1.2
  have hl2 : k₂.locks = k.locks := (moved_of_icache h12 hc2).locks
  have hr2 : k₂.refs = k.refs := (moved_of_icache h12 hc2).refs
  refine ⟨?_, ?_, hc2, fun i hi => ?_⟩
  · refine (locks_setEntry _).trans ?_
    rw [← hl2]
    exact Function.update_eq_self ip k₂.locks
  · refine (refs_setEntry _).trans ?_
    rw [← hr2]
    exact Function.update_eq_self ip k₂.refs
  · refine (setEntry_other hi _).trans ?_
    rw [h12]

/-- The end of `iput`: the lock and one reference are given back. -/
theorem moved_iput_end {k₂ k₃ k₄ : Kernel} (hl : k.locks ip = false)
    (h2l : k₂.locks = Function.update k.locks ip true) (h2r : k₂.refs = k.refs)
    (h2c : k₂.cwd = k.cwd)
    (h2v : ∀ i, 0 < k.refs i → (i = ip → k.refs i ≠ 1) → (k.icache i).valid = true →
      (k₂.icache i).valid = true)
    (hk₃ : k₃ = k₂.setEntry ip { k₂.icache ip with locked := false })
    (hk₄ : k₄ = k₃.setEntry ip { k₃.icache ip with ref := (k₃.icache ip).ref - 1 }) :
    Moved k k₄ k.locks (Function.update k.refs ip (k.refs ip - 1)) := by
  have hlocks : Function.update (Function.update k.locks ip true) ip false = k.locks := by
    rw [Function.update_idem, ← hl, Function.update_eq_self]
  have hm3 : Moved k₂ k₃ k.locks k.refs := by
    have h := moved_lock (k := k₂) (p := ip) false
    rw [h2l, hlocks, h2r] at h
    rw [hk₃]
    exact h
  have hm4 : Moved k₃ k₄ k.locks (Function.update k.refs ip (k.refs ip - 1)) := by
    have h := moved_setEntry (k := k₃) (p := ip)
      (x := { k₃.icache ip with ref := (k₃.icache ip).ref - 1 }) (fun _ _ h => h)
    rw [← hk₄] at h
    rw [show ({ k₃.icache ip with ref := (k₃.icache ip).ref - 1 } : Entry).locked = k₃.locks ip
      from rfl, Function.update_eq_self, hm3.locks] at h
    rw [show ({ k₃.icache ip with ref := (k₃.icache ip).ref - 1 } : Entry).ref = k₃.refs ip - 1
      from rfl, hm3.refs] at h
    exact h
  refine ⟨hm4.locks, hm4.refs, fun i h0 h4 hv => ?_, hm4.cwd.trans (hm3.cwd.trans h2c)⟩
  rw [hm4.refs] at h4
  have h2 : (k₂.icache i).valid = true := by
    refine h2v i h0 (fun hi he => ?_) hv
    rw [hi, Function.update_self, ← hi, he] at h4
    exact absurd h4 (by decide)
  have hr2 : 0 < k₂.refs i := by rw [h2r]; exact h0
  have hr3 : 0 < k₃.refs i := by rw [hm3.refs]; exact h0
  have hr4 : 0 < k₄.refs i := by rw [hm4.refs]; exact h4
  exact hm4.kept i hr3 hr4 (hm3.kept i hr2 hr3 h2)

theorem wp_iput (ip : Ino) : Lib.wp (iput ip) (fun _ k' => k.locks ip = false ∧
    Moved k k' k.locks (Function.update k.refs ip (k.refs ip - 1))) Any k := by
  unfold iput
  refine (wp_acquire ip).bind (fun _ _ _ => trivial) (fun _ k₁ h1 => ?_)
  obtain ⟨hl, h1⟩ := h1
  have h1l : k₁.locks = Function.update k.locks ip true := by
    rw [h1]
    exact locks_setEntry _
  have h1r : k₁.refs = k.refs := by
    rw [h1]
    exact (moved_lock true).refs
  have h1c : k₁.cwd = k.cwd := by rw [h1]; rfl
  have hval1 : (k₁.icache ip).valid = (k.icache ip).valid := by rw [h1, setEntry_self]
  have hother1 : ∀ i, i ≠ ip → k₁.icache i = k.icache i := fun i hi => by
    rw [h1, setEntry_other hi]
  refine Lib.wp_get ?_
  by_cases hc : (k₁.icache ip).valid ∧ (k₁.icache ip).di.nlink = 0 ∧ (k₁.icache ip).ref = 1
  · simp only [if_pos hc]
    refine (wp_ifree ip).bind (fun _ _ _ => trivial) (fun _ k₂ h2 => ?_)
    obtain ⟨h2l, h2r, h2c, h2o⟩ := h2
    refine ⟨hl, moved_iput_end hl (h2l.trans h1l) (h2r.trans h1r) (h2c.trans h1c)
      (fun i _ hone hv => ?_) rfl rfl⟩
    have hi : i ≠ ip := by
      intro hi
      apply hone hi
      rw [← h1r, hi]
      exact hc.2.2
    rw [h2o i hi, hother1 i hi]
    exact hv
  · simp only [if_neg hc]
    refine ⟨hl, moved_iput_end hl h1l h1r h1c (fun i _ _ hv => ?_) rfl rfl⟩
    by_cases hi : i = ip
    · rw [hi, hval1, ← hi]
      exact hv
    · rw [hother1 i hi]
      exact hv

theorem wp_iunlockput (ip : Ino) : Lib.wp (iunlockput ip) (fun _ k' => k.locks ip = true ∧
    1 ≤ k.refs ip ∧ Moved k k' (Function.update k.locks ip false)
      (Function.update k.refs ip (k.refs ip - 1))) Any k := by
  unfold iunlockput
  refine (wp_iunlock ip).bind (fun _ _ _ => trivial) (fun _ k₁ h1 => ?_)
  obtain ⟨hl, hr, hm1, -⟩ := h1
  refine (wp_iput ip).mono (fun _ k₂ h2 => ?_) (fun _ _ _ => trivial)
  obtain ⟨-, hm2⟩ := h2
  rw [hm1.locks, hm1.refs] at hm2
  refine ⟨hl, hr, hm1.trans hm2 (fun i h0 _ => h0)⟩

theorem wp_onInode {α : Type} (ip : Ino) (f : Inode → FsM (α × Inode)) :
    Lib.wp (onInode ip f) (fun _ k' => Moved k k' k.locks k.refs) Any k := by
  unfold onInode
  refine Lib.wp_get ?_
  refine (wp_onDisk _).bind (fun _ _ _ => trivial) (fun ay k₁ h1 => ?_)
  have hm1 : Moved k k₁ k.locks k.refs := moved_of_icache h1.1 h1.2
  have hm2 : Moved k₁ (k₁.setEntry ip { k₁.icache ip with di := ay.2.toDinode }) k₁.locks k₁.refs :=
    moved_setEntry_same rfl rfl rfl
  rw [hm1.locks] at hm2
  exact hm1.then_same hm2

/-! ## Looking up names -/

/-- The references `R` and one more to the inode a lookup has found. -/
def found (R : Ino → Int) : Option Ino → Ino → Int
  | none => R
  | some j => Function.update R j (R j + 1)

theorem le_found (R : Ino → Int) (o : Option Ino) (i : Ino) : R i ≤ found R o i := by
  cases o with
  | none => exact le_refl _
  | some j =>
    by_cases hi : i = j
    · rw [hi]
      simp only [found, Function.update_self]
      omega
    · simp only [found, Function.update_of_ne hi, le_refl]

/-- From one inode to the next: the next one is referred to, then the first is not. -/
theorem found_next (R : Ino → Int) (i j : Ino) :
    Function.update (found (found R (some i)) (some j)) i
      (found (found R (some i)) (some j) i - 1) = found R (some j) := by
  funext x
  simp only [found, Function.update_apply]
  by_cases hj : j = i
  · subst hj
    by_cases hx : x = j
    · simp only [hx, if_true]
      omega
    · simp only [if_neg hx]
  · by_cases hx : x = i
    · subst hx
      simp only [if_true, if_neg (Ne.symm hj)]
      omega
    · simp only [if_neg hx, if_neg hj]

theorem found_put (R : Ino → Int) (i : Ino) :
    Function.update (found R (some i)) i (found R (some i) i - 1) = R := by
  funext x
  simp only [found, Function.update_apply]
  split_ifs with hx
  · subst hx
    omega
  · rfl

/-- What a lookup from `k` to `k'` does that finds `o`. -/
def Looked (k k' : Kernel) (o : Option Ino) : Prop := Moved k k' k.locks (found k.refs o)

/-- A call after the lookup that leaves at least the references of before it. -/
theorem Looked.then {k'' : Kernel} {o : Option Ino} {L : Ino → Bool} {R : Ino → Int}
    (h : Looked k k' o) (h' : Moved k' k'' L R) : Moved k k'' L R :=
  h.trans h' (fun i h0 _ => lt_of_lt_of_le h0 (le_found k.refs o i))

theorem Looked.trans {o q : Option Ino} {k'' : Kernel} (h : Looked k k' o) (h' : Looked k' k'' q) :
    Moved k k'' k.locks (found (found k.refs o) q) := by
  have h2 := Looked.then h h'
  rw [h.locks, h.refs] at h2
  exact h2

theorem wp_dirlookupLoop (sb : Superblock) (dp : Ino) (name : List UInt8) (fuel off : Nat) :
    ∀ k : Kernel, Lib.wp (dirlookupLoop sb dp name fuel off)
      (fun r k' => Looked k k' (r.map (·.1))) Any k := by
  induction fuel generalizing off with
  | zero => exact fun k => Moved.refl k
  | succ fuel ih =>
    intro k
    unfold dirlookupLoop
    refine Lib.wp_get ?_
    by_cases ho : off < (k.icache dp).di.size
    · simp only [if_pos ho]
      unfold readDirent
      refine Lib.wp_bind (((wp_onInode dp _).bind (fun _ _ _ => trivial) (fun r k₁ h1 => ?_)))
      apply Lib.wp_pure
      split
      · trivial
      · rename_i de _
        split_ifs
        · refine (wp_iget de.inum).bind (fun _ _ _ => trivial) (fun j k₂ h2 => ?_)
          have h12 := Looked.trans (o := none) (q := some j) h1 h2.1
          exact h12
        · refine (ih (off + 16) k₁).mono (fun r k₂ h2 => ?_) (fun _ _ _ => trivial)
          exact Looked.trans (o := none) h1 h2
    · simp only [if_neg ho]
      exact Moved.refl k

theorem wp_dirlookup (sb : Superblock) (dp : Ino) (name : List UInt8) :
    Lib.wp (dirlookup sb dp name) (fun r k' => Looked k k' (r.map (·.1))) Any k := by
  unfold dirlookup
  refine Lib.wp_get ?_
  by_cases ht : (k.icache dp).di.type ≠ .T_DIR
  · simp only [if_pos ht]
    trivial
  · simp only [if_neg ht]
    exact wp_dirlookupLoop sb dp name _ 0 k

/-- A round of `namex`: `ip` is locked, a name in it is looked up, and it is put back. -/
theorem Looked.round {k₀ k₁ k₂ k₃ : Kernel} {o : Option Ino} (h : Looked k₀ k (some ip))
    (hl : k.locks ip = false) (hm1 : Moved k k₁ (Function.update k.locks ip true) k.refs)
    (h2 : Looked k₁ k₂ o) (hm3 : Moved k₂ k₃ (Function.update k₂.locks ip false)
      (Function.update k₂.refs ip (k₂.refs ip - 1))) : Looked k₀ k₃ o := by
  have h01 : Moved k₀ k₁ (Function.update k.locks ip true) k.refs := h.then hm1
  have hback : Function.update (Function.update k.locks ip true) ip false = k.locks := by
    rw [Function.update_idem, ← hl, Function.update_eq_self]
  have hpos : ∀ i, 0 < k₀.refs i → 0 < k.refs i := fun i h0 => by
    rw [h.refs]
    exact lt_of_lt_of_le h0 (le_found k₀.refs _ i)
  have h02 : Moved k₀ k₂ (Function.update k.locks ip true) (found k.refs o) := by
    have h := h01.trans h2 (fun i h0 _ => hpos i h0)
    rw [hm1.locks, hm1.refs] at h
    exact h
  have h03 := h02.trans hm3 (fun i h0 _ => lt_of_lt_of_le (hpos i h0) (le_found k.refs o i))
  rw [h02.locks, h02.refs, hback, h.locks, h.refs] at h03
  cases o with
  | none =>
    simp only [found] at h03 ⊢
    rw [show Function.update k₀.refs ip (k₀.refs ip + 1) = found k₀.refs (some ip) from rfl,
      found_put] at h03
    exact h03
  | some j =>
    rw [found_next] at h03
    exact h03

/-- The parent of the last name is locked and unlocked. -/
theorem Looked.relock {k₀ k₁ k₂ : Kernel} {o : Option Ino} (h : Looked k₀ k o)
    (hl : k.locks ip = false) (hm1 : Moved k k₁ (Function.update k.locks ip true) k.refs)
    (hm2 : Moved k₁ k₂ (Function.update k₁.locks ip false) k₁.refs) : Looked k₀ k₂ o := by
  have h02 := (h.then hm1).then_same hm2
  rw [hm1.locks, Function.update_idem, ← hl, Function.update_eq_self, h.locks, h.refs] at h02
  exact h02

/-- The loop keeps one reference, to the inode it is at. -/
theorem wp_namexLoop (sb : Superblock) (parent : Bool) {k₀ : Kernel}
    (fuel : Nat) : ∀ (path : List UInt8) (ip : Ino) (k : Kernel), Looked k₀ k (some ip) →
      Lib.wp (namexLoop sb parent fuel path ip) (fun r k' => Looked k₀ k' (r.map (·.1))) Any k := by
  induction fuel with
  | zero => exact fun path ip k h => h
  | succ fuel ih =>
    intro path ip k h
    unfold namexLoop
    cases skipelem path with
    | none =>
      cases parent with
      | true =>
        refine (wp_iput ip).bind (fun _ _ _ => trivial) (fun _ k₁ h1 => ?_)
        have h01 := h.then h1.2
        rw [h.locks, h.refs, found_put] at h01
        exact h01
      | false => exact h
    | some nr =>
      obtain ⟨name, rest⟩ := nr
      refine (wp_ilock ip).bind (fun _ _ _ => trivial) (fun _ k₁ h1 => ?_)
      obtain ⟨hl, -, hm1, -⟩ := h1
      refine Lib.wp_get ?_
      by_cases ht : k₁.type ip ≠ .T_DIR
      · simp only [if_pos ht]
        refine (wp_iunlockput ip).bind (fun _ _ _ => trivial) (fun _ k₃ h3 => ?_)
        exact h.round (o := none) hl hm1 (Moved.refl k₁) h3.2.2
      · simp only [if_neg ht]
        by_cases hp : parent = true ∧ rest = []
        · simp only [if_pos hp]
          refine (wp_iunlock ip).bind (fun _ _ _ => trivial) (fun _ k₂ h2 => ?_)
          exact h.relock hl hm1 h2.2.2.1
        · simp only [if_neg hp]
          refine (wp_dirlookup sb ip name).bind (fun _ _ _ => trivial) (fun r k₂ h2 => ?_)
          cases r with
          | none =>
            refine (wp_iunlockput ip).bind (fun _ _ _ => trivial) (fun _ k₃ h3 => ?_)
            exact h.round hl hm1 h2 h3.2.2
          | some jo =>
            refine (wp_iunlockput ip).bind (fun _ _ _ => trivial) (fun _ k₃ h3 => ?_)
            exact ih rest jo.1 k₃ (h.round hl hm1 h2 h3.2.2)

theorem wp_namei (sb : Superblock) (path : List UInt8) :
    Lib.wp (namei sb path) (fun r k' => Looked k k' r) Any k := by
  have hx : Lib.wp (namex sb path false) (fun r k' => Looked k k' (r.map (·.1))) Any k := by
    unfold namex
    split_ifs
    · refine (wp_iget ROOTINO).bind (fun _ _ _ => trivial) (fun j k₁ h1 => ?_)
      exact wp_namexLoop sb false _ path j k₁ h1.1
    · refine Lib.wp_get ?_
      refine (wp_idup k.cwd).bind (fun _ _ _ => trivial) (fun j k₁ h1 => ?_)
      exact wp_namexLoop sb false _ path j k₁ h1.2.1
  exact hx.bind (fun _ _ _ => trivial) (fun r k₁ h1 => h1)

end Rules

end Xv6.File
