import Xv6.File.Contents

/- `mkfs` (`project3_filesystem/mkfs.c`) builds the image that the kernel reads. Its
   `iappend` has a block map of its own, with direct and single-indirect blocks only, and
   takes blocks from the counter `freeblock`. The image is seen here as the kernel's disk:
   with the bits below `freeblock` set, as `balloc` writes them at the end, every step of
   `iappend` is one that the kernel could have made. -/
namespace Xv6.File

open Fs (Block BSIZE)

abbrev LOGSIZE : Nat := 52
abbrev FSSIZE : Nat := 1000000
abbrev NINODES : Nat := 200
abbrev IPB : Nat := 8

def nlog : Nat := LOGSIZE
def ninodeblocks : Nat := NINODES / IPB + 1
def nbitmap : Nat := FSSIZE / (BSIZE * 8) + 1
def nmeta : Nat := 2 + nlog + ninodeblocks + nbitmap

/-- The super block that `mkfs` writes. -/
def mkfsSuper : Superblock where
  size := FSSIZE
  nblocks := FSSIZE - nmeta
  ninodes := NINODES
  nlog := nlog
  logstart := 2
  inodestart := 2 + nlog
  bmapstart := 2 + nlog + ninodeblocks
  size_lt := by decide
  nblocks_lt := by decide

/-- The image file and the counters. -/
structure Image where
  disk : Disk
  freeblock : Nat
  freeinode : Nat

/-- How `mkfs` can fail: an assertion; an index outside `indirect[]`; an inode whose block
would be a block of the free map, which `balloc` overwrites at the end. -/
inductive MkfsFault where
  | assert
  | outOfBounds
  | overlap
  deriving DecidableEq, Repr

abbrev MkfsM := Except MkfsFault

namespace Image

def wsect (m : Image) (sec : Nat) (buf : Block) : Image :=
  { m with disk := m.disk.setBlock sec buf }

/-- `if(xint(din.X) == 0) din.X = xint(freeblock++)` for a pointer `X` of the inode. -/
def allocRoot (m : Image) (din : Dinode) (r : Fin 13) : Image × Dinode :=
  if din.root r = 0 then
    ({ m with freeblock := m.freeblock + 1 }, din.setRoot r m.freeblock)
  else (m, din)

/-- The block for `fbn`, in the body of the loop of `iappend`. -/
def iappendBlock (m : Image) (din : Dinode) (fbn : Nat) : MkfsM (Image × Dinode × Nat) :=
  if fbn ≥ MAXFILE then throw .assert
  else if h : fbn < 10 then
    let (m, din) := m.allocRoot din ⟨fbn, lt_roots h⟩
    return (m, din, din.root ⟨fbn, lt_roots h⟩)
  else
    let (m, din) := m.allocRoot din 10
    let indirect := m.disk.block (din.root 10)
    if fbn - NDIRECT ≥ NINDIRECT then throw .outOfBounds
    else if indirect.word (fbn - NDIRECT) = 0 then
      return ({ m with
        freeblock := m.freeblock + 1
        disk := m.disk.setBlock (din.root 10) (indirect.setWord (fbn - NDIRECT) m.freeblock) },
        din, m.freeblock)
    else return (m, din, indirect.word (fbn - NDIRECT))

/-- The loop of `iappend`: `n` bytes are left to write at offset `off`. Every pass writes at
least one of them. -/
def iappendLoop : Nat → Image → Dinode → Nat → (Nat → UInt8) → Nat → MkfsM (Image × Dinode × Nat)
  | 0, m, din, off, _, _ => return (m, din, off)
  | fuel + 1, m, din, off, p, n =>
    if n = 0 then return (m, din, off)
    else do
      let fbn := off / BSIZE
      let (m, din, x) ← m.iappendBlock din fbn
      let n1 := min n ((fbn + 1) * BSIZE - off)
      let buf := m.disk.block x
      iappendLoop fuel (m.wsect x (blit buf (off - fbn * BSIZE) n1 p)) din (off + n1) (fun i => p (i + n1)) (n - n1)

def winode (m : Image) (inum : Nat) (din : Dinode) : Image :=
  { m with disk := m.disk.setDinode inum din }

def iappend (m : Image) (inum : Nat) (xp : Nat → UInt8) (n : Nat) : MkfsM Image := do
  let din := m.disk.dinode inum
  let (m, din, off) ← iappendLoop n m din din.size xp n
  return m.winode inum { din with size := off }

def ialloc (m : Image) (type : FileType) : MkfsM (Image × Nat) :=
  if mkfsSuper.bmapstart ≤ m.freeinode / IPB + mkfsSuper.inodestart then throw .overlap
  else return ({ m with freeinode := m.freeinode + 1 }.winode m.freeinode { type := type, nlink := 1 },
    m.freeinode)

/-- `struct dirent`: the inode number, and the name padded with zeros. -/
def dirent (inum : Nat) (name : List UInt8) (i : Nat) : UInt8 :=
  if i = 0 then UInt8.ofNat inum
  else if i = 1 then UInt8.ofNat (inum / 256)
  else (name.take DIRSIZ).getD (i - 2) 0

/-- The loop that copies the host file, in pieces of `BSIZE` bytes. -/
def copyFile : Nat → Image → Nat → List UInt8 → MkfsM Image
  | 0, m, _, _ => return m
  | fuel + 1, m, inum, bytes =>
    if bytes = [] then return m
    else do
      let m ← m.iappend inum (fun i => bytes.getD i 0) (min BSIZE bytes.length)
      copyFile fuel m inum (bytes.drop BSIZE)

/-- The body of the loop over the input files. -/
def addFile (m : Image) (file : List UInt8 × List UInt8) : MkfsM Image := do
  let (m, inum) ← m.ialloc .T_FILE
  let m ← m.iappend ROOTINO (dirent inum file.1) 16
  copyFile file.2.length m inum file.2

/-- `balloc(used)`: the bits of the first `used` blocks. -/
def balloc (m : Image) (used : Nat) : MkfsM Image :=
  if used < BSIZE * 8 then return { m with disk := { m.disk with bitmap := fun b => b < used } }
  else throw .assert

end Image

/-- An image of zeros. -/
def zeroImage : Image where
  disk := { bitmap := fun _ => false, dinode := fun _ => {}, block := fun _ => Fs.Block.zero }
  freeblock := nmeta
  freeinode := 1

/-- `main`, for input files with their names. -/
def mkfs (files : List (List UInt8 × List UInt8)) : MkfsM Image := do
  let (m, rootino) ← zeroImage.ialloc .T_DIR
  let m ← m.iappend rootino (Image.dirent rootino [46]) 16
  let m ← m.iappend rootino (Image.dirent rootino [46, 46]) 16
  let m ← files.foldlM Image.addFile m
  -- fix size of root inode dir
  let din := m.disk.dinode rootino
  let m := m.winode rootino { din with size := (din.size / BSIZE + 1) * BSIZE }
  m.balloc m.freeblock

namespace Image

/-- The image with the free map as `balloc` will write it. -/
def marked (m : Image) : Disk := { m.disk with bitmap := fun b => b < m.freeblock }

/-- Every block from `freeblock` on is still zero. -/
def Fresh (m : Image) : Prop := ∀ b, m.freeblock ≤ b → m.disk.block b = Fs.Block.zero

section Append

variable {m m' : Image} {f : Nat → Dinode} {i : Nat} {din din' : Dinode}

theorem marked_bitmap_succ (m : Image) (disk : Disk) :
    ({ m with freeblock := m.freeblock + 1, disk := disk } : Image).marked.bitmap =
      Function.update m.marked.bitmap m.freeblock true := by
  funext b
  show decide (b < m.freeblock + 1) = Function.update (fun b => decide (b < m.freeblock)) _ _ b
  rw [Function.update_apply]
  split
  · rename_i hb
    simp [hb]
  · have h : b < m.freeblock + 1 ↔ b < m.freeblock := by omega
    simp [h]

theorem marked_free (m : Image) : m.marked.bitmap m.freeblock = false := by
  simp [marked]

/-- One pass over a pointer of the inode. -/
theorem allocRoot_mapped (h : Consistent mkfsSuper m.marked f) (hz : m.Fresh) (r : Fin 13) :
    Mapped mkfsSuper m.marked f i r [] (m.allocRoot (f i) r).2
        ((m.allocRoot (f i) r).2.root r) (m.allocRoot (f i) r).1.marked ∧
      (m.allocRoot (f i) r).1.Fresh ∧ m.freeblock ≤ (m.allocRoot (f i) r).1.freeblock := by
  unfold allocRoot
  split
  · rename_i h0
    refine ⟨?_, fun b hb => hz b (by have hb : m.freeblock + 1 ≤ b := hb; omega), by
      show m.freeblock ≤ m.freeblock + 1
      omega⟩
    have hroot : ((f i).setRoot r m.freeblock).root r = m.freeblock := by
      rw [Dinode.root_setRoot, if_pos rfl]
    rw [hroot]
    exact Mapped.root h h0 m.marked_free (marked_bitmap_succ m m.disk) (hz _ (Nat.le_refl _))
      (fun _ _ => rfl) rfl
  · rename_i h0
    exact ⟨Mapped.self h h0, hz, Nat.le_refl _⟩

/-- The block that `iappend` finds or takes is the one that `bmap` would. -/
theorem iappendBlock_mapped (h : Consistent mkfsSuper m.marked f) (hz : m.Fresh)
    (hi : (f i).isFile) {fbn x : Nat} (hlt : m'.freeblock < 2 ^ 32)
    (hr : m.iappendBlock (f i) fbn = .ok (m', din', x)) :
    Mapped mkfsSuper m.marked f i (path fbn).1 (path fbn).2 din' x m'.marked ∧ m'.Fresh ∧
      m.freeblock ≤ m'.freeblock ∧ fbn < 138 := by
  have hmax : MAXFILE = 2113674 := rfl
  unfold iappendBlock at hr
  split at hr
  · cases hr
  rename_i hfbn
  have hbn : fbn < MAXFILE := Nat.lt_of_not_le hfbn
  split at hr
  · rename_i h10
    cases hr
    obtain ⟨h1, h2, h3⟩ := allocRoot_mapped (i := i) h hz ⟨fbn, by omega⟩
    rw [path_direct h10]
    exact ⟨h1, h2, h3, by omega⟩
  rename_i h10
  obtain ⟨h1, h2, h3⟩ := allocRoot_mapped (i := i) h hz 10
  dsimp only at hr
  generalize m.allocRoot (f i) 10 = x1 at h1 h2 h3 hr
  obtain ⟨m1, din1⟩ := x1
  dsimp only at h1 h2 h3 hr
  split at hr
  · cases hr
  rename_i hidx
  have hidx : fbn - 10 < 128 := Nat.lt_of_not_le hidx
  have hleaf := (path_leaf hi hbn).1
  rw [path_indirect h10 (by omega)] at hleaf ⊢
  have hleaf' : (shape (Function.update f i din1)).Node (i, 10) [fbn - 10] := by
    rw [shape_eq (types_update h1.attrs)]
    exact hleaf
  have hself : Function.update f i din1 i = din1 := Function.update_self ..
  have hused : m1.marked.bitmap (din1.root 10) = true := by
    have hu := (h1.consistent.used _ _ hleaf'.inner.1 (by rw [h1.mapped]; exact h1.ne_zero)).1
    rw [h1.mapped] at hu
    exact hu
  have haddr : din1.root 10 < m1.freeblock := by simpa [marked] using hused
  split at hr
  · rename_i h0
    simp only [pure, Except.pure, Except.ok.injEq, Prod.mk.injEq] at hr
    obtain ⟨hm', hd', hx⟩ := hr
    subst hm' hd' hx
    have hlt : m1.freeblock + 1 < 2 ^ 32 := hlt
    have hblock : ∀ a, a ≠ din1.root 10 → (m1.disk.setBlock (din1.root 10)
        ((m1.disk.block (din1.root 10)).setWord (fbn - NDIRECT) m1.freeblock)).block a =
        m1.disk.block a := fun a ha => Function.update_of_ne ha _ _
    have hentry := Mapped.entry h1.consistent hleaf' h1.mapped h1.ne_zero h0
      (marked_free m1) (by omega)
      (marked_bitmap_succ m1 (m1.disk.setBlock (din1.root 10)
        ((m1.disk.block (din1.root 10)).setWord (fbn - NDIRECT) m1.freeblock)))
      ((hblock m1.freeblock (by omega)).trans (h2 _ (Nat.le_refl _))) (Function.update_self ..)
      (fun a _ ha => hblock a ha) rfl
    rw [hself] at hentry
    refine ⟨h1.next hleaf hentry, fun b hb => ?_, ?_, by omega⟩
    · have hb : m1.freeblock + 1 ≤ b := hb
      exact (hblock b (by omega)).trans (h2 b (by omega))
    · show m.freeblock ≤ m1.freeblock + 1
      omega
  · rename_i h0
    simp only [pure, Except.pure, Except.ok.injEq, Prod.mk.injEq] at hr
    obtain ⟨hm', hd', hx⟩ := hr
    subst hm' hd' hx
    have hword : ptr m1.marked (Function.update f i din1) (i, 10) [fbn - 10] =
        (m1.disk.block (din1.root 10)).word (fbn - NDIRECT) := by
      have hne : ptr m1.marked (Function.update f i din1) (i, 10) [] ≠ 0 := by
        rw [h1.mapped]
        exact h1.ne_zero
      have hcons := Lib.Forest.val_cons_of_ne hne (fbn - 10)
      refine hcons.trans ?_
      show (m1.disk.block (ptr m1.marked (Function.update f i din1) (i, 10) [])).word _ = _
      rw [h1.mapped]
    have hentry := Mapped.self (i := i) (r := 10) (p := [fbn - 10]) h1.consistent (by
      rw [hword]
      exact h0)
    rw [hword, hself] at hentry
    exact ⟨h1.next hleaf hentry, h2, h3, by omega⟩

theorem allocRoot_freeinode (m : Image) (din : Dinode) (r : Fin 13) :
    (m.allocRoot din r).1.freeinode = m.freeinode := by
  unfold allocRoot
  split
  · rfl
  · rfl

theorem iappendBlock_freeinode {fbn x : Nat} (hr : m.iappendBlock din fbn = .ok (m', din', x)) :
    m'.freeinode = m.freeinode := by
  unfold iappendBlock at hr
  split at hr
  · cases hr
  · split at hr
    · cases hr
      exact allocRoot_freeinode m din _
    · dsimp only at hr
      split at hr
      · cases hr
      · split at hr
        · cases hr
          exact allocRoot_freeinode m din 10
        · cases hr
          exact allocRoot_freeinode m din 10

theorem iappendBlock_dinode {fbn x : Nat} (hr : m.iappendBlock din fbn = .ok (m', din', x)) :
    m'.disk.dinode = m.disk.dinode := by
  have hroot : ∀ r, (m.allocRoot din r).1.disk.dinode = m.disk.dinode := by
    intro r
    unfold allocRoot
    split
    · rfl
    · rfl
  unfold iappendBlock at hr
  split at hr
  · cases hr
  · split at hr
    · cases hr
      exact hroot _
    · dsimp only at hr
      split at hr
      · cases hr
      · split at hr
        · cases hr
          exact hroot 10
        · cases hr
          exact hroot 10

theorem allocRoot_attrs (m : Image) (din : Dinode) (r : Fin 13) : SameAttrs din (m.allocRoot din r).2 := by
  unfold allocRoot
  split
  · exact SameAttrs.setRoot din r _
  · exact SameAttrs.refl din

theorem iappendBlock_attrs {fbn x : Nat} (hr : m.iappendBlock din fbn = .ok (m', din', x)) :
    SameAttrs din din' := by
  unfold iappendBlock at hr
  split at hr
  · cases hr
  · split at hr
    · cases hr
      exact allocRoot_attrs m din _
    · dsimp only at hr
      split at hr
      · cases hr
      · split at hr
        · cases hr
          exact allocRoot_attrs m din 10
        · cases hr
          exact allocRoot_attrs m din 10

theorem iappendBlock_ok (m : Image) (din : Dinode) (fbn : Nat) (h : fbn < 138) :
    ∃ y, m.iappendBlock din fbn = .ok y := by
  have hmax : ¬ fbn ≥ MAXFILE := Nat.not_le.mpr (Nat.lt_of_lt_of_le h (by decide))
  unfold iappendBlock
  rw [if_neg hmax]
  split
  · exact ⟨_, rfl⟩
  · have hidx : ¬ fbn - NDIRECT ≥ NINDIRECT := by
      show ¬ 128 ≤ fbn - 10
      omega
    dsimp only
    rw [if_neg hidx]
    split
    · exact ⟨_, rfl⟩
    · exact ⟨_, rfl⟩

theorem allocRoot_mono (m : Image) (din : Dinode) (r : Fin 13) :
    m.freeblock ≤ (m.allocRoot din r).1.freeblock := by
  unfold allocRoot
  split
  · exact Nat.le_succ _
  · exact Nat.le_refl _

theorem iappendBlock_mono {fbn x : Nat} (hr : m.iappendBlock din fbn = .ok (m', din', x)) :
    m.freeblock ≤ m'.freeblock := by
  unfold iappendBlock at hr
  split at hr
  · cases hr
  · split at hr
    · cases hr
      exact allocRoot_mono m din _
    · dsimp only at hr
      split at hr
      · cases hr
      · split at hr
        · cases hr
          exact (allocRoot_mono m din 10).trans (Nat.le_succ _)
        · cases hr
          exact allocRoot_mono m din 10

theorem iappendLoop_mono : ∀ (fuel : Nat) (m : Image) (din : Dinode) (off : Nat) (p : Nat → UInt8)
    (n : Nat) {y : Image × Dinode × Nat}, iappendLoop fuel m din off p n = .ok y →
    m.freeblock ≤ y.1.freeblock := by
  intro fuel
  induction fuel with
  | zero =>
    intro m din off p n y hr
    cases hr
    exact Nat.le_refl _
  | succ fuel ih =>
    intro m din off p n y hr
    unfold iappendLoop at hr
    split at hr
    · cases hr
      exact Nat.le_refl _
    · obtain ⟨⟨m1, din1, x⟩, hb, hr⟩ := Lib.except_bind_ok hr
      have hrest := ih _ _ _ _ _ hr
      exact (iappendBlock_mono hb).trans hrest

/-- What the loop of `iappend` has done. -/
structure Appended (m : Image) (f : Nat → Dinode) (i : Nat) (src : Nat → UInt8) (off n : Nat)
    (din' : Dinode) (m' : Image) : Prop where
  stored : Stored mkfsSuper m.marked f i src off n din' m'.marked
  fresh : m'.Fresh
  freeblock : m.freeblock ≤ m'.freeblock
  freeinode : m'.freeinode = m.freeinode
  range : 0 < n → off + n ≤ 138 * BSIZE

theorem iappendLoop_appended : ∀ (fuel : Nat) (m : Image) (f : Nat → Dinode) (din : Dinode)
    (off : Nat) (p : Nat → UInt8) (n : Nat) (m' : Image) (din' : Dinode) (off' : Nat),
    Consistent mkfsSuper m.marked f → m.Fresh → f i = din → din.isFile → n ≤ fuel →
    m'.freeblock < 2 ^ 32 → iappendLoop fuel m din off p n = .ok (m', din', off') →
    Appended m f i p off n din' m' ∧ off' = off + n := by
  intro fuel
  induction fuel with
  | zero =>
    intro m f din off p n m' din' off' hc hz hf _ hn _ hr
    have h0 : n = 0 := by omega
    subst h0
    cases hr
    have hnil := Stored.nil (i := i) hc p off
    rw [hf] at hnil
    exact ⟨⟨hnil, hz, Nat.le_refl _, rfl, fun h => absurd h (Nat.lt_irrefl _)⟩, rfl⟩
  | succ fuel ih =>
    intro m f din off p n m' din' off' hc hz hf hi hn hlt hr
    unfold iappendLoop at hr
    split at hr
    · rename_i h0
      subst h0
      cases hr
      have hnil := Stored.nil (i := i) hc p off
      rw [hf] at hnil
      exact ⟨⟨hnil, hz, Nat.le_refl _, rfl, fun h => absurd h (Nat.lt_irrefl _)⟩, rfl⟩
    rename_i h0
    have hB : BSIZE = 512 := rfl
    have hi' : (f i).isFile := hf ▸ hi
    rw [← hf] at hr
    obtain ⟨⟨m1, din1, x⟩, hb, hr⟩ := Lib.except_bind_ok hr
    dsimp only at hr
    have hn1 : min n ((off / BSIZE + 1) * BSIZE - off) = min n (BSIZE - off % BSIZE) := by
      rw [hB]
      omega
    have hmod : off - off / BSIZE * BSIZE = off % BSIZE := by
      rw [hB]
      omega
    rw [hn1, hmod] at hr
    have hfree1 := iappendBlock_freeinode hb
    generalize hm2 : m1.wsect x
      (blit (m1.disk.block x) (off % BSIZE) (min n (BSIZE - off % BSIZE)) p) = m2 at hr
    have hpos : 0 < min n (BSIZE - off % BSIZE) := by
      rw [hB]
      omega
    have hle : min n (BSIZE - off % BSIZE) ≤ BSIZE - off % BSIZE := Nat.min_le_right _ _
    -- the counter at the end bounds it at every step
    have hmono : m1.freeblock ≤ m'.freeblock := by
      have := iappendLoop_mono fuel m2 din1 _ _ _ hr
      rw [← hm2] at this
      exact this
    obtain ⟨h1, h2, h3, h4⟩ := iappendBlock_mapped hc hz hi' (by omega) hb
    have hbn : off / BSIZE < MAXFILE := Nat.lt_of_lt_of_le h4 (by decide)
    have hst := h1.stored p hi' hbn hpos hle
    have hmark : m1.marked.setBlock x
        (blit (m1.marked.block x) (off % BSIZE) (min n (BSIZE - off % BSIZE)) p) = m2.marked := by
      rw [← hm2]
      rfl
    rw [hmark] at hst
    have hused : x < m1.freeblock := by
      have hself : (Function.update f i din1 i).isFile := by
        rw [Function.update_self]
        exact (isFile_congr h1.attrs.1).mpr hi'
      have hu := (h1.consistent.used _ _ (path_leaf hself hbn).1
        (by rw [h1.mapped]; exact h1.ne_zero)).1
      rw [h1.mapped] at hu
      simpa [marked] using hu
    have hz2 : m2.Fresh := by
      intro b hb
      rw [← hm2] at hb ⊢
      have hb : m1.freeblock ≤ b := hb
      exact (Function.update_of_ne (by omega) _ _).trans (h2 b hb)
    obtain ⟨hrest, hoff⟩ := ih m2 _ din1 _ _ _ m' din' off' hst.consistent hz2
      (Function.update_self ..) ((isFile_congr h1.attrs.1).mpr hi') (by omega) hlt hr
    have hrange : off + n ≤ 138 * BSIZE := by
      by_cases hlast : n - min n (BSIZE - off % BSIZE) = 0
      · rw [hB] at h4 hlast hle ⊢
        omega
      · have := hrest.range (by omega)
        omega
    have hlimit : 138 * BSIZE ≤ MAXFILE * BSIZE := by decide
    have hsplit : n = min n (BSIZE - off % BSIZE) + (n - min n (BSIZE - off % BSIZE)) := by omega
    refine ⟨⟨?_, hrest.fresh, ?_, ?_, fun _ => hrange⟩, by omega⟩
    · rw [hsplit]
      exact hst.trans hi' (by omega) hrest.stored
    · have := hrest.freeblock
      rw [← hm2] at this
      have : m1.freeblock ≤ m'.freeblock := this
      omega
    · rw [hrest.freeinode, ← hm2]
      exact hfree1

/-- The loop does not fail while it stays below the last single-indirect block. -/
theorem iappendLoop_ok : ∀ (fuel : Nat) (m : Image) (din : Dinode) (off : Nat) (p : Nat → UInt8)
    (n : Nat), off + n ≤ 138 * BSIZE → ∃ y, iappendLoop fuel m din off p n = .ok y := by
  intro fuel
  induction fuel with
  | zero =>
    intro m din off p n _
    exact ⟨_, rfl⟩
  | succ fuel ih =>
    intro m din off p n hle
    have hB : BSIZE = 512 := rfl
    unfold iappendLoop
    split
    · exact ⟨_, rfl⟩
    · rename_i h0
      obtain ⟨⟨m1, din1, x⟩, hb⟩ := m.iappendBlock_ok din (off / BSIZE) (by
        rw [hB] at hle ⊢
        omega)
      simp only [hb, bind, Except.bind]
      refine ih _ _ _ _ _ ?_
      rw [hB] at hle ⊢
      omega

/-- An image on the way: the inodes in use are files without holes and with no block behind
their end, and what is not in use is zero. -/
structure Whole (m : Image) : Prop where
  sound : Sound mkfsSuper m.marked m.disk.dinode
  fresh : m.Fresh
  tail : ∀ j bn, (m.disk.dinode j).isFile → bn < MAXFILE → (m.disk.dinode j).size ≤ bn * BSIZE →
    blockOf m.marked m.disk.dinode j bn = 0
  inodes : ∀ j, m.freeinode ≤ j → m.disk.dinode j = {}

/-- The bytes of inode `j` of the image. -/
def bytes (m : Image) (j : Nat) : List UInt8 := contents m.marked m.disk.dinode j

/-- The bytes `added` have been appended to inode `i`. -/
structure Grew (m : Image) (i : Nat) (added : List UInt8) (m' : Image) : Prop where
  whole : m'.Whole
  type : ∀ j, (m'.disk.dinode j).type = (m.disk.dinode j).type
  size : (m'.disk.dinode i).size = (m.disk.dinode i).size + added.length
  bytes : m'.bytes i = m.bytes i ++ added
  other : ∀ j, j ≠ i → m'.disk.dinode j = m.disk.dinode j
  others : ∀ j, j ≠ i → (m.disk.dinode j).isFile → m'.bytes j = m.bytes j
  freeinode : m'.freeinode = m.freeinode
  freeblock : m.freeblock ≤ m'.freeblock
  range : added ≠ [] → (m.disk.dinode i).size + added.length ≤ 138 * BSIZE

theorem Grew.nil (h : m.Whole) (i : Nat) : m.Grew i [] m :=
  ⟨h, fun _ => rfl, rfl, by simp, fun _ _ => rfl, fun _ _ _ => rfl, rfl, Nat.le_refl _,
    fun h => absurd rfl h⟩

theorem Grew.trans {m'' : Image} {added added' : List UInt8} (h : m.Grew i added m')
    (h' : m'.Grew i added' m'') : m.Grew i (added ++ added') m'' := by
  have hsize := h.size
  have hsize' := h'.size
  refine ⟨h'.whole, fun j => (h'.type j).trans (h.type j), ?_, ?_,
    fun j hj => (h'.other j hj).trans (h.other j hj), fun j hj hf => ?_,
    h'.freeinode.trans h.freeinode, h.freeblock.trans h'.freeblock, fun hne => ?_⟩
  · rw [List.length_append]
    omega
  · rw [h'.bytes, h.bytes, List.append_assoc]
  · rw [h'.others j hj ((isFile_congr (h.type j)).mpr hf), h.others j hj hf]
  · rw [List.length_append]
    by_cases h2 : added' = []
    · subst h2
      have hne' : added ≠ [] := by simpa using hne
      have := h.range hne'
      simpa using this
    · have := h'.range h2
      omega

theorem iappend_mono {p : Nat → UInt8} {n : Nat} (hr : m.iappend i p n = .ok m') :
    m.freeblock ≤ m'.freeblock := by
  unfold iappend at hr
  obtain ⟨y, hl, hr⟩ := Lib.except_bind_ok hr
  have hmono := iappendLoop_mono _ _ _ _ _ _ hl
  cases hr
  exact hmono

theorem Whole.grew (h : m.Whole) (hi : (m.disk.dinode i).isFile) {p : Nat → UInt8} {n : Nat}
    (hlt : m'.freeblock < 2 ^ 32) (hr : m.iappend i p n = .ok m') :
    m.Grew i ((List.range n).map p) m' := by
  unfold iappend at hr
  obtain ⟨⟨m1, din1, off'⟩, hl, hr⟩ := Lib.except_bind_ok hr
  simp only [pure, Except.pure, Except.ok.injEq] at hr
  have hlt1 : m1.freeblock < 2 ^ 32 := by
    rw [← hr] at hlt
    exact hlt
  obtain ⟨ha, hoff⟩ := iappendLoop_appended n m m.disk.dinode _ _ p n m1 din1 off' h.sound.consistent
    h.fresh rfl hi (Nat.le_refl _) hlt1 hl
  have hdin : m1.disk.dinode = m.disk.dinode := ha.stored.dinodes
  have hdinode : m'.disk.dinode =
      Function.update m.disk.dinode i { din1 with size := (m.disk.dinode i).size + n } := by
    rw [← hr, ← hoff, ← hdin]
    rfl
  have hself : m'.disk.dinode i = { din1 with size := (m.disk.dinode i).size + n } := by
    rw [hdinode, Function.update_self]
  have hother : ∀ j, j ≠ i → m'.disk.dinode j = m.disk.dinode j := by
    intro j hj
    rw [hdinode, Function.update_of_ne hj]
  have hlimit : 138 * BSIZE ≤ MAXFILE * BSIZE := by decide
  have hmax : (m.disk.dinode i).size + n ≤ MAXFILE * BSIZE := by
    by_cases hn : 0 < n
    · exact (ha.range hn).trans hlimit
    · have := h.sound.size_le hi
      omega
  have hw : Wrote mkfsSuper m.marked m.disk.dinode i p (m.disk.dinode i).size n (m'.disk.dinode i)
      m'.marked := by
    refine ⟨⟨din1, m1.marked, ha.stored, ?_, ?_, ?_, .inr ?_⟩, ?_, fun _ => rfl⟩
    · rw [hself]
    · rw [← hr]
      rfl
    · rw [← hr]
      rfl
    · rw [hself]
      exact hdinode
    · rw [hself]
      show (m.disk.dinode i).size + n = max _ _
      omega
  obtain ⟨hsound, hbytes, hothers⟩ := hw.files h.sound hi (Nat.le_refl _) hmax
  have hup : Function.update m.disk.dinode i (m'.disk.dinode i) = m'.disk.dinode := by
    rw [hself, hdinode]
  rw [hup] at hsound hbytes hothers
  have hsize : (m'.disk.dinode i).size = (m.disk.dinode i).size + n := by rw [hself]
  have htype : ∀ j, (m'.disk.dinode j).type = (m.disk.dinode j).type := by
    intro j
    by_cases hj : j = i
    · rw [hj, hself]
      exact ha.stored.attrs.1
    · rw [hother j hj]
  refine ⟨⟨hsound, ?_, fun j bn hj hbn hle => ?_, fun j hj => ?_⟩, htype, by simpa using hsize, ?_,
    hother, fun j hj hfile => hothers j hfile hj, ?_, ?_, fun hne => ?_⟩
  · intro b hb
    rw [← hr] at hb ⊢
    exact ha.fresh b hb
  · have hj' : (m.disk.dinode j).isFile := (isFile_congr (htype j)).mp hj
    have hptr : blockOf m'.marked m'.disk.dinode j bn =
        blockOf m1.marked (Function.update m.disk.dinode i din1) j bn := by
      unfold blockOf
      rw [show ptr m'.marked m'.disk.dinode = ptr m1.marked m'.disk.dinode from by
        unfold ptr
        rw [← hr]
        rfl]
      refine ptr_congr (fun j => ?_) _ _
      rw [hdinode]
      by_cases hj : j = i
      · rw [hj, Function.update_self, Function.update_self]
        rfl
      · rw [Function.update_of_ne hj, Function.update_of_ne hj]
    rw [hptr]
    by_cases hji : j = i
    · subst hji
      rw [hsize] at hle
      exact ha.stored.unmapped j bn hj' hbn (h.tail j bn hj' hbn (by omega)) (by omega)
    · rw [hother j hji] at hle
      exact ha.stored.unmapped j bn hj' hbn (h.tail j bn hj' hbn hle) (fun hin => hji hin.1)
  · have hji : j ≠ i := by
      rintro rfl
      rw [← hr] at hj
      have hj : m1.freeinode ≤ j := hj
      rw [ha.freeinode] at hj
      rw [h.inodes j hj] at hi
      rcases hi with hi | hi
      · cases hi
      · cases hi
    rw [hother j hji]
    refine h.inodes j ?_
    rw [← ha.freeinode]
    rw [← hr] at hj
    exact hj
  · unfold bytes contents
    rw [hsize, List.range_add, List.map_append, List.map_map]
    congr 1
    · refine List.map_congr_left (fun o ho => ?_)
      have ho := List.mem_range.mp ho
      rw [hbytes o (by omega), if_neg (by omega)]
    · refine List.map_congr_left (fun o ho => ?_)
      have ho := List.mem_range.mp ho
      show byteAt _ _ i ((m.disk.dinode i).size + o) = p o
      rw [hbytes _ (by omega), if_pos (by omega)]
      congr 1
      omega
  · rw [← hr]
    exact ha.freeinode
  · rw [← hr]
    exact ha.freeblock
  · have hn : 0 < n := by
      rcases Nat.eq_zero_or_pos n with h0 | h0
      · subst h0
        exact absurd rfl hne
      · exact h0
    simpa using ha.range hn

/-- A new inode. -/
theorem Whole.ialloc (h : m.Whole) {type : FileType} {inum : Nat}
    (hr : m.ialloc type = .ok (m', inum)) : m'.Whole ∧ inum = m.freeinode ∧ m.freeinode < 208 ∧
      m'.freeinode = m.freeinode + 1 ∧ m'.freeblock = m.freeblock ∧
      m'.disk.dinode inum = { type := type, nlink := 1 } ∧
      (∀ j, j ≠ inum → m'.disk.dinode j = m.disk.dinode j) ∧
      ∀ j, j ≠ inum → m'.bytes j = m.bytes j := by
  unfold Image.ialloc at hr
  split at hr
  · cases hr
  rename_i hlt
  have hlt : ¬ 80 ≤ m.freeinode / 8 + 54 := hlt
  simp only [pure, Except.pure, Except.ok.injEq, Prod.mk.injEq] at hr
  obtain ⟨hm, hinum⟩ := hr
  subst hinum
  have hself : m'.disk.dinode m.freeinode = { type := type, nlink := 1 } := by
    rw [← hm]
    exact Function.update_self ..
  have hother : ∀ j, j ≠ m.freeinode → m'.disk.dinode j = m.disk.dinode j := by
    intro j hj
    rw [← hm]
    exact Function.update_of_ne hj _ _
  have hroot : ∀ r, (m'.disk.dinode m.freeinode).root r = 0 := by
    intro r
    rw [hself]
    unfold Dinode.root
    split
    · rfl
    · split <;> rfl
  have hnew : ∀ r p, ptr m'.marked m'.disk.dinode (m.freeinode, r) p = 0 :=
    fun r p => Lib.Forest.val_of_root (k := ((m.freeinode, r) : Cell)) (hroot r) p
  have hold : ∀ j r p, j ≠ m.freeinode → ptr m'.marked m'.disk.dinode (j, r) p =
      ptr m.marked m.disk.dinode (j, r) p := by
    intro j r p hj
    induction p with
    | nil =>
      show (m'.disk.dinode j).root r = (m.disk.dinode j).root r
      rw [hother j hj]
    | cons x p ih =>
      unfold ptr at ih ⊢
      rw [Lib.Forest.val_cons, Lib.Forest.val_cons, ih, ← hm]
      rfl
  have hne : ∀ k p, ptr m'.marked m'.disk.dinode k p ≠ 0 → k.1 ≠ m.freeinode := by
    rintro ⟨j, r⟩ p hz rfl
    exact hz (hnew r p)
  have hnode : ∀ k p, k.1 ≠ m.freeinode → (shape m'.disk.dinode).Node k p →
      (shape m.disk.dinode).Node k p := by
    intro k p hk hn
    refine ⟨?_, hn.2⟩
    show (m.disk.dinode k.1).isFile
    rw [← hother k.1 hk]
    exact hn.1
  have hbit : m'.marked.bitmap = m.marked.bitmap := by
    rw [← hm]
    rfl
  have hbytes : ∀ j, j ≠ m.freeinode → m'.bytes j = m.bytes j := by
    intro j hj
    unfold bytes contents
    rw [hother j hj]
    refine List.map_congr_left (fun o _ => ?_)
    unfold byteAt blockOf
    rw [hold j _ _ hj, ← hm]
    rfl
  refine ⟨⟨⟨⟨fun b hb => ?_, fun k p hk hz => ?_, fun k p k' p' hk hk' hz heq => ?_⟩,
    fun j hj bn hbn => ?_⟩, ?_, fun j bn hj hbn hle => ?_, fun j hj => ?_⟩, rfl, by omega, ?_, ?_,
    hself, hother, hbytes⟩
  · rw [hbit]
    exact h.sound.consistent.metadata b hb
  · have hk1 := hne k p hz
    rw [hold k.1 k.2 p hk1] at hz ⊢
    rw [hbit]
    exact h.sound.consistent.used k p (hnode k p hk1 hk) hz
  · have hk1 := hne k p hz
    have hk2 := hne k' p' (heq ▸ hz)
    rw [hold k.1 k.2 p hk1] at hz heq
    rw [hold k'.1 k'.2 p' hk2] at heq
    exact h.sound.consistent.proper k p k' p' (hnode k p hk1 hk) (hnode k' p' hk2 hk') hz heq
  · by_cases hj1 : j = m.freeinode
    · rw [hj1, hself] at hbn
      exact absurd hbn (Nat.not_lt_zero _)
    · rw [hother j hj1] at hj hbn
      unfold blockOf
      rw [hold j _ _ hj1]
      exact h.sound.noHoles j hj bn hbn
  · intro b hb
    rw [← hm] at hb ⊢
    exact h.fresh b hb
  · by_cases hj1 : j = m.freeinode
    · rw [hj1]
      exact hnew _ _
    · rw [hother j hj1] at hj hle
      unfold blockOf
      rw [hold j _ _ hj1]
      exact h.tail j bn hj hbn hle
  · have hj' : m.freeinode + 1 ≤ j := by
      rw [← hm] at hj
      exact hj
    rw [hother j (by omega)]
    exact h.inodes j (by omega)
  · rw [← hm]
    rfl
  · rw [← hm]
    rfl

theorem copyFile_mono : ∀ (fuel : Nat) (m : Image) (bs : List UInt8) {m' : Image},
    copyFile fuel m i bs = .ok m' → m.freeblock ≤ m'.freeblock := by
  intro fuel
  induction fuel with
  | zero =>
    intro m bs m' hr
    cases hr
    exact Nat.le_refl _
  | succ fuel ih =>
    intro m bs m' hr
    unfold copyFile at hr
    split at hr
    · cases hr
      exact Nat.le_refl _
    · obtain ⟨m1, ha, hr⟩ := Lib.except_bind_ok hr
      exact (iappend_mono ha).trans (ih m1 _ hr)

theorem range_map_getD (bs : List UInt8) (n : Nat) :
    (List.range (min n bs.length)).map (fun x => bs.getD x 0) = bs.take n := by
  refine List.ext_getElem (by simp) (fun x h1 h2 => ?_)
  have hx : x < bs.length := by
    simp only [List.length_map, List.length_range] at h1
    omega
  simp [List.getD_eq_getElem?_getD, hx]

/-- A host file is appended whole. -/
theorem copyFile_grew : ∀ (fuel : Nat) (m : Image) (bs : List UInt8) (m' : Image), m.Whole →
    (m.disk.dinode i).isFile → bs.length ≤ fuel → m'.freeblock < 2 ^ 32 →
    copyFile fuel m i bs = .ok m' → m.Grew i bs m' := by
  intro fuel
  induction fuel with
  | zero =>
    intro m bs m' h _ hlen _ hr
    have hnil : bs = [] := List.length_eq_zero_iff.mp (by omega)
    subst hnil
    cases hr
    exact Grew.nil h i
  | succ fuel ih =>
    intro m bs m' h hi hlen hlt hr
    unfold copyFile at hr
    split at hr
    · rename_i hnil
      subst hnil
      cases hr
      exact Grew.nil h i
    · rename_i hne
      have hpos : 0 < bs.length := List.length_pos_iff.mpr hne
      have hB : BSIZE = 512 := rfl
      obtain ⟨m1, ha, hr⟩ := Lib.except_bind_ok hr
      have hmono := copyFile_mono fuel m1 _ hr
      have h1 := h.grew hi (by omega) ha
      rw [range_map_getD] at h1
      have h2 := ih m1 (bs.drop BSIZE) m' h1.whole ((isFile_congr (h1.type i)).mpr hi)
        (by rw [List.length_drop]; omega) hlt hr
      have h12 := h1.trans h2
      rw [List.take_append_drop] at h12
      exact h12

/-! ## What succeeds -/

theorem iappendLoop_off : ∀ (fuel : Nat) (m : Image) (din : Dinode) (off : Nat) (p : Nat → UInt8)
    (n : Nat) {y : Image × Dinode × Nat}, n ≤ fuel → iappendLoop fuel m din off p n = .ok y →
    y.2.2 = off + n ∧ y.1.disk.dinode = m.disk.dinode := by
  intro fuel
  induction fuel with
  | zero =>
    intro m din off p n y hn hr
    cases hr
    refine ⟨?_, rfl⟩
    show off = off + n
    omega
  | succ fuel ih =>
    intro m din off p n y hn hr
    have hB : BSIZE = 512 := rfl
    unfold iappendLoop at hr
    split at hr
    · cases hr
      refine ⟨?_, rfl⟩
      show off = off + n
      omega
    · obtain ⟨⟨m1, din1, x⟩, hb, hr⟩ := Lib.except_bind_ok hr
      have hpos : 0 < (off / BSIZE + 1) * BSIZE - off := by
        rw [hB]
        omega
      obtain ⟨h1, h2⟩ := ih _ _ _ _ _ (by omega) hr
      have hdin := iappendBlock_dinode hb
      exact ⟨by omega, h2.trans hdin⟩

theorem iappend_size {p : Nat → UInt8} {n : Nat} (hr : m.iappend i p n = .ok m') :
    (m'.disk.dinode i).size = (m.disk.dinode i).size + n ∧
      (∀ j, j ≠ i → m'.disk.dinode j = m.disk.dinode j) := by
  unfold iappend at hr
  obtain ⟨y, hl, hr⟩ := Lib.except_bind_ok hr
  obtain ⟨h1, h2⟩ := iappendLoop_off n m _ _ p n (Nat.le_refl _) hl
  cases hr
  refine ⟨?_, fun j hj => ?_⟩
  · unfold winode Disk.setDinode
    dsimp only
    rw [Function.update_self]
    exact h1
  · unfold winode Disk.setDinode
    dsimp only
    rw [Function.update_of_ne hj, h2]

theorem iappendLoop_freeinode : ∀ (fuel : Nat) (m : Image) (din : Dinode) (off : Nat)
    (p : Nat → UInt8) (n : Nat) {y : Image × Dinode × Nat},
    iappendLoop fuel m din off p n = .ok y → y.1.freeinode = m.freeinode := by
  intro fuel
  induction fuel with
  | zero =>
    intro m din off p n y hr
    cases hr
    rfl
  | succ fuel ih =>
    intro m din off p n y hr
    unfold iappendLoop at hr
    split at hr
    · cases hr
      rfl
    · obtain ⟨⟨m1, din1, x⟩, hb, hr⟩ := Lib.except_bind_ok hr
      have hrest := ih _ _ _ _ _ hr
      have hfi := iappendBlock_freeinode hb
      exact hrest.trans hfi

theorem iappend_freeinode {p : Nat → UInt8} {n : Nat} (hr : m.iappend i p n = .ok m') :
    m'.freeinode = m.freeinode := by
  unfold iappend at hr
  obtain ⟨y, hl, hr⟩ := Lib.except_bind_ok hr
  have h := iappendLoop_freeinode _ _ _ _ _ _ hl
  cases hr
  exact h

theorem iappendLoop_kept : ∀ (fuel : Nat) (m : Image) (din : Dinode) (off : Nat) (p : Nat → UInt8)
    (n : Nat) {y : Image × Dinode × Nat}, iappendLoop fuel m din off p n = .ok y →
    y.2.1.type = din.type ∧ y.2.1.nlink = din.nlink := by
  intro fuel
  induction fuel with
  | zero =>
    intro m din off p n y hr
    cases hr
    exact ⟨rfl, rfl⟩
  | succ fuel ih =>
    intro m din off p n y hr
    unfold iappendLoop at hr
    split at hr
    · cases hr
      exact ⟨rfl, rfl⟩
    · obtain ⟨⟨m1, din1, x⟩, hb, hr⟩ := Lib.except_bind_ok hr
      obtain ⟨htype, hnlink⟩ := ih _ _ _ _ _ hr
      have ha := iappendBlock_attrs hb
      exact ⟨htype.trans ha.1, hnlink.trans ha.2.2.2.1⟩

/-- No type and no count of names changes. -/
theorem iappend_kept {p : Nat → UInt8} {n : Nat} (hr : m.iappend i p n = .ok m') (j : Nat) :
    (m'.disk.dinode j).type = (m.disk.dinode j).type ∧
      (m'.disk.dinode j).nlink = (m.disk.dinode j).nlink := by
  by_cases hj : j = i
  · subst hj
    unfold iappend at hr
    obtain ⟨y, hl, hr⟩ := Lib.except_bind_ok hr
    have h := iappendLoop_kept _ _ _ _ _ _ hl
    cases hr
    unfold winode Disk.setDinode
    dsimp only
    rw [Function.update_self]
    exact h
  · rw [(iappend_size hr).2 j hj]
    exact ⟨rfl, rfl⟩

theorem copyFile_freeinode : ∀ (fuel : Nat) (m : Image) (bs : List UInt8) {m' : Image},
    copyFile fuel m i bs = .ok m' → m'.freeinode = m.freeinode := by
  intro fuel
  induction fuel with
  | zero =>
    intro m bs m' hr
    cases hr
    rfl
  | succ fuel ih =>
    intro m bs m' hr
    unfold copyFile at hr
    split at hr
    · cases hr
      rfl
    · obtain ⟨m1, ha, hr⟩ := Lib.except_bind_ok hr
      exact (ih m1 _ hr).trans (iappend_freeinode ha)

theorem iappend_ok (m : Image) (i : Nat) (p : Nat → UInt8) {n : Nat}
    (h : (m.disk.dinode i).size + n ≤ 138 * BSIZE) : ∃ m', m.iappend i p n = .ok m' := by
  obtain ⟨y, hy⟩ := iappendLoop_ok n m (m.disk.dinode i) _ p n h
  unfold iappend
  simp only [hy, bind, Except.bind]
  exact ⟨_, rfl⟩

theorem copyFile_ok : ∀ (fuel : Nat) (m : Image) (bs : List UInt8),
    (m.disk.dinode i).size + bs.length ≤ 138 * BSIZE → ∃ m', copyFile fuel m i bs = .ok m' ∧
      ∀ j, j ≠ i → m'.disk.dinode j = m.disk.dinode j := by
  intro fuel
  induction fuel with
  | zero =>
    intro m bs _
    exact ⟨m, rfl, fun _ _ => rfl⟩
  | succ fuel ih =>
    intro m bs hle
    unfold copyFile
    split
    · exact ⟨m, rfl, fun _ _ => rfl⟩
    · obtain ⟨m1, h1⟩ := m.iappend_ok i (fun x => bs.getD x 0) (n := min BSIZE bs.length) (by omega)
      obtain ⟨h2, h3⟩ := iappend_size h1
      obtain ⟨m2, h4, h5⟩ := ih m1 (bs.drop BSIZE) (by rw [List.length_drop]; omega)
      simp only [h1, bind, Except.bind]
      exact ⟨m2, h4, fun j hj => (h5 j hj).trans (h3 j hj)⟩

end Append

/-- The image after the input files `done`: the root directory has an entry for every file
and two more, and file number `k` is inode `k + 2`. -/
structure Built (m : Image) (done : List (List UInt8 × List UInt8)) : Prop where
  whole : m.Whole
  freeinode : m.freeinode = done.length + 2
  few : done.length ≤ 206
  root : (m.disk.dinode 1).type = .T_DIR
  rootSize : (m.disk.dinode 1).size = 16 * (done.length + 2)
  files : ∀ k (h : k < done.length), (m.disk.dinode (k + 2)).type = .T_FILE ∧
    m.bytes (k + 2) = done[k].2 ∧ done[k].2.length ≤ 138 * BSIZE

section Main

variable {m m' : Image} {done files : List (List UInt8 × List UInt8)}
  {file : List UInt8 × List UInt8}

theorem addFile_mono (hr : m.addFile file = .ok m') : m.freeblock ≤ m'.freeblock := by
  unfold addFile at hr
  obtain ⟨⟨m1, inum⟩, ha, hr⟩ := Lib.except_bind_ok hr
  obtain ⟨m2, hb, hr⟩ := Lib.except_bind_ok hr
  have h1 : m1.freeblock = m.freeblock := by
    unfold Image.ialloc at ha
    split at ha
    · cases ha
    · cases ha
      rfl
  have h2 := iappend_mono hb
  have h3 := copyFile_mono _ _ _ hr
  omega

/-- One input file. -/
theorem Built.addFile (h : m.Built done) (hlt : m'.freeblock < 2 ^ 32)
    (hr : m.addFile file = .ok m') : m'.Built (done ++ [file]) := by
  unfold Image.addFile at hr
  obtain ⟨⟨m1, inum⟩, ha, hr⟩ := Lib.except_bind_ok hr
  obtain ⟨m2, hb, hr⟩ := Lib.except_bind_ok hr
  have hfi := h.freeinode
  have hmono := copyFile_mono _ _ _ hr
  obtain ⟨hw1, hinum, hfew, hfi1, -, hnew, hother1, hbytes1⟩ := h.whole.ialloc ha
  have hne1 : 1 ≠ inum := by omega
  have hroot1 : (m1.disk.dinode 1).type = .T_DIR := by rw [hother1 1 hne1, h.root]
  have hg2 := hw1.grew (i := 1) (.inr hroot1) (by omega) hb
  have hinode2 : (m2.disk.dinode inum).type = .T_FILE := by rw [hg2.type, hnew]
  have hg3 := copyFile_grew file.2.length m2 file.2 m' hg2.whole (.inl hinode2) (Nat.le_refl _) hlt hr
  have hempty : m2.bytes inum = [] := by
    rw [hg2.others inum (Ne.symm hne1) (.inl (by rw [hnew]))]
    unfold bytes contents
    rw [hnew]
    rfl
  refine ⟨hg3.whole, ?_, ?_, ?_, ?_, fun k hk => ?_⟩
  · rw [hg3.freeinode, hg2.freeinode, hfi1, hfi, List.length_append]
    rfl
  · rw [List.length_append, List.length_singleton]
    omega
  · rw [hg3.type, hg2.type, hroot1]
  · rw [hg3.other 1 hne1, hg2.size, hother1 1 hne1, h.rootSize]
    simp only [List.length_append, List.length_map, List.length_range, List.length_singleton]
    omega
  · rw [List.length_append, List.length_singleton] at hk
    by_cases hlast : k < done.length
    · have hki : k + 2 ≠ inum := by omega
      have hfile : (m1.disk.dinode (k + 2)).type = .T_FILE := by
        rw [hother1 _ hki]
        exact (h.files k hlast).1
      rw [List.getElem_append_left hlast, hg3.type, hg2.type, hfile,
        hg3.others _ hki (.inl (by rw [hg2.type, hfile])), hg2.others _ (by omega) (.inl hfile),
        hbytes1 _ hki]
      exact ⟨rfl, (h.files k hlast).2⟩
    · have hki : k + 2 = inum := by omega
      have hk0 : k = done.length := by omega
      subst hk0
      rw [hki, hg3.type, hinode2, hg3.bytes, hempty]
      refine ⟨rfl, by simp, ?_⟩
      have hsize : (m2.disk.dinode inum).size = 0 := by
        rw [hg2.other inum (Ne.symm hne1), hnew]
      simp only [List.getElem_append_right (Nat.le_refl _), Nat.sub_self, List.getElem_singleton]
      by_cases hnil : file.2 = []
      · rw [hnil]
        exact Nat.zero_le _
      · have := hg3.range hnil
        omega

theorem foldlM_mono (files : List (List UInt8 × List UInt8)) (m : Image) {m' : Image}
    (hr : files.foldlM Image.addFile m = .ok m') : m.freeblock ≤ m'.freeblock :=
  Lib.foldlM_inv (P := fun m' => m.freeblock ≤ m'.freeblock)
    (fun _ _ _ hle hr => hle.trans (addFile_mono hr)) files m m' (Nat.le_refl _) hr

theorem Built.foldlM : ∀ (files done : List (List UInt8 × List UInt8)) (m m' : Image),
    m.Built done → m'.freeblock < 2 ^ 32 → files.foldlM Image.addFile m = .ok m' →
    m'.Built (done ++ files) := by
  intro files
  induction files with
  | nil =>
    intro done m m' h _ hr
    cases hr
    rw [List.append_nil]
    exact h
  | cons file files ih =>
    intro done m m' h hlt hr
    rw [List.foldlM_cons] at hr
    obtain ⟨m1, ha, hr⟩ := Lib.except_bind_ok hr
    have hmono := foldlM_mono files m1 hr
    have h1 := ih (done ++ [file]) m1 m' (h.addFile (by omega) ha) hlt hr
    rw [List.append_assoc] at h1
    exact h1

/-- Small files, and few of them, are accepted. -/
theorem foldlM_ok : ∀ (files : List (List UInt8 × List UInt8)) (m : Image),
    m.freeinode + files.length ≤ 208 → 2 ≤ m.freeinode →
    (m.disk.dinode 1).size = 16 * m.freeinode →
    (∀ file ∈ files, file.2.length ≤ 138 * BSIZE) → ∃ m', files.foldlM Image.addFile m = .ok m' := by
  intro files
  induction files with
  | nil =>
    intro m _ _ _ _
    exact ⟨m, rfl⟩
  | cons file files ih =>
    intro m hfew hfi hsize hsmall
    rw [List.length_cons] at hfew
    have hB : BSIZE = 512 := rfl
    have hnot : ¬ mkfsSuper.bmapstart ≤ m.freeinode / IPB + mkfsSuper.inodestart := by
      show ¬ 80 ≤ m.freeinode / 8 + 54
      omega
    have ha : m.ialloc .T_FILE = .ok ({ m with freeinode := m.freeinode + 1 }.winode m.freeinode
        { type := .T_FILE, nlink := 1 }, m.freeinode) := by
      unfold Image.ialloc
      rw [if_neg hnot]
      rfl
    generalize hm1 : ({ m with freeinode := m.freeinode + 1 } : Image).winode m.freeinode
      { type := .T_FILE, nlink := 1 } = m1 at ha
    have hroot1 : m1.disk.dinode 1 = m.disk.dinode 1 := by
      rw [← hm1]
      exact Function.update_of_ne (by omega) _ _
    have hnew1 : m1.disk.dinode m.freeinode = { type := .T_FILE, nlink := 1 } := by
      rw [← hm1]
      exact Function.update_self ..
    obtain ⟨m2, hb⟩ := m1.iappend_ok ROOTINO (dirent m.freeinode file.1) (n := 16) (by
      rw [show m1.disk.dinode ROOTINO = m.disk.dinode 1 from hroot1, hsize, hB]
      omega)
    obtain ⟨hsize2, hother2⟩ := iappend_size hb
    have hsmall1 := hsmall file (by simp)
    obtain ⟨m3, hc, hother3⟩ := copyFile_ok (i := m.freeinode) file.2.length m2 file.2 (by
      rw [hother2 m.freeinode (by show m.freeinode ≠ 1; omega), hnew1]
      simpa using hsmall1)
    have hadd : m.addFile file = .ok m3 := by
      unfold Image.addFile
      simp only [ha, hb, bind, Except.bind]
      exact hc
    rw [List.foldlM_cons]
    simp only [hadd, bind, Except.bind]
    have hfi3 : m3.freeinode = m.freeinode + 1 := by
      rw [copyFile_freeinode _ _ _ hc, iappend_freeinode hb, ← hm1]
      rfl
    refine ih m3 (by omega) (by omega) ?_ (fun x hx => hsmall x (by simp [hx]))
    rw [hother3 1 (by omega), hfi3]
    have h16 : (m2.disk.dinode 1).size = (m1.disk.dinode 1).size + 16 := hsize2
    rw [h16, hroot1, hsize]
    omega

end Main

end Image

/-! ## The whole run -/

/-- The kernel reads the file `bs` at inode `i`: `ilock` finds its type and size, and every
`readi` in range returns its bytes and changes nothing. -/
def Reads (d : Disk) (i : Nat) (bs : List UInt8) : Prop :=
  (d.dinode i).type = .T_FILE ∧ (d.dinode i).size = bs.length ∧
    ∀ off n : UInt32, off.toNat ≤ bs.length → off.toNat + n.toNat < 2 ^ 32 →
      readiFile mkfsSuper { toDinode := d.dinode i, inum := i } off n d =
        .ok ((min n.toNat (bs.length - off.toNat) : Nat), { toDinode := d.dinode i, inum := i },
          (bs.drop off.toNat).take n.toNat) d

/-- `mkfs` returns an image that the kernel agrees with: it has every input file, and every
block below the size of a file or directory is mapped. -/
def Agrees (files : List (List UInt8 × List UInt8)) : Prop :=
  ∃ img, mkfs files = .ok img ∧
    (∀ k (h : k < files.length), Reads img.disk (k + 2) files[k].2) ∧
    ∀ i, (img.disk.dinode i).isFile → NoHoles img.disk img.disk.dinode i

/-- The image is within what `iappend` and the root directory can hold. -/
def Fits (files : List (List UInt8 × List UInt8)) : Prop :=
  files.length ≤ 206 ∧ (files.length + 2) % 32 ≠ 0 ∧
    ∀ file ∈ files, file.2.length ≤ 138 * BSIZE

instance Fits.decidable (files : List (List UInt8 × List UInt8)) : Decidable (Fits files) :=
  inferInstanceAs (Decidable (_ ∧ _ ∧ _))

section Main

variable {files : List (List UInt8 × List UInt8)} {img : Image}

theorem zeroImage_whole : zeroImage.Whole := by
  have hnot : ∀ j, ¬ (zeroImage.disk.dinode j).isFile := by
    rintro j (h | h)
    · cases h
    · cases h
  refine ⟨⟨⟨fun b hb => ?_, fun k p hk _ => absurd hk.1 (hnot k.1),
    fun k p k' p' hk _ _ _ => absurd hk.1 (hnot k.1)⟩, fun j hj => absurd hj (hnot j)⟩,
    fun _ _ => rfl, fun j _ hj => absurd hj (hnot j), fun _ _ => rfl⟩
  have hb : b < nmeta := hb
  exact decide_eq_true hb

/-- The empty root directory with its entries `.` and `..`. -/
theorem root_built {m1 m2 m3 : Image} {inum : Nat} (h1 : zeroImage.ialloc .T_DIR = .ok (m1, inum))
    (h2 : m1.iappend inum (Image.dirent inum [46]) 16 = .ok m2)
    (h3 : m2.iappend inum (Image.dirent inum [46, 46]) 16 = .ok m3) (hlt : m3.freeblock < 2 ^ 32) :
    inum = 1 ∧ m3.Built [] := by
  obtain ⟨hw1, hinum, -, hfi1, -, hnew, -, -⟩ := zeroImage_whole.ialloc h1
  have hinum : inum = 1 := hinum
  subst hinum
  have hmono := Image.iappend_mono h3
  have htype1 : (m1.disk.dinode 1).type = .T_DIR := by rw [hnew]
  have hg2 := hw1.grew (.inr htype1) (by omega) h2
  have htype2 : (m2.disk.dinode 1).type = .T_DIR := by rw [hg2.type, htype1]
  have hg3 := hg2.whole.grew (.inr htype2) hlt h3
  refine ⟨rfl, hg3.whole, ?_, by simp, ?_, ?_, fun k hk => absurd hk (Nat.not_lt_zero _)⟩
  · rw [hg3.freeinode, hg2.freeinode, hfi1]
    rfl
  · rw [hg3.type, htype2]
  · rw [hg3.size, hg2.size, hnew]
    simp

/-- What a run of `mkfs` is made of. -/
theorem mkfs_ok (h : mkfs files = .ok img) : ∃ m : Image, m.Built files ∧ m.freeblock < 4096 ∧
    img.disk.block = m.disk.block ∧ img.disk.bitmap = m.marked.bitmap ∧
    img.disk.dinode = Function.update m.disk.dinode 1
      { m.disk.dinode 1 with size := ((m.disk.dinode 1).size / BSIZE + 1) * BSIZE } := by
  unfold mkfs at h
  obtain ⟨⟨m1, inum⟩, h1, h⟩ := Lib.except_bind_ok h
  obtain ⟨m2, h2, h⟩ := Lib.except_bind_ok h
  obtain ⟨m3, h3, h⟩ := Lib.except_bind_ok h
  obtain ⟨m4, h4, h⟩ := Lib.except_bind_ok h
  have hmono := Image.foldlM_mono files m3 h4
  unfold Image.balloc at h
  dsimp only at h
  split at h
  · rename_i hused
    have hused : m4.freeblock < 4096 := hused
    obtain ⟨rfl, hroot⟩ := root_built h1 h2 h3 (by omega)
    have hb := hroot.foldlM files [] m3 m4 (by omega) h4
    cases h
    exact ⟨m4, hb, hused, rfl, rfl, rfl⟩
  · cases h

/-- The image of files that fit. -/
theorem Fits.mkfs (h : Fits files) : mkfs files = .error .assert ∨ ∃ img, mkfs files = .ok img := by
  obtain ⟨hfew, -, hsmall⟩ := h
  have hB : BSIZE = 512 := rfl
  have h1 : zeroImage.ialloc .T_DIR =
      .ok ({ zeroImage with freeinode := 2 }.winode 1 { type := .T_DIR, nlink := 1 }, 1) := rfl
  generalize hm1 : ({ zeroImage with freeinode := 2 } : Image).winode 1
    { type := .T_DIR, nlink := 1 } = m1 at h1
  have hs1 : (m1.disk.dinode 1).size = 0 := by
    rw [← hm1]
    rfl
  obtain ⟨m2, h2⟩ := m1.iappend_ok 1 (Image.dirent 1 [46]) (n := 16) (by omega)
  obtain ⟨hs2, -⟩ := Image.iappend_size h2
  obtain ⟨m3, h3⟩ := m2.iappend_ok 1 (Image.dirent 1 [46, 46]) (n := 16) (by omega)
  obtain ⟨hs3, -⟩ := Image.iappend_size h3
  have hfi : m3.freeinode = 2 := by
    rw [Image.iappend_freeinode h3, Image.iappend_freeinode h2, ← hm1]
    rfl
  obtain ⟨m4, h4⟩ := Image.foldlM_ok files m3 (by omega) (by omega) (by omega) hsmall
  unfold File.mkfs
  simp only [h1, h2, h3, h4, bind, Except.bind]
  unfold Image.balloc
  split
  · exact .inr ⟨_, rfl⟩
  · exact .inl rfl

/-- Only the size of the root directory is another than in the image before the last steps. -/
theorem image_attrs {m : Image} (hdin : img.disk.dinode = Function.update m.disk.dinode 1
      { m.disk.dinode 1 with size := ((m.disk.dinode 1).size / BSIZE + 1) * BSIZE }) (j : Nat) :
    (img.disk.dinode j).root = (m.disk.dinode j).root ∧
      (img.disk.dinode j).type = (m.disk.dinode j).type ∧
      (img.disk.dinode j).nlink = (m.disk.dinode j).nlink := by
  rw [hdin]
  by_cases hj : j = 1
  · rw [hj, Function.update_self]
    exact ⟨rfl, rfl, rfl⟩
  · rw [Function.update_of_ne hj]
    exact ⟨rfl, rfl, rfl⟩

theorem image_blockOf {m : Image} (hblock : img.disk.block = m.disk.block)
    (hdin : img.disk.dinode = Function.update m.disk.dinode 1
      { m.disk.dinode 1 with size := ((m.disk.dinode 1).size / BSIZE + 1) * BSIZE }) (j bn : Nat) :
    blockOf img.disk img.disk.dinode j bn = blockOf m.marked m.disk.dinode j bn := by
  unfold blockOf
  rw [show ptr img.disk img.disk.dinode = ptr m.marked img.disk.dinode from by
    unfold ptr
    rw [hblock]
    rfl]
  exact ptr_congr (fun j => (image_attrs hdin j).1) _ _

/-- The size of the root directory is rounded up past a block that is not there if its last
block is full. -/
theorem mkfs_full (hrun : mkfs files = .ok img) (hholes : NoHoles img.disk img.disk.dinode 1) :
    (files.length + 2) % 32 ≠ 0 := by
  intro hmod
  have hB : BSIZE = 512 := rfl
  obtain ⟨m, hb, -, hblock, -, hdin⟩ := mkfs_ok hrun
  have hsize := hb.rootSize
  obtain ⟨hbn, hne⟩ := hholes ((m.disk.dinode 1).size / BSIZE) (by
    rw [hdin, Function.update_self]
    show _ < ((m.disk.dinode 1).size / BSIZE + 1) * BSIZE
    rw [hB]
    omega)
  rw [image_blockOf hblock hdin] at hne
  exact hne (hb.whole.tail 1 ((m.disk.dinode 1).size / BSIZE) (.inr hb.root) hbn (by
    rw [hB]
    omega))

/-- Otherwise every block of the image is in its place. -/
theorem mkfs_sound (hrun : mkfs files = .ok img) (hmod : (files.length + 2) % 32 ≠ 0) :
    Sound mkfsSuper img.disk img.disk.dinode := by
  have hB : BSIZE = 512 := rfl
  obtain ⟨m, hb, -, hblock, hbit, hdin⟩ := mkfs_ok hrun
  have hup := image_attrs hdin
  refine ⟨hb.whole.sound.consistent.congr (fun j => (hup j).1) (fun j => (hup j).2.1) hbit hblock,
    fun i hi bn hbn => ?_⟩
  have hi' : (m.disk.dinode i).isFile := (isFile_congr (hup i).2.1).mp hi
  rw [image_blockOf hblock hdin]
  refine hb.whole.sound.noHoles i hi' bn ?_
  by_cases h1 : i = 1
  · subst h1
    have hsize := hb.rootSize
    rw [hdin, Function.update_self] at hbn
    have hbn : bn * BSIZE < ((m.disk.dinode 1).size / BSIZE + 1) * BSIZE := hbn
    rw [hB] at hbn ⊢
    omega
  · rw [hdin, Function.update_of_ne h1] at hbn
    exact hbn

/-- A file that is too long overruns `indirect[]`, too many files overrun the inode blocks, and
a full last block of the root directory is followed by a hole. -/
theorem Agrees.fits (h : Agrees files) : Fits files := by
  obtain ⟨img, hrun, -, hholes⟩ := h
  obtain ⟨m, hb, -, -, -, hdin⟩ := mkfs_ok hrun
  have hfile : (img.disk.dinode 1).isFile := .inr ((image_attrs hdin 1).2.1.trans hb.root)
  refine ⟨hb.few, mkfs_full hrun (hholes 1 hfile), fun file hfile => ?_⟩
  obtain ⟨k, hk, rfl⟩ := List.mem_iff_getElem.mp hfile
  exact (hb.files k hk).2.2

/-- For input files on which no assertion of `mkfs` fails: the kernel reads back exactly the
files, with every block mapped, if and only if no file is longer than the direct and
single-indirect blocks, the entries of the root directory do not fill its last block, and
the inode blocks suffice. -/
theorem mkfs_agrees (files : List (List UInt8 × List UInt8)) (hassert : mkfs files ≠ .error .assert) :
    Agrees files ↔ Fits files := by
  constructor
  · exact fun h => h.fits
  · intro hfits
    rcases hfits.mkfs with h | ⟨img, hrun⟩
    · exact absurd h hassert
    have hsound := mkfs_sound hrun hfits.2.1
    obtain ⟨m, hb, -, hblock, -, hdin⟩ := mkfs_ok hrun
    have hptr := image_blockOf hblock hdin
    have hsizes : ∀ j, j ≠ 1 → (img.disk.dinode j).size = (m.disk.dinode j).size := by
      intro j hj
      rw [hdin, Function.update_of_ne hj]
    refine ⟨img, hrun, fun k hk => ?_, hsound.noHoles⟩
    obtain ⟨htype, hbytes, -⟩ := hb.files k hk
    have htype' : (img.disk.dinode (k + 2)).type = .T_FILE := by rw [(image_attrs hdin _).2.1, htype]
    have hcontents : contents img.disk img.disk.dinode (k + 2) = files[k].2 := by
      rw [← hbytes]
      unfold Image.bytes contents
      rw [hsizes _ (by omega)]
      refine List.map_congr_left (fun o _ => ?_)
      unfold byteAt
      rw [hptr, hblock]
      rfl
    have hsize : (img.disk.dinode (k + 2)).size = files[k].2.length := by
      rw [← hcontents]
      simp [contents]
    refine ⟨htype', hsize, fun off n hoff hn => ?_⟩
    have hr := hsound.readiFile { toDinode := img.disk.dinode (k + 2), inum := k + 2 } rfl
      (.inl htype') off n
    rw [if_pos ⟨by rw [hsize]; exact hoff, hn⟩] at hr
    rw [hr]
    show EStateM.Result.ok (((min n.toNat ((img.disk.dinode (k + 2)).size - off.toNat) : Nat) : Int),
      _, _) _ = _
    rw [hsize]
    congr 3
    rw [← hcontents]
    unfold contents
    rw [← List.map_drop, ← List.map_take, hsize]
    refine List.ext_getElem (by simp) (fun x h1 h2 => ?_)
    simp

end Main

/-- One small file. -/
def smallFile : List (List UInt8 × List UInt8) := [([97], [1, 2, 3])]

theorem mkfs_agrees_smallFile : Agrees smallFile := by
  have hrun : (match mkfs smallFile with
      | .error _ => false
      | .ok _ => true) = true := by
    decide +kernel
  refine (mkfs_agrees smallFile (fun h => ?_)).mpr (by decide)
  rw [h] at hrun
  cases hrun

/-- Thirty empty files: `mkfs` returns, but the last block of the root directory is not there.
A file of 70657 bytes is too long. -/
theorem mkfs_leaves_hole :
    (∃ img, mkfs (List.replicate 30 ([97], [])) = .ok img) ∧
      ¬ Agrees (List.replicate 30 ([97], [])) ∧ ¬ Agrees [([97], List.replicate 70657 0)] := by
  have hrun : (match mkfs (List.replicate 30 ([97], [])) with
      | .error _ => false
      | .ok _ => true) = true := by
    decide +kernel
  refine ⟨?_, fun h => ?_, fun h => ?_⟩
  · cases hm : mkfs (List.replicate 30 ([97], [])) with
    | error e =>
      rw [hm] at hrun
      cases hrun
    | ok img => exact ⟨img, rfl⟩
  · exact h.fits.2.1 (by decide)
  · have hlen := h.fits.2.2 _ (List.mem_singleton_self _)
    simp only [List.length_replicate] at hlen
    have hB : 138 * BSIZE = 70656 := rfl
    omega

end Xv6.File
