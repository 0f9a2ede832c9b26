import Xv6.File.Chdir

/- `sys_symlink` with what it calls (`project3_filesystem/sysfile.c`, `fs.c`), and what is
   read of the path again.

   The path is copied over the thirteen block addresses of the inode, without its NUL
   and without a test of its length. `readi`, `writei` and `sys_chdir` read from there to
   the first NUL. So they find the path again exactly when the byte behind it lies in the
   52 bytes and is 0, which it is in a new inode (`link_target_iff`). Of a longer path the
   rest goes to the next entry of `icache`. That it does is a fact of the model
   (`Kernel.outside`), what becomes of that entry is not. -/
namespace Xv6.File

open Fs (Block BSIZE)

/-! ## The bytes of an inode's addresses -/

/-- The inode with `bs` in the 52 bytes of `addrs`, `D_addr` and `T_addr`. -/
def Dinode.setLinkBytes (di : Dinode) (bs : List UInt8) : Dinode :=
  { di with addrs := fun r => pathWords bs r, D_addr := pathWords bs 11, T_addr := pathWords bs 12 }

/-- `memmove(&ip->addrs, src, strlen(src))`. -/
def memmoveAddrs (ip : Ino) (src : List UInt8) : KM Unit :=
  modify fun k =>
    let di := (k.icache ip).di
    let k' := k.setEntry ip
      { k.icache ip with di := di.setLinkBytes (src.take 52 ++ (linkBytes di).drop src.length) }
    if src.length ≤ 52 then k' else { k' with outside := k.outside ++ [(ip, src.drop 52)] }

/-! ## fs.c -/

/-- `iupdate`. -/
def iupdateEntry (ip : Ino) : KM Unit := do
  let x := (← get).icache ip
  onDisk (iupdate { x.di with inum := x.inum })

/-- `ialloc`. -/
def ialloc (sb : Superblock) (type : FileType) : KM Ino := do
  let k ← get
  match (List.range sb.ninodes).find? (fun inum => 0 < inum ∧ (k.disk.dinode inum).type = .none) with
  | some inum => do
    modify fun k => { k with disk := k.disk.setDinode inum { type := type } }
    iget inum
  | none => panic "ialloc: no inodes"

/-- The loop of `dirlink` over the entries: the offset of the first empty one, or the size. -/
def emptyDirent (sb : Superblock) (dp : Ino) : Nat → Nat → KM Nat
  | 0, off => return off
  | fuel + 1, off => do
    if off < ((← get).icache dp).di.size then
      match ← readDirent sb dp off with
      | none => panic "dirlink read"
      | some de => if de.inum = 0 then return off else emptyDirent sb dp fuel (off + 16)
    else return off

/-- The bytes of a `struct dirent`, with `strncpy` of the name. -/
def direntBytes (inum : Nat) (name : List UInt8) (i : Nat) : UInt8 :=
  if i = 0 then UInt8.ofNat inum
  else if i = 1 then UInt8.ofNat (inum / 2 ^ 8)
  else (name.take DIRSIZ).getD (i - 2) 0

def dirlink (sb : Superblock) (dp : Ino) (name : List UInt8) (inum : Nat) : KM Int := do
  match ← dirlookup sb dp name with
  | some (ip, _) => do
    iput ip
    return -1
  | none => do
    let off ← emptyDirent sb dp (((← get).icache dp).di.size / 16 + 1) 0
    let n ← writeFile sb (direntBytes inum name) (UInt32.ofNat off) 16 dp
    if n ≠ 16 then panic "dirlink"
    return 0

/-! ## sysfile.c -/

/-- The part of `create` for a name that is not there. -/
def createNew (sb : Superblock) (dp : Ino) (name : List UInt8) (type : FileType)
    (major minor : Int16) : KM Ino := do
  let ip ← ialloc sb type
  ilock ip
  let di := ((← get).icache ip).di
  setDi ip { di with major := major, minor := minor, nlink := 1 }
  iupdateEntry ip
  let inum := ((← get).icache ip).inum
  if type = .T_DIR then
    let dpi := ((← get).icache dp)
    setDi dp { dpi.di with nlink := dpi.di.nlink + 1 }
    iupdateEntry dp
    if (← dirlink sb ip [46] inum) < 0 then panic "create dots"
    if (← dirlink sb ip [46, 46] dpi.inum) < 0 then panic "create dots"
  if (← dirlink sb dp name inum) < 0 then panic "create: dirlink"
  iunlockput dp
  return ip

def create (sb : Superblock) (path : List UInt8) (type : FileType) (major minor : Int16) :
    KM (Option Ino) := do
  match ← nameiparent sb path with
  | none => return none
  | some (dp, name) => do
    ilock dp
    match ← dirlookup sb dp name with
    | some (ip, _) => do
      iunlockput dp
      ilock ip
      if type = .T_SYM then return some ip
      if type = .T_FILE ∧ (← get).type ip = .T_FILE then return some ip
      iunlockput ip
      return none
    | none => return some (← createNew sb dp name type major minor)

/-- What `sys_symlink` writes to the locked inode `ip`. -/
def writeLink (ip : Ino) (old : List UInt8) : KM Unit := do
  setDi ip { ((← get).icache ip).di with type := .T_SYM }
  memmoveAddrs ip old
  iupdateEntry ip

/-- `sys_symlink`, for the paths that `argstr` has found. -/
def sysSymlink (sb : Superblock) (old new : List UInt8) : KM Int := do
  match ← namei sb old with
  | none => return -1
  | some _ =>
    match ← namei sb new with
    | some _ => return -1
    | none =>
      match ← create sb new .T_SYM 0 0 with
      | none => return -1
      | some ip => do
        writeLink ip old
        iunlockput ip
        return 0

/-! ## Reading the path again -/

/-- The path that is read from the inode later on: while the entry stays in the cache, and
when it has been read from the disk again, whatever lies around it then. -/
def Extracts (k : Kernel) (ip : Ino) (path : List UInt8) : Prop :=
  (∀ m : Kernel, (m.icache ip).di = (k.icache ip).di → m.linkPath ip = path) ∧
  ∀ (m m' : Kernel) (i : Ino), (m.icache i).inum = (k.icache ip).inum →
    m.disk.dinode (k.icache ip).inum = k.disk.dinode (k.icache ip).inum →
    (m.icache i).valid = false → ilock i m = .ok () m' → m'.linkPath i = path

section Bytes

theorem wordBytes_pathWords (bs : List UInt8) (r : Nat) : wordBytes (pathWords bs r) =
    [bs.getD (4 * r) 0, bs.getD (4 * r + 1) 0, bs.getD (4 * r + 2) 0, bs.getD (4 * r + 3) 0] := by
  unfold pathWords
  generalize bs.getD (4 * r) 0 = b₀, bs.getD (4 * r + 1) 0 = b₁, bs.getD (4 * r + 2) 0 = b₂,
    bs.getD (4 * r + 3) 0 = b₃
  have h₀ := b₀.toNat_lt
  have h₁ := b₁.toNat_lt
  have h₂ := b₂.toNat_lt
  have h₃ := b₃.toNat_lt
  have hbyte : ∀ (b : UInt8) (n : Nat), n % 256 = b.toNat → UInt8.ofNat n = b := by
    intro b n hn
    apply UInt8.toNat_inj.mp
    rw [UInt8.toNat_ofNat']
    exact hn
  unfold wordBytes
  rw [hbyte b₀ _ (by omega), hbyte b₁ _ (by omega), hbyte b₂ _ (by omega), hbyte b₃ _ (by omega)]

/-- Four bytes for each of `n` words. -/
theorem flatMap_words (g : Nat → UInt8) : ∀ n : Nat,
    (List.range n).flatMap (fun r => [g (4 * r), g (4 * r + 1), g (4 * r + 2), g (4 * r + 3)]) =
      (List.range (4 * n)).map g := by
  intro n
  induction n with
  | zero => rfl
  | succ n ih =>
    rw [List.range_succ, List.flatMap_append, ih, show 4 * (n + 1) = 4 * n + 1 + 1 + 1 + 1 by omega]
    simp only [List.range_succ, List.map_append, List.map_cons, List.map_nil, List.flatMap_cons,
      List.flatMap_nil, List.append_nil, List.append_assoc, List.cons_append, List.nil_append]

theorem length_linkBytes (di : Dinode) : (linkBytes di).length = 52 := rfl

theorem root_setLinkBytes (di : Dinode) (bs : List UInt8) (r : Fin 13) :
    (di.setLinkBytes bs).root r = pathWords bs r := by
  have hcases : ∀ r : Fin 13, r.val < 11 ∨ r = 11 ∨ r = 12 := by decide
  unfold Dinode.root Dinode.setLinkBytes
  rcases hcases r with hr | rfl | rfl
  · rw [dif_pos hr]
  · rfl
  · rfl

/-- What is written to the words is read from them. -/
theorem linkBytes_setLinkBytes (di : Dinode) {bs : List UInt8} (h : bs.length = 52) :
    linkBytes (di.setLinkBytes bs) = bs := by
  have hwords : linkBytes (di.setLinkBytes bs) = (List.range 13).flatMap fun r =>
      [bs.getD (4 * r) 0, bs.getD (4 * r + 1) 0, bs.getD (4 * r + 2) 0, bs.getD (4 * r + 3) 0] := by
    unfold linkBytes
    rw [← List.map_coe_finRange_eq_range, List.flatMap_map]
    congr 1
    funext r
    rw [root_setLinkBytes, wordBytes_pathWords]
  rw [hwords, flatMap_words (fun i => bs.getD i 0)]
  apply List.ext_getElem
  · simp [h]
  · intro i h1 h2
    simp [List.getD_eq_getElem?_getD, List.getElem?_eq_getElem h2]

/-- What lies behind a path without a NUL belongs to it up to the first NUL. -/
theorem takeWhile_path {path rest : List UInt8} (h0 : 0 ∉ path) :
    (path ++ rest).takeWhile (· ≠ 0) = path ++ rest.takeWhile (· ≠ 0) := by
  apply List.takeWhile_append_of_pos
  intro b hb
  have : b ≠ 0 := fun he => h0 (he ▸ hb)
  simpa using this

end Bytes

/-! ## `sys_symlink` -/

section Symlink

variable {sb : Superblock} {k k' m m' : Kernel} {ip i : Ino} {old new : List UInt8} {di v : Dinode}

/-- The bytes of an inode with `old` written over them. -/
def overwritten (old bytes : List UInt8) : List UInt8 := old.take 52 ++ bytes.drop old.length

theorem length_overwritten {bytes : List UInt8} (h : bytes.length = 52) :
    (overwritten old bytes).length = 52 := by
  unfold overwritten
  rw [List.length_append, List.length_take, List.length_drop, h]
  omega

theorem wp_memmoveAddrs (ip : Ino) (old : List UInt8) : Lib.wp (memmoveAddrs ip old) (fun _ k' =>
    linkBytes (k'.icache ip).di = overwritten old (linkBytes (k.icache ip).di) ∧
    k'.outside = if old.length ≤ 52 then k.outside else k.outside ++ [(ip, old.drop 52)]) Any k := by
  have hlength : (overwritten old (linkBytes (k.icache ip).di)).length = 52 :=
    length_overwritten (length_linkBytes (k.icache ip).di)
  have hwritten := linkBytes_setLinkBytes (k.icache ip).di hlength
  unfold memmoveAddrs
  show linkBytes (Kernel.icache (if old.length ≤ 52 then _ else _) ip).di = _ ∧
    Kernel.outside (if old.length ≤ 52 then _ else _) = _
  by_cases hle : old.length ≤ 52
  · simp only [if_pos hle, setEntry_self]
    exact ⟨hwritten, rfl⟩
  · simp only [if_neg hle, setEntry_self]
    exact ⟨hwritten, trivial⟩

theorem wp_iupdateEntry (ip : Ino) : Lib.wp (iupdateEntry ip) (fun _ k' => k'.icache = k.icache ∧
    k'.outside = k.outside ∧ k'.disk.dinode (k.icache ip).inum = (k.icache ip).di) Any k := by
  unfold iupdateEntry
  refine Lib.wp_get ?_
  refine ⟨rfl, rfl, ?_⟩
  show Function.update k.disk.dinode (k.icache ip).inum (k.icache ip).di (k.icache ip).inum = _
  rw [Function.update_self]

/-- What is in memory and on the disk when `sys_symlink` has written the inode. -/
theorem wp_writeLink (ip : Ino) (old : List UInt8) : Lib.wp (writeLink ip old) (fun _ k' =>
    linkBytes (k'.icache ip).di = overwritten old (linkBytes (k.icache ip).di) ∧
    k'.disk.dinode (k'.icache ip).inum = (k'.icache ip).di ∧
    k'.outside = if old.length ≤ 52 then k.outside else k.outside ++ [(ip, old.drop 52)]) Any k := by
  unfold writeLink
  refine Lib.wp_get ?_
  refine Lib.wp_modify ?_
  refine (wp_memmoveAddrs ip old).bind (fun _ _ _ => trivial) (fun _ k₁ h1 => ?_)
  rw [setEntry_self] at h1
  refine (wp_iupdateEntry ip).mono (fun _ k₂ h2 => ?_) (fun _ _ _ => trivial)
  rw [h2.1, h2.2.1]
  exact ⟨h1.1, h2.2.2, h1.2⟩

/-- An inode that is read from the disk again. -/
theorem wp_ilock_loads (hv : (k.icache ip).valid = false) : Lib.wp (ilock ip) (fun _ k' =>
    (k'.icache ip).di = k.disk.dinode (k.icache ip).inum) Any k := by
  unfold ilock
  refine Lib.wp_get ?_
  by_cases hr : (k.icache ip).ref < 1
  · rw [if_pos hr]
    trivial
  · rw [if_neg hr]
    refine (wp_acquire ip).bind (fun _ _ _ => trivial) (fun _ k₁ h1 => ?_)
    obtain ⟨-, h1⟩ := h1
    have hv1 : (k₁.icache ip).valid = false := by
      rw [h1, setEntry_self]
      exact hv
    refine Lib.wp_get ?_
    simp only [if_pos hv1]
    refine Lib.wp_bind ?_
    show Lib.wp _ _ _ (k₁.setEntry ip _)
    split
    · trivial
    · apply Lib.wp_pure
      rw [setEntry_self]
      show k₁.disk.dinode (k₁.icache ip).inum = _
      rw [h1, setEntry_self]
      rfl

theorem linkPath_of_di (h : (m.icache i).di = v) :
    m.linkPath i = (linkBytes v ++ m.behindInode i).takeWhile (· ≠ 0) := by
  unfold Kernel.linkPath
  rw [h]

/-- The byte behind the path is a NUL: the path is all that is read. -/
theorem linkPath_written (h0 : 0 ∉ old) (hv : linkBytes v = overwritten old (linkBytes di))
    (hnul : (linkBytes di)[old.length]? = some 0) (h : (m.icache i).di = v) : m.linkPath i = old := by
  obtain ⟨hlt, hget⟩ := List.getElem?_eq_some_iff.mp hnul
  have hshort : old.length < 52 := hlt
  rw [linkPath_of_di h, hv, overwritten, List.take_of_length_le (by omega), List.append_assoc,
    takeWhile_path h0, List.drop_eq_getElem_cons hlt, hget, List.cons_append]
  simp

/-- Another byte is behind it: more is read, in a place where memory goes on with a 1. -/
theorem linkPath_longer (h0 : 0 ∉ old) (hv : linkBytes v = overwritten old (linkBytes di))
    (hle : old.length ≤ 52) (hnul : (linkBytes di)[old.length]? ≠ some 0) (h : (m.icache i).di = v)
    (hbehind : (m.behindInode i).head? = some 1) : m.linkPath i ≠ old := by
  rw [linkPath_of_di h, hv, overwritten, List.take_of_length_le hle, List.append_assoc,
    takeWhile_path h0]
  intro he
  -- so nothing is read behind the path
  have hnil := List.append_right_eq_self.mp he
  cases hget : (linkBytes di)[old.length]? with
  | none =>
    have hlen := List.getElem?_eq_none_iff.mp hget
    rw [List.drop_of_length_le hlen, List.nil_append] at hnil
    cases hb : m.behindInode i with
    | nil => rw [hb] at hbehind; cases hbehind
    | cons b bs =>
      rw [hb] at hbehind hnil
      cases hbehind
      simp at hnil
  | some c =>
    obtain ⟨hlt, hc⟩ := List.getElem?_eq_some_iff.mp hget
    have hne : c ≠ 0 := fun hz => hnul (hget.trans (by rw [hz]))
    rw [List.drop_eq_getElem_cons hlt, hc, List.cons_append] at hnil
    simp [hne] at hnil

/-- The path is read again, and nothing else is written, exactly when it ends in front of
a NUL of the inode. -/
theorem writeLink_iff (h0 : 0 ∉ old) (h : writeLink ip old k = .ok () k') :
    Extracts k' ip old ∧ k'.outside = k.outside ↔
      (linkBytes (k.icache ip).di)[old.length]? = some 0 := by
  obtain ⟨hbytes, hdisk, hout⟩ := (wp_writeLink ip old).ok h
  constructor
  · rintro ⟨⟨hmem, -⟩, houtside⟩
    -- a longer path is written behind the addresses
    have hle : old.length ≤ 52 := by
      by_contra hgt
      rw [hout, if_neg hgt] at houtside
      have := congrArg List.length houtside
      simp at this
    by_contra hnul
    -- a kernel with a used entry behind this one
    let m : Kernel := { k' with
      icache := fun j => if j = ip then k'.icache ip else { dev := 1 }, behind := [1] }
    have hdi : (m.icache ip).di = (k'.icache ip).di := by
      show (if ip = ip then k'.icache ip else { dev := 1 }).di = _
      rw [if_pos rfl]
    have hbehind : (m.behindInode ip).head? = some 1 := by
      unfold Kernel.behindInode
      split
      · next hlt =>
        have hne : (⟨ip.val + 1, hlt⟩ : Ino) ≠ ip := fun he => by
          have := congrArg Fin.val he
          simp at this
        show (wordBytes (if (⟨ip.val + 1, hlt⟩ : Ino) = ip then k'.icache ip else { dev := 1 }).dev).head? = _
        rw [if_neg hne]
        rfl
      · rfl
    exact linkPath_longer h0 hbytes hle hnul hdi hbehind (hmem m hdi)
  · intro hnul
    have hlt : old.length < 52 := (List.getElem?_eq_some_iff.mp hnul).1
    refine ⟨⟨fun m hm => linkPath_written h0 hbytes hnul hm, ?_⟩, ?_⟩
    -- read from the disk, where `iupdate` has put the same bytes
    · intro m m' i hinum hd hv hl
      apply linkPath_written h0 hbytes hnul
      rw [(wp_ilock_loads hv).ok hl, hinum, hd]
      exact hdisk
    · rw [hout, if_pos hlt.le]

/-! ### A new inode -/

/-- The entry is in use and keeps its fields. -/
def Stays (ip : Ino) (k k' : Kernel) : Prop :=
  0 < k.refs ip → (k'.icache ip).di = (k.icache ip).di ∧ 0 < k'.refs ip

theorem Stays.refl (ip : Ino) (k : Kernel) : Stays ip k k := fun h => ⟨rfl, h⟩

theorem Stays.trans {k'' : Kernel} (h : Stays ip k k') (h' : Stays ip k' k'') : Stays ip k k'' := by
  intro hr
  obtain ⟨hdi, hr'⟩ := h hr
  obtain ⟨hdi', hr''⟩ := h' hr'
  exact ⟨hdi'.trans hdi, hr''⟩

theorem Stays.of_icache (h : k'.icache ip = k.icache ip) : Stays ip k k' := by
  intro hr
  refine ⟨by rw [h], ?_⟩
  unfold Kernel.refs
  rw [h]
  exact hr

theorem stays_iget (inum : Nat) : Lib.wp (iget inum) (fun _ k' => Stays ip k k') Any k := by
  unfold Lib.wp iget
  cases hf : (List.finRange NINODE).find? (fun i => (k.icache i).ref > 0 ∧ (k.icache i).inum = inum) with
  | some j =>
    simp only
    intro hr
    by_cases hj : ip = j
    · subst hj
      -- one more reference to the same inode
      refine ⟨by rw [setEntry_self], ?_⟩
      rw [refs_setEntry, Function.update_self]
      have hpos : 0 < (k.icache ip).ref := hr
      show 0 < (k.icache ip).ref + 1
      omega
    · exact Stays.of_icache (setEntry_other hj _) hr
  | none =>
    simp only
    cases he : (List.finRange NINODE).find? (fun i => (k.icache i).ref = 0) with
    | some j =>
      simp only
      intro hr
      -- an entry with references is not recycled
      have hj : ip ≠ j := by
        intro hj
        have hz : (k.icache j).ref = 0 := by simpa using List.find?_some he
        have : 0 < (k.icache ip).ref := hr
        rw [hj, hz] at this
        exact absurd this (by decide)
      exact Stays.of_icache (setEntry_other hj _) hr
    | none => trivial

theorem stays_onInode {α : Type} {dp : Ino} (hne : ip ≠ dp) (f : Inode → FsM (α × Inode)) :
    Lib.wp (onInode dp f) (fun _ k' => Stays ip k k') Any k := by
  unfold onInode
  refine Lib.wp_get ?_
  refine (wp_onDisk _).bind (fun _ _ _ => trivial) (fun ay k₁ h1 => ?_)
  apply Stays.of_icache
  rw [← h1.1]
  exact setEntry_other hne _

theorem stays_readDirent {dp : Ino} (hne : ip ≠ dp) (off : Nat) :
    Lib.wp (readDirent sb dp off) (fun _ k' => Stays ip k k') Any k := by
  unfold readDirent
  refine (stays_onInode hne _).bind (fun _ _ _ => trivial) (fun r k₁ h1 => ?_)
  exact h1

theorem stays_dirlookupLoop {dp : Ino} (hne : ip ≠ dp) (name : List UInt8) (fuel : Nat) :
    ∀ (off : Nat) (k : Kernel), Lib.wp (dirlookupLoop sb dp name fuel off) (fun _ k' => Stays ip k k') Any k := by
  induction fuel with
  | zero => exact fun off k => Stays.refl ip k
  | succ fuel ih =>
    intro off k
    unfold dirlookupLoop
    refine Lib.wp_get ?_
    by_cases ho : off < (k.icache dp).di.size
    · rw [if_pos ho]
      refine (stays_readDirent hne off).bind (fun _ _ _ => trivial) (fun r k₁ h1 => ?_)
      cases r with
      | none => trivial
      | some de =>
        simp only
        split
        · exact (stays_iget de.inum).bind (fun _ _ _ => trivial) (fun j k₂ h2 => h1.trans h2)
        · exact (ih (off + 16) k₁).mono (fun _ k₂ h2 => h1.trans h2) (fun _ _ _ => trivial)
    · rw [if_neg ho]
      exact Stays.refl ip k

theorem stays_dirlookup {dp : Ino} (hne : ip ≠ dp) (name : List UInt8) :
    Lib.wp (dirlookup sb dp name) (fun _ k' => Stays ip k k') Any k := by
  unfold dirlookup
  refine Lib.wp_get ?_
  by_cases ht : (k.icache dp).di.type ≠ .T_DIR
  · simp only [if_pos ht]
    trivial
  · simp only [if_neg ht]
    exact stays_dirlookupLoop hne name _ 0 k

theorem stays_emptyDirent {dp : Ino} (hne : ip ≠ dp) (fuel : Nat) :
    ∀ (off : Nat) (k : Kernel), Lib.wp (emptyDirent sb dp fuel off) (fun _ k' => Stays ip k k') Any k := by
  induction fuel with
  | zero => exact fun off k => Stays.refl ip k
  | succ fuel ih =>
    intro off k
    unfold emptyDirent
    refine Lib.wp_get ?_
    by_cases ho : off < (k.icache dp).di.size
    · rw [if_pos ho]
      refine (stays_readDirent hne off).bind (fun _ _ _ => trivial) (fun r k₁ h1 => ?_)
      cases r with
      | none => trivial
      | some de =>
        simp only
        split
        · exact h1
        · exact (ih (off + 16) k₁).mono (fun _ k₂ h2 => h1.trans h2) (fun _ _ _ => trivial)
    · rw [if_neg ho]
      exact Stays.refl ip k

/-- `dirlink` of a name that is not there. -/
theorem stays_dirlink {dp : Ino} (hne : ip ≠ dp) (name : List UInt8) (inum : Nat) :
    Lib.wp (dirlink sb dp name inum) (fun r k' => 0 ≤ r → Stays ip k k') Any k := by
  unfold dirlink
  refine (stays_dirlookup hne name).bind (fun _ _ _ => trivial) (fun r k₁ h1 => ?_)
  cases r with
  | some r =>
    refine (wp_iput r.1).bind (fun _ _ _ => trivial) (fun _ k₂ _ => ?_)
    -- the name is there: `dirlink` returns -1
    exact fun hneg => absurd hneg (by decide)
  | none =>
    refine Lib.wp_get ?_
    -- only the directory is written to
    refine (stays_emptyDirent hne _ 0 k₁).bind (fun _ _ _ => trivial) (fun off k₂ h2 => ?_)
    refine (stays_onInode hne _).bind (fun _ _ _ => trivial) (fun n k₃ h3 => ?_)
    split
    · trivial
    · exact fun _ => (h1.trans h2).trans h3

theorem stays_iput {dp : Ino} (hne : ip ≠ dp) : Lib.wp (iput dp) (fun _ k' => Stays ip k k') Any k := by
  unfold iput
  refine (wp_acquire dp).bind (fun _ _ _ => trivial) (fun _ k₁ h1 => ?_)
  have h1' : k₁.icache ip = k.icache ip := by
    rw [h1.2]
    exact setEntry_other hne _
  refine Lib.wp_get ?_
  have hend : ∀ k₂ : Kernel, k₂.icache ip = k.icache ip →
      Lib.wp (do release dp; modify fun k => k.setEntry dp { k.icache dp with ref := (k.icache dp).ref - 1 } : KM Unit)
        (fun _ k' => Stays ip k k') Any k₂ := by
    intro k₂ h2
    apply Stays.of_icache
    refine (setEntry_other hne _).trans ?_
    refine (setEntry_other hne _).trans ?_
    exact h2
  by_cases hc : (k₁.icache dp).valid ∧ (k₁.icache dp).di.nlink = 0 ∧ (k₁.icache dp).ref = 1
  · simp only [if_pos hc]
    refine (wp_ifree dp).bind (fun _ _ _ => trivial) (fun _ k₂ h2 => ?_)
    exact hend k₂ ((h2.2.2.2 ip hne).trans h1')
  · simp only [if_neg hc]
    exact hend k₁ h1'

theorem stays_iunlockput {dp : Ino} (hne : ip ≠ dp) :
    Lib.wp (iunlockput dp) (fun _ k' => Stays ip k k') Any k := by
  unfold iunlockput iunlock
  refine Lib.wp_bind ?_
  refine Lib.wp_get ?_
  split
  · trivial
  · show Lib.wp (iput dp) _ _ _
    have h1 : Stays ip k (k.setEntry dp { k.icache dp with locked := false }) :=
      Stays.of_icache (setEntry_other hne _)
    exact (stays_iput hne).mono (fun _ k₂ h2 => h1.trans h2) (fun _ _ _ => trivial)

/-- No entry that is in use has been read from a free inode. -/
def Clean (k : Kernel) : Prop :=
  ∀ i, 0 < k.refs i → (k.icache i).valid = true → (k.disk.dinode (k.icache i).inum).type ≠ .none

/-- The inode that `ialloc` hands over has not been read yet, and is cleared on the disk. -/
theorem wp_ialloc (hclean : Clean k) (type : FileType) :
    Lib.wp (ialloc sb type) (fun ip k' => k'.locks = k.locks ∧ (k'.icache ip).valid = false ∧
      k'.disk.dinode (k'.icache ip).inum = { type := type }) Any k := by
  unfold ialloc
  refine Lib.wp_get ?_
  cases hf : (List.range sb.ninodes).find? (fun inum => 0 < inum ∧ (k.disk.dinode inum).type = .none) with
  | none => trivial
  | some inum =>
    have hfree : (k.disk.dinode inum).type = .none := by
      have := List.find?_some hf
      simp only [decide_eq_true_eq] at this
      exact this.2
    refine Lib.wp_modify ?_
    show Lib.wp (iget inum) _ _ { k with disk := k.disk.setDinode inum { type := type } }
    unfold Lib.wp iget
    simp only
    cases hused : (List.finRange NINODE).find?
        (fun i => (k.icache i).ref > 0 ∧ (k.icache i).inum = inum) with
    | some j =>
      have hj : (k.icache j).ref > 0 ∧ (k.icache j).inum = inum := by simpa using List.find?_some hused
      simp only
      refine ⟨?_, ?_, ?_⟩
      · rw [locks_setEntry]
        exact Function.update_eq_self j k.locks
      · rw [setEntry_self]
        show (k.icache j).valid = false
        -- an entry of this number that was read would be one of a free inode
        by_contra hv
        apply hclean j hj.1 (by simpa using hv)
        rw [hj.2]
        exact hfree
      · rw [setEntry_self]
        show (k.disk.setDinode inum { type := type }).dinode (k.icache j).inum = _
        rw [hj.2]
        simp [Disk.setDinode]
    | none =>
      simp only
      cases hempty : (List.finRange NINODE).find? (fun i => (k.icache i).ref = 0) with
      | some j =>
        simp only
        refine ⟨?_, ?_, ?_⟩
        · rw [locks_setEntry]
          exact Function.update_eq_self j k.locks
        · rw [setEntry_self]
        · rw [setEntry_self]
          show (k.disk.setDinode inum { type := type }).dinode inum = _
          simp [Disk.setDinode]
      | none => trivial

/-- A new link has nothing in its addresses. -/
theorem wp_createNew {dp : Ino} (hlock : k.locks dp = true) (hclean : Clean k) (name : List UInt8) :
    Lib.wp (createNew sb dp name .T_SYM 0 0)
      (fun ip k' => linkBytes (k'.icache ip).di = List.replicate 52 0) Any k := by
  unfold createNew
  refine (wp_ialloc hclean .T_SYM).bind (fun _ _ _ => trivial) (fun ip k₁ h1 => ?_)
  obtain ⟨hlocks, hvalid, hdi⟩ := h1
  refine wp_bind_run (fun _ k₂ hl => ?_)
  obtain ⟨hfree, hrefs, hmoved, -⟩ := (wp_ilock ip).ok hl
  have hzero : (k₂.icache ip).di = { type := .T_SYM } := ((wp_ilock_loads hvalid).ok hl).trans hdi
  -- the directory is locked, and the new inode was not
  have hne : ip ≠ dp := by
    intro he
    rw [he, hlocks, hlock] at hfree
    cases hfree
  refine Lib.wp_get ?_
  rw [hzero]
  refine Lib.wp_modify ?_
  refine (wp_iupdateEntry ip).bind (fun _ _ _ => trivial) (fun _ k₃ h3 => ?_)
  have hdi3 : (k₃.icache ip).di = { type := .T_SYM, nlink := 1 } := by
    rw [h3.1, setEntry_self]
  have hrefs3 : 0 < k₃.refs ip := by
    unfold Kernel.refs
    rw [h3.1, setEntry_self]
    have hk₂ : k₂.refs ip = k₁.refs ip := by rw [hmoved.refs]
    unfold Kernel.refs at hk₂ hrefs
    show 0 < (k₂.icache ip).ref
    omega
  refine Lib.wp_get ?_
  rw [if_neg (by decide)]
  refine (stays_dirlink hne name _).bind (fun _ _ _ => trivial) (fun r k₄ h4 => ?_)
  split
  · trivial
  · next hr =>
    have hr0 : 0 ≤ r := by omega
    refine (stays_iunlockput hne).bind (fun _ _ _ => trivial) (fun _ k₅ h5 => ?_)
    apply Lib.wp_pure
    obtain ⟨hdi5, -⟩ := ((h4 hr0).trans h5) hrefs3
    rw [hdi5, hdi3]
    decide

/-- The states of a `sys_symlink` that returns 0: `searched` when `create` has looked for
the name in the directory, `made` when it has returned the inode, and `written` when the
inode has been updated. -/
structure LinkRun (sb : Superblock) (old new : List UInt8) (k k' : Kernel) where
  target : Ino
  parent : Ino
  name : List UInt8
  found : Option (Ino × Nat)
  ip : Ino
  resolved : Kernel
  tested : Kernel
  walked : Kernel
  locked : Kernel
  searched : Kernel
  made : Kernel
  written : Kernel
  old_found : namei sb old k = .ok (some target) resolved
  new_missing : namei sb new resolved = .ok none tested
  parent_found : nameiparent sb new tested = .ok (some (parent, name)) walked
  parent_locked : ilock parent walked = .ok () locked
  lookup : dirlookup sb parent name locked = .ok found searched
  created : create sb new .T_SYM 0 0 tested = .ok (some ip) made
  wrote : writeLink ip old made = .ok () written
  given_back : iunlockput ip written = .ok () k'

/-- `sys_symlink`: the path it was given is what is read of the link later, and nothing but
the addresses of the inode is written, exactly when the byte of the addresses behind the
path was a NUL; in an inode that `create` has made, when the path is shorter than the
addresses. -/
theorem link_target_iff (h0 : 0 ∉ old) (h : sysSymlink sb old new k = .ok 0 k') :
    ∃ r : LinkRun sb old new k k',
      (Extracts r.written r.ip old ∧ r.written.outside = r.made.outside ↔
        (linkBytes (r.made.icache r.ip).di)[old.length]? = some 0) ∧
      (r.found = none → Clean r.searched →
        ((linkBytes (r.made.icache r.ip).di)[old.length]? = some 0 ↔ old.length < 52)) := by
  unfold sysSymlink at h
  obtain ⟨r, k₁, hold, h⟩ := Lib.bind_ok h
  cases r with
  | none => cases h
  | some o =>
    obtain ⟨r, k₂, hnew, h⟩ := Lib.bind_ok h
    cases r with
    | some j => cases h
    | none =>
      obtain ⟨r, kc, hcreate, h⟩ := Lib.bind_ok h
      cases r with
      | none => cases h
      | some ip =>
        obtain ⟨u, kw, hwrite, h⟩ := Lib.bind_ok h
        obtain ⟨u', k₅, hput, h⟩ := Lib.bind_ok h
        cases h
        have hrun := hcreate
        unfold create at hrun
        obtain ⟨r, k₃, hparent, hrun⟩ := Lib.bind_ok hrun
        cases r with
        | none => cases hrun
        | some x =>
          obtain ⟨dp, name⟩ := x
          obtain ⟨u'', k₄, hlock, hrun⟩ := Lib.bind_ok hrun
          obtain ⟨found, kd, hlookup, hrun⟩ := Lib.bind_ok hrun
          refine ⟨⟨o, dp, name, found, ip, k₁, k₂, k₃, k₄, kd, kc, kw, hold, hnew, hparent, hlock,
            hlookup, hcreate, hwrite, hput⟩, writeLink_iff h0 hwrite, fun hfound hclean => ?_⟩
          change found = none at hfound
          subst hfound
          obtain ⟨ip', k₆, hmake, hrun⟩ := Lib.bind_ok hrun
          cases hrun
          have hdp : kd.locks dp = true := by
            have hlocks := ((wp_dirlookup sb dp name).ok hlookup).locks
            rw [hlocks, ((wp_ilock dp).ok hlock).2.2.1.locks, Function.update_self]
          rw [(wp_createNew hdp hclean name).ok hmake]
          rw [List.getElem?_replicate]
          simp

end Symlink

/-- A path of slashes, which names the root directory. -/
def slashes (n : Nat) : List UInt8 := List.replicate n slash

/-- `symlink("/", "l")` with an empty root directory. -/
theorem link_target_iff_toRoot : ∃ k',
    sysSymlink smallSuper (slashes 1) [108] (idleKernel (smallDisk [])) = .ok 0 k' ∧
    ∃ r : LinkRun smallSuper (slashes 1) [108] (idleKernel (smallDisk [])) k',
      (Extracts r.written r.ip (slashes 1) ∧ r.written.outside = r.made.outside ↔
        (linkBytes (r.made.icache r.ip).di)[(slashes 1).length]? = some 0) ∧
      (r.found = none → Clean r.searched →
        ((linkBytes (r.made.icache r.ip).di)[(slashes 1).length]? = some 0 ↔ (slashes 1).length < 52)) := by
  have hrun : (match sysSymlink smallSuper (slashes 1) [108] (idleKernel (smallDisk [])) with
      | .ok r _ => decide (r = 0)
      | .error _ _ => false) = true := by
    decide +kernel
  cases h : sysSymlink smallSuper (slashes 1) [108] (idleKernel (smallDisk [])) with
  | error e k' => rw [h] at hrun; cases hrun
  | ok r k' =>
    rw [h] at hrun
    obtain rfl : r = 0 := of_decide_eq_true hrun
    exact ⟨k', rfl, link_target_iff (by decide) h⟩

/-- Of a path of 60 bytes eight go behind the inode. One of 52 bytes has no NUL behind it,
so that what follows the inode is read as well. -/
theorem long_target_lost :
    (∃ k', sysSymlink smallSuper (slashes 60) [108] (idleKernel (smallDisk [])) = .ok 0 k' ∧
      (k'.icache 1).di.type = .T_SYM ∧ k'.outside = [(1, slashes 8)]) ∧
    ∃ k', sysSymlink smallSuper (slashes 52) [108] (idleKernel (smallDisk [])) = .ok 0 k' ∧
      (k'.icache 1).di.type = .T_SYM ∧
      ({ k' with icache := Function.update k'.icache 2 { dev := ROOTDEV, inum := 3, ref := 1 } } :
        Kernel).linkPath 1 ≠ slashes 52 := by
  constructor
  · have hrun : (match sysSymlink smallSuper (slashes 60) [108] (idleKernel (smallDisk [])) with
        | .ok r k' => decide (r = 0 ∧ (k'.icache 1).di.type = .T_SYM ∧ k'.outside = [(1, slashes 8)])
        | .error _ _ => false) = true := by
      decide +kernel
    cases h : sysSymlink smallSuper (slashes 60) [108] (idleKernel (smallDisk [])) with
    | error e k' => rw [h] at hrun; cases hrun
    | ok r k' =>
      rw [h] at hrun
      obtain ⟨rfl, hk⟩ := of_decide_eq_true hrun
      exact ⟨k', rfl, hk⟩
  · have hrun : (match sysSymlink smallSuper (slashes 52) [108] (idleKernel (smallDisk [])) with
        | .ok r k' => decide (r = 0 ∧ (k'.icache 1).di.type = .T_SYM ∧
            ({ k' with icache := Function.update k'.icache 2 { dev := ROOTDEV, inum := 3, ref := 1 } } :
              Kernel).linkPath 1 ≠ slashes 52)
        | .error _ _ => false) = true := by
      decide +kernel
    cases h : sysSymlink smallSuper (slashes 52) [108] (idleKernel (smallDisk [])) with
    | error e k' => rw [h] at hrun; cases hrun
    | ok r k' =>
      rw [h] at hrun
      obtain ⟨rfl, hk⟩ := of_decide_eq_true hrun
      exact ⟨k', rfl, hk⟩

end Xv6.File
