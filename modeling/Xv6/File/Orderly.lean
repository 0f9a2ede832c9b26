import Xv6.File.Symlink

/- What the parts of the system calls keep of the inode cache and the disk
   (`project3_filesystem/fs.c`).

   `Orderly` adds to `Settled` what an `iput` that frees an inode needs: a link has a name, so
   that it is not freed, and a device has no blocks. The first part says what becomes of
   `Sound` when an inode is replaced, made or freed. Then each function that writes has its
   lemma: from an orderly state, when it returns, to an orderly state, with what it leaves as it
   was (`Silent`, `Undisturbed`). They say nothing of calls that do not return. -/
namespace Xv6.File

open Lib.Forest (val_of_root)

section Sound

variable {sb : Superblock} {d d' : Disk} {f f' : Nat → Dinode} {n : Nat}

theorem ptr_of_root {k : Cell} (h : (f k.1).root k.2 = 0) (p : List Nat) : ptr d f k p = 0 := by
  unfold ptr
  apply val_of_root
  exact h

/-- One inode has the same pointers. -/
theorem ptr_congr_at (hb : d'.block = d.block) {k : Cell} (h : (f' k.1).root k.2 = (f k.1).root k.2) :
    ∀ p : List Nat, ptr d' f' k p = ptr d f k p := by
  intro p
  induction p with
  | nil => exact h
  | cons j p ih =>
    show (if ptr d' f' k p = 0 then 0 else (d'.block (ptr d' f' k p)).word j) =
      if ptr d f k p = 0 then 0 else (d.block (ptr d f k p)).word j
    rw [ih, hb]

/-- The files are those of before, less some and with new ones that have no blocks; blocks
of files that are gone may have been freed. -/
theorem Sound.restrict (h : Sound sb d f)
    (hf : ∀ i, (f' i).isFile → (f i).isFile ∧ (f' i).root = (f i).root ∧ (f' i).size = (f i).size ∨
      (∀ r, (f' i).root r = 0) ∧ (f' i).size = 0)
    (hb : d'.block = d.block) (hmeta : ∀ b < sb.nmeta, d'.bitmap b = true)
    (hused : ∀ k p, (shape f).Node k p → (f' k.1).isFile → ptr d f k p ≠ 0 →
      d'.bitmap (ptr d f k p) = true) : Sound sb d' f' := by
  -- a pointer that is there was there before
  have hold : ∀ k p, (shape f').Node k p → ptr d' f' k p ≠ 0 →
      (shape f).Node k p ∧ ptr d' f' k p = ptr d f k p := by
    intro k p hk hne
    rcases hf k.1 hk.1 with ⟨hfile, hroot, -⟩ | ⟨hzero, -⟩
    · exact ⟨⟨hfile, hk.2⟩, ptr_congr_at hb (congrFun hroot k.2) p⟩
    · exact absurd (ptr_of_root (hzero k.2) p) hne
  refine ⟨⟨hmeta, fun k p hk hne => ?_, fun k p k' p' hk hk' hne he => ?_⟩, fun i hi bn hbn => ?_⟩
  · obtain ⟨hk0, hptr⟩ := hold k p hk hne
    rw [hptr] at hne ⊢
    exact ⟨hused k p hk0 hk.1 hne, (h.consistent.used k p hk0 hne).2⟩
  · obtain ⟨hk0, hptr⟩ := hold k p hk hne
    obtain ⟨hk0', hptr'⟩ := hold k' p' hk' (he ▸ hne)
    rw [hptr] at hne he
    rw [hptr'] at he
    exact h.consistent.proper k p k' p' hk0 hk0' hne he
  · rcases hf i hi with ⟨hfile, hroot, hsize⟩ | ⟨-, hsize⟩
    · rw [hsize] at hbn
      obtain ⟨hlt, hne⟩ := h.noHoles i hfile bn hbn
      refine ⟨hlt, ?_⟩
      unfold blockOf at hne ⊢
      rw [ptr_congr_at hb (congrFun hroot _)]
      exact hne
    · rw [hsize] at hbn
      exact absurd hbn (Nat.not_lt_zero _)

/-- One inode has been replaced by another one with the same pointers and size, by one that
is no file, or by a new one. -/
theorem Sound.update (h : Sound sb d f) {x : Dinode}
    (hx : x.isFile → (f n).isFile ∧ x.root = (f n).root ∧ x.size = (f n).size ∨
      (∀ r, x.root r = 0) ∧ x.size = 0)
    (hb : d'.block = d.block) (hbit : d'.bitmap = d.bitmap) : Sound sb d' (Function.update f n x) := by
  refine h.restrict (fun i hi => ?_) hb (fun b hlt => by rw [hbit]; exact h.consistent.metadata b hlt)
    (fun k p hk _ hne => by rw [hbit]; exact (h.consistent.used k p hk hne).1)
  by_cases hn : i = n
  · subst hn
    rw [Function.update_self] at hi ⊢
    exact hx hi
  · rw [Function.update_of_ne hn] at hi ⊢
    exact .inl ⟨hi, rfl, rfl⟩

/-- What `itrunc` frees of an inode with nothing below `T_addr` are blocks of that inode. -/
theorem mem_freed (h : NoTriple d f n) {b : Nat} (hb : b ∈ freed d f n) :
    b ≠ 0 ∧ ∃ r p, p.length ≤ r.val - 9 ∧ (∀ j ∈ p, j < NINDIRECT) ∧ ptr d f (n, r) p = b := by
  rw [freed_eq_treeBlocks h] at hb
  obtain ⟨r, -, hb⟩ := List.mem_flatMap.mp hb
  obtain ⟨hne, l, hlen, hlt, hl⟩ := (Lib.Forest.mem_subtree closed_ptr _ _).mp hb
  rw [List.append_nil] at hl
  exact ⟨hne, r, l, hlen, hlt, hl⟩

/-- An inode has been freed. -/
theorem Sound.free (h : Sound sb d f) (hn : (f n).isFile ∨ ∀ r, (f n).root r = 0)
    (h3 : NoTriple d f n) {x : Dinode} (hx : ¬ x.isFile) (hb : d'.block = d.block)
    (hbit : ∀ b, b ∉ freed d f n → d'.bitmap b = d.bitmap b) : Sound sb d' (Function.update f n x) := by
  -- the blocks of the inode are no metadata and in no other file
  have hout : ∀ b, b ∈ freed d f n → sb.nmeta ≤ b ∧
      ∀ k p, (shape f).Node k p → ptr d f k p = b → k.1 = n := by
    intro b hmem
    obtain ⟨hne, r, p, hlen, hlt, hp⟩ := mem_freed h3 hmem
    rcases hn with hfile | hzero
    · have hnode : (shape f).Node (n, r) p := ⟨hfile, hlen, hlt⟩
      refine ⟨by rw [← hp] at hne ⊢; exact (h.consistent.used _ _ hnode hne).2, fun k q hk hq => ?_⟩
      have heq := h.consistent.proper _ _ _ _ hnode hk (hp ▸ hne) (hp.trans hq.symm)
      rw [← heq.1]
    · exact absurd (hp.symm.trans (ptr_of_root (hzero r) p)) hne
  refine h.restrict (fun i hi => ?_) hb (fun b hlt => ?_) (fun k p hk hi hne => ?_)
  · by_cases he : i = n
    · rw [he, Function.update_self] at hi
      exact absurd hi hx
    · rw [Function.update_of_ne he] at hi ⊢
      exact .inl ⟨hi, rfl, rfl⟩
  · rw [hbit b (fun hm => absurd (hout b hm).1 (by omega))]
    exact h.consistent.metadata b hlt
  · rw [hbit _ (fun hm => ?_)]
    · exact (h.consistent.used k p hk hne).1
    · rw [(hout _ hm).2 k p hk rfl, Function.update_self] at hi
      exact hx hi

end Sound

/-! ## The state between two calls -/

/-- What is kept besides: a link has a name, and a device no blocks. -/
structure Orderly (sb : Superblock) (k : Kernel) : Prop extends Settled sb k where
  links : ∀ i, (k.disk.dinode i).type = .T_SYM → (k.disk.dinode i).nlink ≠ 0
  devices : ∀ i, (k.disk.dinode i).type = .T_DEV → ∀ r, (k.disk.dinode i).root r = 0

/-- What is kept of an inode by itself. -/
structure Fine (di : Dinode) : Prop where
  entries : di.type = .T_DIR → 16 ∣ di.size
  paths : di.type = .T_SYM → 0 ∈ linkBytes di
  links : di.type = .T_SYM → di.nlink ≠ 0
  devices : di.type = .T_DEV → ∀ r, di.root r = 0

section Fine

variable {sb : Superblock} {k : Kernel} {x : Dinode}

theorem Orderly.fine (h : Orderly sb k) (n : Nat) : Fine (k.disk.dinode n) :=
  ⟨h.entries n, h.paths n, h.links n, h.devices n⟩

theorem orderly_of_fine (hc : Cached k) (hsound : Sound sb k.disk k.disk.dinode)
    (hfine : ∀ n, Fine (k.disk.dinode n))
    (hlinked : ∀ n, (k.disk.dinode n).type ≠ .none → (k.disk.dinode n).nlink = 0 →
      ∃ i, 0 < k.refs i ∧ (k.icache i).inum = n ∧ (k.icache i).valid = true)
    (hcwd : 0 < k.refs k.cwd) (hdir : (k.disk.dinode (k.icache k.cwd).inum).type = .T_DIR)
    (hout : k.outside = []) : Orderly sb k :=
  ⟨⟨hc, hsound, fun n => (hfine n).entries, hlinked, fun n => (hfine n).paths, hcwd, hdir, hout⟩,
    fun n => (hfine n).links, fun n => (hfine n).devices⟩

/-- A free inode. -/
theorem fine_none (h : x.type = .none) : Fine x := by
  refine ⟨fun ht => ?_, fun ht => ?_, fun ht => ?_, fun ht => ?_⟩ <;> cases h.symm.trans ht

end Fine

section Cache

variable {sb : Superblock} {k k' m : Kernel} {ip j : Ino} {n : Nat} {u : Unit} {o : Option Ino}

theorem iget_ok (h : Cached k) (hr : iget n k = .ok j k') : Silent k k' ∧ (k'.icache j).inum = n := by
  by_cases hroom : (insert n k.used).card ≤ NINODE
  · obtain ⟨j', k'', hrun, hs, hj⟩ := iget_room h hroom
    cases hrun.symm.trans hr
    exact ⟨hs, hj⟩
  · cases (iget_full h hroom).symm.trans hr

theorem ilock_ok (h : Cached k) (hr : ilock ip k = .ok u k') : Silent k k' ∧
    (k'.icache ip).di = k.disk.dinode (k.icache ip).inum ∧
    (k.disk.dinode (k.icache ip).inum).type ≠ .none := by
  obtain ⟨hl, h0, -⟩ := (wp_ilock ip).ok hr
  by_cases ht : (k.disk.dinode (k.icache ip).inum).type = .none
  · obtain ⟨k'', hrun⟩ := ilock_removed h hl h0 ht
    cases hrun.symm.trans hr
  · obtain ⟨k'', hrun, hs, hdi⟩ := ilock_silent h hl h0 ht
    cases hrun.symm.trans hr
    exact ⟨hs, hdi, ht⟩

theorem iunlock_ok (h : Cached k) (hr : iunlock ip k = .ok u k') : Silent k k' := by
  obtain ⟨hl, h0, -⟩ := (wp_iunlock ip).ok hr
  obtain ⟨k'', hrun, hs⟩ := iunlock_silent h hl h0
  cases hrun.symm.trans hr
  exact hs

theorem iput_ok (h : Cached k) (h0 : 0 < k.refs ip)
    (hkeep : (k.icache ip).valid = true → (k.disk.dinode (k.icache ip).inum).nlink = 0 → 1 < k.refs ip)
    (hr : iput ip k = .ok u k') : Silent k k' := by
  obtain ⟨k'', hrun, hs⟩ := iput_silent h ((wp_iput ip).ok hr).1 h0 hkeep
  cases hrun.symm.trans hr
  exact hs

theorem Silent.orderly (hs : Orderly sb k) (h : Silent k k') (hpos : ∀ i, 0 < k.refs i → 0 < k'.refs i)
    (hkept : Kept k k') (hcwd : k'.cwd = k.cwd) : Orderly sb k' := by
  refine ⟨h.settled hs.toSettled hpos hkept hcwd, ?_, ?_⟩
  · rw [h.disk]
    exact hs.links
  · rw [h.disk]
    exact hs.devices

/-- A reference on top of those of an orderly state is given back. -/
theorem Silent.dropped (hs : Orderly sb k) (h : Silent k k') (hr : k'.refs = k.refs) (hkept : Kept k k')
    (hcwd : k'.cwd = k.cwd) : Orderly sb k' :=
  h.orderly hs (fun i hi => by rw [hr]; exact hi) hkept hcwd

/-- The new reference to an inode without a name is not the only one. -/
theorem Looked.shared (hs : Settled sb k) (h : Looked k k' (some j)) (hsil : Silent k k')
    (hv : (k'.icache j).valid = true) (hn : (k'.disk.dinode (k'.icache j).inum).nlink = 0) :
    1 < k'.refs j := by
  have ht := (hsil.cached.copy j (h.pos hs.cached) hv)
  rw [ht.1, hsil.disk] at ht
  rw [hsil.disk] at hn
  exact Walked.shared hs ⟨h, hsil⟩ ht.2 hn

end Cache

/-! ## What is written -/

/-- Code on the contents of `ip` has left the inode `di` in the entry, and the disk `d`. -/
def Kernel.rewrite (k : Kernel) (ip : Ino) (di : Dinode) (d : Disk) : Kernel :=
  { k with disk := d }.setEntry ip { k.icache ip with di := di }

section Rewrite

variable {sb : Superblock} {k m : Kernel} {ip : Ino} {di : Dinode} {d : Disk}

theorem rewrite_self (k : Kernel) (ip : Ino) (di : Dinode) (d : Disk) :
    (k.rewrite ip di d).icache ip = { k.icache ip with di := di } := setEntry_self _

theorem rewrite_other {i : Ino} (hi : i ≠ ip) : (k.rewrite ip di d).icache i = k.icache i :=
  setEntry_other hi _

theorem rewrite_inum (k : Kernel) (ip : Ino) (di : Dinode) (d : Disk) (i : Ino) :
    ((k.rewrite ip di d).icache i).inum = (k.icache i).inum := by
  by_cases hi : i = ip
  · rw [hi, rewrite_self]
  · rw [rewrite_other hi]

theorem rewrite_valid (k : Kernel) (ip : Ino) (di : Dinode) (d : Disk) (i : Ino) :
    ((k.rewrite ip di d).icache i).valid = (k.icache i).valid := by
  by_cases hi : i = ip
  · rw [hi, rewrite_self]
  · rw [rewrite_other hi]

theorem rewrite_moved (k : Kernel) (ip : Ino) (di : Dinode) (d : Disk) :
    Moved k (k.rewrite ip di d) k.locks k.refs := by
  have h := moved_setEntry_same (k := { k with disk := d }) (p := ip)
    (x := { k.icache ip with di := di }) rfl rfl rfl
  exact ⟨h.locks, h.refs, h.kept, h.cwd⟩

theorem rewrite_same (k : Kernel) (ip : Ino) : k.rewrite ip (k.icache ip).di k.disk = k := by
  have hup : Function.update k.icache ip (k.icache ip) = k.icache := Function.update_eq_self ip k.icache
  unfold Kernel.rewrite Kernel.setEntry
  exact congrArg (fun c => { k with icache := c }) hup

theorem Cached.rewrite (h : Cached k) (h0 : 0 < k.refs ip) (ht : di.type ≠ .none)
    (hd : d.dinode = Function.update k.disk.dinode (k.icache ip).inum di) : Cached (k.rewrite ip di d) := by
  have hrefs := (rewrite_moved k ip di d).refs
  refine ⟨fun i => ?_, fun i j hi hj he => ?_, fun i hi hv => ?_⟩
  · rw [hrefs]
    exact h.refs i
  · rw [hrefs] at hi hj
    rw [rewrite_inum, rewrite_inum] at he
    exact h.distinct i j hi hj he
  · rw [hrefs] at hi
    rw [rewrite_valid] at hv
    rw [rewrite_inum]
    show _ = d.dinode _ ∧ _
    rw [hd]
    by_cases hip : i = ip
    · rw [hip, rewrite_self, Function.update_self]
      exact ⟨rfl, ht⟩
    · have hne : (k.icache i).inum ≠ (k.icache ip).inum := fun he => hip (h.distinct i ip hi h0 he)
      rw [rewrite_other hip, Function.update_of_ne hne]
      exact h.copy i hi hv

/-- The inode of `ip` is written, from a state `m` with at least the references of `k`. -/
theorem Orderly.renew (h : Orderly sb k) (hc : Cached m)
    (hm : ∀ i, 0 < k.refs i → 0 < m.refs i ∧ (m.icache i).inum = (k.icache i).inum ∧
      ((k.icache i).valid = true → (m.icache i).valid = true))
    (hcwd : m.cwd = k.cwd) (hout : m.outside = k.outside) (h0 : 0 < m.refs ip)
    (hv : (m.icache ip).valid = true)
    (hother : ∀ i, i ≠ (m.icache ip).inum → m.disk.dinode i = k.disk.dinode i)
    (hd : d.dinode = Function.update m.disk.dinode (m.icache ip).inum di)
    (hsound : Sound sb d d.dinode) (ht : di.type ≠ .none)
    (hdir : (k.disk.dinode (m.icache ip).inum).type = .T_DIR → di.type = .T_DIR) (hfine : Fine di) :
    Orderly sb (m.rewrite ip di d) := by
  have hrefs := (rewrite_moved m ip di d).refs
  have hself : d.dinode (m.icache ip).inum = di := by
    rw [hd, Function.update_self]
  have hold : ∀ i, i ≠ (m.icache ip).inum → d.dinode i = k.disk.dinode i := by
    intro i hi
    rw [hd, Function.update_of_ne hi]
    exact hother i hi
  refine orderly_of_fine (hc.rewrite h0 ht hd) hsound (fun n => ?_) (fun n hty hn => ?_) ?_ ?_
    (hout.trans h.outside)
  · show Fine (d.dinode n)
    by_cases hn : n = (m.icache ip).inum
    · rw [hn, hself]
      exact hfine
    · rw [hold n hn]
      exact h.fine n
  · have hty : (d.dinode n).type ≠ .none := hty
    have hn : (d.dinode n).nlink = 0 := hn
    by_cases hip : n = (m.icache ip).inum
    · exact ⟨ip, by rw [hrefs]; exact h0, by rw [rewrite_inum, hip], by rw [rewrite_valid]; exact hv⟩
    · rw [hold n hip] at hty hn
      obtain ⟨e, he0, hei, hev⟩ := h.linked n hty hn
      obtain ⟨h1, h2, h3⟩ := hm e he0
      exact ⟨e, by rw [hrefs]; exact h1, by rw [rewrite_inum, h2, hei], by rw [rewrite_valid]; exact h3 hev⟩
  · rw [hrefs]
    show 0 < m.refs m.cwd
    rw [hcwd]
    exact (hm _ h.cwd).1
  · have hcd : (k.disk.dinode (k.icache k.cwd).inum).type = .T_DIR := h.cwdDir
    rw [rewrite_inum]
    show (d.dinode (m.icache m.cwd).inum).type = .T_DIR
    rw [hcwd, (hm _ h.cwd).2.1]
    by_cases he : (k.icache k.cwd).inum = (m.icache ip).inum
    · rw [he, hself]
      rw [he] at hcd
      exact hdir hcd
    · rw [hold _ he]
      exact hcd

end Rewrite

theorem onDisk_run {α : Type} {x : FsM α} {k k' : Kernel} {a : α} (h : onDisk x k = .ok a k') :
    ∃ d, x k.disk = .ok a d ∧ k' = { k with disk := d } := by
  unfold onDisk at h
  cases hx : x k.disk with
  | ok b d =>
    rw [hx] at h
    cases h
    exact ⟨d, rfl, rfl⟩
  | error e d =>
    rw [hx] at h
    cases h

/-- References and locks, types and counts of links are as they were. -/
structure Undisturbed (sb : Superblock) (k k' : Kernel) : Prop where
  orderly : Orderly sb k'
  moved : Moved k k' k.locks k.refs
  inum : ∀ i, 0 < k.refs i → (k'.icache i).inum = (k.icache i).inum
  type : ∀ n, (k'.disk.dinode n).type = (k.disk.dinode n).type
  nlink : ∀ n, (k'.disk.dinode n).nlink = (k.disk.dinode n).nlink

section Write

variable {sb : Superblock} {k k' k₁ k₂ : Kernel} {ip dp j : Ino} {n off : Nat} {u u' : Unit} {di : Dinode}

theorem Silent.undisturbed (hs : Orderly sb k) (h : Silent k k') (hm : Moved k k' k.locks k.refs) :
    Undisturbed sb k k' :=
  ⟨h.dropped hs hm.refs hm.kept hm.cwd, hm, h.inum, fun n => by rw [h.disk], fun n => by rw [h.disk]⟩

theorem Undisturbed.refl (h : Orderly sb k) : Undisturbed sb k k :=
  ⟨h, Moved.refl k, fun _ _ => rfl, fun _ => rfl, fun _ => rfl⟩

theorem Undisturbed.trans (h : Undisturbed sb k k₁) (h' : Undisturbed sb k₁ k₂) : Undisturbed sb k k₂ := by
  have hm := h.moved.then_same h'.moved
  rw [h.moved.locks] at hm
  refine ⟨h'.orderly, hm, fun i h0 => ?_, fun n => (h'.type n).trans (h.type n),
    fun n => (h'.nlink n).trans (h.nlink n)⟩
  rw [h'.inum i (by rw [h.moved.refs]; exact h0), h.inum i h0]

/-- The inode in the entry `ip` and on the disk is `di`. -/
def Kernel.put (k : Kernel) (ip : Ino) (di : Dinode) : Kernel :=
  k.rewrite ip di (k.disk.setDinode (k.icache ip).inum di)

/-- A change of the inode, and `iupdate`. -/
theorem put_ok (h1 : setDi ip di k = .ok u k₁) (h2 : iupdateEntry ip k₁ = .ok u' k₂) : k₂ = k.put ip di := by
  cases h1
  have hd : onDisk (iupdate { ((k.setEntry ip { k.icache ip with di := di }).icache ip).di with
      inum := ((k.setEntry ip { k.icache ip with di := di }).icache ip).inum })
        (k.setEntry ip { k.icache ip with di := di }) = .ok u' k₂ := h2
  rw [setEntry_self] at hd
  obtain ⟨d, hd, rfl⟩ := onDisk_run hd
  cases hd
  rfl

theorem put_entry (k : Kernel) (ip : Ino) (di : Dinode) :
    (k.put ip di).icache ip = { k.icache ip with di := di } := rewrite_self k ip di _

theorem put_other {i : Ino} (hi : i ≠ ip) : (k.put ip di).icache i = k.icache i := rewrite_other hi

theorem put_moved (k : Kernel) (ip : Ino) (di : Dinode) : Moved k (k.put ip di) k.locks k.refs :=
  rewrite_moved k ip di _

theorem put_inum (k : Kernel) (ip : Ino) (di : Dinode) (i : Ino) :
    ((k.put ip di).icache i).inum = (k.icache i).inum := rewrite_inum k ip di _ i

theorem put_dinode (k : Kernel) (ip : Ino) (di : Dinode) :
    (k.put ip di).disk.dinode = Function.update k.disk.dinode (k.icache ip).inum di := rfl

/-- `iupdate` of an inode whose blocks and type are as they were. -/
theorem Orderly.put (h : Orderly sb k) (h0 : 0 < k.refs ip) (hv : (k.icache ip).valid = true)
    (ht : di.type = (k.icache ip).di.type)
    (hfile : di.isFile → di.root = (k.icache ip).di.root ∧ di.size = (k.icache ip).di.size)
    (hfine : Fine di) : Orderly sb (k.put ip di) := by
  obtain ⟨hcopy, hne⟩ := h.cached.copy ip h0 hv
  refine h.renew h.cached (fun i hi => ⟨hi, rfl, fun hv => hv⟩) rfl rfl h0 hv (fun _ _ => rfl)
    (d := k.disk.setDinode (k.icache ip).inum di) rfl ?_ (by rw [ht]; exact hne) (fun hdir => ?_) hfine
  · refine h.sound.update (fun hx => .inl ?_) rfl rfl
    rw [← hcopy]
    exact ⟨(isFile_congr ht).mp hx, hfile hx⟩
  · rw [ht, hcopy]
    exact hdir

/-- The count of links alone is another one. -/
theorem Orderly.put_nlink (h : Orderly sb k) (h0 : 0 < k.refs ip) (hv : (k.icache ip).valid = true)
    {n : Int16} (hlink : (k.icache ip).di.type = .T_SYM → n ≠ 0) :
    Orderly sb (k.put ip { (k.icache ip).di with nlink := n }) := by
  have hfine := h.fine (k.icache ip).inum
  rw [← (h.cached.copy ip h0 hv).1] at hfine
  exact h.put h0 hv rfl (fun _ => ⟨rfl, rfl⟩) ⟨hfine.entries, hfine.paths, hlink, hfine.devices⟩

theorem onInode_run {α : Type} {f : Inode → FsM (α × Inode)} {a : α} (h : onInode ip f k = .ok a k') :
    ∃ y d, f { (k.icache ip).di with inum := (k.icache ip).inum } k.disk = .ok (a, y) d ∧
      k' = k.rewrite ip y.toDinode d := by
  unfold onInode at h
  rw [run_get] at h
  obtain ⟨⟨b, y⟩, k₁, h1, h⟩ := Lib.bind_ok h
  obtain ⟨d, hd, rfl⟩ := onDisk_run h1
  obtain ⟨v, k₂, h2, h⟩ := Lib.bind_ok h
  cases h2
  cases h
  exact ⟨y, d, hd, rfl⟩

/-- A write leaves type and count of links as they were; inside the file it changes nothing of
the inode. -/
theorem Wrote.inode {d d' : Disk} {i off len : Nat} {src : Nat → UInt8}
    (hw : Wrote sb d d.dinode i src off len di d') (h : Sound sb d d.dinode) (hi : (d.dinode i).isFile) :
    di.type = (d.dinode i).type ∧ di.nlink = (d.dinode i).nlink ∧
      d'.dinode = Function.update d.dinode i di ∧ (off + len ≤ (d.dinode i).size → di = d.dinode i) := by
  obtain ⟨y, d₁, hst, hy, -, -, hdis⟩ := hw.stored
  have hinside : off + len ≤ (d.dinode i).size → di = d.dinode i := by
    intro hle
    have hidle : y = d.dinode i := hst.idle (fun o h1 h2 => (h.mapped hi (by omega)).2)
    have hs : di.size = (d.dinode i).size := by
      rw [hw.size]
      omega
    rw [hy, hidle, hs]
  refine ⟨?_, ?_, ?_, hinside⟩
  · rw [hy]
    exact hst.attrs.1
  · rw [hy]
    exact hst.attrs.2.2.2.1
  · rcases hdis with ⟨hsame, -⟩ | hnew
    · have hdi : di = d.dinode i := by
        by_cases hle : off + len ≤ (d.dinode i).size
        · exact hinside hle
        · rw [← hw.dinode (by omega), hsame]
      rw [hsame, hdi, Function.update_eq_self]
    · exact hnew

/-- A write to a file, or one of whole entries to a directory. -/
theorem writeFile_ok (h : Orderly sb k) (h0 : 0 < k.refs ip) (hv : (k.icache ip).valid = true)
    (hfile : (k.icache ip).di.isFile) {off len : UInt32}
    (h16 : (k.icache ip).di.type = .T_DIR → 16 ∣ off.toNat ∧ 16 ∣ len.toNat) {src : Nat → UInt8} {a : Int}
    (hr : writeFile sb src off len ip k = .ok a k') : Undisturbed sb k k' ∧
      (off.toNat + len.toNat ≤ (k.icache ip).di.size → k'.disk.dinode = k.disk.dinode) := by
  obtain ⟨hcopy, hne⟩ := h.cached.copy ip h0 hv
  obtain ⟨y, d, hw, hk⟩ := onInode_run hr
  obtain ⟨x, hx⟩ : ∃ x : Inode, x = { (k.icache ip).di with inum := (k.icache ip).inum } := ⟨_, rfl⟩
  rw [← hx] at hw
  have hxd : x.toDinode = (k.icache ip).di := by rw [hx]
  have hxi : x.inum = (k.icache ip).inum := by rw [hx]
  by_cases hgood : off.toNat ≤ x.size ∧ off.toNat + len.toNat ≤ MAXFILE * Fs.BSIZE
  rotate_left
  · -- the call returns -1
    cases (writeiFile_bad hgood).symm.trans hw
    have hk : k' = k := by
      rw [hk, hxd]
      exact rewrite_same k ip
    rw [hk]
    exact ⟨.refl h, fun _ => rfl⟩
  have hf : k.disk.dinode x.inum = x.toDinode := by rw [hxd, hxi, hcopy]
  have hfile' : (k.disk.dinode x.inum).isFile := by
    rw [hf, hxd]
    exact hfile
  have hsize : (k.disk.dinode x.inum).size = x.size := by rw [hf]
  have hxfile : x.isFile := by
    rw [hxd]
    exact hfile
  obtain ⟨-, -, hwrote⟩ := (wp_writeiFile h.sound hf hxfile src off len hgood.1 hgood.2).ok hw
  obtain ⟨hsound, -, -⟩ := hwrote.files h.sound hfile' (by rw [hsize]; exact hgood.1) hgood.2
  obtain ⟨hytype, hynlink, hdisk, hinside⟩ := hwrote.inode h.sound hfile'
  have hattrs : ∀ i, (d.dinode i).type = (k.disk.dinode i).type ∧
      (d.dinode i).nlink = (k.disk.dinode i).nlink := by
    intro i
    rw [hdisk]
    by_cases hi : i = x.inum
    · rw [hi, Function.update_self]
      exact ⟨hytype, hynlink⟩
    · rw [Function.update_of_ne hi]
      exact ⟨rfl, rfl⟩
  rw [hf, hxd] at hytype
  rw [hk]
  refine ⟨⟨?_, rewrite_moved k ip y.toDinode d, fun i _ => rewrite_inum k ip y.toDinode d i,
    fun i => (hattrs i).1, fun i => (hattrs i).2⟩,
    fun hle => ?_⟩
  · refine h.renew h.cached (fun i hi => ⟨hi, rfl, fun hv => hv⟩) rfl rfl h0 hv (fun _ _ => rfl)
      (by rw [← hxi]; exact hdisk) (by rw [hdisk]; exact hsound) (by rw [hytype]; exact hne)
      (fun hdir => ?_) ⟨fun hdir => ?_, fun hs => ?_, fun hs => ?_, fun hs => ?_⟩
    · rw [hytype, hcopy]
      exact hdir
    · rw [hytype] at hdir
      have hold : 16 ∣ x.size := by
        rw [← hsize]
        exact h.entries _ (by rw [hf, hxd]; exact hdir)
      obtain ⟨h1, h2⟩ := h16 hdir
      rw [hwrote.size, hsize]
      omega
    all_goals
      rw [hytype] at hs
      rcases hfile with hf | hf <;> cases hs.symm.trans hf
  · show d.dinode = k.disk.dinode
    rw [hdisk, hinside (by rw [hsize, hxd]; exact hle), Function.update_eq_self]

/-- The offset of an entry. -/
theorem dvd_ofNat (h : 16 ∣ off) : 16 ∣ (UInt32.ofNat off).toNat ∧ 16 ∣ (16 : UInt32).toNat := by
  refine ⟨?_, by decide⟩
  rw [UInt32.toNat_ofNat']
  omega

end Write

/-! ## Directories -/

section Directory

variable {sb : Superblock} {k k' k₁ k₂ : Kernel} {ip dp j : Ino} {n off : Nat} {u : Unit}
  {name : List UInt8}

/-- The reference that a lookup has returned is given back. -/
theorem Looked.put_back (hs : Settled sb k) (h : Looked k k₁ (some j)) (hsil : Silent k k₁)
    (hr : iput j k₁ = .ok u k₂) : Silent k k₂ ∧ Moved k k₂ k.locks k.refs := by
  have hpos := h.pos hs.cached
  have hput := iput_ok hsil.cached hpos (h.shared hs hsil) hr
  refine ⟨hsil.trans hput (fun i hi => lt_of_lt_of_le hi (h.le i)), ?_⟩
  have hm := h.then ((wp_iput j).ok hr).2
  rw [h.locks, h.refs, found_put] at hm
  exact hm

/-- A lookup in a directory that the caller has locked. -/
theorem dirlookup_ok (h : Orderly sb k) (h0 : 0 < k.refs dp) (hv : (k.icache dp).valid = true)
    {r : Option (Ino × Nat)} (hr : dirlookup sb dp name k = .ok r k') :
    (k.icache dp).di.type = .T_DIR ∧ Looked k k' (r.map (·.1)) ∧ Silent k k' ∧
      lookup k.disk (k.icache dp).inum name = r.map (fun x => (k'.icache x.1).inum) ∧
      (∀ x, r = some x → 16 ∣ x.2 ∧ x.2 + 16 ≤ (k.icache dp).di.size) ∧ (r = none → k' = k) := by
  have hdir : Lib.wp (dirlookup sb dp name) (fun _ _ => (k.icache dp).di.type = .T_DIR) Any k := by
    unfold dirlookup
    refine Lib.wp_get ?_
    by_cases ht : (k.icache dp).di.type ≠ .T_DIR
    · simp only [if_pos ht]
      trivial
    · simp only [if_neg ht]
      exact (wp_dirlookupLoop sb dp name _ 0 k).mono (fun _ _ _ => not_not.mp ht) (fun _ _ _ => trivial)
  have ht := hdir.ok hr
  have hcopy := (h.cached.copy dp h0 hv).1
  have h16 : 16 ∣ (k.icache dp).di.size := by
    rw [hcopy]
    exact h.entries _ (by rw [← hcopy]; exact ht)
  refine ⟨ht, (wp_dirlookup sb dp name).ok hr, ?_⟩
  have hfind := dirlookup_run name h.sound ⟨hcopy, ht⟩ h16
  cases hl : lookup k.disk (k.icache dp).inum name with
  | none =>
    rw [hl] at hfind
    cases hfind.symm.trans hr
    exact ⟨.refl h.cached, rfl, (fun x hx => by cases hx), fun _ => rfl⟩
  | some m =>
    rw [hl] at hfind
    obtain ⟨o, ho, hlt, hrun⟩ := hfind
    rw [hrun] at hr
    obtain ⟨j, k₁, hget, hr⟩ := Lib.bind_ok hr
    cases hr
    obtain ⟨hs, hj⟩ := iget_ok h.cached hget
    refine ⟨hs, ?_, fun x hx => ?_, fun hx => by cases hx⟩
    · show some m = some (k'.icache j).inum
      rw [hj]
    · cases hx
      exact ⟨ho, by show o + 16 ≤ _; omega⟩

/-- The search for an empty entry. -/
theorem emptyDirent_ok (h : Sound sb k.disk k.disk.dinode) (hdp : DirCopy k dp)
    (h16 : 16 ∣ (k.icache dp).di.size) : ∀ (fuel off r : Nat), 16 ∣ off →
      emptyDirent sb dp fuel off k = .ok r k' → k' = k ∧ 16 ∣ r := by
  intro fuel
  induction fuel with
  | zero =>
    intro off r ho hr
    cases hr
    exact ⟨rfl, ho⟩
  | succ fuel ih =>
    intro off r ho hr
    unfold emptyDirent at hr
    rw [run_get] at hr
    by_cases hlt : off < (k.icache dp).di.size
    · rw [if_pos hlt] at hr
      rw [Lib.run_bind (readDirent_run h hdp (by omega))] at hr
      dsimp only at hr
      split_ifs at hr with hz
      · cases hr
        exact ⟨rfl, ho⟩
      · exact ih (off + 16) r (by omega) hr
    · rw [if_neg hlt] at hr
      cases hr
      exact ⟨rfl, ho⟩

theorem dirlink_ok (h : Orderly sb k) (h0 : 0 < k.refs dp) (hv : (k.icache dp).valid = true) {r : Int}
    (hr : dirlink sb dp name n k = .ok r k') : Undisturbed sb k k' := by
  unfold dirlink at hr
  obtain ⟨o, k₁, hlook, hr⟩ := Lib.bind_ok hr
  obtain ⟨ht, hm, hs, -⟩ := dirlookup_ok h h0 hv hlook
  cases o with
  | some x =>
    obtain ⟨v, k₂, hput, hr⟩ := Lib.bind_ok hr
    cases hr
    obtain ⟨hs2, hm2⟩ := hm.put_back h.toSettled hs hput
    exact hs2.undisturbed h hm2
  | none =>
    have h1 : Undisturbed sb k k₁ := hs.undisturbed h hm
    have h01 : 0 < k₁.refs dp := by
      rw [h1.moved.refs]
      exact h0
    have hv1 := h1.moved.kept dp h0 h01 hv
    have hcopy1 := (h1.orderly.cached.copy dp h01 hv1).1
    have ht1 : (k₁.icache dp).di.type = .T_DIR := by
      rw [hcopy1, h1.inum dp h0, h1.type, ← (h.cached.copy dp h0 hv).1]
      exact ht
    have h16 : 16 ∣ (k₁.icache dp).di.size := by
      rw [hcopy1]
      exact h1.orderly.entries _ (by rw [← hcopy1]; exact ht1)
    dsimp only at hr
    rw [run_get] at hr
    obtain ⟨off, k₂, hoff, hr⟩ := Lib.bind_ok hr
    obtain ⟨hk, ho⟩ := emptyDirent_ok h1.orderly.sound ⟨hcopy1, ht1⟩ h16 _ 0 off (Nat.dvd_zero 16) hoff
    obtain ⟨w, k₃, hwrite, hr⟩ := Lib.bind_ok hr
    rw [hk] at hwrite
    by_cases hw : w ≠ 16
    · rw [if_pos hw] at hr
      cases hr
    · obtain rfl : w = 16 := not_not.mp hw
      rw [if_neg hw] at hr
      cases hr
      exact h1.trans (writeFile_ok h1.orderly h01 hv1 (.inr ht1) (fun _ => dvd_ofNat ho) hwrite).1

end Directory

/-! ## `iput` of an inode that may be freed -/

/-- The inode of the entry `ip` has been freed, and is `x` now; nobody uses the entry. -/
structure Freed (k k' : Kernel) (ip : Ino) (x : Dinode) : Prop where
  other : ∀ i, i ≠ ip → k'.icache i = k.icache i
  unused : k'.refs ip = 0
  type : x.type = .none
  dinode : k'.disk.dinode = Function.update k.disk.dinode (k.icache ip).inum x
  block : k'.disk.block = k.disk.block
  bitmap : ∀ b, b ∉ freed k.disk k.disk.dinode (k.icache ip).inum →
    k'.disk.bitmap b = k.disk.bitmap b
  outside : k'.outside = k.outside

section Free

variable {sb : Superblock} {k k' : Kernel} {ip : Ino} {u : Unit} {x : Dinode}

/-- The state behind an `iput` that frees the inode. -/
theorem iput_frees (hl : k.locks ip = false)
    (hfree : (k.icache ip).valid = true ∧ (k.icache ip).di.nlink = 0 ∧ (k.icache ip).ref = 1)
    (hcopy : (k.icache ip).di = k.disk.dinode (k.icache ip).inum) (hr : iput ip k = .ok u k') :
    ∃ x, Freed k k' ip x := by
  have hlock : (k.icache ip).locked = false := hl
  rw [iput_last hl hfree] at hr
  obtain ⟨v, k₁, hf, hr⟩ := Lib.bind_ok hr
  unfold ifree at hf
  rw [run_get] at hf
  simp only [setEntry_self] at hf
  obtain ⟨y, k₂, h2, hf⟩ := Lib.bind_ok hf
  obtain ⟨d, hd, rfl⟩ := onDisk_run h2
  -- the blocks are freed one after the other
  have hd : itrunc { (k.icache ip).di with inum := (k.icache ip).inum } k.disk = .ok y d := hd
  rw [itrunc_eq _ hcopy.symm] at hd
  obtain ⟨w, d₁, hblocks, hd⟩ := Lib.bind_ok hd
  obtain ⟨hb, hdi⟩ := bfreeAll_ok _ _ _ hblocks
  cases hd
  obtain ⟨w', k₃, h3, hf⟩ := Lib.bind_ok hf
  obtain ⟨d₂, hd₂, rfl⟩ := onDisk_run h3
  cases hd₂
  cases hf
  obtain ⟨w'', k₄, h4, hr⟩ := Lib.bind_ok hr
  cases h4
  cases hr
  refine ⟨{ (k.icache ip).di.cleared with type := .none }, fun i hi => ?_, ?_, rfl, ?_, hb,
    fun b hmem => ?_, rfl⟩
  · unfold Kernel.setEntry
    simp only [Function.update_of_ne hi]
  · unfold Kernel.refs Kernel.setEntry
    simp only [Function.update_self, hfree.2.2, sub_self]
  · show Function.update (Function.update d₁.dinode _ _) _ _ = _
    rw [Function.update_idem, hdi]
  · show d₁.bitmap b = _
    exact bfreeAll_keeps _ _ _ hmem hblocks

namespace Freed

theorem refs (h : Freed k k' ip x) {i : Ino} (hi : i ≠ ip) : k'.refs i = k.refs i := by
  unfold Kernel.refs
  rw [h.other i hi]

/-- An entry in use is another one. -/
theorem used (h : Freed k k' ip x) {i : Ino} (h0 : 0 < k'.refs i) : i ≠ ip ∧ 0 < k.refs i := by
  have hi : i ≠ ip := by
    rintro rfl
    rw [h.unused] at h0
    exact absurd h0 (lt_irrefl 0)
  exact ⟨hi, by rw [← h.refs hi]; exact h0⟩

/-- And it is for another inode. -/
theorem same (h : Freed k k' ip x) (hc : Cached k) (hip : 0 < k.refs ip) {i : Ino} (h0 : 0 < k.refs i)
    (hi : i ≠ ip) : k'.disk.dinode (k.icache i).inum = k.disk.dinode (k.icache i).inum := by
  rw [h.dinode]
  exact Function.update_of_ne (fun he => hi (hc.distinct i ip h0 hip he)) _ _

theorem cached (h : Freed k k' ip x) (hc : Cached k) (hip : 0 < k.refs ip) : Cached k' := by
  refine ⟨fun i => ?_, fun i j hi hj he => ?_, fun i hi hval => ?_⟩
  · by_cases hi : i = ip
    · rw [hi, h.unused]
    · rw [h.refs hi]
      exact hc.refs i
  · obtain ⟨hni, hi0⟩ := h.used hi
    obtain ⟨hnj, hj0⟩ := h.used hj
    rw [h.other i hni, h.other j hnj] at he
    exact hc.distinct i j hi0 hj0 he
  · obtain ⟨hni, hi0⟩ := h.used hi
    rw [h.other i hni] at hval ⊢
    rw [h.same hc hip hi0 hni]
    exact hc.copy i hi0 hval

theorem fine (h : Freed k k' ip x) (hs : Orderly sb k) (n : Nat) : Fine (k'.disk.dinode n) := by
  rw [h.dinode]
  by_cases hn : n = (k.icache ip).inum
  · rw [hn, Function.update_self]
    exact fine_none h.type
  · rw [Function.update_of_ne hn]
    exact hs.fine n

/-- The other inodes without a name are in use. -/
theorem linked (h : Freed k k' ip x) (hs : Orderly sb k) (n : Nat) (ht : (k'.disk.dinode n).type ≠ .none)
    (hn : (k'.disk.dinode n).nlink = 0) :
    ∃ i, 0 < k'.refs i ∧ (k'.icache i).inum = n ∧ (k'.icache i).valid = true := by
  rw [h.dinode] at ht hn
  by_cases hip : n = (k.icache ip).inum
  · rw [hip, Function.update_self] at ht
    exact absurd h.type ht
  · rw [Function.update_of_ne hip] at ht hn
    obtain ⟨i, h0, hi, hv⟩ := hs.linked n ht hn
    have hne : i ≠ ip := by
      rintro rfl
      exact hip hi.symm
    refine ⟨i, by rw [h.refs hne]; exact h0, ?_, ?_⟩
    · rw [h.other i hne]
      exact hi
    · rw [h.other i hne]
      exact hv

/-- A link has a name, and a device no blocks: what was freed are the blocks of a file. -/
theorem sound (h : Freed k k' ip x) (hs : Orderly sb k) (h0 : 0 < k.refs ip)
    (hv : (k.icache ip).valid = true) (hn : (k.icache ip).di.nlink = 0)
    (hflat : (k.disk.dinode (k.icache ip).inum).T_addr = 0) : Sound sb k'.disk k'.disk.dinode := by
  obtain ⟨hcopy, hne⟩ := hs.cached.copy ip h0 hv
  have hfree : (k.disk.dinode (k.icache ip).inum).isFile ∨
      ∀ r, (k.disk.dinode (k.icache ip).inum).root r = 0 := by
    cases ht : (k.disk.dinode (k.icache ip).inum).type with
    | none =>
      rw [hcopy] at hne
      exact absurd ht hne
    | T_DIR => exact .inl (.inr ht)
    | T_FILE => exact .inl (.inl ht)
    | T_DEV => exact .inr (hs.devices _ ht)
    | T_SYM =>
      refine absurd ?_ (hs.links _ ht)
      rw [← hcopy]
      exact hn
  have hroot : (k.disk.dinode (k.icache ip).inum).root 12 = 0 := hflat
  have h3 : NoTriple k.disk k.disk.dinode (k.icache ip).inum := by
    intro j _
    apply ptr_of_root
    exact hroot
  rw [h.dinode]
  refine hs.sound.free hfree h3 ?_ h.block h.bitmap
  rintro (hf | hf) <;> rw [h.type] at hf <;> cases hf

end Freed

end Free

section Release

variable {sb : Superblock} {k k' k₁ : Kernel} {ip c : Ino} {u : Unit}

/-- The entry whose inode has no name keeps a reference. -/
theorem Orderly.drop (h : Orderly sb k) (h0 : 0 < k.refs ip)
    (hno : ¬ ((k.icache ip).valid = true ∧ (k.icache ip).di.nlink = 0 ∧ (k.icache ip).ref = 1))
    (hk : k' = k.setEntry ip { k.icache ip with ref := (k.icache ip).ref - 1 }) (hc : 0 < k'.refs c)
    (hdir : (k.disk.dinode (k.icache c).inum).type = .T_DIR) : Orderly sb { k' with cwd := c } := by
  have hpos : 0 < (k.icache ip).ref := h0
  have hs : Silent k k' := by
    rw [hk]
    refine h.cached.silent_setEntry ?_ h0 rfl (fun _ hv => h.cached.copy ip h0 hv)
    show 0 ≤ (k.icache ip).ref - 1
    omega
  have hentry : ∀ i, i ≠ ip → k'.icache i = k.icache i := by
    intro i hi
    rw [hk, setEntry_other hi]
  have hself : k'.icache ip = { k.icache ip with ref := (k.icache ip).ref - 1 } := by
    rw [hk, setEntry_self]
  have hinum : ∀ i, (k'.icache i).inum = (k.icache i).inum := by
    intro i
    by_cases hi : i = ip
    · rw [hi, hself]
    · rw [hentry i hi]
  have hd := hs.disk
  refine orderly_of_fine ⟨hs.cached.refs, hs.cached.distinct, hs.cached.copy⟩ ?_ (fun n => ?_)
    (fun n ht hn => ?_) hc ?_ (hs.outside.trans h.outside)
  · show Sound sb k'.disk k'.disk.dinode
    rw [hd]
    exact h.sound
  · show Fine (k'.disk.dinode n)
    rw [hd]
    exact h.fine n
  · have ht : (k'.disk.dinode n).type ≠ .none := ht
    have hn : (k'.disk.dinode n).nlink = 0 := hn
    rw [hd] at ht hn
    obtain ⟨e, he0, hei, hev⟩ := h.linked n ht hn
    by_cases he : e = ip
    · subst he
      have hn' : (k.icache e).di.nlink = 0 := by
        rw [(h.cached.copy e he0 hev).1, hei]
        exact hn
      have hne : (k.icache e).ref ≠ 1 := fun h1 => hno ⟨hev, hn', h1⟩
      refine ⟨e, ?_, (hinum e).trans hei, ?_⟩
      · show 0 < (k'.icache e).ref
        rw [hself]
        show 0 < (k.icache e).ref - 1
        omega
      · show (k'.icache e).valid = true
        rw [hself]
        exact hev
    · refine ⟨e, ?_, (hinum e).trans hei, ?_⟩
      · show 0 < (k'.icache e).ref
        rw [hentry e he]
        exact he0
      · show (k'.icache e).valid = true
        rw [hentry e he]
        exact hev
  · show (k'.disk.dinode (k'.icache c).inum).type = .T_DIR
    rw [hd, hinum]
    exact hdir

/-- The inode of the entry is free. -/
theorem Orderly.free {x : Dinode} (h : Orderly sb k) (hf : Freed k k' ip x) (h0 : 0 < k.refs ip)
    (hv : (k.icache ip).valid = true) (hn : (k.icache ip).di.nlink = 0)
    (hflat : (k.disk.dinode (k.icache ip).inum).T_addr = 0) (hc : 0 < k'.refs c)
    (hdir : (k.disk.dinode (k.icache c).inum).type = .T_DIR) : Orderly sb { k' with cwd := c } := by
  obtain ⟨hne, hc0⟩ := hf.used hc
  have hcached := hf.cached h.cached h0
  refine orderly_of_fine ⟨hcached.refs, hcached.distinct, hcached.copy⟩ (hf.sound h h0 hv hn hflat)
    (hf.fine h) (hf.linked h) hc ?_ (hf.outside.trans h.outside)
  show (k'.disk.dinode (k'.icache c).inum).type = .T_DIR
  rw [hf.other c hne, hf.same h.cached h0 hc0 hne]
  exact hdir

/-- `iput`, when `c` is the current directory afterwards. -/
theorem iput_orderly (h : Orderly sb k) (h0 : 0 < k.refs ip)
    (hflat : (k.icache ip).valid = true → (k.icache ip).di.nlink = 0 → k.refs ip = 1 →
      (k.disk.dinode (k.icache ip).inum).T_addr = 0) (hr : iput ip k = .ok u k') (hc : 0 < k'.refs c)
    (hdir : (k.disk.dinode (k.icache c).inum).type = .T_DIR) :
    Orderly sb { k' with cwd := c } ∧ ∀ i, i ≠ ip → k'.icache i = k.icache i := by
  have hl := ((wp_iput ip).ok hr).1
  by_cases hfree : (k.icache ip).valid = true ∧ (k.icache ip).di.nlink = 0 ∧ (k.icache ip).ref = 1
  · obtain ⟨x, hf⟩ := iput_frees hl hfree (h.cached.copy ip h0 hfree.1).1 hr
    exact ⟨h.free hf h0 hfree.1 hfree.2.1 (hflat hfree.1 hfree.2.1 hfree.2.2) hc hdir, hf.other⟩
  · cases (iput_run hl hfree).symm.trans hr
    exact ⟨h.drop h0 hfree rfl hc hdir, fun i hi => setEntry_other hi _⟩

/-- `iunlockput`, which may free the inode. -/
theorem iunlockput_orderly (h : Orderly sb k)
    (hflat : (k.icache ip).valid = true → (k.icache ip).di.nlink = 0 → k.refs ip = 1 →
      (k.disk.dinode (k.icache ip).inum).T_addr = 0) (hr : iunlockput ip k = .ok u k')
    (hc : 0 < k'.refs k.cwd) :
    Orderly sb k' ∧ ∀ i, i ≠ ip → k'.icache i = k.icache i := by
  unfold iunlockput at hr
  obtain ⟨v, k₁, h1, hr⟩ := Lib.bind_ok hr
  obtain ⟨hl, h0, hm1, -⟩ := (wp_iunlock ip).ok h1
  have hs1 := iunlock_ok h.cached h1
  have ho1 : Orderly sb k₁ := hs1.dropped h hm1.refs hm1.kept hm1.cwd
  have hentry : ∀ i, i ≠ ip → k₁.icache i = k.icache i := by
    cases (iunlock_run hl h0).symm.trans h1
    exact fun i hi => setEntry_other hi _
  have hself : k₁.icache ip = { k.icache ip with locked := false } := by
    cases (iunlock_run hl h0).symm.trans h1
    rw [setEntry_self]
  have hm2 := ((wp_iput ip).ok hr).2
  have hcwd : k'.cwd = k.cwd := hm2.cwd.trans hm1.cwd
  have hcpos : 0 < k.refs k.cwd := h.cwd
  obtain ⟨ho2, hrest⟩ := iput_orderly ho1 (by rw [hm1.refs]; exact h0) (fun hv hn h1 => by
    rw [hself] at hv hn
    rw [hm1.refs] at h1
    rw [hs1.disk, hs1.inum ip h0]
    exact hflat hv hn h1) hr hc (by
      rw [hs1.disk, hs1.inum _ hcpos]
      exact h.cwdDir)
  rw [← hcwd] at ho2
  exact ⟨ho2, fun i hi => (hrest i hi).trans (hentry i hi)⟩

/-- `iunlockput` of an inode that stays. -/
theorem iunlockput_kept (h : Orderly sb k)
    (hkeep : (k.disk.dinode (k.icache ip).inum).nlink = 0 → 1 < k.refs ip)
    (hr : iunlockput ip k = .ok u k') (hc : 0 < k'.refs k.cwd) : Orderly sb k' ∧ Silent k k' := by
  obtain ⟨hl, h0, -⟩ := (wp_iunlockput ip).ok hr
  obtain ⟨k'', hrun, hs⟩ := iunlockput_silent h.cached hl h0 hkeep
  cases hrun.symm.trans hr
  refine ⟨(iunlockput_orderly h (fun hv hn h1 => ?_) hr hc).1, hs⟩
  rw [(h.cached.copy ip h0 hv).1] at hn
  have hmore := hkeep hn
  omega

end Release

end Xv6.File
