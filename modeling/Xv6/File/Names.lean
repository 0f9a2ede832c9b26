import Xv6.File.Contents
import Xv6.File.Link
import Mathlib.Data.Finset.Card

/- The names of the files, and what a lookup finds (`project3_filesystem/fs.c`).

   `NameSpace` is what a lookup depends on: the disk, the current directory, and the
   inodes for which an entry of `icache` is in use. In it a path, or a chain of symbolic
   links, is followed on the disk, without locks, references and copies of inodes.
   `Settled` is what the calls keep of the cache and the disk. In a settled state `namei`
   and a hop over a link find what the name space says and write nothing to the disk. They
   stop for one of two reasons only: the entries of the cache are all in use, or an inode
   on the way has been removed. -/
namespace Xv6.File

open Fs (Block BSIZE)

/-! ## Names on the disk -/

/-- The entries of directory `i`. -/
def dirents (d : Disk) (i : Nat) : List Dirent :=
  (List.range ((d.dinode i).size / 16)).map fun j =>
    dirent ((List.range 16).map fun x => byteAt d d.dinode i (16 * j + x))

/-- The inode that directory `i` has under a name: that of the first entry with it. -/
def lookup (d : Disk) (i : Nat) (name : List UInt8) : Option Nat :=
  ((dirents d i).find? fun de => de.inum ≠ 0 ∧ de.name = name).map (·.inum)

/-- The elements of a path, as many as there can be. -/
def elements : Nat → List UInt8 → List (List UInt8)
  | 0, _ => []
  | fuel + 1, path =>
    match skipelem path with
    | none => []
    | some (name, rest) => name :: elements fuel rest

/-- Where a path leads. `removed`: through an inode that is not there any more, which
`..` can name in a directory that was removed itself. -/
inductive Found where
  | inode (i : Nat)
  | missing
  | removed
  deriving DecidableEq

/-- The names one after the other, from inode `i` on. -/
def walk (d : Disk) : List (List UInt8) → Nat → Found
  | [], i => .inode i
  | name :: names, i =>
    if (d.dinode i).type = .none then .removed
    else if (d.dinode i).type ≠ .T_DIR then .missing
    else
      match lookup d i name with
      | none => .missing
      | some j => walk d names j

/-- The walk finds room in the cache: for each inode on it and the one before, next to
those that are in use. -/
def WalkRoom (d : Disk) (used : Finset Nat) : List (List UInt8) → Nat → Prop
  | [], _ => True
  | name :: names, i =>
    (d.dinode i).type = .T_DIR →
      match lookup d i name with
      | none => True
      | some j => (insert j (insert i used)).card ≤ NINODE ∧ WalkRoom d used names j

instance WalkRoom.decidable (d : Disk) (used : Finset Nat) : ∀ names i, Decidable (WalkRoom d used names i)
  | [], _ => inferInstanceAs (Decidable True)
  | name :: names, i =>
    have := WalkRoom.decidable d used names
    match h : lookup d i name with
    | none => decidable_of_iff True (by simp only [WalkRoom, h, implies_true])
    | some j => decidable_of_iff ((d.dinode i).type = .T_DIR →
        (insert j (insert i used)).card ≤ NINODE ∧ WalkRoom d used names j) (by simp only [WalkRoom, h])

/-- The path that is stored in a link. -/
def target (d : Disk) (i : Nat) : List UInt8 := (linkBytes (d.dinode i)).takeWhile (· ≠ 0)

/-- What a lookup depends on. -/
structure NameSpace where
  disk : Disk
  cwd : Nat
  used : Finset Nat

namespace NameSpace

def type (s : NameSpace) (i : Nat) : FileType := (s.disk.dinode i).type

/-- The inode a path starts at. -/
def start (s : NameSpace) (path : List UInt8) : Nat :=
  if path.head? = some slash then ROOTINO else s.cwd

def look (s : NameSpace) (path : List UInt8) : Found :=
  walk s.disk (elements (path.length + 1) path) (s.start path)

def Room (s : NameSpace) (path : List UInt8) : Prop :=
  (insert (s.start path) s.used).card ≤ NINODE ∧
    WalkRoom s.disk s.used (elements (path.length + 1) path) (s.start path)

instance (s : NameSpace) (path : List UInt8) : Decidable (s.Room path) :=
  inferInstanceAs (Decidable (_ ∧ _))

/-- Where a path leads if the inode it names is locked next. -/
def reach (s : NameSpace) (path : List UInt8) : Found :=
  match s.look path with
  | .inode i => if s.type i = .none then .removed else .inode i
  | f => f

def use (s : NameSpace) (i : Nat) : NameSpace := { s with used := insert i s.used }

/-- `n` links after one another, the first one in `i`, the last one naming `j`. -/
inductive Links (s : NameSpace) : Nat → Nat → Nat → Prop
  | here (i : Nat) : Links s 0 i i
  | hop {n i m j : Nat} (ht : s.type i = .T_SYM) (hm : s.reach (target s.disk i) = .inode m)
      (h : Links s n m j) : Links s (n + 1) i j

/-- There is room in the cache for the lookups of up to `left` links from `i` on. Each of
them leaves the inode it has found in use. -/
def RoomFor : Nat → NameSpace → Nat → Prop
  | 0, _, _ => True
  | left + 1, s, i =>
    s.type i = .T_SYM →
      s.Room (target s.disk i) ∧
        match s.reach (target s.disk i) with
        | .inode m => RoomFor left (s.use m) m
        | _ => True

instance RoomFor.decidable : ∀ left s i, Decidable (RoomFor left s i)
  | 0, _, _ => inferInstanceAs (Decidable True)
  | left + 1, s, i =>
    match h : s.reach (target s.disk i) with
    | .inode m =>
      have := RoomFor.decidable left (s.use m) m
      decidable_of_iff (s.type i = .T_SYM → s.Room (target s.disk i) ∧ RoomFor left (s.use m) m)
        (by simp only [RoomFor, h])
    | .missing => decidable_of_iff (s.type i = .T_SYM → s.Room (target s.disk i))
        (by simp only [RoomFor, h, and_true])
    | .removed => decidable_of_iff (s.type i = .T_SYM → s.Room (target s.disk i))
        (by simp only [RoomFor, h, and_true])

variable {s : NameSpace} {n e i j x : Nat}

@[simp] theorem use_disk (s : NameSpace) (i : Nat) : (s.use i).disk = s.disk := rfl

@[simp] theorem use_type (s : NameSpace) (i : Nat) : (s.use i).type = s.type := rfl

@[simp] theorem use_reach (s : NameSpace) (i : Nat) : (s.use i).reach = s.reach := rfl

/-- Chains do not depend on what is in use. -/
theorem Links.congr {s' : NameSpace} (h : Links s n i j) (hd : s'.disk = s.disk) (hc : s'.cwd = s.cwd) :
    Links s' n i j := by
  induction h with
  | here i => exact .here i
  | hop ht hm _ ih =>
    refine .hop ?_ ?_ ih
    · unfold type at ht ⊢
      rw [hd]
      exact ht
    · unfold reach look start type at hm ⊢
      rw [hd, hc]
      exact hm

theorem links_use (x : Nat) : Links (s.use x) n i j ↔ Links s n i j :=
  ⟨fun h => h.congr rfl rfl, fun h => h.congr rfl rfl⟩

/-- After the first link there is one less to follow. -/
theorem RoomFor.succ_iff (left : Nat) {m : Nat} (ht : s.type i = .T_SYM) (hroom : s.Room (target s.disk i))
    (hm : s.reach (target s.disk i) = .inode m) :
    RoomFor (left + 1) s i ↔ RoomFor left (s.use m) m := by
  refine ⟨fun h => ?_, fun h _ => ⟨hroom, ?_⟩⟩
  · have h2 := (h ht).2
    rw [hm] at h2
    exact h2
  · rw [hm]
    exact h

/-- The end of `n` links from `i` on. -/
def chainEnd (s : NameSpace) : Nat → Nat → Option Nat
  | 0, i => some i
  | n + 1, i =>
    if s.type i = .T_SYM then
      match s.reach (target s.disk i) with
      | .inode m => chainEnd s n m
      | _ => none
    else none

theorem links_iff : ∀ {n i : Nat}, Links s n i j ↔ s.chainEnd n i = some j := by
  intro n
  induction n with
  | zero =>
    intro i
    refine ⟨fun h => ?_, fun h => ?_⟩
    · cases h
      rfl
    · cases h
      exact .here _
  | succ n ih =>
    intro i
    unfold chainEnd
    refine ⟨fun h => ?_, fun h => ?_⟩
    · cases h with
      | hop ht hm h =>
        rw [if_pos ht, hm]
        exact ih.mp h
    · split_ifs at h with ht
      split at h
      · rename_i m hm
        exact .hop ht hm (ih.mpr h)
      · cases h

instance (s : NameSpace) (n i j : Nat) : Decidable (Links s n i j) := decidable_of_iff _ links_iff.symm

theorem Links.isLink (h : Links s (n + 1) i j) : s.type i = .T_SYM := by
  cases h with
  | hop ht => exact ht

/-- A chain goes on after `e` links. -/
theorem Links.drop (h : Links s (e + n) i j) (h' : Links s e i x) : Links s n x j := by
  induction h' with
  | here i =>
    rw [Nat.zero_add] at h
    exact h
  | hop _ hm _ ih =>
    rw [Nat.add_right_comm] at h
    cases h with
    | hop _ hm' h =>
      rw [hm] at hm'
      cases hm'
      exact ih h

theorem Links.split (h : Links s (e + n) i j) : ∃ x, Links s e i x ∧ Links s n x j := by
  induction e generalizing i with
  | zero =>
    rw [Nat.zero_add] at h
    exact ⟨i, .here i, h⟩
  | succ e ih =>
    rw [Nat.add_right_comm] at h
    cases h with
    | hop ht hm h =>
      obtain ⟨x, h1, h2⟩ := ih h
      exact ⟨x, .hop ht hm h1, h2⟩

/-- The chain to an inode that is no link has no other end. -/
theorem Links.unique (h : Links s n i j) (hj : s.type j ≠ .T_SYM) (h' : Links s e i x)
    (hx : s.type x ≠ .T_SYM) : n = e ∧ j = x := by
  rcases Nat.lt_trichotomy n e with hlt | rfl | hlt
  · obtain ⟨m, rfl⟩ : ∃ m, e = n + (m + 1) := ⟨e - n - 1, by omega⟩
    exact absurd (h'.drop h).isLink hj
  · have hrest := Links.drop (n := 0) h' h
    cases hrest with
    | here => exact ⟨rfl, rfl⟩
  · obtain ⟨m, rfl⟩ : ∃ m, n = e + (m + 1) := ⟨n - e - 1, by omega⟩
    exact absurd (h.drop h').isLink hx

end NameSpace


/-! ## Settled states -/

namespace Kernel

/-- The inodes for which an entry of the cache is in use. -/
def used (k : Kernel) : Finset Nat :=
  (Finset.univ.filter fun i => 0 < k.refs i).image fun i => (k.icache i).inum

def names (k : Kernel) : NameSpace :=
  { disk := k.disk, cwd := (k.icache k.cwd).inum, used := k.used }

end Kernel

/-- What the calls keep of the cache: an inode has one entry at most, and what is valid in
it is the inode on the disk. -/
structure Cached (k : Kernel) : Prop where
  refs : ∀ i, 0 ≤ k.refs i
  distinct : ∀ i j, 0 < k.refs i → 0 < k.refs j → (k.icache i).inum = (k.icache j).inum → i = j
  copy : ∀ i, 0 < k.refs i → (k.icache i).valid = true →
    (k.icache i).di = k.disk.dinode (k.icache i).inum ∧ (k.icache i).di.type ≠ .none

/-- What the calls keep, between any two of them. An inode that has lost its last name is in
use and has been read, a directory has whole entries, and the path of a link ends in the
inode. -/
structure Settled (sb : Superblock) (k : Kernel) : Prop where
  cached : Cached k
  sound : Sound sb k.disk k.disk.dinode
  entries : ∀ i, (k.disk.dinode i).type = .T_DIR → 16 ∣ (k.disk.dinode i).size
  linked : ∀ n, (k.disk.dinode n).type ≠ .none → (k.disk.dinode n).nlink = 0 →
    ∃ i, 0 < k.refs i ∧ (k.icache i).inum = n ∧ (k.icache i).valid = true
  paths : ∀ i, (k.disk.dinode i).type = .T_SYM → 0 ∈ linkBytes (k.disk.dinode i)
  cwd : 0 < k.refs k.cwd
  cwdDir : k.names.type k.names.cwd = .T_DIR
  outside : k.outside = []

/-- A call that leaves the disk as it is, and the entries that were in use to the same
inodes. -/
structure Silent (k k' : Kernel) : Prop where
  cached : Cached k'
  disk : k'.disk = k.disk
  outside : k'.outside = k.outside
  inum : ∀ i, 0 < k.refs i → (k'.icache i).inum = (k.icache i).inum

section Cache

variable {k k' k'' : Kernel} {ip j : Ino} {n : Nat}

theorem mem_used : n ∈ k.used ↔ ∃ i, 0 < k.refs i ∧ (k.icache i).inum = n := by
  unfold Kernel.used
  simp only [Finset.mem_image, Finset.mem_filter, Finset.mem_univ, true_and]

theorem Silent.refl (h : Cached k) : Silent k k := ⟨h, rfl, rfl, fun _ _ => rfl⟩

theorem Silent.trans (h : Silent k k') (h' : Silent k' k'') (hb : ∀ i, 0 < k.refs i → 0 < k'.refs i) :
    Silent k k'' :=
  ⟨h'.cached, h'.disk.trans h.disk, h'.outside.trans h.outside,
    fun i h0 => (h'.inum i (hb i h0)).trans (h.inum i h0)⟩

/-- With all entries in use there are as many inodes in use. -/
theorem Cached.card_used (h : Cached k) (hall : ∀ i, 0 < k.refs i) : k.used.card = NINODE := by
  unfold Kernel.used
  rw [Finset.card_image_of_injOn]
  · rw [Finset.filter_true_of_mem (fun i _ => hall i), Finset.card_univ, Fintype.card_fin]
  · intro i _ j _ he
    exact h.distinct i j (hall i) (hall j) he

theorem card_used_lt (h : ∃ i, k.refs i = 0) : k.used.card < NINODE := by
  obtain ⟨i, hi⟩ := h
  calc k.used.card ≤ (Finset.univ.filter fun i => 0 < k.refs i).card := Finset.card_image_le
    _ < (Finset.univ : Finset Ino).card := by
      refine Finset.card_lt_card (Finset.filter_ssubset.mpr ⟨i, Finset.mem_univ i, ?_⟩)
      rw [hi]
      exact lt_irrefl 0
    _ = NINODE := by rw [Finset.card_univ, Fintype.card_fin]

/-- There is an entry for `n`, or one that can be recycled. -/
theorem Cached.room_iff (h : Cached k) :
    (insert n k.used).card ≤ NINODE ↔ n ∈ k.used ∨ ∃ i, k.refs i = 0 := by
  by_cases hn : n ∈ k.used
  · rw [Finset.insert_eq_of_mem hn]
    refine ⟨fun _ => .inl hn, fun _ => ?_⟩
    calc k.used.card ≤ (Finset.univ.filter fun i => 0 < k.refs i).card := Finset.card_image_le
      _ ≤ (Finset.univ : Finset Ino).card := Finset.card_filter_le _ _
      _ = NINODE := by rw [Finset.card_univ, Fintype.card_fin]
  · rw [Finset.card_insert_of_notMem hn, or_iff_right hn]
    refine ⟨fun hle => ?_, fun hi => card_used_lt hi⟩
    by_contra hno
    rw [not_exists] at hno
    have hall : ∀ i, 0 < k.refs i := fun i => lt_of_le_of_ne (h.refs i) (Ne.symm (hno i))
    rw [h.card_used hall] at hle
    exact absurd hle (by decide)

/-- One entry is changed to `x`, for the same inode if it was in use, or for one that had
no entry. -/
theorem Cached.setEntry (h : Cached k) {x : Entry} (hr : 0 ≤ x.ref)
    (hi : 0 < x.ref → x.inum = (k.icache ip).inum ∧ 0 < k.refs ip ∨ x.inum ∉ k.used)
    (hv : 0 < x.ref → x.valid = true → x.di = k.disk.dinode x.inum ∧ x.di.type ≠ .none) :
    Cached (k.setEntry ip x) := by
  have hself : (k.setEntry ip x).refs ip = x.ref := by
    rw [refs_setEntry, Function.update_self]
  have hother : ∀ i, i ≠ ip → (k.setEntry ip x).refs i = k.refs i := fun i hne => by
    rw [refs_setEntry, Function.update_of_ne hne]
  -- another entry in use is not for the inode of `x`
  have hne : ∀ i, i ≠ ip → 0 < k.refs i → 0 < x.ref → (k.icache i).inum ≠ x.inum := by
    intro i hne h0 hx he
    rcases hi hx with ⟨hsame, hip⟩ | hnew
    · exact hne (h.distinct i ip h0 hip (he.trans hsame))
    · exact hnew (mem_used.mpr ⟨i, h0, he⟩)
  refine ⟨fun i => ?_, fun i j h1 h2 he => ?_, fun i h0 hval => ?_⟩
  · by_cases hip : i = ip
    · rw [hip, hself]
      exact hr
    · rw [hother i hip]
      exact h.refs i
  · by_cases hi' : i = ip
    · by_cases hj : j = ip
      · rw [hi', hj]
      · subst hi'
        rw [setEntry_self, setEntry_other hj] at he
        rw [hself] at h1
        rw [hother j hj] at h2
        exact absurd he.symm (hne j hj h2 h1)
    · by_cases hj : j = ip
      · subst hj
        rw [setEntry_self, setEntry_other hi'] at he
        rw [hself] at h2
        rw [hother i hi'] at h1
        exact absurd he (hne i hi' h1 h2)
      · rw [setEntry_other hi', setEntry_other hj] at he
        rw [hother i hi'] at h1
        rw [hother j hj] at h2
        exact h.distinct i j h1 h2 he
  · by_cases hip : i = ip
    · subst hip
      rw [setEntry_self] at hval ⊢
      rw [hself] at h0
      exact hv h0 hval
    · rw [setEntry_other hip] at hval ⊢
      rw [hother i hip] at h0
      exact h.copy i h0 hval

/-- The entry stays with its inode. -/
theorem Cached.silent_setEntry (h : Cached k) {x : Entry} (hr : 0 ≤ x.ref) (h0 : 0 < k.refs ip)
    (hi : x.inum = (k.icache ip).inum)
    (hv : 0 < x.ref → x.valid = true → x.di = k.disk.dinode x.inum ∧ x.di.type ≠ .none) :
    Silent k (k.setEntry ip x) := by
  refine ⟨h.setEntry hr (fun _ => .inl ⟨hi, h0⟩) hv, rfl, rfl, fun i _ => ?_⟩
  by_cases hip : i = ip
  · subst hip
    rw [setEntry_self]
    exact hi
  · rw [setEntry_other hip]

/-! ## The cache -/

theorem iget_room (h : Cached k) (hroom : (insert n k.used).card ≤ NINODE) :
    ∃ j k', iget n k = .ok j k' ∧ Silent k k' ∧ (k'.icache j).inum = n := by
  unfold iget
  cases h1 : (List.finRange NINODE).find? (fun i => (k.icache i).ref > 0 ∧ (k.icache i).inum = n) with
  | some i =>
    have hi : 0 < (k.icache i).ref ∧ (k.icache i).inum = n := by simpa using List.find?_some h1
    refine ⟨i, _, rfl, h.silent_setEntry ?_ hi.1 rfl (fun _ hv => h.copy i hi.1 hv), ?_⟩
    · have h0 := h.refs i
      show 0 ≤ k.refs i + 1
      omega
    · rw [setEntry_self]
      exact hi.2
  | none =>
    have hnot : n ∉ k.used := by
      intro hm
      obtain ⟨i, h0, hi⟩ := mem_used.mp hm
      have := List.find?_eq_none.mp h1 i (List.mem_finRange i)
      exact this (by simpa using ⟨h0, hi⟩)
    cases h2 : (List.finRange NINODE).find? (fun i => (k.icache i).ref = 0) with
    | none =>
      obtain ⟨i, hi⟩ := (h.room_iff.mp hroom).resolve_left hnot
      have := List.find?_eq_none.mp h2 i (List.mem_finRange i)
      exact absurd (decide_eq_true hi) this
    | some i =>
      have h0 : (k.icache i).ref = 0 := by simpa using List.find?_some h2
      have h0 : k.refs i = 0 := h0
      refine ⟨i, _, rfl, ⟨h.setEntry ?_ (fun _ => .inr hnot) ?_, rfl, rfl, fun x hx => ?_⟩, ?_⟩
      · exact Int.one_nonneg
      · exact fun _ hv => absurd hv Bool.false_ne_true
      · have hne : x ≠ i := by
          rintro rfl
          rw [h0] at hx
          exact absurd hx (lt_irrefl 0)
        rw [setEntry_other hne]
      · rw [setEntry_self]

theorem iget_full (h : Cached k) (hfull : ¬ (insert n k.used).card ≤ NINODE) :
    iget n k = .error (.panic "iget: no inodes") k := by
  rw [h.room_iff, not_or, not_exists] at hfull
  obtain ⟨hnot, hno⟩ := hfull
  have h1 : (List.finRange NINODE).find? (fun i => (k.icache i).ref > 0 ∧ (k.icache i).inum = n) =
      none := by
    refine List.find?_eq_none.mpr (fun i _ hi => hnot (mem_used.mpr ⟨i, ?_⟩))
    exact of_decide_eq_true hi
  have h2 : (List.finRange NINODE).find? (fun i => (k.icache i).ref = 0) = none := by
    refine List.find?_eq_none.mpr (fun i _ hi => hno i ?_)
    exact of_decide_eq_true hi
  unfold iget
  rw [h1, h2]

theorem idup_silent (h : Cached k) (h0 : 0 < k.refs ip) :
    ∃ k', idup ip k = .ok ip k' ∧ Silent k k' := by
  refine ⟨_, rfl, h.silent_setEntry ?_ h0 rfl (fun _ hv => h.copy ip h0 hv)⟩
  show 0 ≤ k.refs ip + 1
  omega

theorem iunlock_silent (h : Cached k) (hl : k.locks ip = true) (h0 : 0 < k.refs ip) :
    ∃ k', iunlock ip k = .ok () k' ∧ Silent k k' :=
  ⟨_, iunlock_run hl h0, h.silent_setEntry (h.refs ip) h0 rfl (fun _ hv => h.copy ip h0 hv)⟩

theorem setEntry_setEntry (x y : Entry) : (k.setEntry ip x).setEntry ip y = k.setEntry ip y := by
  unfold Kernel.setEntry
  simp only [Function.update_idem]

/-- The entry is locked and has been read from the disk. -/
def Kernel.loaded (k : Kernel) (ip : Ino) : Kernel :=
  k.setEntry ip { k.icache ip with
    locked := true, valid := true, di := k.disk.dinode (k.icache ip).inum }

/-- `ilock` of an entry that has not been read yet. -/
theorem ilock_load (hl : k.locks ip = false) (h0 : 0 < k.refs ip)
    (hv : ¬ (k.icache ip).valid = true) : ilock ip k =
      (if (k.disk.dinode (k.icache ip).inum).type = .none then panic "ilock: no type" else pure ())
        (k.loaded ip) := by
  have hacq : acquire ip k = .ok () (k.setEntry ip { k.icache ip with locked := true }) := by
    unfold acquire
    have hl' : ¬ (k.icache ip).locked = true := by
      have hl' : (k.icache ip).locked = false := hl
      simp only [hl', Bool.false_eq_true, not_false_eq_true]
    exact if_neg hl'
  have hr' : ¬ (k.icache ip).ref < 1 := by
    have h1 : 0 < (k.icache ip).ref := h0
    omega
  have hv' : ((k.setEntry ip { k.icache ip with locked := true }).icache ip).valid = false := by
    rw [setEntry_self]
    exact Bool.eq_false_iff.mpr hv
  unfold ilock
  rw [run_get]
  simp only [if_neg hr']
  rw [Lib.run_bind hacq, run_get, if_pos hv']
  simp only [setEntry_self]
  rw [setEntry_setEntry]
  rfl

/-- `ilock` of an inode that is there. -/
theorem ilock_silent (h : Cached k) (hl : k.locks ip = false) (h0 : 0 < k.refs ip)
    (ht : (k.disk.dinode (k.icache ip).inum).type ≠ .none) :
    ∃ k', ilock ip k = .ok () k' ∧ Silent k k' ∧
      (k'.icache ip).di = k.disk.dinode (k.icache ip).inum := by
  by_cases hv : (k.icache ip).valid = true
  · refine ⟨_, ilock_run hl h0 hv, h.silent_setEntry (h.refs ip) h0 rfl (fun _ hv => h.copy ip h0 hv), ?_⟩
    rw [setEntry_self]
    exact (h.copy ip h0 hv).1
  · refine ⟨k.loaded ip, ?_, h.silent_setEntry (h.refs ip) h0 rfl (fun _ _ => ⟨rfl, ht⟩), ?_⟩
    · rw [ilock_load hl h0 hv, if_neg ht]
      rfl
    · unfold Kernel.loaded
      rw [setEntry_self]

/-- `ilock` of an inode that has been removed. -/
theorem ilock_removed (h : Cached k) (hl : k.locks ip = false) (h0 : 0 < k.refs ip)
    (ht : (k.disk.dinode (k.icache ip).inum).type = .none) :
    ∃ k', ilock ip k = .error (.panic "ilock: no type") k' := by
  have hv : ¬ (k.icache ip).valid = true := by
    intro hv
    obtain ⟨hdi, hne⟩ := h.copy ip h0 hv
    rw [hdi] at hne
    exact hne ht
  refine ⟨k.loaded ip, ?_⟩
  rw [ilock_load hl h0 hv, if_pos ht]
  rfl

/-- `iput` that frees nothing. -/
theorem iput_run (hl : k.locks ip = false)
    (hno : ¬ ((k.icache ip).valid = true ∧ (k.icache ip).di.nlink = 0 ∧ (k.icache ip).ref = 1)) :
    iput ip k = .ok () (k.setEntry ip { k.icache ip with ref := (k.icache ip).ref - 1 }) := by
  have hacq : acquire ip k = .ok () (k.setEntry ip { k.icache ip with locked := true }) := by
    unfold acquire
    have hl' : ¬ (k.icache ip).locked = true := by
      have hl' : (k.icache ip).locked = false := hl
      simp only [hl', Bool.false_eq_true, not_false_eq_true]
    exact if_neg hl'
  have hlock : (k.icache ip).locked = false := hl
  unfold iput
  rw [Lib.run_bind hacq, run_get]
  simp only [setEntry_self, if_neg hno]
  show EStateM.Result.ok () (Kernel.setEntry (Kernel.setEntry _ ip _) ip _) = _
  simp only [setEntry_self, setEntry_setEntry, ← hlock]

/-- `iput` of an inode that has a name or is in use elsewhere, or has not been read. -/
theorem iput_silent (h : Cached k) (hl : k.locks ip = false) (h0 : 0 < k.refs ip)
    (hkeep : (k.icache ip).valid = true → (k.disk.dinode (k.icache ip).inum).nlink = 0 → 1 < k.refs ip) :
    ∃ k', iput ip k = .ok () k' ∧ Silent k k' := by
  refine ⟨_, iput_run hl ?_, h.silent_setEntry ?_ h0 rfl (fun _ hv => h.copy ip h0 hv)⟩
  · rintro ⟨hv, hn, hone⟩
    rw [(h.copy ip h0 hv).1] at hn
    have h1 : 1 < (k.icache ip).ref := hkeep hv hn
    omega
  · have h1 : 0 < (k.icache ip).ref := h0
    show 0 ≤ (k.icache ip).ref - 1
    omega

end Cache


/-! ## Directories -/

theorem onDisk_ok {α : Type} {x : FsM α} {k : Kernel} {a : α} {d : Disk} (h : x k.disk = .ok a d) :
    onDisk x k = .ok a { k with disk := d } := by
  unfold onDisk
  rw [h]

theorem onDisk_error {α : Type} {x : FsM α} {k : Kernel} {msg : String} {d : Disk}
    (h : x k.disk = .error msg d) : onDisk x k = .error (.panic msg) { k with disk := d } := by
  unfold onDisk
  rw [h]

section Directory

variable {sb : Superblock} {k : Kernel} {dp : Ino} {off : Nat} {name : List UInt8}

/-- The entry is a copy of a directory. -/
structure DirCopy (k : Kernel) (dp : Ino) : Prop where
  copy : (k.icache dp).di = k.disk.dinode (k.icache dp).inum
  dir : (k.icache dp).di.type = .T_DIR

theorem readiFile_entry {d : Disk} (h : Sound sb d d.dinode) {x : Inode}
    (hf : d.dinode x.inum = x.toDinode) (ht : x.type = .T_DIR) (ho : off + 16 ≤ x.size) :
    readiFile sb x (UInt32.ofNat off) 16 d =
      .ok (16, x, (List.range 16).map fun o => byteAt d d.dinode x.inum (off + o)) d := by
  have hfile : x.isFile := .inr ht
  have hsize : x.size ≤ MAXFILE * BSIZE := by
    have hle := h.size_le (hf ▸ hfile)
    rw [hf] at hle
    exact hle
  have hmax : MAXFILE * BSIZE = 1082201088 := rfl
  have hoff : (UInt32.ofNat off).toNat = off := by
    rw [UInt32.toNat_ofNat']
    omega
  have hn : (16 : UInt32).toNat = 16 := rfl
  rw [h.readiFile x hf hfile (UInt32.ofNat off) 16, hoff, hn, if_pos ⟨by omega, by omega⟩,
    Nat.min_eq_left (by omega)]
  rfl

/-- What `readFile` does with the inode. -/
def readPart (sb : Superblock) (off n : UInt32) (x : Inode) : FsM ((Int × List UInt8) × Inode) := do
  let (r, x, bs) ← readiFile sb x off n
  return ((r, bs), x)

theorem readDirent_run (h : Sound sb k.disk k.disk.dinode) (hdp : DirCopy k dp)
    (ho : off + 16 ≤ (k.icache dp).di.size) : readDirent sb dp off k =
      .ok (some (dirent ((List.range 16).map fun o =>
        byteAt k.disk k.disk.dinode (k.icache dp).inum (off + o)))) k := by
  have hread := readiFile_entry h (x := { (k.icache dp).di with inum := (k.icache dp).inum })
    hdp.copy.symm hdp.dir ho
  have hd : onDisk (readPart sb (UInt32.ofNat off) 16 { (k.icache dp).di with inum := (k.icache dp).inum }) k =
      .ok ((16, (List.range 16).map fun o =>
        byteAt k.disk k.disk.dinode (k.icache dp).inum (off + o)),
        { (k.icache dp).di with inum := (k.icache dp).inum }) k := by
    exact onDisk_ok (Lib.run_bind hread)
  have hrun : onInode dp (readPart sb (UInt32.ofNat off) 16) k = .ok (16, (List.range 16).map fun o =>
        byteAt k.disk k.disk.dinode (k.icache dp).inum (off + o)) k := by
    unfold onInode
    rw [run_get, Lib.run_bind hd]
    show EStateM.Result.ok _ (k.setEntry dp (k.icache dp)) = _
    unfold Kernel.setEntry
    rw [Function.update_eq_self]
  exact (Lib.run_bind hrun).trans rfl

/-- The loop of `dirlookup` at an entry. -/
theorem dirlookupLoop_entry (name : List UInt8) (fuel : Nat) {de : Dirent}
    (hoff : off < (k.icache dp).di.size) (hread : readDirent sb dp off k = .ok (some de) k) :
    dirlookupLoop sb dp name (fuel + 1) off k =
      (if de.inum ≠ 0 ∧ de.name = name then iget de.inum >>= fun i => pure (some (i, off))
        else dirlookupLoop sb dp name fuel (off + 16) : KM (Option (Ino × Nat))) k := by
  conv_lhs => unfold dirlookupLoop
  rw [run_get, if_pos hoff, Lib.run_bind hread]

/-- What `dirlookup` in the directory `dp` does when it has found an entry, or none. -/
def Finds (k : Kernel) (dp : Ino) (run : KM (Option (Ino × Nat))) : Option Nat → Prop
  | none => run k = .ok none k
  | some i => ∃ o, 16 ∣ o ∧ o < (k.icache dp).di.size ∧
      run k = (iget i >>= fun j => pure (some (j, o))) k

theorem length_dirents (d : Disk) (i : Nat) : (dirents d i).length = (d.dinode i).size / 16 := by
  unfold dirents
  rw [List.length_map, List.length_range]

theorem dirlookupLoop_run (name : List UInt8) (h : Sound sb k.disk k.disk.dinode) (hdp : DirCopy k dp)
    (h16 : 16 ∣ (k.icache dp).di.size) : ∀ fuel m, fuel + m = (k.icache dp).di.size / 16 + 1 →
      Finds k dp (dirlookupLoop sb dp name fuel (16 * m))
        ((((dirents k.disk (k.icache dp).inum).drop m).find?
          fun de => de.inum ≠ 0 ∧ de.name = name).map (·.inum)) := by
  intro fuel
  have hlen : (dirents k.disk (k.icache dp).inum).length = (k.icache dp).di.size / 16 := by
    rw [length_dirents, hdp.copy]
  induction fuel with
  | zero =>
    intro m hm
    rw [List.drop_eq_nil_of_le (by omega)]
    rfl
  | succ fuel ih =>
    intro m hm
    by_cases hlt : 16 * m < (k.icache dp).di.size
    · have hm' : m < (dirents k.disk (k.icache dp).inum).length := by omega
      have hentry : (dirents k.disk (k.icache dp).inum)[m] = dirent ((List.range 16).map fun x =>
          byteAt k.disk k.disk.dinode (k.icache dp).inum (16 * m + x)) := by
        simp only [dirents, List.getElem_map, List.getElem_range]
      have hread : readDirent sb dp (16 * m) k = _ := readDirent_run h hdp (by omega)
      rw [← hentry] at hread
      have hrun := dirlookupLoop_entry name fuel hlt hread
      rw [List.drop_eq_getElem_cons hm']
      by_cases hde : (dirents k.disk (k.icache dp).inum)[m].inum ≠ 0 ∧
          (dirents k.disk (k.icache dp).inum)[m].name = name
      · rw [List.find?_cons_of_pos (by simpa using hde)]
        rw [if_pos hde] at hrun
        exact ⟨16 * m, Nat.dvd_mul_right 16 m, hlt, hrun⟩
      · rw [List.find?_cons_of_neg (by simpa using hde)]
        have hnext := ih (m + 1) (by omega)
        rw [if_neg hde] at hrun
        revert hnext
        cases ((dirents k.disk (k.icache dp).inum).drop (m + 1)).find?
            (fun de => de.inum ≠ 0 ∧ de.name = name) with
        | none => exact fun hnext => hrun.trans hnext
        | some de =>
          rintro ⟨o, h16, hlt, ho⟩
          exact ⟨o, h16, hlt, hrun.trans ho⟩
    · rw [List.drop_eq_nil_of_le (by omega)]
      unfold dirlookupLoop
      exact (congrFun (if_neg hlt) k).trans rfl

theorem dirlookup_run (name : List UInt8) (h : Sound sb k.disk k.disk.dinode) (hdp : DirCopy k dp)
    (h16 : 16 ∣ (k.icache dp).di.size) :
    Finds k dp (dirlookup sb dp name) (lookup k.disk (k.icache dp).inum name) := by
  have hrun : dirlookup sb dp name k =
      dirlookupLoop sb dp name ((k.icache dp).di.size / 16 + 1) (16 * 0) k := by
    unfold dirlookup
    rw [run_get]
    simp only [hdp.dir, ne_eq, not_true_eq_false, if_false]
  have hloop := dirlookupLoop_run name h hdp h16 _ 0 rfl
  rw [List.drop_zero] at hloop
  unfold lookup
  revert hloop
  cases ((dirents k.disk (k.icache dp).inum).find?
      (fun de => de.inum ≠ 0 ∧ de.name = name)) with
  | none => exact fun hloop => hrun.trans hloop
  | some de =>
    rintro ⟨o, h16, hlt, ho⟩
    exact ⟨o, h16, hlt, hrun.trans ho⟩

end Directory


/-! ## Paths -/

theorem wp_run {α β : Type} {x : KM α} {f : α → KM β} {Q : β → Kernel → Prop}
    {E : Fault → Kernel → Prop} {k k' : Kernel} {a : α} (h : x k = .ok a k')
    (h' : Lib.wp (f a) Q E k') : Lib.wp (x >>= f) Q E k := by
  unfold Lib.wp
  rw [Lib.run_bind h]
  exact h'

theorem wp_run_error {α β : Type} {x : KM α} {f : α → KM β} {Q : β → Kernel → Prop}
    {E : Fault → Kernel → Prop} {k k' : Kernel} {e : Fault} (h : x k = .error e k')
    (h' : E e k') : Lib.wp (x >>= f) Q E k := by
  unfold Lib.wp
  simp only [bind, EStateM.bind, h]
  exact h'

/-- A lookup from `k₀` has come to `o`, where it holds one reference. -/
structure Walked (k₀ k : Kernel) (o : Option Ino) : Prop where
  looked : Looked k₀ k o
  silent : Silent k₀ k

/-- What a lookup has found, as the name space says it. -/
def Kernel.found (k : Kernel) : Option Ino → Found
  | none => .missing
  | some i => .inode (k.icache i).inum

/-- The two reasons for which a lookup stops the kernel. -/
def Stops (fits : Prop) (f : Found) (e : Fault) : Prop :=
  ¬ fits ∧ e = .panic "iget: no inodes" ∨ fits ∧ f = .removed ∧ e = .panic "ilock: no type"

section Walk

variable {sb : Superblock} {k₀ k k' : Kernel} {ip j : Ino} {o : Option Ino}

theorem Looked.le (h : Looked k₀ k o) (i : Ino) : k₀.refs i ≤ k.refs i := by
  rw [h.refs]
  exact le_found k₀.refs o i

theorem Looked.pos (h : Looked k₀ k (some ip)) (hc : Cached k₀) : 0 < k.refs ip := by
  have h0 := hc.refs ip
  rw [h.refs]
  show 0 < Function.update k₀.refs ip (k₀.refs ip + 1) ip
  rw [Function.update_self]
  omega

/-- The inodes in use, and the one the lookup has come to. -/
theorem used_of_refs (hc : Cached k₀) (hr : k.refs = found k₀.refs (some ip)) (hs : Silent k₀ k) :
    k.used = insert (k.icache ip).inum k₀.used := by
  have hip : 0 < k.refs ip := by
    have h0 := hc.refs ip
    rw [hr]
    show 0 < Function.update k₀.refs ip (k₀.refs ip + 1) ip
    rw [Function.update_self]
    omega
  ext n
  rw [Finset.mem_insert, mem_used, mem_used]
  constructor
  · rintro ⟨i, h0, hn⟩
    by_cases hi : i = ip
    · exact .inl (by rw [← hn, hi])
    · have h0' : 0 < k₀.refs i := by
        rw [hr] at h0
        exact (Function.update_of_ne hi _ k₀.refs).symm ▸ h0
      exact .inr ⟨i, h0', by rw [← hs.inum i h0', hn]⟩
  · rintro (rfl | ⟨i, h0, hn⟩)
    · exact ⟨ip, hip, rfl⟩
    · have hle : k₀.refs i ≤ k.refs i := by
        rw [hr]
        exact le_found k₀.refs _ i
      exact ⟨i, lt_of_lt_of_le h0 hle, by rw [hs.inum i h0, hn]⟩

/-- An inode without a name is referred to by somebody else too. -/
theorem Walked.shared (hs : Settled sb k₀) (h : Walked k₀ k (some ip))
    (ht : (k₀.disk.dinode (k.icache ip).inum).type ≠ .none)
    (hn : (k₀.disk.dinode (k.icache ip).inum).nlink = 0) : 1 < k.refs ip := by
  obtain ⟨i, h0, hi, -⟩ := hs.linked _ ht hn
  have hi1 : 0 < k.refs i := lt_of_lt_of_le h0 (h.looked.le i)
  have hip := h.silent.cached.distinct i ip hi1 (h.looked.pos hs.cached)
    ((h.silent.inum i h0).trans hi)
  subst hip
  have hr : k.refs i = Function.update k₀.refs i (k₀.refs i + 1) i := congrFun h.looked.refs i
  rw [Function.update_self] at hr
  omega

theorem iunlockput_silent (h : Cached k) (hl : k.locks ip = true) (h0 : 0 < k.refs ip)
    (hkeep : (k.disk.dinode (k.icache ip).inum).nlink = 0 → 1 < k.refs ip) :
    ∃ k', iunlockput ip k = .ok () k' ∧ Silent k k' := by
  obtain ⟨k₁, h1, hs1⟩ := iunlock_silent h hl h0
  obtain ⟨-, -, hm, -⟩ := (wp_iunlock (k := k) ip).ok h1
  have hl1 : k₁.locks ip = false := by rw [hm.locks, Function.update_self]
  have h01 : 0 < k₁.refs ip := by rw [hm.refs]; exact h0
  obtain ⟨k₂, h2, hs2⟩ := iput_silent hs1.cached hl1 h01 (fun _ hn => by
    rw [hs1.disk, hs1.inum ip h0] at hn
    rw [hm.refs]
    exact hkeep hn)
  exact ⟨k₂, (Lib.run_bind h1).trans h2, hs1.trans hs2 (fun i hi => by rw [hm.refs]; exact hi)⟩

/-- A lookup from `k₀` that has come to `ip` in `k` has its lock. -/
structure Inside (k₀ k k₁ : Kernel) (ip : Ino) : Prop where
  walked : Walked k₀ k (some ip)
  free : k.locks ip = false
  taken : Moved k k₁ (Function.update k.locks ip true) k.refs
  silent : Silent k₀ k₁
  inum : (k₁.icache ip).inum = (k.icache ip).inum
  copy : (k₁.icache ip).di = k₀.disk.dinode (k.icache ip).inum
  keep : (k₀.disk.dinode (k.icache ip).inum).nlink = 0 → 1 < k₁.refs ip

/-- `ilock`, unless the inode is not there any more. -/
theorem Walked.ilock (hs : Settled sb k₀) (hfree : ∀ i, k₀.locks i = false) (h : Walked k₀ k (some ip))
    (ht : (k₀.disk.dinode (k.icache ip).inum).type ≠ .none) :
    ∃ k₁, Xv6.File.ilock ip k = .ok () k₁ ∧ Inside k₀ k k₁ ip := by
  have h0 := h.looked.pos hs.cached
  have hl : k.locks ip = false := by
    rw [h.looked.locks]
    exact hfree ip
  have hd := h.silent.disk
  obtain ⟨k₁, h1, hs1, hdi⟩ := ilock_silent h.silent.cached hl h0 (by rwa [hd])
  obtain ⟨-, -, hm1, -⟩ := (wp_ilock (k := k) ip).ok h1
  refine ⟨k₁, h1, h, hl, hm1, ?_, hs1.inum ip h0, hd ▸ hdi, fun hn => ?_⟩
  · exact h.silent.trans hs1 fun i hi => lt_of_lt_of_le hi (h.looked.le i)
  · rw [hm1.refs]
    exact h.shared hs ht hn

namespace Inside

variable {k₁ k₂ : Kernel}

theorem held (h : Inside k₀ k k₁ ip) : k₁.locks ip = true := by
  rw [h.taken.locks, Function.update_self]

theorem le (h : Inside k₀ k k₁ ip) (i : Ino) : k₀.refs i ≤ k₁.refs i := by
  rw [h.taken.refs]
  exact h.walked.looked.le i

theorem pos (h : Inside k₀ k k₁ ip) (hc : Cached k₀) : 0 < k₁.refs ip := by
  rw [h.taken.refs]
  exact h.walked.looked.pos hc

/-- `iunlockput`, when the lookup goes on to `o` or ends. -/
theorem leave (h : Inside k₀ k k₁ ip) (hc : Cached k₀) (hm : Looked k₁ k₂ o) (hs : Silent k₁ k₂) :
    ∃ k₃, iunlockput ip k₂ = .ok () k₃ ∧ Walked k₀ k₃ o ∧ Silent k₂ k₃ := by
  have h0 := h.pos hc
  obtain ⟨k₃, h3, hs3⟩ := iunlockput_silent hs.cached (by rw [hm.locks]; exact h.held)
    (lt_of_lt_of_le h0 (hm.le ip)) (fun hn => by
      rw [hs.disk, h.silent.disk, hs.inum ip h0, h.inum] at hn
      exact lt_of_lt_of_le (h.keep hn) (hm.le ip))
  refine ⟨k₃, h3, ⟨?_, ?_⟩, hs3⟩
  · exact h.walked.looked.round h.free h.taken hm ((wp_iunlockput (k := k₂) ip).ok h3).2.2
  · exact (h.silent.trans hs fun i hi => lt_of_lt_of_le hi (h.le i)).trans hs3
      fun i hi => lt_of_lt_of_le hi ((h.le i).trans (hm.le i))

theorem used (h : Inside k₀ k k₁ ip) (hc : Cached k₀) :
    k₁.used = insert (k.icache ip).inum k₀.used := by
  rw [used_of_refs hc (h.taken.refs.trans h.walked.looked.refs) h.silent, h.inum]

/-- `dirlookup` finds what is in the directory on the disk. -/
theorem finds (h : Inside k₀ k k₁ ip) (hs : Settled sb k₀) (name : List UInt8)
    (hdir : (k₀.disk.dinode (k.icache ip).inum).type = .T_DIR) :
    Finds k₁ ip (dirlookup sb ip name) (lookup k₀.disk (k.icache ip).inum name) := by
  have hd := h.silent.disk
  have hcopy : DirCopy k₁ ip := ⟨by rw [h.copy, hd, h.inum], by rw [h.copy]; exact hdir⟩
  have hfind := dirlookup_run name (hd ▸ hs.sound) hcopy (by
    rw [h.copy]
    exact hs.entries _ hdir)
  rwa [hd, h.inum] at hfind

/-- The way on to an entry. -/
theorem enter (h : Inside k₀ k k₁ ip) (hc : Cached k₀) {run : KM (Option (Ino × Nat))} {m : Nat}
    (hfind : Finds k₁ ip run (some m))
    (hroom : (insert m (insert (k.icache ip).inum k₀.used)).card ≤ NINODE) :
    ∃ j a k₂ k₃, run k₁ = .ok (some (j, a)) k₂ ∧ iunlockput ip k₂ = .ok () k₃ ∧
      Walked k₀ k₃ (some j) ∧ (k₃.icache j).inum = m := by
  obtain ⟨a, -, -, hrun⟩ := hfind
  obtain ⟨j, k₂, h2, hs2, hj⟩ := iget_room (n := m) h.silent.cached (by rwa [h.used hc])
  have hm2 : Looked k₁ k₂ (some j) := ((wp_iget (k := k₁) m).ok h2).1
  obtain ⟨k₃, h3, hw3, hs3⟩ := h.leave hc hm2 hs2
  refine ⟨j, a, k₂, k₃, ?_, h3, hw3, ?_⟩
  · rw [hrun, Lib.run_bind h2]
    rfl
  · rw [hs3.inum j (hm2.pos h.silent.cached), hj]

theorem enter_full (h : Inside k₀ k k₁ ip) (hc : Cached k₀) {run : KM (Option (Ino × Nat))} {m : Nat}
    (hfind : Finds k₁ ip run (some m))
    (hfull : ¬ (insert m (insert (k.icache ip).inum k₀.used)).card ≤ NINODE) :
    run k₁ = .error (.panic "iget: no inodes") k₁ := by
  obtain ⟨a, -, -, hrun⟩ := hfind
  rw [hrun]
  simp only [bind, EStateM.bind, iget_full h.silent.cached (by rwa [h.used hc])]

end Inside

/-- The loop of `namex` walks as the name space says. -/
theorem wp_namexLoop_names (hs : Settled sb k₀) (hfree : ∀ i, k₀.locks i = false) (fuel : Nat) :
    ∀ (path : List UInt8) (ip : Ino) (k : Kernel), Walked k₀ k (some ip) →
      Lib.wp (namexLoop sb false fuel path ip)
        (fun r k' => Walked k₀ k' (r.map (·.1)) ∧
          WalkRoom k₀.disk k₀.used (elements fuel path) (k.icache ip).inum ∧
          walk k₀.disk (elements fuel path) (k.icache ip).inum = k'.found (r.map (·.1)))
        (fun e _ => Stops (WalkRoom k₀.disk k₀.used (elements fuel path) (k.icache ip).inum)
          (walk k₀.disk (elements fuel path) (k.icache ip).inum) e) k := by
  induction fuel with
  | zero => exact fun path ip k h => ⟨h, trivial, rfl⟩
  | succ fuel ih =>
    intro path ip k h
    unfold namexLoop elements
    cases hsk : skipelem path with
    | none => exact ⟨h, trivial, rfl⟩
    | some nr =>
      obtain ⟨name, rest⟩ := nr
      unfold WalkRoom walk
      by_cases ht : (k₀.disk.dinode (k.icache ip).inum).type = .none
      · -- the inode is not there any more
        have hl : k.locks ip = false := by
          rw [h.looked.locks]
          exact hfree ip
        obtain ⟨k₁, h1⟩ := ilock_removed h.silent.cached hl (h.looked.pos hs.cached)
          (by rw [h.silent.disk]; exact ht)
        refine wp_run_error h1 (.inr ⟨fun hdir => ?_, ?_, rfl⟩)
        · rw [ht] at hdir
          exact absurd hdir (by decide)
        · rw [if_pos ht]
      · rw [if_neg ht]
        obtain ⟨k₁, h1, hin⟩ := h.ilock hs hfree ht
        have htype : k₁.type ip = (k₀.disk.dinode (k.icache ip).inum).type := congrArg Dinode.type hin.copy
        refine wp_run h1 (Lib.wp_get ?_)
        rw [htype]
        by_cases hdir : (k₀.disk.dinode (k.icache ip).inum).type = .T_DIR
        · rw [if_neg (not_not.mpr hdir), if_neg (not_not.mpr hdir)]
          simp only [Bool.false_eq_true, false_and, if_false]
          have hfind := hin.finds hs name hdir
          revert hfind
          cases lookup k₀.disk (k.icache ip).inum name with
          | none =>
            intro hfind
            obtain ⟨k₂, h2, hw2, -⟩ := hin.leave (o := none) hs.cached (Moved.refl k₁) (.refl hin.silent.cached)
            exact wp_run hfind (wp_run h2 ⟨hw2, fun _ => trivial, rfl⟩)
          | some m =>
            intro hfind
            by_cases hroom : (insert m (insert (k.icache ip).inum k₀.used)).card ≤ NINODE
            · obtain ⟨j, a, k₂, k₃, h2, h3, hw3, hj⟩ := hin.enter hs.cached hfind hroom
              have hrest := ih rest j k₃ hw3
              rw [hj] at hrest
              refine wp_run h2 (wp_run h3 (hrest.mono (fun r k' hr => ?_) (fun e k' he => ?_)))
              · exact ⟨hr.1, fun _ => ⟨hroom, hr.2.1⟩, hr.2.2⟩
              · rcases he with ⟨hno, he⟩ | ⟨hfit, hf, he⟩
                · exact .inl ⟨fun hf => hno (hf hdir).2, he⟩
                · exact .inr ⟨fun _ => ⟨hroom, hfit⟩, hf, he⟩
            · exact wp_run_error (hin.enter_full hs.cached hfind hroom)
                (.inl ⟨fun hf => hroom (hf hdir).1, rfl⟩)
        · rw [if_pos hdir, if_pos hdir]
          obtain ⟨k₂, h2, hw2, -⟩ := hin.leave (o := none) hs.cached (Moved.refl k₁) (.refl hin.silent.cached)
          exact wp_run h2 ⟨hw2, fun hd => absurd hd hdir, rfl⟩

end Walk


section Lookups

variable {sb : Superblock} {k k' : Kernel} {ip j : Ino} {o : Option Ino} {path : List UInt8}

/-- `namei` finds what the name space says. -/
theorem wp_namei_names (hs : Settled sb k) (hfree : ∀ i, k.locks i = false) (path : List UInt8) :
    Lib.wp (namei sb path)
      (fun r k' => Walked k k' r ∧ k.names.Room path ∧ k.names.look path = k'.found r)
      (fun e _ => Stops (k.names.Room path) (k.names.look path) e) k := by
  -- the loop of `namex`, from the inode the path starts at
  have hloop : ∀ i k₁, Walked k k₁ (some i) → (k₁.icache i).inum = k.names.start path →
      (insert (k.names.start path) k.used).card ≤ NINODE →
      Lib.wp (namexLoop sb false (path.length + 1) path i)
        (fun r k' => Walked k k' (r.map (·.1)) ∧ k.names.Room path ∧
          k.names.look path = k'.found (r.map (·.1)))
        (fun e _ => Stops (k.names.Room path) (k.names.look path) e) k₁ := by
    intro i k₁ hw hi hroom
    have h := wp_namexLoop_names hs hfree (path.length + 1) path i k₁ hw
    rw [hi] at h
    refine h.mono (fun r k' hr => ⟨hr.1, ⟨hroom, hr.2.1⟩, hr.2.2⟩) (fun e k' he => ?_)
    rcases he with ⟨hno, he⟩ | ⟨hfit, hf, he⟩
    · exact .inl ⟨fun hr => hno hr.2, he⟩
    · exact .inr ⟨⟨hroom, hfit⟩, hf, he⟩
  have hx : Lib.wp (namex sb path false)
      (fun r k' => Walked k k' (r.map (·.1)) ∧ k.names.Room path ∧
        k.names.look path = k'.found (r.map (·.1)))
      (fun e _ => Stops (k.names.Room path) (k.names.look path) e) k := by
    unfold namex
    by_cases habs : path.head? = some slash
    · have hstart : k.names.start path = ROOTINO := if_pos habs
      rw [if_pos habs]
      by_cases hroom : (insert ROOTINO k.used).card ≤ NINODE
      · obtain ⟨i, k₁, h1, hs1, hi⟩ := iget_room hs.cached hroom
        exact wp_run h1 (hloop i k₁ ⟨((wp_iget (k := k) ROOTINO).ok h1).1, hs1⟩ (hi.trans hstart.symm)
          (by rwa [hstart]))
      · refine wp_run_error (iget_full hs.cached hroom) (.inl ⟨fun hr => hroom ?_, rfl⟩)
        rw [← hstart]
        exact hr.1
    · have hstart : k.names.start path = (k.icache k.cwd).inum := if_neg habs
      rw [if_neg habs]
      refine Lib.wp_get ?_
      obtain ⟨k₁, h1, hs1⟩ := idup_silent hs.cached hs.cwd
      have hm1 := ((wp_idup (k := k) k.cwd).ok h1).2.1
      refine wp_run h1 (hloop k.cwd k₁ ⟨hm1, hs1⟩ ((hs1.inum _ hs.cwd).trans hstart.symm) ?_)
      exact hs.cached.room_iff.mpr (.inl (hstart ▸ mem_used.mpr ⟨_, hs.cwd, rfl⟩))
  exact hx.bind (fun _ _ h => h) (fun r k' h => h)

theorem Silent.settled (hs : Settled sb k) (h : Silent k k') (hpos : ∀ i, 0 < k.refs i → 0 < k'.refs i)
    (hkept : Kept k k') (hcwd : k'.cwd = k.cwd) : Settled sb k' := by
  have hd := h.disk
  refine ⟨h.cached, by rw [hd]; exact hs.sound, by rw [hd]; exact hs.entries, fun i ht hn => ?_,
    by rw [hd]; exact hs.paths, by rw [hcwd]; exact hpos _ hs.cwd, ?_, h.outside.trans hs.outside⟩
  · rw [hd] at ht hn
    obtain ⟨e, h0, he, hv⟩ := hs.linked i ht hn
    exact ⟨e, hpos e h0, by rw [h.inum e h0, he], hkept e h0 (hpos e h0) hv⟩
  · have hdir := hs.cwdDir
    unfold NameSpace.type Kernel.names at hdir ⊢
    rw [hd, hcwd, h.inum _ hs.cwd]
    exact hdir

theorem Walked.settled (hs : Settled sb k) (h : Walked k k' o) : Settled sb k' :=
  h.silent.settled hs (fun i hi => lt_of_lt_of_le hi (h.looked.le i)) h.looked.kept h.looked.cwd

theorem names_of_refs (hs : Settled sb k) (h : Silent k k') (hr : k'.refs = found k.refs (some j))
    (hcwd : k'.cwd = k.cwd) : k'.names = k.names.use (k'.icache j).inum := by
  unfold Kernel.names NameSpace.use
  rw [used_of_refs hs.cached hr h, h.disk, hcwd, h.inum _ hs.cwd]

/-- The caller is at the inode `ip`: it has locked it, and no other one. -/
structure At (sb : Superblock) (k : Kernel) (ip : Ino) : Prop where
  settled : Settled sb k
  locks : ∀ i, k.locks i = true ↔ i = ip
  ref : 0 < k.refs ip
  valid : (k.icache ip).valid = true

theorem At.held (h : At sb k ip) : k.locks ip = true := (h.locks ip).mpr rfl

theorem At.copy (h : At sb k ip) : (k.icache ip).di = k.disk.dinode (k.icache ip).inum :=
  (h.settled.cached.copy ip h.ref h.valid).1

theorem At.type (h : At sb k ip) : k.type ip = k.names.type (k.icache ip).inum := by
  unfold Kernel.type
  rw [h.copy]
  rfl

theorem At.linkPath (h : At sb k ip) (ht : k.type ip = .T_SYM) :
    k.linkPath ip = target k.disk (k.icache ip).inum := by
  have h0 : 0 ∈ linkBytes (k.icache ip).di := by
    rw [h.copy]
    refine h.settled.paths _ ?_
    rw [← h.copy]
    exact ht
  have hcut : ∀ l l' : List UInt8, 0 ∈ l → (l ++ l').takeWhile (· ≠ 0) = l.takeWhile (· ≠ 0) := by
    intro l l' hl
    induction l with
    | nil => cases hl
    | cons b l ih =>
      rw [List.cons_append]
      by_cases hb : b = 0
      · rw [hb]
        rfl
      · rw [List.takeWhile_cons_of_pos (by simpa using hb), List.takeWhile_cons_of_pos (by simpa using hb),
          ih (List.mem_of_ne_of_mem (Ne.symm hb) hl)]
  unfold Kernel.linkPath target
  rw [hcut _ _ h0, h.copy]

/-- `namei` and then `ilock` of the inode it has found, with what follows. -/
theorem wp_reach {β : Type} {none' : KM β} {g : Ino → KM β} {Q : β → Kernel → Prop}
    {E : Fault → Kernel → Prop} (hs : Settled sb k) (hfree : ∀ i, k.locks i = false)
    (hstop : ∀ e k', Stops (k.names.Room path) (k.names.reach path) e → E e k')
    (hmissing : ∀ k', k.names.Room path → k.names.reach path = .missing → Walked k k' none →
      Lib.wp none' Q E k')
    (hnext : ∀ i k₁ k', namei sb path k = .ok (some i) k₁ → ilock i k₁ = .ok () k' →
      k.names.Room path → k.names.reach path = .inode (k'.icache i).inum → At sb k' i →
      Silent k k' → k'.refs = found k.refs (some i) → k'.cwd = k.cwd → Lib.wp (g i) Q E k') :
    Lib.wp (do
      match ← namei sb path with
      | none => none'
      | some i => do
        ilock i
        g i) Q E k := by
  have hn := wp_namei_names hs hfree path
  cases hrun : namei sb path k with
  | error e k₁ =>
    refine wp_run_error hrun (hstop e k₁ ?_)
    rcases hn.error hrun with h | ⟨hroom, hf, he⟩
    · exact .inl h
    · refine .inr ⟨hroom, ?_, he⟩
      unfold NameSpace.reach
      rw [hf]
  | ok r k₁ =>
    obtain ⟨hw, hroom, hf⟩ := hn.ok hrun
    refine wp_run hrun ?_
    cases r with
    | none =>
      refine hmissing k₁ hroom ?_ hw
      unfold NameSpace.reach
      rw [hf]
      rfl
    | some i =>
      have h0 := hw.looked.pos hs.cached
      have hl : k₁.locks i = false := by
        rw [hw.looked.locks]
        exact hfree i
      by_cases ht : k.names.type (k₁.icache i).inum = .none
      · obtain ⟨k', h'⟩ := ilock_removed hw.silent.cached hl h0 (by rw [hw.silent.disk]; exact ht)
        refine wp_run_error h' (hstop _ k' (.inr ⟨hroom, ?_, rfl⟩))
        unfold NameSpace.reach
        rw [hf]
        show (if _ then _ else _) = _
        rw [if_pos ht]
      · obtain ⟨k', h', hs', -⟩ := ilock_silent hw.silent.cached hl h0
          (by rw [hw.silent.disk]; exact ht)
        obtain ⟨-, -, hm, hd, hv⟩ := (wp_ilock (k := k₁) i).ok h'
        have hsettled := hs'.settled (hw.settled hs) (fun x hx => by rw [hm.refs]; exact hx)
          hm.kept hm.cwd
        refine wp_run h' (hnext i k₁ k' hrun h' hroom ?_ ⟨hsettled, fun x => ?_, ?_, hv⟩ ?_ ?_ ?_)
        · unfold NameSpace.reach
          rw [hf, hs'.inum i h0]
          show (if _ then _ else _) = _
          rw [if_neg ht]
        · rw [hm.locks, hw.looked.locks]
          by_cases hx : x = i
          · rw [hx, Function.update_self]
            simp only
          · rw [Function.update_of_ne hx, hfree x]
            simp only [Bool.false_eq_true, hx]
        · rw [hm.refs]
          exact h0
        · exact hw.silent.trans hs' (fun x hx => lt_of_lt_of_le hx (hw.looked.le x))
        · rw [hm.refs, hw.looked.refs]
        · rw [hm.cwd, hw.looked.cwd]

/-! ## Chains of links -/

/-- From `ip` over `d` links to `j`. -/
structure Chased (sb : Superblock) (k : Kernel) (ip : Ino) (d : Nat) (k' : Kernel) (j : Ino) : Prop where
  links : k.names.Links d (k.icache ip).inum (k'.icache j).inum
  hops : Hops sb d k ip k' j
  at_end : At sb k' j
  silent : Silent k k'
  le : ∀ i, k.refs i ≤ k'.refs i
  cwd : k'.cwd = k.cwd
  /-- The last link has left a reference to the inode it names. -/
  gains : 0 < d → k.refs j < k'.refs j
  /-- Only links and the inode at the end get references. -/
  same : ∀ i, k.names.type (k.icache i).inum ≠ .T_SYM → 0 < k.refs i → i ≠ j → k'.refs i = k.refs i

theorem Chased.here (h : At sb k ip) : Chased sb k ip 0 k ip :=
  ⟨.here _, .here k ip, h, Silent.refl h.settled.cached, fun _ => le_refl _, rfl,
    fun h => absurd h (lt_irrefl 0), fun _ _ _ _ => rfl⟩

theorem Hops.trans {a b : Nat} {k'' : Kernel} {i : Ino} (h : Hops sb a k ip k' i)
    (h' : Hops sb b k' i k'' j) : Hops sb (a + b) k ip k'' j := by
  induction h with
  | here =>
    rw [Nat.zero_add]
    exact h'
  | hop ht hu hn hl _ ih =>
    rw [Nat.add_right_comm]
    exact .hop ht hu hn hl (ih h')

theorem NameSpace.Links.trans {s : NameSpace} {a b x y z : Nat} (h : s.Links a x y)
    (h' : s.Links b y z) : s.Links (a + b) x z := by
  induction h with
  | here =>
    rw [Nat.zero_add]
    exact h'
  | hop ht hm _ ih =>
    rw [Nat.add_right_comm]
    exact .hop ht hm (ih h')

theorem Chased.pos {d : Nat} (h : Chased sb k ip d k' j) (i : Ino) (hi : 0 < k.refs i) : 0 < k'.refs i :=
  lt_of_lt_of_le hi (h.le i)

theorem Chased.trans {a b : Nat} {k'' : Kernel} {i : Ino} (hs : Settled sb k)
    (h : Chased sb k ip a k' i) (h' : Chased sb k' i b k'' j) : Chased sb k ip (a + b) k'' j := by
  have hlinks : k.names.Links b (k'.icache i).inum (k''.icache j).inum := by
    refine h'.links.congr h.silent.disk.symm ?_
    show (k.icache k.cwd).inum = (k'.icache k'.cwd).inum
    rw [h.cwd, h.silent.inum _ hs.cwd]
  have htype : k'.names.type = k.names.type := by
    funext n
    unfold NameSpace.type Kernel.names
    rw [h.silent.disk]
  refine ⟨h.links.trans hlinks, h.hops.trans h'.hops, h'.at_end, h.silent.trans h'.silent h.pos,
    fun x => le_trans (h.le x) (h'.le x), h'.cwd.trans h.cwd, fun hpos => ?_, fun x hx h0 hne => ?_⟩
  · by_cases hb : 0 < b
    · exact lt_of_le_of_lt (h.le j) (h'.gains hb)
    · obtain rfl : b = 0 := by omega
      cases h'.hops
      exact h.gains hpos
  · have hnext := h'.same x (by rw [htype, h.silent.inum x h0]; exact hx) (h.pos x h0) hne
    rw [hnext]
    refine h.same x hx h0 (fun hxi => ?_)
    -- the inode in between is a link
    cases b with
    | zero =>
      cases h'.hops
      exact hne hxi
    | succ b =>
      have ht := h'.links.isLink
      rw [htype, ← hxi, h.silent.inum x h0] at ht
      exact hx ht

/-- One hop from the link `ip`: `iunlock`, `namei` and `ilock`, with what follows. -/
theorem wp_hop {β : Type} {none' : KM β} {g : Ino → KM β} {Q : β → Kernel → Prop}
    {E : Fault → Kernel → Prop} (h : At sb k ip) (ht : k.type ip = .T_SYM)
    (hstop : ∀ e k', Stops (k.names.Room (target k.disk (k.icache ip).inum))
      (k.names.reach (target k.disk (k.icache ip).inum)) e → E e k')
    (hmissing : ∀ k', k.names.Room (target k.disk (k.icache ip).inum) →
      k.names.reach (target k.disk (k.icache ip).inum) = .missing → Silent k k' → Lib.wp none' Q E k')
    (hnext : ∀ i k', k.names.Room (target k.disk (k.icache ip).inum) →
      k.names.reach (target k.disk (k.icache ip).inum) = .inode (k'.icache i).inum →
      Chased sb k ip 1 k' i → k'.names = k.names.use (k'.icache i).inum → Lib.wp (g i) Q E k') :
    Lib.wp (do
      iunlock ip
      match ← namei sb (k.linkPath ip) with
      | none => none'
      | some i => do
        ilock i
        g i) Q E k := by
  obtain ⟨k₁, h1, hs1⟩ := iunlock_silent h.settled.cached h.held h.ref
  obtain ⟨-, -, hm1, -⟩ := (wp_iunlock (k := k) ip).ok h1
  have hs := hs1.settled h.settled (fun i hi => by rw [hm1.refs]; exact hi) hm1.kept hm1.cwd
  have hfree : ∀ i, k₁.locks i = false := by
    intro i
    rw [hm1.locks]
    by_cases hi : i = ip
    · rw [hi, Function.update_self]
    · rw [Function.update_of_ne hi]
      exact Bool.eq_false_iff.mpr (fun hl => hi ((h.locks i).mp hl))
  have hused : k₁.used = k.used := by
    ext n
    rw [mem_used, mem_used, hm1.refs]
    refine exists_congr fun i => and_congr_right fun hi => ?_
    rw [hs1.inum i hi]
  have hnames : k₁.names = k.names := by
    unfold Kernel.names
    rw [hused, hs1.disk, hm1.cwd, hs1.inum _ h.settled.cwd]
  refine wp_run h1 ?_
  rw [h.linkPath ht]
  have hpos : ∀ i, 0 < k.refs i → 0 < k₁.refs i := fun i hi => by rw [hm1.refs]; exact hi
  refine wp_reach hs hfree (fun e k' he => hstop e k' (hnames ▸ he))
    (fun k' hroom hf hw => hmissing k' (hnames ▸ hroom) (hnames ▸ hf) (hs1.trans hw.silent hpos)) ?_
  intro i k₂ k' hn hl hroom hf hat hs' hr hc
  rw [hnames] at hroom hf
  have hs02 : Silent k k' := hs1.trans hs' hpos
  rw [hm1.refs] at hr
  have hself : k'.refs i = k.refs i + 1 := by
    rw [hr]
    exact Function.update_self i _ k.refs
  rw [← h.linkPath ht] at hn
  refine hnext i k' hroom hf ⟨.hop (h.type ▸ ht) hf (.here _), .hop ht h1 hn hl (.here k' i), hat, hs02,
    fun x => ?_, hc.trans hm1.cwd, fun _ => ?_, fun x _ _ hx => ?_⟩
    (names_of_refs h.settled hs02 hr (hc.trans hm1.cwd))
  · rw [hr]
    exact le_found k.refs _ x
  · omega
  · rw [hr]
    exact Function.update_of_ne hx _ k.refs

end Lookups

end Xv6.File
