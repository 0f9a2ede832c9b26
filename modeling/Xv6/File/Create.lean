import Xv6.File.Orderly

/- `create` (`project3_filesystem/sysfile.c`), and the parent it looks up first.

   `create` returns without an inode, with the one that the path leads to, or with a new one
   (`create_cases`). For the new one the state goes through `NewInode` (allocated and
   locked), `Making` (with its count of links, its name not yet written) and `Entered` (the
   directory is given back). In each of them it is orderly. -/
namespace Xv6.File

/-! ## The parent of a path -/

section Parent

variable {sb : Superblock} {k₀ k k' k₁ k₂ : Kernel} {ip dp : Ino} {u : Unit} {path name rest : List UInt8}

theorem skipelem_shorter (h : skipelem path = some (name, rest)) : rest.length < path.length := by
  unfold skipelem at h
  split at h
  · cases h
  · rename_i c p hc
    cases h
    have h1 : (c :: p).length ≤ path.length := by
      rw [← hc]
      exact List.length_dropWhile_le _ _
    have hne : ¬ (c = slash) := by
      have hmem := List.head?_dropWhile_not (· = slash) path
      rw [hc] at hmem
      simpa using hmem
    have h2 : ((c :: p).dropWhile (· ≠ slash)).length ≤ p.length := by
      rw [List.dropWhile_cons_of_pos (by simpa using hne)]
      exact List.length_dropWhile_le _ _
    have h3 := List.length_dropWhile_le (· = slash) ((c :: p).dropWhile (· ≠ slash))
    rw [List.length_cons] at h1
    omega

theorem elements_nil (fuel : Nat) : elements fuel [] = [] := by
  cases fuel with
  | zero => rfl
  | succ fuel => rfl

/-- The lookup from `k₀` has locked the inode it has come to. -/
theorem Walked.inside (hs : Settled sb k₀) (hfree : ∀ i, k₀.locks i = false) (h : Walked k₀ k (some ip))
    (hr : Xv6.File.ilock ip k = .ok u k₁) : Inside k₀ k k₁ ip := by
  obtain ⟨-, -, ht⟩ := ilock_ok h.silent.cached hr
  rw [h.silent.disk] at ht
  obtain ⟨k₂, hrun, hin⟩ := h.ilock hs hfree ht
  cases hrun.symm.trans hr
  exact hin

theorem Inside.left (h : Inside k₀ k k₁ ip) (hc : Cached k₀) {o : Option Ino} (hm : Looked k₁ k₂ o)
    (hs : Silent k₁ k₂) (hr : iunlockput ip k₂ = .ok u k') : Walked k₀ k' o ∧ Silent k₂ k' := by
  obtain ⟨k₃, hrun, hw, hs3⟩ := h.leave hc hm hs
  cases hrun.symm.trans hr
  exact ⟨hw, hs3⟩

/-- The caller keeps its reference. -/
theorem Inside.unlocked (h : Inside k₀ k k₁ ip) (hr : iunlock ip k₁ = .ok u k₂) :
    Walked k₀ k₂ (some ip) := by
  refine ⟨h.walked.looked.relock h.free h.taken ((wp_iunlock ip).ok hr).2.2.1, ?_⟩
  exact h.silent.trans (iunlock_ok h.silent.cached hr) (fun i hi => lt_of_lt_of_le hi (h.le i))

/-- `namex` for the parent: if the last name is there in the directory it has found, the path
leads to it. -/
theorem wp_namexLoop_parent (hs : Settled sb k₀) (hfree : ∀ i, k₀.locks i = false) (fuel : Nat) :
    ∀ (path : List UInt8) (ip : Ino) (k : Kernel), path.length < fuel → Walked k₀ k (some ip) →
      Lib.wp (namexLoop sb true fuel path ip)
        (fun r k' => Walked k₀ k' (r.map (·.1)) ∧ ∀ x, r = some x → ∀ m,
          lookup k₀.disk (k'.icache x.1).inum x.2 = some m →
            walk k₀.disk (elements fuel path) (k.icache ip).inum = .inode m) Any k := by
  induction fuel with
  | zero => exact fun path ip k hlt => absurd hlt (Nat.not_lt_zero _)
  | succ fuel ih =>
    intro path ip k hlt h
    unfold namexLoop elements
    cases hsk : skipelem path with
    | none =>
      refine wp_bind_run (fun v k₁ hput => ?_)
      obtain ⟨hsil, hm⟩ := h.looked.put_back hs h.silent hput
      exact ⟨⟨hm, hsil⟩, fun x hx => by cases hx⟩
    | some nr =>
      obtain ⟨name, rest⟩ := nr
      have hshort := skipelem_shorter hsk
      refine wp_bind_run (fun v k₁ hlock => ?_)
      have hin := h.inside hs hfree hlock
      have ht := (ilock_ok h.silent.cached hlock).2.2
      rw [h.silent.disk] at ht
      have htype : k₁.type ip = (k₀.disk.dinode (k.icache ip).inum).type := congrArg Dinode.type hin.copy
      unfold walk
      rw [if_neg ht]
      refine Lib.wp_get ?_
      rw [htype]
      by_cases hdir : (k₀.disk.dinode (k.icache ip).inum).type = .T_DIR
      · rw [if_neg (not_not.mpr hdir), if_neg (not_not.mpr hdir)]
        by_cases hrest : rest = []
        · -- the last name
          rw [if_pos ⟨rfl, hrest⟩]
          refine wp_bind_run (fun v k₂ hun => ?_)
          have hw := hin.unlocked hun
          refine ⟨hw, fun x hx m hm => ?_⟩
          cases hx
          have hinum : (k₂.icache ip).inum = (k.icache ip).inum := by
            rw [(iunlock_ok hin.silent.cached hun).inum ip (hin.pos hs.cached), hin.inum]
          rw [hinum] at hm
          rw [hm, hrest, elements_nil]
          rfl
        · rw [if_neg (fun hc => hrest hc.2)]
          refine wp_bind_run (fun r k₂ hlook => ?_)
          have hfind := hin.finds hs name hdir
          revert hfind
          cases hl : lookup k₀.disk (k.icache ip).inum name with
          | none =>
            intro hfind
            cases hfind.symm.trans hlook
            refine wp_bind_run (fun v k₃ hput => ?_)
            have hw := (hin.left (o := none) hs.cached (Moved.refl k₁) (.refl hin.silent.cached) hput).1
            exact ⟨hw, fun x hx => by cases hx⟩
          | some m =>
            rintro ⟨o, -, -, hrun⟩
            rw [hrun] at hlook
            obtain ⟨j, k₃, hget, hlook⟩ := Lib.bind_ok hlook
            cases hlook
            obtain ⟨hs2, hj⟩ := iget_ok hin.silent.cached hget
            have hm2 : Looked k₁ k₂ (some j) := ((wp_iget (k := k₁) m).ok hget).1
            refine wp_bind_run (fun v k₄ hput => ?_)
            obtain ⟨hw, hs4⟩ := hin.left hs.cached hm2 hs2 hput
            have hnext := ih rest j k₄ (by omega) hw
            rw [hs4.inum j (hm2.pos hin.silent.cached), hj] at hnext
            exact hnext
      · rw [if_pos hdir, if_pos hdir]
        refine wp_bind_run (fun v k₂ hput => ?_)
        have hw := (hin.left (o := none) hs.cached (Moved.refl k₁) (.refl hin.silent.cached) hput).1
        exact ⟨hw, fun x hx => by cases hx⟩

/-- `nameiparent`. -/
theorem nameiparent_ok (hs : Settled sb k) (hfree : ∀ i, k.locks i = false) (path : List UInt8)
    {r : Option (Ino × List UInt8)} (hr : nameiparent sb path k = .ok r k') :
    Walked k k' (r.map (·.1)) ∧ ∀ x, r = some x → ∀ m,
      lookup k.disk (k'.icache x.1).inum x.2 = some m → k.names.look path = .inode m := by
  have hloop : ∀ i k₁, Walked k k₁ (some i) → (k₁.icache i).inum = k.names.start path →
      namexLoop sb true (path.length + 1) path i k₁ = .ok r k' →
      Walked k k' (r.map (·.1)) ∧ ∀ x, r = some x → ∀ m,
        lookup k.disk (k'.icache x.1).inum x.2 = some m → k.names.look path = .inode m := by
    intro i k₁ hw hi hrun
    have h := (wp_namexLoop_parent hs hfree _ path i k₁ (Nat.lt_succ_self _) hw).ok hrun
    rw [hi] at h
    exact h
  unfold nameiparent namex at hr
  by_cases habs : path.head? = some slash
  · rw [if_pos habs] at hr
    obtain ⟨i, k₁, hget, hr⟩ := Lib.bind_ok hr
    obtain ⟨hs1, hi⟩ := iget_ok hs.cached hget
    exact hloop i k₁ ⟨((wp_iget (k := k) ROOTINO).ok hget).1, hs1⟩ (hi.trans (if_pos habs).symm) hr
  · rw [if_neg habs, run_get] at hr
    obtain ⟨i, k₁, hdup, hr⟩ := Lib.bind_ok hr
    obtain ⟨k₂, h1, hs1⟩ := idup_silent hs.cached hs.cwd
    cases h1.symm.trans hdup
    refine hloop k.cwd k₁ ⟨((wp_idup (k := k) k.cwd).ok h1).2.1, hs1⟩ ?_ hr
    rw [hs1.inum _ hs.cwd]
    exact (if_neg habs).symm

/-- `namei`. -/
theorem namei_ok (hs : Settled sb k) (hfree : ∀ i, k.locks i = false) (path : List UInt8)
    {r : Option Ino} (hr : namei sb path k = .ok r k') :
    Walked k k' r ∧ k.names.look path = k'.found r :=
  ⟨((wp_namei_names hs hfree path).ok hr).1, ((wp_namei_names hs hfree path).ok hr).2.2⟩

end Parent

/-! ## `create` -/

/-- No count of links is about to become 0. -/
def Counts (d : Disk) : Prop := ∀ n, (d.dinode n).nlink ≠ -1

/-- A new inode of the type is locked in the entry `ip`. -/
structure NewInode (k k' : Kernel) (ip : Ino) (type : FileType) : Prop where
  free : (k.disk.dinode (k'.icache ip).inum).type = .none
  used : type ≠ .none
  unlocked : k.locks ip = false
  copy : (k'.icache ip).di = { type := type }
  valid : (k'.icache ip).valid = true
  disk : k'.disk = k.disk.setDinode (k'.icache ip).inum { type := type }
  cached : Cached k'
  outside : k'.outside = k.outside
  inum : ∀ i, 0 < k.refs i → (k'.icache i).inum = (k.icache i).inum
  moved : Moved k k' (Function.update k.locks ip true) (found k.refs (some ip))

/-- `create` is about to enter the new inode `ip` in the directory `dp`, both locked. -/
structure Making (sb : Superblock) (k m : Kernel) (dp ip : Ino) (type : FileType) : Prop where
  orderly : Orderly sb m
  moved : Moved k m (Function.update k.locks ip true) (found k.refs (some ip))
  inum : ∀ i, 0 < k.refs i → (m.icache i).inum = (k.icache i).inum
  valid : (m.icache ip).valid = true
  type : (m.disk.dinode (m.icache ip).inum).type = type
  nlink : (m.disk.dinode (m.icache ip).inum).nlink = 1
  parent : (m.disk.dinode (k.icache dp).inum).nlink = 0 → 1 < k.refs dp
  apart : ip ≠ dp

/-- The new inode `ip` is locked and has a name in the directory `dp`, which has been given back. -/
structure Entered (sb : Superblock) (k k' : Kernel) (dp ip : Ino) (type : FileType) : Prop where
  orderly : Orderly sb k'
  moved : Moved k k' (Function.update (Function.update k.locks ip true) dp false)
    (Function.update (found k.refs (some ip)) dp (k.refs dp - 1))
  valid : (k'.icache ip).valid = true
  type : (k'.disk.dinode (k'.icache ip).inum).type = type
  nlink : (k'.disk.dinode (k'.icache ip).inum).nlink = 1
  apart : ip ≠ dp

/-- A call that began in `k₀` has returned the locked inode `ip`. -/
structure Created (sb : Superblock) (k₀ k : Kernel) (ip : Ino) : Prop where
  orderly : Orderly sb k
  moved : Moved k₀ k (Function.update k₀.locks ip true) (found k₀.refs (some ip))
  valid : (k.icache ip).valid = true
  keep : (k.disk.dinode (k.icache ip).inum).nlink = 0 → 1 < k.refs ip

section Create

variable {sb : Superblock} {k₀ k k' k₁ k₂ m m' : Kernel} {ip dp : Ino} {u : Unit} {type : FileType}
  {major minor : Int16} {path name : List UInt8}

theorem ialloc_ok (h : Cached k) (hr : ialloc sb type k = .ok ip k₁) (hl : ilock ip k₁ = .ok u k₂) :
    NewInode k k₂ ip type := by
  unfold ialloc at hr
  rw [run_get] at hr
  cases hf : (List.range sb.ninodes).find? (fun inum => 0 < inum ∧ (k.disk.dinode inum).type = .none) with
  | none =>
    simp only [hf] at hr
    cases hr
  | some n =>
    have hfree : (k.disk.dinode n).type = .none := by
      have hp := List.find?_some hf
      simp only [decide_eq_true_eq] at hp
      exact hp.2
    simp only [hf] at hr
    obtain ⟨v, k₃, hm, hr⟩ := Lib.bind_ok hr
    have hk₃ : k₃ = { k with disk := k.disk.setDinode n { type := type } } := by
      cases hm
      rfl
    -- an entry that has been read is not one of a free inode
    have hc : Cached k₃ := by
      rw [hk₃]
      refine ⟨h.refs, h.distinct, fun i hi hv => ?_⟩
      obtain ⟨hdi, hty⟩ := h.copy i hi hv
      have hne : (k.icache i).inum ≠ n := by
        intro he
        rw [hdi, he] at hty
        exact hty hfree
      refine ⟨?_, hty⟩
      show (k.icache i).di = Function.update k.disk.dinode n _ (k.icache i).inum
      rw [Function.update_of_ne hne]
      exact hdi
    obtain ⟨hs1, hn⟩ := iget_ok hc hr
    have hm1 : Looked k₃ k₁ (some ip) := ((wp_iget (k := k₃) n).ok hr).1
    obtain ⟨hs2, hdi, hty⟩ := ilock_ok hs1.cached hl
    obtain ⟨hun, h0, hm2, -, hv⟩ := (wp_ilock ip).ok hl
    have hd1 : k₁.disk = k.disk.setDinode n { type := type } := by
      rw [hs1.disk, hk₃]
    have hinum : (k₂.icache ip).inum = n := (hs2.inum ip h0).trans hn
    have hdisk : k₁.disk.dinode n = { type := type } := by
      rw [hd1]
      show Function.update k.disk.dinode n _ n = _
      rw [Function.update_self]
    rw [hn, hdisk] at hdi hty
    have h01 := hm1.then hm2
    rw [hm1.locks, hm1.refs] at h01
    refine ⟨by rw [hinum]; exact hfree, hty, ?_, hdi, hv, by rw [hs2.disk, hinum, hd1], hs2.cached, ?_,
      fun i hi => ?_, ?_⟩
    · rw [hm1.locks, hk₃] at hun
      exact hun
    · rw [hs2.outside, hs1.outside, hk₃]
    · have hi' : 0 < k₃.refs i := by
        rw [hk₃]
        exact hi
      rw [hs2.inum i (lt_of_lt_of_le hi' (hm1.le i)), hs1.inum i hi', hk₃]
    · rw [hk₃] at h01
      exact ⟨h01.locks, h01.refs, h01.kept, h01.cwd⟩

theorem root_new (type : FileType) (r : Fin 13) :
    ({ type := type, major := major, minor := minor, nlink := 1 } : Dinode).root r = 0 := by
  unfold Dinode.root
  split_ifs <;> rfl

namespace NewInode

theorem apart (hnew : NewInode k k₂ ip type) (hlock : k.locks dp = true) : ip ≠ dp := by
  rintro rfl
  cases hlock.symm.trans hnew.unlocked

theorem pos (hnew : NewInode k k₂ ip type) (hc : Cached k) : 0 < k₂.refs ip := by
  have hge := hc.refs ip
  rw [hnew.moved.refs]
  show 0 < Function.update k.refs ip (k.refs ip + 1) ip
  rw [Function.update_self]
  omega

theorem mono (hnew : NewInode k k₂ ip type) (i : Ino) (hi : 0 < k.refs i) : 0 < k₂.refs i := by
  rw [hnew.moved.refs]
  exact lt_of_lt_of_le hi (le_found k.refs _ i)

/-- The directory is another inode. -/
theorem other (hnew : NewInode k k₂ ip type) (hc : Cached k) (hlock : k.locks dp = true) (h0 : 0 < k.refs dp)
    (di : Dinode) :
    (k₂.put ip di).disk.dinode (k.icache dp).inum = k.disk.dinode (k.icache dp).inum := by
  have hne : (k.icache dp).inum ≠ (k₂.icache ip).inum := by
    intro he
    refine hnew.apart hlock (hnew.cached.distinct ip dp (hnew.pos hc) (hnew.mono dp h0) ?_)
    rw [hnew.inum dp h0]
    exact he.symm
  rw [put_dinode, Function.update_of_ne hne, hnew.disk]
  exact Function.update_of_ne hne _ _

end NewInode

/-- The new inode has a name, as far as its count of links goes. -/
theorem NewInode.making (h : Orderly sb k) (hlock : k.locks dp = true) (h0 : 0 < k.refs dp)
    (hkeep : (k.disk.dinode (k.icache dp).inum).nlink = 0 → 1 < k.refs dp)
    (hnew : NewInode k k₂ ip type) :
    Making sb k (k₂.put ip { type := type, major := major, minor := minor, nlink := 1 }) dp ip type := by
  have hne := hnew.apart hlock
  have hpos := hnew.pos h.cached
  have hmono := hnew.mono
  have hput := hnew.moved.then_same (put_moved k₂ ip
    { type := type, major := major, minor := minor, nlink := 1 })
  rw [hnew.moved.locks] at hput
  refine ⟨?_, hput, fun i hi => (put_inum k₂ ip _ i).trans (hnew.inum i hi), ?_, ?_, ?_, fun hn => ?_, hne⟩
  · refine h.renew hnew.cached (fun i hi => ⟨hmono i hi, hnew.inum i hi,
        hnew.moved.kept i hi (hmono i hi)⟩) hnew.moved.cwd hnew.outside hpos hnew.valid (fun i hi => ?_)
      (d := k₂.disk.setDinode (k₂.icache ip).inum { type := type, major := major, minor := minor, nlink := 1 })
      rfl ?_ hnew.used (fun hdir => ?_)
      ⟨fun _ => Nat.dvd_zero 16, fun _ => ?_, fun _ => ?_, fun _ => root_new type⟩
    · rw [hnew.disk]
      exact Function.update_of_ne hi _ _
    · have hd : (k₂.disk.setDinode (k₂.icache ip).inum
          { type := type, major := major, minor := minor, nlink := 1 }).dinode =
          Function.update k.disk.dinode (k₂.icache ip).inum
            { type := type, major := major, minor := minor, nlink := 1 } := by
        rw [hnew.disk]
        exact Function.update_idem _ _ _
      rw [hd]
      refine h.sound.update (fun _ => .inr ⟨root_new type, rfl⟩) ?_ ?_
      · rw [hnew.disk]
        rfl
      · rw [hnew.disk]
        rfl
    · rw [hnew.free] at hdir
      cases hdir
    · show 0 ∈ linkBytes ({} : Dinode)
      decide
    · show (1 : Int16) ≠ 0
      decide
  · rw [put_entry]
    exact hnew.valid
  · rw [put_inum, put_dinode, Function.update_self]
  · rw [put_inum, put_dinode, Function.update_self]
  · rw [hnew.other h.cached hlock h0] at hn
    exact hkeep hn

namespace Making

theorem pos (h : Making sb k m dp ip type) (hc : Cached k) : 0 < m.refs ip := by
  have hge := hc.refs ip
  rw [h.moved.refs]
  show 0 < Function.update k.refs ip (k.refs ip + 1) ip
  rw [Function.update_self]
  omega

theorem refs_parent (h : Making sb k m dp ip type) : m.refs dp = k.refs dp := by
  rw [h.moved.refs]
  exact Function.update_of_ne (Ne.symm h.apart) _ _

theorem parent_valid (h : Making sb k m dp ip type) (h0 : 0 < k.refs dp)
    (hv : (k.icache dp).valid = true) : (m.icache dp).valid = true :=
  h.moved.kept dp h0 (by rw [h.refs_parent]; exact h0) hv

theorem undisturbed (h : Making sb k m dp ip type) (hc : Cached k) (h' : Undisturbed sb m m') :
    Making sb k m' dp ip type := by
  have hpos := h.pos hc
  have hmoved := h.moved.then_same h'.moved
  rw [h.moved.locks] at hmoved
  refine ⟨h'.orderly, hmoved, fun i hi => ?_, ?_, ?_, ?_, fun hn => ?_, h.apart⟩
  · rw [h'.inum i ?_]
    · exact h.inum i hi
    · rw [h.moved.refs]
      exact lt_of_lt_of_le hi (le_found k.refs _ i)
  · exact h'.moved.kept ip hpos (by rw [h'.moved.refs]; exact hpos) h.valid
  · rw [h'.inum ip hpos, h'.type]
    exact h.type
  · rw [h'.inum ip hpos, h'.nlink]
    exact h.nlink
  · rw [h'.nlink] at hn
    exact h.parent hn

/-- `..` of the new directory. -/
theorem parent_linked (h : Making sb k m dp ip type) (hc : Cached k) (h0 : 0 < k.refs dp)
    (hv : (k.icache dp).valid = true) (hcount : (m.disk.dinode (k.icache dp).inum).nlink ≠ -1)
    (hdir : (m.disk.dinode (k.icache dp).inum).type = .T_DIR) :
    Making sb k (m.put dp { (m.icache dp).di with nlink := (m.icache dp).di.nlink + 1 }) dp ip type := by
  have h0' : 0 < m.refs dp := by
    rw [h.refs_parent]
    exact h0
  have hv' := h.parent_valid h0 hv
  have hcopy := (h.orderly.cached.copy dp h0' hv').1
  rw [h.inum dp h0] at hcopy
  have hne : (m.icache ip).inum ≠ (m.icache dp).inum :=
    fun he => h.apart (h.orderly.cached.distinct ip dp (h.pos hc) h0' he)
  have hmoved := h.moved.then_same (put_moved m dp
    { (m.icache dp).di with nlink := (m.icache dp).di.nlink + 1 })
  rw [h.moved.locks] at hmoved
  have hisdir : (m.icache dp).di.type = .T_DIR := by
    rw [hcopy]
    exact hdir
  refine ⟨?_, hmoved, fun i hi => (put_inum m dp _ i).trans (h.inum i hi), ?_, ?_, ?_, fun hn => ?_, h.apart⟩
  · refine h.orderly.put_nlink h0' hv' (fun hs => ?_)
    rw [hisdir] at hs
    cases hs
  · rw [put_other h.apart]
    exact h.valid
  · rw [put_inum, put_dinode, Function.update_of_ne hne]
    exact h.type
  · rw [put_inum, put_dinode, Function.update_of_ne hne]
    exact h.nlink
  · rw [put_dinode, h.inum dp h0, Function.update_self, hcopy] at hn
    have hn : (m.disk.dinode (k.icache dp).inum).nlink + 1 = 0 := hn
    exact absurd (by grind) hcount

end Making

/-- The directory has the entry, and is given back. -/
theorem Making.finish (h : Making sb k m dp ip type) (hs : Orderly sb k) (h0 : 0 < k.refs dp)
    (hv : (k.icache dp).valid = true) (hcwd : k.cwd = dp → 1 < k.refs dp) {n : Nat} {r : Int}
    (hlink : dirlink sb dp name n m = .ok r m') (hput : iunlockput dp m' = .ok u k') :
    Entered sb k k' dp ip type := by
  have hund := dirlink_ok h.orderly (by rw [h.refs_parent]; exact h0) (h.parent_valid h0 hv) hlink
  have h' := h.undisturbed hs.cached hund
  have hm := ((wp_iunlockput dp).ok hput).2.2
  rw [h'.moved.locks, h'.moved.refs] at hm
  have hdp : found k.refs (some ip) dp = k.refs dp := Function.update_of_ne (Ne.symm h.apart) _ _
  rw [hdp] at hm
  have hpos := h'.pos hs.cached
  have hpos' : 0 < k'.refs ip := by
    rw [hm.refs, Function.update_of_ne h.apart, ← h'.moved.refs]
    exact hpos
  obtain ⟨ho, hsil⟩ := iunlockput_kept h'.orderly (fun hn => by
    rw [h'.inum dp h0] at hn
    rw [h'.refs_parent]
    exact h'.parent hn) hput (by
      have hc := h'.orderly.cwd
      rw [h'.moved.cwd] at hc ⊢
      rw [hm.refs]
      by_cases he : k.cwd = dp
      · rw [he, Function.update_self]
        have hmore := hcwd he
        omega
      · rw [Function.update_of_ne he, ← h'.moved.refs]
        exact hc)
  refine ⟨ho, ?_, hm.kept ip hpos hpos' h'.valid, ?_, ?_, h.apart⟩
  · refine h'.moved.trans hm (fun i hi _ => ?_)
    exact lt_of_lt_of_le hi (le_found k.refs _ i)
  · rw [hsil.disk, hsil.inum ip hpos]
    exact h'.type
  · rw [hsil.disk, hsil.inum ip hpos]
    exact h'.nlink

/-- The last part of `createNew`. -/
theorem Making.enter (h : Making sb k m dp ip type) (hs : Orderly sb k) (h0 : 0 < k.refs dp)
    (hv : (k.icache dp).valid = true) (hcwd : k.cwd = dp → 1 < k.refs dp) {n : Nat} {j : Ino}
    (hr : (do
      if (← dirlink sb dp name n) < 0 then panic "create: dirlink"
      iunlockput dp
      return ip : KM Ino) m = .ok j k') : j = ip ∧ Entered sb k k' dp ip type := by
  obtain ⟨r, m', hlink, hr⟩ := Lib.bind_ok hr
  by_cases hneg : r < 0
  · rw [if_pos hneg] at hr
    cases hr
  · rw [if_neg hneg] at hr
    obtain ⟨v, k₁, hput, hr⟩ := Lib.bind_ok hr
    cases hr
    exact ⟨rfl, h.finish hs h0 hv hcwd hlink hput⟩

/-- The entry of a new directory for itself or for its parent. -/
theorem Making.dots (h : Making sb k m dp ip type) (hc : Cached k) {n : Nat} {α : Type} {a : α}
    {x : KM α}
    (hr : (do
      if (← dirlink sb ip name n) < 0 then panic "create dots"
      x) m = .ok a k') : ∃ m', Making sb k m' dp ip type ∧ x m' = .ok a k' := by
  obtain ⟨r, m', hlink, hr⟩ := Lib.bind_ok hr
  by_cases hneg : r < 0
  · rw [if_pos hneg] at hr
    cases hr
  · rw [if_neg hneg] at hr
    exact ⟨m', h.undisturbed hc (dirlink_ok h.orderly (h.pos hc) h.valid hlink), hr⟩

theorem createNew_ok (h : Orderly sb k) (hlock : k.locks dp = true) (h0 : 0 < k.refs dp)
    (hv : (k.icache dp).valid = true) (ht : (k.disk.dinode (k.icache dp).inum).type = .T_DIR)
    (hkeep : (k.disk.dinode (k.icache dp).inum).nlink = 0 → 1 < k.refs dp)
    (hcount : (k.disk.dinode (k.icache dp).inum).nlink ≠ -1) (hcwd : k.cwd = dp → 1 < k.refs dp)
    (hr : createNew sb dp name type major minor k = .ok ip k') : Entered sb k k' dp ip type := by
  unfold createNew at hr
  obtain ⟨i, k₁, halloc, hr⟩ := Lib.bind_ok hr
  obtain ⟨v, k₂, hl, hr⟩ := Lib.bind_ok hr
  have hnew := ialloc_ok h.cached halloc hl
  rw [run_get] at hr
  obtain ⟨v₃, k₃, h3, hr⟩ := Lib.bind_ok hr
  obtain ⟨v₄, k₄, h4, hr⟩ := Lib.bind_ok hr
  have hk₄ := put_ok h3 h4
  rw [hnew.copy] at hk₄
  have hmake : Making sb k k₄ dp i type := by
    rw [hk₄]
    exact hnew.making h hlock h0 hkeep
  have hdp : k₄.disk.dinode (k.icache dp).inum = k.disk.dinode (k.icache dp).inum := by
    rw [hk₄]
    exact hnew.other h.cached hlock h0 _
  rw [run_get] at hr
  by_cases hdir : type = .T_DIR
  · rw [if_pos hdir, run_get] at hr
    obtain ⟨v₅, k₅, h5, hr⟩ := Lib.bind_ok hr
    obtain ⟨v₆, k₆, h6, hr⟩ := Lib.bind_ok hr
    have hmake₆ : Making sb k k₆ dp i type := by
      rw [put_ok h5 h6]
      exact hmake.parent_linked h.cached h0 hv (by rw [hdp]; exact hcount) (by rw [hdp]; exact ht)
    obtain ⟨m₇, hmake₇, hr⟩ := hmake₆.dots h.cached hr
    obtain ⟨m₈, hmake₈, hr⟩ := hmake₇.dots h.cached hr
    obtain ⟨rfl, he⟩ := hmake₈.enter h h0 hv hcwd hr
    exact he
  · rw [if_neg hdir] at hr
    obtain ⟨rfl, he⟩ := hmake.enter h h0 hv hcwd hr
    exact he

end Create

section CreateCall

variable {sb : Superblock} {k₀ k k' k₁ k₂ : Kernel} {ip dp j : Ino} {u : Unit} {type : FileType}
  {major minor : Int16} {path name : List UInt8} {r : Option Ino}

namespace Inside

theorem moved (h : Inside k₀ k k₁ ip) :
    Moved k₀ k₁ (Function.update k₀.locks ip true) (found k₀.refs (some ip)) := by
  have hm := h.walked.looked.then h.taken
  rw [h.walked.looked.locks, h.walked.looked.refs] at hm
  exact hm

theorem orderly (h : Inside k₀ k k₁ ip) (hs : Orderly sb k₀) : Orderly sb k₁ :=
  h.silent.orderly hs (fun i hi => lt_of_lt_of_le hi (h.le i)) h.moved.kept h.moved.cwd

theorem created (h : Inside k₀ k k₁ ip) (hs : Orderly sb k₀) (hv : (k₁.icache ip).valid = true) :
    Created sb k₀ k₁ ip := by
  refine ⟨h.orderly hs, h.moved, hv, fun hn => h.keep ?_⟩
  rw [h.silent.disk, h.inum] at hn
  exact hn

end Inside

theorem Walked.orderly {o : Option Ino} (hs : Orderly sb k₀) (h : Walked k₀ k o) : Orderly sb k :=
  h.silent.orderly hs (fun i hi => lt_of_lt_of_le hi (h.looked.le i)) h.looked.kept h.looked.cwd

/-- How `create` can return: without an inode, with one that the path led to already, or with
a new one. -/
theorem create_cases (h : Orderly sb k₀) (hfree : ∀ i, k₀.locks i = false)
    (hr : create sb path type major minor k₀ = .ok r k') :
    (r = none ∧ Walked k₀ k' none) ∨
    (∃ ip k m, r = some ip ∧ Inside k₀ k k' ip ∧ (k'.icache ip).valid = true ∧
      k₀.names.look path = .inode m) ∨
    ∃ ip k k₁ dp name, r = some ip ∧ Inside k₀ k k₁ dp ∧ (k₁.icache dp).valid = true ∧
      (k₁.icache dp).di.type = .T_DIR ∧ createNew sb dp name type major minor k₁ = .ok ip k' := by
  unfold create at hr
  obtain ⟨o, k, hparent, hr⟩ := Lib.bind_ok hr
  obtain ⟨hw, hlast⟩ := nameiparent_ok h.toSettled hfree path hparent
  cases o with
  | none =>
    cases hr
    exact .inl ⟨rfl, hw⟩
  | some x =>
    obtain ⟨dp, name⟩ := x
    obtain ⟨v, k₁, hl, hr⟩ := Lib.bind_ok hr
    have hin := hw.inside h.toSettled hfree hl
    have hv := ((wp_ilock dp).ok hl).2.2.2.2
    obtain ⟨o, k₂, hlook, hr⟩ := Lib.bind_ok hr
    obtain ⟨ht, hm, hsil, hname, -, hsame⟩ := dirlookup_ok (hin.orderly h) (hin.pos h.cached) hv hlook
    cases o with
    | none =>
      obtain ⟨i, k₃, hnew, hr⟩ := Lib.bind_ok hr
      cases hr
      rw [hsame rfl] at hnew
      exact .inr (.inr ⟨i, k, k₁, dp, name, rfl, hin, hv, ht, hnew⟩)
    | some y =>
      obtain ⟨j, o⟩ := y
      obtain ⟨v, k₃, hput, hr⟩ := Lib.bind_ok hr
      obtain ⟨hw3, hs3⟩ := hin.left h.cached hm hsil hput
      obtain ⟨v, k₄, hlock, hr⟩ := Lib.bind_ok hr
      have hin4 := hw3.inside h.toSettled hfree hlock
      have hv4 := ((wp_ilock j).ok hlock).2.2.2.2
      have hpath : k₀.names.look path = .inode (k₂.icache j).inum := by
        refine hlast _ rfl _ ?_
        rw [← hin.silent.disk, ← hin.inum]
        exact hname
      by_cases hsym : type = .T_SYM
      · rw [if_pos hsym] at hr
        cases hr
        exact .inr (.inl ⟨j, k₃, _, rfl, hin4, hv4, hpath⟩)
      · rw [if_neg hsym, run_get] at hr
        by_cases hfile : type = .T_FILE ∧ k₄.type j = .T_FILE
        · rw [if_pos hfile] at hr
          cases hr
          exact .inr (.inl ⟨j, k₃, _, rfl, hin4, hv4, hpath⟩)
        · rw [if_neg hfile] at hr
          obtain ⟨v, k₅, hput5, hr⟩ := Lib.bind_ok hr
          cases hr
          exact .inl ⟨rfl, (hin4.left (o := none) h.cached (Moved.refl k₄) (.refl hin4.silent.cached) hput5).1⟩

theorem Inside.enter_new (hin : Inside k₀ k k₁ dp) (h : Orderly sb k₀) (hfree : ∀ i, k₀.locks i = false)
    (hcounts : Counts k₀.disk) (hv : (k₁.icache dp).valid = true)
    (ht : (k₁.icache dp).di.type = .T_DIR)
    (hr : createNew sb dp name type major minor k₁ = .ok ip k') :
    Entered sb k₁ k' dp ip type ∧ Created sb k₀ k' ip := by
  have ho := hin.orderly h
  have h0 := hin.pos h.cached
  have hd := hin.silent.disk
  have hrefs := hin.moved.refs
  have hcopy := (ho.cached.copy dp h0 hv).1
  have he := createNew_ok ho hin.held h0 hv (by rw [← hcopy]; exact ht) (fun hn => hin.keep (by
    rw [hd, hin.inum] at hn
    exact hn)) (by rw [hd]; exact hcounts _) (fun hc => by
      have hpos := h.cwd
      rw [← hin.moved.cwd, hc] at hpos
      rw [hrefs]
      show 1 < Function.update k₀.refs dp (k₀.refs dp + 1) dp
      rw [Function.update_self]
      omega) hr
  have hlocks : Function.update (Function.update k₁.locks ip true) dp false =
      Function.update k₀.locks ip true := by
    rw [hin.moved.locks]
    funext i
    simp only [Function.update_apply]
    by_cases hi : i = dp
    · rw [if_pos hi, if_neg (fun hc => he.apart (hc.symm.trans hi)), hi, hfree dp]
    · rw [if_neg hi, if_neg hi]
  have hback : Function.update (found k₁.refs (some ip)) dp (k₁.refs dp - 1) = found k₀.refs (some ip) := by
    have hnext := found_next k₀.refs dp ip
    rw [← hrefs] at hnext
    rw [← hnext]
    congr 2
    exact (Function.update_of_ne (Ne.symm he.apart) _ _).symm
  refine ⟨he, he.orderly, ?_, he.valid, fun hn => ?_⟩
  · have hm := hin.moved.trans he.moved (fun i hi _ => lt_of_lt_of_le hi (le_found k₀.refs _ i))
    rw [hlocks, hback] at hm
    exact hm
  · rw [he.nlink] at hn
    exact absurd hn (by decide)

/-- `create`. -/
theorem create_ok (h : Orderly sb k₀) (hfree : ∀ i, k₀.locks i = false)
    (hcounts : Counts k₀.disk)
    (hr : create sb path type major minor k₀ = .ok r k') :
    (r = none → Walked k₀ k' none) ∧ ∀ ip, r = some ip → Created sb k₀ k' ip := by
  rcases create_cases h hfree hr with ⟨rfl, hw⟩ | ⟨ip, k, m, rfl, hin, hv, -⟩ |
    ⟨ip, k, k₁, dp, name, rfl, hin, hv, ht, hnew⟩
  · exact ⟨fun _ => hw, fun ip hip => by cases hip⟩
  · refine ⟨(fun hn => by cases hn), fun i hi => ?_⟩
    cases hi
    exact hin.created h hv
  · refine ⟨(fun hn => by cases hn), fun i hi => ?_⟩
    cases hi
    exact (hin.enter_new h hfree hcounts hv ht hnew).2

/-- The caller gives the inode back. -/
theorem Created.put (hc : Created sb k₀ k ip) (hs : Orderly sb k₀) (hfree : ∀ i, k₀.locks i = false)
    (hr : iunlockput ip k = .ok u k') : Orderly sb k' ∧ ∀ i, k'.locks i = false := by
  have hm := ((wp_iunlockput ip).ok hr).2.2
  have hback : k'.refs = k₀.refs := by
    rw [hm.refs, hc.moved.refs, found_put]
  refine ⟨(iunlockput_kept hc.orderly hc.keep hr ?_).1, fun i => ?_⟩
  · rw [hc.moved.cwd, hback]
    exact hs.cwd
  · rw [hm.locks, hc.moved.locks, Function.update_idem]
    by_cases hi : i = ip
    · rw [hi, Function.update_self]
    · rw [Function.update_of_ne hi]
      exact hfree i

/-- The caller keeps it. -/
theorem Created.unlock (hc : Created sb k₀ k ip) (hfree : ∀ i, k₀.locks i = false)
    (hr : iunlock ip k = .ok u k') : Orderly sb k' ∧ ∀ i, k'.locks i = false := by
  obtain ⟨-, -, hm, -⟩ := (wp_iunlock ip).ok hr
  refine ⟨(iunlock_ok hc.orderly.cached hr).dropped hc.orderly hm.refs hm.kept hm.cwd, fun i => ?_⟩
  rw [hm.locks, hc.moved.locks, Function.update_idem]
  by_cases hi : i = ip
  · rw [hi, Function.update_self]
  · rw [Function.update_of_ne hi]
    exact hfree i

end CreateCall

end Xv6.File
