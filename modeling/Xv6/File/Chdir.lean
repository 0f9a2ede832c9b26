import Xv6.File.Depth
import Xv6.File.Trunc

/- `sys_chdir` (`project3_filesystem/sysfile.c`).

   Its own loop over symbolic links has no counter, and stops the kernel at a link
   whose target does not exist. -/
namespace Xv6.File

open NameSpace (Links RoomFor)

/-- The loop of `sys_chdir`. `none`: it is not at its end after `fuel` rounds. -/
def chdirLoop (sb : Superblock) : Nat → Ino → KM (Option Ino)
  | 0, _ => return none
  | fuel + 1, ip => do
    let k ← get
    if k.type ip = .T_SYM then
      iunlock ip
      match ← namei sb (k.linkPath ip) with
      | none => panic "sys_chdir ip null"
      | some ip =>
        ilock ip
        chdirLoop sb fuel ip
    else return some ip

/-- The end of `sys_chdir` for the locked inode the loop has reached. -/
def chdirTo (ip : Ino) : KM Int := do
  if (← get).type ip ≠ .T_DIR then
    iunlockput ip
    return -1
  else
    iunlock ip
    iput (← get).cwd
    modify fun k => { k with cwd := ip }
    return 0

/-- `sys_chdir`; `path` is what `argstr` has found. -/
def sysChdir (sb : Superblock) (fuel : Nat) (path : Option (List UInt8)) : KM (Option Int) :=
  match path with
  | none => return some (-1)
  | some path => do
    match ← namei sb path with
    | none => return some (-1)
    | some ip =>
      ilock ip
      match ← chdirLoop sb fuel ip with
      | none => return none
      | some ip => return some (← chdirTo ip)

/-! ## What is expected of it -/

/-- The path names an inode from which `d` links lead to `x`, which is no link. -/
def LeadsTo (s : NameSpace) (p : List UInt8) (d x : Nat) : Prop :=
  ∃ i, s.reach p = .inode i ∧ s.Links d i x ∧ s.type x ≠ .T_SYM

/-- The path leads to the directory `x`, within the links that `readi` follows. -/
def Directory (s : NameSpace) (path : Option (List UInt8)) (x : Nat) : Prop :=
  ∃ p d, path = some p ∧ d ≤ SYMDEPTH + 1 ∧ LeadsTo s p d x ∧ s.type x = .T_DIR

/-- The call returns: 0 with the directory at the end as the current one, or -1 with the
old one. -/
def ChdirSpec (sb : Superblock) (k : Kernel) (path : Option (List UInt8)) : Prop :=
  ∃ fuel r k', sysChdir sb fuel path k = .ok (some r) k' ∧
    ((∃ x, Directory k.names path x ∧ r = 0 ∧ k'.names.cwd = x) ∨
      (¬ ∃ x, Directory k.names path x) ∧ r = -1 ∧ k'.names.cwd = k.names.cwd)

/-- A change to `x` gives the old current directory up: it has been removed, and nobody else
refers to it. -/
def GivesUp (k : Kernel) (x : Nat) : Prop :=
  x ≠ k.names.cwd ∧ (k.disk.dinode k.names.cwd).nlink = 0 ∧ k.refs k.cwd = 1

/-- The links end, and there is room in the cache for them. If they end in a directory, it is
not too far away, and the old one can be put back. -/
def EndsWell (k : Kernel) (p : List UInt8) : Prop :=
  ∃ i d x, k.names.reach p = .inode i ∧ k.names.Links d i x ∧ k.names.type x ≠ .T_SYM ∧
    (k.names.use i).RoomFor d i ∧
    (k.names.type x = .T_DIR → d ≤ SYMDEPTH + 1 ∧
      (GivesUp k x → OneTriple k.disk k.disk.dinode k.names.cwd))

namespace NameSpace

variable {s : NameSpace} {d i x : Nat}

theorem RoomFor.less : ∀ {n : Nat} {s : NameSpace} {i : Nat}, RoomFor (n + 1) s i → RoomFor n s i := by
  intro n
  induction n with
  | zero => exact fun _ => trivial
  | succ n ih =>
    intro s i h ht
    obtain ⟨hroom, hnext⟩ := h ht
    refine ⟨hroom, ?_⟩
    cases hr : s.reach (target s.disk i) with
    | inode m =>
      rw [hr] at hnext
      exact ih hnext
    | missing => trivial
    | removed => trivial

theorem RoomFor.le {n m : Nat} (h : RoomFor m s i) (hle : n ≤ m) : RoomFor n s i := by
  induction m, hle using Nat.le_induction with
  | base => exact h
  | succ m _ ih => exact ih h.less

/-- Behind the end of the chain there is nothing to look up. -/
theorem RoomFor.enough : ∀ {d : Nat} {s : NameSpace} {i : Nat}, s.Links d i x → s.type x ≠ .T_SYM →
    RoomFor d s i → ∀ n, RoomFor n s i := by
  intro d
  induction d with
  | zero =>
    intro s i hl hx _ n
    cases hl
    cases n with
    | zero => trivial
    | succ n => exact fun ht => absurd ht hx
  | succ d ih =>
    intro s i hl hx h n
    cases n with
    | zero => trivial
    | succ n =>
      intro ht
      obtain ⟨hroom, hnext⟩ := h ht
      refine ⟨hroom, ?_⟩
      cases hl with
      | @hop _ _ m _ _ hm hl =>
        rw [hm] at hnext ⊢
        exact ih ((links_use m).mpr hl) hx hnext n

end NameSpace

section Loop

variable {sb : Superblock} {k k' m m' : Kernel} {ip i j : Ino} {d fuel x : Nat} {p : List UInt8}

/-- The loop of `sys_chdir` as the name space says it. -/
theorem wp_chdirLoop_names (fuel : Nat) : ∀ (k : Kernel) (ip : Ino), At sb k ip →
    Lib.wp (chdirLoop sb fuel ip)
      (fun r k' => RoomFor fuel k.names (k.icache ip).inum ∧
        match r with
        | some j => ∃ d, d < fuel ∧ Chased sb k ip d k' j ∧ k'.type j ≠ .T_SYM
        | none => ∃ y, k.names.Links fuel (k.icache ip).inum y)
      (fun _ _ => ¬ RoomFor fuel k.names (k.icache ip).inum ∨
        ∃ f, Breaks k.names fuel (k.icache ip).inum f ∧ ∀ m, f ≠ .inode m) k := by
  induction fuel with
  | zero => exact fun k ip h => ⟨trivial, _, .here _⟩
  | succ fuel ih =>
    intro k ip h
    unfold chdirLoop
    refine Lib.wp_get ?_
    by_cases ht : k.type ip = .T_SYM
    · rw [if_pos ht]
      have hsym : k.names.type (k.icache ip).inum = .T_SYM := h.type ▸ ht
      have hbreak : ∀ f, k.names.reach (target k.disk (k.icache ip).inum) = f →
          Breaks k.names (fuel + 1) (k.icache ip).inum f :=
        fun f hf => ⟨0, _, by omega, .here _, hsym, hf⟩
      refine wp_hop h ht (fun e k' he => ?_) (fun k' hroom hf _ => ?_)
        (fun i k' hroom hf hc hnames => ?_)
      · rcases he with ⟨hno, -⟩ | ⟨-, hf, -⟩
        · exact .inl fun hr => hno (hr hsym).1
        · exact .inr ⟨_, hbreak _ hf, fun m hm => by cases hm⟩
      · exact .inr ⟨_, hbreak _ hf, fun m hm => by cases hm⟩
      · have hiff := RoomFor.succ_iff fuel hsym hroom hf
        rw [← hnames] at hiff
        refine (ih k' i hc.at_end).mono (fun r k'' hr => ⟨hiff.mpr hr.1, ?_⟩) (fun e k'' he => ?_)
        · cases r with
          | some j =>
            obtain ⟨-, d, hd, hj, htj⟩ := hr
            exact ⟨1 + d, by omega, hc.trans h.settled hj, htj⟩
          | none =>
            obtain ⟨-, y, hy⟩ := hr
            rw [hnames, NameSpace.links_use] at hy
            exact ⟨y, .hop hsym hf hy⟩
        · rcases he with hno | ⟨f, hb, hf'⟩
          · exact .inl fun hr => hno (hiff.mp hr)
          · rw [hnames] at hb
            exact .inr ⟨f, hb.hop hsym hf, hf'⟩
    · rw [if_neg ht]
      have hns : k.names.type (k.icache ip).inum ≠ .T_SYM := h.type ▸ ht
      exact ⟨fun hs => absurd hs hns, 0, Nat.succ_pos _, Chased.here h, ht⟩

end Loop


/-! ## The end of the call -/

/-- The call has come to the inode `j`, in `m`. -/
structure Arrived (sb : Superblock) (k m : Kernel) (j : Ino) : Prop where
  at_end : At sb m j
  silent : Silent k m
  le : ∀ i, k.refs i ≤ m.refs i
  kept : Kept k m
  cwd : m.cwd = k.cwd
  gains : k.refs j < m.refs j
  same : ∀ i, k.names.type (k.icache i).inum ≠ .T_SYM → 0 < k.refs i → i ≠ j → m.refs i = k.refs i

section Arrive

variable {sb : Superblock} {k k' m m' : Kernel} {ip i j : Ino} {d fuel x : Nat} {p : List UInt8}

theorem Arrived.first (hat : At sb m j) (hs : Silent k m) (hr : m.refs = found k.refs (some j))
    (hkept : Kept k m) (hc : m.cwd = k.cwd) : Arrived sb k m j := by
  refine ⟨hat, hs, fun i => ?_, hkept, hc, ?_, fun i _ _ hi => ?_⟩
  · rw [hr]
    exact le_found k.refs _ i
  · rw [hr]
    show k.refs j < Function.update k.refs j (k.refs j + 1) j
    rw [Function.update_self]
    omega
  · rw [hr]
    exact Function.update_of_ne hi _ k.refs

theorem Arrived.chased (h : Arrived sb k k' i) (hc : Chased sb k' i d m j) :
    Arrived sb k m j := by
  have hpos : ∀ e, 0 < k.refs e → 0 < k'.refs e := fun e he => lt_of_lt_of_le he (h.le e)
  have htype : k'.names.type = k.names.type := by
    funext n
    unfold NameSpace.type Kernel.names
    rw [h.silent.disk]
  refine ⟨hc.at_end, h.silent.trans hc.silent hpos, fun e => le_trans (h.le e) (hc.le e), fun e h0 h1 hv => ?_,
    hc.cwd.trans h.cwd, ?_, fun e he h0 hne => ?_⟩
  · exact (hc.hops.followed h.at_end.held).moved.kept e (hpos e h0) h1 (h.kept e h0 (hpos e h0) hv)
  · by_cases hd : 0 < d
    · exact lt_of_le_of_lt (h.le j) (hc.gains hd)
    · obtain rfl : d = 0 := by omega
      cases hc.hops
      exact h.gains
  · rw [hc.same e (by rw [htype, h.silent.inum e h0]; exact he) (hpos e h0) hne]
    refine h.same e he h0 (fun hei => ?_)
    cases d with
    | zero =>
      cases hc.hops
      exact hne hei
    | succ d =>
      have ht := hc.links.isLink
      rw [htype, ← hei, h.silent.inum e h0] at ht
      exact he ht

theorem Arrived.type (h : Arrived sb k m j) : m.type j = k.names.type (m.icache j).inum := by
  rw [h.at_end.type]
  unfold NameSpace.type Kernel.names
  rw [h.silent.disk]

/-- An inode that the call has come to and that has no name is in use elsewhere. -/
theorem Arrived.shared (hs : Settled sb k) (h : Arrived sb k m j)
    (hn : (m.disk.dinode (m.icache j).inum).nlink = 0) : 1 < m.refs j := by
  have ht : (k.disk.dinode (m.icache j).inum).type ≠ .none := by
    have hcopy := h.at_end.settled.cached.copy j h.at_end.ref h.at_end.valid
    rw [hcopy.1, h.silent.disk] at hcopy
    exact hcopy.2
  rw [h.silent.disk] at hn
  obtain ⟨e, h0, he, -⟩ := hs.linked _ ht hn
  have hej := h.silent.cached.distinct e j (lt_of_lt_of_le h0 (h.le e)) h.at_end.ref
    ((h.silent.inum e h0).trans he)
  subst hej
  have hg := h.gains
  omega

theorem wp_iput_inum (ip : Ino) : Lib.wp (iput ip) (fun _ k' =>
    ∀ i, (k'.icache i).inum = (k.icache i).inum) Any k := by
  have hset : ∀ (m : Kernel) (x : Entry), x.inum = (m.icache ip).inum →
      ∀ i, ((m.setEntry ip x).icache i).inum = (m.icache i).inum := by
    intro m x hx i
    by_cases hi : i = ip
    · rw [hi, setEntry_self]
      exact hx
    · rw [setEntry_other hi]
  unfold iput
  refine (wp_acquire ip).bind (fun _ _ h => h) (fun _ k₁ h1 => ?_)
  have hin1 : ∀ i, (k₁.icache i).inum = (k.icache i).inum := by
    rw [h1.2]
    exact hset k _ rfl
  refine Lib.wp_get ?_
  by_cases hc : (k₁.icache ip).valid ∧ (k₁.icache ip).di.nlink = 0 ∧ (k₁.icache ip).ref = 1
  · simp only [if_pos hc]
    unfold ifree
    refine Lib.wp_bind (Lib.wp_get ?_)
    refine (wp_onDisk _).bind (fun _ _ h => h) (fun y k₂ h2 => ?_)
    refine (wp_onDisk _).bind (fun _ _ h => h) (fun _ k₃ h3 => ?_)
    have hin3 : ∀ i, (k₃.icache i).inum = (k.icache i).inum := fun i => by
      rw [h3.1, h2.1, hin1 i]
    intro i
    refine ((hset _ _ ?_ i).trans ((hset _ _ ?_ i).trans (hset k₃ _ ?_ i))).trans (hin3 i)
    · rfl
    · rfl
    · rfl
  · simp only [if_neg hc]
    intro i
    refine ((hset _ _ ?_ i).trans (hset k₁ _ ?_ i)).trans (hin1 i)
    · rfl
    · rfl

/-- `iput` of the last reference to an inode that has no name: it is freed. -/
theorem iput_last (hl : m.locks ip = false)
    (hcond : (m.icache ip).valid = true ∧ (m.icache ip).di.nlink = 0 ∧ (m.icache ip).ref = 1) :
    iput ip m = (ifree ip >>= fun _ => release ip >>= fun _ =>
      modify fun k => k.setEntry ip { k.icache ip with ref := (k.icache ip).ref - 1 })
      (m.setEntry ip { m.icache ip with locked := true }) := by
  have hacq : acquire ip m = .ok () (m.setEntry ip { m.icache ip with locked := true }) := by
    unfold acquire
    have hl' : ¬ (m.icache ip).locked = true := by
      have hl' : (m.icache ip).locked = false := hl
      simp only [hl', Bool.false_eq_true, not_false_eq_true]
    exact if_neg hl'
  unfold iput
  rw [Lib.run_bind hacq, run_get]
  simp only [setEntry_self, if_pos hcond]

theorem iput_last_iff (h : Settled sb m) (hl : m.locks ip = false) (hr : m.refs ip = 1)
    (hv : (m.icache ip).valid = true) (hf : (m.disk.dinode (m.icache ip).inum).isFile)
    (hn : (m.disk.dinode (m.icache ip).inum).nlink = 0) :
    (∃ m', iput ip m = .ok () m') ↔ OneTriple m.disk m.disk.dinode (m.icache ip).inum := by
  have hdi := (h.cached.copy ip (by rw [hr]; exact Int.one_pos) hv).1
  have hiff := itrunc_returns_iff { (m.icache ip).di with inum := (m.icache ip).inum }
    h.sound.consistent hf hdi.symm
  rw [← hiff, iput_last hl ⟨hv, by rw [hdi]; exact hn, hr⟩]
  obtain ⟨m₁, hm₁⟩ : ∃ m₁, m₁ = m.setEntry ip { m.icache ip with locked := true } := ⟨_, rfl⟩
  have hentry : { (m.icache ip).di with inum := (m.icache ip).inum } =
      ({ (m₁.icache ip).di with inum := (m₁.icache ip).inum } : Inode) := by
    rw [hm₁, setEntry_self]
  have hd : m.disk = m₁.disk := by rw [hm₁]; rfl
  rw [← hm₁, hentry, hd]
  refine ⟨fun ⟨m', h'⟩ => ?_, fun ⟨y, d, hx⟩ => ?_⟩
  · cases hx : itrunc { (m₁.icache ip).di with inum := (m₁.icache ip).inum } m₁.disk with
    | ok y d => exact ⟨y, d, rfl⟩
    | error msg d =>
      have hfree : ifree ip m₁ = .error (.panic msg) { m₁ with disk := d } := by
        unfold ifree
        rw [run_get]
        simp only [bind, EStateM.bind, onDisk_error hx]
      simp only [bind, EStateM.bind, hfree] at h'
      cases h'
  · have hfree : ∃ m₂, ifree ip m₁ = .ok () m₂ := by
      unfold ifree
      rw [run_get, Lib.run_bind (onDisk_ok hx)]
      exact ⟨_, rfl⟩
    obtain ⟨m₂, hfree⟩ := hfree
    rw [Lib.run_bind hfree]
    exact ⟨_, rfl⟩

end Arrive


section Finish

variable {sb : Superblock} {k k' m m' : Kernel} {ip i j : Ino} {d fuel x : Nat} {p : List UInt8}

/-- The current directory is given up exactly when the code frees it. -/
theorem Arrived.givesUp_iff (hs : Settled sb k) (h : Arrived sb k m j) :
    GivesUp k (m.icache j).inum ↔
      (m.disk.dinode (m.icache m.cwd).inum).nlink = 0 ∧ m.refs m.cwd = 1 := by
  have hin : (m.icache m.cwd).inum = k.names.cwd := by
    rw [h.cwd, h.silent.inum _ hs.cwd]
    rfl
  have h0 : 0 < m.refs k.cwd := lt_of_lt_of_le hs.cwd (h.le _)
  have hns : k.names.type (k.icache k.cwd).inum ≠ .T_SYM := by
    have hdir : k.names.type (k.icache k.cwd).inum = .T_DIR := hs.cwdDir
    rw [hdir]
    decide
  unfold GivesUp
  rw [hin, h.silent.disk, h.cwd]
  constructor
  · rintro ⟨hne, hn, hr⟩
    refine ⟨hn, ?_⟩
    rw [h.same _ hns hs.cwd (fun he => hne ?_), hr]
    rw [← hin, h.cwd, he]
  · rintro ⟨hn, hr⟩
    have hne : k.cwd ≠ j := by
      intro he
      have hg := h.gains
      have hpos := hs.cwd
      rw [← he] at hg
      omega
    refine ⟨fun he => hne ?_, hn, by rw [← h.same _ hns hs.cwd hne, hr]⟩
    refine h.silent.cached.distinct _ _ h0 h.at_end.ref ?_
    rw [he, ← hin, h.cwd]

/-- At an inode that is no directory. -/
theorem chdirTo_file (hs : Settled sb k) (h : Arrived sb k m j)
    (ht : k.names.type (m.icache j).inum ≠ .T_DIR) :
    ∃ m', chdirTo j m = .ok (-1) m' ∧ m'.names.cwd = k.names.cwd := by
  obtain ⟨m', hrun, hs'⟩ := iunlockput_silent h.at_end.settled.cached h.at_end.held h.at_end.ref
    (fun hn => h.shared hs hn)
  have hm := ((wp_iunlockput (k := m) j).ok hrun).2.2
  refine ⟨m', ?_, ?_⟩
  · unfold chdirTo
    rw [run_get]
    simp only [h.type, ne_eq, ht, not_false_eq_true, if_true]
    rw [Lib.run_bind hrun]
    rfl
  · show (m'.icache m'.cwd).inum = (k.icache k.cwd).inum
    have h0 : 0 < m.refs k.cwd := lt_of_lt_of_le hs.cwd (h.le _)
    rw [hm.cwd, h.cwd, hs'.inum _ h0, h.silent.inum _ hs.cwd]

/-- At a directory. -/
theorem chdirTo_dir_iff (hs : Settled sb k) (h : Arrived sb k m j)
    (ht : k.names.type (m.icache j).inum = .T_DIR) :
    (∀ r m', chdirTo j m = .ok r m' → r = 0 ∧ m'.names.cwd = (m.icache j).inum) ∧
    ((∃ r m', chdirTo j m = .ok r m') ↔
      (GivesUp k (m.icache j).inum → OneTriple k.disk k.disk.dinode k.names.cwd)) := by
  obtain ⟨m₁, h1, hs1⟩ := iunlock_silent h.at_end.settled.cached h.at_end.held h.at_end.ref
  obtain ⟨-, -, hm1, -⟩ := (wp_iunlock (k := m) j).ok h1
  have hset1 := hs1.settled h.at_end.settled (fun i hi => by rw [hm1.refs]; exact hi) hm1.kept hm1.cwd
  have hcwd : m₁.cwd = k.cwd := hm1.cwd.trans h.cwd
  have hfree : m₁.locks m₁.cwd = false := by
    rw [hm1.locks]
    by_cases hj : m₁.cwd = j
    · rw [hj, Function.update_self]
    · rw [Function.update_of_ne hj]
      exact Bool.eq_false_iff.mpr (fun hl => hj ((h.at_end.locks _).mp hl))
  have hin : (m₁.icache m₁.cwd).inum = k.names.cwd := by
    have h0 : 0 < m.refs k.cwd := lt_of_lt_of_le hs.cwd (h.le _)
    rw [hcwd, hs1.inum _ h0, h.silent.inum _ hs.cwd]
    rfl
  have hd1 : m₁.disk = k.disk := hs1.disk.trans h.silent.disk
  have hinj : (m₁.icache j).inum = (m.icache j).inum := hs1.inum j h.at_end.ref
  have hrun : chdirTo j m = (iput m₁.cwd >>= fun _ => modify (fun k => { k with cwd := j }) >>= fun _ =>
      pure 0 : KM Int) m₁ := by
    unfold chdirTo
    rw [run_get]
    simp only [h.type, ht, ne_eq, not_true_eq_false, if_false]
    rw [Lib.run_bind h1]
    rfl
  rw [hrun]
  have hgives : GivesUp k (m.icache j).inum ↔
      (m₁.disk.dinode (m₁.icache m₁.cwd).inum).nlink = 0 ∧ m₁.refs m₁.cwd = 1 := by
    rw [h.givesUp_iff hs, hm1.refs, hin, hd1, hcwd, h.cwd, h.silent.disk,
      h.silent.inum _ hs.cwd]
    rfl
  refine ⟨fun r m' hok => ?_, ?_⟩
  · obtain ⟨u, m₂, h2, hok⟩ := Lib.bind_ok hok
    cases hok
    exact ⟨rfl, ((wp_iput_inum (k := m₁) m₁.cwd).ok h2 j).trans hinj⟩
  · have hiput : (∃ r m', (iput m₁.cwd >>= fun _ => modify (fun k => { k with cwd := j }) >>= fun _ =>
        pure 0 : KM Int) m₁ = .ok r m') ↔ ∃ m', iput m₁.cwd m₁ = .ok () m' := by
      refine ⟨fun ⟨r, m', hok⟩ => ?_, fun ⟨m', h2⟩ => ?_⟩
      · obtain ⟨u, m₂, h2, -⟩ := Lib.bind_ok hok
        exact ⟨m₂, h2⟩
      · rw [Lib.run_bind h2]
        exact ⟨_, _, rfl⟩
    rw [hiput]
    by_cases hg : GivesUp k (m.icache j).inum
    · obtain ⟨hn, hr⟩ := hgives.mp hg
      have hdir := hset1.cwdDir
      have hv : (m₁.icache m₁.cwd).valid = true := by
        have ht' : (m₁.disk.dinode (m₁.icache m₁.cwd).inum).type ≠ .none := by
          have ht' : (m₁.disk.dinode (m₁.icache m₁.cwd).inum).type = .T_DIR := hdir
          rw [ht']
          decide
        obtain ⟨e, h0, he, hv⟩ := hset1.linked _ ht' hn
        rw [← hset1.cached.distinct e _ h0 hset1.cwd he]
        exact hv
      rw [iput_last_iff hset1 hfree hr hv (.inr hdir) hn, hd1, hin]
      exact ⟨fun h _ => h, fun h => h hg⟩
    · obtain ⟨m', h2, -⟩ := iput_silent hset1.cached hfree hset1.cwd (fun _ hn => by
        have hpos := hset1.cwd
        have hne : m₁.refs m₁.cwd ≠ 1 := fun hr => hg (hgives.mpr ⟨hn, hr⟩)
        omega)
      exact ⟨fun _ h => absurd h hg, fun _ => ⟨m', h2⟩⟩

end Finish


section Chdir

variable {sb : Superblock} {k k' : Kernel} {p : List UInt8} {d d' fuel i x x' : Nat}

/-- What a call that returns has done. -/
def ChdirDone (sb : Superblock) (k : Kernel) (p : List UInt8) (fuel : Nat) (o : Option Int) (k' : Kernel) :
    Prop :=
  k.names.reach p = .missing ∧ o = some (-1) ∧ k'.names.cwd = k.names.cwd ∨
    ∃ i, k.names.reach p = .inode i ∧
      ((o = none ∧ ∃ y, k.names.Links fuel i y) ∨
        ∃ d m j, k.names.Links d i (m.icache j).inum ∧ k.names.type (m.icache j).inum ≠ .T_SYM ∧
          d < fuel ∧ (k.names.use i).RoomFor fuel i ∧ Arrived sb k m j ∧
          ∃ r, o = some r ∧ chdirTo j m = .ok r k')

/-- Why a call can stop the kernel. -/
def ChdirStops (sb : Superblock) (k : Kernel) (p : List UInt8) (fuel : Nat) : Prop :=
  ¬ k.names.Room p ∨ k.names.reach p = .removed ∨
    ∃ i, k.names.reach p = .inode i ∧
      (¬ (k.names.use i).RoomFor fuel i ∨
        (∃ f, Breaks k.names fuel i f ∧ ∀ m, f ≠ .inode m) ∨
        ∃ d m j, k.names.Links d i (m.icache j).inum ∧ k.names.type (m.icache j).inum ≠ .T_SYM ∧
          Arrived sb k m j ∧ ∀ r m', chdirTo j m ≠ .ok r m')

theorem wp_sysChdir (fuel : Nat) (hs : Settled sb k) (hfree : ∀ i, k.locks i = false) :
    Lib.wp (sysChdir sb fuel (some p)) (fun o k' => k.names.Room p ∧ ChdirDone sb k p fuel o k')
      (fun _ _ => ChdirStops sb k p fuel) k := by
  unfold sysChdir
  refine wp_reach hs hfree (fun e k' he => ?_) (fun k' hroom hf hw => ?_)
    (fun j k₁ k' hn hl hroom hf hat hsil hr hc => ?_)
  · rcases he with ⟨hno, -⟩ | ⟨-, hf, -⟩
    · exact .inl hno
    · exact .inr (.inl hf)
  · refine ⟨hroom, .inl ⟨hf, rfl, ?_⟩⟩
    show (k'.icache k'.cwd).inum = (k.icache k.cwd).inum
    rw [hw.looked.cwd, hw.silent.inum _ hs.cwd]
  · have hkept : Kept k k' := by
      have hm1 := (wp_namei (k := k) sb p).ok hn
      have hm2 := ((wp_ilock (k := k₁) j).ok hl).2.2.1
      exact (hm1.then hm2).kept
    have ha : Arrived sb k k' j := .first hat hsil hr hkept hc
    have hnames := names_of_refs hs hsil hr hc
    have hloop : Lib.wp (chdirLoop sb fuel j) _ _ k' := wp_chdirLoop_names fuel k' j hat
    cases hrun : chdirLoop sb fuel j k' with
    | error e m =>
      refine wp_run_error hrun (.inr (.inr ⟨_, hf, ?_⟩))
      rcases hloop.error hrun with hno | ⟨f, hb, hne⟩
      · rw [hnames] at hno
        exact .inl hno
      · refine .inr (.inl ⟨f, ?_, hne⟩)
        obtain ⟨e, y, he, hy, ht, hr⟩ := hb
        rw [hnames] at hy ht hr
        exact ⟨e, y, he, (NameSpace.links_use _).mp hy, ht, hr⟩
    | ok o m =>
      obtain ⟨hroomFor, ho⟩ := hloop.ok hrun
      refine wp_run hrun ?_
      rw [hnames] at hroomFor ho
      cases o with
      | none =>
        obtain ⟨y, hy⟩ := ho
        exact ⟨hroom, .inr ⟨_, hf, .inl ⟨rfl, y, (NameSpace.links_use _).mp hy⟩⟩⟩
      | some j' =>
        obtain ⟨d, hd, hch, hns⟩ := ho
        have ha' := ha.chased hch
        have hl' := hch.links
        rw [hnames, NameSpace.links_use] at hl'
        have hns' : k.names.type (m.icache j').inum ≠ .T_SYM := by
          rw [← ha'.type]
          exact hns
        show Lib.wp (chdirTo j' >>= fun r => pure (some r)) _ _ m
        cases hto : chdirTo j' m with
        | error e m' =>
          refine wp_run_error hto (.inr (.inr ⟨_, hf, .inr (.inr ⟨d, m, j', hl', hns', ha', ?_⟩)⟩))
          intro r m'' hr
          cases hto.symm.trans hr
        | ok r m' =>
          exact wp_run hto ⟨hroom, .inr ⟨_, hf, .inr ⟨d, m, j', hl', hns', hd, hroomFor, ha', r, rfl, hto⟩⟩⟩

theorem LeadsTo.unique (h : LeadsTo k.names p d x) (h' : LeadsTo k.names p d' x') : d = d' ∧ x = x' := by
  obtain ⟨i, hi, hl, hx⟩ := h
  obtain ⟨i', hi', hl', hx'⟩ := h'
  cases hi.symm.trans hi'
  exact hl.unique hx hl' hx'

end Chdir

/-- In a settled state `sys_chdir` does what is expected exactly when there is room for its
lookups and the path names nothing, or names an inode from which the links end well. -/
theorem chdirSpec_iff {sb : Superblock} {k : Kernel} (hs : Settled sb k)
    (hfree : ∀ i, k.locks i = false) (path : Option (List UInt8)) :
    ChdirSpec sb k path ↔ path = none ∨
      ∃ p, path = some p ∧ k.names.Room p ∧ (k.names.reach p = .missing ∨ EndsWell k p) := by
  constructor
  · rintro ⟨fuel, r, k', hrun, hres⟩
    cases path with
    | none => exact .inl rfl
    | some p =>
      refine .inr ⟨p, rfl, ?_⟩
      obtain ⟨hroom, hdone⟩ := (wp_sysChdir _ hs hfree).ok hrun
      refine ⟨hroom, ?_⟩
      rcases hdone with ⟨hm, -, -⟩ | ⟨i, hi, ⟨ho, -⟩ | ⟨d, m, j, hl, hx, hd, hr, ha, r', ho, hto⟩⟩
      · exact .inl hm
      · cases ho
      · refine .inr ⟨i, d, _, hi, hl, hx, hr.le (by omega), fun hdir => ?_⟩
        obtain ⟨hok, hiff⟩ := chdirTo_dir_iff hs ha hdir
        refine ⟨?_, hiff.mp ⟨r', k', hto⟩⟩
        cases ho
        rcases hres with ⟨x, ⟨p', d', hp, hd', hlead, -⟩, -, -⟩ | ⟨-, hr, -⟩
        · cases hp
          rw [(LeadsTo.unique ⟨i, hi, hl, hx⟩ hlead).1]
          exact hd'
        · rw [(hok r k' hto).1] at hr
          exact absurd hr (by decide)
  · rintro (rfl | ⟨p, rfl, hroom, hm | ⟨i, d, x, hi, hl, hx, hr, hdir⟩⟩)
    · refine ⟨0, -1, k, rfl, .inr ⟨?_, rfl, rfl⟩⟩
      rintro ⟨x, p, d, hp, -⟩
      cases hp
    · have hw := wp_sysChdir (p := p) 0 hs hfree
      cases hrun : sysChdir sb 0 (some p) k with
      | error e k' =>
        rcases hw.error hrun with hno | hrem | ⟨i, hi, -⟩
        · exact absurd hroom hno
        · cases hm.symm.trans hrem
        · cases hm.symm.trans hi
      | ok o k' =>
        rcases (hw.ok hrun).2 with ⟨-, ho, hcwd⟩ | ⟨i, hi, -⟩
        · refine ⟨0, -1, k', by rw [hrun, ho], .inr ⟨?_, rfl, hcwd⟩⟩
          rintro ⟨x, p', d, hp, -, ⟨i, hi, -⟩, -⟩
          cases hp
          cases hm.symm.trans hi
        · cases hm.symm.trans hi
    · have hw := wp_sysChdir (p := p) (d + 1) hs hfree
      have hend : ∀ {d' m j}, k.names.Links d' i (Kernel.icache m j).inum →
          k.names.type (m.icache j).inum ≠ .T_SYM → d' = d ∧ (m.icache j).inum = x := by
        intro d' m j hl' hx'
        obtain ⟨rfl, rfl⟩ := hl'.unique hx' hl hx
        exact ⟨rfl, rfl⟩
      cases hrun : sysChdir sb (d + 1) (some p) k with
      | error e k' =>
        rcases hw.error hrun with hno | hrem | ⟨i', hi', hno | ⟨f, hb, hf⟩ | ⟨d', m, j, hl', hx', ha, hto⟩⟩
        · exact absurd hroom hno
        · cases hi.symm.trans hrem
        · cases hi.symm.trans hi'
          exact absurd (hr.enough ((NameSpace.links_use i).mpr hl) hx (d + 1)) hno
        · cases hi.symm.trans hi'
          obtain ⟨m, rfl⟩ := hb.no_end hl hx
          exact absurd rfl (hf m)
        · cases hi.symm.trans hi'
          obtain ⟨rfl, rfl⟩ := hend hl' hx'
          by_cases ht : k.names.type (m.icache j).inum = .T_DIR
          · obtain ⟨r, m', hok⟩ := (chdirTo_dir_iff hs ha ht).2.mpr (hdir ht).2
            exact absurd hok (hto r m')
          · obtain ⟨m', hok, -⟩ := chdirTo_file hs ha ht
            exact absurd hok (hto _ m')
      | ok o k' =>
        rcases (hw.ok hrun).2 with ⟨hm, -⟩ | ⟨i', hi', ⟨-, y, hy⟩ | ⟨d', m, j, hl', hx', -, -, ha, r, ho, hto⟩⟩
        · cases hm.symm.trans hi
        · cases hi.symm.trans hi'
          exact absurd (hy.drop hl).isLink hx
        · cases hi.symm.trans hi'
          obtain ⟨rfl, rfl⟩ := hend hl' hx'
          refine ⟨d' + 1, r, k', by rw [hrun, ho], ?_⟩
          by_cases ht : k.names.type (m.icache j).inum = .T_DIR
          · obtain ⟨hr0, hcwd⟩ := (chdirTo_dir_iff hs ha ht).1 r k' hto
            exact .inl ⟨_, ⟨p, d', rfl, (hdir ht).1, ⟨i, hi, hl, hx⟩, ht⟩, hr0, hcwd⟩
          · obtain ⟨m', hok, hcwd⟩ := chdirTo_file hs ha ht
            cases hto.symm.trans hok
            refine .inr ⟨?_, rfl, hcwd⟩
            rintro ⟨x', p', d'', hp, -, hlead, ht'⟩
            cases hp
            rw [← (LeadsTo.unique ⟨i, hi, hl, hx⟩ hlead).2] at ht'
            exact ht ht'


/-! ## After the boot -/

/-- The root is the current directory, and no inode is open. -/
def idleKernel (d : Disk) : Kernel where
  disk := d
  icache := fun i => if i = 0 then { dev := ROOTDEV, inum := ROOTINO, ref := 1 } else {}
  cwd := 0

theorem idleKernel_free (d : Disk) (i : Ino) : (idleKernel d).locks i = false := by
  unfold Kernel.locks idleKernel
  by_cases hi : i = 0
  · rw [hi]
    rfl
  · simp only [if_neg hi]

theorem Tidy.idle {sb : Superblock} {d : Disk} (h : Tidy sb d) : Settled sb (idleKernel d) := by
  have hentry : ∀ i : Ino, 0 < (idleKernel d).refs i → i = 0 := by
    intro i hi
    by_contra h0
    have hz : (idleKernel d).refs i = 0 := by
      unfold Kernel.refs idleKernel
      simp only [if_neg h0]
    rw [hz] at hi
    exact absurd hi (lt_irrefl 0)
  refine ⟨⟨fun i => ?_, fun i j hi hj _ => ?_, fun i hi hv => ?_⟩, h.sound, h.entries,
    fun i ht hn => absurd hn (h.named i ht), h.paths, Int.one_pos, h.root, rfl⟩
  · by_cases h0 : i = 0
    · rw [h0]
      exact Int.one_nonneg
    · unfold Kernel.refs idleKernel
      simp only [if_neg h0]
      exact le_refl _
  · rw [hentry i hi, hentry j hj]
  · rw [hentry i hi] at hv
    cases hv

end Xv6.File
