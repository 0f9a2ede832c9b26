import Xv6.File.Names

/- How many links `readi` and `writei` follow (`project3_filesystem/fs.c`).

   The message of both functions announces `SYMDEPTH` as the maximum; the loop ends
   at the next link after `SYMDEPTH + 1` of them. Each link that is followed keeps an entry
   of the cache, because nobody puts back the inode that `namei` has returned, so that the
   announcement needs room for them too. -/
namespace Xv6.File

open Fs (BSIZE)

/-- The inode is locked by the caller, as the functions ask for. -/
structure Held (k : Kernel) (ip : Ino) : Prop where
  locked : k.locks ip = true
  ref : 1 ≤ k.refs ip
  valid : (k.icache ip).valid = true

/-- Over the disk of `k`, the caller has the inode `x` itself locked, in entry `j`. -/
structure OnFile (k : Kernel) (x : Nat) (m : Kernel) (j : Ino) : Prop where
  held : Held m j
  disk : m.disk = k.disk
  inum : (m.icache j).inum = x
  copy : (m.icache j).di = k.disk.dinode x

/-- The call on the link does what the call on the file `x` itself does, in `m`: it has the
same result, and leaves the same disk and the same inode. -/
def SameCall {α : Type} (call : Ino → KM α) (k : Kernel) (ip : Ino) (x : Nat) (m : Kernel) (j : Ino) :
    Prop :=
  match call j m with
  | .ok a m₁ => ∃ k₁, call ip k = .ok a k₁ ∧ k₁.disk = m₁.disk ∧
      ∀ i, 0 < k₁.refs i → (k₁.icache i).inum = x → (k₁.icache i).valid = true →
        (k₁.icache i).di = (m₁.icache j).di
  | .error e _ => ∃ k₁, call ip k = .error e k₁

/-- The call returns `fail` and leaves the disk as it is. -/
def Fails {α : Type} (call : Ino → KM α) (fail : α) (k : Kernel) (ip : Ino) : Prop :=
  ∃ k₂, call ip k = .ok fail k₂ ∧ k₂.disk = k.disk

/-- What is announced for a chain of `d` links from `ip` to the file `x`. -/
def DepthSpec {α : Type} (call : Ino → KM α) (fail : α) (d : Nat) (k : Kernel) (ip : Ino) (x : Nat) :
    Prop :=
  (d ≤ SYMDEPTH → ∀ m j, OnFile k x m j → SameCall call k ip x m j) ∧
    (SYMDEPTH < d → Fails call fail k ip)

/-! ## The links that are followed -/

section Chains

open NameSpace (Links RoomFor)

variable {sb : Superblock} {k k' : Kernel} {ip j : Ino} {d left n x : Nat}

/-- Before `left` links are followed from `n` on, there is one whose path leads to `f`. -/
def Breaks (s : NameSpace) (left n : Nat) (f : Found) : Prop :=
  ∃ e y, e < left ∧ s.Links e n y ∧ s.type y = .T_SYM ∧ s.reach (target s.disk y) = f

/-- The results of `follow`, as the name space says them. -/
def FollowNames (sb : Superblock) (left : Nat) (k : Kernel) (ip : Ino) :
    Except (Option Ino) Ino → Kernel → Prop
  | .ok j, k' => ∃ d, d ≤ left ∧ Chased sb k ip d k' j ∧ k'.type j ≠ .T_SYM
  | .error (some j), k' => Chased sb k ip left k' j ∧ k'.type j = .T_SYM
  | .error none, k' => Breaks k.names left (k.icache ip).inum .missing ∧ Silent k k'

theorem Breaks.hop {s : NameSpace} {m : Nat} {f : Found} (ht : s.type n = .T_SYM)
    (hm : s.reach (target s.disk n) = .inode m) (h : Breaks (s.use m) left m f) :
    Breaks s (left + 1) n f := by
  obtain ⟨e, y, he, hl, hy, hf⟩ := h
  exact ⟨e + 1, y, by omega, .hop ht hm ((NameSpace.links_use m).mp hl), hy, hf⟩

theorem wp_follow_names (left : Nat) : ∀ (k : Kernel) (ip : Ino), At sb k ip →
    Lib.wp (follow sb left ip)
      (fun r k' => RoomFor left k.names (k.icache ip).inum ∧ FollowNames sb left k ip r k')
      (fun e _ => ¬ RoomFor left k.names (k.icache ip).inum ∧ e = .panic "iget: no inodes" ∨
        Breaks k.names left (k.icache ip).inum .removed) k := by
  induction left with
  | zero =>
    intro k ip h
    unfold follow
    refine Lib.wp_get ?_
    by_cases ht : k.type ip = .T_SYM
    · rw [if_pos ht]
      exact ⟨trivial, Chased.here h, ht⟩
    · rw [if_neg ht]
      exact ⟨trivial, 0, le_refl _, Chased.here h, ht⟩
  | succ left ih =>
    intro k ip h
    unfold follow
    refine Lib.wp_get ?_
    by_cases ht : k.type ip = .T_SYM
    · rw [if_pos ht]
      have hsym : k.names.type (k.icache ip).inum = .T_SYM := h.type ▸ ht
      refine wp_hop h ht (fun e k' he => ?_) (fun k' hroom hf hsil => ?_)
        (fun i k' hroom hf hc hnames => ?_)
      · rcases he with ⟨hno, he⟩ | ⟨-, hf, -⟩
        · exact .inl ⟨fun hr => hno (hr hsym).1, he⟩
        · exact .inr ⟨0, _, by omega, .here _, hsym, hf⟩
      · refine ⟨fun _ => ⟨hroom, ?_⟩, ⟨0, _, by omega, .here _, hsym, hf⟩, hsil⟩
        have hf' : k.names.reach (target k.names.disk (k.icache ip).inum) = _ := hf
        rw [hf']
        trivial
      · have hiff := RoomFor.succ_iff left hsym hroom hf
        rw [← hnames] at hiff
        have hbreaks : ∀ f, Breaks k'.names left (k'.icache i).inum f →
            Breaks k.names (left + 1) (k.icache ip).inum f := by
          rw [hnames]
          exact fun f hb => hb.hop hsym hf
        refine (ih k' i hc.at_end).mono (fun r k'' hr => ⟨hiff.mpr hr.1, ?_⟩) (fun e k'' he => ?_)
        · cases r with
          | ok j =>
            obtain ⟨-, d, hd, hj, htj⟩ := hr
            exact ⟨1 + d, by omega, hc.trans h.settled hj, htj⟩
          | error o =>
            cases o with
            | some j =>
              obtain ⟨-, hj, htj⟩ := hr
              rw [Nat.add_comm left 1]
              exact ⟨hc.trans h.settled hj, htj⟩
            | none => exact ⟨hbreaks _ hr.2.1, hc.silent.trans hr.2.2 hc.pos⟩
        · rcases he with ⟨hno, he⟩ | hb
          · exact .inl ⟨fun hr => hno (hiff.mp hr), he⟩
          · exact .inr (hbreaks _ hb)
    · rw [if_neg ht]
      have hns : k.names.type (k.icache ip).inum ≠ .T_SYM := h.type ▸ ht
      exact ⟨fun hs => absurd hs hns, 0, Nat.zero_le _, Chased.here h, ht⟩

/-- A chain that ends in an inode that is no link does not break. -/
theorem Breaks.no_end {s : NameSpace} {f : Found} (hb : Breaks s left n f) (hl : s.Links d n x)
    (hx : s.type x ≠ .T_SYM) : ∃ m, f = .inode m := by
  obtain ⟨e, y, -, hy, ht, rfl⟩ := hb
  by_cases he : e < d
  · obtain ⟨m, rfl⟩ : ∃ m, d = e + (m + 1) := ⟨d - e - 1, by omega⟩
    cases hl.drop hy with
    | hop _ hm => exact ⟨_, hm⟩
  · obtain ⟨m, rfl⟩ : ∃ m, e = d + m := ⟨e - d, by omega⟩
    cases hy.drop hl with
    | here => exact absurd ht hx
    | hop ht' => exact absurd ht' hx

/-- Nor does one without an end. -/
theorem Breaks.endless {s : NameSpace} {f : Found} (hb : Breaks s left n f)
    (h : ∀ d, ∃ x, s.Links d n x) : ∃ m, f = .inode m := by
  obtain ⟨e, y, -, hy, -, rfl⟩ := hb
  obtain ⟨x, hx⟩ := h (e + 1)
  cases hx.drop hy with
  | hop _ hm => exact ⟨_, hm⟩

/-- What `follow` does when no path on the way leads nowhere. -/
theorem follow_cases (left : Nat) (h : At sb k ip)
    (hb : ∀ f, Breaks k.names left (k.icache ip).inum f → ∃ m, f = .inode m) :
    (RoomFor left k.names (k.icache ip).inum →
      (∃ d k' j, d ≤ left ∧ Chased sb k ip d k' j ∧ k'.type j ≠ .T_SYM ∧
        follow sb left ip k = .ok (.ok j) k') ∨
      ∃ k' j, Chased sb k ip left k' j ∧ k'.type j = .T_SYM ∧
        follow sb left ip k = .ok (.error (some j)) k') ∧
    (¬ RoomFor left k.names (k.icache ip).inum →
      ∃ k', follow sb left ip k = .error (.panic "iget: no inodes") k') := by
  have hw : Lib.wp (follow sb left ip) _ _ k := wp_follow_names left k ip h
  cases hrun : follow sb left ip k with
  | ok r k' =>
    obtain ⟨hroom, hr⟩ := hw.ok hrun
    refine ⟨fun _ => ?_, fun hno => absurd hroom hno⟩
    cases r with
    | ok j =>
      obtain ⟨d, hd, hj, ht⟩ := hr
      exact .inl ⟨d, k', j, hd, hj, ht, rfl⟩
    | error o =>
      cases o with
      | some j =>
        obtain ⟨hj, ht⟩ := hr
        exact .inr ⟨k', j, hj, ht, rfl⟩
      | none =>
        obtain ⟨m, hm⟩ := hb _ hr.1
        cases hm
  | error e k' =>
    rcases hw.error hrun with ⟨hno, he⟩ | hr
    · exact ⟨fun hroom => absurd hroom hno, fun _ => ⟨k', by rw [he]⟩⟩
    · obtain ⟨m, hm⟩ := hb _ hr
      cases hm

end Chains


/-! ## The file at the end -/

section FilePart

variable {α : Type} {sb : Superblock} {k k' : Kernel} {ip j : Ino} {f : Inode → FsM (α × Inode)}

/-- The inode `x` of the disk, as it is in memory. -/
def inodeOf (d : Disk) (x : Nat) : Inode := { d.dinode x with inum := x }

/-- The state in which code on the contents of `ip` ends. -/
def Kernel.wrote (k : Kernel) (ip : Ino) (y : Inode) (d : Disk) : Kernel :=
  { k with disk := d }.setEntry ip { k.icache ip with di := y.toDinode }

theorem onInode_ok {x : Nat} (hx : (k.icache ip).inum = x) (hd : (k.icache ip).di = k.disk.dinode x)
    {a : α} {y : Inode} {d : Disk} (h : f (inodeOf k.disk x) k.disk = .ok (a, y) d) :
    onInode ip f k = .ok a (k.wrote ip y d) := by
  have hrun : onDisk (f { (k.icache ip).di with inum := (k.icache ip).inum }) k =
      .ok (a, y) { k with disk := d } := by
    rw [hx, hd]
    exact onDisk_ok h
  unfold onInode
  rw [run_get, Lib.run_bind hrun]
  rfl

theorem onInode_error {x : Nat} (hx : (k.icache ip).inum = x) (hd : (k.icache ip).di = k.disk.dinode x)
    {msg : String} {d : Disk} (h : f (inodeOf k.disk x) k.disk = .error msg d) :
    onInode ip f k = .error (.panic msg) { k with disk := d } := by
  have hrun : onDisk (f { (k.icache ip).di with inum := (k.icache ip).inum }) k =
      .error (.panic msg) { k with disk := d } := by
    rw [hx, hd]
    exact onDisk_error h
  unfold onInode
  rw [run_get]
  simp only [bind, EStateM.bind, hrun]

/-- `restore` changes locks only. -/
theorem restore_run (k : Kernel) (ip j : Ino) (hlocks : ∀ i, k.locks i = true ↔ i = j)
    (hj : 0 < k.refs j) (hip : 0 < k.refs ip) (hv : (k.icache ip).valid = true) :
    ∃ k₂, restore (some ip) (some j) k = .ok () k₂ ∧ k₂.disk = k.disk ∧
      ∀ i, { k₂.icache i with locked := false } = { k.icache i with locked := false } := by
  have hsame : ∀ (m : Kernel) (x : Ino) (b : Bool) (i : Ino),
      { (m.setEntry x { m.icache x with locked := b }).icache i with locked := false } =
        { m.icache i with locked := false } := by
    intro m x b i
    by_cases hi : i = x
    · rw [hi, setEntry_self]
    · rw [setEntry_other hi]
  have h1 := iunlock_run ((hlocks j).mpr rfl) hj
  obtain ⟨-, -, hm, -⟩ := (wp_iunlock (k := k) j).ok h1
  have hlip : (k.setEntry j { k.icache j with locked := false }).locks ip = false := by
    rw [hm.locks]
    by_cases hij : ip = j
    · rw [hij, Function.update_self]
    · rw [Function.update_of_ne hij]
      exact Bool.eq_false_iff.mpr (fun hl => hij ((hlocks ip).mp hl))
  have hr1 : 0 < (k.setEntry j { k.icache j with locked := false }).refs ip := by
    rw [hm.refs]
    exact hip
  have h2 := ilock_run hlip hr1 (hm.kept ip hip hr1 hv)
  exact ⟨_, (Lib.run_bind h1).trans h2, rfl, fun i => (hsame _ ip true i).trans (hsame k j false i)⟩

end FilePart

section Depth

open NameSpace (Links RoomFor)

variable {α : Type} {sb : Superblock} {dev : Dinode → Option (Ino → KM α)}
  {f : Inode → FsM (α × Inode)} {fail : α} {k k' : Kernel} {ip j : Ino} {d x : Nat}

/-- At the end of a chain the first inode is as it was, but for its lock. -/
theorem Chased.first (h : At sb k ip) (hc : Chased sb k ip d k' j) :
    0 < k'.refs ip ∧ (k'.icache ip).valid = true := by
  have hip := hc.pos ip h.ref
  exact ⟨hip, (hc.hops.followed h.held).moved.kept ip h.ref hip h.valid⟩

/-- The inode itself is a file. -/
theorem viaLinks_self (file : Ino → KM α) (hs : k.type j = .T_FILE) :
    viaLinks sb dev file fail j k = file j k := by
  have hns : ¬ k.type j = .T_SYM := by
    rw [hs]
    decide
  have hnd : ¬ (k.icache j).di.type = .T_DEV := by
    have hs' : (k.icache j).di.type = .T_FILE := hs
    rw [hs']
    decide
  rw [viaLinks_eq, Lib.run_bind (follow_stop hns)]
  refine run_get.trans ?_
  simp only [if_neg hns, if_neg hnd]
  show (file j >>= fun a => (pure a : KM α)) k = _
  simp only [bind, EStateM.bind]
  cases file j k <;> rfl

/-- The links lead to a file. -/
theorem viaLinks_file (file : Ino → KM α) (ht : k.type ip = .T_SYM)
    (hrun : follow sb (SYMDEPTH + 1) ip k = .ok (.ok j) k') (hs : k'.type j = .T_FILE) :
    viaLinks sb dev file fail ip k =
      (file j >>= fun a => restore (some ip) (some j) >>= fun _ => pure a) k' := by
  have hnd : ¬ (k'.icache j).di.type = .T_DEV := by
    have hs' : (k'.icache j).di.type = .T_FILE := hs
    rw [hs']
    decide
  rw [viaLinks_eq, Lib.run_bind hrun]
  refine run_get.trans ?_
  simp only [if_pos ht, if_neg hnd]

/-- There are more links than are followed. -/
theorem viaLinks_tooLong (file : Ino → KM α) (h : At sb k ip) (ht : k.type ip = .T_SYM)
    (hrun : follow sb (SYMDEPTH + 1) ip k = .ok (.error (some j)) k')
    (hc : Chased sb k ip d k' j) : Fails (viaLinks sb dev file fail) fail k ip := by
  obtain ⟨hip, hv⟩ := hc.first h
  obtain ⟨k₂, hres, hdisk, -⟩ := restore_run _ _ _ hc.at_end.locks hc.at_end.ref hip hv
  refine ⟨k₂, ?_, hdisk.trans hc.silent.disk⟩
  rw [viaLinks_eq, Lib.run_bind hrun]
  simp only [if_pos ht]
  exact Lib.run_bind hres

/-- The file part runs on the file as on the file itself. -/
theorem viaLinks_ok (dev : Dinode → Option (Ino → KM α)) (fail : α) (h : At sb k ip)
    (ht : k.type ip = .T_SYM)
    (hrun : follow sb (SYMDEPTH + 1) ip k = .ok (.ok j) k') (hc : Chased sb k ip d k' j)
    (hx : (k'.icache j).inum = x) (hs : k.names.type x = .T_FILE) {a : α} {y : Inode} {d' : Disk}
    (hf : f (inodeOf k.disk x) k.disk = .ok (a, y) d') :
    ∃ k₁, viaLinks sb dev (fun i => onInode i f) fail ip k = .ok a k₁ ∧ k₁.disk = d' ∧
      ∀ i, 0 < k₁.refs i → (k₁.icache i).inum = x → (k₁.icache i).di = y.toDinode := by
  have hd := hc.silent.disk
  have hcopy : (k'.icache j).di = k'.disk.dinode x := hx ▸ hc.at_end.copy
  have hs' : k'.type j = .T_FILE := by
    unfold Kernel.type
    rw [hcopy, hd]
    exact hs
  rw [← hd] at hf
  have hfile := onInode_ok hx hcopy hf
  obtain ⟨hip, hv⟩ := hc.first h
  have hm := (wp_onInode (k := k') j f).ok hfile
  have hrefs : (k'.wrote j y d').refs = k'.refs := hm.refs
  obtain ⟨k₁, hres, hdisk, hsame⟩ := restore_run (k'.wrote j y d') ip j
    (fun i => by rw [hm.locks]; exact hc.at_end.locks i)
    (by rw [hrefs]; exact hc.at_end.ref) (by rw [hrefs]; exact hip)
    (hm.kept ip hip (by rw [hrefs]; exact hip) hv)
  refine ⟨k₁, ?_, hdisk, fun i h0 hi => ?_⟩
  · rw [viaLinks_file _ ht hrun hs', Lib.run_bind hfile, Lib.run_bind hres]
    rfl
  · -- the file has one entry
    have hi' : (k₁.icache i).inum = ((k'.wrote j y d').icache i).inum ∧
        (k₁.icache i).ref = ((k'.wrote j y d').icache i).ref ∧
        (k₁.icache i).di = ((k'.wrote j y d').icache i).di := by
      have he := hsame i
      injection he with h1 h2 h3 h4 h5 h6
      exact ⟨h2, h3, h6⟩
    have hij : i = j := by
      by_contra hne
      have hother : (k'.wrote j y d').icache i = k'.icache i := setEntry_other hne _
      rw [hother] at hi'
      refine hne (hc.at_end.settled.cached.distinct i j ?_ hc.at_end.ref ?_)
      · rw [Kernel.refs, ← hi'.2.1]
        exact h0
      · rw [← hi'.1, hi, hx]
    rw [hi'.2.2, hij]
    unfold Kernel.wrote
    rw [setEntry_self]

theorem viaLinks_error (dev : Dinode → Option (Ino → KM α)) (fail : α)
    (ht : k.type ip = .T_SYM)
    (hrun : follow sb (SYMDEPTH + 1) ip k = .ok (.ok j) k') (hc : Chased sb k ip d k' j)
    (hx : (k'.icache j).inum = x) (hs : k.names.type x = .T_FILE) {msg : String} {d' : Disk}
    (hf : f (inodeOf k.disk x) k.disk = .error msg d') :
    ∃ k₁, viaLinks sb dev (fun i => onInode i f) fail ip k = .error (.panic msg) k₁ := by
  have hd := hc.silent.disk
  have hcopy : (k'.icache j).di = k'.disk.dinode x := hx ▸ hc.at_end.copy
  have hs' : k'.type j = .T_FILE := by
    unfold Kernel.type
    rw [hcopy, hd]
    exact hs
  rw [← hd] at hf
  refine ⟨{ k' with disk := d' }, ?_⟩
  rw [viaLinks_file _ ht hrun hs']
  simp only [bind, EStateM.bind, onInode_error hx hcopy hf]


theorem onFile_exists (k : Kernel) (x : Nat) : ∃ m j, OnFile k x m j :=
  ⟨{ disk := k.disk, cwd := 0, icache := fun _ =>
      { inum := x, ref := 1, locked := true, valid := true, di := k.disk.dinode x } },
    0, ⟨rfl, le_refl _, rfl⟩, rfl, rfl, rfl⟩

/-- The call on the file itself follows no links. -/
theorem OnFile.call {m : Kernel} (hm : OnFile k x m j) (hs : k.names.type x = .T_FILE) :
    viaLinks sb dev (fun i => onInode i f) fail j m = onInode j f m := by
  apply viaLinks_self
  unfold Kernel.type
  rw [hm.copy]
  exact hs

theorem OnFile.disk_copy {m : Kernel} (hm : OnFile k x m j) : (m.icache j).di = m.disk.dinode x := by
  rw [hm.copy, hm.disk]

/-- A call whose links lead to the file does what the call on the file does. -/
theorem viaLinks_same (dev : Dinode → Option (Ino → KM α)) (fail : α) (h : At sb k ip)
    (ht : k.type ip = .T_SYM) (hrun : follow sb (SYMDEPTH + 1) ip k = .ok (.ok j) k')
    (hc : Chased sb k ip d k' j) (hx : (k'.icache j).inum = x) (hs : k.names.type x = .T_FILE)
    {m : Kernel} {i : Ino} (hm : OnFile k x m i) :
    SameCall (viaLinks sb dev (fun i => onInode i f) fail) k ip x m i := by
  have hdisk := hm.disk
  unfold SameCall
  rw [hm.call hs]
  cases hf : f (inodeOf m.disk x) m.disk with
  | ok ay d' =>
    rw [onInode_ok hm.inum hm.disk_copy hf]
    rw [hdisk] at hf
    obtain ⟨k₁, hok, hd', hdi⟩ := viaLinks_ok dev fail h ht hrun hc hx hs hf
    refine ⟨k₁, hok, hd', fun e h0 hi _ => ?_⟩
    rw [hdi e h0 hi]
    unfold Kernel.wrote
    rw [setEntry_self]
  | error msg d' =>
    rw [onInode_error hm.inum hm.disk_copy hf]
    rw [hdisk] at hf
    exact viaLinks_error dev fail ht hrun hc hx hs hf

/-- A call whose links lead to the file fails if the file part does. -/
theorem fails_of_links (h : At sb k ip) (ht : k.type ip = .T_SYM)
    (hrun : follow sb (SYMDEPTH + 1) ip k = .ok (.ok j) k') (hc : Chased sb k ip d k' j)
    (hx : (k'.icache j).inum = x) (hs : k.names.type x = .T_FILE)
    (hfails : Fails (viaLinks sb dev (fun i => onInode i f) fail) fail k ip) :
    ∃ y d', f (inodeOf k.disk x) k.disk = .ok (fail, y) d' := by
  obtain ⟨k₂, hcall, -⟩ := hfails
  cases hf : f (inodeOf k.disk x) k.disk with
  | ok ay d' =>
    obtain ⟨k₁, hok, -⟩ := viaLinks_ok dev fail h ht hrun hc hx hs hf
    cases hcall.symm.trans hok
    exact ⟨ay.2, d', rfl⟩
  | error msg d' =>
    obtain ⟨k₁, herr⟩ := viaLinks_error dev fail ht hrun hc hx hs hf
    cases hcall.symm.trans herr

/-- If the call on the links stops the kernel, so does the call on the file. -/
theorem SameCall.error {m : Kernel} {i : Ino} {msg : String} (hm : OnFile k x m i)
    (hs : k.names.type x = .T_FILE)
    (h : SameCall (viaLinks sb dev (fun i => onInode i f) fail) k ip x m i)
    (hcall : viaLinks sb dev (fun i => onInode i f) fail ip k = .error (.panic msg) k') :
    ∃ d', f (inodeOf k.disk x) k.disk = .error msg d' := by
  unfold SameCall at h
  rw [hm.call hs] at h
  rw [← hm.disk]
  cases hf : f (inodeOf m.disk x) m.disk with
  | ok ay d' =>
    rw [onInode_ok hm.inum hm.disk_copy hf] at h
    obtain ⟨k₁, hok, -⟩ := h
    cases hcall.symm.trans hok
  | error msg' d' =>
    rw [onInode_error hm.inum hm.disk_copy hf] at h
    obtain ⟨k₁, herr⟩ := h
    cases hcall.symm.trans herr
    exact ⟨d', rfl⟩

/-- The links that are followed of a chain of `d` links to `x`. -/
theorem follow_chain (h : At sb k ip) (hl : k.names.Links d (k.icache ip).inum x)
    (hx : k.names.type x ≠ .T_SYM) :
    (RoomFor (SYMDEPTH + 1) k.names (k.icache ip).inum →
      (d ≤ SYMDEPTH + 1 → ∃ k' j, Chased sb k ip d k' j ∧ (k'.icache j).inum = x ∧
        follow sb (SYMDEPTH + 1) ip k = .ok (.ok j) k') ∧
      (SYMDEPTH + 1 < d → ∃ k' j, Chased sb k ip (SYMDEPTH + 1) k' j ∧
        follow sb (SYMDEPTH + 1) ip k = .ok (.error (some j)) k')) ∧
    (¬ RoomFor (SYMDEPTH + 1) k.names (k.icache ip).inum →
      ∃ k', follow sb (SYMDEPTH + 1) ip k = .error (.panic "iget: no inodes") k') := by
  obtain ⟨hroom, hfull⟩ := follow_cases (SYMDEPTH + 1) h (fun f hb => hb.no_end hl hx)
  refine ⟨fun hr => ?_, hfull⟩
  have htype : ∀ {e k' j}, Chased sb k ip e k' j → k'.type j = k.names.type (k'.icache j).inum := by
    intro e k' j hc
    rw [hc.at_end.type]
    unfold NameSpace.type Kernel.names
    rw [hc.silent.disk]
  rcases hroom hr with ⟨e, k', j, he, hc, ht, hrun⟩ | ⟨k', j, hc, ht, hrun⟩
  · obtain ⟨rfl, hj⟩ := hl.unique hx hc.links (by rw [← htype hc]; exact ht)
    exact ⟨fun _ => ⟨k', j, hc, hj.symm, hrun⟩, fun hlt => absurd hlt (by omega)⟩
  · refine ⟨fun hle => ?_, fun _ => ⟨k', j, hc, hrun⟩⟩
    -- the chain has ended before
    obtain ⟨m, hm⟩ : ∃ m, SYMDEPTH + 1 = d + m := ⟨SYMDEPTH + 1 - d, by omega⟩
    rw [htype hc] at ht
    rw [hm] at hc
    cases hc.links.drop hl with
    | here => exact absurd ht hx
    | hop ht' => exact absurd ht' hx

/-- `out` is the condition on the file under which the file part returns `fail`. -/
theorem viaLinks_depth_iff (h : At sb k ip) (hd : 1 ≤ d)
    (hl : k.names.Links d (k.icache ip).inum x) (hx : k.names.type x = .T_FILE) {out : Prop}
    (hmsg : ∀ msg d', f (inodeOf k.disk x) k.disk = .error msg d' → msg ≠ "iget: no inodes")
    (hout : out → f (inodeOf k.disk x) k.disk = .ok (fail, inodeOf k.disk x) k.disk)
    (hin : ¬ out → ∀ a y d', f (inodeOf k.disk x) k.disk = .ok (a, y) d' → a ≠ fail) :
    DepthSpec (viaLinks sb dev (fun i => onInode i f) fail) fail d k ip x ↔
      (d ≠ SYMDEPTH + 1 ∨ out) ∧ RoomFor (SYMDEPTH + 1) k.names (k.icache ip).inum := by
  have hns : k.names.type x ≠ .T_SYM := by
    rw [hx]
    decide
  have ht : k.type ip = .T_SYM := by
    obtain ⟨e, rfl⟩ : ∃ e, d = e + 1 := ⟨d - 1, by omega⟩
    rw [h.type]
    exact hl.isLink
  obtain ⟨hroom, hfull⟩ := follow_chain h hl hns
  constructor
  · intro hspec
    have hr : RoomFor (SYMDEPTH + 1) k.names (k.icache ip).inum := by
      -- otherwise the call stops where the call on the file does not
      by_contra hr
      obtain ⟨k', hstop⟩ := hfull hr
      have hcall : viaLinks sb dev (fun i => onInode i f) fail ip k =
          .error (.panic "iget: no inodes") k' := by
        rw [viaLinks_eq]
        simp only [bind, EStateM.bind, hstop]
      by_cases hle : d ≤ SYMDEPTH
      · obtain ⟨m, j, hm⟩ := onFile_exists k x
        obtain ⟨d', hf⟩ := (hspec.1 hle m j hm).error hm hx hcall
        exact hmsg _ _ hf rfl
      · obtain ⟨k₂, hfails, -⟩ := hspec.2 (by omega)
        cases hcall.symm.trans hfails
    refine ⟨?_, hr⟩
    by_contra hno
    obtain ⟨he, hno⟩ := not_or.mp hno
    have he : d = SYMDEPTH + 1 := not_not.mp he
    -- the loop reaches the file, so that the result is not `fail`
    obtain ⟨k', j, hc, hj, hrun⟩ := (hroom hr).1 (by omega)
    obtain ⟨y, d', hf⟩ := fails_of_links h ht hrun hc hj hx (hspec.2 (by omega))
    exact hin hno _ _ _ hf rfl
  · rintro ⟨hc16, hr⟩
    refine ⟨fun hle m j hm => ?_, fun hlt => ?_⟩
    · obtain ⟨k', j', hc, hj, hrun⟩ := (hroom hr).1 (by omega)
      exact viaLinks_same dev fail h ht hrun hc hj hx hm
    · by_cases he : d = SYMDEPTH + 1
      · obtain ⟨k', j, hc, hj, hrun⟩ := (hroom hr).1 (by omega)
        obtain ⟨k₁, hok, hd', -⟩ := viaLinks_ok dev fail h ht hrun hc hj hx
          (hout (hc16.resolve_left (not_not.mpr he)))
        exact ⟨k₁, hok, hd'⟩
      · obtain ⟨k', j, hc, hrun⟩ := (hroom hr).2 (by omega)
        exact viaLinks_tooLong _ h ht hrun hc

/-- Links without an end. -/
theorem viaLinks_endless_iff (file : Ino → KM α) (h : At sb k ip)
    (hl : ∀ e, ∃ x, k.names.Links e (k.icache ip).inum x) :
    Fails (viaLinks sb dev file fail) fail k ip ↔ RoomFor (SYMDEPTH + 1) k.names (k.icache ip).inum := by
  obtain ⟨hroom, hfull⟩ := follow_cases (SYMDEPTH + 1) h (fun f hb => hb.endless hl)
  have ht : k.type ip = .T_SYM := by
    obtain ⟨x, hx⟩ := hl 1
    rw [h.type]
    exact hx.isLink
  refine ⟨fun ⟨k₂, hok, _⟩ => ?_, fun hr => ?_⟩
  · by_contra hr
    obtain ⟨k', hstop⟩ := hfull hr
    rw [viaLinks_eq] at hok
    simp only [bind, EStateM.bind, hstop] at hok
    cases hok
  · rcases hroom hr with ⟨e, k', j, -, hc, hns, -⟩ | ⟨k', j, hc, -, hrun⟩
    · -- the chain goes on
      obtain ⟨x, hx⟩ := hl (e + 1)
      have hsym := (hx.drop hc.links).isLink
      rw [hc.at_end.type] at hns
      unfold NameSpace.type Kernel.names at hsym hns
      rw [hc.silent.disk] at hns
      exact absurd hsym hns
    · exact viaLinks_tooLong file h ht hrun hc

end Depth


/-! ## `readi` and `writei` of a file -/

section FileCalls

variable {α β : Type} {sb : Superblock} {x : Inode} {d d' : Disk} {src : Nat → UInt8} {off n : UInt32}

/-- The offset is behind the end of the file, or the end of the range overflows. -/
def OutOfRange (size : Nat) (off n : UInt32) : Prop := off.toNat > size ∨ off + n < off

instance (size : Nat) (off n : UInt32) : Decidable (OutOfRange size off n) :=
  inferInstanceAs (Decidable (_ ∨ _))

theorem readPart_out (h : OutOfRange x.size off n) :
    readPart sb off n x d = .ok ((-1, []), x) d := by
  have h' : off.toNat > x.size ∨ off + n < off := h
  unfold readPart readiFile
  rw [if_pos h']
  rfl

/-- A file is read without a panic, and -1 is the result for no range of it. -/
theorem readPart_in (off n : UInt32) (h : Sound sb d d.dinode) (hf : d.dinode x.inum = x.toDinode)
    (ht : x.type = .T_FILE) : ∃ r, readPart sb off n x d = .ok r d ∧
      (¬ OutOfRange x.size off n → r.1 ≠ (-1, [])) := by
  have hread := h.readiFile x hf (.inl ht) off n
  unfold readPart
  split_ifs at hread with hin
  · refine ⟨_, Lib.run_bind hread, fun _ he => ?_⟩
    have hfst := congrArg Prod.fst he
    have hpos : ((min n.toNat (x.size - off.toNat) : Nat) : Int) = -1 := hfst
    omega
  · refine ⟨_, Lib.run_bind hread, fun hno => absurd ?_ hno⟩
    unfold OutOfRange
    rw [add_lt_iff]
    omega

theorem writeiFile_out (h : OutOfRange x.size off n ∨ (off + n).toNat > MAXFILE * BSIZE) :
    writeiFile sb x src off n d = .ok (-1, x) d := by
  unfold writeiFile
  by_cases h' : off.toNat > x.size ∨ off + n < off
  · rw [if_pos h']
    rfl
  · rw [if_neg h']
    show (if (off + n).toNat > MAXFILE * BSIZE then _ else _ : FsM (Int × Inode)) d = _
    rw [if_pos (h.resolve_left h')]
    rfl

theorem wp_any {ε σ β : Type} (x : EStateM ε σ β) (s : σ) :
    Lib.wp x (fun _ _ => True) (fun _ _ => True) s := by
  unfold Lib.wp
  cases x s <;> trivial

theorem writeiFile_in (h : ¬ (OutOfRange x.size off n ∨ (off + n).toNat > MAXFILE * BSIZE)) {a : Int}
    {y : Inode} (hrun : writeiFile sb x src off n d = .ok (a, y) d') : a ≠ -1 := by
  obtain ⟨hin, hmax⟩ := not_or.mp h
  have hin' : ¬ (off.toNat > x.size ∨ off + n < off) := hin
  have hpos : 0 ≤ asInt n.toNat := by
    have hlt : n.toNat < 2 ^ 31 := by
      have hno : ¬ off + n < off := fun h => hin (.inr h)
      have hmax' : MAXFILE * BSIZE < 2 ^ 31 := by decide
      rw [UInt32.lt_iff_toNat_lt, UInt32.toNat_add] at hno
      rw [UInt32.toNat_add] at hmax
      have hn := n.toNat_lt
      have ho := off.toNat_lt
      omega
    unfold asInt
    rw [if_pos hlt]
    exact Int.natCast_nonneg _
  have hw : Lib.wp (writeiFile sb x src off n) (fun r _ => 0 ≤ r.1) (fun _ _ => True) d := by
    unfold writeiFile
    simp only [if_neg hin', if_neg hmax]
    refine (wp_any (writeLoop sb _ x src off.toNat _) d).bind (fun _ _ h => h) ?_
    intro r d₁ _
    split_ifs
    · exact (wp_any _ _).bind (fun _ _ h => h) (fun _ _ _ => hpos)
    · exact hpos
  have h0 : 0 ≤ a := hw.ok hrun
  omega

/-- Code on the disk that stops for other reasons than the inode cache. -/
def Uncached (f : FsM α) : Prop :=
  ∀ d, Lib.wp f (fun _ _ => True) (fun msg _ => msg ≠ "iget: no inodes") d

theorem Uncached.bind {f : FsM α} {g : α → FsM β} (h : Uncached f) (hg : ∀ a, Uncached (g a)) :
    Uncached (f >>= g) := fun d => (h d).bind (fun _ _ h => h) (fun a d' _ => hg a d')

theorem Uncached.ite {c : Prop} [Decidable c] {f g : FsM α} (h : Uncached f) (hg : Uncached g) :
    Uncached (if c then f else g) := by
  split_ifs
  · exact h
  · exact hg

theorem uncached_pure (a : α) : Uncached (pure a : FsM α) := fun _ => trivial

theorem uncached_balloc (sb : Superblock) : Uncached (balloc sb) := by
  intro d
  unfold balloc
  refine Lib.wp_get ?_
  cases scanBlocks sb d.bitmap (sb.size / BPB + 1) 0 with
  | none => exact fun h => absurd h (by decide)
  | some b => trivial

theorem uncached_bmaproot (sb : Superblock) (ip : Dinode) (r : Fin 13) : Uncached (bmaproot sb ip r) :=
  .ite ((uncached_balloc sb).bind fun _ => uncached_pure _) (uncached_pure _)

theorem uncached_bmapstep (sb : Superblock) (addr idx : Nat) : Uncached (bmapstep sb addr idx) :=
  Uncached.bind (fun _ => trivial) fun _ =>
    .ite ((uncached_balloc sb).bind fun _ => Uncached.bind (fun _ => trivial) fun _ => uncached_pure _)
      (uncached_pure _)

theorem uncached_bmap (sb : Superblock) (ip : Dinode) (bn : Nat) : Uncached (bmap sb ip bn) := by
  have hstep := uncached_bmapstep sb
  unfold bmap
  split
  · exact uncached_bmaproot sb ip _
  dsimp only
  split
  · exact (uncached_bmaproot sb ip 10).bind fun _ => (hstep _ _).bind fun _ => uncached_pure _
  generalize bn - NDIRECT - NINDIRECT = m
  split
  · exact (uncached_bmaproot sb ip 11).bind fun _ => (hstep _ _).bind fun _ => (hstep _ _).bind fun _ =>
      uncached_pure _
  generalize m - NDOUBLE = t
  split
  · exact (uncached_bmaproot sb ip 12).bind fun _ => (hstep _ _).bind fun _ => (hstep _ _).bind fun _ =>
      (hstep _ _).bind fun _ => uncached_pure _
  · exact fun _ h => absurd h (by decide)

theorem uncached_writeLoop (sb : Superblock) : ∀ (fuel : Nat) (ip : Inode) (src : Nat → UInt8) (off n : Nat),
    Uncached (writeLoop sb fuel ip src off n) := by
  intro fuel
  induction fuel with
  | zero => exact fun _ _ _ _ => uncached_pure _
  | succ fuel ih =>
    intro ip src off n
    unfold writeLoop
    refine .ite (uncached_pure _) ((uncached_bmap sb _ _).bind fun r => ?_)
    exact Uncached.bind (fun _ => trivial) fun _ => Uncached.bind (fun _ => trivial) fun _ => ih _ _ _ _

theorem uncached_writeiFile (sb : Superblock) (x : Inode) (src : Nat → UInt8) (off n : UInt32) :
    Uncached (writeiFile sb x src off n) := by
  unfold writeiFile
  refine .ite (uncached_pure _) (.ite (uncached_pure _) ((uncached_writeLoop sb _ _ _ _ _).bind fun r => ?_))
  exact .ite (Uncached.bind (fun _ => trivial) fun _ => uncached_pure _) (uncached_pure _)

end FileCalls

/-- `readi` and `writei` do for a chain of `d` links what is announced, except for
`SYMDEPTH + 1` links and a range that the file has, and except when the lookups find no
room in the cache. Links without an end give -1, with room for the lookups. -/
theorem link_depth {devsw : Fin NDEV → Devsw} {sb : Superblock} {k : Kernel} {ip : Ino}
    (h : At sb k ip) (off n : UInt32) (src : Nat → UInt8) :
    (∀ d x, 1 ≤ d → k.names.Links d (k.icache ip).inum x → k.names.type x = .T_FILE →
      (DepthSpec (fun i => readi devsw sb i off n) (-1, []) d k ip x ↔
        (d ≠ SYMDEPTH + 1 ∨ OutOfRange (k.disk.dinode x).size off n) ∧
          k.names.RoomFor (SYMDEPTH + 1) (k.icache ip).inum) ∧
      (DepthSpec (fun i => writei devsw sb i src off n) (-1) d k ip x ↔
        (d ≠ SYMDEPTH + 1 ∨ OutOfRange (k.disk.dinode x).size off n ∨
            (off + n).toNat > MAXFILE * BSIZE) ∧
          k.names.RoomFor (SYMDEPTH + 1) (k.icache ip).inum)) ∧
    ((∀ d, ∃ x, k.names.Links d (k.icache ip).inum x) →
      (Fails (fun i => readi devsw sb i off n) (-1, []) k ip ↔
        k.names.RoomFor (SYMDEPTH + 1) (k.icache ip).inum) ∧
      (Fails (fun i => writei devsw sb i src off n) (-1) k ip ↔
        k.names.RoomFor (SYMDEPTH + 1) (k.icache ip).inum)) := by
  refine ⟨fun d x hd hl hx => ⟨?_, ?_⟩, fun hl => ⟨?_, ?_⟩⟩
  · obtain ⟨r, hrun, hne⟩ := readPart_in off n h.settled.sound
      (x := inodeOf k.disk x) rfl hx
    refine viaLinks_depth_iff (f := readPart sb off n) h hd hl hx (fun msg d' herr => ?_)
      (fun hout => readPart_out hout) (fun hno a y d' hok => ?_)
    · cases hrun.symm.trans herr
    · cases hrun.symm.trans hok
      exact hne hno
  · exact viaLinks_depth_iff (f := fun x => writeiFile sb x src off n) h hd hl hx
      (fun msg d' herr => (uncached_writeiFile sb _ src off n k.disk).error herr)
      (fun hout => writeiFile_out hout) (fun hno a y d' hok => writeiFile_in hno hok)
  · exact viaLinks_endless_iff _ h hl
  · exact viaLinks_endless_iff _ h hl


/-! ## Small disks -/

/-- A disk on which every inode has a name. -/
structure Tidy (sb : Superblock) (d : Disk) : Prop where
  sound : Sound sb d d.dinode
  entries : ∀ i, (d.dinode i).type = .T_DIR → 16 ∣ (d.dinode i).size
  named : ∀ i, (d.dinode i).type ≠ .none → (d.dinode i).nlink ≠ 0
  paths : ∀ i, (d.dinode i).type = .T_SYM → 0 ∈ linkBytes (d.dinode i)
  devices : ∀ i, (d.dinode i).type = .T_DEV → ∀ r, (d.dinode i).root r = 0
  root : (d.dinode ROOTINO).type = .T_DIR

/-- A file of one byte, in block 11. -/
def oneByte : Dinode :=
  { type := .T_FILE, nlink := 1, size := 1, addrs := fun r => if r = 0 then 11 else 0 }

/-- `/a` is a file of one byte; `/b`, `/c` and so on are links to the paths. -/
def linkDisk (paths : List (List UInt8)) : Disk :=
  { smallDisk (oneByte :: paths.map linkTo) with bitmap := fun b => decide (b ≤ 11) }

theorem linkDisk_dinode (paths : List (List UInt8)) (i : Nat) :
    i = 1 ∨ i = 2 ∧ (linkDisk paths).dinode i = oneByte ∨
      (∃ p ∈ paths, (linkDisk paths).dinode i = linkTo p) ∨ (linkDisk paths).dinode i = {} := by
  have hi : (linkDisk paths).dinode i =
      if i = ROOTINO then (linkDisk paths).dinode 1
      else if 2 ≤ i then (oneByte :: paths.map linkTo).getD (i - 2) {} else {} := by
    by_cases h1 : i = ROOTINO
    · rw [if_pos h1, h1]
    · rw [if_neg h1]
      show (if i = ROOTINO then _ else _) = _
      rw [if_neg h1]
  by_cases h1 : i = ROOTINO
  · exact .inl h1
  · rw [hi, if_neg h1]
    by_cases h2 : 2 ≤ i
    · rw [if_pos h2]
      obtain ⟨j, rfl⟩ : ∃ j, i = j + 2 := ⟨i - 2, by omega⟩
      rw [Nat.add_sub_cancel]
      cases j with
      | zero => exact .inr (.inl ⟨rfl, rfl⟩)
      | succ j =>
        by_cases hj : j < paths.length
        · refine .inr (.inr (.inl ⟨paths[j], List.getElem_mem hj, ?_⟩))
          simp [hj]
        · refine .inr (.inr (.inr ?_))
          simp [hj]
    · rw [if_neg h2]
      exact .inr (.inr (.inr rfl))

/-- One direct block. -/
theorem root_single {di : Dinode} {b : Nat} (h : di.addrs = fun r => if r = 0 then b else 0)
    (hD : di.D_addr = 0) (hT : di.T_addr = 0) (r : Fin 13) : di.root r = if r = 0 then b else 0 := by
  have hcases : ∀ x : Fin 13, x.val < 11 ∨ x = 11 ∨ x = 12 := by decide
  rcases hcases r with hr | rfl | rfl
  · have hzero : (⟨r.val, hr⟩ : Fin (NDIRECT + 1)) = 0 ↔ r = 0 := by
      rw [Fin.ext_iff, Fin.ext_iff]
      exact Iff.rfl
    unfold Dinode.root
    rw [dif_pos hr, h]
    simp only [hzero]
  · exact hD
  · exact hT

theorem linkDisk_root (paths : List (List UInt8)) :
    ((linkDisk paths).dinode 1).size = 16 * (paths.length + 3) := by
  show 16 * ((oneByte :: paths.map linkTo).length + 2) = _
  rw [List.length_cons, List.length_map]

/-- The root and the file have one block each. -/
theorem linkDisk_file {paths : List (List UInt8)} (hlen : paths.length ≤ 29) {i : Nat}
    (hi : ((linkDisk paths).dinode i).isFile) : ∃ b, (i = 1 ∧ b = 10 ∨ i = 2 ∧ b = 11) ∧
      (∀ r, ((linkDisk paths).dinode i).root r = if r = 0 then b else 0) ∧
      ((linkDisk paths).dinode i).size ≤ BSIZE := by
  have hB : BSIZE = 512 := rfl
  rcases linkDisk_dinode paths i with rfl | ⟨rfl, h⟩ | ⟨p, -, h⟩ | h
  · refine ⟨10, .inl ⟨rfl, rfl⟩, root_single rfl rfl rfl, ?_⟩
    rw [linkDisk_root, hB]
    omega
  · rw [h]
    exact ⟨11, .inr ⟨rfl, rfl⟩, root_single rfl rfl rfl, by decide⟩
  · rw [h] at hi
    rcases hi with hi | hi <;> cases hi
  · rw [h] at hi
    rcases hi with hi | hi <;> cases hi

theorem linkDisk_sound {paths : List (List UInt8)} (hlen : paths.length ≤ 29) :
    Sound smallSuper (linkDisk paths) (linkDisk paths).dinode := by
  have hB : BSIZE = 512 := rfl
  have hbit : ∀ b, b ≤ 11 → (linkDisk paths).bitmap b = true := fun b hb => decide_eq_true hb
  refine sound_of_direct 3 (fun i hi => ?_) (fun b hb => hbit b ?_) (fun i _ hi r hr => ?_)
    (fun i _ hi r hne => ?_) (fun i _ j _ hi hj r r' hne he => ?_) (fun i _ hi => ⟨?_, fun r hr => ?_⟩)
  · obtain ⟨b, hb, -⟩ := linkDisk_file hlen hi
    omega
  · have hb' : b < 10 := hb
    omega
  · obtain ⟨b, -, hroot, -⟩ := linkDisk_file hlen hi
    rw [hroot, if_neg (fun h => by rw [h] at hr; exact absurd hr (by decide))]
  · obtain ⟨b, hb, hroot, -⟩ := linkDisk_file hlen hi
    rw [hroot] at hne ⊢
    have hr : r = 0 := by
      by_contra hr
      exact hne (if_neg hr)
    rw [if_pos hr]
    exact ⟨hbit b (by omega), by show 10 ≤ b; omega⟩
  · obtain ⟨b, hb, hroot, -⟩ := linkDisk_file hlen hi
    obtain ⟨b', hb', hroot', -⟩ := linkDisk_file hlen hj
    rw [hroot] at hne he
    rw [hroot'] at he
    have hr : r = 0 := by
      by_contra hr
      exact hne (if_neg hr)
    rw [if_pos hr] at he hne
    have hr' : r' = 0 := by
      by_contra hr'
      rw [if_neg hr'] at he
      exact hne he
    rw [if_pos hr'] at he
    exact ⟨by omega, by rw [hr, hr']⟩
  · obtain ⟨b, -, -, hsize⟩ := linkDisk_file hlen hi
    omega
  · obtain ⟨b, hb, hroot, hsize⟩ := linkDisk_file hlen hi
    have hr0 : r = 0 := Fin.ext (by
      show r.val = 0
      rw [hB] at hr hsize
      omega)
    rw [hroot, if_pos hr0]
    omega

theorem linkDisk_tidy {paths : List (List UInt8)} (hlen : paths.length ≤ 29)
    (hpaths : ∀ p ∈ paths, 0 ∈ linkBytes (linkTo p)) : Tidy smallSuper (linkDisk paths) := by
  refine ⟨linkDisk_sound hlen, fun i ht => ?_, fun i ht => ?_, fun i ht => ?_, fun i ht => ?_, rfl⟩
  · rcases linkDisk_dinode paths i with rfl | ⟨-, h⟩ | ⟨p, -, h⟩ | h
    · exact ⟨_, linkDisk_root paths⟩
    · rw [h] at ht
      cases ht
    · rw [h] at ht
      cases ht
    · rw [h] at ht
      cases ht
  · rcases linkDisk_dinode paths i with rfl | ⟨-, h⟩ | ⟨p, -, h⟩ | h
    · show (1 : Int16) ≠ 0
      decide
    · rw [h]
      decide
    · rw [h]
      show (1 : Int16) ≠ 0
      decide
    · rw [h] at ht
      exact absurd rfl ht
  · rcases linkDisk_dinode paths i with rfl | ⟨-, h⟩ | ⟨p, hp, h⟩ | h
    · cases ht
    · rw [h] at ht
      cases ht
    · rw [h]
      exact hpaths p hp
    · rw [h] at ht
      cases ht
  · rcases linkDisk_dinode paths i with rfl | ⟨-, h⟩ | ⟨p, -, h⟩ | h
    · cases ht
    · rw [h] at ht
      cases ht
    · rw [h] at ht
      cases ht
    · rw [h] at ht
      cases ht

/-- The root is the current directory and `inum` is open. -/
theorem Tidy.at {sb : Superblock} {d : Disk} (h : Tidy sb d) (inum : Nat) (hne : inum ≠ ROOTINO)
    (ht : (d.dinode inum).type ≠ .none) : At sb (openKernel d inum) 1 := by
  have hentry : ∀ i : Ino, 0 < (openKernel d inum).refs i → i = 0 ∨ i = 1 := by
    intro i hi
    by_contra hno
    obtain ⟨h0, h1⟩ := not_or.mp hno
    have hz : (openKernel d inum).refs i = 0 := by
      unfold Kernel.refs openKernel
      simp only [if_neg h0, if_neg h1]
    rw [hz] at hi
    exact absurd hi (lt_irrefl 0)
  have h0 : (openKernel d inum).icache 0 = { dev := ROOTDEV, inum := ROOTINO, ref := 1 } := rfl
  have h1 : (openKernel d inum).icache 1 =
      { dev := ROOTDEV, inum := inum, ref := 1, locked := true, valid := true, di := d.dinode inum } := rfl
  refine ⟨⟨⟨fun i => ?_, fun i j hi hj he => ?_, fun i hi hv => ?_⟩, h.sound, h.entries,
    fun i ht hn => absurd hn (h.named i ht), h.paths, ?_, h.root, rfl⟩, fun i => ?_, ?_, rfl⟩
  · unfold Kernel.refs openKernel
    dsimp only
    split_ifs
    · exact Int.one_nonneg
    · exact Int.one_nonneg
    · exact le_refl _
  · rcases hentry i hi with rfl | rfl <;> rcases hentry j hj with rfl | rfl
    · rfl
    · exact absurd he.symm hne
    · exact absurd he hne
    · rfl
  · rcases hentry i hi with rfl | rfl
    · cases hv
    · exact ⟨rfl, ht⟩
  · exact Int.one_pos
  · refine ⟨fun hl => ?_, fun hi => by rw [hi]; rfl⟩
    by_contra hne
    unfold Kernel.locks openKernel at hl
    by_cases h0 : i = 0
    · simp [h0] at hl
    · simp [h0, hne] at hl
  · exact Int.one_pos


/-- `/a` is a file of one byte, `/b` a link to it and `/c` a link to `/b`; `/d` and `/e` are
links to one another. -/
def chainAndCycle : Disk := linkDisk [[slash, 97], [slash, 98], [slash, 101], [slash, 100]]

theorem chainAndCycle_tidy : Tidy smallSuper chainAndCycle :=
  linkDisk_tidy (by decide) (by decide +kernel)

/-- The two links of the cycle lead to each other for ever. -/
theorem cycle_endless : ∀ d, ∃ x, (openKernel chainAndCycle 5).names.Links d 5 x := by
  have hboth : ∀ d, (∃ x, (openKernel chainAndCycle 5).names.Links d 5 x) ∧
      ∃ x, (openKernel chainAndCycle 5).names.Links d 6 x := by
    intro d
    induction d with
    | zero => exact ⟨⟨5, .here 5⟩, 6, .here 6⟩
    | succ d ih =>
      obtain ⟨⟨x, hx⟩, y, hy⟩ := ih
      exact ⟨⟨y, .hop rfl (m := 6) (by decide +kernel) hy⟩, x, .hop rfl (m := 5) (by decide +kernel) hx⟩
  exact fun d => (hboth d).1

/-- `/c` is read and written as `/a` is, and what is on the cycle gives -1. -/
theorem link_depth_chainAndCycle :
    DepthSpec (fun i => readi (fun _ => {}) smallSuper i 0 1) (-1, []) 2
      (openKernel chainAndCycle 4) 1 2 ∧
    DepthSpec (fun i => writei (fun _ => {}) smallSuper i (fun _ => 7) 1 2) (-1) 2
      (openKernel chainAndCycle 4) 1 2 ∧
    Fails (fun i => readi (fun _ => {}) smallSuper i 0 1) (-1, []) (openKernel chainAndCycle 5) 1 ∧
    Fails (fun i => writei (fun _ => {}) smallSuper i (fun _ => 7) 1 2) (-1)
      (openKernel chainAndCycle 5) 1 := by
  have hchain := chainAndCycle_tidy.at 4 (by decide) (by decide)
  have hcycle := chainAndCycle_tidy.at 5 (by decide) (by decide)
  have hlinks : (openKernel chainAndCycle 4).names.Links 2 4 2 := by decide +kernel
  have hroom : (openKernel chainAndCycle 4).names.RoomFor (SYMDEPTH + 1) 4 := by decide +kernel
  have hroom' : (openKernel chainAndCycle 5).names.RoomFor (SYMDEPTH + 1) 5 := by decide +kernel
  have hread := (@link_depth (fun _ => {}) smallSuper _ 1 hchain 0 1 (fun _ => 7)).1 2 2 (by decide) hlinks rfl
  have hwrite := (@link_depth (fun _ => {}) smallSuper _ 1 hchain 1 2 (fun _ => 7)).1 2 2 (by decide) hlinks rfl
  exact ⟨hread.1.mpr ⟨.inl (by decide), hroom⟩, hwrite.2.mpr ⟨.inl (by decide), hroom⟩,
    ((@link_depth (fun _ => {}) smallSuper _ 1 hcycle 0 1 (fun _ => 7)).2 cycle_endless).1.mpr hroom',
    ((@link_depth (fun _ => {}) smallSuper _ 1 hcycle 1 2 (fun _ => 7)).2 cycle_endless).2.mpr hroom'⟩

/-- Sixteen links, `/b` to `/q`, each naming the file before it, and the regular file `/a`
of one byte; the last link is open. -/
def sixteenLinks : Kernel :=
  openKernel (linkDisk ((List.range 16).map fun i => [slash, UInt8.ofNat (97 + i)])) 18

/-- The last of sixteen links is read as the file is, although fifteen are announced. -/
theorem sixteenLinks_read : At smallSuper sixteenLinks 1 ∧
    sixteenLinks.names.Links (SYMDEPTH + 1) 18 2 ∧ sixteenLinks.names.type 2 = .T_FILE ∧
    ¬ DepthSpec (fun i => readi (fun _ => {}) smallSuper i 0 1) (-1, []) (SYMDEPTH + 1)
      sixteenLinks 1 2 := by
  have htidy : Tidy smallSuper (linkDisk ((List.range 16).map fun i => [slash, UInt8.ofNat (97 + i)])) :=
    linkDisk_tidy (by decide) (by decide +kernel)
  have hread : (match readi (fun _ => {}) smallSuper 1 0 1 sixteenLinks with
      | .ok r _ => decide (r.1 = 1)
      | .error _ _ => false) = true := by decide +kernel
  refine ⟨htidy.at _ (by decide) (by decide +kernel), by decide +kernel, rfl, fun hspec => ?_⟩
  obtain ⟨k₂, hfail, -⟩ := hspec.2 (by decide)
  have hfail' : readi (fun _ => {}) smallSuper 1 0 1 sixteenLinks = .ok (-1, []) k₂ := hfail
  rw [hfail'] at hread
  exact absurd (of_decide_eq_true hread) (by decide)

end Xv6.File
