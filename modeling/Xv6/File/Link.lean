import Xv6.File.Bmap
import Xv6.File.Icache

/- `readi` and `writei` of any inode, symbolic links included
   (`project3_filesystem/fs.c`).

   A link is followed by `follow`, which hands the lock of the caller over to the
   inode the link names, and `restore` hands it back. The two functions have the
   same text around what they do with a device and with a file, so that it is one
   definition here. -/
namespace Xv6.File

open Fs (BSIZE)

abbrev SYMDEPTH : Nat := 15

/-! ## The target of a link -/

/-- The four bytes of a `uint` in memory. -/
def wordBytes (w : Nat) : List UInt8 :=
  [UInt8.ofNat w, UInt8.ofNat (w / 2 ^ 8), UInt8.ofNat (w / 2 ^ 16), UInt8.ofNat (w / 2 ^ 24)]

/-- The 52 bytes of `addrs`, `D_addr` and `T_addr`. -/
def linkBytes (di : Dinode) : List UInt8 :=
  (List.finRange 13).flatMap fun r => wordBytes (di.root r)

namespace Kernel

/-- The bytes behind the inode: the `dev` of the next one. While nothing was written
behind an inode it is 0 or 1, and has a NUL in it. -/
def behindInode (k : Kernel) (ip : Ino) : List UInt8 :=
  if h : ip.val + 1 < NINODE then wordBytes (k.icache ⟨ip.val + 1, h⟩).dev else k.behind

/-- `(char*)&ip->addrs`, up to the first NUL. -/
def linkPath (k : Kernel) (ip : Ino) : List UInt8 :=
  (linkBytes (k.icache ip).di ++ k.behindInode ip).takeWhile (· ≠ 0)

end Kernel

/-! ## `readi` and `writei` -/

/-- The loop over the links, for the hops that are left. It ends with an inode that is
no link, or with the `ip` at `bad`. The code reads the path where it is while `namei`
runs, which is the same when there is a NUL in the 52 bytes: `namei` writes to none of
them. Without one, `namei` can make the `dev` behind them 1 before it is read. -/
def follow (sb : Superblock) : Nat → Ino → KM (Except (Option Ino) Ino)
  | 0, ip => do
    if (← get).type ip = .T_SYM then return .error (some ip)
    else return .ok ip
  | left + 1, ip => do
    let k ← get
    if k.type ip = .T_SYM then
      iunlock ip
      match ← namei sb (k.linkPath ip) with
      | none => return .error none
      | some ip =>
        ilock ip
        follow sb left ip
    else return .ok ip

/-- The end of both functions, also at `bad`. -/
def restore (original ip : Option Ino) : KM Unit :=
  match original with
  | none => return ()
  | some original => do
    match ip with
    | none => pure ()
    | some ip => iunlock ip
    ilock original

/-- What `readi` and `writei` have in common. `dev` is the function of a device, if
its major number is valid and it has one, and `file` the part for files. -/
def viaLinks {α : Type} (sb : Superblock) (dev : Dinode → Option (Ino → KM α)) (file : Ino → KM α)
    (fail : α) (ip : Ino) : KM α := do
  let original := if (← get).type ip = .T_SYM then some ip else none
  match ← follow sb (SYMDEPTH + 1) ip with
  | .error ip =>
    restore original ip
    return fail
  | .ok ip =>
    let di := ((← get).icache ip).di
    if di.type = .T_DEV then
      match dev di with
      | none =>
        restore original (some ip)
        return fail
      | some f => f ip
    else
      let a ← file ip
      restore original (some ip)
      return a

/-- An entry of `devsw`. -/
structure Devsw where
  read : Option (Ino → Int → KM (Int × List UInt8)) := none
  write : Option (Ino → (Nat → UInt8) → Int → KM Int) := none

/-- `devsw[ip->major]`, if the number is in range. -/
def device (devsw : Fin NDEV → Devsw) (di : Dinode) : Option Devsw :=
  if h : 0 ≤ di.major.toInt ∧ di.major.toInt < NDEV then some (devsw ⟨di.major.toInt.toNat, by omega⟩)
  else none

def devread (devsw : Fin NDEV → Devsw) (n : UInt32) (di : Dinode) :
    Option (Ino → KM (Int × List UInt8)) :=
  (device devsw di).bind fun d => d.read.map fun f ip => f ip (asInt n.toNat)

def devwrite (devsw : Fin NDEV → Devsw) (src : Nat → UInt8) (n : UInt32) (di : Dinode) :
    Option (Ino → KM Int) :=
  (device devsw di).bind fun d => d.write.map fun f ip => f ip src (asInt n.toNat)

/-- The last part of `readi`, of the locked inode `ip`. -/
def readFile (sb : Superblock) (off n : UInt32) (ip : Ino) : KM (Int × List UInt8) :=
  onInode ip fun x => do
    let (r, x, bs) ← readiFile sb x off n
    return ((r, bs), x)

/-- The last part of `writei`. -/
def writeFile (sb : Superblock) (src : Nat → UInt8) (off n : UInt32) (ip : Ino) : KM Int :=
  onInode ip fun x => writeiFile sb x src off n

def readi (devsw : Fin NDEV → Devsw) (sb : Superblock) (ip : Ino) (off n : UInt32) :
    KM (Int × List UInt8) :=
  viaLinks sb (devread devsw n) (readFile sb off n) (-1, []) ip

def writei (devsw : Fin NDEV → Devsw) (sb : Superblock) (ip : Ino) (src : Nat → UInt8)
    (off n : UInt32) : KM Int :=
  viaLinks sb (devwrite devsw src n) (writeFile sb src off n) (-1) ip

/-! ## Chains of links -/

/-- `n` links after one another, the first one in `ip`, the last one naming `j`; each
is followed as `follow` does it. -/
inductive Hops (sb : Superblock) : Nat → Kernel → Ino → Kernel → Ino → Prop
  | here (k : Kernel) (ip : Ino) : Hops sb 0 k ip k ip
  | hop {n : Nat} {k k₁ k₂ k₃ k' : Kernel} {ip i j : Ino} (ht : k.type ip = .T_SYM)
      (hu : iunlock ip k = .ok () k₁) (hn : namei sb (k.linkPath ip) k₁ = .ok (some i) k₂)
      (hl : ilock i k₂ = .ok () k₃) (h : Hops sb n k₃ i k' j) : Hops sb (n + 1) k ip k' j

section Rules

variable {sb : Superblock} {k k' k'' : Kernel} {ip j : Ino} {n left : Nat}

/-- A call that is known by its result. -/
theorem wp_bind_run {α β : Type} {x : KM α} {f : α → KM β} {Q : β → Kernel → Prop}
    (h : ∀ a k₁, x k = .ok a k₁ → Lib.wp (f a) Q Any k₁) : Lib.wp (x >>= f) Q Any k := by
  apply Lib.wp_bind
  unfold Lib.wp
  cases hx : x k with
  | ok a k₁ => exact h a k₁ hx
  | error e k₁ => trivial

theorem follow_stop (h : k.type ip ≠ .T_SYM) : follow sb left ip k = .ok (.ok ip) k := by
  cases left <;>
  · unfold follow
    rw [run_get, if_neg h]
    rfl

theorem follow_succ (h : k.type ip = .T_SYM) : follow sb (left + 1) ip k = (do
    iunlock ip
    match ← namei sb (k.linkPath ip) with
    | none => return .error none
    | some ip =>
      ilock ip
      follow sb left ip : KM (Except (Option Ino) Ino)) k := by
  rw [follow, run_get, if_pos h]

/-- A chain of links is followed to its end while there are hops left. -/
theorem follow_hops (h : Hops sb n k ip k' j) :
    ∀ left, n ≤ left → follow sb left ip k = follow sb (left - n) j k' := by
  induction h with
  | here => exact fun left _ => rfl
  | @hop n k k₁ k₂ k₃ k' ip i j ht hu hna hl _ ih =>
    intro left hn
    obtain ⟨left, rfl⟩ : ∃ m, left = m + 1 := ⟨left - 1, by omega⟩
    rw [follow_succ ht, Lib.run_bind hu, Lib.run_bind hna]
    show (ilock i >>= fun _ => follow sb left i) k₂ = _
    rw [Lib.run_bind hl, ih left (by omega)]
    congr 1
    omega

/-- What a run of `follow` has done: `R` are the references, none less than before, and
only the lock of the inode it ends at is different. -/
structure Followed (sb : Superblock) (left : Nat) (k : Kernel) (ip : Ino) (k' : Kernel) (j : Ino) :
    Prop where
  hops : ∃ n, n ≤ left ∧ Hops sb n k ip k' j
  refs : ∀ i, k.refs i ≤ k'.refs i
  moved : Moved k k' (Function.update (Function.update k.locks ip false) j true) k'.refs
  free : Function.update k.locks ip false j = false
  held : 1 ≤ k'.refs j ∧ (k'.icache j).valid = true ∨ k' = k ∧ j = ip

/-- The reference and the lock of the link itself stay what they are. -/
theorem Followed.here (hl : k.locks ip = true) : Followed sb left k ip k ip := by
  have hm := Moved.refl k
  have hup : Function.update (Function.update k.locks ip false) ip true = k.locks := by
    rw [Function.update_idem, ← hl, Function.update_eq_self]
  refine ⟨⟨0, Nat.zero_le _, .here k ip⟩, fun i => le_refl _, ?_, ?_, .inr ⟨rfl, rfl⟩⟩
  · rw [hup]
    exact hm
  · exact Function.update_self ip false k.locks

/-- The results of `follow`. -/
def FollowSpec (sb : Superblock) (left : Nat) (k : Kernel) (ip : Ino) :
    Except (Option Ino) Ino → Kernel → Prop
  | .ok j, k' => Followed sb left k ip k' j ∧ k'.type j ≠ .T_SYM
  | .error (some j), k' => Followed sb left k ip k' j ∧ k'.type j = .T_SYM
  | .error none, k' =>
    (∀ i, k.refs i ≤ k'.refs i) ∧ Moved k k' (Function.update k.locks ip false) k'.refs

/-- One hop, to `i` in `k₃`, and what follows it. -/
theorem FollowSpec.hop {k₁ k₂ k₃ : Kernel} {i : Ino} {r : Except (Option Ino) Ino}
    (ht : k.type ip = .T_SYM) (hu : iunlock ip k = .ok () k₁)
    (hn : namei sb (k.linkPath ip) k₁ = .ok (some i) k₂) (hl : ilock i k₂ = .ok () k₃)
    (h : FollowSpec sb left k₃ i r k') : FollowSpec sb (left + 1) k ip r k' := by
  obtain ⟨-, -, hm1, -⟩ := (wp_iunlock (k := k) ip).ok hu
  have hm2 := (wp_namei (k := k₁) sb (k.linkPath ip)).ok hn
  obtain ⟨hfree, hr3, hm3, -, hv3⟩ := (wp_ilock (k := k₂) i).ok hl
  have hm02 : Moved k k₂ k₁.locks k₂.refs := by
    have h02 := hm1.trans hm2 (fun x h0 _ => h0)
    rw [hm2.refs]
    exact h02
  have hlocks2 : k₂.locks = Function.update k.locks ip false := hm2.locks.trans hm1.locks
  have hle2 : ∀ x, k.refs x ≤ k₂.refs x := fun x => by
    rw [hm2.refs, ← hm1.refs]
    exact le_found k₁.refs (some i) x
  have hm03 : Moved k k₃ (Function.update k₂.locks i true) k₃.refs := by
    have h03 := hm02.then_same hm3
    rw [← hm3.refs] at h03
    exact h03
  have hle3 : ∀ x, k.refs x ≤ k₃.refs x := fun x => by
    rw [hm3.refs]
    exact hle2 x
  have hback : Function.update k₃.locks i false = Function.update k.locks ip false := by
    rw [hm3.locks, Function.update_idem]
    exact (congrArg (Function.update k₂.locks i) hfree.symm).trans
      ((Function.update_eq_self i k₂.locks).trans hlocks2)
  -- the rest of the chain
  have hrest : ∀ x, Followed sb left k₃ i k' x → Followed sb (left + 1) k ip k' x := by
    intro x h
    obtain ⟨m, hm, hh⟩ := h.hops
    have hmoved := h.moved
    have hf := h.free
    rw [hback] at hmoved hf
    refine ⟨⟨m + 1, by omega, .hop ht hu hn hl hh⟩, fun y => le_trans (hle3 y) (h.refs y), ?_, hf, ?_⟩
    · exact hm03.trans hmoved (fun y h0 _ => lt_of_lt_of_le h0 (hle3 y))
    · apply Or.inl
      rcases h.held with hh | ⟨rfl, rfl⟩
      · exact hh
      · rw [hm3.refs]
        exact ⟨hr3, hv3⟩
  match r, h with
  | .ok x, h => exact ⟨hrest x h.1, h.2⟩
  | .error (some x), h => exact ⟨hrest x h.1, h.2⟩
  | .error none, h =>
    obtain ⟨hle, hmoved⟩ := h
    rw [hback] at hmoved
    exact ⟨fun y => le_trans (hle3 y) (hle y),
      hm03.trans hmoved (fun y h0 _ => lt_of_lt_of_le h0 (hle3 y))⟩

theorem wp_follow (left : Nat) : ∀ (k : Kernel) (ip : Ino), k.locks ip = true →
    Lib.wp (follow sb left ip) (FollowSpec sb left k ip) Any k := by
  induction left with
  | zero =>
    intro k ip hl
    unfold follow
    refine Lib.wp_get ?_
    by_cases ht : k.type ip = .T_SYM
    · rw [if_pos ht]
      exact ⟨Followed.here hl, ht⟩
    · rw [if_neg ht]
      exact ⟨Followed.here hl, ht⟩
  | succ left ih =>
    intro k ip hl
    unfold follow
    refine Lib.wp_get ?_
    by_cases ht : k.type ip = .T_SYM
    · rw [if_pos ht]
      refine wp_bind_run fun _ k₁ hu => ?_
      obtain ⟨-, -, hm1, -⟩ := (wp_iunlock (k := k) ip).ok hu
      refine wp_bind_run fun o k₂ hn => ?_
      have hm2 := (wp_namei (k := k₁) sb (k.linkPath ip)).ok hn
      cases o with
      | none =>
        have h02 := hm1.trans hm2 (fun x h0 _ => h0)
        rw [hm1.locks, hm1.refs] at h02
        refine ⟨fun x => ?_, ?_⟩
        · rw [h02.refs]
          exact le_refl _
        · rw [h02.refs]
          exact h02
      | some i =>
        refine wp_bind_run fun _ k₃ hl₃ => ?_
        have hlock : k₃.locks i = true := by
          rw [((wp_ilock (k := k₂) i).ok hl₃).2.2.1.locks, Function.update_self]
        exact (ih k₃ i hlock).mono (fun r k' h => h.hop ht hu hn hl₃) (fun _ _ h => h)
    · rw [if_neg ht]
      exact ⟨Followed.here hl, ht⟩

theorem wp_restore_none {L : Ino → Bool} (hL : L ip = true)
    (hk : k.locks = Function.update L ip false) :
    Lib.wp (restore (some ip) none) (fun _ k' => k'.locks = L) Any k := by
  show Lib.wp (ilock ip) _ _ _
  refine (wp_ilock ip).mono (fun _ k₁ h1 => ?_) (fun _ _ h => h)
  obtain ⟨-, -, hm, -⟩ := h1
  rw [hm.locks, hk, Function.update_idem, ← hL, Function.update_eq_self]

theorem wp_restore {L : Ino → Bool} (hL : L ip = true) (hfree : Function.update L ip false j = false)
    (hk : k.locks = Function.update (Function.update L ip false) j true) :
    Lib.wp (restore (some ip) (some j)) (fun _ k' => k'.locks = L) Any k := by
  refine (wp_iunlock j).bind (fun _ _ h => h) (fun _ k₁ h1 => ?_)
  obtain ⟨-, -, hm, -⟩ := h1
  apply wp_restore_none hL
  rw [hm.locks, hk, Function.update_idem]
  exact (congrArg (Function.update (Function.update L ip false) j) hfree.symm).trans
    (Function.update_eq_self j _)

end Rules

/-! ## Locks -/

/-- `k` has `ip`, through at most `SYMDEPTH + 1` links, naming another inode that is a
device with a function of the kind. -/
def DeviceBehind {α : Type} (sb : Superblock) (dev : Dinode → Option (Ino → KM α)) (k : Kernel)
    (ip : Ino) : Prop :=
  ∃ n k' j, n ≤ SYMDEPTH + 1 ∧ Hops sb n k ip k' j ∧ j ≠ ip ∧ k'.type j = .T_DEV ∧
    dev (k'.icache j).di ≠ none

/-- A device function returns with the lock of the inode it was given. -/
structure KeepsLock {α : Type} (f : Ino → KM α) : Prop where
  locks {ip : Ino} {k k' : Kernel} {a : α} (h : f ip k = .ok a k') : k'.locks = k.locks
  returns {ip : Ino} {k : Kernel} (hl : k.locks ip = true) (hr : 1 ≤ k.refs ip)
    (hv : (k.icache ip).valid = true) : ∃ a k', f ip k = .ok a k'

theorem KeepsLock.wp {α : Type} {f : Ino → KM α} (h : KeepsLock f) (ip : Ino) (k : Kernel) :
    Lib.wp (f ip) (fun _ k' => k'.locks = k.locks) Any k := by
  unfold Lib.wp
  cases hrun : f ip k with
  | error e k₁ => trivial
  | ok a k₁ => exact h.locks hrun

section Locks

variable {α : Type} {sb : Superblock} {dev : Dinode → Option (Ino → KM α)} {file : Ino → KM α}
  {fail : α} {k : Kernel} {ip : Ino}

theorem viaLinks_eq : viaLinks sb dev file fail ip k = (do
    match ← follow sb (SYMDEPTH + 1) ip with
    | .error i =>
      restore (if k.type ip = .T_SYM then some ip else none) i
      return fail
    | .ok i =>
      let di := ((← get).icache i).di
      if di.type = .T_DEV then
        match dev di with
        | none =>
          restore (if k.type ip = .T_SYM then some ip else none) (some i)
          return fail
        | some f => f i
      else
        let a ← file i
        restore (if k.type ip = .T_SYM then some ip else none) (some i)
        return a : KM α) k := rfl

/-- Without a device behind a link the locks are those of before. -/
theorem wp_viaLinks (hdev : ∀ di f, dev di = some f → KeepsLock f)
    (hfile : ∀ i m, Lib.wp (file i) (fun _ m' => m'.locks = m.locks) Any m)
    (hl : k.locks ip = true) (hb : ¬ DeviceBehind sb dev k ip) :
    Lib.wp (viaLinks sb dev file fail ip) (fun _ k' => k'.locks = k.locks) Any k := by
  unfold Lib.wp
  rw [viaLinks_eq]
  change Lib.wp _ _ _ k
  by_cases ht : k.type ip = .T_SYM
  · simp only [if_pos ht]
    refine (wp_follow (SYMDEPTH + 1) k ip hl).bind (fun _ _ h => h) (fun r k₁ h1 => ?_)
    match r, h1 with
    | .error none, h1 =>
      exact (wp_restore_none hl h1.2.locks).bind (fun _ _ h => h) (fun _ k₂ h2 => h2)
    | .error (some j), h1 =>
      exact (wp_restore hl h1.1.free h1.1.moved.locks).bind (fun _ _ h => h) (fun _ k₂ h2 => h2)
    | .ok j, h1 =>
      refine Lib.wp_get ?_
      by_cases hd : (k₁.icache j).di.type = .T_DEV
      · rw [if_pos hd]
        cases hf : dev (k₁.icache j).di with
        | none =>
          exact (wp_restore hl h1.1.free h1.1.moved.locks).bind (fun _ _ h => h) (fun _ k₂ h2 => h2)
        | some f =>
          obtain ⟨n, hn, hh⟩ := h1.1.hops
          -- the device is the inode of the caller
          have hj : j = ip := by
            by_contra hj
            exact hb ⟨n, k₁, j, hn, hh, hj, hd, by rw [hf]; exact Option.some_ne_none f⟩
          have hlocks : k₁.locks = k.locks := by
            rw [h1.1.moved.locks, hj, Function.update_idem, ← hl, Function.update_eq_self]
          rw [← hlocks]
          exact (hdev _ f hf).wp j k₁
      · rw [if_neg hd]
        refine (hfile j k₁).bind (fun _ _ h => h) (fun a k₂ h2 => ?_)
        refine (wp_restore hl h1.1.free (h2.trans h1.1.moved.locks)).bind (fun _ _ h => h) ?_
        exact fun _ k₃ h3 => h3
  · simp only [if_neg ht]
    unfold Lib.wp
    rw [Lib.run_bind (follow_stop ht)]
    change Lib.wp _ _ _ k
    refine Lib.wp_get ?_
    by_cases hd : (k.icache ip).di.type = .T_DEV
    · rw [if_pos hd]
      cases hf : dev (k.icache ip).di with
      | none => rfl
      | some f =>
        exact (hdev _ f hf).wp ip k
    · rw [if_neg hd]
      exact (hfile ip k).bind (fun _ _ h => h) (fun a k₂ h2 => h2)

/-- What is known of the inode a chain of links ends at. -/
theorem Hops.followed {n : Nat} {k' : Kernel} {j : Ino} (h : Hops sb n k ip k' j)
    (hl : k.locks ip = true) : Followed sb n k ip k' j := by
  have hrun := follow_hops h n (le_refl n)
  have hspec : Lib.wp (follow sb n ip) (FollowSpec sb n k ip) Any k := wp_follow n k ip hl
  unfold Lib.wp at hspec
  rw [hrun, Nat.sub_self] at hspec
  by_cases ht : k'.type j = .T_SYM
  · have h0 : follow sb 0 j k' = .ok (.error (some j)) k' := by
      unfold follow
      rw [run_get, if_pos ht]
      rfl
    rw [h0] at hspec
    exact hspec.1
  · rw [follow_stop ht] at hspec
    exact hspec.1

/-- With a device behind a link, the lock of the link is not taken back. -/
theorem viaLinks_deviceBehind (file : Ino → KM α) (fail : α)
    (hdev : ∀ di f, dev di = some f → KeepsLock f)
    (hl : k.locks ip = true) (hb : DeviceBehind sb dev k ip) :
    ∃ a k', viaLinks sb dev file fail ip k = .ok a k' ∧ k'.locks ≠ k.locks := by
  obtain ⟨n, k₁, j, hn, hh, hj, hd, hsome⟩ := hb
  obtain ⟨f, hf⟩ := Option.ne_none_iff_exists'.mp hsome
  have hfol := hh.followed hl
  have hlocks := hfol.moved.locks
  have hheld : 1 ≤ k₁.refs j ∧ (k₁.icache j).valid = true := by
    rcases hfol.held with h | ⟨-, h⟩
    · exact h
    · exact absurd h hj
  have hlj : k₁.locks j = true := by rw [hlocks, Function.update_self]
  obtain ⟨a, k₂, hrun⟩ := (hdev _ f hf).returns hlj hheld.1 hheld.2
  refine ⟨a, k₂, ?_, fun he => ?_⟩
  · have hns : k₁.type j ≠ .T_SYM := by
      rw [hd]
      decide
    have hrun1 : follow sb (SYMDEPTH + 1) ip k = .ok (.ok j) k₁ := by
      rw [follow_hops hh _ hn, follow_stop hns]
    have hd' : (k₁.icache j).di.type = .T_DEV := hd
    rw [viaLinks_eq, Lib.run_bind hrun1]
    refine (run_get).trans ?_
    simp only [if_pos hd', hf]
    exact hrun
  · have h2 : k₂.locks ip = false := by
      rw [(hdev _ f hf).locks hrun, hlocks, Function.update_of_ne hj.symm, Function.update_self]
    rw [he, hl] at h2
    exact absurd h2 (by decide)

theorem viaLinks_keeps_iff (hdev : ∀ di f, dev di = some f → KeepsLock f)
    (hfile : ∀ i m, Lib.wp (file i) (fun _ m' => m'.locks = m.locks) Any m)
    (hl : k.locks ip = true) :
    (∀ a k', viaLinks sb dev file fail ip k = .ok a k' → k'.locks = k.locks) ↔
      ¬ DeviceBehind sb dev k ip := by
  refine ⟨fun h hb => ?_, fun hb a k' hrun => (wp_viaLinks hdev hfile hl hb).ok hrun⟩
  obtain ⟨a, k', hrun, hne⟩ := viaLinks_deviceBehind file fail hdev hl hb
  exact hne (h a k' hrun)

end Locks

/-- Every function in `devsw` returns with the lock of its inode. -/
structure DevicesKeepLock (devsw : Fin NDEV → Devsw) : Prop where
  read {m f} (h : (devsw m).read = some f) (n : Int) : KeepsLock fun ip => f ip n
  write {m f} (h : (devsw m).write = some f) (src : Nat → UInt8) (n : Int) :
    KeepsLock fun ip => f ip src n

theorem device_some {devsw : Fin NDEV → Devsw} {di : Dinode} {d : Devsw}
    (h : device devsw di = some d) : ∃ m, d = devsw m := by
  unfold device at h
  split_ifs at h with hm
  exact ⟨_, (Option.some.inj h).symm⟩

theorem DevicesKeepLock.devread {devsw : Fin NDEV → Devsw} (hd : DevicesKeepLock devsw) {n : UInt32}
    {di : Dinode} {f : Ino → KM (Int × List UInt8)} (h : devread devsw n di = some f) :
    KeepsLock f := by
  obtain ⟨d, hd', hf⟩ := Option.bind_eq_some_iff.mp h
  obtain ⟨g, hg, rfl⟩ := Option.map_eq_some_iff.mp hf
  obtain ⟨m, rfl⟩ := device_some hd'
  exact hd.read hg _

theorem DevicesKeepLock.devwrite {devsw : Fin NDEV → Devsw} (hd : DevicesKeepLock devsw) {n : UInt32}
    {src : Nat → UInt8} {di : Dinode} {f : Ino → KM Int} (h : devwrite devsw src n di = some f) :
    KeepsLock f := by
  obtain ⟨d, hd', hf⟩ := Option.bind_eq_some_iff.mp h
  obtain ⟨g, hg, rfl⟩ := Option.map_eq_some_iff.mp hf
  obtain ⟨m, rfl⟩ := device_some hd'
  exact hd.write hg _ _

/-- `readi` and `writei` return with the locks they were called with, unless a link names
a device that can be read or written. -/
theorem readi_writei_keep_locks {devsw : Fin NDEV → Devsw} (hd : DevicesKeepLock devsw)
    (sb : Superblock) (k : Kernel) (ip : Ino) (hl : k.locks ip = true) (off n : UInt32)
    (src : Nat → UInt8) :
    ((∀ r k', readi devsw sb ip off n k = .ok r k' → k'.locks = k.locks) ↔
      ¬ DeviceBehind sb (devread devsw n) k ip) ∧
    ((∀ r k', writei devsw sb ip src off n k = .ok r k' → k'.locks = k.locks) ↔
      ¬ DeviceBehind sb (devwrite devsw src n) k ip) := by
  have hfile : ∀ {β : Type} (f : Inode → FsM (β × Inode)) (i : Ino) (m : Kernel),
      Lib.wp (onInode i f) (fun _ m' => m'.locks = m.locks) Any m := fun f i m =>
    (wp_onInode i f).mono (fun _ _ h => h.locks) (fun _ _ h => h)
  exact ⟨viaLinks_keeps_iff (fun di f h => hd.devread h) (fun i m => hfile _ i m) hl,
    viaLinks_keeps_iff (fun di f h => hd.devwrite h) (fun i m => hfile _ i m) hl⟩

/-! ## The console behind a link -/

/-- `consolewrite`, as far as inodes are concerned. -/
def consolewrite (ip : Ino) (_src : Nat → UInt8) (n : Int) : KM Int := do
  iunlock ip
  ilock ip
  return n

/-- `consoleread` when the line `input` has been typed. -/
def consoleread (input : List UInt8) (ip : Ino) (n : Int) : KM (Int × List UInt8) := do
  iunlock ip
  let bytes := input.take n.toNat
  ilock ip
  return (bytes.length, bytes)

abbrev CONSOLE : Fin NDEV := 1

def consoleDevsw (input : List UInt8) (m : Fin NDEV) : Devsw :=
  if m = CONSOLE then { read := some (consoleread input), write := some consolewrite } else {}

/-- The locks after `iunlock` and `ilock` of a locked inode. -/
theorem relock {α : Type} (a : Ino → α) : KeepsLock fun ip => (do
    iunlock ip
    ilock ip
    return a ip : KM α) := by
  refine ⟨fun {ip k k' b} h => ?_, fun {ip k} hl hr hv => ?_⟩
  · have hw : Lib.wp (do
        iunlock ip
        ilock ip
        return a ip : KM α) (fun _ k' => k'.locks = k.locks) Any k := by
      refine (wp_iunlock ip).bind (fun _ _ h => h) (fun _ k₁ h1 => ?_)
      obtain ⟨hl, -, hm1, -⟩ := h1
      refine (wp_ilock ip).bind (fun _ _ h => h) (fun _ k₂ h2 => ?_)
      obtain ⟨-, -, hm2, -⟩ := h2
      show k₂.locks = k.locks
      rw [hm2.locks, hm1.locks, Function.update_idem, ← hl, Function.update_eq_self]
    exact hw.ok h
  · obtain ⟨k₁, h1⟩ : ∃ k₁, iunlock ip k = .ok () k₁ := ⟨_, iunlock_run hl hr⟩
    obtain ⟨-, -, hm, -⟩ := (wp_iunlock (k := k) ip).ok h1
    have hfree : k₁.locks ip = false := by rw [hm.locks, Function.update_self]
    have hr1 : 1 ≤ k₁.refs ip := by
      rw [hm.refs]
      exact hr
    obtain ⟨k₂, h2⟩ : ∃ k₂, ilock ip k₁ = .ok () k₂ :=
      ⟨_, ilock_run hfree hr1 (hm.kept ip hr hr1 hv)⟩
    refine ⟨a ip, k₂, ?_⟩
    show (iunlock ip >>= fun _ => ilock ip >>= fun _ => pure (a ip)) k = _
    rw [Lib.run_bind h1, Lib.run_bind h2]
    rfl

theorem consoleDevsw_keepLock (input : List UInt8) : DevicesKeepLock (consoleDevsw input) := by
  refine ⟨fun {m f} h n => ?_, fun {m f} h src n => ?_⟩
  · unfold consoleDevsw at h
    split_ifs at h
    cases h
    exact relock fun _ => (((input.take n.toNat).length : Int), input.take n.toNat)
  · unfold consoleDevsw at h
    split_ifs at h
    cases h
    exact relock fun _ => n

/-- The bytes of a path in the words of an inode. -/
def pathWords (path : List UInt8) (r : Nat) : Nat :=
  (path.getD (4 * r) 0).toNat + 2 ^ 8 * (path.getD (4 * r + 1) 0).toNat +
    2 ^ 16 * (path.getD (4 * r + 2) 0).toNat + 2 ^ 24 * (path.getD (4 * r + 3) 0).toNat

/-- A directory's block: entries of 16 bytes. -/
def direntBlock (entries : List (Nat × List UInt8)) : Fs.Block := fun i =>
  let (inum, name) := entries.getD (i.val / 16) (0, [])
  if i.val % 16 = 0 then UInt8.ofNat inum
  else if i.val % 16 = 1 then 0
  else name.getD (i.val % 16 - 2) 0

/-- A file system with a root directory in block 10, whose entries from inode 2 on are
`files`; the names are single letters from `a` on. -/
def smallDisk (files : List Dinode) : Disk where
  bitmap := fun b => decide (b ≤ 10)
  dinode := fun i =>
    if i = ROOTINO then
      { type := .T_DIR, nlink := 1, size := 16 * (files.length + 2)
        addrs := fun r => if r = 0 then 10 else 0 }
    else if 2 ≤ i then files.getD (i - 2) {} else {}
  block := fun b => if b = 10 then
      direntBlock ((1, [46]) :: (1, [46, 46]) ::
        (List.range files.length).map fun i => (i + 2, [UInt8.ofNat (97 + i)]))
    else fun _ => 0

/-- A link to `path`. -/
def linkTo (path : List UInt8) : Dinode :=
  { type := .T_SYM, nlink := 1, addrs := fun r => pathWords path r
    D_addr := pathWords path 11, T_addr := pathWords path 12 }

/-- Entry 0 is the root, the current directory; entry 1 is inode `inum`, locked. -/
def openKernel (d : Disk) (inum : Nat) : Kernel where
  disk := d
  icache := fun i =>
    if i = 0 then { dev := ROOTDEV, inum := ROOTINO, ref := 1 }
    else if i = 1 then
      { dev := ROOTDEV, inum := inum, ref := 1, locked := true, valid := true, di := d.dinode inum }
    else {}
  cwd := 0

/-- `/a` is the console and `/b` a link to it, which is open. -/
def consoleBehind : Kernel :=
  openKernel (smallDisk [{ type := .T_DEV, major := 1, nlink := 1 }, linkTo [47, 97]]) 3

theorem readi_writei_keep_locks_consoleBehind :
    consoleBehind.locks 1 = true ∧
      ((∀ r k', readi (consoleDevsw [104, 10]) smallSuper 1 0 2 consoleBehind = .ok r k' →
          k'.locks = consoleBehind.locks) ↔
        ¬ DeviceBehind smallSuper (devread (consoleDevsw [104, 10]) 2) consoleBehind 1) ∧
      ((∀ r k', writei (consoleDevsw [104, 10]) smallSuper 1 (fun _ => 0) 0 2 consoleBehind =
            .ok r k' → k'.locks = consoleBehind.locks) ↔
        ¬ DeviceBehind smallSuper (devwrite (consoleDevsw [104, 10]) (fun _ => 0) 2)
          consoleBehind 1) :=
  ⟨rfl, readi_writei_keep_locks (consoleDevsw_keepLock [104, 10]) smallSuper consoleBehind 1 rfl 0 2
    (fun _ => 0)⟩

/-- Reading the link returns with the console locked and the link not. -/
theorem consoleBehind_lock_lost : ¬ ∀ r k',
    readi (consoleDevsw [104, 10]) smallSuper 1 0 2 consoleBehind = .ok r k' →
      k'.locks = consoleBehind.locks := by
  have hrun : (match readi (consoleDevsw [104, 10]) smallSuper 1 0 2 consoleBehind with
      | .ok _ k' => decide (k'.locks 1 = false)
      | .error _ _ => false) = true := by decide +kernel
  intro h
  split at hrun
  · rename_i r k' heq
    have hlock := congrFun (h r k' heq) 1
    rw [of_decide_eq_true hrun] at hlock
    exact absurd hlock (by decide)
  · exact absurd hrun (by decide)

end Xv6.File
