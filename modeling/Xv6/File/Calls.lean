import Xv6.File.Create

/- The system calls that use inodes (`project3_filesystem/sysfile.c`, `file.c`), each in a
   definition of its own and with a lemma on the state between two calls: a call that begins
   at rest (`Resting`: orderly, no lock held) and returns ends at rest.

   File descriptors are not in the state, as an open file is a reference to its inode like
   any other. What `filealloc` and `fdalloc` have found is an argument of `sysOpen`, and the last
   `fileclose` of a file is `iput`. `filewrite` is one round of the loop of its source.

   Four slips of the code are outside of what the lemmas cover, and are in their hypotheses: a
   freed file with blocks below `T_addr` (`itrunc_frees`), a path of 52 bytes or more in a new
   link (`link_target_iff`), the bytes of a path freed as blocks with the last name of its
   link, and a directory written through a link. A count of links that wraps to 0 is the
   fifth case. -/
namespace Xv6.File

/-! ## sysfile.c -/

/-- The mode that asks `open` for a new file. -/
def O_CREATE : Nat := 0x200

/-- The end of `sys_open`; `fd` is what `filealloc` and `fdalloc` have found. The file keeps the
reference. -/
def openEnd (ip : Ino) : Option Int → KM Int
  | none => do
    iunlockput ip
    return -1
  | some fd => do
    iunlock ip
    return fd

def sysOpen (sb : Superblock) (path : List UInt8) (omode : Nat) (fd : Option Int) : KM Int := do
  if omode &&& O_CREATE ≠ 0 then
    match ← create sb path .T_FILE 0 0 with
    | none => return -1
    | some ip => openEnd ip fd
  else
    match ← namei sb path with
    | none => return -1
    | some ip => do
      ilock ip
      if (← get).type ip = .T_DIR ∧ omode ≠ 0 then
        iunlockput ip
        return -1
      else openEnd ip fd

/-- `sys_mkdir` and `sys_mknod`. -/
def sysMake (sb : Superblock) (path : List UInt8) (type : FileType) (major minor : Int16) : KM Int := do
  match ← create sb path type major minor with
  | none => return -1
  | some ip => do
    iunlockput ip
    return 0

def sysMkdir (sb : Superblock) (path : List UInt8) : KM Int := sysMake sb path .T_DIR 0 0

def sysMknod (sb : Superblock) (path : List UInt8) (major minor : Int16) : KM Int :=
  sysMake sb path .T_DEV major minor

/-- `ip->nlink += n; iupdate(ip)`. -/
def addLinks (ip : Ino) (n : Int16) : KM Unit := do
  let di := ((← get).icache ip).di
  setDi ip { di with nlink := di.nlink + n }
  iupdateEntry ip

/-- `bad` of `sys_link`. -/
def linkBad (ip : Ino) : KM Int := do
  ilock ip
  addLinks ip (-1)
  iunlockput ip
  return -1

/-- The second part of `sys_link`, for the inode whose count it has raised. -/
def linkName (sb : Superblock) (ip : Ino) (new : List UInt8) : KM Int := do
  match ← nameiparent sb new with
  | none => linkBad ip
  | some (dp, name) => do
    ilock dp
    let k ← get
    if (k.icache dp).dev ≠ (k.icache ip).dev then
      iunlockput dp
      linkBad ip
    else
      let r ← dirlink sb dp name (k.icache ip).inum
      iunlockput dp
      if r < 0 then linkBad ip
      else
        iput ip
        return 0

def sysLink (sb : Superblock) (old new : List UInt8) : KM Int := do
  match ← namei sb old with
  | none => return -1
  | some ip => do
    ilock ip
    if (← get).type ip = .T_DIR then
      iunlockput ip
      return -1
    else
      addLinks ip 1
      iunlock ip
      linkName sb ip new

/-- The loop of `isdirempty`. -/
def isdiremptyLoop (sb : Superblock) (dp : Ino) : Nat → Nat → KM Bool
  | 0, _ => return true
  | fuel + 1, off => do
    if off < ((← get).icache dp).di.size then
      match ← readDirent sb dp off with
      | none => panic "isdirempty: readi"
      | some de => if de.inum ≠ 0 then return false else isdiremptyLoop sb dp fuel (off + 16)
    else return true

/-- Only `.` and `..` are in the directory. -/
def isdirempty (sb : Superblock) (dp : Ino) : KM Bool := do
  isdiremptyLoop sb dp (((← get).icache dp).di.size / 16 + 1) (2 * 16)

/-- The end of `sys_unlink` for the entry at `off` of `dp`, which is one for `ip`. -/
def unlinkEntry (sb : Superblock) (dp ip : Ino) (off : Nat) : KM Int := do
  let n ← writeFile sb (fun _ => 0) (UInt32.ofNat off) 16 dp
  if n ≠ 16 then panic "unlink: writei"
  else
    if (← get).type ip = .T_DIR then addLinks dp (-1)
    iunlockput dp
    addLinks ip (-1)
    iunlockput ip
    return 0

def sysUnlink (sb : Superblock) (path : List UInt8) : KM Int := do
  match ← nameiparent sb path with
  | none => return -1
  | some (dp, name) => do
    ilock dp
    if name = [46] ∨ name = [46, 46] then
      iunlockput dp
      return -1
    else
      match ← dirlookup sb dp name with
      | none => do
        iunlockput dp
        return -1
      | some (ip, off) => do
        ilock ip
        let k ← get
        if (k.icache ip).di.nlink < 1 then panic "unlink: nlink < 1"
        else
          let empty ← if k.type ip = .T_DIR then isdirempty sb ip else pure true
          if empty then unlinkEntry sb dp ip off
          else
            iunlockput ip
            iunlockput dp
            return -1

section SystemCalls

variable {sb : Superblock} {k₀ k k' k₁ k₂ : Kernel} {ip dp : Ino} {u : Unit} {type : FileType}
  {major minor : Int16} {path name old new : List UInt8} {v : Int}

/-- Between two calls: an orderly state without locks. -/
structure Resting (sb : Superblock) (k : Kernel) : Prop where
  orderly : Orderly sb k
  free : ∀ i, k.locks i = false

theorem Walked.resting {o : Option Ino} (h : Resting sb k₀) (hw : Walked k₀ k o) : Resting sb k :=
  ⟨hw.orderly h.orderly, fun i => by rw [hw.looked.locks]; exact h.free i⟩

theorem openEnd_rests (h : Resting sb k₀) (hc : Created sb k₀ k ip) {fd : Option Int}
    (hr : openEnd ip fd k = .ok v k') : Resting sb k' := by
  cases fd with
  | none =>
    obtain ⟨w, k₁, hput, hr⟩ := Lib.bind_ok hr
    cases hr
    obtain ⟨ho, hf⟩ := hc.put h.orderly h.free hput
    exact ⟨ho, hf⟩
  | some fd =>
    obtain ⟨w, k₁, hun, hr⟩ := Lib.bind_ok hr
    cases hr
    obtain ⟨ho, hf⟩ := hc.unlock h.free hun
    exact ⟨ho, hf⟩

theorem sysOpen_rests {omode : Nat} {fd : Option Int} (h : Resting sb k)
    (hcounts : omode &&& O_CREATE ≠ 0 → Counts k.disk) (hr : sysOpen sb path omode fd k = .ok v k') :
    Resting sb k' := by
  unfold sysOpen at hr
  by_cases hmode : omode &&& O_CREATE ≠ 0
  · rw [if_pos hmode] at hr
    obtain ⟨o, k₁, hcreate, hr⟩ := Lib.bind_ok hr
    obtain ⟨hnone, hsome⟩ := create_ok h.orderly h.free (hcounts hmode) hcreate
    cases o with
    | none =>
      cases hr
      exact (hnone rfl).resting h
    | some ip => exact openEnd_rests h (hsome ip rfl) hr
  · rw [if_neg hmode] at hr
    obtain ⟨o, k₁, hname, hr⟩ := Lib.bind_ok hr
    have hw := (namei_ok h.orderly.toSettled h.free path hname).1
    cases o with
    | none =>
      cases hr
      exact hw.resting h
    | some ip =>
      obtain ⟨w, k₂, hl, hr⟩ := Lib.bind_ok hr
      have hc := (hw.inside h.orderly.toSettled h.free hl).created h.orderly ((wp_ilock ip).ok hl).2.2.2.2
      rw [run_get] at hr
      by_cases hdir : k₂.type ip = .T_DIR ∧ omode ≠ 0
      · rw [if_pos hdir] at hr
        obtain ⟨w, k₃, hput, hr⟩ := Lib.bind_ok hr
        cases hr
        obtain ⟨ho, hf⟩ := hc.put h.orderly h.free hput
        exact ⟨ho, hf⟩
      · rw [if_neg hdir] at hr
        exact openEnd_rests h hc hr

theorem sysMake_rests (h : Resting sb k) (hcounts : Counts k.disk)
    (hr : sysMake sb path type major minor k = .ok v k') : Resting sb k' := by
  unfold sysMake at hr
  obtain ⟨o, k₁, hcreate, hr⟩ := Lib.bind_ok hr
  obtain ⟨hnone, hsome⟩ := create_ok h.orderly h.free hcounts hcreate
  cases o with
  | none =>
    cases hr
    exact (hnone rfl).resting h
  | some ip =>
    obtain ⟨w, k₂, hput, hr⟩ := Lib.bind_ok hr
    cases hr
    obtain ⟨ho, hf⟩ := (hsome ip rfl).put h.orderly h.free hput
    exact ⟨ho, hf⟩

end SystemCalls

/-! ### `sys_symlink` -/

section SymlinkCall

variable {sb : Superblock} {k₀ k k' k₁ k₂ : Kernel} {ip dp : Ino} {u : Unit} {name old new : List UInt8}
  {v : Int}

/-- The inode that `sys_symlink` writes. -/
def linkOf (di : Dinode) (old : List UInt8) : Dinode :=
  ({ di with type := .T_SYM } : Dinode).setLinkBytes (overwritten old (linkBytes di))

theorem writeLink_put (hle : old.length ≤ 52) (hr : writeLink ip old k = .ok u k') :
    k' = k.put ip (linkOf (k.icache ip).di old) := by
  unfold writeLink at hr
  rw [run_get] at hr
  obtain ⟨v₁, k₁, h1, hr⟩ := Lib.bind_ok hr
  obtain ⟨v₂, k₂, h2, hr⟩ := Lib.bind_ok hr
  have hk₁ : k₁ = k.setEntry ip { k.icache ip with di := { (k.icache ip).di with type := .T_SYM } } := by
    cases h1
    rfl
  have h3 : setDi ip (linkOf (k.icache ip).di old) k = .ok v₂ k₂ := by
    unfold memmoveAddrs at h2
    rw [hk₁] at h2
    have h2 : EStateM.Result.ok () (if old.length ≤ 52 then _ else _ : Kernel) = .ok v₂ k₂ := h2
    rw [if_pos hle, setEntry_self, setEntry_setEntry] at h2
    exact h2
  exact put_ok h3 hr

theorem linkOf_bytes {di : Dinode} (h0 : linkBytes di = List.replicate 52 0) (hlt : old.length < 52) :
    0 ∈ linkBytes (linkOf di old) := by
  unfold linkOf
  rw [linkBytes_setLinkBytes _ (length_overwritten (length_linkBytes di)), overwritten, h0,
    List.drop_replicate]
  refine List.mem_append_right _ (List.mem_replicate.mpr ⟨by omega, rfl⟩)

/-- The inode that `create` has just made becomes a link. -/
theorem Created.link (hc : Created sb k₀ k ip) (ht : (k.icache ip).di.type = .T_SYM)
    (hn : (k.icache ip).di.nlink = 1) (h0 : linkBytes (k.icache ip).di = List.replicate 52 0)
    (hlt : old.length < 52) (hpos : 0 < k.refs ip) :
    Created sb k₀ (k.put ip (linkOf (k.icache ip).di old)) ip := by
  have hnl : (linkOf (k.icache ip).di old).nlink = 1 := hn
  have hm := hc.moved.then_same (put_moved k ip (linkOf (k.icache ip).di old))
  rw [hc.moved.locks] at hm
  refine ⟨?_, hm, ?_, fun hz => ?_⟩
  · refine hc.orderly.put hpos hc.valid ht.symm (fun hf => ?_)
      ⟨(fun hd => by cases hd), fun _ => linkOf_bytes h0 hlt, fun _ => ?_, (fun hd => by cases hd)⟩
    · rcases hf with hf | hf <;> cases hf
    · rw [hnl]
      decide
  · rw [put_entry]
    exact hc.valid
  · rw [put_inum, put_dinode, Function.update_self, hnl] at hz
    exact absurd hz (by decide)

theorem sysSymlink_rests (h : Resting sb k) (hcounts : Counts k.disk)
    (hlt : old.length < 52) (hr : sysSymlink sb old new k = .ok v k') : Resting sb k' := by
  unfold sysSymlink at hr
  obtain ⟨o, k₁, hold, hr⟩ := Lib.bind_ok hr
  have hw₁ := (namei_ok h.orderly.toSettled h.free old hold).1
  have h₁ := hw₁.resting h
  cases o with
  | none =>
    cases hr
    exact h₁
  | some i =>
    obtain ⟨o, k₂, hnew, hr⟩ := Lib.bind_ok hr
    obtain ⟨hw₂, hmiss⟩ := namei_ok h₁.orderly.toSettled h₁.free new hnew
    have h₂ := hw₂.resting h₁
    cases o with
    | some j =>
      cases hr
      exact h₂
    | none =>
      have hcounts₂ : ∀ n, (k₂.disk.dinode n).nlink ≠ -1 := by
        intro n
        rw [hw₂.silent.disk, hw₁.silent.disk]
        exact hcounts n
      obtain ⟨o, k₃, hcreate, hr⟩ := Lib.bind_ok hr
      rcases create_cases h₂.orderly h₂.free hcreate with ⟨rfl, hw⟩ | ⟨ip, k, m, rfl, -, -, hm⟩ |
        ⟨ip, k, k₄, dp, name, rfl, hin, hv, ht, hmade⟩
      · cases hr
        exact hw.resting h₂
      · -- the path still leads nowhere
        have hlook : k₂.names.look new = k₁.names.look new := by
          unfold NameSpace.look NameSpace.start Kernel.names
          rw [hw₂.silent.disk, hw₂.looked.cwd, hw₂.silent.inum _ h₁.orderly.cwd]
        rw [hlook, hmiss] at hm
        cases hm
      · obtain ⟨he, hc⟩ := hin.enter_new h₂.orderly h₂.free hcounts₂ hv ht hmade
        obtain ⟨w, k₅, hwrite, hr⟩ := Lib.bind_ok hr
        obtain ⟨w', k₆, hput, hr⟩ := Lib.bind_ok hr
        cases hr
        have hpos : 0 < k₃.refs ip := by
          have hge := h₂.orderly.cached.refs ip
          rw [hc.moved.refs]
          show 0 < Function.update k₂.refs ip (k₂.refs ip + 1) ip
          rw [Function.update_self]
          omega
        have hcopy := (he.orderly.cached.copy ip hpos he.valid).1
        have hclean : Clean k₄ := fun i hi hval => by
          have hin₄ := (hin.orderly h₂.orderly).cached.copy i hi hval
          rw [← hin₄.1]
          exact hin₄.2
        have hzero := (wp_createNew hin.held hclean name).ok hmade
        rw [writeLink_put hlt.le hwrite] at hput
        have hlink := hc.link (by rw [hcopy, he.type]) (by rw [hcopy, he.nlink]) hzero hlt hpos
        obtain ⟨ho, hf⟩ := hlink.put h₂.orderly h₂.free hput
        exact ⟨ho, hf⟩

end SymlinkCall

/-! ### `sys_link` -/

section LinkCall

variable {sb : Superblock} {k₀ k k' k₁ k₂ k₃ : Kernel} {ip dp : Ino} {u u' : Unit} {old new : List UInt8}
  {v : Int} {n : Int16}

theorem addLinks_put (hr : addLinks ip n k = .ok u k') :
    k' = k.put ip { (k.icache ip).di with nlink := (k.icache ip).di.nlink + n } := by
  unfold addLinks at hr
  rw [run_get] at hr
  obtain ⟨w, k₁, h1, hr⟩ := Lib.bind_ok hr
  exact put_ok h1 hr

/-- The directory is given back. -/
theorem Inside.back (hin : Inside k₀ k k₁ dp) (h : Resting sb k₀) (hund : Undisturbed sb k₁ k₂)
    (hr : iunlockput dp k₂ = .ok u k₃) : Undisturbed sb k₀ k₃ := by
  have hm₂ := hin.moved.then_same hund.moved
  rw [hin.moved.locks] at hm₂
  have hm₃ := ((wp_iunlockput dp).ok hr).2.2
  rw [hm₂.locks, hm₂.refs, found_put, Function.update_idem, ← h.free dp, Function.update_eq_self] at hm₃
  have hd := hin.silent.disk
  have h0 := hin.pos h.orderly.cached
  have hpos : ∀ i, 0 < k₀.refs i → 0 < k₁.refs i := fun i hi => lt_of_lt_of_le hi (hin.le i)
  obtain ⟨ho, hs⟩ := iunlockput_kept hund.orderly (fun hn => by
    rw [hund.nlink, hund.inum dp h0, hin.inum, hd] at hn
    rw [hund.moved.refs]
    exact hin.keep hn) hr (by
      rw [hm₂.cwd, hm₃.refs]
      exact h.orderly.cwd)
  refine ⟨ho, ?_, fun i hi => ?_, fun n => ?_, fun n => ?_⟩
  · exact hm₂.trans hm₃ (fun i hi _ => lt_of_lt_of_le hi (le_found k₀.refs _ i))
  · rw [hs.inum i (by rw [hund.moved.refs]; exact hpos i hi), hund.inum i (hpos i hi), hin.silent.inum i hi]
  · rw [hs.disk, hund.type, hd]
  · rw [hs.disk, hund.nlink, hd]

/-- `sys_link` has counted a name of the inode in `ip` that is not there yet. -/
structure Linked (sb : Superblock) (k₀ k : Kernel) (ip : Ino) : Prop where
  rest : Resting sb k
  looked : Looked k₀ k (some ip)
  valid : (k.icache ip).valid = true
  named : (k.disk.dinode (k.icache ip).inum).nlink ≠ 0
  links : (k.disk.dinode (k.icache ip).inum).type = .T_SYM →
    (k.disk.dinode (k.icache ip).inum).nlink + -1 ≠ 0
  keep : (k.disk.dinode (k.icache ip).inum).nlink + -1 = 0 → 1 < k.refs ip

/-- `ip->nlink++; iupdate(ip); iunlock(ip)`. -/
theorem Inside.linked (hin : Inside k₀ k k₁ ip) (h : Resting sb k₀) (hcounts : Counts k₀.disk)
    (hv : (k₁.icache ip).valid = true) (hadd : addLinks ip 1 k₁ = .ok u k₂)
    (hun : iunlock ip k₂ = .ok u' k₃) : Linked sb k₀ k₃ ip := by
  have h0 := hin.pos h.orderly.cached
  have hdi : (k₁.icache ip).di = k₀.disk.dinode (k.icache ip).inum := hin.copy
  have hnew : (k₁.icache ip).di.nlink + 1 ≠ 0 := by
    have hcount := hcounts (k.icache ip).inum
    rw [← hdi] at hcount
    intro hz
    exact hcount (by grind)
  have hold : (k₁.icache ip).di.nlink + 1 + -1 = (k₁.icache ip).di.nlink := by grind
  have hk₂ := addLinks_put hadd
  have ho₂ : Orderly sb k₂ := by
    rw [hk₂]
    exact (hin.orderly h.orderly).put_nlink h0 hv (fun _ => hnew)
  have hm₂ : Moved k₁ k₂ k₁.locks k₁.refs := by
    rw [hk₂]
    exact put_moved k₁ ip _
  obtain ⟨-, -, hm₃, -⟩ := (wp_iunlock ip).ok hun
  have hs₃ := iunlock_ok ho₂.cached hun
  have hpos : 0 < k₂.refs ip := by
    rw [hm₂.refs]
    exact h0
  have hlooked : Looked k₀ k₃ (some ip) := by
    have hm := hin.moved.then_same hm₂
    rw [hin.moved.locks] at hm
    have hm' := hm.then_same hm₃
    rw [hm.locks, Function.update_idem, ← h.free ip, Function.update_eq_self] at hm'
    exact hm'
  have hd : k₃.disk.dinode (k₃.icache ip).inum =
      { (k₁.icache ip).di with nlink := (k₁.icache ip).di.nlink + 1 } := by
    rw [hs₃.disk, hs₃.inum ip hpos, hk₂, put_inum, put_dinode, Function.update_self]
  refine ⟨⟨hs₃.dropped ho₂ hm₃.refs hm₃.kept hm₃.cwd, fun i => ?_⟩, hlooked, ?_, ?_, fun ht => ?_,
    fun hz => ?_⟩
  · rw [hlooked.locks]
    exact h.free i
  · refine hm₃.kept ip hpos (by rw [hm₃.refs]; exact hpos) ?_
    rw [hk₂, put_entry]
    exact hv
  · rw [hd]
    exact hnew
  · rw [hd] at ht ⊢
    have ht : (k₁.icache ip).di.type = .T_SYM := ht
    show (k₁.icache ip).di.nlink + 1 + -1 ≠ 0
    rw [hold, hdi]
    rw [hdi] at ht
    exact h.orderly.links _ ht
  · rw [hd] at hz
    have hz : (k₁.icache ip).di.nlink + 1 + -1 = 0 := hz
    rw [hold, hdi] at hz
    rw [hlooked.refs, ← hin.moved.refs]
    exact hin.keep hz

namespace Linked

theorem pos (h : Linked sb k₀ k ip) (hc : Cached k₀) : 0 < k.refs ip := h.looked.pos hc

theorem undisturbed (h : Linked sb k₀ k ip) (hc : Cached k₀) (hund : Undisturbed sb k k') :
    Linked sb k₀ k' ip := by
  have hm := h.looked.then hund.moved
  rw [h.looked.locks, h.looked.refs] at hm
  have h0 := h.pos hc
  have hnlink : (k'.disk.dinode (k'.icache ip).inum).nlink = (k.disk.dinode (k.icache ip).inum).nlink := by
    rw [hund.inum ip h0, hund.nlink]
  refine ⟨⟨hund.orderly, fun i => ?_⟩, hm, ?_, ?_, ?_, ?_⟩
  · rw [hund.moved.locks]
    exact h.rest.free i
  · exact hund.moved.kept ip h0 (by rw [hund.moved.refs]; exact h0) h.valid
  · rw [hnlink]
    exact h.named
  · rw [hnlink, hund.inum ip h0, hund.type]
    exact h.links
  · rw [hnlink, hund.moved.refs]
    exact h.keep

/-- The name is there: `iput`. -/
theorem put (h : Linked sb k₀ k ip) (hs : Resting sb k₀) (hr : iput ip k = .ok u k') : Resting sb k' := by
  have h0 := h.pos hs.orderly.cached
  have hm := ((wp_iput ip).ok hr).2
  have hback : k'.refs = k₀.refs := by
    rw [hm.refs, h.looked.refs, found_put]
  have ho := (iput_orderly h.rest.orderly h0 (fun hv hz _ => by
    rw [(h.rest.orderly.cached.copy ip h0 hv).1] at hz
    exact absurd hz h.named) hr (c := k.cwd) (by
      rw [hback, h.looked.cwd]
      exact hs.orderly.cwd) h.rest.orderly.cwdDir).1
  rw [← hm.cwd] at ho
  refine ⟨ho, fun i => ?_⟩
  rw [hm.locks]
  exact h.rest.free i

/-- The name is not there: `bad`. -/
theorem bad (h : Linked sb k₀ k ip) (hs : Resting sb k₀) (hr : linkBad ip k = .ok v k') :
    Resting sb k' := by
  have h0 := h.pos hs.orderly.cached
  have ho := h.rest.orderly
  unfold linkBad at hr
  obtain ⟨w₁, k₁, hlock, hr⟩ := Lib.bind_ok hr
  obtain ⟨-, -, hm₁, -, hv₁⟩ := (wp_ilock ip).ok hlock
  obtain ⟨hs₁, hdi₁, -⟩ := ilock_ok ho.cached hlock
  have ho₁ : Orderly sb k₁ := hs₁.dropped ho hm₁.refs hm₁.kept hm₁.cwd
  obtain ⟨w₂, k₂, hadd, hr⟩ := Lib.bind_ok hr
  obtain ⟨w₃, k₃, hput, hr⟩ := Lib.bind_ok hr
  cases hr
  have hk₂ := addLinks_put hadd
  have hm₂ : Moved k₁ k₂ k₁.locks k₁.refs := by
    rw [hk₂]
    exact put_moved k₁ ip _
  have h01 : 0 < k₁.refs ip := by
    rw [hm₁.refs]
    exact h0
  have ho₂ : Orderly sb k₂ := by
    rw [hk₂]
    refine ho₁.put_nlink h01 hv₁ (fun ht => ?_)
    rw [hdi₁] at ht ⊢
    exact h.links ht
  have hnl : (k₂.disk.dinode (k₂.icache ip).inum).nlink =
      (k.disk.dinode (k.icache ip).inum).nlink + -1 := by
    rw [hk₂, put_inum, put_dinode, Function.update_self]
    show (k₁.icache ip).di.nlink + -1 = _
    rw [hdi₁]
  have hrefs₂ : k₂.refs = k.refs := hm₂.refs.trans hm₁.refs
  have hm₃ := ((wp_iunlockput ip).ok hput).2.2
  have hback : k'.refs = k₀.refs := by
    rw [hm₃.refs, hrefs₂, h.looked.refs, found_put]
  refine ⟨(iunlockput_kept ho₂ (fun hn => ?_) hput ?_).1, fun i => ?_⟩
  · rw [hnl] at hn
    rw [hrefs₂]
    exact h.keep hn
  · rw [hback, hm₂.cwd, hm₁.cwd, h.looked.cwd]
    exact hs.orderly.cwd
  · rw [hm₃.locks, hm₂.locks, hm₁.locks, Function.update_idem]
    by_cases hi : i = ip
    · rw [hi, Function.update_self]
    · rw [Function.update_of_ne hi]
      exact h.rest.free i

/-- The new name. -/
theorem name (h : Linked sb k₀ k ip) (hs : Resting sb k₀) (hr : linkName sb ip new k = .ok v k') :
    Resting sb k' := by
  have hrest := h.rest
  have hbad : ∀ {k₁ : Kernel} {w : Int} {k₂ : Kernel}, Undisturbed sb k k₁ → linkBad ip k₁ = .ok w k₂ →
      Resting sb k₂ := fun hund hbad => (h.undisturbed hs.orderly.cached hund).bad hs hbad
  unfold linkName at hr
  obtain ⟨o, k₁, hparent, hr⟩ := Lib.bind_ok hr
  have hw := (nameiparent_ok hrest.orderly.toSettled hrest.free new hparent).1
  cases o with
  | none => exact hbad (hw.silent.undisturbed hrest.orderly hw.looked) hr
  | some x =>
    obtain ⟨dp, name⟩ := x
    obtain ⟨w₂, k₂, hl, hr⟩ := Lib.bind_ok hr
    have hin := hw.inside hrest.orderly.toSettled hrest.free hl
    have hv := ((wp_ilock dp).ok hl).2.2.2.2
    have ho := hin.orderly hrest.orderly
    rw [run_get] at hr
    by_cases hdev : (k₂.icache dp).dev ≠ (k₂.icache ip).dev
    · rw [if_pos hdev] at hr
      obtain ⟨w₃, k₃, hput, hr⟩ := Lib.bind_ok hr
      exact hbad (hin.back hrest (.refl ho) hput) hr
    · rw [if_neg hdev] at hr
      obtain ⟨r, k₃, hlink, hr⟩ := Lib.bind_ok hr
      obtain ⟨w₄, k₄, hput, hr⟩ := Lib.bind_ok hr
      have hund := hin.back hrest (dirlink_ok ho (hin.pos hrest.orderly.cached) hv hlink) hput
      by_cases hneg : r < 0
      · rw [if_pos hneg] at hr
        exact hbad hund hr
      · rw [if_neg hneg] at hr
        obtain ⟨w₅, k₅, hput₅, hr⟩ := Lib.bind_ok hr
        cases hr
        exact (h.undisturbed hs.orderly.cached hund).put hs hput₅

end Linked

theorem sysLink_rests (h : Resting sb k) (hcounts : Counts k.disk) (hr : sysLink sb old new k = .ok v k') :
    Resting sb k' := by
  unfold sysLink at hr
  obtain ⟨o, k₁, hold, hr⟩ := Lib.bind_ok hr
  have hw := (namei_ok h.orderly.toSettled h.free old hold).1
  cases o with
  | none =>
    cases hr
    exact hw.resting h
  | some ip =>
    obtain ⟨w₂, k₂, hl, hr⟩ := Lib.bind_ok hr
    have hin := hw.inside h.orderly.toSettled h.free hl
    have hv := ((wp_ilock ip).ok hl).2.2.2.2
    rw [run_get] at hr
    by_cases hdir : k₂.type ip = .T_DIR
    · rw [if_pos hdir] at hr
      obtain ⟨w₃, k₃, hput, hr⟩ := Lib.bind_ok hr
      cases hr
      obtain ⟨ho, hf⟩ := (hin.created h.orderly hv).put h.orderly h.free hput
      exact ⟨ho, hf⟩
    · rw [if_neg hdir] at hr
      obtain ⟨w₃, k₃, hadd, hr⟩ := Lib.bind_ok hr
      obtain ⟨w₄, k₄, hun, hr⟩ := Lib.bind_ok hr
      exact (hin.linked h hcounts hv hadd hun).name h hr

end LinkCall

/-! ### `sys_unlink` -/

/-- No file has blocks below `T_addr`. -/
def Flat (d : Disk) : Prop := ∀ n, (d.dinode n).isFile → (d.dinode n).T_addr = 0

section UnlinkCall

variable {sb : Superblock} {k₀ k k' k₁ k₂ k₃ k₄ : Kernel} {ip dp : Ino} {u : Unit} {path name : List UInt8}
  {v : Int} {n off : Nat}

/-- Only the path of a link can be there, where other inodes have `T_addr`. -/
theorem Orderly.flat (h : Orderly sb k) (hflat : Flat k.disk) (ht : (k.disk.dinode n).type ≠ .none)
    (hs : (k.disk.dinode n).type ≠ .T_SYM) : (k.disk.dinode n).T_addr = 0 := by
  cases hty : (k.disk.dinode n).type with
  | none => exact absurd hty ht
  | T_DIR => exact hflat n (.inr hty)
  | T_FILE => exact hflat n (.inl hty)
  | T_DEV => exact h.devices n hty 12
  | T_SYM => exact absurd hty hs

theorem isdiremptyLoop_ok (h : Sound sb k.disk k.disk.dinode) (hdp : DirCopy k dp)
    (h16 : 16 ∣ (k.icache dp).di.size) : ∀ (fuel off : Nat) (b : Bool), 16 ∣ off →
      isdiremptyLoop sb dp fuel off k = .ok b k' → k' = k := by
  intro fuel
  induction fuel with
  | zero =>
    intro off b _ hr
    cases hr
    rfl
  | succ fuel ih =>
    intro off b ho hr
    unfold isdiremptyLoop at hr
    rw [run_get] at hr
    by_cases hlt : off < (k.icache dp).di.size
    · rw [if_pos hlt] at hr
      rw [Lib.run_bind (readDirent_run h hdp (by omega))] at hr
      dsimp only at hr
      split_ifs at hr with hz
      · cases hr
        rfl
      · exact ih (off + 16) b (by omega) hr
    · rw [if_neg hlt] at hr
      cases hr
      rfl

theorem isdirempty_ok (h : Orderly sb k) (h0 : 0 < k.refs ip) (hv : (k.icache ip).valid = true)
    (ht : (k.icache ip).di.type = .T_DIR) {b : Bool} (hr : isdirempty sb ip k = .ok b k') : k' = k := by
  have hcopy := (h.cached.copy ip h0 hv).1
  refine isdiremptyLoop_ok h.sound ⟨hcopy, ht⟩ ?_ _ (2 * 16) b (by decide) hr
  rw [hcopy]
  exact h.entries _ (by rw [← hcopy]; exact ht)

/-- The call has locked the directory `dp` and the inode `ip` of an entry of it. -/
structure Unlinking (sb : Superblock) (k₀ k : Kernel) (dp ip : Ino) : Prop where
  orderly : Orderly sb k
  silent : Silent k₀ k
  moved : Moved k₀ k (Function.update (Function.update k₀.locks dp true) ip true)
    (found (found k₀.refs (some dp)) (some ip))
  parent : (k.icache dp).valid = true
  isdir : (k.icache dp).di.type = .T_DIR
  valid : (k.icache ip).valid = true
  apart : ip ≠ dp

namespace Unlinking

theorem pos (h : Unlinking sb k₀ k dp ip) (hc : Cached k₀) : 0 < k.refs ip := by
  have hge := hc.refs ip
  have hle := le_found k₀.refs (some dp) ip
  rw [h.moved.refs]
  show 0 < Function.update (found k₀.refs (some dp)) ip (found k₀.refs (some dp) ip + 1) ip
  rw [Function.update_self]
  omega

theorem pos_parent (h : Unlinking sb k₀ k dp ip) (hc : Cached k₀) : 0 < k.refs dp := by
  have hge := hc.refs dp
  have hle := le_found (found k₀.refs (some dp)) (some ip) dp
  rw [h.moved.refs]
  refine lt_of_lt_of_le ?_ hle
  show 0 < Function.update k₀.refs dp (k₀.refs dp + 1) dp
  rw [Function.update_self]
  omega

/-- Without both locks there is none. -/
theorem locks (h : Unlinking sb k₀ k dp ip) (hfree : ∀ i, k₀.locks i = false) (i : Ino) :
    Function.update (Function.update k.locks dp false) ip false i = false := by
  rw [h.moved.locks]
  simp only [Function.update_apply]
  split_ifs
  · rfl
  · rfl
  · exact hfree i

end Unlinking

/-- The call has looked the name up in the directory. -/
theorem Inside.unlinking (hin : Inside k₀ k k₁ dp) (h : Orderly sb k₀) (hv : (k₁.icache dp).valid = true)
    (ht : (k₁.icache dp).di.type = .T_DIR) (hm : Looked k₁ k₂ (some ip)) (hs : Silent k₁ k₂)
    (hr : ilock ip k₂ = .ok u k₃) : Unlinking sb k₀ k₃ dp ip ∧ (k₃.icache dp).di = (k₁.icache dp).di ∧
      (k₃.icache ip).di = k₀.disk.dinode (k₂.icache ip).inum := by
  have h0 := hin.pos h.cached
  have ho := hin.orderly h
  obtain ⟨hun, -, hm₃, -, hv₃⟩ := (wp_ilock ip).ok hr
  obtain ⟨hs₃, hip, -⟩ := ilock_ok hs.cached hr
  have hdp : k₂.locks dp = true := by
    rw [hm.locks]
    exact hin.held
  have hapart : ip ≠ dp := by
    rintro rfl
    cases hun.symm.trans hdp
  have hm₁₃ := hm.then hm₃
  rw [hm.locks, hm.refs] at hm₁₃
  have hs₁₃ : Silent k₁ k₃ := hs.trans hs₃ (fun i hi => lt_of_lt_of_le hi (hm.le i))
  have hpos : ∀ i, 0 < k₁.refs i → 0 < k₃.refs i := by
    intro i hi
    rw [hm₁₃.refs]
    exact lt_of_lt_of_le hi (le_found k₁.refs _ i)
  have hv' := hm₁₃.kept dp h0 (hpos dp h0) hv
  have hdi : (k₃.icache dp).di = (k₁.icache dp).di := by
    rw [(hs₁₃.cached.copy dp (hpos dp h0) hv').1, hs₁₃.disk, hs₁₃.inum dp h0, ← (ho.cached.copy dp h0 hv).1]
  have hmoved := hin.moved.trans hm₁₃ (fun i hi _ => lt_of_lt_of_le hi (le_found k₀.refs _ i))
  rw [hin.moved.locks, hin.moved.refs] at hmoved
  refine ⟨⟨hs₁₃.orderly ho hpos hm₁₃.kept hm₁₃.cwd, ?_, hmoved, hv', by rw [hdi]; exact ht, hv₃, hapart⟩,
    hdi, ?_⟩
  · exact hin.silent.trans hs₁₃ (fun i hi => lt_of_lt_of_le hi (hin.le i))
  · rw [hip, hs.disk, hin.silent.disk]

/-- The inode is given back, and then the directory. -/
theorem Unlinking.back (h : Unlinking sb k₀ k dp ip) (hs : Resting sb k₀) (hflat : Flat k₀.disk)
    (h1 : iunlockput ip k = .ok u k₁) (h2 : iunlockput dp k₁ = .ok u k') : Resting sb k' := by
  have hd := h.silent.disk
  have hm₁ := ((wp_iunlockput ip).ok h1).2.2
  have hm₂ := ((wp_iunlockput dp).ok h2).2.2
  have hrefs₁ : k₁.refs = found k₀.refs (some dp) := by
    rw [hm₁.refs, h.moved.refs, found_put]
  have hrefs₂ : k'.refs = k₀.refs := by
    rw [hm₂.refs, hrefs₁, found_put]
  have hcwd₁ : k₁.cwd = k₀.cwd := hm₁.cwd.trans h.moved.cwd
  have hcopy := h.orderly.cached.copy ip (h.pos hs.orderly.cached) h.valid
  have hcopy' := h.orderly.cached.copy dp (h.pos_parent hs.orderly.cached) h.parent
  have ho₁ := iunlockput_orderly h.orderly (fun _ hn _ => by
    have hne := hcopy.2
    rw [hcopy.1] at hne hn
    exact h.orderly.flat (by rw [hd]; exact hflat) hne (fun ht => h.orderly.links _ ht hn)) h1 (by
      rw [hrefs₁, h.moved.cwd]
      exact lt_of_lt_of_le hs.orderly.cwd (le_found k₀.refs _ _))
  have hdp := ho₁.2 dp (Ne.symm h.apart)
  have hpos₁ : 0 < k₁.refs dp := by
    unfold Kernel.refs
    rw [hdp]
    exact h.pos_parent hs.orderly.cached
  have hcopy₁ := (ho₁.1.cached.copy dp hpos₁ (by rw [hdp]; exact h.parent)).1
  have ho₂ := iunlockput_orderly ho₁.1 (fun _ _ _ => by
    rw [← hcopy₁, hdp, hcopy'.1, hd]
    refine hflat _ (.inr ?_)
    rw [← hd, ← hcopy'.1]
    exact h.isdir) h2 (by
      rw [hrefs₂, hcwd₁]
      exact hs.orderly.cwd)
  refine ⟨ho₂.1, fun i => ?_⟩
  rw [hm₂.locks, hm₁.locks, Function.update_comm h.apart]
  exact h.locks hs.free i

/-- The end of `sys_unlink`, when the directory has no entry for the inode any more. -/
theorem Unlinking.finish (h : Unlinking sb k₀ k dp ip) (hs : Resting sb k₀) (ho : Orderly sb k₁)
    (hm : Moved k k₁ k.locks k.refs) (hparent : (k₁.icache dp).di.T_addr = 0)
    (hdi : (k₁.icache ip).di = (k.icache ip).di)
    (hlast : (k.icache ip).di.type = .T_SYM → (k.icache ip).di.nlink + -1 ≠ 0)
    (hflat : (k.icache ip).di.type ≠ .T_SYM → (k.icache ip).di.T_addr = 0)
    (hr : (do
      iunlockput dp
      addLinks ip (-1)
      iunlockput ip
      return 0 : KM Int) k₁ = .ok v k') : Resting sb k' := by
  obtain ⟨w₂, k₂, h2, hr⟩ := Lib.bind_ok hr
  obtain ⟨w₃, k₃, h3, hr⟩ := Lib.bind_ok hr
  obtain ⟨w₄, k₄, h4, hr⟩ := Lib.bind_ok hr
  cases hr
  have hm₁ := h.moved.then_same hm
  rw [h.moved.locks] at hm₁
  have hpos₁ : 0 < k₁.refs ip := by
    rw [hm.refs]
    exact h.pos hs.orderly.cached
  have hv₁ := hm.kept ip (h.pos hs.orderly.cached) hpos₁ h.valid
  -- the directory
  have hm₂ := ((wp_iunlockput dp).ok h2).2.2
  have hrefs₂ : k₂.refs = found k₀.refs (some ip) := by
    rw [hm₂.refs, hm₁.refs, found_next]
  have hcwd₂ : k₂.cwd = k₀.cwd := hm₂.cwd.trans hm₁.cwd
  obtain ⟨ho₂, hsame⟩ := iunlockput_orderly ho (fun hv _ h1 => by
    have hpos : 0 < k₁.refs dp := by
      rw [h1]
      exact Int.one_pos
    rw [← (ho.cached.copy dp hpos hv).1]
    exact hparent) h2 (by
      rw [hrefs₂, hm₁.cwd]
      exact lt_of_lt_of_le hs.orderly.cwd (le_found k₀.refs _ _))
  have hip := hsame ip h.apart
  have hpos₂ : 0 < k₂.refs ip := by
    unfold Kernel.refs
    rw [hip]
    exact hpos₁
  -- the inode has one name less
  have hk₃ := addLinks_put h3
  have ho₃ : Orderly sb k₃ := by
    rw [hk₃]
    refine ho₂.put_nlink hpos₂ (by rw [hip]; exact hv₁) (fun ht => ?_)
    rw [hip, hdi] at ht ⊢
    exact hlast ht
  have hm₃ : Moved k₂ k₃ k₂.locks k₂.refs := by
    rw [hk₃]
    exact put_moved k₂ ip _
  have hm₄ := ((wp_iunlockput ip).ok h4).2.2
  have hrefs₄ : k'.refs = k₀.refs := by
    rw [hm₄.refs, hm₃.refs, hrefs₂, found_put]
  have hdi₃ : (k₃.icache ip).di = { (k.icache ip).di with nlink := (k.icache ip).di.nlink + -1 } := by
    rw [hk₃, put_entry, hip, hdi]
  refine ⟨(iunlockput_orderly ho₃ (fun hv hn _ => ?_) h4 ?_).1, fun i => ?_⟩
  · rw [hdi₃] at hn
    rw [← (ho₃.cached.copy ip (by rw [hm₃.refs]; exact hpos₂) hv).1, hdi₃]
    exact hflat (fun ht => hlast ht hn)
  · rw [hrefs₄, hm₃.cwd, hcwd₂]
    exact hs.orderly.cwd
  · rw [hm₄.locks, hm₃.locks, hm₂.locks, hm.locks]
    exact h.locks hs.free i

/-- The entry at `off` of the directory is one for the inode. -/
theorem Unlinking.entry (h : Unlinking sb k₀ k dp ip) (hs : Resting sb k₀) (hflat : Flat k₀.disk)
    (h16 : 16 ∣ off) (hoff : off + 16 ≤ (k.icache dp).di.size)
    (hlast : (k.icache ip).di.type = .T_SYM → (k.icache ip).di.nlink ≠ 1)
    (hr : unlinkEntry sb dp ip off k = .ok v k') : Resting sb k' := by
  have h0 := h.pos hs.orderly.cached
  have h0' := h.pos_parent hs.orderly.cached
  unfold unlinkEntry at hr
  obtain ⟨w, k₁, hwrite, hr⟩ := Lib.bind_ok hr
  by_cases hw : w ≠ 16
  · rw [if_pos hw] at hr
    cases hr
  obtain rfl : w = 16 := not_not.mp hw
  rw [if_neg hw, run_get] at hr
  obtain ⟨hund, hsame⟩ := writeFile_ok h.orderly h0' h.parent (.inr h.isdir) (fun _ => dvd_ofNat h16) hwrite
  have hpos : ∀ i, 0 < k.refs i → 0 < k₁.refs i := fun i hi => by
    rw [hund.moved.refs]
    exact hi
  have hinside : (UInt32.ofNat off).toNat + (16 : UInt32).toNat ≤ (k.icache dp).di.size := by
    refine le_trans (Nat.add_le_add_right ?_ 16) hoff
    rw [UInt32.toNat_ofNat']
    exact Nat.mod_le _ _
  -- an entry of zeros inside the directory changes no inode
  have hdi : ∀ i, 0 < k.refs i → (k.icache i).valid = true → (k₁.icache i).di = (k.icache i).di := by
    intro i hi hv
    rw [(hund.orderly.cached.copy i (hpos i hi) (hund.moved.kept i hi (hpos i hi) hv)).1,
      (h.orderly.cached.copy i hi hv).1, hund.inum i hi, hsame hinside]
  have hparent : (k₁.icache dp).di.T_addr = 0 := by
    have hcopy := (h.orderly.cached.copy dp h0' h.parent).1
    rw [hdi dp h0' h.parent, hcopy, h.silent.disk]
    refine hflat _ (.inr ?_)
    rw [← h.silent.disk, ← hcopy]
    exact h.isdir
  have hlast' : (k.icache ip).di.type = .T_SYM → (k.icache ip).di.nlink + -1 ≠ 0 := by
    intro ht hz
    exact hlast ht (by grind)
  have hflat' : (k.icache ip).di.type ≠ .T_SYM → (k.icache ip).di.T_addr = 0 := by
    intro ht
    obtain ⟨hcopy, hne⟩ := h.orderly.cached.copy ip h0 h.valid
    rw [hcopy] at hne ht ⊢
    exact h.orderly.flat (by rw [h.silent.disk]; exact hflat) hne ht
  by_cases hdir : k₁.type ip = .T_DIR
  · rw [if_pos hdir] at hr
    obtain ⟨w₂, k₂, h2, hr⟩ := Lib.bind_ok hr
    have hk₂ := addLinks_put h2
    have hisdir : (k₁.icache dp).di.type = .T_DIR := by
      rw [hdi dp h0' h.parent]
      exact h.isdir
    refine h.finish hs ?_ ?_ ?_ ?_ hlast' hflat' hr
    · rw [hk₂]
      refine hund.orderly.put_nlink (hpos dp h0') (hund.moved.kept dp h0' (hpos dp h0') h.parent) (fun ht => ?_)
      rw [hisdir] at ht
      cases ht
    · rw [hk₂]
      have hm := hund.moved.then_same (put_moved k₁ dp
        { (k₁.icache dp).di with nlink := (k₁.icache dp).di.nlink + -1 })
      rw [hund.moved.locks] at hm
      exact hm
    · rw [hk₂, put_entry]
      exact hparent
    · rw [hk₂]
      rw [put_other h.apart]
      exact hdi ip h0 h.valid
  · rw [if_neg hdir] at hr
    exact h.finish hs hund.orderly hund.moved hparent (hdi ip h0 h.valid) hlast' hflat' hr

theorem sysUnlink_rests (h : Resting sb k) (hflat : Flat k.disk)
    (hlast : ∀ n, k.names.look path = .inode n → (k.disk.dinode n).type = .T_SYM →
      (k.disk.dinode n).nlink ≠ 1) (hr : sysUnlink sb path k = .ok v k') : Resting sb k' := by
  unfold sysUnlink at hr
  obtain ⟨o, k₁, hparent, hr⟩ := Lib.bind_ok hr
  obtain ⟨hw, hlook⟩ := nameiparent_ok h.orderly.toSettled h.free path hparent
  cases o with
  | none =>
    cases hr
    exact hw.resting h
  | some x =>
    obtain ⟨dp, name⟩ := x
    obtain ⟨w₂, k₂, hl, hr⟩ := Lib.bind_ok hr
    have hin := hw.inside h.orderly.toSettled h.free hl
    have hv := ((wp_ilock dp).ok hl).2.2.2.2
    have ho₂ := hin.orderly h.orderly
    have hnone : ∀ {w₃ k₃}, iunlockput dp k₂ = .ok w₃ k₃ → Resting sb k₃ := fun hput =>
      (hin.left (o := none) h.orderly.cached (Moved.refl k₂) (.refl ho₂.cached) hput).1.resting h
    by_cases hdots : name = [46] ∨ name = [46, 46]
    · rw [if_pos hdots] at hr
      obtain ⟨w₃, k₃, hput, hr⟩ := Lib.bind_ok hr
      cases hr
      exact hnone hput
    rw [if_neg hdots] at hr
    obtain ⟨o, k₃, hfind, hr⟩ := Lib.bind_ok hr
    obtain ⟨ht, hm₃, hs₃, hname, hoff, hsame⟩ := dirlookup_ok ho₂ (hin.pos h.orderly.cached) hv hfind
    cases o with
    | none =>
      obtain ⟨w₄, k₄, hput, hr⟩ := Lib.bind_ok hr
      cases hr
      rw [hsame rfl] at hput
      exact hnone hput
    | some y =>
      obtain ⟨ip, off⟩ := y
      obtain ⟨w₄, k₄, hlock, hr⟩ := Lib.bind_ok hr
      obtain ⟨hboth, hdp, hip⟩ := hin.unlinking h.orderly hv ht hm₃ hs₃ hlock
      rw [run_get] at hr
      by_cases hpanic : (k₄.icache ip).di.nlink < 1
      · rw [if_pos hpanic] at hr
        cases hr
      rw [if_neg hpanic] at hr
      have hrest : ∀ empty : Bool, (if empty = true then unlinkEntry sb dp ip off else do
          iunlockput ip
          iunlockput dp
          return -1 : KM Int) k₄ = .ok v k' → Resting sb k' := by
        intro empty hr
        cases empty with
        | true =>
          obtain ⟨h16, hle⟩ := hoff _ rfl
          refine hboth.entry h hflat h16 (by rw [hdp]; exact hle) (fun hty => ?_) hr
          rw [hip] at hty ⊢
          refine hlast _ (hlook _ rfl _ ?_) hty
          rw [← hin.silent.disk, ← hin.inum]
          exact hname
        | false =>
          obtain ⟨w₆, k₆, h6, hr⟩ := Lib.bind_ok hr
          obtain ⟨w₇, k₇, h7, hr⟩ := Lib.bind_ok hr
          cases hr
          exact hboth.back h hflat h6 h7
      by_cases hdir : k₄.type ip = .T_DIR
      · rw [if_pos hdir] at hr
        obtain ⟨empty, k₅, hempty, hr⟩ := Lib.bind_ok hr
        rw [isdirempty_ok hboth.orderly (hboth.pos h.orderly.cached) hboth.valid hdir hempty] at hr
        exact hrest empty hr
      · rw [if_neg hdir] at hr
        exact hrest true hr

end UnlinkCall

/-! ### `sys_chdir` -/

section ChdirCall

variable {sb : Superblock} {k k' m : Kernel} {j : Ino} {path : Option (List UInt8)} {fuel : Nat} {r : Int}

theorem Arrived.orderly (h : Orderly sb k) (ha : Arrived sb k m j) : Orderly sb m :=
  ha.silent.orderly h (fun i hi => lt_of_lt_of_le hi (ha.le i)) ha.kept ha.cwd

/-- A reference besides that of the call is left to the current directory. -/
theorem Arrived.cwd_pos (h : Orderly sb k) (ha : Arrived sb k m j) :
    0 < Function.update m.refs j (m.refs j - 1) k.cwd := by
  have h0 := h.cwd
  have hg := ha.gains
  by_cases hj : k.cwd = j
  · rw [hj, Function.update_self]
    rw [hj] at h0
    omega
  · rw [Function.update_of_ne hj]
    exact lt_of_lt_of_le h0 (ha.le _)

theorem chdirTo_rests (h : Resting sb k) (hflat : Flat k.disk) (ha : Arrived sb k m j)
    (hr : chdirTo j m = .ok r k') : Resting sb k' := by
  have ho := ha.orderly h.orderly
  have hfree : ∀ i, Function.update m.locks j false i = false := by
    intro i
    by_cases hi : i = j
    · rw [hi, Function.update_self]
    · rw [Function.update_of_ne hi]
      exact Bool.eq_false_iff.mpr (fun hl => hi ((ha.at_end.locks i).mp hl))
  unfold chdirTo at hr
  rw [run_get] at hr
  by_cases ht : m.type j ≠ .T_DIR
  · rw [if_pos ht] at hr
    obtain ⟨u, k₁, hput, hr⟩ := Lib.bind_ok hr
    cases hr
    have hm := ((wp_iunlockput j).ok hput).2.2
    refine ⟨(iunlockput_kept ho (ha.shared h.orderly.toSettled) hput ?_).1, fun i => ?_⟩
    · rw [hm.refs, ha.cwd]
      exact ha.cwd_pos h.orderly
    · rw [hm.locks]
      exact hfree i
  · rw [if_neg ht] at hr
    obtain ⟨u, k₁, hun, hr⟩ := Lib.bind_ok hr
    rw [run_get] at hr
    obtain ⟨u', k₂, hput, hr⟩ := Lib.bind_ok hr
    cases hr
    obtain ⟨-, -, hm₁, -⟩ := (wp_iunlock j).ok hun
    have ho₁ : Orderly sb k₁ := (iunlock_ok ho.cached hun).dropped ho hm₁.refs hm₁.kept hm₁.cwd
    have hm₂ := ((wp_iput k₁.cwd).ok hput).2
    have hcwd₁ : k₁.cwd = k.cwd := hm₁.cwd.trans ha.cwd
    have hs₁ := iunlock_ok ho.cached hun
    have hd₁ : k₁.disk = k.disk := hs₁.disk.trans ha.silent.disk
    have hold : (k.disk.dinode (k₁.icache k₁.cwd).inum).type = .T_DIR := by
      rw [← hd₁]
      exact ho₁.cwdDir
    have hnew : (k₁.disk.dinode (k₁.icache j).inum).type = .T_DIR := by
      rw [hs₁.disk, hs₁.inum j ha.at_end.ref]
      exact ha.at_end.type.symm.trans (not_not.mp ht)
    have hpos : 0 < k₂.refs j := by
      rw [hm₂.refs, hm₁.refs, hcwd₁]
      have h0 := h.orderly.cwd
      have hg := ha.gains
      by_cases hj : j = k.cwd
      · rw [hj] at hg ⊢
        rw [Function.update_self]
        omega
      · rw [Function.update_of_ne hj]
        exact ha.at_end.ref
    refine ⟨(iput_orderly ho₁ ho₁.cwd (fun _ _ _ => ?_) hput (c := j) hpos hnew).1, fun i => ?_⟩
    · rw [hd₁]
      exact hflat _ (.inr hold)
    · show k₂.locks i = false
      rw [hm₂.locks, hm₁.locks]
      exact hfree i

theorem sysChdir_rests (h : Resting sb k) (hflat : Flat k.disk)
    (hr : sysChdir sb fuel path k = .ok (some r) k') : Resting sb k' := by
  cases path with
  | none =>
    cases hr
    exact h
  | some p =>
    have hdone := ((wp_sysChdir fuel h.orderly.toSettled h.free).ok hr).2
    unfold sysChdir at hr
    obtain ⟨o, k₁, hname, hr⟩ := Lib.bind_ok hr
    obtain ⟨hw, hlook⟩ := namei_ok h.orderly.toSettled h.free p hname
    cases o with
    | none =>
      cases hr
      exact hw.resting h
    | some i =>
      rcases hdone with ⟨hmiss, -⟩ | ⟨i', -, ⟨ho, -⟩ | ⟨d, m, j, -, -, -, -, ha, r', ho, hto⟩⟩
      · have hlook : k.names.look p = .inode (k₁.icache i).inum := hlook
        unfold NameSpace.reach at hmiss
        rw [hlook] at hmiss
        dsimp only at hmiss
        split_ifs at hmiss
      · cases ho
      · cases ho
        exact chdirTo_rests h hflat ha hto

end ChdirCall

/-! ### file.c -/

/-- `fileread` of an inode, when the line `input` has been typed. -/
def fileread (sb : Superblock) (input : List UInt8) (ip : Ino) (off n : UInt32) : KM (Int × List UInt8) := do
  ilock ip
  let r ← readi (consoleDevsw input) sb ip off n
  iunlock ip
  return r

/-- A round of the loop of `filewrite`. -/
def filewrite (sb : Superblock) (ip : Ino) (src : Nat → UInt8) (off n : UInt32) : KM Int := do
  ilock ip
  let r ← writei (consoleDevsw []) sb ip src off n
  iunlock ip
  return r

section FileCall

variable {α : Type} {sb : Superblock} {k k' m m' : Kernel} {ip j : Ino} {u : Unit} {a : α} {fail : α}
  {off n : UInt32} {dev : Dinode → Option (Ino → KM α)} {file : Ino → KM α} {o o' : Option Ino}

/-- Nothing is locked, or one inode. -/
def OneLock (k : Kernel) : Prop := ∃ j, ∀ i, k.locks i = true → i = j

theorem ilock_at (h : Resting sb k) (hr : ilock ip k = .ok u k') :
    At sb k' ip ∧ Orderly sb k' ∧ Silent k k' := by
  obtain ⟨-, h0, hm, -, hv⟩ := (wp_ilock ip).ok hr
  obtain ⟨hs, -⟩ := ilock_ok h.orderly.cached hr
  have ho : Orderly sb k' := hs.dropped h.orderly hm.refs hm.kept hm.cwd
  refine ⟨⟨ho.toSettled, fun i => ?_, by rw [hm.refs]; exact h0, hv⟩, ho, hs⟩
  rw [hm.locks]
  by_cases hi : i = ip
  · rw [hi, Function.update_self]
    simp only
  · rw [Function.update_of_ne hi, h.free i]
    simp only [Bool.false_eq_true, hi]

theorem restore_ok (h : Orderly sb m) (hl : ∀ i, m.locks i = true → some i = o')
    (hr : restore o o' m = .ok u m') : Orderly sb m' ∧ OneLock m' := by
  have hone : ∀ {x : Kernel} {j : Ino}, x.locks = Function.update m.locks j true →
      (∀ i, i ≠ j → m.locks i = false) → OneLock x := by
    intro x j hx hfree
    refine ⟨j, fun i hi => ?_⟩
    by_contra hne
    rw [hx, Function.update_of_ne hne, hfree i hne] at hi
    cases hi
  cases o with
  | none =>
    cases hr
    refine ⟨h, ?_⟩
    cases o' with
    | none => exact ⟨0, fun i hi => by cases hl i hi⟩
    | some j => exact ⟨j, fun i hi => Option.some.inj (hl i hi)⟩
  | some x =>
    cases o' with
    | none =>
      have hr : ilock x m = .ok u m' := hr
      obtain ⟨-, -, hm, -⟩ := (wp_ilock x).ok hr
      refine ⟨(ilock_ok h.cached hr).1.dropped h hm.refs hm.kept hm.cwd, hone hm.locks (fun i _ => ?_)⟩
      exact Bool.eq_false_iff.mpr (fun hi => by cases hl i hi)
    | some j =>
      have hr : (iunlock j >>= fun _ => ilock x) m = .ok u m' := hr
      obtain ⟨v, m₁, hun, hr⟩ := Lib.bind_ok hr
      obtain ⟨-, -, hm₁, -⟩ := (wp_iunlock j).ok hun
      have ho₁ : Orderly sb m₁ := (iunlock_ok h.cached hun).dropped h hm₁.refs hm₁.kept hm₁.cwd
      obtain ⟨-, -, hm, -⟩ := (wp_ilock x).ok hr
      refine ⟨(ilock_ok ho₁.cached hr).1.dropped ho₁ hm.refs hm.kept hm.cwd, x, fun i hi => ?_⟩
      by_contra hne
      rw [hm.locks, Function.update_of_ne hne, hm₁.locks] at hi
      by_cases hij : i = j
      · rw [hij, Function.update_self] at hi
        cases hi
      · rw [Function.update_of_ne hij] at hi
        exact hij (Option.some.inj (hl i hi))

/-- `readi` and `writei` leave an orderly state behind if the part for files does. -/
theorem viaLinks_orderly (h : At sb k ip) (ho : Orderly sb k)
    (hdev : ∀ di f, dev di = some f → ∀ j m a m', Orderly sb m → f j m = .ok a m' → Undisturbed sb m m')
    (hfile : ∀ d j m a m', Chased sb k ip d m j → Orderly sb m → (m.icache j).di.isFile →
      file j m = .ok a m' → Undisturbed sb m m')
    (hr : viaLinks sb dev file fail ip k = .ok a k') : Orderly sb k' ∧ OneLock k' := by
  rw [viaLinks_eq] at hr
  obtain ⟨r, k₁, hfollow, hr⟩ := Lib.bind_ok hr
  have hnames := (wp_follow_names _ k ip h).ok hfollow
  have hspec := (wp_follow _ k ip h.held).ok hfollow
  have hkept : ∀ {d j}, Chased sb k ip d k₁ j → Orderly sb k₁ ∧ ∀ i, k₁.locks i = true → some i = some j :=
    fun {d j} hc => ⟨hc.silent.orderly ho hc.pos (hc.hops.followed h.held).moved.kept hc.cwd,
      fun i hi => congrArg some ((hc.at_end.locks i).mp hi)⟩
  cases r with
  | error o =>
    obtain ⟨v, k₂, hres, hr⟩ := Lib.bind_ok hr
    cases hr
    cases o with
    | none =>
      obtain ⟨hle, hm⟩ := hspec
      refine restore_ok (hnames.2.2.orderly ho (fun i hi => lt_of_lt_of_le hi (hle i)) hm.kept hm.cwd) ?_ hres
      intro i hi
      rw [hm.locks] at hi
      by_cases hip : i = ip
      · rw [hip, Function.update_self] at hi
        cases hi
      · rw [Function.update_of_ne hip] at hi
        exact absurd ((h.locks i).mp hi) hip
    | some j =>
      obtain ⟨ho₁, hl⟩ := hkept hnames.2.1
      exact restore_ok ho₁ hl hres
  | ok j =>
    obtain ⟨-, d, -, hc, hns⟩ := hnames
    obtain ⟨ho₁, hl⟩ := hkept hc
    dsimp only at hr
    rw [run_get] at hr
    by_cases ht : (k₁.icache j).di.type = .T_DEV
    · rw [if_pos ht] at hr
      cases hd : dev (k₁.icache j).di with
      | none =>
        rw [hd] at hr
        obtain ⟨v, k₂, hres, hr⟩ := Lib.bind_ok hr
        cases hr
        exact restore_ok ho₁ hl hres
      | some f =>
        rw [hd] at hr
        have hund := hdev _ f hd j k₁ _ k' ho₁ hr
        refine ⟨hund.orderly, j, fun i hi => ?_⟩
        rw [hund.moved.locks] at hi
        exact Option.some.inj (hl i hi)
    · rw [if_neg ht] at hr
      obtain ⟨b, k₂, hf, hr⟩ := Lib.bind_ok hr
      obtain ⟨v, k₃, hres, hr⟩ := Lib.bind_ok hr
      cases hr
      have hisfile : (k₁.icache j).di.isFile := by
        have hne := (ho₁.cached.copy j hc.at_end.ref hc.at_end.valid).2
        cases hty : (k₁.icache j).di.type with
        | none => exact absurd hty hne
        | T_DIR => exact .inr hty
        | T_FILE => exact .inl hty
        | T_DEV => exact absurd hty ht
        | T_SYM => exact absurd hty hns
      have hund := hfile d j k₁ _ k₂ hc ho₁ hisfile hf
      refine restore_ok hund.orderly (fun i hi => ?_) hres
      rw [hund.moved.locks] at hi
      exact hl i hi

/-- `ilock`, the call and `iunlock`. -/
theorem Resting.locked (hone : OneLock k) (h : Orderly sb k) (hr : iunlock ip k = .ok u k') :
    Resting sb k' := by
  obtain ⟨hl, -, hm, -⟩ := (wp_iunlock ip).ok hr
  obtain ⟨j, hj⟩ := hone
  refine ⟨(iunlock_ok h.cached hr).dropped h hm.refs hm.kept hm.cwd, fun i => ?_⟩
  rw [hm.locks]
  by_cases hi : i = ip
  · rw [hi, Function.update_self]
  · rw [Function.update_of_ne hi]
    exact Bool.eq_false_iff.mpr (fun hli => hi ((hj i hli).trans (hj ip hl).symm))

theorem relock_ok (h : Orderly sb k) (hr : (do
    iunlock ip
    ilock ip
    return a : KM α) k = .ok a k') : Undisturbed sb k k' := by
  obtain ⟨v, k₁, h1, hr⟩ := Lib.bind_ok hr
  obtain ⟨w, k₂, h2, hr⟩ := Lib.bind_ok hr
  cases hr
  obtain ⟨hl, h0, hm₁, -⟩ := (wp_iunlock ip).ok h1
  obtain ⟨-, -, hm₂, -⟩ := (wp_ilock ip).ok h2
  have hs₁ := iunlock_ok h.cached h1
  obtain ⟨hs₂, -⟩ := ilock_ok hs₁.cached h2
  have hm := hm₁.then_same hm₂
  rw [hm₁.locks, Function.update_idem, ← hl, Function.update_eq_self] at hm
  exact (hs₁.trans hs₂ (fun i hi => by rw [hm₁.refs]; exact hi)).undisturbed h hm

theorem console_read {input : List UInt8} {di : Dinode} {f : Ino → KM (Int × List UInt8)}
    (hf : devread (consoleDevsw input) n di = some f) {b : Int × List UInt8} (h : Orderly sb k)
    (hr : f j k = .ok b k') : Undisturbed sb k k' := by
  obtain ⟨d, hd, hf⟩ := Option.bind_eq_some_iff.mp hf
  obtain ⟨g, hg, rfl⟩ := Option.map_eq_some_iff.mp hf
  obtain ⟨m, rfl⟩ := device_some hd
  unfold consoleDevsw at hg
  split_ifs at hg
  cases hg
  have hb : (((input.take (asInt n.toNat).toNat).length : Int), input.take (asInt n.toNat).toNat) = b := by
    have hr : (iunlock j >>= fun _ => ilock j >>= fun _ => pure _ : KM (Int × List UInt8)) k = .ok b k' := hr
    obtain ⟨v, k₁, -, hr⟩ := Lib.bind_ok hr
    obtain ⟨w, k₂, -, hr⟩ := Lib.bind_ok hr
    cases hr
    rfl
  subst hb
  exact relock_ok h hr

theorem console_write {input : List UInt8} {di : Dinode} {src : Nat → UInt8} {f : Ino → KM Int}
    (hf : devwrite (consoleDevsw input) src n di = some f) {b : Int} (h : Orderly sb k)
    (hr : f j k = .ok b k') : Undisturbed sb k k' := by
  obtain ⟨d, hd, hf⟩ := Option.bind_eq_some_iff.mp hf
  obtain ⟨g, hg, rfl⟩ := Option.map_eq_some_iff.mp hf
  obtain ⟨m, rfl⟩ := device_some hd
  unfold consoleDevsw at hg
  split_ifs at hg
  cases hg
  have hb : asInt n.toNat = b := by
    have hr : (iunlock j >>= fun _ => ilock j >>= fun _ => pure _ : KM Int) k = .ok b k' := hr
    obtain ⟨v, k₁, -, hr⟩ := Lib.bind_ok hr
    obtain ⟨w, k₂, -, hr⟩ := Lib.bind_ok hr
    cases hr
    rfl
  subst hb
  exact relock_ok h hr

theorem readFile_ok (h : Orderly sb k) (h0 : 0 < k.refs ip) (hv : (k.icache ip).valid = true)
    (hfile : (k.icache ip).di.isFile) {b : Int × List UInt8} (hr : readFile sb off n ip k = .ok b k') :
    k' = k := by
  obtain ⟨hcopy, -⟩ := h.cached.copy ip h0 hv
  obtain ⟨y, d, hread, hk⟩ := onInode_run hr
  have hin := h.sound.readiFile { (k.icache ip).di with inum := (k.icache ip).inum } hcopy.symm hfile off n
  -- nothing is written
  have hsame : y = { (k.icache ip).di with inum := (k.icache ip).inum } ∧ d = k.disk := by
    split_ifs at hin with hc
    · rw [Lib.run_bind hin] at hread
      cases hread
      exact ⟨rfl, rfl⟩
    · rw [Lib.run_bind hin] at hread
      cases hread
      exact ⟨rfl, rfl⟩
  rw [hk, hsame.1, hsame.2]
  exact rewrite_same k ip

theorem fileread_rests {input : List UInt8} {v : Int × List UInt8} (h : Resting sb k)
    (hr : fileread sb input ip off n k = .ok v k') : Resting sb k' := by
  obtain ⟨w, k₁, hlock, hr⟩ := Lib.bind_ok hr
  obtain ⟨hat, ho, -⟩ := ilock_at h hlock
  obtain ⟨r, k₂, hread, hr⟩ := Lib.bind_ok hr
  obtain ⟨w', k₃, hun, hr⟩ := Lib.bind_ok hr
  cases hr
  obtain ⟨ho₂, hone⟩ := viaLinks_orderly hat ho (fun di f hf j m a m' hm hrun => console_read hf hm hrun)
    (fun d j m a m' hc hm hfile hrun => by
      rw [readFile_ok hm hc.at_end.ref hc.at_end.valid hfile hrun]
      exact .refl hm) hread
  exact .locked hone ho₂ hun

theorem filewrite_rests {src : Nat → UInt8} {v : Int} (h : Resting sb k)
    (hdir : ∀ d x, k.names.Links d (k.icache ip).inum x → k.names.type x ≠ .T_DIR)
    (hr : filewrite sb ip src off n k = .ok v k') : Resting sb k' := by
  obtain ⟨w, k₁, hlock, hr⟩ := Lib.bind_ok hr
  obtain ⟨hat, ho, hs⟩ := ilock_at h hlock
  have h0 := ((wp_ilock ip).ok hlock).2.1
  have hcwd' : k.names.cwd = k₁.names.cwd := by
    show (k.icache k.cwd).inum = (k₁.icache k₁.cwd).inum
    rw [((wp_ilock ip).ok hlock).2.2.1.cwd, hs.inum _ h.orderly.cwd]
  obtain ⟨r, k₂, hwrite, hr⟩ := Lib.bind_ok hr
  obtain ⟨w', k₃, hun, hr⟩ := Lib.bind_ok hr
  cases hr
  obtain ⟨ho₂, hone⟩ := viaLinks_orderly hat ho (fun di f hf j m a m' hm hrun => console_write hf hm hrun)
    (fun d j m a m' hc hm hfile hrun => by
      refine (writeFile_ok hm hc.at_end.ref hc.at_end.valid hfile (fun ht => ?_) hrun).1
      have hl : k.names.Links d _ _ := hc.links.congr hs.disk.symm hcwd'
      rw [hs.inum ip h0] at hl
      refine absurd ?_ (hdir d _ hl)
      rw [hc.at_end.copy, hc.silent.disk, hs.disk] at ht
      exact ht) hwrite
  exact .locked hone ho₂ hun

end FileCall

section CloseCall

variable {sb : Superblock} {k k' : Kernel} {ip : Ino} {u : Unit}

/-- `fileclose` of the last reference to an open file, which is one to its inode. -/
theorem fileclose_rests (h : Resting sb k) (hflat : Flat k.disk) (h0 : 0 < k.refs ip)
    (hc : k.cwd = ip → 1 < k.refs ip) (hr : iput ip k = .ok u k') : Resting sb k' := by
  have hm := ((wp_iput ip).ok hr).2
  refine ⟨?_, fun i => by rw [hm.locks]; exact h.free i⟩
  have ho := (iput_orderly h.orderly h0 (fun hv hn _ => ?_) hr (c := k.cwd) ?_ h.orderly.cwdDir).1
  · rw [← hm.cwd] at ho
    exact ho
  · obtain ⟨hcopy, hne⟩ := h.orderly.cached.copy ip h0 hv
    rw [hcopy] at hne hn
    exact h.orderly.flat hflat hne (fun ht => h.orderly.links _ ht hn)
  · have hpos := h.orderly.cwd
    rw [hm.refs]
    by_cases hi : k.cwd = ip
    · have hmore := hc hi
      rw [hi, Function.update_self]
      omega
    · rw [Function.update_of_ne hi]
      exact hpos

end CloseCall

end Xv6.File
