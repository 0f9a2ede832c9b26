import Xv6.File.Calls
import Xv6.Lib.Run

/- Runs of system calls (`project3_filesystem/sysfile.c`, `file.c`), one after another, from the
   boot on.

   A run starts with a tidy disk and with the root as the current directory. It is a list of
   calls that return; `Careful` is the condition on the state before a call that none of the
   slips listed in `Xv6.File.Calls` is met. Then every state between two calls is at rest
   (`Tidy.run`), and so it is settled, which is what `chdirSpec_iff` asks for. References that
   nobody gives back (`sys_symlink` keeps one to the target, `readi` one for each link) are
   part of the states that are reached. -/
namespace Xv6.File

/-- The calls that use inodes, with what they get. -/
inductive FsCall where
  | sysOpen (path : List UInt8) (omode : Nat) (fd : Option Int)
  | fileclose (ip : Ino)
  | fileread (ip : Ino) (off n : UInt32) (input : List UInt8)
  | filewrite (ip : Ino) (src : Nat → UInt8) (off n : UInt32)
  | sysMkdir (path : List UInt8)
  | sysMknod (path : List UInt8) (major minor : Int16)
  | sysLink (old new : List UInt8)
  | sysSymlink (old new : List UInt8)
  | sysUnlink (path : List UInt8)
  | sysChdir (path : Option (List UInt8)) (fuel : Nat)

/-- The state behind a call that returns. -/
def after {α : Type} (x : KM α) (k : Kernel) : Option Kernel :=
  match x k with
  | .ok _ k' => some k'
  | .error _ _ => none

def fsStep (sb : Superblock) (k : Kernel) : FsCall → Option Kernel
  | .sysOpen path omode fd => after (sysOpen sb path omode fd) k
  | .fileclose ip => after (iput ip) k
  | .fileread ip off n input => after (fileread sb input ip off n) k
  | .filewrite ip src off n => after (filewrite sb ip src off n) k
  | .sysMkdir path => after (sysMkdir sb path) k
  | .sysMknod path major minor => after (sysMknod sb path major minor) k
  | .sysLink old new => after (sysLink sb old new) k
  | .sysSymlink old new => after (sysSymlink sb old new) k
  | .sysUnlink path => after (sysUnlink sb path) k
  | .sysChdir path fuel =>
    match sysChdir sb fuel path k with
    | .ok (some _) k' => some k'
    | _ => none

/-- The call meets none of the other slips of the code: a file that is freed has nothing below
`T_addr`, the path of a new link has room, the last name of a link stays, and what is written
is not a directory at the end of links. What is closed is a file, with a reference besides
that of the current directory. -/
def Careful (k : Kernel) : FsCall → Prop
  | .sysOpen _ omode _ => omode &&& O_CREATE ≠ 0 → Counts k.disk
  | .fileclose ip => Flat k.disk ∧ 0 < k.refs ip ∧ (k.cwd = ip → 1 < k.refs ip)
  | .fileread _ _ _ _ => True
  | .filewrite ip _ _ _ => ∀ d x, k.names.Links d (k.icache ip).inum x → k.names.type x ≠ .T_DIR
  | .sysMkdir _ | .sysMknod _ _ _ | .sysLink _ _ => Counts k.disk
  | .sysSymlink old _ => Counts k.disk ∧ old.length < 52
  | .sysUnlink path => Flat k.disk ∧ ∀ n, k.names.look path = .inode n →
      (k.disk.dinode n).type = .T_SYM → (k.disk.dinode n).nlink ≠ 1
  | .sysChdir _ _ => Flat k.disk

section Runs

variable {sb : Superblock} {k k' : Kernel} {c : FsCall} {d : Disk} {calls : List FsCall}

theorem after_ok {α : Type} {x : KM α} (h : after x k = some k') : ∃ a, x k = .ok a k' := by
  unfold after at h
  cases hx : x k with
  | ok a k₁ =>
    rw [hx] at h
    cases h
    exact ⟨a, rfl⟩
  | error e k₁ =>
    rw [hx] at h
    cases h

/-- What a careful call keeps. -/
theorem Resting.step (h : Resting sb k) (hc : Careful k c) (hr : fsStep sb k c = some k') :
    Resting sb k' := by
  cases c with
  | sysOpen path omode fd =>
    obtain ⟨v, hr⟩ := after_ok hr
    exact sysOpen_rests h hc hr
  | fileclose ip =>
    obtain ⟨v, hr⟩ := after_ok hr
    exact fileclose_rests h hc.1 hc.2.1 hc.2.2 hr
  | fileread ip off n input =>
    obtain ⟨v, hr⟩ := after_ok hr
    exact fileread_rests h hr
  | filewrite ip src off n =>
    obtain ⟨v, hr⟩ := after_ok hr
    exact filewrite_rests h hc hr
  | sysMkdir path =>
    obtain ⟨v, hr⟩ := after_ok hr
    exact sysMake_rests h hc hr
  | sysMknod path major minor =>
    obtain ⟨v, hr⟩ := after_ok hr
    exact sysMake_rests h hc hr
  | sysLink old new =>
    obtain ⟨v, hr⟩ := after_ok hr
    exact sysLink_rests h hc hr
  | sysSymlink old new =>
    obtain ⟨v, hr⟩ := after_ok hr
    exact sysSymlink_rests h hc.1 hc.2 hr
  | sysUnlink path =>
    obtain ⟨v, hr⟩ := after_ok hr
    exact sysUnlink_rests h hc.1 hc.2 hr
  | sysChdir path fuel =>
    unfold fsStep at hr
    dsimp only at hr
    cases hrun : File.sysChdir sb fuel path k with
    | error e k₁ =>
      rw [hrun] at hr
      cases hr
    | ok o k₁ =>
      rw [hrun] at hr
      cases o with
      | none => cases hr
      | some r =>
        cases hr
        exact sysChdir_rests h hc hrun

/-- The state after the boot. -/
theorem Tidy.resting (h : Tidy sb d) : Resting sb (idleKernel d) :=
  ⟨⟨h.idle, fun i ht => h.named i (fun hn => by cases ht.symm.trans hn), h.devices⟩, idleKernel_free d⟩

theorem Tidy.run (h : Tidy sb d) (hc : Lib.Meets (fsStep sb) Careful (idleKernel d) calls)
    (hr : Lib.run (fsStep sb) (idleKernel d) calls = some k) : Resting sb k :=
  Lib.run_inv (fun _ _ _ hi hok hs => Resting.step hi hok hs) calls _ _ h.resting hc hr

end Runs

/-! ## A small disk -/

theorem linkDisk_counts (paths : List (List UInt8)) : Counts (linkDisk paths) := by
  intro n
  rcases linkDisk_dinode paths n with rfl | ⟨-, h⟩ | ⟨p, -, h⟩ | h
  · show (1 : Int16) ≠ -1
    decide
  · rw [h]
    decide
  · rw [h]
    show (1 : Int16) ≠ -1
    decide
  · rw [h]
    decide

theorem linkDisk_flat (paths : List (List UInt8)) : Flat (linkDisk paths) := by
  intro n hn
  rcases linkDisk_dinode paths n with rfl | ⟨-, h⟩ | ⟨p, -, h⟩ | h
  · rfl
  · rw [h]
    rfl
  · rw [h] at hn
    rcases hn with hn | hn <;> cases hn
  · rw [h]

/-- `/b` is a link to the root; `/c` becomes one to `/b`, and `/a` is written and read. -/
def linkCalls : List FsCall :=
  [.sysSymlink [slash, 98] [slash, 99], .sysOpen [slash, 97] 2 (some 3), .filewrite 2 (fun _ => 7) 1 600,
    .fileread 2 0 3 []]

def linkToRoot : Kernel :=
  (Lib.run (fsStep smallSuper) (idleKernel (linkDisk [[slash]])) linkCalls).getD (idleKernel (linkDisk []))

theorem linkToRoot_run :
    Lib.run (fsStep smallSuper) (idleKernel (linkDisk [[slash]])) linkCalls = some linkToRoot := by
  have h : (Lib.run (fsStep smallSuper) (idleKernel (linkDisk [[slash]])) linkCalls).isSome = true := by
    decide +kernel
  obtain ⟨k, hk⟩ := Option.isSome_iff_exists.mp h
  unfold linkToRoot
  rw [hk]
  rfl

theorem linkCalls_careful :
    Lib.Meets (fsStep smallSuper) Careful (idleKernel (linkDisk [[slash]])) linkCalls := by
  refine ⟨⟨linkDisk_counts _, by decide⟩, fun k₁ h₁ => ⟨fun h => absurd rfl h, fun k₂ h₂ => ⟨?_, ?_⟩⟩⟩
  · -- the third call writes to the file itself
    have hfile : ((fsStep smallSuper (idleKernel (linkDisk [[slash]]))
        (.sysSymlink [slash, 98] [slash, 99])).bind
          (fsStep smallSuper · (.sysOpen [slash, 97] 2 (some 3)))).map
        (fun k => k.names.type (k.icache 2).inum) = some .T_FILE := by decide +kernel
    rw [h₁, Option.bind_some, h₂] at hfile
    have hfile : k₂.names.type (k₂.icache 2).inum = .T_FILE := Option.some.inj hfile
    intro n x hl
    cases hl with
    | here =>
      rw [hfile]
      decide
    | hop ht => cases hfile.symm.trans ht
  · exact fun _ _ => ⟨trivial, fun _ _ => trivial⟩

theorem linkDisk_root_tidy : Tidy smallSuper (linkDisk [[slash]]) :=
  linkDisk_tidy (by decide) (by decide +kernel)

/-! ## Whole runs -/

/-- In every state that careful calls have reached `sys_chdir` does what is expected exactly when
there is room for its lookups and the path names nothing, or names an inode from which the
links end well. -/
theorem chdir_finishes_iff {sb : Superblock} {d : Disk} {calls : List FsCall} {k : Kernel} (hd : Tidy sb d)
    (hc : Lib.Meets (fsStep sb) Careful (idleKernel d) calls)
    (hr : Lib.run (fsStep sb) (idleKernel d) calls = some k) (path : Option (List UInt8)) :
    ChdirSpec sb k path ↔ path = none ∨
      ∃ p, path = some p ∧ k.names.Room p ∧ (k.names.reach p = .missing ∨ EndsWell k p) := by
  have h := hd.run hc hr
  exact chdirSpec_iff h.orderly.toSettled h.free path

/-- The change to `/c` ends in the root; those to the file `/a` and to a name that is not
there give -1. -/
theorem chdir_finishes_iff_linkToRoot : ChdirSpec smallSuper linkToRoot (some [slash, 99]) ∧
    ChdirSpec smallSuper linkToRoot (some [slash, 97]) ∧
    ChdirSpec smallSuper linkToRoot (some [slash, 122]) := by
  have hd := linkDisk_root_tidy
  have hc := linkCalls_careful
  refine ⟨(chdir_finishes_iff hd hc linkToRoot_run _).mpr (.inr ⟨_, rfl, by decide +kernel, .inr ?_⟩),
    (chdir_finishes_iff hd hc linkToRoot_run _).mpr (.inr ⟨_, rfl, by decide +kernel, .inr ?_⟩),
    (chdir_finishes_iff hd hc linkToRoot_run _).mpr
      (.inr ⟨_, rfl, by decide +kernel, .inl (by decide +kernel)⟩)⟩
  · exact ⟨4, 2, 1, by decide +kernel, by decide +kernel, by decide +kernel, by decide +kernel,
      fun _ => ⟨by decide, fun hg => absurd (by decide +kernel) hg.1⟩⟩
  · exact ⟨2, 0, 2, by decide +kernel, .here 2, by decide +kernel, trivial,
      fun ht => absurd ht (by decide +kernel)⟩

/-- `/b` is a link to `/a`, which is removed. -/
def danglingLink : Kernel :=
  (Lib.run (fsStep smallSuper) (idleKernel (linkDisk [[slash, 97]])) [.sysUnlink [slash, 97]]).getD
    (idleKernel (linkDisk []))

/-- The change to `/b` stops the kernel, and does not give -1. -/
theorem danglingLink_chdir : Tidy smallSuper (linkDisk [[slash, 97]]) ∧
    Lib.Meets (fsStep smallSuper) Careful (idleKernel (linkDisk [[slash, 97]])) [.sysUnlink [slash, 97]] ∧
    Lib.run (fsStep smallSuper) (idleKernel (linkDisk [[slash, 97]])) [.sysUnlink [slash, 97]] =
      some danglingLink ∧
    ¬ ChdirSpec smallSuper danglingLink (some [slash, 98]) := by
  have hd : Tidy smallSuper (linkDisk [[slash, 97]]) := linkDisk_tidy (by decide) (by decide +kernel)
  have hc : Lib.Meets (fsStep smallSuper) Careful (idleKernel (linkDisk [[slash, 97]]))
      [.sysUnlink [slash, 97]] := by
    refine ⟨⟨linkDisk_flat _, fun n hn ht => ?_⟩, fun _ _ => trivial⟩
    have hlook : (idleKernel (linkDisk [[slash, 97]])).names.look [slash, 97] = .inode 2 := by
      decide +kernel
    cases hlook.symm.trans hn
    cases ht
  have hr : Lib.run (fsStep smallSuper) (idleKernel (linkDisk [[slash, 97]])) [.sysUnlink [slash, 97]] =
      some danglingLink := by
    have h : (Lib.run (fsStep smallSuper) (idleKernel (linkDisk [[slash, 97]]))
        [.sysUnlink [slash, 97]]).isSome = true := by decide +kernel
    obtain ⟨k, hk⟩ := Option.isSome_iff_exists.mp h
    unfold danglingLink
    rw [hk]
    rfl
  refine ⟨hd, hc, hr, ?_⟩
  rintro ⟨fuel, r, k', hrun, -⟩
  have hrest := hd.run hc hr
  have hreach : danglingLink.names.reach [slash, 98] = .inode 3 := by decide +kernel
  have hmiss : danglingLink.names.reach (target danglingLink.names.disk 3) = .missing := by decide +kernel
  rcases ((wp_sysChdir _ hrest.orderly.toSettled hrest.free).ok hrun).2 with
    ⟨hm, -⟩ | ⟨i, hi, ⟨ho, -⟩ | ⟨d, m, j, hl, hx, -⟩⟩
  · cases hreach.symm.trans hm
  · cases ho
  · cases hreach.symm.trans hi
    have hb : Breaks danglingLink.names 1 3 .missing := ⟨0, 3, by decide, .here 3, by decide +kernel, hmiss⟩
    obtain ⟨x, hx⟩ := hb.no_end hl hx
    cases hx

end Xv6.File
