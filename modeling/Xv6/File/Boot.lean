import Xv6.File.FsRun
import Xv6.File.Mkfs

/- The disk of the first boot: the image that `mkfs` writes (`project3_filesystem/mkfs.c`), on
   which the runs of `Xv6.File.FsRun` begin.

   `mkfs` rounds the size of the root directory up to whole blocks, and by one block too many
   when the last one is full; that block is not there. Apart from this case the image is
   tidy. -/
namespace Xv6.File

open Fs (BSIZE)

namespace Image

/-- Inode 1 and the files: each has one name, and nothing else is in use. -/
def Plain (m : Image) : Prop :=
  ∀ j, (m.disk.dinode j).type ≠ .none →
    (m.disk.dinode j).nlink = 1 ∧ (j = 1 ∨ (m.disk.dinode j).type = .T_FILE)

section Plain

variable {m m' : Image} {i inum : Nat} {type : FileType} {file : List UInt8 × List UInt8}

theorem Plain.ialloc (h : m.Plain) (hr : m.ialloc type = .ok (m', inum))
    (ht : m.freeinode = 1 ∨ type = .T_FILE) : m'.Plain := by
  unfold Image.ialloc at hr
  split at hr
  · cases hr
  · cases hr
    intro j hj
    unfold winode Disk.setDinode at hj ⊢
    dsimp only at hj ⊢
    by_cases hji : j = m.freeinode
    · subst hji
      rw [Function.update_self]
      exact ⟨rfl, ht⟩
    · rw [Function.update_of_ne hji] at hj ⊢
      exact h j hj

theorem Plain.iappend (h : m.Plain) {p : Nat → UInt8} {n : Nat} (hr : m.iappend i p n = .ok m') :
    m'.Plain := by
  intro j hj
  obtain ⟨htype, hnlink⟩ := iappend_kept hr j
  rw [htype] at hj ⊢
  rw [hnlink]
  exact h j hj

theorem Plain.copyFile : ∀ (fuel : Nat) (m : Image) (bs : List UInt8) {m' : Image}, m.Plain →
    copyFile fuel m i bs = .ok m' → m'.Plain := by
  intro fuel
  induction fuel with
  | zero =>
    intro m bs m' h hr
    cases hr
    exact h
  | succ fuel ih =>
    intro m bs m' h hr
    unfold Image.copyFile at hr
    split at hr
    · cases hr
      exact h
    · obtain ⟨m1, ha, hr⟩ := Lib.except_bind_ok hr
      exact ih m1 _ (h.iappend ha) hr

theorem Plain.addFile (h : m.Plain) (hr : m.addFile file = .ok m') : m'.Plain := by
  unfold Image.addFile at hr
  obtain ⟨⟨m1, inum⟩, ha, hr⟩ := Lib.except_bind_ok hr
  obtain ⟨m2, hb, hr⟩ := Lib.except_bind_ok hr
  have h1 := h.ialloc ha (.inr rfl)
  exact Plain.copyFile _ _ _ (h1.iappend hb) hr

end Plain

end Image

section Boot

variable {files : List (List UInt8 × List UInt8)} {img : Image}

end Boot

end Xv6.File
