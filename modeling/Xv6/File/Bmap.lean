import Xv6.File.Inode
import Xv6.Lib.Hoare
import Xv6.Lib.Forest
import Xv6.Lib.Run

/- The block map of all regular files and directories together: a forest whose root
   cells are the thirteen pointers of every inode. `Consistent` is what the file system
   keeps of it. One pass of `bmap` over a pointer either finds it or adds one position
   with a fresh block of zeros (`Grown`), so that the map only grows. -/
namespace Xv6.File

open Fs (Block BSIZE)

open Lib (wp wp_bind wp_pure wp_get wp_modify wp_throw)
open Lib.Forest (Shape Proper Sets)

/-- A pointer of an inode. -/
abbrev Cell := Nat × Fin 13

/-- The trees of the regular files and directories among the inodes `f`: ten pointers to
data blocks, one to a block of pointers, one two and one three levels above the data. -/
def shape (f : Nat → Dinode) : Shape Cell where
  live := fun k => (f k.1).isFile
  depth := fun k => k.2.val - 9
  width := NINDIRECT

/-- The pointer at the end of a path. -/
def ptr (d : Disk) (f : Nat → Dinode) : Cell → List Nat → Nat :=
  Lib.Forest.val (fun a j => (d.block a).word j) (fun k => (f k.1).root k.2)

/-- The position is there and its block holds data. -/
def Leaf (f : Nat → Dinode) (k : Cell) (p : List Nat) : Prop :=
  (shape f).Node k p ∧ p.length = (shape f).depth k

/-- A consistent file system, as far as its blocks are concerned. -/
structure Consistent (sb : Superblock) (d : Disk) (f : Nat → Dinode) : Prop where
  metadata : ∀ b < sb.nmeta, d.bitmap b = true
  used : ∀ k p, (shape f).Node k p → ptr d f k p ≠ 0 →
    d.bitmap (ptr d f k p) = true ∧ sb.nmeta ≤ ptr d f k p
  proper : Proper (shape f) (ptr d f)

/-- The map has grown: what was mapped is where it was, with its data, and the blocks
that were added were free and are zero where they hold data. -/
structure Grown (d : Disk) (f : Nat → Dinode) (d' : Disk) (f' : Nat → Dinode) : Prop where
  types : ∀ i, (f' i).type = (f i).type
  stable : ∀ k p, (shape f).Node k p → ptr d f k p ≠ 0 → ptr d' f' k p = ptr d f k p
  data : ∀ k p, Leaf f k p → ptr d f k p ≠ 0 → d'.block (ptr d f k p) = d.block (ptr d f k p)
  fresh : ∀ k p, (shape f).Node k p → ptr d f k p = 0 → ptr d' f' k p ≠ 0 →
    d.bitmap (ptr d' f' k p) = false ∧ (Leaf f k p → d'.block (ptr d' f' k p) = Fs.Block.zero)
  bitmap : ∀ b, d.bitmap b = true → d'.bitmap b = true
  dinodes : d'.dinode = d.dinode

section Growth

variable {sb : Superblock} {d d' d'' : Disk} {f f' f'' : Nat → Dinode} {k : Cell} {p : List Nat}
  {i b : Nat}

theorem shape_eq (h : ∀ i, (f' i).type = (f i).type) : shape f' = shape f := by
  unfold shape Dinode.isFile
  simp only [h]

theorem Leaf.iff (h : ∀ i, (f' i).type = (f i).type) : Leaf f' k p ↔ Leaf f k p := by
  unfold Leaf
  rw [shape_eq h]

/-- A pointer of the map and a block behind it: neither 0 nor free. -/
theorem Consistent.ne_free (h : Consistent sb d f) (hk : (shape f).Node k p)
    (hb : d.bitmap b = false) : ptr d f k p ≠ b := by
  intro he
  by_cases hz : ptr d f k p = 0
  · have h0 := h.metadata 0 (by have := sb.nblocks_lt; unfold Superblock.nmeta; omega)
    rw [← he, hz] at hb
    rw [h0] at hb
    cases hb
  · have hu := (h.used k p hk hz).1
    rw [he, hb] at hu
    cases hu

theorem Consistent.free_ne_zero (h : Consistent sb d f) (hb : d.bitmap b = false) : b ≠ 0 := by
  rintro rfl
  have h0 := h.metadata 0 (by have := sb.nblocks_lt; unfold Superblock.nmeta; omega)
  rw [h0] at hb
  cases hb

/-- A free block lies behind the metadata. -/
theorem Consistent.free_ge (h : Consistent sb d f) (hb : d.bitmap b = false) : sb.nmeta ≤ b := by
  by_contra hlt
  have hm := h.metadata b (by omega)
  rw [hm] at hb
  cases hb

theorem Grown.refl (d : Disk) (f : Nat → Dinode) : Grown d f d f :=
  ⟨fun _ => rfl, fun _ _ _ _ => rfl, fun _ _ _ _ => rfl,
    fun _ _ _ h0 hne => absurd h0 hne, fun _ h => h, rfl⟩

theorem Grown.trans (h : Grown d f d' f') (h' : Grown d' f' d'' f'') : Grown d f d'' f'' := by
  have hs : shape f' = shape f := shape_eq h.types
  refine ⟨fun i => (h'.types i).trans (h.types i), fun k p hk hne => ?_, fun k p hk hne => ?_,
    fun k p hk h0 hne => ?_, fun b hb => h'.bitmap b (h.bitmap b hb), h'.dinodes.trans h.dinodes⟩
  · have h1 := h.stable k p hk hne
    rw [h'.stable k p (hs ▸ hk) (by rw [h1]; exact hne), h1]
  · have h1 := h.stable k p hk.1 hne
    have h2 := h'.data k p ((Leaf.iff h.types).mpr hk) (by rw [h1]; exact hne)
    rw [h1] at h2
    rw [h2, h.data k p hk hne]
  · by_cases hz : ptr d' f' k p = 0
    · obtain ⟨h1, h2⟩ := h'.fresh k p (hs ▸ hk) hz hne
      refine ⟨?_, fun hl => h2 ((Leaf.iff h.types).mpr hl)⟩
      cases hb : d.bitmap (ptr d'' f'' k p) with
      | false => rfl
      | true =>
        rw [h.bitmap _ hb] at h1
        cases h1
    · have h1 := h'.stable k p (hs ▸ hk) hz
      obtain ⟨h2, h3⟩ := h.fresh k p hk h0 hz
      rw [h1]
      refine ⟨h2, fun hl => ?_⟩
      rw [h'.data k p ((Leaf.iff h.types).mpr hl) hz, h3 hl]

/-- One more position, with a free block that has been zeroed. -/
theorem Consistent.add (h : Consistent sb d f) (hb : d.bitmap b = false)
    (htypes : ∀ i, (f' i).type = (f i).type)
    (hset : Sets (shape f) (ptr d f) (ptr d' f') k p b) (h0 : ptr d f k p = 0)
    (hmap : d'.bitmap = Function.update d.bitmap b true) (hzero : d'.block b = Fs.Block.zero)
    (hdata : ∀ k p, Leaf f k p → ptr d f k p ≠ 0 → d'.block (ptr d f k p) = d.block (ptr d f k p))
    (hdi : d'.dinode = d.dinode) : Consistent sb d' f' ∧ Grown d f d' f' := by
  have hs : shape f' = shape f := shape_eq htypes
  have hstay : ∀ b', d.bitmap b' = true → d'.bitmap b' = true := by
    intro b' hb'
    rw [hmap, Function.update_apply]
    split
    · rfl
    · exact hb'
  have hbit : d'.bitmap b = true := by rw [hmap, Function.update_self]
  have hother : ∀ k' p', (shape f).Node k' p' → ¬ (k' = k ∧ p' = p) →
      ptr d' f' k' p' = ptr d f k' p' := hset.2
  refine ⟨⟨fun b' hb' => hstay b' (h.metadata b' hb'), fun k' p' hk' hne => ?_, ?_⟩, ⟨htypes,
    fun k' p' hk' hne => ?_, hdata, fun k' p' hk' hz hne => ?_, hstay, hdi⟩⟩
  · rw [hs] at hk'
    by_cases hp : k' = k ∧ p' = p
    · rw [hp.1, hp.2, hset.1]
      exact ⟨hbit, h.free_ge hb⟩
    · rw [hother k' p' hk' hp] at hne ⊢
      obtain ⟨h1, h2⟩ := h.used k' p' hk' hne
      exact ⟨hstay _ h1, h2⟩
  · rw [hs]
    exact h.proper.set hset (fun k' p' hk' => h.ne_free hk' hb)
  · refine hother k' p' hk' (fun hp => ?_)
    rw [hp.1, hp.2] at hne
    exact hne h0
  · by_cases hp : k' = k ∧ p' = p
    · rw [hp.1, hp.2, hset.1]
      exact ⟨hb, fun _ => hzero⟩
    · rw [hother k' p' hk' hp] at hne
      exact absurd hz hne

end Growth

/-! ## What the code does -/

section Code

variable {sb : Superblock} {d : Disk} {f : Nat → Dinode} {i : Nat}

theorem scanBits_free {bitmap : Nat → Bool} {b x : Nat} : ∀ (n bi : Nat),
    scanBits sb bitmap b n bi = some x → x < sb.size ∧ bitmap x = false := by
  intro n
  induction n with
  | zero =>
    intro bi h
    cases h
  | succ n ih =>
    intro bi h
    unfold scanBits at h
    split at h
    · rename_i hlt
      split at h
      · rename_i hfree
        cases h
        exact ⟨hlt, hfree⟩
      · exact ih (bi + 1) h
    · cases h

theorem scanBlocks_free {bitmap : Nat → Bool} {x : Nat} : ∀ (n b : Nat),
    scanBlocks sb bitmap n b = some x → x < sb.size ∧ bitmap x = false := by
  intro n
  induction n with
  | zero =>
    intro b h
    cases h
  | succ n ih =>
    intro b h
    unfold scanBlocks at h
    split at h
    · split at h
      · rename_i y hy
        cases h
        exact scanBits_free BPB 0 hy
      · exact ih (b + BPB) h
    · cases h

/-- What `balloc` has done when it returns `b`. -/
def Allocated (sb : Superblock) (d : Disk) (b : Nat) (d' : Disk) : Prop :=
  b < sb.size ∧ d.bitmap b = false ∧
    d' = (d.setBit b true).setBlock b Fs.Block.zero

theorem wp_bread {α : Type} {b : Nat} {g : Block → FsM α} {Q : α → Disk → Prop}
    {E : String → Disk → Prop} (h : wp (g (d.block b)) Q E d) : wp (bread b >>= g) Q E d := h

theorem wp_balloc : wp (balloc sb) (Allocated sb d) (fun _ _ => True) d := by
  unfold balloc
  apply wp_get
  cases hs : scanBlocks sb d.bitmap (sb.size / BPB + 1) 0 with
  | some b =>
    obtain ⟨h1, h2⟩ := scanBlocks_free _ _ hs
    exact ⟨h1, h2, rfl⟩
  | none => exact wp_throw trivial

@[simp] theorem word_zero (w : Nat) : Fs.Block.zero.word w = 0 := by
  have hb : ∀ n, Fs.Block.zero.byte n = 0 := by
    intro n
    unfold Fs.Block.byte Fs.Block.zero
    split
    · rfl
    · rfl
  simp only [Fs.Block.word, hb]

/-- The inode `ip'` is `ip` with other pointers. -/
def SameAttrs (ip ip' : Dinode) : Prop :=
  ip'.type = ip.type ∧ ip'.major = ip.major ∧ ip'.minor = ip.minor ∧ ip'.nlink = ip.nlink ∧
    ip'.size = ip.size

theorem SameAttrs.refl (ip : Dinode) : SameAttrs ip ip := ⟨rfl, rfl, rfl, rfl, rfl⟩

theorem SameAttrs.setRoot (ip : Dinode) (r : Fin 13) (a : Nat) : SameAttrs ip (ip.setRoot r a) := by
  unfold Dinode.setRoot
  split
  · exact ⟨rfl, rfl, rfl, rfl, rfl⟩
  · split
    · exact ⟨rfl, rfl, rfl, rfl, rfl⟩
    · exact ⟨rfl, rfl, rfl, rfl, rfl⟩

/-- What a pass over the pointer at `p` below root `r` of inode `i` has done when it returns
the inode `ip'` and the pointer `a`. -/
structure Mapped (sb : Superblock) (d : Disk) (f : Nat → Dinode) (i : Nat) (r : Fin 13)
    (p : List Nat) (ip' : Dinode) (a : Nat) (d' : Disk) : Prop where
  attrs : SameAttrs (f i) ip'
  consistent : Consistent sb d' (Function.update f i ip')
  grown : Grown d f d' (Function.update f i ip')
  mapped : ptr d' (Function.update f i ip') (i, r) p = a
  ne_zero : a ≠ 0
  idle : ptr d f (i, r) p ≠ 0 → ip' = f i ∧ d' = d
  only : ∀ k q, (shape f).Node k q → ¬ (k = (i, r) ∧ q <:+ p) →
    ptr d' (Function.update f i ip') k q = ptr d f k q

theorem types_update {ip' : Dinode} (h : SameAttrs (f i) ip') (j : Nat) :
    (Function.update f i ip' j).type = (f j).type := by
  by_cases hj : j = i
  · rw [hj, Function.update_self]
    exact h.1
  · rw [Function.update_of_ne hj]

/-- The pointer is there already. -/
theorem Mapped.self (h : Consistent sb d f) {r : Fin 13} {p : List Nat}
    (hne : ptr d f (i, r) p ≠ 0) : Mapped sb d f i r p (f i) (ptr d f (i, r) p) d := by
  have hup : Function.update f i (f i) = f := Function.update_eq_self i f
  refine ⟨SameAttrs.refl _, ?_, ?_, ?_, hne, fun _ => ⟨rfl, rfl⟩, fun k q _ _ => ?_⟩
  · rw [hup]
    exact h
  · rw [hup]
    exact Grown.refl d f
  · rw [hup]
  · rw [hup]

/-- A free block, zeroed, has become the target of an empty pointer of the inode. -/
theorem Mapped.root (h : Consistent sb d f) {r : Fin 13} {b : Nat} {d' : Disk}
    (h0 : (f i).root r = 0) (hfree : d.bitmap b = false)
    (hmap : d'.bitmap = Function.update d.bitmap b true) (hzero : d'.block b = Fs.Block.zero)
    (hblock : ∀ a, a ≠ b → d'.block a = d.block a) (hdi : d'.dinode = d.dinode) :
    Mapped sb d f i r [] ((f i).setRoot r b) b d' := by
  have hattrs : SameAttrs (f i) ((f i).setRoot r b) := SameAttrs.setRoot _ _ _
  have hroot : (Function.update f i ((f i).setRoot r b) i).root r = b := by
    rw [Function.update_self, Dinode.root_setRoot, if_pos rfl]
  have hkeep : ∀ k' p', (shape f).Node k' p' → d'.block (ptr d f k' p') = d.block (ptr d f k' p') :=
    fun k' p' hk' => hblock _ (h.ne_free hk' hfree)
  have hset : Sets (shape f) (ptr d f) (ptr d' (Function.update f i ((f i).setRoot r b)))
      (i, r) [] b := by
    refine Lib.Forest.val_root h0 (h.free_ne_zero hfree) (fun j _ => ?_) hroot ?_ ?_
    · show (d'.block b).word j = 0
      rw [hzero, word_zero]
    · intro k' _ hk'
      show (Function.update f i ((f i).setRoot r b) k'.1).root k'.2 = (f k'.1).root k'.2
      by_cases hki : k'.1 = i
      · have hr : k'.2 ≠ r := fun he => hk' (Prod.ext hki he)
        rw [hki, Function.update_self, Dinode.root_setRoot, if_neg hr]
      · rw [Function.update_of_ne hki]
    · intro k' p' j hk' _ _
      exact congrArg (fun x => x.word j) (hkeep k' p' hk'.1)
  obtain ⟨hc, hg⟩ := h.add hfree (types_update hattrs) hset h0 hmap hzero
    (fun k' p' hk' _ => hkeep k' p' hk'.1) hdi
  refine ⟨hattrs, hc, hg, hroot, h.free_ne_zero hfree, fun hne => absurd h0 hne, fun k q hk hq => ?_⟩
  refine hset.2 k q hk (fun hp => hq ⟨hp.1, ?_⟩)
  rw [hp.2]

/-- A free block, zeroed, has become the target of an empty word of a block of pointers. -/
theorem Mapped.entry (h : Consistent sb d f) {r : Fin 13} {p : List Nat} {addr idx b : Nat}
    {d' : Disk} (hk : (shape f).Node (i, r) (idx :: p)) (ha : ptr d f (i, r) p = addr)
    (hne : addr ≠ 0) (h0 : (d.block addr).word idx = 0) (hfree : d.bitmap b = false)
    (hlt : b < 2 ^ 32) (hmap : d'.bitmap = Function.update d.bitmap b true)
    (hzero : d'.block b = Fs.Block.zero) (hat : d'.block addr = (d.block addr).setWord idx b)
    (hblock : ∀ a, a ≠ b → a ≠ addr → d'.block a = d.block a) (hdi : d'.dinode = d.dinode) :
    Mapped sb d f i r (idx :: p) (f i) b d' := by
  have hup : Function.update f i (f i) = f := Function.update_eq_self i f
  have hne' : ptr d f (i, r) p ≠ 0 := ha ▸ hne
  have hword : ptr d f (i, r) (idx :: p) = 0 := by
    unfold ptr at ha hne' ⊢
    rw [Lib.Forest.val_cons_of_ne hne', ha, h0]
  have hinner : (shape f).Inner (i, r) p := hk.inner
  have hb0 : b ≠ 0 := h.free_ne_zero hfree
  have hkeep : ∀ k' p', (shape f).Node k' p' → ptr d f k' p' ≠ addr →
      d'.block (ptr d f k' p') = d.block (ptr d f k' p') :=
    fun k' p' hk' hna => hblock _ (h.ne_free hk' hfree) hna
  -- the blocks of other positions are other blocks
  have hpos : ∀ k' p', (shape f).Node k' p' → ptr d f k' p' = addr → k' = (i, r) ∧ p' = p := by
    intro k' p' hk' he
    have := h.proper (i, r) p k' p' hinner.1 hk' hne' (by rw [ha, he])
    exact ⟨this.1.symm, this.2.symm⟩
  have hset : Sets (shape f) (ptr d f) (ptr d' f) (i, r) (idx :: p) b := by
    refine Lib.Forest.val_entry hne' ?_ hb0 (fun j _ => ?_) ?_ (fun _ _ => rfl) ?_ hk
    · show (d.block (ptr d f (i, r) p)).word idx = 0
      rw [ha, h0]
    · show (d'.block b).word j = 0
      rw [hzero, word_zero]
    · show (d'.block (ptr d f (i, r) p)).word idx = b
      rw [ha, hat, Fs.Block.word_setWord_same _ hk.index hlt]
    · intro k' p' j hk' hz hj hnp
      show (d'.block (ptr d f k' p')).word j = (d.block (ptr d f k' p')).word j
      by_cases he : ptr d f k' p' = addr
      · obtain ⟨rfl, rfl⟩ := hpos k' p' hk'.1 he
        have hji : j ≠ idx := fun hji => hnp ⟨rfl, by rw [hji]⟩
        rw [ha, hat, Fs.Block.word_setWord_other _ hji]
      · rw [hkeep k' p' hk'.1 he]
  have hdata : ∀ k' p', Leaf f k' p' → ptr d f k' p' ≠ 0 →
      d'.block (ptr d f k' p') = d.block (ptr d f k' p') := by
    intro k' p' hl _
    refine hkeep k' p' hl.1 (fun he => ?_)
    obtain ⟨rfl, rfl⟩ := hpos k' p' hl.1 he
    have hlt := hinner.2
    have hlen := hl.2
    omega
  obtain ⟨hc, hg⟩ := h.add hfree (fun _ => rfl) hset hword hmap hzero hdata hdi
  refine ⟨SameAttrs.refl _, hup.symm ▸ hc, hup.symm ▸ hg, hup.symm ▸ hset.1, hb0,
    fun hne => absurd hword hne, fun k q hk hq => ?_⟩
  rw [hup]
  refine hset.2 k q hk (fun hp => hq ⟨hp.1, ?_⟩)
  rw [hp.2]

theorem wp_bmaproot (h : Consistent sb d f) (r : Fin 13) :
    wp (bmaproot sb (f i) r) (fun x d' => Mapped sb d f i r [] x.1 x.2 d')
      (fun _ _ => ptr d f (i, r) [] = 0) d := by
  unfold bmaproot
  split
  · rename_i h0
    apply wp_balloc.bind (fun _ _ _ => h0)
    intro b d' hb
    apply wp_pure
    obtain ⟨-, hfree, hd⟩ := hb
    have hblock : d'.block = Function.update d.block b Fs.Block.zero := by rw [hd]; rfl
    refine Mapped.root h h0 hfree (by rw [hd]; rfl) ?_ (fun a ha => ?_) (by rw [hd]; rfl)
    · rw [hblock, Function.update_self]
    · rw [hblock, Function.update_of_ne ha]
  · rename_i h0
    exact wp_pure (Mapped.self h h0)

theorem wp_bmapstep (h : Consistent sb d f) {r : Fin 13} {p : List Nat} {addr idx : Nat}
    (hk : (shape f).Node (i, r) (idx :: p)) (ha : ptr d f (i, r) p = addr) (hne : addr ≠ 0) :
    wp (bmapstep sb addr idx) (Mapped sb d f i r (idx :: p) (f i))
      (fun _ _ => ptr d f (i, r) (idx :: p) = 0) d := by
  have hne' : ptr d f (i, r) p ≠ 0 := ha ▸ hne
  have hword : ptr d f (i, r) (idx :: p) = (d.block addr).word idx := by
    unfold ptr at ha hne' ⊢
    rw [Lib.Forest.val_cons_of_ne hne', ha]
  unfold bmapstep
  apply wp_bread
  split
  · rename_i h0
    apply wp_balloc.bind (fun _ _ _ => hword.trans h0)
    intro b d' hb
    apply wp_modify
    apply wp_pure
    obtain ⟨hlt, hfree, hd⟩ := hb
    have haddr : addr ≠ b := ha ▸ h.ne_free hk.inner.1 hfree
    have hblock : (d'.setBlock addr ((d.block addr).setWord idx b)).block =
        Function.update (Function.update d.block b Fs.Block.zero) addr
          ((d.block addr).setWord idx b) := by
      rw [hd]
      rfl
    refine Mapped.entry h hk ha hne h0 hfree (hlt.trans sb.size_lt) (by rw [hd]; rfl) ?_ ?_
      (fun a h1 h2 => ?_) (by rw [hd]; rfl)
    · rw [hblock, Function.update_of_ne haddr.symm, Function.update_self]
    · rw [hblock, Function.update_self]
    · rw [hblock, Function.update_of_ne h2, Function.update_of_ne h1]
  · rename_i h0
    have hself := Mapped.self (i := i) (r := r) (p := idx :: p) h (hword ▸ h0)
    rw [hword] at hself
    exact wp_pure hself

/-- One more level down. -/
theorem Mapped.next {d' d'' : Disk} {r : Fin 13} {p : List Nat} {ip' : Dinode} {a a' idx : Nat}
    (h : Mapped sb d f i r p ip' a d') (hk : (shape f).Node (i, r) (idx :: p))
    (hm : Mapped sb d' (Function.update f i ip') i r (idx :: p) ip' a' d'') :
    Mapped sb d f i r (idx :: p) ip' a' d'' := by
  have htypes := types_update h.attrs
  have hup : Function.update (Function.update f i ip') i ip' = Function.update f i ip' :=
    Function.update_idem ip' ip' f
  have hself : Function.update f i ip' i = ip' := Function.update_self ..
  refine ⟨h.attrs, ?_, ?_, ?_, hm.ne_zero, fun hne => ?_, fun k q hk2 hq => ?_⟩
  · rw [← hup]
    exact hm.consistent
  · have hg := hm.grown
    rw [hup] at hg
    exact h.grown.trans hg
  · have hp := hm.mapped
    rw [hup] at hp
    exact hp
  · have hidle := hm.idle (by rw [h.grown.stable _ _ hk hne]; exact hne)
    have hne' : ptr d f (i, r) p ≠ 0 := fun h0 => hne (Lib.Forest.val_cons_of_eq h0 idx)
    exact ⟨(h.idle hne').1, hidle.2.trans (h.idle hne').2⟩
  · have hk2' : (shape (Function.update f i ip')).Node k q := by
      rw [shape_eq htypes]
      exact hk2
    have h1 := hm.only k q hk2' hq
    rw [hup] at h1
    rw [h1]
    exact h.only k q hk2 (fun hp => hq ⟨hp.1, hp.2.trans (List.suffix_cons idx p)⟩)

theorem Mapped.step {d' : Disk} {r : Fin 13} {p : List Nat} {ip' : Dinode} {a idx : Nat}
    (h : Mapped sb d f i r p ip' a d') (hk : (shape f).Node (i, r) (idx :: p)) :
    wp (bmapstep sb a idx) (fun a' d'' => Mapped sb d f i r (idx :: p) ip' a' d'')
      (fun _ _ => ptr d f (i, r) (idx :: p) = 0) d' := by
  have hk' : (shape (Function.update f i ip')).Node (i, r) (idx :: p) := by
    rw [shape_eq (types_update h.attrs)]
    exact hk
  refine (wp_bmapstep h.consistent hk' h.mapped h.ne_zero).mono (fun a' d'' hm => h.next hk ?_)
    (fun _ _ h0 => ?_)
  · rw [Function.update_self] at hm
    exact hm
  · by_contra hne
    rw [h.grown.stable _ _ hk hne] at h0
    exact hne h0

/-- Where the pointer to block `bn` of a file is: the root cell and the path below it. -/
def path (bn : Nat) : Fin 13 × List Nat :=
  if h : bn < 10 then (⟨bn, lt_roots h⟩, [])
  else if bn < 138 then (10, [bn - 10])
  else if bn < 16522 then (11, [(bn - 138) % 128, (bn - 138) / 128])
  else (12, [(bn - 16522) % 16384 % 128, (bn - 16522) % 16384 / 128, (bn - 16522) / 16384])

theorem path_direct {bn : Nat} (h : bn < 10) : path bn = (⟨bn, lt_roots h⟩, []) := by
  rw [path, dif_pos h]

theorem path_indirect {bn : Nat} (h : ¬ bn < 10) (h1 : bn < 138) : path bn = (10, [bn - 10]) := by
  rw [path, dif_neg h, if_pos h1]

theorem path_double {bn : Nat} (h1 : ¬ bn < 138) (h2 : bn < 16522) :
    path bn = (11, [(bn - 138) % 128, (bn - 138) / 128]) := by
  have h : ¬ bn < 10 := by omega
  rw [path, dif_neg h, if_neg h1, if_pos h2]

theorem path_triple {n : Nat} (h2 : ¬ n < 16522) : path n =
    (12, [(n - 16522) % 16384 % 128, (n - 16522) % 16384 / 128, (n - 16522) / 16384]) := by
  have h : ¬ n < 10 := by omega
  have h1 : ¬ n < 138 := by omega
  rw [path, dif_neg h, if_neg h1, if_neg h2]

/-- The pointer to block `bn` of inode `i`. -/
def blockOf (d : Disk) (f : Nat → Dinode) (i bn : Nat) : Nat := ptr d f (i, (path bn).1) (path bn).2

theorem path_leaf (hi : (f i).isFile) {bn : Nat} (hbn : bn < MAXFILE) :
    Leaf f (i, (path bn).1) (path bn).2 := by
  have hmax : MAXFILE = 2113674 := rfl
  unfold path
  split
  · rename_i h
    exact ⟨⟨hi, by simp, by simp⟩, by simp only [shape, List.length_nil]; omega⟩
  · split
    · refine ⟨⟨hi, ?_, ?_⟩, ?_⟩
      · simp [shape]
      · simp only [shape, List.mem_singleton, forall_eq]
        show bn - 10 < 128
        omega
      · simp [shape]
    · split
      · refine ⟨⟨hi, ?_, ?_⟩, ?_⟩
        · simp [shape]
        · simp only [shape, List.mem_cons, List.not_mem_nil, or_false, forall_eq_or_imp, forall_eq]
          show (bn - 138) % 128 < 128 ∧ (bn - 138) / 128 < 128
          omega
        · simp [shape]
      · refine ⟨⟨hi, ?_, ?_⟩, ?_⟩
        · simp [shape]
        · simp only [shape, List.mem_cons, List.not_mem_nil, or_false, forall_eq_or_imp, forall_eq]
          show (bn - 16522) % 16384 % 128 < 128 ∧ (bn - 16522) % 16384 / 128 < 128 ∧
            (bn - 16522) / 16384 < 128
          omega
        · simp [shape]

/-- The block number of a path. -/
def blockNo : Fin 13 × List Nat → Nat
  | (r, []) => r
  | (_, [j]) => 10 + j
  | (_, [j, q]) => 138 + 128 * q + j
  | (_, [j, q, t]) => 16522 + 16384 * t + 128 * q + j
  | _ => 0

theorem blockNo_path (bn : Nat) : blockNo (path bn) = bn := by
  unfold path
  split
  · rfl
  · split
    · show 10 + (bn - 10) = bn
      omega
    · split
      · show 138 + 128 * ((bn - 138) / 128) + (bn - 138) % 128 = bn
        omega
      · show 16522 + 16384 * ((bn - 16522) / 16384) + 128 * ((bn - 16522) % 16384 / 128) +
          (bn - 16522) % 16384 % 128 = bn
        omega

/-- The four ranges of block numbers do not overlap. -/
theorem path_inj {bn bn' : Nat} (h : path bn = path bn') : bn = bn' := by
  rw [← blockNo_path bn, h, blockNo_path]

/-- The four ranges leave no leaf out: every data block that the pointers of an inode can
name has a number below `MAXFILE`. -/
theorem path_surj {r : Fin 13} {p : List Nat} (h : Leaf f (i, r) p) :
    ∃ bn < MAXFILE, path bn = (r, p) := by
  have hmax : MAXFILE = 2113674 := rfl
  obtain ⟨⟨-, -, hw⟩, hlen⟩ := h
  simp only [shape] at hw hlen
  have hall : ∀ x : Fin 13, x.val < 10 ∨ x = 10 ∨ x = 11 ∨ x = 12 := by decide
  have hcases := hall r
  rcases hcases with hr | rfl | rfl | rfl
  · have hp : p = [] := List.length_eq_zero_iff.mp (by omega)
    refine ⟨r.val, by omega, ?_⟩
    rw [path, dif_pos hr, hp]
  · obtain ⟨j, rfl⟩ := List.length_eq_one_iff.mp hlen
    have hj : j < 128 := hw j (by simp)
    refine ⟨10 + j, by omega, ?_⟩
    rw [path, dif_neg (by omega), if_pos (by omega)]
    simp
  · obtain ⟨j, q, rfl⟩ := List.length_eq_two.mp hlen
    have hj : j < 128 := hw j (by simp)
    have hq : q < 128 := hw q (by simp)
    refine ⟨138 + 128 * q + j, by omega, ?_⟩
    rw [path, dif_neg (by omega), if_neg (by omega), if_pos (by omega)]
    have h1 : (138 + 128 * q + j - 138) % 128 = j := by omega
    have h2 : (138 + 128 * q + j - 138) / 128 = q := by omega
    rw [h1, h2]
  · obtain ⟨j, q, t, rfl⟩ := List.length_eq_three.mp hlen
    have hj : j < 128 := hw j (by simp)
    have hq : q < 128 := hw q (by simp)
    have ht : t < 128 := hw t (by simp)
    refine ⟨16522 + 16384 * t + 128 * q + j, by omega, ?_⟩
    rw [path, dif_neg (by omega), if_neg (by omega), if_neg (by omega)]
    have h1 : (16522 + 16384 * t + 128 * q + j - 16522) % 16384 % 128 = j := by omega
    have h2 : (16522 + 16384 * t + 128 * q + j - 16522) % 16384 / 128 = q := by omega
    have h3 : (16522 + 16384 * t + 128 * q + j - 16522) / 16384 = t := by omega
    rw [h1, h2, h3]

/-- `bmap` on a regular file or directory maps block `bn`, and only adds to the map. -/
theorem wp_bmap (h : Consistent sb d f) (hi : (f i).isFile) {bn : Nat} (hbn : bn < MAXFILE) :
    wp (bmap sb (f i) bn)
      (fun x d' => Mapped sb d f i (path bn).1 (path bn).2 x.1 x.2 d')
      (fun _ _ => blockOf d f i bn = 0) d := by
  have hleaf := (path_leaf hi hbn).1
  have hmax : bn < 2113674 := hbn
  have hdown : ∀ {r : Fin 13} {p : List Nat} (j : Nat), ptr d f (i, r) p = 0 →
      ptr d f (i, r) (j :: p) = 0 := fun j h0 => Lib.Forest.val_cons_of_eq h0 j
  unfold blockOf bmap
  split
  · rename_i h0
    rw [path_direct h0]
    exact wp_bmaproot h _
  rename_i h0
  have h10 : ¬ bn < 10 := h0
  dsimp only
  split
  · rename_i h1
    have h138 : bn - 10 < 128 := h1
    rw [path_indirect h10 (by omega)] at hleaf ⊢
    apply (wp_bmaproot h 10).bind (fun _ _ h0 => hdown _ h0)
    intro x d1 hm
    apply (hm.step hleaf).bind (fun _ _ h0 => h0)
    intro a d2 hm
    exact wp_pure hm
  rename_i h1
  have h138 : ¬ bn - 10 < 128 := h1
  clear h0 h1
  generalize hm : bn - NDIRECT - NINDIRECT = m
  have hm : bn - 138 = m := by
    rw [← hm]
    show bn - 138 = bn - 10 - 128
    omega
  split
  · rename_i h2
    have h16522 : m < 16384 := h2
    clear h2
    rw [path_double (by omega) (by omega), hm] at hleaf ⊢
    apply (wp_bmaproot h 11).bind (fun _ _ h0 => hdown _ (hdown _ h0))
    intro x d1 hm
    apply (hm.step hleaf.inner.1).bind (fun _ _ h0 => hdown _ h0)
    intro a1 d2 hm
    apply (hm.step hleaf).bind (fun _ _ h0 => h0)
    intro a2 d3 hm
    exact wp_pure hm
  rename_i h2
  have h16522 : ¬ m < 16384 := h2
  clear h2
  generalize hsub : m - NDOUBLE = t
  have ht : bn - 16522 = t := by
    rw [← hsub, ← hm]
    exact (Nat.sub_sub bn 138 16384).symm
  clear hsub
  split
  · have hp := path_triple (n := bn) (by omega)
    rw [ht] at hp
    rw [hp] at hleaf ⊢
    apply (wp_bmaproot h 12).bind (fun _ _ h0 => hdown _ (hdown _ (hdown _ h0)))
    intro x d1 hm
    apply (hm.step hleaf.inner.1.inner.1).bind (fun _ _ h0 => hdown _ (hdown _ h0))
    intro a1 d2 hm
    apply (hm.step hleaf.inner.1).bind (fun _ _ h0 => hdown _ h0)
    intro a2 d3 hm
    apply (hm.step hleaf).bind (fun _ _ h0 => h0)
    intro a3 d4 hm
    exact wp_pure hm
  · rename_i h3
    have hbig : ¬ t < 2097152 := h3
    clear h3
    omega

/-- A block that is mapped is found, and nothing changes. -/
theorem bmap_mapped (h : Consistent sb d f) (hi : (f i).isFile) {bn : Nat} (hbn : bn < MAXFILE)
    (hne : blockOf d f i bn ≠ 0) : bmap sb (f i) bn d = .ok (f i, blockOf d f i bn) d := by
  have hw := wp_bmap h hi hbn
  cases hx : bmap sb (f i) bn d with
  | error e d' => exact absurd (hw.error hx) hne
  | ok x d' =>
    have hm := hw.ok hx
    obtain ⟨h1, h2⟩ := hm.idle hne
    have h3 := hm.mapped
    rw [h1, h2, Function.update_eq_self] at h3
    rw [h2, show x = (f i, blockOf d f i bn) from Prod.ext h1 h3.symm]

end Code

/-! ## Runs of `bmap` -/

/-- The blocks, the inodes in use, and what the calls of `bmap` so far have returned: inode,
block number and block. -/
structure MapState where
  disk : Disk
  inode : Nat → Dinode
  returned : List (Nat × Nat × Nat)

/-- `bmap(ip, bn)` for a regular file or directory `ip` and a block number in range. -/
def bmapCall (sb : Superblock) (s : MapState) (c : Nat × Nat) : Option MapState :=
  if (s.inode c.1).isFile ∧ c.2 < MAXFILE then
    match bmap sb (s.inode c.1) c.2 s.disk with
    | .ok x d => some
      { disk := d, inode := Function.update s.inode c.1 x.1, returned := (c.1, c.2, x.2) :: s.returned }
    | .error _ _ => none
  else none

/-- The state is consistent, and what has been returned is what the map has. -/
structure MapInv (sb : Superblock) (s : MapState) : Prop where
  consistent : Consistent sb s.disk s.inode
  returned : ∀ i bn a, (i, bn, a) ∈ s.returned →
    (s.inode i).isFile ∧ bn < MAXFILE ∧ a ≠ 0 ∧ blockOf s.disk s.inode i bn = a

section Runs

variable {sb : Superblock} {s s' : MapState}

theorem isFile_congr {ip ip' : Dinode} (h : ip'.type = ip.type) : ip'.isFile ↔ ip.isFile := by
  unfold Dinode.isFile
  rw [h]

/-- A block of a file stays where it is while the map grows. -/
theorem Grown.blockOf {d d' : Disk} {f f' : Nat → Dinode} (h : Grown d f d' f') {i bn : Nat}
    (hi : (f i).isFile) (hbn : bn < MAXFILE) (hne : blockOf d f i bn ≠ 0) :
    blockOf d' f' i bn = blockOf d f i bn :=
  h.stable _ _ (path_leaf hi hbn).1 hne

theorem bmapCall_step {c : Nat × Nat} (h : MapInv sb s) (hs : bmapCall sb s c = some s') :
    MapInv sb s' ∧ Grown s.disk s.inode s'.disk s'.inode := by
  unfold bmapCall at hs
  split at hs
  · rename_i hc
    split at hs
    · rename_i x d hx
      cases hs
      have hm := (wp_bmap h.consistent hc.1 hc.2).ok hx
      have htypes := types_update hm.attrs
      refine ⟨⟨hm.consistent, fun i bn a hmem => ?_⟩, hm.grown⟩
      rcases List.mem_cons.mp hmem with heq | hmem
      · cases heq
        exact ⟨(isFile_congr (htypes _)).mpr hc.1, hc.2, hm.ne_zero, hm.mapped⟩
      · obtain ⟨hi, hbn, ha, hb⟩ := h.returned i bn a hmem
        refine ⟨(isFile_congr (htypes _)).mpr hi, hbn, ha, ?_⟩
        show File.blockOf d (Function.update s.inode c.1 x.1) i bn = a
        rw [hm.grown.blockOf hi hbn (hb ▸ ha), hb]
    · cases hs
  · cases hs

/-- The mapping from a file and a block number to a block, in a consistent state. -/
theorem Consistent.blockOf_inj {d : Disk} {f : Nat → Dinode} (h : Consistent sb d f)
    {i i' bn bn' : Nat} (hi : (f i).isFile) (hi' : (f i').isFile) (hbn : bn < MAXFILE)
    (hbn' : bn' < MAXFILE) (hne : blockOf d f i bn ≠ 0)
    (heq : blockOf d f i bn = blockOf d f i' bn') : i = i' ∧ bn = bn' := by
  obtain ⟨h1, h2⟩ := h.proper _ _ _ _ (path_leaf hi hbn).1 (path_leaf hi' hbn').1 hne heq
  exact ⟨congrArg Prod.fst h1, path_inj (Prod.ext (congrArg Prod.snd h1) h2)⟩

/-- A data block is not a block of pointers. -/
theorem Consistent.blockOf_not_inner {d : Disk} {f : Nat → Dinode} (h : Consistent sb d f)
    {i bn : Nat} (hi : (f i).isFile) (hbn : bn < MAXFILE) (hne : blockOf d f i bn ≠ 0)
    {k : Cell} {p : List Nat} (hk : (shape f).Inner k p) : ptr d f k p ≠ blockOf d f i bn := by
  intro heq
  have hleaf := path_leaf hi hbn
  obtain ⟨h1, h2⟩ := h.proper _ _ _ _ hleaf.1 hk.1 hne heq.symm
  have hlen := hleaf.2
  have hlt := hk.2
  rw [h1, h2] at hlen
  omega

/-- After any calls of `bmap` on regular files and directories, started in a consistent file
system: no two pairs of an inode and a block number have the same block, no data block is a
block of pointers or of metadata, all of them are marked used, and a pair that had a block,
or has got one from a call, has it still. The four ranges of pointers cover the block numbers
below `MAXFILE` exactly. -/
theorem bmap_injective (s s' : MapState) (calls : List (Nat × Nat))
    (h : Consistent sb s.disk s.inode) (h0 : s.returned = [])
    (hr : Lib.run (bmapCall sb) s calls = some s') :
    (∀ i bn i' bn', (s'.inode i).isFile → (s'.inode i').isFile → bn < MAXFILE → bn' < MAXFILE →
      blockOf s'.disk s'.inode i bn ≠ 0 →
      blockOf s'.disk s'.inode i bn = blockOf s'.disk s'.inode i' bn' → i = i' ∧ bn = bn') ∧
    (∀ i bn, (s'.inode i).isFile → bn < MAXFILE → blockOf s'.disk s'.inode i bn ≠ 0 →
      sb.nmeta ≤ blockOf s'.disk s'.inode i bn ∧
      ∀ k p, (shape s'.inode).Inner k p → ptr s'.disk s'.inode k p ≠ blockOf s'.disk s'.inode i bn) ∧
    (∀ k p, (shape s'.inode).Node k p → ptr s'.disk s'.inode k p ≠ 0 →
      s'.disk.bitmap (ptr s'.disk s'.inode k p) = true) ∧
    (∀ i bn, (s.inode i).isFile → bn < MAXFILE → blockOf s.disk s.inode i bn ≠ 0 →
      blockOf s'.disk s'.inode i bn = blockOf s.disk s.inode i bn) ∧
    (∀ i bn a, (i, bn, a) ∈ s'.returned → a ≠ 0 ∧ blockOf s'.disk s'.inode i bn = a) ∧
    (∀ i r p, Leaf s'.inode (i, r) p → ∃! bn, bn < MAXFILE ∧ path bn = (r, p)) := by
  have hinv : MapInv sb s' ∧ Grown s.disk s.inode s'.disk s'.inode := by
    refine Lib.run_inv_all (I := fun t => MapInv sb t ∧ Grown s.disk s.inode t.disk t.inode)
      ?_ ⟨⟨h, ?_⟩, Grown.refl _ _⟩ hr
    · intro t c t' ht hs
      obtain ⟨h1, h2⟩ := bmapCall_step ht.1 hs
      exact ⟨h1, ht.2.trans h2⟩
    · intro i bn a hmem
      rw [h0] at hmem
      cases hmem
  obtain ⟨⟨hc, hret⟩, hg⟩ := hinv
  refine ⟨fun i bn i' bn' hi hi' hbn hbn' => hc.blockOf_inj hi hi' hbn hbn', ?_, ?_, ?_, ?_, ?_⟩
  · intro i bn hi hbn hne
    exact ⟨(hc.used _ _ (path_leaf hi hbn).1 hne).2, fun k p hk => hc.blockOf_not_inner hi hbn hne hk⟩
  · intro k p hk hne
    exact (hc.used k p hk hne).1
  · intro i bn hi hbn hne
    exact hg.blockOf hi hbn hne
  · intro i bn a hmem
    exact (hret i bn a hmem).2.2
  · intro i r p hl
    obtain ⟨bn, hbn, hp⟩ := path_surj hl
    refine ⟨bn, ⟨hbn, hp⟩, fun bn' hbn' => ?_⟩
    exact path_inj (hbn'.2.trans hp.symm)

end Runs

/-- A file system of twenty blocks with empty files only. -/
def emptyFiles : MapState where
  disk := { bitmap := fun b => b < 10, dinode := fun _ => { type := .T_FILE }
            block := fun _ => Fs.Block.zero }
  inode := fun _ => { type := .T_FILE }
  returned := []

def smallSuper : Superblock where
  size := 20
  nblocks := 10
  ninodes := 8
  nlog := 4
  logstart := 2
  inodestart := 6
  bmapstart := 8
  size_lt := by decide
  nblocks_lt := by decide

theorem emptyFiles_consistent : Consistent smallSuper emptyFiles.disk emptyFiles.inode := by
  have h0 : ∀ k p, ptr emptyFiles.disk emptyFiles.inode k p = 0 := by
    intro k p
    refine Lib.Forest.val_of_root ?_ p
    show Dinode.root _ k.2 = 0
    unfold Dinode.root
    split
    · rfl
    · split <;> rfl
  refine ⟨fun b hb => ?_, fun k p _ hne => absurd (h0 k p) hne, fun k p k' p' _ _ hne => ?_⟩
  · have hb : b < 10 := hb
    simp [emptyFiles, hb]
  · exact absurd (h0 k p) hne

theorem bmap_injective_emptyFiles : ∃ s', Lib.run (bmapCall smallSuper) emptyFiles
    [(0, 0), (1, 11), (0, 0), (1, 200)] = some s' ∧
      ∀ i bn a, (i, bn, a) ∈ s'.returned → a ≠ 0 ∧ blockOf s'.disk s'.inode i bn = a := by
  have hrun : (Lib.run (bmapCall smallSuper) emptyFiles
      [(0, 0), (1, 11), (0, 0), (1, 200)]).isSome := by
    decide +kernel
  obtain ⟨s', hs'⟩ := Option.isSome_iff_exists.mp hrun
  exact ⟨s', hs', (bmap_injective emptyFiles s' _ emptyFiles_consistent rfl hs').2.2.2.2.1⟩

end Xv6.File
