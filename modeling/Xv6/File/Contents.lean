import Xv6.File.Bmap

/- What `readi` and `writei` do to the contents of regular files and directories, in a
   consistent file system without holes. The byte at an offset is found through the block
   map; a write stores into one data block after the other (`Stored`), and the blocks of
   other positions, of the same file and of all others, keep their bytes. -/
namespace Xv6.File

open Fs (Block BSIZE)
open Lib (wp wp_bind wp_pure wp_get wp_modify wp_throw)

/-- The byte at offset `o` of inode `i`. -/
def byteAt (d : Disk) (f : Nat → Dinode) (i o : Nat) : UInt8 :=
  d.block (blockOf d f i (o / BSIZE)) ⟨o % BSIZE, Nat.mod_lt o (by decide)⟩

/-- Every block below the size of inode `i` is mapped. -/
def NoHoles (d : Disk) (f : Nat → Dinode) (i : Nat) : Prop :=
  ∀ bn, bn * BSIZE < (f i).size → bn < MAXFILE ∧ blockOf d f i bn ≠ 0

section Write

variable {sb : Superblock} {d d' d'' : Disk} {f : Nat → Dinode} {i bn : Nat}

/-- New data in a data block changes no pointer. -/
theorem Consistent.setBlock (h : Consistent sb d f) (hi : (f i).isFile) (hbn : bn < MAXFILE)
    (hne : blockOf d f i bn ≠ 0) (data : Block) :
    (∀ k p, (shape f).Node k p → ptr (d.setBlock (blockOf d f i bn) data) f k p = ptr d f k p) ∧
      Consistent sb (d.setBlock (blockOf d f i bn) data) f := by
  have hptr : ∀ k p, (shape f).Node k p →
      ptr (d.setBlock (blockOf d f i bn) data) f k p = ptr d f k p := by
    intro k p hk
    refine Lib.Forest.val_congr (S := shape f) (fun _ _ => rfl) ?_ p k hk
    intro k p j hk _ _
    have hb : ptr d f k p ≠ blockOf d f i bn := h.blockOf_not_inner hi hbn hne hk
    show (Function.update d.block _ data (ptr d f k p)).word j = _
    rw [Function.update_of_ne hb]
    rfl
  refine ⟨hptr, h.metadata, fun k p hk hz => ?_, h.proper.congr hptr⟩
  rw [hptr k p hk] at hz ⊢
  exact h.used k p hk hz

/-- What a write of `n` bytes from `src` at offset `off` of inode `i` has done when it has
left the inode as `ip'`. -/
structure Stored (sb : Superblock) (d : Disk) (f : Nat → Dinode) (i : Nat) (src : Nat → UInt8)
    (off n : Nat) (ip' : Dinode) (d' : Disk) : Prop where
  attrs : SameAttrs (f i) ip'
  consistent : Consistent sb d' (Function.update f i ip')
  keeps : ∀ j bn, (f j).isFile → bn < MAXFILE → blockOf d f j bn ≠ 0 →
    blockOf d' (Function.update f i ip') j bn = blockOf d f j bn
  inside : ∀ o, off ≤ o → o < off + n → blockOf d' (Function.update f i ip') i (o / BSIZE) ≠ 0 ∧
    byteAt d' (Function.update f i ip') i o = src (o - off)
  outside : ∀ j o, (f j).isFile → o / BSIZE < MAXFILE → blockOf d f j (o / BSIZE) ≠ 0 →
    ¬ (j = i ∧ off ≤ o ∧ o < off + n) →
    byteAt d' (Function.update f i ip') j o = byteAt d f j o
  dinodes : d'.dinode = d.dinode
  unmapped : ∀ j bn, (f j).isFile → bn < MAXFILE → blockOf d f j bn = 0 →
    ¬ (j = i ∧ off / BSIZE ≤ bn ∧ bn * BSIZE < off + n) →
    blockOf d' (Function.update f i ip') j bn = 0
  idle : (∀ o, off ≤ o → o < off + n → blockOf d f i (o / BSIZE) ≠ 0) → ip' = f i

theorem Stored.nil (h : Consistent sb d f) (src : Nat → UInt8) (off : Nat) :
    Stored sb d f i src off 0 (f i) d := by
  have hup : Function.update f i (f i) = f := Function.update_eq_self i f
  refine ⟨SameAttrs.refl _, hup.symm ▸ h, fun j bn _ _ _ => by rw [hup], fun o h1 h2 => ?_,
    fun j o _ _ _ _ => by rw [hup], rfl, fun j bn _ _ h0 _ => by rw [hup, h0], fun _ => rfl⟩
  exact absurd h2 (by omega)

theorem update_update_self (f : Nat → Dinode) (i : Nat) (ip' ip'' : Dinode) :
    Function.update (Function.update f i ip') i ip'' = Function.update f i ip'' :=
  Function.update_idem ip' ip'' f

/-- A write goes on behind another one. -/
theorem Stored.trans {src : Nat → UInt8} {off m n : Nat} {ip' ip'' : Dinode}
    (hi : (f i).isFile) (hmax : off + (m + n) ≤ MAXFILE * BSIZE)
    (h : Stored sb d f i src off m ip' d')
    (h' : Stored sb d' (Function.update f i ip') i (fun x => src (x + m)) (off + m) n ip'' d'') :
    Stored sb d f i src off (m + n) ip'' d'' := by
  have htypes := types_update h.attrs
  have hfile : ∀ j, (f j).isFile → (Function.update f i ip' j).isFile :=
    fun j hj => (isFile_congr (htypes j)).mpr hj
  have hself : Function.update f i ip' i = ip' := Function.update_self ..
  obtain ⟨a', c', k', in', out', di', un', idle'⟩ := h'
  rw [update_update_self] at c' k' in' out' un'
  rw [hself] at a' idle'
  have hlt : ∀ o, o < off + (m + n) → o / BSIZE < MAXFILE := by
    intro o ho
    exact Nat.div_lt_of_lt_mul (by rw [Nat.mul_comm]; omega)
  refine ⟨⟨a'.1.trans h.attrs.1, a'.2.1.trans h.attrs.2.1, a'.2.2.1.trans h.attrs.2.2.1,
    a'.2.2.2.1.trans h.attrs.2.2.2.1, a'.2.2.2.2.trans h.attrs.2.2.2.2⟩, c', fun j bn hj hbn hne => ?_,
    fun o h1 h2 => ?_, fun j o hj ho hne hout => ?_, di'.trans h.dinodes,
    fun j bn hj hbn h0 hout => ?_, fun hall => ?_⟩
  · have h1 := h.keeps j bn hj hbn hne
    rw [k' j bn (hfile j hj) hbn (h1 ▸ hne), h1]
  · by_cases ho : o < off + m
    · obtain ⟨hb, hbyte⟩ := h.inside o h1 ho
      have hk := k' i (o / BSIZE) (hfile i hi) (hlt o h2) hb
      refine ⟨hk ▸ hb, ?_⟩
      rw [out' i o (hfile i hi) (hlt o h2) hb (by omega), hbyte]
    · obtain ⟨hb, hbyte⟩ := in' o (by omega) (by omega)
      refine ⟨hb, hbyte.trans ?_⟩
      show src (o - (off + m) + m) = src (o - off)
      congr 1
      omega
  · have h1 := h.keeps j (o / BSIZE) hj ho hne
    rw [out' j o (hfile j hj) ho (h1 ▸ hne) (by omega), h.outside j o hj ho hne (by omega)]
  · have hdiv : off / BSIZE ≤ (off + m) / BSIZE := Nat.div_le_div_right (by omega)
    refine un' j bn (hfile j hj) hbn (h.unmapped j bn hj hbn h0 (fun hin => hout ?_)) (fun hin => hout ?_)
    · exact ⟨hin.1, hin.2.1, by omega⟩
    · exact ⟨hin.1, hdiv.trans hin.2.1, by omega⟩
  · have h1 := h.idle (fun o ho1 ho2 => hall o ho1 (by omega))
    rw [← h1]
    refine idle' (fun o ho1 ho2 => ?_)
    have hne := hall o (by omega) (by omega)
    rw [h.keeps i (o / BSIZE) hi (hlt o (by omega)) hne]
    exact hne

/-- One pass of the loop of `writei`: `bmap`, and `m` bytes into its block. -/
theorem Mapped.stored (src : Nat → UInt8) {off m : Nat} {ip' : Dinode} {a : Nat}
    (hi : (f i).isFile) (hbn : off / BSIZE < MAXFILE)
    (hm0 : 0 < m) (hm : m ≤ BSIZE - off % BSIZE)
    (h : Mapped sb d f i (path (off / BSIZE)).1 (path (off / BSIZE)).2 ip' a d') :
    Stored sb d f i src off m ip' (d'.setBlock a (blit (d'.block a) (off % BSIZE) m src)) := by
  have htypes := types_update h.attrs
  have hi' : (Function.update f i ip' i).isFile := (isFile_congr (htypes i)).mpr hi
  have hfile : ∀ j, (f j).isFile → (Function.update f i ip' j).isFile :=
    fun j hj => (isFile_congr (htypes j)).mpr hj
  have ha : blockOf d' (Function.update f i ip') i (off / BSIZE) = a := h.mapped
  have hne : blockOf d' (Function.update f i ip') i (off / BSIZE) ≠ 0 := ha ▸ h.ne_zero
  obtain ⟨hptr, hcons⟩ := h.consistent.setBlock hi' hbn hne
    (blit (d'.block a) (off % BSIZE) m src)
  rw [ha] at hptr hcons
  have hblock : ∀ j bn, (f j).isFile → bn < MAXFILE →
      blockOf (d'.setBlock a (blit (d'.block a) (off % BSIZE) m src)) (Function.update f i ip') j bn =
        blockOf d' (Function.update f i ip') j bn :=
    fun j bn hj hbn => hptr _ _ (path_leaf (hfile j hj) hbn).1
  refine ⟨h.attrs, hcons, fun j bn hj hbn' hz => ?_, fun o h1 h2 => ?_, fun j o hj ho hz hout => ?_,
    h.grown.dinodes, fun j bn hj hbn' h0 hout => ?_, fun hall => ?_⟩
  · rw [hblock j bn hj hbn']
    exact h.grown.blockOf hj hbn' hz
  · have hB : BSIZE = 512 := rfl
    have hdiv : o / BSIZE = off / BSIZE := by
      rw [hB] at hm ⊢
      omega
    have hmod : o % BSIZE = off % BSIZE + (o - off) := by
      rw [hB] at hm ⊢
      omega
    rw [hdiv, hblock i _ hi hbn, ha]
    refine ⟨h.ne_zero, ?_⟩
    unfold byteAt
    rw [hdiv, hblock i _ hi hbn, ha]
    show Function.update d'.block a _ a _ = _
    rw [Function.update_self]
    unfold blit
    have hin : off % BSIZE ≤ o % BSIZE ∧ o % BSIZE < off % BSIZE + m := by omega
    rw [if_pos hin]
    congr 1
    show o % BSIZE - off % BSIZE = o - off
    omega
  · have hg := h.grown.blockOf hj ho hz
    unfold byteAt
    rw [hblock j _ hj ho, hg]
    have hdata : d'.block (blockOf d f j (o / BSIZE)) = d.block (blockOf d f j (o / BSIZE)) :=
      h.grown.data _ _ (path_leaf hj ho) hz
    show Function.update d'.block a _ _ _ = _
    by_cases hb : blockOf d f j (o / BSIZE) = a
    · have hinj := h.consistent.blockOf_inj (hfile j hj) hi' ho hbn (by rw [hg]; exact hz)
        (by rw [hg, hb, ha])
      rw [hb, Function.update_self]
      unfold blit
      have hB : BSIZE = 512 := rfl
      have hnot : ¬ (off % BSIZE ≤ o % BSIZE ∧ o % BSIZE < off % BSIZE + m) := by
        have h2 := hinj.2
        rw [hB] at h2 ⊢
        intro hin
        refine hout ⟨hinj.1, ?_, ?_⟩
        · omega
        · omega
      rw [hb] at hdata
      rw [if_neg hnot, hdata]
    · rw [Function.update_of_ne hb, hdata]
  · rw [hblock j bn hj hbn']
    refine (h.only _ _ (path_leaf hj hbn').1 (fun hp => hout ?_)).trans h0
    obtain ⟨hp, hsuf⟩ := hp
    have hji : j = i := congrArg Prod.fst hp
    subst hji
    have hr : (path bn).1 = (path (off / BSIZE)).1 := congrArg Prod.snd hp
    have hlen : (path bn).2.length = (path (off / BSIZE)).2.length := by
      rw [(path_leaf hj hbn').2, (path_leaf hi hbn).2]
      show (path bn).1.val - 9 = _
      rw [hr]
      rfl
    have hbo : bn = off / BSIZE := path_inj (Prod.ext hr (hsuf.eq_of_length hlen))
    have hmul := Nat.div_mul_le_self off BSIZE
    rw [hbo]
    exact ⟨rfl, Nat.le_refl _, by omega⟩
  · exact (h.idle (hall off (Nat.le_refl _) (by omega))).1

/-- The loop of `writei`. -/
theorem wp_writeLoop : ∀ (fuel : Nat) (ip : Inode) (f : Nat → Dinode) (src : Nat → UInt8)
    (off n : Nat) (d : Disk), Consistent sb d f → f ip.inum = ip.toDinode → ip.isFile → n ≤ fuel →
    off + n ≤ MAXFILE * BSIZE →
    wp (writeLoop sb fuel ip src off n) (fun x d' => x.2 = off + n ∧ x.1.inum = ip.inum ∧
      Stored sb d f ip.inum src off n x.1.toDinode d') (fun _ _ => True) d := by
  intro fuel
  induction fuel with
  | zero =>
    intro ip f src off n d hc hf hi hn hmax
    have h0 : n = 0 := by omega
    subst h0
    have hnil := Stored.nil (i := ip.inum) hc src off
    rw [hf] at hnil
    exact wp_pure ⟨rfl, rfl, hnil⟩
  | succ fuel ih =>
    intro ip f src off n d hc hf hi hn hmax
    unfold writeLoop
    split
    · rename_i h0
      subst h0
      have hnil := Stored.nil (i := ip.inum) hc src off
      rw [hf] at hnil
      exact wp_pure ⟨rfl, rfl, hnil⟩
    · rename_i h0
      have hB : BSIZE = 512 := rfl
      have hbn : off / BSIZE < MAXFILE :=
        Nat.div_lt_of_lt_mul (by rw [Nat.mul_comm]; omega)
      have hi' : (f ip.inum).isFile := hf ▸ hi
      have hmpos : 0 < min n (BSIZE - off % BSIZE) := by rw [hB]; omega
      rw [← hf]
      apply (wp_bmap hc hi' hbn).bind (fun _ _ _ => trivial)
      intro x d1 hx
      apply wp_bread
      apply wp_modify
      have hst := hx.stored src hi' hbn hmpos (Nat.min_le_right _ _)
      have htypes := types_update hx.attrs
      have hsplit : n = min n (BSIZE - off % BSIZE) + (n - min n (BSIZE - off % BSIZE)) := by omega
      refine (ih { ip with toDinode := x.1 } _ _ _ _ _ hst.consistent (Function.update_self ..) ?_
        (by omega) (by omega)).mono (fun y d' hy => ?_) (fun _ _ h => h)
      · exact (isFile_congr hx.attrs.1).mpr hi'
      · obtain ⟨h1, h2, h3⟩ := hy
        refine ⟨by rw [h1]; omega, h2, ?_⟩
        rw [hsplit]
        exact hst.trans hi' (by omega) h3

end Write

/-- A consistent file system in which every regular file and directory is mapped. -/
structure Sound (sb : Superblock) (d : Disk) (f : Nat → Dinode) : Prop where
  consistent : Consistent sb d f
  noHoles : ∀ i, (f i).isFile → NoHoles d f i

/-- The bytes of inode `i`. -/
def contents (d : Disk) (f : Nat → Dinode) (i : Nat) : List UInt8 :=
  (List.range (f i).size).map (byteAt d f i)

section Read

variable {sb : Superblock} {d d' : Disk} {f : Nat → Dinode} {i : Nat}

theorem bytesOf_eq (d : Disk) (f : Nat → Dinode) (i : Nat) {off m : Nat}
    (hm : m ≤ BSIZE - off % BSIZE) : bytesOf (d.block (blockOf d f i (off / BSIZE))) (off % BSIZE) m =
      (List.range m).map (fun x => byteAt d f i (off + x)) := by
  refine List.map_congr_left (fun x hx => ?_)
  have hx := List.mem_range.mp hx
  have hB : BSIZE = 512 := rfl
  have hlt : off % BSIZE + x < BSIZE := by
    rw [hB] at hm ⊢
    omega
  have hdiv : (off + x) / BSIZE = off / BSIZE := by
    rw [hB] at hm ⊢
    omega
  have hmod : (off + x) % BSIZE = off % BSIZE + x := by
    rw [hB] at hm ⊢
    omega
  unfold byteAt
  rw [dif_pos hlt, hdiv]
  congr 1
  exact Fin.ext hmod.symm

/-- The loop of `readi` over mapped blocks: it changes nothing. -/
theorem readLoop_mapped (hc : Consistent sb d f) : ∀ (fuel : Nat) (ip : Inode) (off n : Nat),
    f ip.inum = ip.toDinode → ip.isFile → n ≤ fuel →
    (∀ o, off ≤ o → o < off + n → o / BSIZE < MAXFILE ∧ blockOf d f ip.inum (o / BSIZE) ≠ 0) →
    readLoop sb fuel ip off n d =
      .ok (ip, (List.range n).map (fun x => byteAt d f ip.inum (off + x))) d := by
  intro fuel
  induction fuel with
  | zero =>
    intro ip off n _ _ hn _
    have h0 : n = 0 := by omega
    subst h0
    rfl
  | succ fuel ih =>
    intro ip off n hf hi hn hmap
    unfold readLoop
    split
    · rename_i h0
      subst h0
      rfl
    · rename_i h0
      have hB : BSIZE = 512 := rfl
      obtain ⟨hbn, hne⟩ := hmap off (Nat.le_refl _) (by omega)
      have hi' : (f ip.inum).isFile := hf ▸ hi
      have hbmap := bmap_mapped hc hi' hbn hne
      rw [hf] at hbmap
      have hm := Nat.min_le_right n (BSIZE - off % BSIZE)
      have hmn := Nat.min_le_left n (BSIZE - off % BSIZE)
      have hpos : 0 < min n (BSIZE - off % BSIZE) := by
        rw [hB]
        omega
      have hrest := ih ip (off + min n (BSIZE - off % BSIZE)) (n - min n (BSIZE - off % BSIZE)) hf hi
        (by omega) (fun o h1 h2 => hmap o (by omega) (by omega))
      have hsplit : n = min n (BSIZE - off % BSIZE) + (n - min n (BSIZE - off % BSIZE)) := by omega
      show EStateM.bind (bmap sb ip.toDinode (off / BSIZE)) _ d = _
      simp only [EStateM.bind, hbmap]
      show EStateM.bind (readLoop sb fuel ip _ _) _ d = _
      simp only [EStateM.bind, hrest]
      show EStateM.Result.ok (ip, _ ++ _) d = _
      rw [bytesOf_eq d f ip.inum hm]
      conv_rhs => rw [hsplit, List.range_add, List.map_append, List.map_map]
      have hfun : (fun x => byteAt d f ip.inum (off + x)) ∘ (fun x => min n (BSIZE - off % BSIZE) + x) =
          fun x => byteAt d f ip.inum (off + min n (BSIZE - off % BSIZE) + x) := by
        funext x
        show byteAt d f ip.inum (off + (min n (BSIZE - off % BSIZE) + x)) = _
        rw [Nat.add_assoc]
      rw [hfun]

theorem Sound.size_le (h : Sound sb d f) (hi : (f i).isFile) : (f i).size ≤ MAXFILE * BSIZE := by
  by_contra hlt
  have := (h.noHoles i hi MAXFILE (by omega)).1
  exact absurd this (Nat.lt_irrefl _)

/-- Every byte below the size of a file lies in a mapped block. -/
theorem Sound.mapped (h : Sound sb d f) (hi : (f i).isFile) {o : Nat} (ho : o < (f i).size) :
    o / BSIZE < MAXFILE ∧ blockOf d f i (o / BSIZE) ≠ 0 := by
  refine h.noHoles i hi (o / BSIZE) ?_
  have := Nat.div_mul_le_self o BSIZE
  omega

theorem add_lt_iff (off n : UInt32) : off + n < off ↔ 2 ^ 32 ≤ off.toNat + n.toNat := by
  have h1 := off.toNat_lt
  have h2 := n.toNat_lt
  rw [UInt32.lt_iff_toNat_lt, UInt32.toNat_add]
  omega

theorem toNat_add_of_lt {off n : UInt32} (h : off.toNat + n.toNat < 2 ^ 32) :
    (off + n).toNat = off.toNat + n.toNat := by
  rw [UInt32.toNat_add]
  omega

theorem asInt_of_le {n : Nat} (h : n ≤ MAXFILE * BSIZE) : asInt n = n := by
  have hmax : MAXFILE * BSIZE = 1082201088 := rfl
  unfold asInt
  rw [if_pos (by omega)]

/-- `readi`: the bytes at `off`, as many as there are. -/
theorem Sound.readiFile (h : Sound sb d f) (ip : Inode) (hf : f ip.inum = ip.toDinode)
    (hi : ip.isFile) (off n : UInt32) : File.readiFile sb ip off n d =
      if off.toNat ≤ ip.size ∧ off.toNat + n.toNat < 2 ^ 32 then
        .ok ((min n.toNat (ip.size - off.toNat) : Nat), ip,
          (List.range (min n.toNat (ip.size - off.toNat))).map
            (fun x => byteAt d f ip.inum (off.toNat + x))) d
      else .ok (-1, ip, []) d := by
  have hi' : (f ip.inum).isFile := hf ▸ hi
  have hsize : ip.size ≤ MAXFILE * BSIZE := by
    have := h.size_le hi'
    rw [hf] at this
    exact this
  unfold File.readiFile
  by_cases hgood : off.toNat ≤ ip.size ∧ off.toNat + n.toNat < 2 ^ 32
  rotate_left
  · have hbad : off.toNat > ip.size ∨ off + n < off := by
      rw [add_lt_iff]
      omega
    rw [if_pos hbad, if_neg hgood]
    rfl
  · have hbad : ¬ (off.toNat > ip.size ∨ off + n < off) := by
      rw [add_lt_iff]
      omega
    rw [if_neg hbad, if_pos hgood]
    have hlt : off.toNat + n.toNat < 2 ^ 32 := hgood.2
    have hmin : (if (off + n).toNat > ip.size then ip.size - off.toNat else n.toNat) =
        min n.toNat (ip.size - off.toNat) := by
      rw [toNat_add_of_lt hlt]
      split
      · omega
      · omega
    dsimp only
    rw [hmin]
    have hloop := readLoop_mapped h.consistent (min n.toNat (ip.size - off.toNat)) ip off.toNat
      (min n.toNat (ip.size - off.toNat)) hf hi (Nat.le_refl _) (fun o h1 h2 => h.mapped hi' (by
        rw [hf]
        omega))
    show EStateM.bind (readLoop sb _ ip off.toNat _) _ d = _
    simp only [EStateM.bind, hloop]
    show EStateM.Result.ok (asInt _, _, _) d = _
    rw [asInt_of_le (by omega)]

end Read

/-! ## `writei` -/

section Writei

variable {sb : Superblock} {d d' : Disk} {f f' : Nat → Dinode} {i : Nat}

/-- What depends on the pointers and the types of the inodes only. -/
theorem ptr_congr (h : ∀ i, (f' i).root = (f i).root) (k : Cell) (p : List Nat) :
    ptr d f' k p = ptr d f k p := by
  unfold ptr
  simp only [h]

theorem Consistent.congr (h : Consistent sb d f) (hroot : ∀ i, (f' i).root = (f i).root)
    (htype : ∀ i, (f' i).type = (f i).type) (hbit : d'.bitmap = d.bitmap)
    (hblock : d'.block = d.block) : Consistent sb d' f' := by
  have hptr : ∀ k p, ptr d' f' k p = ptr d f k p := by
    intro k p
    rw [show ptr d' f' k p = ptr d f' k p from by unfold ptr; rw [hblock]]
    exact ptr_congr hroot k p
  have hs : shape f' = shape f := shape_eq htype
  refine ⟨fun b hb => hbit ▸ h.metadata b hb, fun k p hk hne => ?_, ?_⟩
  · rw [hptr] at hne ⊢
    rw [hbit]
    exact h.used k p (hs ▸ hk) hne
  · rw [hs]
    exact h.proper.congr (fun k p _ => hptr k p)

/-- What `writei` has done when it returns `n`: the inode `ip'` has the pointers of `Stored`
and the size of the longer file, and a size that has changed is on the disk. -/
structure Wrote (sb : Superblock) (d : Disk) (f : Nat → Dinode) (i : Nat) (src : Nat → UInt8)
    (off n : Nat) (ip' : Dinode) (d' : Disk) : Prop where
  stored : ∃ di d1, Stored sb d f i src off n di d1 ∧ ip' = { di with size := ip'.size } ∧
    d'.block = d1.block ∧ d'.bitmap = d1.bitmap ∧
    ((d'.dinode = d.dinode ∧ ip' = di) ∨ d'.dinode = Function.update d.dinode i ip')
  size : ip'.size = max (f i).size (off + n)
  dinode : (f i).size < off + n → d'.dinode i = ip'

theorem wp_writeiFile (h : Sound sb d f) {ip : Inode} (hf : f ip.inum = ip.toDinode)
    (hi : ip.isFile) (src : Nat → UInt8) (off n : UInt32) (hoff : off.toNat ≤ ip.size)
    (hmax : off.toNat + n.toNat ≤ MAXFILE * BSIZE) :
    wp (writeiFile sb ip src off n) (fun x d' => x.1 = (n.toNat : Int) ∧ x.2.inum = ip.inum ∧
      Wrote sb d f ip.inum src off.toNat n.toNat x.2.toDinode d') (fun _ _ => True) d := by
  have hlimit : MAXFILE * BSIZE = 1082201088 := rfl
  have hlt : off.toNat + n.toNat < 2 ^ 32 := by omega
  have hbad : ¬ (off.toNat > ip.size ∨ off + n < off) := by
    rw [add_lt_iff]
    omega
  have hbig : ¬ (off + n).toNat > MAXFILE * BSIZE := by
    rw [toNat_add_of_lt hlt]
    omega
  have hsize : (f ip.inum).size = ip.size := by rw [hf]
  unfold writeiFile
  rw [if_neg hbad]
  show wp (if (off + n).toNat > MAXFILE * BSIZE then _ else _) _ _ d
  rw [if_neg hbig]
  apply (wp_writeLoop n.toNat ip f src off.toNat n.toNat d h.consistent hf hi (Nat.le_refl _)
    hmax).bind (fun _ _ _ => trivial)
  rintro ⟨ip1, off'⟩ d1 ⟨h1, h2, h3⟩
  have h1 : off' = off.toNat + n.toNat := h1
  have hint : asInt n.toNat = (n.toNat : Int) := asInt_of_le (by omega)
  have hs1 : ip1.size = ip.size := h3.attrs.2.2.2.2.trans hsize
  show wp (if n > 0 ∧ off' > ip1.size then _ else _) _ _ d1
  split
  · rename_i hgrow
    apply wp_modify
    apply wp_pure
    refine ⟨hint, h2, ⟨⟨ip1.toDinode, d1, h3, rfl, rfl, rfl, .inr ?_⟩, ?_, fun _ => ?_⟩⟩
    · show Function.update d1.dinode ip1.inum _ = Function.update d.dinode ip.inum _
      rw [h3.dinodes, show ip1.inum = ip.inum from h2]
    · show off' = max (f ip.inum).size (off.toNat + n.toNat)
      rw [hsize, h1]
      have hg := hgrow.2
      omega
    · show Function.update d1.dinode ip1.inum _ ip.inum = _
      rw [show ip1.inum = ip.inum from h2, Function.update_self]
  · rename_i hsame
    apply wp_pure
    have hle : off.toNat + n.toNat ≤ ip.size := by
      by_cases hn : n > 0
      · have hle : ¬ off' > ip1.size := fun hg => hsame ⟨hn, hg⟩
        omega
      · have hn0 : n.toNat = 0 := by
          have : ¬ (0 : UInt32).toNat < n.toNat := fun hlt => hn (UInt32.lt_iff_toNat_lt.mpr hlt)
          simpa using this
        omega
    refine ⟨hint, h2, ⟨⟨ip1.toDinode, d1, h3, rfl, rfl, rfl, .inl ⟨h3.dinodes, rfl⟩⟩, ?_, fun hg => ?_⟩⟩
    · show ip1.size = max (f ip.inum).size (off.toNat + n.toNat)
      omega
    · omega

theorem writeiFile_bad {ip : Inode} {src : Nat → UInt8} {off n : UInt32}
    (h : ¬ (off.toNat ≤ ip.size ∧ off.toNat + n.toNat ≤ MAXFILE * BSIZE)) :
    writeiFile sb ip src off n d = .ok (-1, ip) d := by
  have hlimit : MAXFILE * BSIZE = 1082201088 := rfl
  unfold writeiFile
  by_cases hbad : off.toNat > ip.size ∨ off + n < off
  · rw [if_pos hbad]
    rfl
  · have hsum := hbad
    rw [add_lt_iff] at hsum
    have hbig : (off + n).toNat > MAXFILE * BSIZE := by
      rw [toNat_add_of_lt (by omega)]
      omega
    rw [if_neg hbad]
    show (if (off + n).toNat > MAXFILE * BSIZE then _ else _ : FsM (Int × Inode)) d = _
    rw [if_pos hbig]
    rfl

/-- The files after a write. -/
theorem Wrote.files (h : Sound sb d f) (hi : (f i).isFile) {src : Nat → UInt8} {off n : Nat}
    {ip' : Dinode} (hw : Wrote sb d f i src off n ip' d') (hoff : off ≤ (f i).size)
    (hmax : off + n ≤ MAXFILE * BSIZE) :
    Sound sb d' (Function.update f i ip') ∧
      (∀ o < ip'.size, byteAt d' (Function.update f i ip') i o =
        if off ≤ o ∧ o < off + n then src (o - off) else byteAt d f i o) ∧
      ∀ j, (f j).isFile → j ≠ i →
        contents d' (Function.update f i ip') j = contents d f j := by
  obtain ⟨⟨di, d1, hst, hip, hblock, hbit, -⟩, hsize, -⟩ := hw
  have hup : ∀ j, (Function.update f i ip' j).root = (Function.update f i di j).root ∧
      (Function.update f i ip' j).type = (Function.update f i di j).type := by
    intro j
    by_cases hj : j = i
    · rw [hj, Function.update_self, Function.update_self, hip]
      exact ⟨rfl, rfl⟩
    · rw [Function.update_of_ne hj, Function.update_of_ne hj]
      exact ⟨rfl, rfl⟩
  have hptr : ∀ j bn, blockOf d' (Function.update f i ip') j bn =
      blockOf d1 (Function.update f i di) j bn := by
    intro j bn
    have he : ptr d' (Function.update f i ip') = ptr d1 (Function.update f i ip') := by
      unfold ptr
      rw [hblock]
    unfold blockOf
    rw [he]
    exact ptr_congr (fun j => (hup j).1) _ _
  have hbyte : ∀ j o, byteAt d' (Function.update f i ip') j o =
      byteAt d1 (Function.update f i di) j o := by
    intro j o
    unfold byteAt
    rw [hptr, hblock]
  have htypes : ∀ j, (Function.update f i ip' j).type = (f j).type :=
    fun j => (hup j).2.trans (types_update hst.attrs j)
  have hsizes : ∀ j, j ≠ i → (Function.update f i ip' j).size = (f j).size :=
    fun j hj => by rw [Function.update_of_ne hj]
  refine ⟨⟨hst.consistent.congr (fun j => (hup j).1) (fun j => (hup j).2) hbit hblock,
    fun j hj bn hbn => ?_⟩, fun o ho => ?_, fun j hj hne => ?_⟩
  · rw [hptr]
    have hj' : (f j).isFile := (isFile_congr (htypes j)).mp hj
    have hold : bn * BSIZE < (f j).size → bn < MAXFILE ∧
        blockOf d1 (Function.update f i di) j bn ≠ 0 := by
      intro hlt
      obtain ⟨h1, h2⟩ := h.noHoles j hj' bn hlt
      exact ⟨h1, by rw [hst.keeps j bn hj' h1 h2]; exact h2⟩
    by_cases hji : j = i
    · subst hji
      rw [Function.update_self, hsize] at hbn
      by_cases hlt : bn * BSIZE < (f j).size
      · exact hold hlt
      · have hin := (hst.inside (bn * BSIZE) (by omega) (by omega)).1
        rw [Nat.mul_div_cancel bn (by decide)] at hin
        exact ⟨Nat.lt_of_mul_lt_mul_right (a := BSIZE) (by omega), hin⟩
    · rw [hsizes j hji] at hbn
      exact hold hbn
  · rw [hbyte]
    split
    · rename_i hin
      exact (hst.inside o hin.1 hin.2).2
    · rename_i hout
      have hlt : o < (f i).size := by omega
      obtain ⟨h1, h2⟩ := h.mapped hi hlt
      exact hst.outside i o hi h1 h2 (by omega)
  · unfold contents
    rw [hsizes j hne]
    refine List.map_congr_left (fun o ho => ?_)
    obtain ⟨h1, h2⟩ := h.mapped hj (List.mem_range.mp ho)
    rw [hbyte]
    exact hst.outside j o hj h1 h2 (by simp [hne])

end Writei

/-- Contents of regular files, in every consistent file system without holes, for all offsets
and lengths. A write in range that returns has the length as its result, and afterwards every
`readi` of the file has the new bytes in place of the old ones from `off` on while all other
files are as they were. Any other write fails and changes nothing. `readi` returns the bytes
that there are, or fails. -/
theorem file_contents (sb : Superblock) (d : Disk) (f : Nat → Dinode) (h : Sound sb d f)
    (ip : Inode) (hf : f ip.inum = ip.toDinode) (htype : ip.type = .T_FILE) (off n : UInt32) :
    (∀ src, off.toNat ≤ ip.size ∧ off.toNat + n.toNat ≤ MAXFILE * BSIZE →
      ∀ v ip' d', writeiFile sb ip src off n d = .ok (v, ip') d' →
        v = n.toNat ∧ ip'.size = max ip.size (off.toNat + n.toNat) ∧
        (∀ off2 n2, readiFile sb ip' off2 n2 d' =
          if off2.toNat ≤ ip'.size ∧ off2.toNat + n2.toNat < 2 ^ 32 then
            .ok ((min n2.toNat (ip'.size - off2.toNat) : Nat), ip',
              (List.range (min n2.toNat (ip'.size - off2.toNat))).map (fun x =>
                if off.toNat ≤ off2.toNat + x ∧ off2.toNat + x < off.toNat + n.toNat then
                  src (off2.toNat + x - off.toNat)
                else byteAt d f ip.inum (off2.toNat + x))) d'
          else .ok (-1, ip', []) d') ∧
        ∀ j, (f j).isFile → j ≠ ip.inum →
          contents d' (Function.update f ip.inum ip'.toDinode) j = contents d f j) ∧
    (∀ src, ¬ (off.toNat ≤ ip.size ∧ off.toNat + n.toNat ≤ MAXFILE * BSIZE) →
      writeiFile sb ip src off n d = .ok (-1, ip) d) ∧
    readiFile sb ip off n d =
      (if off.toNat ≤ ip.size ∧ off.toNat + n.toNat < 2 ^ 32 then
        .ok ((min n.toNat (ip.size - off.toNat) : Nat), ip,
          (List.range (min n.toNat (ip.size - off.toNat))).map
            (fun x => byteAt d f ip.inum (off.toNat + x))) d
      else .ok (-1, ip, []) d) := by
  have hi : ip.isFile := .inl htype
  have hi' : (f ip.inum).isFile := hf ▸ hi
  refine ⟨fun src hgood v ip' d' hrun => ?_, fun src hbad => writeiFile_bad hbad,
    h.readiFile _ hf hi off n⟩
  obtain ⟨hv, hinum, hw⟩ := (wp_writeiFile h hf hi src off n hgood.1 hgood.2).ok hrun
  have hsize : (f ip.inum).size = ip.size := by rw [hf]
  obtain ⟨hsound, hbytes, hothers⟩ := hw.files h hi' (by omega) hgood.2
  have hf' : Function.update f ip.inum ip'.toDinode ip'.inum = ip'.toDinode := by
    rw [show ip'.inum = ip.inum from hinum, Function.update_self]
  have hi'' : ip'.isFile := by
    obtain ⟨di, d1, hst, hip, -⟩ := hw.stored
    have ht : ip'.type = di.type := by
      have htype' := congrArg Dinode.type hip
      exact htype'
    exact (isFile_congr (ht.trans hst.attrs.1)).mpr hi'
  refine ⟨hv, hsize ▸ hw.size, fun off2 n2 => ?_, hothers⟩
  rw [hsound.readiFile _ hf' hi'' off2 n2]
  split
  · congr 3
    refine List.map_congr_left (fun x hx => ?_)
    have hx := List.mem_range.mp hx
    rw [show ip'.inum = ip.inum from hinum]
    refine hbytes _ ?_
    show off2.toNat + x < ip'.size
    omega
  · rfl

section SmallDisk

variable {sb : Superblock} {d : Disk} {f : Nat → Dinode}

/-- Files that have direct blocks only, all of them different. -/
theorem sound_of_direct (n : Nat) (hn : ∀ i, (f i).isFile → i < n)
    (hmeta : ∀ b < sb.nmeta, d.bitmap b = true)
    (hroot : ∀ i < n, (f i).isFile → ∀ r : Fin 13, 10 ≤ r.val → (f i).root r = 0)
    (hused : ∀ i < n, (f i).isFile → ∀ r, (f i).root r ≠ 0 →
      d.bitmap ((f i).root r) = true ∧ sb.nmeta ≤ (f i).root r)
    (hinj : ∀ i < n, ∀ j < n, (f i).isFile → (f j).isFile → ∀ r r', (f i).root r ≠ 0 →
      (f i).root r = (f j).root r' → i = j ∧ r = r')
    (hsize : ∀ i < n, (f i).isFile → (f i).size ≤ 10 * BSIZE ∧
      ∀ r : Fin 13, r.val * BSIZE < (f i).size → (f i).root r ≠ 0) : Sound sb d f := by
  have hptr : ∀ i r p, (shape f).Node (i, r) p → ptr d f (i, r) p ≠ 0 → p = [] := by
    intro i r p hp hne
    by_cases hr : 10 ≤ r.val
    · exact absurd (Lib.Forest.val_of_root (k := ((i, r) : Cell)) (hroot i (hn i hp.1) hp.1 r hr) p) hne
    · have hlen : p.length ≤ r.val - 9 := hp.2.1
      exact List.length_eq_zero_iff.mp (by omega)
  refine ⟨⟨hmeta, fun k p hk hne => ?_, fun k p k' p' hk hk' hne heq => ?_⟩, fun i hi bn hbn => ?_⟩
  · obtain ⟨i, r⟩ := k
    obtain rfl := hptr i r p hk hne
    exact hused i (hn i hk.1) hk.1 r hne
  · obtain ⟨i, r⟩ := k
    obtain ⟨j, r'⟩ := k'
    obtain rfl := hptr i r p hk hne
    obtain rfl := hptr j r' p' hk' (heq ▸ hne)
    obtain ⟨rfl, rfl⟩ := hinj i (hn i hk.1) j (hn j hk'.1) hk.1 hk'.1 r r' hne heq
    exact ⟨rfl, rfl⟩
  · obtain ⟨hle, hall⟩ := hsize i (hn i hi) hi
    have hlt : bn < 10 := by
      have hB : BSIZE = 512 := rfl
      rw [hB] at hle hbn
      omega
    have hmax : MAXFILE = 2113674 := rfl
    refine ⟨by omega, ?_⟩
    unfold blockOf
    rw [path_direct hlt]
    exact hall ⟨bn, lt_roots hlt⟩ hbn

end SmallDisk

/-- A file of 700 bytes in the blocks 10 and 11. -/
def longFile : Inode where
  type := .T_FILE
  inum := 1
  size := 700
  addrs := fun r => if r = 0 then 10 else if r = 1 then 11 else 0

/-- The file, and inode 2 with three bytes in block 12. -/
def twoFiles : Disk where
  bitmap := fun b => b < 13
  dinode := fun i =>
    if i = 1 then longFile.toDinode
    else if i = 2 then { type := .T_FILE, size := 3, addrs := fun r => if r = 0 then 12 else 0 }
    else {}
  block := fun b _ => UInt8.ofNat b

theorem twoFiles_sound : Sound smallSuper twoFiles twoFiles.dinode := by
  have hfile : ∀ i, (twoFiles.dinode i).isFile → i < 3 := by
    intro i hi
    by_contra hge
    have hnone : twoFiles.dinode i = {} := (if_neg (by omega)).trans (if_neg (by omega))
    rw [hnone] at hi
    rcases hi with hi | hi <;> cases hi
  have hinj : ∀ i < 3, ∀ j < 3, ∀ r r' : Fin 13, (twoFiles.dinode i).root r ≠ 0 →
      (twoFiles.dinode i).root r = (twoFiles.dinode j).root r' → i = j ∧ r = r' := by
    decide +kernel
  refine sound_of_direct 3 hfile (fun b hb => ?_) ?_ ?_ (fun i hi j hj _ _ => hinj i hi j hj) ?_
  · have hb : b < 10 := hb
    exact decide_eq_true (by omega)
  · decide +kernel
  · decide +kernel
  · decide +kernel

/-- 900 bytes from offset 300 on: the end of the first block, the second one, and a new one. -/
theorem file_contents_twoFiles : ∃ v ip' d', writeiFile smallSuper longFile (fun _ => 7) 300 900
    twoFiles = .ok (v, ip') d' ∧ v = 900 ∧ ip'.size = 1200 ∧
    readiFile smallSuper ip' 299 3 d' = .ok (3, ip', [10, 7, 7]) d' ∧
    contents d' (Function.update twoFiles.dinode 1 ip'.toDinode) 2 = [12, 12, 12] := by
  have hrun : (match writeiFile smallSuper longFile (fun _ => 7) 300 900 twoFiles with
      | .ok _ _ => true
      | .error _ _ => false) = true := by
    decide +kernel
  cases hx : writeiFile smallSuper longFile (fun _ => 7) 300 900 twoFiles with
  | error e d =>
    rw [hx] at hrun
    cases hrun
  | ok x d =>
    obtain ⟨hv, hsize, hread, hothers⟩ := (file_contents smallSuper twoFiles twoFiles.dinode
      twoFiles_sound longFile rfl rfl 300 900).1 (fun _ => 7) (by decide) x.1 x.2 d hx
    have hsize : x.2.size = 1200 := hsize
    refine ⟨x.1, x.2, d, rfl, hv, hsize, ?_, ?_⟩
    · rw [hread 299 3, hsize, if_pos (by decide)]
      exact congrArg (fun bs => EStateM.Result.ok (3, x.2, bs) d) (by decide +kernel)
    · exact (hothers 2 (.inl rfl) (by decide)).trans (by decide +kernel)

end Xv6.File