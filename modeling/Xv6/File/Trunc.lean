import Xv6.File.Bmap

/- `itrunc` frees the blocks of a file in a fixed order, children before the block that
   points to them. The free map is all that changes on the way, so a run of `itrunc` is the
   run of `bfree` over a list of blocks, which is computed here from the pointers. The list
   is that of the whole tree, except below `T_addr`: there `freeDouble` frees `ip->D_addr`,
   which is 0 by then, in place of the block it was called for. -/
namespace Xv6.File

open Fs (Block BSIZE)
open Lib.Forest (Shape Proper subtree)

/-- `bfree` of all blocks of the list. -/
def bfreeAll (l : List Nat) : FsM Unit := l.forM bfree

/-- The computation `x` frees the blocks `l` and returns `a`; it reads blocks as `d` has them. -/
def Frees (d : Disk) {α : Type} (x : FsM α) (l : List Nat) (a : α) : Prop :=
  ∀ d' : Disk, d'.block = d.block → x d' = (bfreeAll l >>= fun _ => pure a) d'

section Rules

variable {d : Disk} {α β : Type}

theorem bfreeAll_append (l l' : List Nat) :
    bfreeAll (l ++ l') = (bfreeAll l >>= fun _ => bfreeAll l') := by
  simp [bfreeAll]

theorem bfree_free {b : Nat} (hb : d.bitmap b = false) :
    bfree b d = .error "freeing free block" d := by
  simp [bfree, hb, bind, EStateM.bind, get, getThe, MonadStateOf.get, EStateM.get, throw,
    throwThe, MonadExceptOf.throw, EStateM.throw]

theorem bfree_used {b : Nat} (hb : ¬ d.bitmap b = false) :
    bfree b d = .ok () (d.setBit b false) := by
  simp [bfree, hb, bind, EStateM.bind, get, getThe, MonadStateOf.get, EStateM.get,
    modify, modifyGet, MonadStateOf.modifyGet, EStateM.modifyGet]

/-- Freeing blocks changes the free map only. -/
theorem bfreeAll_ok : ∀ (l : List Nat) (d d' : Disk), bfreeAll l d = .ok () d' →
    d'.block = d.block ∧ d'.dinode = d.dinode := by
  intro l
  induction l with
  | nil =>
    intro d d' h
    cases h
    exact ⟨rfl, rfl⟩
  | cons b l ih =>
    intro d d' h
    have hc : bfreeAll (b :: l) = (bfree b >>= fun _ => bfreeAll l) := rfl
    rw [hc] at h
    by_cases hb : d.bitmap b = false
    · simp [bind, EStateM.bind, bfree_free hb] at h
    · simp only [bind, EStateM.bind, bfree_used hb] at h
      have hrest := ih (d.setBit b false) d' h
      exact hrest

theorem Frees.pure (a : α) : Frees d (pure a) [] a := fun _ _ => rfl

theorem Frees.bfree (b : Nat) : Frees d (bfree b) [b] () := by
  intro d' _
  simp [bfreeAll]

theorem Frees.bind {x : FsM α} {g : α → FsM β} {l l' : List Nat} {a : α} {b : β}
    (hx : Frees d x l a) (hg : Frees d (g a) l' b) : Frees d (x >>= g) (l ++ l') b := by
  intro d' hd
  rw [bfreeAll_append]
  have h1 := hx d' hd
  simp only [Bind.bind, EStateM.bind] at h1 ⊢
  rw [h1]
  cases hf : bfreeAll l d' with
  | error e d1 => rfl
  | ok u d1 =>
    have hb := (bfreeAll_ok l d' d1 hf).1
    exact hg d1 (hb.trans hd)

theorem Frees.seq {x : FsM Unit} {y : FsM β} {l l' : List Nat} {b : β}
    (hx : Frees d x l ()) (hy : Frees d y l' b) : Frees d (x >>= fun _ => y) (l ++ l') b :=
  hx.bind hy

/-- A block is read as `d` has it. -/
theorem Frees.bread {b : Nat} {g : Block → FsM β} {l : List Nat} {a : β}
    (h : Frees d (g (d.block b)) l a) : Frees d (bread b >>= g) l a := by
  intro d' hd
  rw [← h d' hd, ← hd]
  rfl

theorem Frees.forM {g : Nat → FsM Unit} {l : Nat → List Nat} : ∀ (js : List Nat),
    (∀ j ∈ js, Frees d (g j) (l j) ()) → Frees d (js.forM g) (js.flatMap l) () := by
  intro js
  induction js with
  | nil =>
    intro _
    exact Frees.pure ()
  | cons j js ih =>
    intro h
    rw [List.flatMap_cons]
    exact (h j (by simp)).bind (ih (fun i hi => h i (by simp [hi])))

/-- A pointer is freed when it is not null. -/
theorem Frees.ite {x y : FsM α} {n : Nat} {l : List Nat} {a : α}
    (hx : n ≠ 0 → Frees d x l a) (hy : n = 0 → Frees d y [] a) :
    Frees d (if n ≠ 0 then x else y) (if n = 0 then [] else l) a := by
  by_cases h : n = 0
  · simp only [h, ne_eq, not_true_eq_false, if_false, if_true]
    exact hy h
  · simp only [h, ne_eq, not_false_eq_true, if_true, if_false]
    exact hx h

end Rules

/-! ## The blocks that `itrunc` frees -/

section Lists

variable {d : Disk} {f : Nat → Dinode} {i : Nat} {r : Fin 13} {p : List Nat} {a : Nat}

/-- The pointers in the block at `p`. -/
theorem word_ptr (ha : ptr d f (i, r) p = a) (hne : a ≠ 0) (j : Nat) :
    (d.block a).word j = ptr d f (i, r) (j :: p) := by
  subst ha
  exact (Lib.Forest.val_cons_of_ne hne j).symm

theorem frees_bfreeWords (ha : ptr d f (i, r) p = a) (hne : a ≠ 0) :
    Frees d (bfreeWords (d.block a))
      ((List.range NINDIRECT).flatMap fun j => subtree (ptr d f) NINDIRECT (i, r) 0 (j :: p)) () := by
  refine Frees.forM _ (fun j _ => ?_)
  rw [word_ptr ha hne]
  unfold subtree
  exact Frees.ite (fun _ => Frees.bfree _) (fun _ => Frees.pure ())

/-- The second level of `freeDouble`: the blocks below a pointer to a block of pointers. -/
theorem frees_middle (ha : ptr d f (i, r) p = a) :
    Frees d (if a ≠ 0 then do
        let b ← bread a
        bfreeWords b
        bfree a
      else pure ()) (subtree (ptr d f) NINDIRECT (i, r) 1 p) () := by
  unfold subtree
  rw [ha]
  refine Frees.ite (fun hne => ?_) (fun _ => Frees.pure ())
  apply Frees.bread
  exact (frees_bfreeWords ha hne).bind (Frees.bfree a)

/-- `freeDouble` frees what is below the block it is called for, and then `ip->D_addr`. -/
theorem frees_freeDouble (ip : Dinode) (ha : ptr d f (i, r) p = a) (hne : a ≠ 0) :
    Frees d (freeDouble ip a) ((List.range NINDIRECT).flatMap
      (fun j => subtree (ptr d f) NINDIRECT (i, r) 1 (j :: p)) ++ [ip.D_addr]) () := by
  unfold freeDouble
  apply Frees.bread
  refine Frees.bind (Frees.forM _ (fun j _ => ?_)) (Frees.bfree _)
  exact frees_middle (word_ptr ha hne j).symm

/-- The inode without its pointers. -/
def Dinode.cleared (ip : Dinode) : Dinode :=
  { ip with size := 0, addrs := fun _ => 0, D_addr := 0, T_addr := 0 }

@[simp] theorem Dinode.cleared_root (ip : Dinode) (r : Fin 13) : ip.cleared.root r = 0 := by
  unfold Dinode.root Dinode.cleared
  split
  · rfl
  · split <;> rfl

theorem root_direct (ip : Dinode) (j : Fin NDIRECT) (h : j.val < 13) :
    ip.root ⟨j.val, h⟩ = ip.addrs j.castSucc := by
  have hj : j.val < 11 := by have := j.isLt; simp only [NDIRECT] at this; omega
  simp only [Dinode.root, hj, dite_true]
  rfl

theorem update_addrs_zero {di : Dinode} {j : Fin (NDIRECT + 1)} (h : di.addrs j = 0) :
    { di with addrs := Function.update di.addrs j 0 } = di := by
  rw [show Function.update di.addrs j 0 = di.addrs from by rw [← h, Function.update_eq_self]]

def cellOf (j : Fin NDIRECT) : Fin 13 := ⟨j.val, by have := j.isLt; simp only [NDIRECT] at this; omega⟩

/-- The loop over the direct pointers, for the pointers in `js`. -/
theorem frees_direct : ∀ (js : List (Fin NDIRECT)) (di : Dinode), js.Nodup →
    (∀ j ∈ js, di.addrs j.castSucc = (f i).addrs j.castSucc) →
    ∃ di', Frees d (js.foldlM (fun di j => truncDirect di j.castSucc) di)
        (js.flatMap fun j => subtree (ptr d f) NINDIRECT (i, cellOf j) 0 []) di' ∧
      di' = { di with addrs := di'.addrs } ∧
      (∀ j ∈ js, di'.addrs j.castSucc = 0) ∧
      ∀ j, j ∉ js.map Fin.castSucc → di'.addrs j = di.addrs j := by
  intro js
  induction js with
  | nil =>
    intro di _ _
    exact ⟨di, Frees.pure di, rfl, by simp, fun _ _ => rfl⟩
  | cons j js ih =>
    intro di hnd heq
    obtain ⟨hj, hnd⟩ := List.nodup_cons.mp hnd
    have hne : ∀ j' ∈ js, j'.castSucc ≠ j.castSucc := by
      intro j' hj' he
      rw [Fin.castSucc_inj.mp he] at hj'
      exact hj hj'
    have hstep : Frees d (truncDirect di j.castSucc) (subtree (ptr d f) NINDIRECT (i, cellOf j) 0 [])
        { di with addrs := Function.update di.addrs j.castSucc 0 } := by
      have hptr : ptr d f (i, cellOf j) [] = di.addrs j.castSucc := by
        rw [heq j (by simp)]
        exact root_direct _ _ _
      unfold truncDirect subtree
      rw [hptr]
      refine Frees.ite (fun _ => ?_) (fun h0 => ?_)
      · exact (Frees.bfree _).bind (Frees.pure _)
      · rw [update_addrs_zero h0]
        exact Frees.pure _
    obtain ⟨di', h1, h2, h3, h4⟩ := ih { di with addrs := Function.update di.addrs j.castSucc 0 } hnd
      (fun j' hj' => by
        rw [← heq j' (by simp [hj'])]
        exact Function.update_of_ne (hne j' hj') _ _)
    refine ⟨di', ?_, h2, ?_, ?_⟩
    · rw [List.flatMap_cons, List.foldlM_cons]
      exact hstep.bind h1
    · intro j' hj'
      rcases List.mem_cons.mp hj' with rfl | hj'
      · rw [h4 j'.castSucc (fun hm => ?_)]
        · exact Function.update_self ..
        · obtain ⟨j'', hj'', he⟩ := List.mem_map.mp hm
          exact hne j'' hj'' he
      · exact h3 j' hj'
    · intro j' hj'
      rw [List.map_cons, List.mem_cons, not_or] at hj'
      rw [h4 j' hj'.2]
      exact Function.update_of_ne hj'.1 _ _

/-- What `itrunc` frees below `T_addr`: 0 stands where the block of pointers should. -/
def freedTriple (d : Disk) (f : Nat → Dinode) (i : Nat) : List Nat :=
  if ptr d f (i, 12) [] = 0 then []
  else (List.range NINDIRECT).flatMap (fun j =>
      if ptr d f (i, 12) [j] = 0 then []
      else (List.range NINDIRECT).flatMap
        (fun k => subtree (ptr d f) NINDIRECT (i, 12) 1 [k, j]) ++ [0]) ++
    [ptr d f (i, 12) []]

/-- The blocks that `itrunc` frees, in order. -/
def freed (d : Disk) (f : Nat → Dinode) (i : Nat) : List Nat :=
  (List.finRange NDIRECT).flatMap (fun j => subtree (ptr d f) NINDIRECT (i, cellOf j) 0 []) ++
    (subtree (ptr d f) NINDIRECT (i, 10) 1 [] ++
      (subtree (ptr d f) NINDIRECT (i, 11) 2 [] ++ freedTriple d f i))

theorem frees_truncIndirect {di : Dinode} (h : di.addrs 10 = (f i).addrs 10) :
    Frees d (truncIndirect di) (subtree (ptr d f) NINDIRECT (i, 10) 1 [])
      { di with addrs := Function.update di.addrs 10 0 } := by
  have ha : ptr d f (i, 10) [] = di.addrs 10 := by
    rw [h]
    rfl
  unfold truncIndirect subtree
  rw [ha]
  refine Frees.ite (fun hne => ?_) (fun h0 => ?_)
  · apply Frees.bread
    exact (frees_bfreeWords ha hne).seq ((Frees.bfree (di.addrs 10)).seq (Frees.pure _))
  · rw [update_addrs_zero h0]
    exact Frees.pure _

theorem frees_truncDouble {di : Dinode} (h : di.D_addr = (f i).D_addr) :
    Frees d (truncDouble di) (subtree (ptr d f) NINDIRECT (i, 11) 2 []) { di with D_addr := 0 } := by
  have ha : ptr d f (i, 11) [] = di.D_addr := by
    rw [h]
    rfl
  unfold truncDouble subtree
  rw [ha]
  refine Frees.ite (fun hne => ?_) (fun h0 => ?_)
  · have h := (frees_freeDouble di ha hne).seq (Frees.pure { di with D_addr := 0 })
    rw [List.append_nil] at h
    exact h
  · rw [← h0]
    exact Frees.pure _

theorem frees_truncTriple {di : Dinode} (h : di.T_addr = (f i).T_addr) (hD : di.D_addr = 0) :
    Frees d (truncTriple di) (freedTriple d f i) { di with T_addr := 0 } := by
  have ha : ptr d f (i, 12) [] = di.T_addr := by
    rw [h]
    rfl
  unfold truncTriple freedTriple
  rw [ha]
  refine Frees.ite (fun hne => ?_) (fun h0 => ?_)
  · apply Frees.bread
    have hloop : Frees d ((List.range NINDIRECT).forM fun j =>
        if (d.block di.T_addr).word j ≠ 0 then freeDouble di ((d.block di.T_addr).word j) else pure ())
        ((List.range NINDIRECT).flatMap (fun j =>
          if ptr d f (i, 12) [j] = 0 then []
          else (List.range NINDIRECT).flatMap
            (fun k => subtree (ptr d f) NINDIRECT (i, 12) 1 [k, j]) ++ [0])) () := by
      refine Frees.forM _ (fun j _ => ?_)
      rw [word_ptr ha hne]
      refine Frees.ite (fun hne' => ?_) (fun _ => Frees.pure ())
      have h := frees_freeDouble di (d := d) (f := f) (i := i) (r := 12) (p := [j]) rfl hne'
      rw [hD] at h
      exact h
    exact hloop.seq ((Frees.bfree di.T_addr).seq (Frees.pure _))
  · rw [← h0]
    exact Frees.pure _

/-- A computation that frees blocks, followed by another one. -/
theorem Frees.run {α β : Type} {x : FsM α} {y : FsM β} {g : α → FsM β} {l : List Nat} {a : α}
    (hx : Frees d x l a) (hy : y = x >>= g) : y d = (bfreeAll l >>= fun _ => g a) d := by
  have h : x d = EStateM.bind (bfreeAll l) (fun _ => Pure.pure a) d := hx d rfl
  rw [hy]
  show EStateM.bind x g d = EStateM.bind (bfreeAll l) (fun _ => g a) d
  simp only [EStateM.bind] at h ⊢
  rw [h]
  cases bfreeAll l d with
  | ok u d' => rfl
  | error e d' => rfl

theorem itrunc_unfold (ip : Inode) : itrunc ip =
    (((List.finRange NDIRECT).foldlM (fun di j => truncDirect di j.castSucc) ip.toDinode) >>=
      fun di => truncIndirect di >>= fun di => truncDouble di >>= truncTriple) >>=
    fun di => do
      iupdate { ip with toDinode := { di with size := 0 } }
      return { ip with toDinode := { di with size := 0 } } := by
  unfold itrunc
  simp only [bind_assoc]

/-- `itrunc` is the run of `bfree` over `freed`, followed by the update of the inode. -/
theorem itrunc_eq (ip : Inode) (hf : f i = ip.toDinode) : itrunc ip d =
    (bfreeAll (freed d f i) >>= fun _ => do
      iupdate { ip with toDinode := ip.toDinode.cleared }
      return { ip with toDinode := ip.toDinode.cleared }) d := by
  obtain ⟨di, h1, h2, h3, h4⟩ := frees_direct (d := d) (f := f) (i := i) (List.finRange NDIRECT)
    ip.toDinode (List.nodup_finRange _) (fun j _ => by rw [hf])
  have h10 : di.addrs 10 = (f i).addrs 10 := by
    rw [hf]
    refine h4 10 (fun hm => ?_)
    obtain ⟨j, -, hj⟩ := List.mem_map.mp hm
    have hlt := j.isLt
    have hv : j.val = 10 := congrArg Fin.val hj
    simp only [NDIRECT] at hlt
    omega
  have hD : di.D_addr = (f i).D_addr := by rw [h2, hf]
  have hT : di.T_addr = (f i).T_addr := by rw [h2, hf]
  have hall : Frees d (((List.finRange NDIRECT).foldlM (fun di j => truncDirect di j.castSucc)
      ip.toDinode) >>= fun di => truncIndirect di >>= fun di => truncDouble di >>= truncTriple)
      (freed d f i)
      { di with
        addrs := Function.update di.addrs 10 0
        D_addr := 0
        T_addr := 0 } := by
    refine Frees.bind h1 (Frees.bind (frees_truncIndirect h10) ?_)
    refine Frees.bind (frees_truncDouble hD) ?_
    exact frees_truncTriple hT rfl
  have hzero : Function.update di.addrs 10 0 = fun _ => 0 := by
    funext j
    by_cases hj : j = 10
    · rw [hj, Function.update_self]
    · rw [Function.update_of_ne hj]
      have hlt : j.val < 10 := by
        have hj' : j.val < 11 := j.isLt
        have hv : j.val ≠ 10 := fun hv => hj (Fin.ext hv)
        omega
      exact h3 ⟨j.val, hlt⟩ (List.mem_finRange _)
  have hcleared : { di with
      addrs := Function.update di.addrs 10 0
      D_addr := 0
      T_addr := 0
      size := 0 } = ip.toDinode.cleared := by
    rw [hzero, h2]
    rfl
  rw [← hcleared]
  have hrun := Frees.run hall (itrunc_unfold ip)
  exact hrun

/-! ## Completion -/

theorem bfreeAll_nodup : ∀ (l : List Nat) (d : Disk), l.Nodup → (∀ b ∈ l, d.bitmap b = true) →
    ∃ d', bfreeAll l d = .ok () d' ∧ ∀ b, d'.bitmap b = true ↔ d.bitmap b = true ∧ b ∉ l := by
  intro l
  induction l with
  | nil =>
    intro d _ _
    exact ⟨d, rfl, by simp⟩
  | cons a l ih =>
    intro d hnd hused
    obtain ⟨ha, hnd⟩ := List.nodup_cons.mp hnd
    have hu : ¬ d.bitmap a = false := by rw [hused a (by simp)]; simp
    obtain ⟨d', h1, h2⟩ := ih (d.setBit a false) hnd (fun b hb => by
      have hne : b ≠ a := fun he => ha (he ▸ hb)
      show Function.update d.bitmap a false b = true
      rw [Function.update_of_ne hne]
      exact hused b (by simp [hb]))
    refine ⟨d', ?_, fun b => ?_⟩
    · show EStateM.bind (bfree a) (fun _ => bfreeAll l) d = _
      simp only [EStateM.bind, bfree_used hu, h1]
    · rw [h2 b]
      show Function.update d.bitmap a false b = true ∧ _ ↔ _
      by_cases hb : b = a
      · simp [hb]
      · rw [Function.update_of_ne hb]
        simp [hb]

theorem bfreeAll_ok_iff : ∀ (l : List Nat) (d : Disk), (∃ d', bfreeAll l d = .ok () d') ↔
    l.Nodup ∧ ∀ b ∈ l, d.bitmap b = true := by
  intro l
  induction l with
  | nil => exact fun d => ⟨fun _ => ⟨List.nodup_nil, by simp⟩, fun _ => ⟨d, rfl⟩⟩
  | cons a l ih =>
    intro d
    refine ⟨fun ⟨d', h⟩ => ?_, fun ⟨hnd, hused⟩ => ?_⟩
    · change EStateM.bind (bfree a) (fun _ => bfreeAll l) d = .ok () d' at h
      by_cases ha : d.bitmap a = false
      · simp [EStateM.bind, bfree_free ha] at h
      · simp only [EStateM.bind, bfree_used ha] at h
        obtain ⟨hnd, hused⟩ := (ih (d.setBit a false)).mp ⟨d', h⟩
        have hbit : ∀ b ∈ l, b ≠ a ∧ d.bitmap b = true := by
          intro b hb
          have hb' : Function.update d.bitmap a false b = true := hused b hb
          by_cases hba : b = a
          · rw [hba, Function.update_self] at hb'
            cases hb'
          · rw [Function.update_of_ne hba] at hb'
            exact ⟨hba, hb'⟩
        refine ⟨List.nodup_cons.mpr ⟨fun hm => (hbit a hm).1 rfl, hnd⟩, fun b hb => ?_⟩
        rcases List.mem_cons.mp hb with rfl | hb
        · exact Bool.eq_true_of_not_eq_false ha
        · exact (hbit b hb).2
    · obtain ⟨d', h, -⟩ := bfreeAll_nodup (a :: l) d hnd hused
      exact ⟨d', h⟩

/-- A block that is not freed keeps its bit. -/
theorem bfreeAll_keeps {b : Nat} : ∀ (l : List Nat) (d d' : Disk), b ∉ l →
    bfreeAll l d = .ok () d' → d'.bitmap b = d.bitmap b := by
  intro l
  induction l with
  | nil =>
    intro d d' _ h
    cases h
    rfl
  | cons a l ih =>
    intro d d' hb h
    rw [List.mem_cons, not_or] at hb
    have hc : EStateM.bind (bfree a) (fun _ => bfreeAll l) d = .ok () d' := h
    by_cases ha : d.bitmap a = false
    · simp [EStateM.bind, bfree_free ha] at hc
    · simp only [EStateM.bind, bfree_used ha] at hc
      rw [ih _ d' hb.2 hc]
      exact Function.update_of_ne hb.1 _ _

/-- The pointers of inode `i` lead to different blocks, all of them marked used. -/
structure TreeUsed (d : Disk) (f : Nat → Dinode) (i : Nat) : Prop where
  file : (f i).isFile
  distinct : ∀ r p r' p', (shape f).Node (i, r) p → (shape f).Node (i, r') p' →
    ptr d f (i, r) p ≠ 0 → ptr d f (i, r) p = ptr d f (i, r') p' → r = r' ∧ p = p'
  used : ∀ r p, (shape f).Node (i, r) p → ptr d f (i, r) p ≠ 0 → d.bitmap (ptr d f (i, r) p) = true

/-- The block `b` belongs to the file: it holds data or pointers of inode `i`. -/
def InTree (d : Disk) (f : Nat → Dinode) (i b : Nat) : Prop :=
  b ≠ 0 ∧ ∃ r p, (shape f).Node (i, r) p ∧ ptr d f (i, r) p = b

/-- The trees below the pointers of one inode. -/
def shapeAt (f : Nat → Dinode) (i : Nat) : Shape Cell := { shape f with live := fun k => k.1 = i }

theorem shapeAt_node (hi : (f i).isFile) {k : Cell} :
    (shapeAt f i).Node k p ↔ k.1 = i ∧ (shape f).Node k p := by
  refine ⟨fun h => ⟨h.1, ?_, h.2⟩, fun h => ⟨h.1, h.2.2⟩⟩
  show (f k.1).isFile
  rw [show k.1 = i from h.1]
  exact hi

theorem TreeUsed.proper (h : TreeUsed d f i) : Proper (shapeAt f i) (ptr d f) := by
  intro k p k' p' hk hk' hne heq
  obtain ⟨hk1, hn⟩ := (shapeAt_node h.file).mp hk
  obtain ⟨hk1', hn'⟩ := (shapeAt_node h.file).mp hk'
  obtain ⟨j, r⟩ := k
  obtain ⟨j', r'⟩ := k'
  cases hk1
  cases hk1'
  obtain ⟨rfl, rfl⟩ := h.distinct r p r' p' hn hn' hne heq
  exact ⟨rfl, rfl⟩

/-- The whole tree, as `itrunc` should free it. -/
def treeBlocks (d : Disk) (f : Nat → Dinode) (i : Nat) : List Nat :=
  (List.finRange 13).flatMap fun r => subtree (ptr d f) NINDIRECT (i, r) (r.val - 9) []

theorem closed_ptr : Lib.Forest.Closed (ptr d f) := Lib.Forest.closed_val

theorem mem_treeBlocks (hi : (f i).isFile) {b : Nat} : b ∈ treeBlocks d f i ↔ InTree d f i b := by
  unfold treeBlocks InTree
  rw [List.mem_flatMap]
  constructor
  · rintro ⟨r, -, hb⟩
    obtain ⟨hne, l, hlen, hlt, hl⟩ := (Lib.Forest.mem_subtree closed_ptr _ _).mp hb
    rw [List.append_nil] at hl
    exact ⟨hne, r, l, ⟨hi, hlen, hlt⟩, hl⟩
  · rintro ⟨hne, r, p, hn, hp⟩
    refine ⟨r, List.mem_finRange r, (Lib.Forest.mem_subtree closed_ptr _ _).mpr ⟨hne, p, hn.2.1, hn.2.2, ?_⟩⟩
    rw [List.append_nil]
    exact hp

theorem nodup_treeBlocks (h : TreeUsed d f i) : (treeBlocks d f i).Nodup := by
  have hnode : ∀ (r : Fin 13) (l : List Nat), l.length ≤ r.val - 9 → (∀ j ∈ l, j < NINDIRECT) →
      (shapeAt f i).Node (i, r) (l ++ []) := by
    intro r l hlen hlt
    rw [List.append_nil]
    exact ⟨rfl, hlen, hlt⟩
  refine List.nodup_flatMap.mpr ⟨fun r _ => ?_, ?_⟩
  · exact Lib.Forest.nodup_subtree (S := shapeAt f i) closed_ptr h.proper _ _ (hnode r)
  · refine List.Pairwise.imp_of_mem ?_ (List.nodup_finRange 13)
    intro r r' _ _ hne b hb hb'
    obtain ⟨hb0, l, hlen, hlt, hl⟩ := (Lib.Forest.mem_subtree closed_ptr _ _).mp hb
    obtain ⟨-, l', hlen', hlt', hl'⟩ := (Lib.Forest.mem_subtree closed_ptr _ _).mp hb'
    have := h.proper _ _ _ _ (hnode r l hlen hlt) (hnode r' l' hlen' hlt') (hl.symm ▸ hb0)
      (hl.trans hl'.symm)
    exact hne (congrArg Prod.snd this.1)

/-- No block hangs below `T_addr`. -/
def NoTriple (d : Disk) (f : Nat → Dinode) (i : Nat) : Prop :=
  ∀ j < NINDIRECT, ptr d f (i, 12) [j] = 0

theorem treeBlocks_eq : treeBlocks d f i =
    (List.finRange NDIRECT).flatMap (fun j => subtree (ptr d f) NINDIRECT (i, cellOf j) 0 []) ++
      (subtree (ptr d f) NINDIRECT (i, 10) 1 [] ++
        (subtree (ptr d f) NINDIRECT (i, 11) 2 [] ++ subtree (ptr d f) NINDIRECT (i, 12) 3 [])) := by
  have hroots : List.finRange 13 = (List.finRange NDIRECT).map cellOf ++ [10, 11, 12] := by decide
  have hdirect : ((List.finRange NDIRECT).map cellOf).flatMap
      (fun r => subtree (ptr d f) NINDIRECT (i, r) (r.val - 9) []) =
      (List.finRange NDIRECT).flatMap (fun j => subtree (ptr d f) NINDIRECT (i, cellOf j) 0 []) := by
    rw [List.flatMap_map]
    refine List.flatMap_congr (fun j _ => ?_)
    have hj : (cellOf j).val - 9 = 0 := by
      have := j.isLt
      simp only [NDIRECT] at this
      show j.val - 9 = 0
      omega
    rw [hj]
  unfold treeBlocks
  rw [hroots, List.flatMap_append, hdirect]
  simp

theorem freed_eq_treeBlocks (h : NoTriple d f i) : freed d f i = treeBlocks d f i := by
  have htriple : freedTriple d f i = subtree (ptr d f) NINDIRECT (i, 12) 3 [] := by
    unfold freedTriple subtree
    split
    · rfl
    · congr 1
      refine List.flatMap_congr (fun j hj => ?_)
      have h0 := h j (List.mem_range.mp hj)
      unfold subtree
      rw [if_pos h0, if_pos h0]
  rw [treeBlocks_eq, ← htriple]
  rfl

/-- `itrunc` frees the file: it returns, the blocks of the file are free and no other bit of
the free map has changed, and the inode has no pointers and no size. As `bfree` panics on a
block that is free already, it has freed every block once. -/
def Truncates (d : Disk) (f : Nat → Dinode) (i : Nat) (ip : Inode) : Prop :=
  ∃ ip' d', itrunc ip d = .ok ip' d' ∧
    (∀ b, d'.bitmap b = true ↔ d.bitmap b = true ∧ ¬ InTree d f i b) ∧
    (∀ r, ip'.root r = 0) ∧ ip'.size = 0

theorem TreeUsed.truncates (h : TreeUsed d f i) {ip : Inode} (hf : f i = ip.toDinode)
    (ht : NoTriple d f i) : Truncates d f i ip := by
  have hused : ∀ b ∈ freed d f i, d.bitmap b = true := by
    intro b hb
    rw [freed_eq_treeBlocks ht, mem_treeBlocks h.file] at hb
    obtain ⟨hb0, r, p, hn, hp⟩ := hb
    rw [← hp]
    exact h.used r p hn (hp ▸ hb0)
  have hnd : (freed d f i).Nodup := by
    rw [freed_eq_treeBlocks ht]
    exact nodup_treeBlocks h
  obtain ⟨d', h1, h2⟩ := bfreeAll_nodup (freed d f i) d hnd hused
  refine ⟨{ ip with toDinode := ip.toDinode.cleared },
    d'.setDinode ip.inum ip.toDinode.cleared, ?_, fun b => ?_, fun r => ?_, rfl⟩
  · rw [itrunc_eq ip hf]
    show EStateM.bind (bfreeAll (freed d f i)) _ d = _
    simp only [EStateM.bind, h1]
    rfl
  · show d'.bitmap b = true ↔ _
    rw [h2 b, freed_eq_treeBlocks ht, mem_treeBlocks h.file]
  · exact Dinode.cleared_root _ r

/-- With blocks below `T_addr` the second level of pointers stays allocated. -/
theorem TreeUsed.not_truncates (h : TreeUsed d f i) {ip : Inode} (hf : f i = ip.toDinode) {j : Nat}
    (hj : j < NINDIRECT) (hne : ptr d f (i, 12) [j] ≠ 0) : ¬ Truncates d f i ip := by
  rintro ⟨ip', d', hrun, hbits, -, -⟩
  have hnode : (shape f).Node (i, 12) [j] := ⟨h.file, by simp [shape], by simpa [shape] using hj⟩
  have hin : InTree d f i (ptr d f (i, 12) [j]) := ⟨hne, 12, [j], hnode, rfl⟩
  -- the block is at no position whose block is freed
  have hother : ∀ r p, (shape f).Node (i, r) p → ¬ (r = 12 ∧ p = [j]) →
      ptr d f (i, 12) [j] ≠ ptr d f (i, r) p := by
    intro r p hn hrp heq
    obtain ⟨rfl, rfl⟩ := h.distinct 12 [j] r p hnode hn hne heq
    exact hrp ⟨rfl, rfl⟩
  have hsub : ∀ (r : Fin 13) (n : Nat) (p : List Nat), n + p.length ≤ r.val - 9 →
      (∀ k ∈ p, k < NINDIRECT) → ¬ (r = 12 ∧ p.length ≤ 1) →
      ptr d f (i, 12) [j] ∉ subtree (ptr d f) NINDIRECT (i, r) n p := by
    intro r n p hlen hlt hr hmem
    obtain ⟨-, l, hl, hlt', hv⟩ := (Lib.Forest.mem_subtree closed_ptr _ _).mp hmem
    refine hother r (l ++ p) ⟨h.file, ?_, ?_⟩ (fun he => hr ⟨he.1, ?_⟩) hv.symm
    · show (l ++ p).length ≤ r.val - 9
      rw [List.length_append]
      omega
    · intro k hk
      rcases List.mem_append.mp hk with hk | hk
      · exact hlt' k hk
      · exact hlt k hk
    · have := congrArg List.length he.2
      rw [List.length_append] at this
      simp only [List.length_singleton] at this
      omega
  have hnot : ptr d f (i, 12) [j] ∉ freed d f i := by
    unfold freed
    rw [List.mem_append, List.mem_append, List.mem_append, List.mem_flatMap]
    rintro (⟨c, -, hmem⟩ | hmem | hmem | hmem)
    · refine hsub (cellOf c) 0 [] (Nat.zero_le _) (by simp) (fun hc => ?_) hmem
      have hlt := c.isLt
      have hv : c.val = 12 := congrArg Fin.val hc.1
      simp only [NDIRECT] at hlt
      omega
    · exact hsub 10 1 [] (by simp) (by simp) (by simp) hmem
    · exact hsub 11 2 [] (by simp) (by simp) (by simp) hmem
    · unfold freedTriple at hmem
      split at hmem
      · cases hmem
      rw [List.mem_append, List.mem_flatMap] at hmem
      rcases hmem with ⟨c, hc, hmem⟩ | hmem
      · split at hmem
        · cases hmem
        rw [List.mem_append, List.mem_flatMap] at hmem
        rcases hmem with ⟨k, hk, hmem⟩ | hmem
        · refine hsub 12 1 [k, c] (by simp) (fun x hx => ?_) (by simp) hmem
          simp only [List.mem_cons, List.not_mem_nil, or_false] at hx
          rcases hx with rfl | rfl
          · exact List.mem_range.mp hk
          · exact List.mem_range.mp hc
        · exact hne (List.mem_singleton.mp hmem)
      · exact hother 12 [] ⟨h.file, by simp, by simp⟩ (by simp) (List.mem_singleton.mp hmem)
  rw [itrunc_eq ip hf] at hrun
  change EStateM.bind (bfreeAll (freed d f i)) _ d = _ at hrun
  simp only [EStateM.bind] at hrun
  cases hb : bfreeAll (freed d f i) d with
  | error e d1 => simp [hb] at hrun
  | ok u d1 =>
    simp only [hb] at hrun
    have hd1 : d'.bitmap = d1.bitmap := by
      cases hrun
      rfl
    have hkeep := bfreeAll_keeps _ d d1 hnot hb
    have hbit := (hbits (ptr d f (i, 12) [j])).mp (by
      rw [hd1, hkeep]
      exact h.used 12 [j] hnode hne)
    exact hbit.2 hin

/-! ## Panics -/

/-- One block at most hangs below `T_addr`. -/
def OneTriple (d : Disk) (f : Nat → Dinode) (i : Nat) : Prop :=
  ∀ j < NINDIRECT, ∀ j' < NINDIRECT, ptr d f (i, 12) [j] ≠ 0 → ptr d f (i, 12) [j'] ≠ 0 → j = j'

/-- The part of the tree below `T_addr` is freed with 0 in place of the blocks `[j]`. -/
theorem mem_freedTriple {b : Nat} (hb : b ∈ freedTriple d f i) :
    b = 0 ∨ b ∈ subtree (ptr d f) NINDIRECT (i, 12) 3 [] := by
  unfold freedTriple at hb
  unfold subtree
  split_ifs at hb ⊢ with h0
  · exact .inr hb
  · rw [List.mem_append, List.mem_flatMap] at hb
    rcases hb with ⟨j, hj, hb⟩ | hb
    · split_ifs at hb with hj0
      · cases hb
      · rcases List.mem_append.mp hb with hb | hb
        · refine .inr (List.mem_append_left _ (List.mem_flatMap.mpr ⟨j, hj, ?_⟩))
          unfold subtree
          rw [if_neg hj0]
          exact List.mem_append_left _ hb
        · exact .inl (List.mem_singleton.mp hb)
    · exact .inr (List.mem_append_right _ hb)

theorem nodup_append_iff {l s t : List Nat} (h : (l ++ s).Nodup) (hl : ∀ b ∈ l, b ≠ 0)
    (ht : ∀ b ∈ t, b = 0 ∨ b ∈ s) : (l ++ t).Nodup ↔ t.Nodup := by
  obtain ⟨hnd, -, hdisj⟩ := List.nodup_append.mp h
  refine ⟨fun h => (List.nodup_append.mp h).2.1, fun h => List.nodup_append.mpr ⟨hnd, h, ?_⟩⟩
  intro a ha b hb hab
  rcases ht b hb with h0 | hs
  · exact hl a ha (hab.trans h0)
  · exact hdisj a ha b hs hab

theorem nodup_freedTriple_iff (hnd : (subtree (ptr d f) NINDIRECT (i, 12) 3 []).Nodup) :
    (freedTriple d f i).Nodup ↔ OneTriple d f i := by
  have hne : ∀ b ∈ subtree (ptr d f) NINDIRECT (i, 12) 3 [], b ≠ 0 :=
    fun b hb => ((Lib.Forest.mem_subtree closed_ptr _ _).mp hb).1
  unfold freedTriple
  unfold subtree at hnd hne
  split_ifs at hnd hne ⊢ with h0
  · refine ⟨fun _ j hj j' hj' hne => ?_, fun _ => List.nodup_nil⟩
    exact absurd (Lib.Forest.val_cons_of_eq h0 j) hne
  · obtain ⟨hchild, -, hdisj⟩ := List.nodup_append.mp hnd
    obtain ⟨hin, -⟩ := List.nodup_flatMap.mp hchild
    -- what is below `[j]`
    have hbelow : ∀ j b, ptr d f (i, 12) [j] ≠ 0 → b ∈ (List.range NINDIRECT).flatMap
        (fun k => subtree (ptr d f) NINDIRECT (i, 12) 1 [k, j]) →
        b ∈ subtree (ptr d f) NINDIRECT (i, 12) 2 [j] := by
      intro j b hj hb
      unfold subtree
      rw [if_neg hj]
      exact List.mem_append_left _ hb
    constructor
    · intro h j hj j' hj' hne hne'
      by_contra hjj
      have hdis := (List.nodup_flatMap.mp (List.nodup_append.mp h).1).2
      have hzero : ∀ j, ptr d f (i, 12) [j] ≠ 0 → 0 ∈ (if ptr d f (i, 12) [j] = 0 then []
          else (List.range NINDIRECT).flatMap
            (fun k => subtree (ptr d f) NINDIRECT (i, 12) 1 [k, j]) ++ [0]) := by
        intro j hj
        rw [if_neg hj]
        exact List.mem_append_right _ (List.mem_singleton.mpr rfl)
      rcases Nat.lt_or_gt_of_ne hjj with hlt | hlt
      · exact List.pairwise_iff_getElem.mp hdis j j' (by rw [List.length_range]; exact hj)
          (by rw [List.length_range]; exact hj') hlt (by rw [List.getElem_range]; exact hzero j hne)
          (by rw [List.getElem_range]; exact hzero j' hne')
      · exact List.pairwise_iff_getElem.mp hdis j' j (by rw [List.length_range]; exact hj')
          (by rw [List.length_range]; exact hj) hlt (by rw [List.getElem_range]; exact hzero j' hne')
          (by rw [List.getElem_range]; exact hzero j hne)
    · intro h
      refine List.nodup_append.mpr ⟨List.nodup_flatMap.mpr ⟨fun j hj => ?_, ?_⟩,
        List.nodup_singleton _, fun a ha b hb => ?_⟩
      · split_ifs with hj0
        · exact List.nodup_nil
        · have hj1 := hin j hj
          unfold subtree at hj1
          rw [if_neg hj0] at hj1
          refine List.nodup_append.mpr ⟨(List.nodup_append.mp hj1).1, List.nodup_singleton _, ?_⟩
          intro a ha b hb hab
          rw [List.mem_singleton] at hb
          refine hne a (List.mem_append_left _ (List.mem_flatMap.mpr ⟨j, hj, hbelow j a hj0 ha⟩)) ?_
          rw [hab, hb]
      · refine List.Pairwise.imp_of_mem ?_ (List.nodup_range)
        intro j j' hj hj' hjj b hb hb'
        have hfull : ∀ j, b ∈ (if ptr d f (i, 12) [j] = 0 then []
            else (List.range NINDIRECT).flatMap
              (fun k => subtree (ptr d f) NINDIRECT (i, 12) 1 [k, j]) ++ [0]) →
            ptr d f (i, 12) [j] ≠ 0 := by
          intro j hb h0
          rw [if_pos h0] at hb
          cases hb
        exact hjj (h j (List.mem_range.mp hj) j' (List.mem_range.mp hj') (hfull j hb) (hfull j' hb'))
      · rw [List.mem_singleton] at hb
        obtain ⟨j, hj, ha⟩ := List.mem_flatMap.mp ha
        split_ifs at ha with hj0
        · cases ha
        · rcases List.mem_append.mp ha with ha | ha
          · exact hdisj a (List.mem_flatMap.mpr ⟨j, hj, hbelow j a hj0 ha⟩) b (List.mem_singleton.mpr hb)
          · rw [List.mem_singleton.mp ha, hb]
            exact Ne.symm h0

/-- `itrunc` returns unless it would free block 0 twice, which it does for the second block
below `T_addr`. -/
theorem itrunc_returns_iff {sb : Superblock} (ip : Inode) (h : Consistent sb d f) (hi : (f i).isFile)
    (hf : f i = ip.toDinode) : (∃ y d', itrunc ip d = .ok y d') ↔ OneTriple d f i := by
  have htree : TreeUsed d f i := by
    refine ⟨hi, fun r p r' p' hn hn' hne he => ?_, fun r p hn hne => (h.used _ p hn hne).1⟩
    obtain ⟨hk, hp⟩ := h.proper _ _ _ _ hn hn' hne he
    exact ⟨congrArg Prod.snd hk, hp⟩
  have hrun : (∃ y d', itrunc ip d = .ok y d') ↔ ∃ d', bfreeAll (freed d f i) d = .ok () d' := by
    rw [itrunc_eq ip hf]
    show (∃ y d', EStateM.bind (bfreeAll (freed d f i)) _ d = .ok y d') ↔ _
    simp only [EStateM.bind]
    cases bfreeAll (freed d f i) d with
    | ok u d' => exact ⟨fun _ => ⟨d', rfl⟩, fun _ => ⟨_, _, rfl⟩⟩
    | error e d' =>
      constructor
      · rintro ⟨y, d₁, h⟩
        cases h
      · rintro ⟨d₁, h⟩
        cases h
  have hnd := nodup_treeBlocks htree
  have hne : ∀ b ∈ treeBlocks d f i, b ≠ 0 := fun b hb => ((mem_treeBlocks hi).mp hb).1
  have hmem : ∀ b ∈ freed d f i, b = 0 ∨ b ∈ treeBlocks d f i := by
    intro b hb
    rw [treeBlocks_eq]
    unfold freed at hb
    simp only [List.mem_append] at hb ⊢
    rcases hb with hb | hb | hb | hb
    · exact .inr (.inl hb)
    · exact .inr (.inr (.inl hb))
    · exact .inr (.inr (.inr (.inl hb)))
    · exact (mem_freedTriple hb).imp id fun h => .inr (.inr (.inr h))
  have hused : ∀ b ∈ freed d f i, d.bitmap b = true := by
    intro b hb
    rcases hmem b hb with rfl | hb
    · refine h.metadata 0 ?_
      have hlt := sb.nblocks_lt
      unfold Superblock.nmeta
      omega
    · obtain ⟨h0, r, p, hn, rfl⟩ := (mem_treeBlocks hi).mp hb
      exact (h.used _ p hn h0).1
  rw [hrun, bfreeAll_ok_iff, and_iff_left hused]
  rw [treeBlocks_eq] at hnd hne
  unfold freed
  simp only [← List.append_assoc] at hnd hne ⊢
  rw [nodup_append_iff hnd (fun b hb => hne b (List.mem_append_left _ hb)) (fun b hb => mem_freedTriple hb)]
  exact nodup_freedTriple_iff (List.nodup_append.mp hnd).2.1

end Lists

/-- For every regular file or directory whose pointers lead to different blocks that are
marked used, `itrunc` frees exactly the blocks of the file if and only if no block hangs
below `T_addr`. -/
theorem itrunc_frees (d : Disk) (ip : Inode) (h : TreeUsed d (fun _ => ip.toDinode) ip.inum) :
    Truncates d (fun _ => ip.toDinode) ip.inum ip ↔ NoTriple d (fun _ => ip.toDinode) ip.inum := by
  refine ⟨fun ht j hj => ?_, fun ht => h.truncates rfl ht⟩
  by_contra hne
  exact h.not_truncates rfl hj hne ht

section Chains

variable {d : Disk} {f : Nat → Dinode}

theorem ptr_chain (next : Nat → Nat) (hw : ∀ a j, (d.block a).word j = if j = 0 then next a else 0) {k : Cell} :
    ∀ p, ptr d f k p ≠ 0 →
      ptr d f k p = next^[p.length] ((f k.1).root k.2) ∧ p = List.replicate p.length 0 := by
  intro p
  induction p with
  | nil => exact fun _ => ⟨rfl, rfl⟩
  | cons j p ih =>
    intro hne
    have hp : ptr d f k p ≠ 0 := fun h0 => hne (Lib.Forest.val_cons_of_eq h0 j)
    have hval : ptr d f k (j :: p) = if j = 0 then next (ptr d f k p) else 0 :=
      (Lib.Forest.val_cons_of_ne hp j).trans (hw _ j)
    have hj : j = 0 := by
      by_contra hj
      rw [hval, if_neg hj] at hne
      exact hne rfl
    obtain ⟨hchain, hzeros⟩ := ih hp
    refine ⟨?_, ?_⟩
    · rw [hval, if_pos hj, hchain, List.length_cons, Function.iterate_succ_apply']
    · rw [hj, List.length_cons, List.replicate_succ, ← hzeros]

/-- A file whose pointer blocks have their first word only. -/
theorem treeUsed_of_chains {i : Nat} (next : Nat → Nat) (hfile : (f i).isFile)
    (hw : ∀ a j, (d.block a).word j = if j = 0 then next a else 0)
    (hinj : ∀ r r' : Fin 13, ∀ n < 4, ∀ n' < 4, next^[n] ((f i).root r) ≠ 0 →
      next^[n] ((f i).root r) = next^[n'] ((f i).root r') → r = r' ∧ n = n')
    (hused : ∀ r : Fin 13, ∀ n < 4, next^[n] ((f i).root r) ≠ 0 →
      d.bitmap (next^[n] ((f i).root r)) = true) : TreeUsed d f i := by
  have hlen : ∀ {r : Fin 13} {p : List Nat}, (shape f).Node (i, r) p → p.length < 4 := by
    intro r p hn
    have hle : p.length ≤ r.val - 9 := hn.2.1
    have hr := r.isLt
    omega
  refine ⟨hfile, fun r p r' p' hn hn' hne heq => ?_, fun r p hn hne => ?_⟩
  · obtain ⟨hv, hz⟩ := ptr_chain next hw p hne
    obtain ⟨hv', hz'⟩ := ptr_chain next hw p' (heq ▸ hne)
    obtain ⟨hr, hl⟩ := hinj r r' _ (hlen hn) _ (hlen hn') (hv ▸ hne) (hv.symm.trans (heq.trans hv'))
    exact ⟨hr, by rw [hz, hz', hl]⟩
  · obtain ⟨hv, -⟩ := ptr_chain next hw p hne
    rw [hv]
    exact hused r _ (hlen hn) (hv ▸ hne)

theorem word_setWord_zero {v : Nat} (hv : v < 2 ^ 32) (j : Nat) :
    (Fs.Block.zero.setWord 0 v).word j = if j = 0 then v else 0 := by
  by_cases hj : j = 0
  · rw [hj, if_pos rfl, Fs.Block.word_setWord_same _ (by decide) hv]
  · rw [if_neg hj, Fs.Block.word_setWord_other _ hj, word_zero]

end Chains

/-- A file with a direct block, a data block behind `D_addr`, and a block of pointers at
`T_addr` that has none yet. -/
def doubleFile : Inode where
  type := .T_FILE
  size := 71168
  addrs := fun j => if j = 0 then 12 else 0
  D_addr := 13
  T_addr := 16
  inum := 1

def doubleDisk : Disk where
  bitmap := fun b => b < 17
  dinode := fun _ => doubleFile.toDinode
  block := fun b => Fs.Block.zero.setWord 0 (if b = 13 then 14 else if b = 14 then 15 else 0)

theorem doubleFile_used : TreeUsed doubleDisk (fun _ => doubleFile.toDinode) 1 := by
  refine treeUsed_of_chains (fun b => if b = 13 then 14 else if b = 14 then 15 else 0)
    (.inl rfl) (fun a j => word_setWord_zero ?_ j) (by decide) (by decide)
  split_ifs <;> decide

/-- The blocks 12 to 16 are freed, the block of pointers at `T_addr` too. -/
theorem itrunc_frees_doubleFile :
    Truncates doubleDisk (fun _ => doubleFile.toDinode) 1 doubleFile := by
  refine (itrunc_frees doubleDisk doubleFile doubleFile_used).mpr fun j hj => ?_
  by_contra hne
  have hword : ∀ j, (doubleDisk.block 16).word j = 0 := by
    intro j
    exact (word_setWord_zero (v := 0) (by decide) j).trans (ite_self 0)
  exact hne (hword j)

/-- A file with one block of pointers below `T_addr`. -/
def tripleFile : Inode where
  type := .T_FILE
  size := 0
  T_addr := 12
  inum := 1

def tripleDisk : Disk where
  bitmap := fun b => b < 14
  dinode := fun _ => tripleFile.toDinode
  block := fun b => if b = 12 then Fs.Block.zero.setWord 0 13 else Fs.Block.zero

theorem tripleFile_used : TreeUsed tripleDisk (fun _ => tripleFile.toDinode) 1 := by
  refine treeUsed_of_chains (fun b => if b = 12 then 13 else 0) (.inl rfl) (fun a j => ?_)
    (by decide) (by decide)
  by_cases ha : a = 12
  · rw [ha, if_pos rfl]
    exact word_setWord_zero (by decide) j
  · have hblock : tripleDisk.block a = Fs.Block.zero := if_neg ha
    rw [hblock, word_zero, if_neg ha, ite_self]

/-- `itrunc` of such a file frees block 0, the boot block, in place of the pointer block 13. -/
theorem itrunc_frees_boot_block : TreeUsed tripleDisk (fun _ => tripleFile.toDinode) 1 ∧
    (∃ ip d, itrunc tripleFile tripleDisk = .ok ip d ∧ d.bitmap 0 = false ∧ d.bitmap 13 = true) ∧
      ¬ Truncates tripleDisk (fun _ => tripleFile.toDinode) 1 tripleFile := by
  have hrun : (match itrunc tripleFile tripleDisk with
      | .ok _ d => !d.bitmap 0 && d.bitmap 13
      | .error _ _ => false) = true := by
    decide +kernel
  cases hx : itrunc tripleFile tripleDisk with
  | error e d =>
    rw [hx] at hrun
    cases hrun
  | ok ip d =>
    rw [hx] at hrun
    have hbits : d.bitmap 0 = false ∧ d.bitmap 13 = true := by simpa using hrun
    refine ⟨tripleFile_used, ⟨ip, d, rfl, hbits.1, hbits.2⟩, ?_⟩
    rintro ⟨ip', d', hx', hfreed, -, -⟩
    rw [hx] at hx'
    cases hx'
    have hin : InTree tripleDisk (fun _ => tripleFile.toDinode) 1 13 :=
      ⟨by decide, 12, [0], ⟨.inl rfl, by decide, by decide⟩, by decide +kernel⟩
    exact ((hfreed 13).mp hbits.2).2 hin

end Xv6.File
