import Mathlib.Data.List.Nodup
import Mathlib.Tactic.Common

/- Trees of pointers in a store of numbered blocks.

   A block holds words, and a word is the number of a block or 0, the null pointer.
   `κ` is the type of the root cells. A position of the forest is a root cell with the
   list of the word indices on the way down, the last one first; `val` is the pointer
   found there. `Proper` says that no block is reached at two positions: a write of one
   word then changes one position, and storing a fresh block of zeros in an empty cell
   adds exactly one position (`val_root`, `val_entry`, `Proper.set`). -/
namespace Xv6.Lib.Forest

variable {κ : Type}

/-- The pointer at the end of the path `p` below the root cell `k`. -/
def val (w : Nat → Nat → Nat) (root : κ → Nat) (k : κ) : List Nat → Nat
  | [] => root k
  | j :: p => if val w root k p = 0 then 0 else w (val w root k p) j

/-- The trees that count, how deep they are, and how many words a block has. -/
structure Shape (κ : Type) where
  live : κ → Prop
  depth : κ → Nat
  width : Nat

namespace Shape

/-- The position exists in the shape. -/
def Node (S : Shape κ) (k : κ) (p : List Nat) : Prop :=
  S.live k ∧ p.length ≤ S.depth k ∧ ∀ j ∈ p, j < S.width

/-- The block at the position holds pointers. -/
def Inner (S : Shape κ) (k : κ) (p : List Nat) : Prop := S.Node k p ∧ p.length < S.depth k

variable {S : Shape κ} {k : κ} {p : List Nat} {j : Nat}

theorem Node.inner (h : S.Node k (j :: p)) : S.Inner k p :=
  ⟨⟨h.1, Nat.le_of_succ_le h.2.1, fun i hi => h.2.2 i (by simp [hi])⟩, h.2.1⟩

theorem Node.index (h : S.Node k (j :: p)) : j < S.width := h.2.2 j (by simp)

end Shape

/-- No block is reached at two positions. -/
def Proper (S : Shape κ) (v : κ → List Nat → Nat) : Prop :=
  ∀ k p k' p', S.Node k p → S.Node k' p' → v k p ≠ 0 → v k p = v k' p' → k = k' ∧ p = p'

/-- `v'` is `v` with the pointer `b` at one position. -/
def Sets (S : Shape κ) (v v' : κ → List Nat → Nat) (k : κ) (p : List Nat) (b : Nat) : Prop :=
  v' k p = b ∧ ∀ k' p', S.Node k' p' → ¬ (k' = k ∧ p' = p) → v' k' p' = v k' p'

section Lemmas

variable {S : Shape κ} {w w' : Nat → Nat → Nat} {root root' : κ → Nat} {v v' : κ → List Nat → Nat}

@[simp] theorem val_nil (k : κ) : val w root k [] = root k := rfl

theorem val_cons (k : κ) (j : Nat) (p : List Nat) :
    val w root k (j :: p) = if val w root k p = 0 then 0 else w (val w root k p) j := rfl

theorem val_cons_of_ne {k : κ} {p : List Nat} (h : val w root k p ≠ 0) (j : Nat) :
    val w root k (j :: p) = w (val w root k p) j := by
  rw [val_cons, if_neg h]

theorem val_cons_of_eq {k : κ} {p : List Nat} (h : val w root k p = 0) (j : Nat) :
    val w root k (j :: p) = 0 := by
  rw [val_cons, if_pos h]

/-- Below an empty root cell there is nothing. -/
theorem val_of_root {k : κ} (h : root k = 0) (p : List Nat) : val w root k p = 0 := by
  induction p with
  | nil => exact h
  | cons j p ih => exact val_cons_of_eq ih j

/-- Only the roots and the words of the inner blocks count. -/
theorem val_congr (hroot : ∀ k, S.live k → root' k = root k)
    (hw : ∀ k p j, S.Inner k p → val w root k p ≠ 0 → j < S.width →
      w' (val w root k p) j = w (val w root k p) j) :
    ∀ (p : List Nat) (k : κ), S.Node k p → val w' root' k p = val w root k p := by
  intro p
  induction p with
  | nil =>
    intro k hk
    exact hroot k hk.1
  | cons j p ih =>
    intro k hk
    rw [val_cons, val_cons, ih k hk.inner.1]
    split
    · rfl
    · rename_i hne
      exact hw k p j hk.inner hne hk.index

/-- A block of zeros in an empty root cell adds one position. -/
theorem val_root {k : κ} {b : Nat} (h0 : root k = 0) (hb : b ≠ 0)
    (hzero : ∀ j < S.width, w' b j = 0)
    (hk : root' k = b) (hroot : ∀ k', S.live k' → k' ≠ k → root' k' = root k')
    (hw : ∀ k p j, S.Inner k p → val w root k p ≠ 0 → j < S.width →
      w' (val w root k p) j = w (val w root k p) j) :
    Sets S (val w root) (val w' root') k [] b := by
  refine ⟨hk, fun k' p => ?_⟩
  induction p with
  | nil =>
    intro hn hne
    exact hroot k' hn.1 (fun he => hne ⟨he, rfl⟩)
  | cons j p ih =>
    intro hn _
    by_cases hp : k' = k ∧ p = []
    · obtain ⟨rfl, rfl⟩ := hp
      have hv : val w' root' k' [] = b := hk
      rw [val_cons_of_ne (by rw [hv]; exact hb), hv, hzero j hn.index]
      exact (val_of_root h0 [j]).symm
    · have hv := ih hn.inner.1 hp
      rw [val_cons, val_cons, hv]
      split
      · rfl
      · rename_i hne
        exact hw k' p j hn.inner hne hn.index

/-- A block of zeros in an empty cell of a block adds one position. -/
theorem val_entry {k : κ} {p : List Nat} {j b : Nat} (hne : val w root k p ≠ 0)
    (h0 : w (val w root k p) j = 0) (hb : b ≠ 0)
    (hzero : ∀ i < S.width, w' b i = 0) (hj : w' (val w root k p) j = b)
    (hroot : ∀ k, S.live k → root' k = root k)
    (hw : ∀ k' p' i, S.Inner k' p' → val w root k' p' ≠ 0 → i < S.width →
      ¬ (k' = k ∧ i :: p' = j :: p) → w' (val w root k' p') i = w (val w root k' p') i)
    (hn : S.Node k (j :: p)) :
    Sets S (val w root) (val w' root') k (j :: p) b := by
  have h0' : val w root k (j :: p) = 0 := by rw [val_cons_of_ne hne, h0]
  -- one more word of a path whose pointer is unchanged
  have hcons : ∀ k' i q, S.Node k' (i :: q) → ¬ (k' = k ∧ i :: q = j :: p) →
      val w' root' k' q = val w root k' q → val w' root' k' (i :: q) = val w root k' (i :: q) := by
    intro k' i q hn' hne' hv
    rw [val_cons, val_cons, hv]
    split
    · rfl
    · rename_i hz
      exact hw k' q i hn'.inner hz hn'.index hne'
  have hshort : ∀ q, S.Node k q → q.length ≤ p.length → val w' root' k q = val w root k q := by
    intro q
    induction q with
    | nil =>
      intro hn' _
      exact hroot k hn'.1
    | cons i q ih =>
      intro hn' hlen
      have hlen' : q.length + 1 ≤ p.length := hlen
      refine hcons k i q hn' (fun he => ?_) (ih hn'.inner.1 (by omega))
      have : q = p := (List.cons.inj he.2).2
      subst this
      omega
  have hp : val w' root' k p = val w root k p := hshort p hn.inner.1 (Nat.le_refl _)
  have hnew : val w' root' k (j :: p) = b := by
    rw [val_cons_of_ne (by rw [hp]; exact hne), hp, hj]
  refine ⟨hnew, fun k' p' => ?_⟩
  induction p' with
  | nil =>
    intro hn' _
    exact hroot k' hn'.1
  | cons i q ih =>
    intro hn' hne'
    by_cases hq : k' = k ∧ q = j :: p
    · obtain ⟨rfl, rfl⟩ := hq
      rw [val_cons_of_eq h0', val_cons_of_ne (by rw [hnew]; exact hb), hnew]
      exact hzero i hn'.index
    · exact hcons k' i q hn' hne' (ih hn'.inner.1 hq)

/-- A fresh block keeps the forest proper. -/
theorem Proper.set {k : κ} {p : List Nat} {b : Nat} (h : Proper S v) (hs : Sets S v v' k p b)
    (hb : ∀ k' p', S.Node k' p' → v k' p' ≠ b) : Proper S v' := by
  intro k1 p1 k2 p2 h1 h2 hne heq
  by_cases hp1 : k1 = k ∧ p1 = p
  · by_cases hp2 : k2 = k ∧ p2 = p
    · exact ⟨hp1.1.trans hp2.1.symm, hp1.2.trans hp2.2.symm⟩
    · rw [hs.2 k2 p2 h2 hp2, hp1.1, hp1.2, hs.1] at heq
      exact absurd heq.symm (hb k2 p2 h2)
  · rw [hs.2 k1 p1 h1 hp1] at hne heq
    by_cases hp2 : k2 = k ∧ p2 = p
    · rw [hp2.1, hp2.2, hs.1] at heq
      exact absurd heq (hb k1 p1 h1)
    · rw [hs.2 k2 p2 h2 hp2] at heq
      exact h k1 p1 k2 p2 h1 h2 hne heq

theorem Proper.congr (h : Proper S v) (hv : ∀ k p, S.Node k p → v' k p = v k p) : Proper S v' := by
  intro k p k' p' hn hn' hne heq
  rw [hv k p hn] at hne heq
  rw [hv k' p' hn'] at heq
  exact h k p k' p' hn hn' hne heq

/-! ## The blocks of a subtree -/

/-- The blocks at `p` and up to `n` levels below it, every block behind those it points to. -/
def subtree (v : κ → List Nat → Nat) (width : Nat) (k : κ) : Nat → List Nat → List Nat
  | 0, p => if v k p = 0 then [] else [v k p]
  | n + 1, p =>
    if v k p = 0 then []
    else (List.range width).flatMap (fun j => subtree v width k n (j :: p)) ++ [v k p]

/-- Below the null pointer there is nothing. -/
def Closed (v : κ → List Nat → Nat) : Prop := ∀ k j p, v k p = 0 → v k (j :: p) = 0

theorem closed_val : Closed (val w root) := fun _ j _ h => val_cons_of_eq h j

theorem Closed.append (hv : Closed v) {k : κ} {p : List Nat} (h : v k p = 0) (l : List Nat) :
    v k (l ++ p) = 0 := by
  induction l with
  | nil => exact h
  | cons j l ih => exact hv k j (l ++ p) ih

theorem mem_subtree (hv : Closed v) {width : Nat} {k : κ} {b : Nat} : ∀ (n : Nat) (p : List Nat),
    b ∈ subtree v width k n p ↔
      b ≠ 0 ∧ ∃ l : List Nat, l.length ≤ n ∧ (∀ j ∈ l, j < width) ∧ v k (l ++ p) = b := by
  intro n
  induction n with
  | zero =>
    intro p
    unfold subtree
    split
    · rename_i h0
      refine ⟨fun h => (by cases h), fun ⟨hb, l, _, _, hl⟩ => ?_⟩
      rw [hv.append h0 l] at hl
      exact absurd hl.symm hb
    · rename_i h0
      refine ⟨fun h => ?_, fun ⟨_, l, hlen, _, hl⟩ => ?_⟩
      · rw [List.mem_singleton.mp h]
        exact ⟨h0, [], Nat.le_refl _, by simp, rfl⟩
      · have hnil : l = [] := List.length_eq_zero_iff.mp (by omega)
        rw [hnil] at hl
        simp [← hl]
  | succ n ih =>
    intro p
    unfold subtree
    split
    · rename_i h0
      refine ⟨fun h => (by cases h), fun ⟨hb, l, _, _, hl⟩ => ?_⟩
      rw [hv.append h0 l] at hl
      exact absurd hl.symm hb
    · rename_i h0
      rw [List.mem_append, List.mem_flatMap]
      constructor
      · rintro (⟨j, hj, hmem⟩ | hmem)
        · obtain ⟨hb, l, hlen, hlt, hl⟩ := (ih (j :: p)).mp hmem
          refine ⟨hb, l ++ [j], by simp; omega, fun i hi => ?_, by simpa using hl⟩
          rcases List.mem_append.mp hi with hi | hi
          · exact hlt i hi
          · rw [List.mem_singleton.mp hi]
            exact List.mem_range.mp hj
        · rw [List.mem_singleton.mp hmem]
          exact ⟨h0, [], Nat.zero_le _, by simp, rfl⟩
      · rintro ⟨hb, l, hlen, hlt, hl⟩
        rcases List.eq_nil_or_concat l with rfl | ⟨l', j, rfl⟩
        · exact .inr (by simp [← hl])
        · refine .inl ⟨j, List.mem_range.mpr (hlt j (by simp)), (ih (j :: p)).mpr
            ⟨hb, l', by simp at hlen; omega, fun i hi => hlt i (by simp [hi]), by simpa using hl⟩⟩

/-- A subtree of a proper forest lists every block once. -/
theorem nodup_subtree (hv : Closed v) (hp : Proper S v) {k : κ} : ∀ (n : Nat) (p : List Nat),
    (∀ l : List Nat, l.length ≤ n → (∀ j ∈ l, j < S.width) → S.Node k (l ++ p)) →
    (subtree v S.width k n p).Nodup := by
  intro n
  induction n with
  | zero =>
    intro p _
    unfold subtree
    split
    · exact List.nodup_nil
    · exact List.nodup_singleton _
  | succ n ih =>
    intro p hn
    unfold subtree
    split
    · exact List.nodup_nil
    rename_i h0
    have hchild : ∀ j < S.width, ∀ l : List Nat, l.length ≤ n → (∀ i ∈ l, i < S.width) →
        S.Node k (l ++ j :: p) := by
      intro j hj l hlen hlt
      have := hn (l ++ [j]) (by simp; omega) (fun i hi => by
        rcases List.mem_append.mp hi with hi | hi
        · exact hlt i hi
        · rw [List.mem_singleton.mp hi]; exact hj)
      simpa using this
    refine List.nodup_append.mpr ⟨List.nodup_flatMap.mpr ⟨fun j hj => ?_, ?_⟩,
      List.nodup_singleton _, fun a ha b hb hab => ?_⟩
    · exact ih (j :: p) (hchild j (List.mem_range.mp hj))
    · refine List.Pairwise.imp_of_mem ?_ List.nodup_range
      intro i j hi hj hne b hbi hbj
      obtain ⟨hb, l, hlen, hlt, hl⟩ := (mem_subtree hv n (i :: p)).mp hbi
      obtain ⟨-, l', hlen', hlt', hl'⟩ := (mem_subtree hv n (j :: p)).mp hbj
      have heq := hp k _ k _ (hchild i (List.mem_range.mp hi) l hlen hlt)
        (hchild j (List.mem_range.mp hj) l' hlen' hlt') (hl.symm ▸ hb) (hl.trans hl'.symm)
      have hrev := congrArg List.reverse heq.2
      simp only [List.reverse_append, List.reverse_cons, List.append_assoc] at hrev
      have := List.append_cancel_left hrev
      simp at this
      exact hne this.1
    · rw [List.mem_singleton.mp hb] at hab
      obtain ⟨j, hj, hmem⟩ := List.mem_flatMap.mp ha
      obtain ⟨hb', l, hlen, hlt, hl⟩ := (mem_subtree hv n (j :: p)).mp hmem
      have heq := hp k _ k p (hchild j (List.mem_range.mp hj) l hlen hlt)
        (hn [] (Nat.zero_le _) (by simp)) (hl.symm ▸ hb') (hl.trans hab)
      have := congrArg List.length heq.2
      simp at this
      omega

end Lemmas

end Xv6.Lib.Forest
