import Mathlib.Data.List.Basic
import Mathlib.Data.List.Nodup
import Mathlib.Logic.Function.Basic

/- Singly linked lists that end in a null pointer. `Links next start l`: from `start`, the
   pointers `next` lead through the nodes of `l` in order and then end. The rules say what
   reading the first node, going to the last one and adding a node behind it come to. -/
namespace Xv6.Lib

variable {ν : Type} {next next' : ν → Option ν} {start : Option ν} {l : List ν} {x y : ν}

def Links (next : ν → Option ν) : Option ν → List ν → Prop
  | start, [] => start = none
  | start, x :: l => start = some x ∧ Links next (next x) l

/-- The node at the end, for a loop that goes on while there is a next one. -/
def lastNode (next : ν → Option ν) : Nat → ν → ν
  | 0, x => x
  | k + 1, x =>
    match next x with
    | none => x
    | some y => lastNode next k y

namespace Links

theorem head (h : Links next start l) : start = l.head? := by
  cases l with
  | nil => exact h
  | cons x l => exact h.1

/-- Only the pointers of the members are read. -/
theorem congr : ∀ {l : List ν} {start : Option ν}, Links next start l →
    (∀ y ∈ l, next' y = next y) → Links next' start l := by
  intro l
  induction l with
  | nil => exact fun h _ => h
  | cons x l ih =>
    intro start h hn
    refine ⟨h.1, ?_⟩
    rw [hn x List.mem_cons_self]
    exact ih h.2 fun y hy => hn y (List.mem_cons_of_mem x hy)

theorem lastNode_eq : ∀ {l : List ν} {x : ν} {k : Nat}, Links next (some x) (x :: l) → l.length ≤ k →
    lastNode next k x = (x :: l).getLast (List.cons_ne_nil x l) := by
  intro l
  induction l with
  | nil =>
    intro x k h _
    have hnone : next x = none := h.2
    cases k with
    | zero => rfl
    | succ k => rw [lastNode, hnone, List.getLast_singleton]
  | cons y l ih =>
    intro x k h hk
    have hnext : next x = some y := h.2.1
    cases k with
    | zero => exact absurd hk (Nat.not_succ_le_zero _)
    | succ k =>
      rw [lastNode, hnext]
      have hrest : Links next (some y) (y :: l) := ⟨rfl, h.2.2⟩
      rw [List.getLast_cons (List.cons_ne_nil y l)]
      exact ih hrest (Nat.le_of_succ_le_succ hk)

variable [DecidableEq ν]

/-- A node that is not a member may be written. -/
theorem update_of_not_mem (h : Links next start l) (hx : x ∉ l) (p : Option ν) :
    Links (Function.update next x p) start l := by
  apply h.congr
  intro y hy
  apply Function.update_of_ne
  intro he
  exact hx (he ▸ hy)

/-- A node is linked behind the last one. -/
theorem append : ∀ {l : List ν} {start : Option ν} (hne : l ≠ []), Links next start l → l.Nodup → y ∉ l →
    next y = none → Links (Function.update next (l.getLast hne) (some y)) start (l ++ [y]) := by
  intro l
  induction l with
  | nil => exact fun hne => absurd rfl hne
  | cons x l ih =>
    intro start hne h hnd hy hnone
    obtain ⟨hx, hl⟩ := List.nodup_cons.mp hnd
    refine ⟨h.1, ?_⟩
    cases l with
    | nil =>
      rw [List.getLast_singleton, Function.update_self]
      refine ⟨rfl, ?_⟩
      have hyx : y ≠ x := fun he => hy (List.mem_singleton.mpr he)
      rw [Function.update_of_ne hyx]
      exact hnone
    | cons z l =>
      rw [List.getLast_cons (List.cons_ne_nil z l)]
      have hxlast : x ≠ (z :: l).getLast (List.cons_ne_nil z l) :=
        fun he => hx (he ▸ List.getLast_mem (List.cons_ne_nil z l))
      rw [Function.update_of_ne hxlast]
      exact ih (List.cons_ne_nil z l) h.2 hl (fun hmem => hy (List.mem_cons_of_mem x hmem)) hnone

end Links

end Xv6.Lib
