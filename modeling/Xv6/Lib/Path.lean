import Mathlib.Data.List.Basic
import Mathlib.Logic.Function.Basic
import Mathlib.Order.Basic

/- Paths along pointers. `Path next x l y`: from `x`, the pointers lead through the nodes of
   `l` and then to `y`. A circular list through `x` is a path from `x` to `x`, and it can be
   entered at each of its nodes (`Path.enter`). -/
namespace Xv6.Lib

variable {ν : Type} {next next' : ν → ν}

def Path (next : ν → ν) : ν → List ν → ν → Prop
  | x, [], y => x = y
  | x, z :: l, y => x = z ∧ Path next (next z) l y

/-- Follow the pointers to a node with a property, for at most `fuel` nodes. -/
def search (next : ν → ν) (stop : ν → Prop) [DecidablePred stop] : Nat → ν → Option ν
  | 0, _ => none
  | k + 1, x => if stop x then some x else search next stop k (next x)

namespace Path

theorem append {y : ν} {b : List ν} : ∀ {a : List ν} {x : ν},
    Path next x (a ++ b) y ↔ ∃ m, Path next x a m ∧ Path next m b y := by
  intro a
  induction a with
  | nil =>
    intro x
    constructor
    · exact fun h => ⟨x, rfl, h⟩
    · rintro ⟨m, rfl, h⟩
      exact h
  | cons z a ih =>
    intro x
    constructor
    · rintro ⟨hx, h⟩
      obtain ⟨m, ha, hb⟩ := ih.mp h
      exact ⟨m, ⟨hx, ha⟩, hb⟩
    · rintro ⟨m, ⟨hx, ha⟩, hb⟩
      exact ⟨hx, ih.mpr ⟨m, ha, hb⟩⟩

/-- Only the pointers of the nodes on the path are read. -/
theorem congr {y : ν} : ∀ {l : List ν} {x : ν}, Path next x l y → (∀ z ∈ l, next' z = next z) →
    Path next' x l y := by
  intro l
  induction l with
  | nil => exact fun h _ => h
  | cons z l ih =>
    intro x h hn
    refine ⟨h.1, ?_⟩
    rw [hn z List.mem_cons_self]
    exact ih h.2 fun w hw => hn w (List.mem_cons_of_mem z hw)

/-- A circle can be entered at each of its nodes. -/
theorem enter {x z : ν} {a b : List ν} (h : Path next x (a ++ z :: b) x) :
    Path next z (z :: b ++ a) z := by
  obtain ⟨m, ha, hb⟩ := append.mp h
  obtain rfl : m = z := hb.1
  exact append.mpr ⟨x, hb, ha⟩

/-- The last pointer is set to another node. -/
theorem redirect [DecidableEq ν] {x y p : ν} {a : List ν} (h : Path next x (a ++ [p]) y) (hp : p ∉ a)
    (z : ν) : Path (Function.update next p z) x (a ++ [p]) z := by
  obtain ⟨m, ha, hm, -⟩ := append.mp h
  refine append.mpr ⟨m, ha.congr fun w hw => ?_, hm, ?_⟩
  · apply Function.update_of_ne
    intro he
    exact hp (he ▸ hw)
  · exact Function.update_self p z next

/-- Where the last pointer leads. -/
theorem last {x y p : ν} {a : List ν} (h : Path next x (a ++ [p]) y) : next p = y := by
  obtain ⟨m, -, -, hy⟩ := append.mp h
  exact hy

/-- In a circle that goes up and then back to its first node, a pointer leads to the next higher
node, or from the highest one to the first one. -/
theorem next_sorted [Preorder ν] {x w : ν} {l : List ν} (h : Path next x (x :: l) x)
    (hs : (x :: l).Pairwise (· < ·)) (hw : w ∈ x :: l) :
    (next w ∈ l ∧ w < next w ∧ ∀ v ∈ x :: l, v ≤ w ∨ next w ≤ v) ∨
      (next w = x ∧ ∀ v ∈ x :: l, v ≤ w) := by
  obtain ⟨a, b, hab⟩ := List.append_of_mem hw
  rw [hab] at h hs ⊢
  obtain ⟨m, -, rfl, hb⟩ := append.mp h
  obtain ⟨-, hgb, hcross⟩ := List.pairwise_append.mp hs
  obtain ⟨hwb, hb'⟩ := List.pairwise_cons.mp hgb
  have hbefore : ∀ v ∈ a, v ≤ m := fun v hv => le_of_lt (hcross v hv m List.mem_cons_self)
  cases b with
  | nil =>
    right
    refine ⟨hb, fun v hv => ?_⟩
    rcases List.mem_append.mp hv with hv | hv
    · exact hbefore v hv
    · exact le_of_eq (List.mem_singleton.mp hv)
  | cons c b =>
    have hc : next m = c := hb.1
    left
    rw [hc]
    refine ⟨?_, hwb c List.mem_cons_self, fun v hv => ?_⟩
    · have hmem : c ∈ x :: l := by
        rw [hab]
        exact List.mem_append_right a (List.mem_cons_of_mem m List.mem_cons_self)
      refine (List.mem_cons.mp hmem).resolve_left fun he => ?_
      cases a with
      | nil =>
        rw [List.nil_append, List.cons.injEq] at hab
        exact lt_irrefl _ (he.trans hab.1 ▸ hwb c List.mem_cons_self)
      | cons d a =>
        rw [List.cons_append, List.cons.injEq] at hab
        have hdc := hcross d List.mem_cons_self c (List.mem_cons_of_mem m List.mem_cons_self)
        exact lt_irrefl _ (he.trans hab.1 ▸ hdc)
    · rcases List.mem_append.mp hv with hv | hv
      · exact .inl (hbefore v hv)
      · rcases List.mem_cons.mp hv with rfl | hv
        · exact .inl (le_refl _)
        · rcases List.mem_cons.mp hv with rfl | hv
          · exact .inr (le_refl _)
          · exact .inr (le_of_lt ((List.pairwise_cons.mp hb').1 v hv))

/-- A search finds the node if there is one. -/
theorem search_eq {stop : ν → Prop} [DecidablePred stop] {y z : ν} : ∀ {l : List ν} {x : ν} {k : Nat},
    Path next x l y → z ∈ l → stop z → (∀ w ∈ l, stop w → w = z) → l.length ≤ k →
    search next stop k x = some z := by
  intro l
  induction l with
  | nil => exact fun _ hz => absurd hz List.not_mem_nil
  | cons w l ih =>
    intro x k h hz hstop honly hk
    obtain ⟨rfl, h⟩ := h
    cases k with
    | zero => exact absurd hk (Nat.not_succ_le_zero _)
    | succ k =>
      rw [search]
      split
      next hx => rw [honly x List.mem_cons_self hx]
      next hx =>
        have hne : z ≠ x := fun he => hx (he ▸ hstop)
        exact ih h ((List.mem_cons.mp hz).resolve_left hne) hstop
          (fun v hv => honly v (List.mem_cons_of_mem x hv)) (Nat.le_of_succ_le_succ hk)

end Path

end Xv6.Lib
