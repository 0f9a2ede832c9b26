import Mathlib.Data.List.Basic
import Mathlib.Data.List.Pairwise
import Mathlib.Data.Set.Basic
import Mathlib.Algebra.Order.Ring.Nat

/- Sets of natural numbers as lists of intervals, an interval being its first number and its
   length. `Apart l`: the intervals are in order, none is empty, and between two of them there
   is a gap, so that no two can be made one. The rules say what it takes to add an interval,
   to make one longer and to take one out. -/
namespace Xv6.Lib.Intervals

abbrev Interval := Nat × Nat

/-- The first number behind an interval. -/
abbrev stop (i : Interval) : Nat := i.1 + i.2

structure Apart (l : List Interval) : Prop where
  pos : ∀ i ∈ l, 0 < i.2
  gap : l.Pairwise fun i j => stop i < j.1

/-- The numbers in the intervals. -/
def units (l : List Interval) : Set Nat := {u | ∃ i ∈ l, i.1 ≤ u ∧ u < stop i}

variable {lo hi l : List Interval} {i j : Interval} {u k : Nat}

theorem mem_units_append : u ∈ units (lo ++ hi) ↔ u ∈ units lo ∨ u ∈ units hi := by
  constructor
  · rintro ⟨i, hi, hu⟩
    rcases List.mem_append.mp hi with h | h
    · exact .inl ⟨i, h, hu⟩
    · exact .inr ⟨i, h, hu⟩
  · rintro (⟨i, h, hu⟩ | ⟨i, h, hu⟩)
    · exact ⟨i, List.mem_append_left _ h, hu⟩
    · exact ⟨i, List.mem_append_right _ h, hu⟩

theorem mem_units_cons : u ∈ units (i :: l) ↔ (i.1 ≤ u ∧ u < stop i) ∨ u ∈ units l := by
  constructor
  · rintro ⟨j, hj, hu⟩
    rcases List.mem_cons.mp hj with rfl | h
    · exact .inl hu
    · exact .inr ⟨j, h, hu⟩
  · rintro (hu | ⟨j, h, hu⟩)
    · exact ⟨i, List.mem_cons_self, hu⟩
    · exact ⟨j, List.mem_cons_of_mem i h, hu⟩

theorem mem_units_nil : u ∈ units [] ↔ False :=
  ⟨fun ⟨_, hi, _⟩ => List.not_mem_nil hi, False.elim⟩

/-- Two intervals that meet have the numbers of one. -/
theorem mem_units_join (h : stop i = j.1) : u ∈ units ((i.1, i.2 + j.2) :: l) ↔ u ∈ units (i :: j :: l) := by
  have hin : i.1 ≤ u ∧ u < stop (i.1, i.2 + j.2) ↔ (i.1 ≤ u ∧ u < stop i) ∨ (j.1 ≤ u ∧ u < stop j) := by
    dsimp only [stop] at h ⊢
    omega
  rw [mem_units_cons, mem_units_cons, mem_units_cons, hin, or_assoc]

theorem Apart.sublist {l' : List Interval} (h : Apart l) (hs : l'.Sublist l) : Apart l' :=
  ⟨fun i hi => h.pos i (hs.subset hi), h.gap.sublist hs⟩

theorem Apart.fst_mem (h : Apart l) (hi : i ∈ l) : i.1 ∈ units l :=
  ⟨i, hi, Nat.le_refl _, Nat.lt_add_of_pos_right (h.pos i hi)⟩

/-- An interval with a gap on both sides. -/
theorem Apart.add (h : Apart (lo ++ hi)) (hpos : 0 < i.2) (hlo : ∀ j ∈ lo, stop j < i.1)
    (hhi : ∀ j ∈ hi, stop i < j.1) : Apart (lo ++ i :: hi) := by
  obtain ⟨hgl, hgh, hcross⟩ := List.pairwise_append.mp h.gap
  constructor
  · intro j hj
    rcases List.mem_append.mp hj with hj | hj
    · exact h.pos j (List.mem_append_left hi hj)
    · rcases List.mem_cons.mp hj with rfl | hj
      · exact hpos
      · exact h.pos j (List.mem_append_right lo hj)
  · refine List.pairwise_append.mpr ⟨hgl, List.pairwise_cons.mpr ⟨hhi, hgh⟩, fun a ha b hb => ?_⟩
    rcases List.mem_cons.mp hb with rfl | hb
    · exact hlo a ha
    · exact hcross a ha b hb

/-- An interval that gets longer. -/
theorem Apart.grow (h : Apart (lo ++ i :: hi)) (hhi : ∀ j ∈ hi, stop i + k < j.1) :
    Apart (lo ++ (i.1, i.2 + k) :: hi) := by
  have hrest := h.sublist ((List.sublist_cons_self i hi).append_left lo)
  obtain ⟨-, -, hcross⟩ := List.pairwise_append.mp h.gap
  apply hrest.add
  · exact Nat.add_pos_left (h.pos i (List.mem_append_right lo List.mem_cons_self)) k
  · exact fun j hj => hcross j hj i List.mem_cons_self
  · intro j hj
    have := hhi j hj
    dsimp only [stop] at this ⊢
    omega

/-- An interval that gets shorter, at its end. -/
theorem Apart.shrink (h : Apart (lo ++ i :: hi)) (hk : 0 < k) (hle : k ≤ i.2) :
    Apart (lo ++ (i.1, k) :: hi) := by
  have hrest := h.sublist ((List.sublist_cons_self i hi).append_left lo)
  obtain ⟨-, hgap, hcross⟩ := List.pairwise_append.mp h.gap
  apply hrest.add hk
  · exact fun j hj => hcross j hj i List.mem_cons_self
  · intro j hj
    have := (List.pairwise_cons.mp hgap).1 j hj
    dsimp only [stop] at this ⊢
    omega

/-- In order, and so without repetition. -/
theorem Apart.nodup (h : Apart l) : (l.map Prod.fst).Nodup := by
  rw [List.Nodup, List.pairwise_map]
  refine h.gap.imp fun {a b} hab he => ?_
  dsimp only [stop] at hab
  omega

theorem Apart.order (h : Apart l) (hi : i ∈ l) (hj : j ∈ l) : i = j ∨ stop i < j.1 ∨ stop j < i.1 := by
  obtain ⟨a, b, rfl⟩ := List.append_of_mem hi
  obtain ⟨-, hgap, hcross⟩ := List.pairwise_append.mp h.gap
  rcases List.mem_append.mp hj with hj | hj
  · exact .inr (.inr (hcross j hj i List.mem_cons_self))
  · rcases List.mem_cons.mp hj with rfl | hj
    · exact .inl rfl
    · exact .inr (.inl ((List.pairwise_cons.mp hgap).1 j hj))

/-- The other intervals have none of the numbers. -/
theorem Apart.not_mem_others (h : Apart (lo ++ i :: hi)) (hu : u ∈ units (lo ++ hi)) :
    ¬ (i.1 ≤ u ∧ u < stop i) := by
  obtain ⟨-, hgap, hcross⟩ := List.pairwise_append.mp h.gap
  obtain ⟨j, hj, hlow, hup⟩ := hu
  rcases List.mem_append.mp hj with hj | hj
  · have := hcross j hj i List.mem_cons_self
    omega
  · have := (List.pairwise_cons.mp hgap).1 j hj
    omega

/-- If the last interval ends before `k`, all do. -/
theorem Apart.stop_lt (h : Apart (lo ++ [i])) (hlt : stop i < k) : ∀ j ∈ lo ++ [i], stop j < k := by
  intro j hj
  rcases List.mem_append.mp hj with hj | hj
  · have hgap := (List.pairwise_append.mp h.gap).2.2 j hj i (List.mem_singleton_self i)
    exact Nat.lt_of_lt_of_le hgap (Nat.le_trans (Nat.le_add_right _ _) (Nat.le_of_lt hlt))
  · rwa [List.mem_singleton.mp hj]

/-- Numbers in a row are in one interval. -/
theorem Apart.covers (h : Apart l) (hpos : 0 < i.2) (hin : ∀ u, i.1 ≤ u → u < stop i → u ∈ units l) :
    ∃ j ∈ l, j.1 ≤ i.1 ∧ stop i ≤ stop j := by
  obtain ⟨j, hj, hlow, hup⟩ := hin i.1 (Nat.le_refl _) (Nat.lt_add_of_pos_right hpos)
  refine ⟨j, hj, hlow, ?_⟩
  by_contra hover
  obtain ⟨k, hk, hlow', hup'⟩ := hin (stop j) (Nat.le_of_lt hup) (Nat.lt_of_not_le hover)
  rcases h.order hj hk with rfl | hgap | hgap <;> dsimp only [stop] at * <;> omega

/-- Numbers in a row are one interval. -/
theorem Apart.eq_singleton {a b : Nat} (h : Apart l) (hab : a < b)
    (hunits : ∀ u, u ∈ units l ↔ a ≤ u ∧ u < b) : l = [(a, b - a)] := by
  have hsub : ∀ i ∈ l, a ≤ i.1 ∧ stop i ≤ b := by
    intro i hi
    have hpos := h.pos i hi
    have hin : i.1 ≤ i.1 + i.2 - 1 ∧ i.1 + i.2 - 1 < i.1 + i.2 := by omega
    have hlow := (hunits i.1).mp (h.fst_mem hi)
    have hup := (hunits (i.1 + i.2 - 1)).mp ⟨i, hi, hin⟩
    dsimp only [stop]
    omega
  have hin : ∀ u, (a, b - a).1 ≤ u → u < stop (a, b - a) → u ∈ units l := by
    intro u h1 h2
    dsimp only [stop] at h1 h2
    exact (hunits u).mpr (by omega)
  obtain ⟨j, hj, hlow, hup⟩ := h.covers (i := (a, b - a)) (Nat.sub_pos_of_lt hab) hin
  have hjab := hsub j hj
  dsimp only [stop] at hlow hup hjab
  have hall : ∀ i ∈ l, i = j := by
    intro i hi
    have hi' := hsub i hi
    have hpos := h.pos i hi
    dsimp only [stop] at hi'
    rcases h.order hi hj with he | hlt | hlt
    · exact he
    · dsimp only [stop] at hlt
      omega
    · dsimp only [stop] at hlt
      omega
  have hjeq : j = (a, b - a) := Prod.ext (by omega) (by dsimp only; omega)
  rw [← hjeq]
  cases l with
  | nil => cases hj
  | cons c l =>
    have hc := hall c List.mem_cons_self
    cases l with
    | nil => rw [hc]
    | cons d l =>
      have hd := hall d (List.mem_cons_of_mem c List.mem_cons_self)
      have hgap := (List.pairwise_cons.mp h.gap).1 d List.mem_cons_self
      rw [hc, hd] at hgap
      exact absurd hgap (Nat.not_lt.mpr (Nat.le_add_right _ _))

/-- An interval beside the others lies between two of them. -/
theorem Apart.split (hpos : 0 < i.2) : ∀ {l : List Interval}, Apart l →
    (∀ u, i.1 ≤ u → u < stop i → u ∉ units l) →
    ∃ lo hi, l = lo ++ hi ∧ (∀ j ∈ lo, stop j ≤ i.1) ∧ ∀ j ∈ hi, stop i ≤ j.1 := by
  intro l
  induction l with
  | nil => exact fun _ _ => ⟨[], [], rfl, nofun, nofun⟩
  | cons c l ih =>
    intro h hout
    obtain ⟨hgap, -⟩ := List.pairwise_cons.mp h.gap
    have hposc := h.pos c List.mem_cons_self
    rcases Nat.lt_or_ge c.1 i.1 with hlt | hge
    · have hc : stop c ≤ i.1 := by
        by_contra hover
        apply hout i.1 (Nat.le_refl _) (Nat.lt_add_of_pos_right hpos)
        exact ⟨c, List.mem_cons_self, Nat.le_of_lt hlt, Nat.lt_of_not_le hover⟩
      obtain ⟨lo, hi, rfl, hlo, hhi⟩ := ih (h.sublist (List.sublist_cons_self c l))
        fun u h1 h2 hu => hout u h1 h2 (mem_units_cons.mpr (.inr hu))
      exact ⟨c :: lo, hi, rfl, List.forall_mem_cons.mpr ⟨hc, hlo⟩, hhi⟩
    · have hc : stop i ≤ c.1 := by
        by_contra hover
        apply hout c.1 hge (Nat.lt_of_not_le hover)
        exact ⟨c, List.mem_cons_self, Nat.le_refl _, Nat.lt_add_of_pos_right hposc⟩
      refine ⟨[], c :: l, rfl, nofun, List.forall_mem_cons.mpr ⟨hc, fun j hj => ?_⟩⟩
      have := hgap j hj
      dsimp only [stop] at this hc ⊢
      omega

end Xv6.Lib.Intervals
