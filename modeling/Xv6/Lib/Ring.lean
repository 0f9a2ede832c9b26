import Mathlib.Data.UInt
import Mathlib.Data.Fintype.Basic
import Mathlib.Logic.Function.Basic

/- Ring buffers with counters that only count up. The buffer has `n` slots, and the
   slot of a counter is the counter modulo `n`. The counters are machine words: they
   wrap around, which does no harm when `n` divides `2 ^ 32`.

   `Holds data r w l`: the slots from counter `r` up to counter `w` hold the items of
   `l`, oldest first. The rules say what taking an item at either end and adding one
   at either end do to `l`. -/
namespace Xv6.Lib.Ring

variable {α : Type} {n : Nat} [NeZero n]

/-- The slot of a counter. -/
def slot (n : Nat) [NeZero n] (c : UInt32) : Fin n := Fin.ofNat n c.toNat

structure Holds (data : Fin n → α) (r w : UInt32) (l : List α) : Prop where
  room : l.length ≤ n
  count : w = r + UInt32.ofNat l.length
  item : ∀ i x, l[i]? = some x → data (slot n (r + UInt32.ofNat i)) = x

/-! ## Counters -/

theorem toNat_add_ofNat (c : UInt32) (i : Nat) :
    (c + UInt32.ofNat i).toNat = (c.toNat + i) % 2 ^ 32 := by
  rw [UInt32.toNat_add, UInt32.toNat_ofNat', Nat.add_mod_mod]

theorem add_ofNat_add (c : UInt32) (i j : Nat) :
    c + UInt32.ofNat i + UInt32.ofNat j = c + UInt32.ofNat (i + j) := by
  apply UInt32.toNat_inj.mp
  simp only [toNat_add_ofNat]
  omega

theorem add_one_add (c : UInt32) (i : Nat) :
    c + 1 + UInt32.ofNat i = c + UInt32.ofNat (i + 1) := by
  rw [Nat.add_comm i 1]
  exact add_ofNat_add c 1 i

theorem add_succ_sub (c : UInt32) (i : Nat) :
    c + UInt32.ofNat (i + 1) - 1 = c + UInt32.ofNat i := by
  have h : c + UInt32.ofNat i + 1 = c + UInt32.ofNat (i + 1) := add_ofNat_add c i 1
  rw [← h]
  exact UInt32.add_sub_cancel _ 1

/-- Words that are less than `2 ^ 32` apart are equal only when they are not apart. -/
theorem add_ofNat_inj {c : UInt32} {i j : Nat} (hi : i < 2 ^ 32) (hj : j < 2 ^ 32)
    (h : c + UInt32.ofNat i = c + UInt32.ofNat j) : i = j := by
  have hnat := congrArg UInt32.toNat h
  simp only [toNat_add_ofNat] at hnat
  have := c.toNat_lt
  omega

section Slots

variable (hn : n ∣ 2 ^ 32)

include hn

theorem slot_add (c : UInt32) (i : Nat) : (slot n (c + UInt32.ofNat i)).val = (c.toNat + i) % n := by
  show (c + UInt32.ofNat i).toNat % n = _
  rw [toNat_add_ofNat, Nat.mod_mod_of_dvd _ hn]

/-- Counters less than `n` apart have different slots. -/
theorem slot_ne (c : UInt32) {i j : Nat} (hij : i < j) (hj : j < i + n) :
    slot n (c + UInt32.ofNat i) ≠ slot n (c + UInt32.ofNat j) := by
  intro h
  have hval := congrArg Fin.val h
  rw [slot_add hn, slot_add hn] at hval
  have hmod : (c.toNat + i) % n = (c.toNat + i + (j - i)) % n := by
    rw [hval]
    congr 1
    omega
  have hdvd : n ∣ j - i := by
    have := (Nat.modEq_iff_dvd' (by omega : c.toNat + i ≤ c.toNat + i + (j - i))).mp hmod
    rwa [Nat.add_sub_cancel_left] at this
  have := Nat.le_of_dvd (by omega) hdvd
  omega

end Slots

/-! ## The items -/

variable {data : Fin n → α} {r w : UInt32} {l : List α} {x : α}

theorem Holds.nil (data : Fin n → α) (c : UInt32) : Holds data c c [] := by
  refine ⟨Nat.zero_le n, ?_, fun i x h => ?_⟩
  · exact (UInt32.add_zero c).symm
  · rw [List.getElem?_nil] at h
    cases h

theorem Holds.eq_iff (h : Holds data r w l) (hlt : n < 2 ^ 32) : r = w ↔ l = [] := by
  have hlen := h.room
  constructor
  · intro he
    have hcount : r + UInt32.ofNat 0 = r + UInt32.ofNat l.length := by
      rw [← h.count, ← he]
      exact UInt32.add_zero r
    exact List.length_eq_zero_iff.mp (add_ofNat_inj (by omega) (by omega) hcount).symm
  · intro he
    rw [h.count, he]
    exact (UInt32.add_zero r).symm

theorem Holds.full_iff (h : Holds data r w l) (hlt : n < 2 ^ 32) :
    w = r + UInt32.ofNat n ↔ l.length = n := by
  have hlen := h.room
  constructor
  · intro he
    rw [h.count] at he
    exact add_ofNat_inj (by omega) hlt he
  · intro he
    rw [h.count, he]

/-- The number of items, as the difference of the counters. -/
theorem Holds.sub_eq (h : Holds data r w l) (hlt : n < 2 ^ 32) : (w - r).toNat = l.length := by
  have hlen := h.room
  have hsub : w - r = UInt32.ofNat l.length := by
    rw [h.count, UInt32.add_comm]
    exact UInt32.add_sub_cancel _ r
  rw [hsub, UInt32.toNat_ofNat', Nat.mod_eq_of_lt (by omega)]

/-- An item is added behind the others. -/
theorem Holds.push (hn : n ∣ 2 ^ 32) (h : Holds data r w l) (hroom : l.length < n) (x : α) :
    Holds (Function.update data (slot n w) x) r (w + 1) (l ++ [x]) := by
  refine ⟨?_, ?_, fun i y hi => ?_⟩
  · rw [List.length_append]
    exact hroom
  · rw [h.count, List.length_append]
    exact add_ofNat_add r l.length 1
  · rw [h.count]
    rcases Nat.lt_or_ge i l.length with hlt | hge
    · rw [List.getElem?_append_left hlt] at hi
      rw [Function.update_of_ne (slot_ne hn r hlt (by omega))]
      exact h.item i y hi
    · rw [List.getElem?_append_right hge, List.getElem?_singleton] at hi
      obtain ⟨hz, hx⟩ := Option.ite_none_right_eq_some.mp hi
      rw [show i = l.length by omega, Function.update_self]
      exact Option.some.inj hx

/-- The oldest item is taken. -/
theorem Holds.pop (h : Holds data r w (x :: l)) : data (slot n r) = x ∧ Holds data (r + 1) w l := by
  have hroom := h.room
  have hr : r + UInt32.ofNat 0 = r := UInt32.add_zero r
  refine ⟨?_, ?_, ?_, fun i y hi => ?_⟩
  · have h0 := h.item 0 x List.getElem?_cons_zero
    rwa [hr] at h0
  · rw [List.length_cons] at hroom
    omega
  · rw [add_one_add]
    exact h.count
  · rw [add_one_add]
    exact h.item (i + 1) y (by rwa [List.getElem?_cons_succ])

/-- The newest item is taken away again. -/
theorem Holds.unpush (h : Holds data r w (l ++ [x])) :
    data (slot n (w - 1)) = x ∧ Holds data r (w - 1) l := by
  have hroom := h.room
  rw [List.length_append] at hroom
  have hw : w - 1 = r + UInt32.ofNat l.length := by
    rw [h.count, List.length_append]
    exact add_succ_sub r l.length
  refine ⟨?_, by omega, hw, fun i y hi => ?_⟩
  · rw [hw]
    apply h.item l.length x
    rw [List.getElem?_append_right (Nat.le_refl _), Nat.sub_self]
    rfl
  · apply h.item i y
    rw [List.getElem?_append_left (List.getElem?_eq_some_iff.mp hi).1]
    exact hi

end Xv6.Lib.Ring
