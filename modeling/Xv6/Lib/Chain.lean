import Mathlib.Data.List.Basic
import Mathlib.Data.List.Nodup

/- Intrusive doubly linked lists. The nodes live in a table, and the table's
   `next` and `prev` fields thread some of them into a list. `Seg next prev pv l
   nx` says that the nodes of `l` are threaded in order, entered from `pv` and
   left to `nx`. Appending, prepending and unlinking a node are stated as what
   the two fields have to be afterwards, so a program that writes them in any
   order is covered. -/
namespace Xv6.Lib

variable {ν : Type}

/-- The nodes of `l` are threaded by `next` and `prev`: the first one's `prev`
is `pv` and the last one's `next` is `nx`. -/
def Seg (next prev : ν → Option ν) : Option ν → List ν → Option ν → Prop
  | _, [], _ => True
  | pv, x :: xs, nx => prev x = pv ∧ next x = xs.head?.or nx ∧ Seg next prev (some x) xs nx

/-- Follow `next` from a node for at most `fuel` nodes; `none` when the walk
has not ended by then. -/
def walk (next : ν → Option ν) : Nat → Option ν → Option (List ν)
  | _, none => some []
  | 0, some _ => none
  | n + 1, some x => (walk next n (next x)).map (x :: ·)

section Seg

variable {next prev next' prev' : ν → Option ν} {pv nx : Option ν} {l a b : List ν} {x n : ν}

theorem seg_append : ∀ (a : List ν) (pv : Option ν),
    Seg next prev pv (a ++ b) nx ↔
      Seg next prev pv a (b.head?.or nx) ∧ Seg next prev (a.getLast?.or pv) b nx := by
  intro a
  induction a with
  | nil => intro pv; simp [Seg]
  | cons y ys ih =>
    intro pv
    have hlast : (y :: ys).getLast?.or pv = ys.getLast?.or (some y) := by
      rw [List.getLast?_cons]
      cases ys.getLast? <;> simp
    have hhead : (ys ++ b).head?.or nx = ys.head?.or (b.head?.or nx) := by
      cases ys <;> simp
    simp only [List.cons_append, Seg, ih, hlast, hhead]
    tauto

/-- The predicate reads the two fields at the members only. -/
theorem seg_congr : ∀ (l : List ν) (pv : Option ν), (∀ y ∈ l, next' y = next y) →
    (∀ y ∈ l, prev' y = prev y) → Seg next prev pv l nx → Seg next' prev' pv l nx := by
  intro l
  induction l with
  | nil => intro pv _ _ _; trivial
  | cons y ys ih =>
    intro pv hn hp h
    refine ⟨?_, ?_, ih (some y) (fun z hz => hn z (by simp [hz])) (fun z hz => hp z (by simp [hz]))
      h.2.2⟩
    · rw [hp y (by simp)]; exact h.1
    · rw [hn y (by simp)]; exact h.2.1

theorem seg_reverse : ∀ (l : List ν) (pv : Option ν), Seg next prev pv l nx →
    Seg prev next nx l.reverse pv := by
  intro l
  induction l with
  | nil => intro pv _; trivial
  | cons y ys ih =>
    intro pv h
    have hrest := ih (some y) h.2.2
    rw [List.reverse_cons, seg_append]
    refine ⟨by simpa using hrest, ?_⟩
    have hlast : ys.reverse.getLast? = ys.head? := by simp
    exact ⟨by rw [hlast]; exact h.2.1, by simpa using h.1, trivial⟩

/-- Following `next` from the first node visits exactly the list. -/
theorem walk_seg : ∀ (l : List ν) (pv : Option ν) (fuel : Nat), l.length ≤ fuel →
    Seg next prev pv l none → walk next fuel l.head? = some l := by
  intro l
  induction l with
  | nil => intro pv fuel _ _; cases fuel <;> rfl
  | cons y ys ih =>
    intro pv fuel hf h
    cases fuel with
    | zero => simp at hf
    | succ k =>
      have hnext : next y = ys.head? := by simpa using h.2.1
      have hk : ys.length ≤ k := by simpa using hf
      simp only [List.head?_cons, walk, hnext, ih (some y) k hk h.2.2, Option.map_some]

/-- A node of a segment with its two neighbours. -/
theorem seg_mid (h : Seg next prev none (a ++ x :: b) none) :
    prev x = a.getLast? ∧ next x = b.head? := by
  have := (seg_append a none).mp h
  simpa using And.intro this.2.1 this.2.2.1

/-- Inside a segment that ends, `prev` undoes `next`. -/
theorem seg_next_prev {y : ν} (h : Seg next prev none l none) (hx : x ∈ l)
    (hn : next x = some y) : y ∈ l ∧ prev y = some x := by
  obtain ⟨a, b, rfl⟩ := List.append_of_mem hx
  have hb : b.head? = some y := (seg_mid h).2.symm.trans hn
  cases b with
  | nil => simp at hb
  | cons z zs =>
    simp only [List.head?_cons, Option.some.injEq] at hb
    subst hb
    have h' : Seg next prev none ((a ++ [x]) ++ z :: zs) none := by simpa using h
    exact ⟨by simp, by simpa using (seg_mid h').1⟩

/-- Appending a node: only the old last node's `next` changes. -/
theorem seg_push_back (h : Seg next prev none l none)
    (hn : ∀ y ∈ l, l.getLast? ≠ some y → next' y = next y)
    (hlast : ∀ y, l.getLast? = some y → next' y = some n)
    (hp : ∀ y ∈ l, prev' y = prev y)
    (hpn : prev' n = l.getLast?) (hnn : next' n = none) (hnd : l.Nodup) :
    Seg next' prev' none (l ++ [n]) none := by
  rw [seg_append]
  refine ⟨?_, by simp [Seg, hpn, hnn]⟩
  rcases List.eq_nil_or_concat l with rfl | ⟨as, u, rfl⟩
  · trivial
  rw [List.concat_eq_append] at *
  have hsplit := (seg_append as none).mp h
  have hu : u ∉ as := by
    intro hmem
    exact (List.nodup_append.mp hnd).2.2 u hmem u (by simp) rfl
  rw [seg_append]
  refine ⟨?_, ?_⟩
  · refine seg_congr as none (fun y hy => hn y (by simp [hy]) ?_) (fun y hy => hp y (by simp [hy]))
      hsplit.1
    simp only [List.getLast?_append, List.getLast?_singleton, Option.some_or, ne_eq,
      Option.some.injEq]
    rintro rfl
    exact hu hy
  · refine ⟨?_, ?_, trivial⟩
    · rw [hp u (by simp)]; exact hsplit.2.1
    · simpa using hlast u (by simp)

/-- Prepending a node: only the old first node's `prev` changes. -/
theorem seg_push_front (h : Seg next prev none l none)
    (hp : ∀ y ∈ l, l.head? ≠ some y → prev' y = prev y)
    (hhead : ∀ y, l.head? = some y → prev' y = some n)
    (hn : ∀ y ∈ l, next' y = next y)
    (hnn : next' n = l.head?) (hpn : prev' n = none) (hnd : l.Nodup) :
    Seg next' prev' none (n :: l) none := by
  cases l with
  | nil => simp [Seg, hpn, hnn]
  | cons y ys =>
    refine ⟨hpn, by simpa using hnn, hhead y rfl, ?_, ?_⟩
    · rw [hn y (by simp)]; exact h.2.1
    · refine seg_congr ys (some y) (fun z hz => hn z (by simp [hz])) (fun z hz => hp z (by simp [hz]) ?_)
        h.2.2
      simp only [List.head?_cons, ne_eq, Option.some.injEq]
      rintro rfl
      exact (List.nodup_cons.mp hnd).1 hz

/-- Unlinking a node: its neighbours are joined. -/
theorem seg_unlink (h : Seg next prev none (a ++ x :: b) none) (hnd : (a ++ x :: b).Nodup)
    (hn : ∀ y ∈ a ++ b, a.getLast? ≠ some y → next' y = next y)
    (hlast : ∀ y, a.getLast? = some y → next' y = b.head?)
    (hp : ∀ y ∈ a ++ b, b.head? ≠ some y → prev' y = prev y)
    (hhead : ∀ y, b.head? = some y → prev' y = a.getLast?) :
    Seg next' prev' none (a ++ b) none := by
  have hsplit := (seg_append a none).mp h
  obtain ⟨hda, hdx, hdis⟩ := List.nodup_append.mp hnd
  have hab : ∀ y, y ∈ a → y ∉ b := fun y hy hyb => hdis y hy y (by simp [hyb]) rfl
  rw [seg_append]
  constructor
  · -- the part before the node: its last `next` now points behind the node
    rcases List.eq_nil_or_concat a with rfl | ⟨as, u, rfl⟩
    · trivial
    rw [List.concat_eq_append] at *
    have hsa := (seg_append as none).mp hsplit.1
    have hu : u ∉ as := fun hmem => (List.nodup_append.mp hda).2.2 u hmem u (by simp) rfl
    have hub : u ∉ b := hab u (by simp)
    have hbu : b.head? ≠ some u := fun he => hub (List.mem_of_mem_head? he)
    rw [seg_append]
    refine ⟨seg_congr as none (fun y hy => hn y (by simp [hy]) ?_)
      (fun y hy => hp y (by simp [hy]) ?_) (by simpa using hsa.1), ?_, ?_, trivial⟩
    · simp only [List.getLast?_append, List.getLast?_singleton, Option.some_or, ne_eq,
        Option.some.injEq]
      rintro rfl
      exact hu hy
    · exact fun he => hab y (by simp [hy]) (List.mem_of_mem_head? he)
    · rw [hp u (by simp) hbu]; exact hsa.2.1
    · simpa using hlast u (by simp)
  · -- the part behind the node: its first `prev` now points before the node
    cases b with
    | nil => trivial
    | cons y ys =>
      have hsb := hsplit.2.2.2
      have hya : y ∉ a := fun hmem => hab y hmem (by simp)
      have hys : y ∉ ys := (List.nodup_cons.mp (List.nodup_cons.mp hdx).2).1
      refine ⟨by simpa using hhead y rfl, ?_, ?_⟩
      · rw [hn y (by simp) (fun he => hya (List.mem_of_getLast? he))]; exact hsb.2.1
      · refine seg_congr ys (some y) (fun z hz => hn z (by simp [hz]) ?_)
          (fun z hz => hp z (by simp [hz]) ?_) hsb.2.2
        · exact fun he => hab z (List.mem_of_getLast? he) (by simp [hz])
        · simp only [List.head?_cons, ne_eq, Option.some.injEq]
          rintro rfl
          exact hys hz

end Seg

end Xv6.Lib
