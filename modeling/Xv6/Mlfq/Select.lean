import Xv6.Mlfq.Membership

/- What `getProcessToRun` chooses while the scheduler is not locked. The three
   walks follow `next` only, so the queues enter here as the lists those walks
   visit (`Lib.walk`), whatever the other fields hold.

   `firstRunnable_walk` says that the walk along L0 or L1 is `List.find?` on the
   list, `leastPriority_walk` what the running minimum over L2 has come to at
   the end. `selects_chosen` puts the three together: the choice is `none`
   exactly when nothing is RUNNABLE, and otherwise it is `Chosen`. -/
namespace Xv6.Mlfq

/-- Is the process RUNNABLE? -/
def runnable (t : Ptable) (p : Slot) : Bool := (t.proc p).state == .RUNNABLE

@[simp] theorem runnable_iff {t : Ptable} {p : Slot} :
    runnable t p = true ↔ (t.proc p).state = .RUNNABLE := by
  simp [runnable]

/-- The process the scheduler is to run next when the queues are the lists `L`:
RUNNABLE, in the lowest queue that has a RUNNABLE process, there the first in
L0 and L1, and in L2 the first of those with the least priority value. -/
def Chosen (t : Ptable) (L : QIdx → List Slot) (p : Slot) : Prop :=
  (t.proc p).state = .RUNNABLE ∧ ∃ q a b, L q = a ++ p :: b ∧
    (∀ q' < q, ∀ r ∈ L q', (t.proc r).state ≠ .RUNNABLE) ∧
    (q.val ≠ 2 → ∀ r ∈ a, (t.proc r).state ≠ .RUNNABLE) ∧
    (q.val = 2 → (∀ r ∈ a, (t.proc r).state = .RUNNABLE → (t.proc p).priority < (t.proc r).priority) ∧
      ∀ r ∈ b, (t.proc r).state = .RUNNABLE → (t.proc p).priority ≤ (t.proc r).priority)

theorem qidx_cases (q : QIdx) : q = 0 ∨ q = 1 ∨ q = 2 := by
  have hlt : q.val < 3 := q.isLt
  have hval : q.val = 0 ∨ q.val = 1 ∨ q.val = 2 := by omega
  exact hval.imp (fun h => Fin.ext h) (Or.imp (fun h => Fin.ext h) (fun h => Fin.ext h))

section Walks

variable {t : Ptable} {L : QIdx → List Slot}

/-- A walk that ends either stood at the end, or visits its first node and
goes on from the node's `next`. -/
theorem walk_cases {next : Slot → Option Slot} {fuel : Nat} {o : Option Slot} {l : List Slot}
    (h : Lib.walk next fuel o = some l) :
    (o = none ∧ l = []) ∨
      ∃ k p l', fuel = k + 1 ∧ o = some p ∧ l = p :: l' ∧ Lib.walk next k (next p) = some l' := by
  cases o with
  | none =>
    left
    cases fuel <;> simpa [Lib.walk] using h.symm
  | some p =>
    cases fuel with
    | zero => simp [Lib.walk] at h
    | succ k =>
      obtain ⟨l', hl', hl⟩ := Option.map_eq_some_iff.mp h
      exact .inr ⟨k, p, l', rfl, rfl, hl.symm, hl'⟩

/-- The walk along L0 or L1 finds the first RUNNABLE process of the list. -/
theorem firstRunnable_walk : ∀ (l : List Slot) (fuel : Nat) (o : Option Slot),
    Lib.walk t.next fuel o = some l → firstRunnable t fuel o = some (l.find? (runnable t)) := by
  intro l
  induction l with
  | nil =>
    intro fuel o h
    obtain ⟨rfl, -⟩ | ⟨_, _, _, _, _, hl, _⟩ := walk_cases h
    · cases fuel <;> rfl
    · simp at hl
  | cons y ys ih =>
    intro fuel o h
    obtain ⟨-, hl⟩ | ⟨k, p, l', rfl, rfl, hl, hw⟩ := walk_cases h
    · simp at hl
    · simp only [List.cons.injEq] at hl
      obtain ⟨rfl, rfl⟩ := hl
      simp only [firstRunnable, List.find?_cons]
      split
      · next hs => rw [runnable_iff.mpr hs]
      · next hs =>
        have hb : runnable t y = false := by simpa [runnable] using hs
        rw [hb]
        exact ih k (t.next y) hw

/-- What the walk along L2 has found when it starts with the minimum `m`: a
process below `m` with nothing smaller in the list and nothing as small before
it, or nothing. -/
def LeastOf (t : Ptable) (l : List Slot) (m : Int) (r : Option Slot) : Prop :=
  ∃ p a b, r = some p ∧ l = a ++ p :: b ∧ (t.proc p).state = .RUNNABLE ∧ (t.proc p).priority < m ∧
    (∀ x ∈ a, (t.proc x).state = .RUNNABLE → (t.proc p).priority < (t.proc x).priority) ∧
    ∀ x ∈ b, (t.proc x).state = .RUNNABLE → (t.proc p).priority ≤ (t.proc x).priority

/-- A node that is not RUNNABLE, or not below the minimum, is passed over. -/
theorem LeastOf.skip {y : Slot} {ys : List Slot} {m : Int} {r : Option Slot} (h : LeastOf t ys m r)
    (hy : (t.proc y).state = .RUNNABLE → m ≤ (t.proc y).priority) : LeastOf t (y :: ys) m r := by
  obtain ⟨p, a, b, hr, hl, hs, hm, ha, hb⟩ := h
  refine ⟨p, y :: a, b, hr, by simp [hl], hs, hm, fun x hx hxs => ?_, hb⟩
  rcases List.mem_cons.mp hx with he | hx
  · subst he
    have := hy hxs
    omega
  · exact ha x hx hxs

theorem leastPriority_walk : ∀ (l : List Slot) (fuel : Nat) (o : Option Slot) (m : Int)
    (best : Option Slot), Lib.walk t.next fuel o = some l →
    ∃ r, leastPriority t fuel o m best = some r ∧
      (LeastOf t l m r ∨
        r = best ∧ ∀ x ∈ l, (t.proc x).state = .RUNNABLE → m ≤ (t.proc x).priority) := by
  intro l
  induction l with
  | nil =>
    intro fuel o m best h
    obtain ⟨rfl, -⟩ | ⟨_, _, _, _, _, hl, _⟩ := walk_cases h
    · exact ⟨best, by cases fuel <;> rfl, .inr ⟨rfl, by simp⟩⟩
    · simp at hl
  | cons y ys ih =>
    intro fuel o m best h
    obtain ⟨-, hl⟩ | ⟨k, p, l', rfl, rfl, hl, hw⟩ := walk_cases h
    · simp at hl
    simp only [List.cons.injEq] at hl
    obtain ⟨rfl, rfl⟩ := hl
    -- a node that does not lower the minimum leaves the rest of the walk as it was
    have hskip : ((t.proc y).state = .RUNNABLE → m ≤ (t.proc y).priority) →
        ∃ r, leastPriority t k (t.next y) m best = some r ∧ (LeastOf t (y :: ys) m r ∨
          r = best ∧ ∀ x ∈ y :: ys, (t.proc x).state = .RUNNABLE → m ≤ (t.proc x).priority) := by
      intro hy
      obtain ⟨r, hr, hfound | ⟨hbest, hall⟩⟩ := ih k (t.next y) m best hw
      · exact ⟨r, hr, .inl (hfound.skip hy)⟩
      · refine ⟨r, hr, .inr ⟨hbest, fun x hx => ?_⟩⟩
        rcases List.mem_cons.mp hx with he | hx
        · exact he ▸ hy
        · exact hall x hx
    simp only [leastPriority]
    split
    · next hs => exact hskip (fun h => absurd h hs)
    · next hs =>
      have hs : (t.proc y).state = .RUNNABLE := not_not.mp hs
      split
      · next hlt =>
        obtain ⟨r, hr, hfound | ⟨hbest, hall⟩⟩ := ih k (t.next y) (t.proc y).priority (some y) hw
        · refine ⟨r, hr, .inl ?_⟩
          obtain ⟨p, a, b, he, hl, hps, hm, ha, hb⟩ := hfound.skip (fun _ => Int.le_refl _)
          exact ⟨p, a, b, he, hl, hps, Int.lt_trans hm hlt, ha, hb⟩
        · exact ⟨r, hr, .inl ⟨y, [], ys, hbest, rfl, hs, hlt, by simp, hall⟩⟩
      · next hge => exact hskip (fun _ => Int.not_lt.mp hge)

/-- A process `find?` gives is in the list with none like it before. -/
theorem find_split {l : List Slot} {p : Slot} (h : l.find? (runnable t) = some p) :
    (t.proc p).state = .RUNNABLE ∧ ∃ a b, l = a ++ p :: b ∧
      ∀ r ∈ a, (t.proc r).state ≠ .RUNNABLE := by
  obtain ⟨hp, a, b, hl, ha⟩ := List.find?_eq_some_iff_append.mp h
  exact ⟨runnable_iff.mp hp, a, b, hl, fun r hr => by simpa [runnable] using ha r hr⟩

theorem find_none {l : List Slot} (h : l.find? (runnable t) = none) :
    ∀ r ∈ l, (t.proc r).state ≠ .RUNNABLE := by
  intro r hr
  simpa [runnable] using List.find?_eq_none.mp h r hr

/-- The three walks, on queues whose walks visit the lists `L`. -/
theorem pickQueues_walk (hw : ∀ q, Lib.walk t.next NPROC (frontqueue t q) = some (L q)) :
    ∃ r, pickQueues t = .ok r ∧ (∀ p, r = some p → Chosen t L p) ∧
      (r = none → (∀ x ∈ L 2, (t.proc x).state = .RUNNABLE → (t.proc x).priority ≤ 3) →
        ∀ q, ∀ x ∈ L q, (t.proc x).state ≠ .RUNNABLE) := by
  obtain ⟨r₂, hr₂, hleast⟩ := leastPriority_walk (L 2) NPROC _ 4 none (hw 2)
  simp only [pickQueues, firstRunnable_walk _ _ _ (hw 0), firstRunnable_walk _ _ _ (hw 1), hr₂]
  cases h0 : (L 0).find? (runnable t) with
  | some p =>
    obtain ⟨hs, a, b, hl, ha⟩ := find_split h0
    refine ⟨some p, rfl, fun p' hp' => ?_, by simp⟩
    cases hp'
    exact ⟨hs, 0, a, b, hl, fun q' hq' => absurd hq' (Nat.not_lt_zero _), fun _ => ha, by simp⟩
  | none =>
    have n0 := find_none h0
    cases h1 : (L 1).find? (runnable t) with
    | some p =>
      obtain ⟨hs, a, b, hl, ha⟩ := find_split h1
      refine ⟨some p, rfl, fun p' hp' => ?_, by simp⟩
      cases hp'
      refine ⟨hs, 1, a, b, hl, fun q' hq' => ?_, fun _ => ha, by simp⟩
      have hq0 : q' = 0 := Fin.ext (Nat.lt_one_iff.mp hq')
      exact hq0 ▸ n0
    | none =>
      have n1 := find_none h1
      refine ⟨r₂, rfl, fun p hp => ?_, fun hn hprio q => ?_⟩
      · rcases hleast with ⟨p', a, b, hp', hl, hs, -, ha, hb⟩ | ⟨hn, -⟩
        · rw [hp] at hp'
          cases hp'
          refine ⟨hs, 2, a, b, hl, fun q' hq' => ?_, by simp, fun _ => ⟨ha, hb⟩⟩
          rcases qidx_cases q' with rfl | rfl | rfl
          · exact n0
          · exact n1
          · exact absurd hq' (lt_irrefl _)
        · rw [hp] at hn; cases hn
      · rcases hleast with ⟨p, _, _, hp, _⟩ | ⟨-, hall⟩
        · rw [hn] at hp; cases hp
        · rcases qidx_cases q with rfl | rfl | rfl
          · exact n0
          · exact n1
          · intro x hx hxs
            have h4 := hall x hx hxs
            have h3 := hprio x hx hxs
            omega

end Walks

/-- The queues hold every process in use, each in one queue, and their
priorities are those `setPriority` accepts. `L` are the lists the queues are,
followed from their fronts. -/
structure Arranged (t : Ptable) (L : QIdx → List Slot) : Prop where
  walk : ∀ q, Lib.walk t.next NPROC (frontqueue t q) = some (L q)
  once : ∀ p, (t.proc p).state ≠ .UNUSED → ∃! q, p ∈ L q
  prio : ∀ p, (t.proc p).state ≠ .UNUSED → 0 ≤ (t.proc p).priority ∧ (t.proc p).priority ≤ 3

/-- While the scheduler is not locked, `getProcessToRun` changes nothing and
returns NULL exactly when no process is RUNNABLE, and the process to choose
otherwise. -/
theorem getProcessToRun_chosen {t : Ptable} {L : QIdx → List Slot} (h : Arranged t L)
    (hlock : t.lockpid = 0) :
    ∃ r, getProcessToRun t = .ok (r, t) ∧
      (r = none ↔ ∀ p, (t.proc p).state ≠ .RUNNABLE) ∧ ∀ p, r = some p → Chosen t L p := by
  obtain ⟨r, hr, hsome, hnone⟩ := pickQueues_walk h.walk
  refine ⟨r, by simp only [getProcessToRun, hlock, if_true, hr]; rfl, ⟨fun hn p hp => ?_, ?_⟩, hsome⟩
  · obtain ⟨q, hq, -⟩ := h.once p (by simp [hp])
    exact hnone hn (fun x _ hs => (h.prio x (by simp [hs])).2) q p hq hp
  · intro hall
    cases r with
    | none => rfl
    | some p => exact absurd (hsome p rfl).1 (hall p)

/-- Three processes, one in each queue; the two below L0 are RUNNABLE. -/
def oneInEach : List Act :=
  [.userinit, .dispatch, .allocproc 0, .forkFinish 0 1, .allocproc 0, .forkFinish 0 2,
    .setLevel 2 1, .setLevel 3 2]

def oneInEachLists : QIdx → List Slot
  | 0 => [0]
  | 1 => [1]
  | 2 => [2]

/-- `Arranged` can be computed. -/
instance Arranged.decidable (t : Ptable) (L : QIdx → List Slot) : Decidable (Arranged t L) :=
  decidable_of_iff ((∀ q, Lib.walk t.next NPROC (frontqueue t q) = some (L q)) ∧
      (∀ p, (t.proc p).state ≠ .UNUSED → ∃ q, p ∈ L q ∧ ∀ q', p ∈ L q' → q' = q) ∧
      ∀ p, (t.proc p).state ≠ .UNUSED → 0 ≤ (t.proc p).priority ∧ (t.proc p).priority ≤ 3)
    ⟨fun h => ⟨h.1, h.2.1, h.2.2⟩, fun h => ⟨h.walk, h.once, h.prio⟩⟩

theorem getProcessToRun_chosen_oneInEach : ∃ t, Lib.run step pinit oneInEach = some t ∧
    ∃ r, getProcessToRun t = .ok (r, t) ∧
      (r = none ↔ ∀ p, (t.proc p).state ≠ .RUNNABLE) ∧
      ∀ p, r = some p → Chosen t oneInEachLists p := by
  have h : (Lib.run step pinit oneInEach).any
      (fun t => decide (Arranged t oneInEachLists ∧ t.lockpid = 0)) := by decide +kernel
  obtain ⟨t, hr, ht⟩ := (Option.any_eq_true _ _).mp h
  obtain ⟨ha, hl⟩ := of_decide_eq_true ht
  exact ⟨t, hr, getProcessToRun_chosen ha hl⟩

end Xv6.Mlfq
