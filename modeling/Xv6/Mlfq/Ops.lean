import Xv6.Mlfq.Boost

/- The queue operations as a whole (`project1_scheduler/queue.c`). On queues that
   represent lists each of them is the list operation it is named after, leaves the
   other lists alone, and writes `queue`, `level`, `prev` and `next` of the process
   it moves (`queue_ops_refine`).

   The counter `size` is another matter: `pushfrontqueue` returns before
   `++q->size` when the queue is empty. `short` counts these calls along a run, and
   the counter is behind the list by exactly as many (`size_short`). -/
namespace Xv6.Mlfq

section Refine

variable {t t' : Ptable} {L : QIdx → List Slot} {q : QIdx} {p : Slot}

/-- What an operation on `p` leaves: the queues represent `L'`, the links of `p` are
these, and nothing but links has changed. -/
structure Moved (t t' : Ptable) (L' : QIdx → List Slot) (p : Slot)
    (links : Option QIdx × Int × Option Slot × Option Slot) : Prop where
  linked : Linked t' L'
  links : (t'.proc p).links = links
  core : SameCore t t'

/-- Where a process stands in the list of its queue is what its links say. -/
theorem Linked.links {a b : List Slot} (h : Linked t L) (hq : L q = a ++ p :: b) :
    (t.proc p).links = (some q, (q.val : Int), a.getLast?, b.head?) := by
  have hmem : (t.proc p).queue = some q := (h.mem q p).mp (by rw [hq]; simp)
  have hlevel := h.level q p hmem
  obtain ⟨hprev, hnext⟩ := Lib.seg_mid (hq ▸ h.seg q)
  change (t.proc p).prev = _ at hprev
  change (t.proc p).next = _ at hnext
  rw [Proc.links, hmem, hlevel, hprev, hnext]

/-- Unlinking `p` clears its `prev` and `next` and leaves the other two. -/
theorem unlink_self (h : unlink t q p = .ok t') :
    (t'.proc p).links = ((t.proc p).queue, (t.proc p).level, none, none) := by
  have hclear : ∀ u : Ptable, (u.proc p).queue = (t.proc p).queue → (u.proc p).level = (t.proc p).level →
      ((u.clearLinks p).proc p).links = ((t.proc p).queue, (t.proc p).level, none, none) := by
    intro u hq hl
    simp [Ptable.clearLinks, Proc.links, hq, hl]
  have hother : ∀ (u : Ptable) (r : Slot) (f : Proc → Proc), (∀ x, (f x).queue = x.queue) →
      (∀ x, (f x).level = x.level) → ((u.updProc r f).proc p).queue = (u.proc p).queue ∧
      ((u.updProc r f).proc p).level = (u.proc p).level := by
    intro u r f h1 h2
    rw [Ptable.updProc_proc]
    split
    · exact ⟨h1 _, h2 _⟩
    · exact ⟨rfl, rfl⟩
  unfold unlink at h
  split at h
  · cases h
    exact hclear _ rfl rfl
  · split at h
    · split at h
      · cases h
      · rename_i nx _
        cases h
        have hv := hother (t.updQueue q (fun x => { x with front := some nx })) nx
          (fun x => { x with prev := none }) (fun _ => rfl) (fun _ => rfl)
        exact hclear _ hv.1 hv.2
    · split at h
      · split at h
        · cases h
        · rename_i pv _
          cases h
          have hv := hother (t.updQueue q (fun x => { x with back := some pv })) pv
            (fun x => { x with next := none }) (fun _ => rfl) (fun _ => rfl)
          exact hclear _ hv.1 hv.2
      · split at h
        · rename_i pv nx _ _
          cases h
          have h1 := hother t pv (fun x => { x with next := some nx }) (fun _ => rfl) (fun _ => rfl)
          have h2 := hother (t.updProc pv (fun x => { x with next := some nx })) nx
            (fun x => { x with prev := some pv }) (fun _ => rfl) (fun _ => rfl)
          exact hclear _ (h2.1.trans h1.1) (h2.2.trans h1.2)
        · cases h

theorem erasequeue_self (h : erasequeue t (some q) p = .ok t') :
    (t'.proc p).links = (none, -1, none, none) := by
  simp only [erasequeue] at h
  split at h
  · cases h
  · split at h
    · cases h
    · cases h
    · rw [unlink_self h]
      simp

theorem popqueue_self (h : popqueue t q = .ok (some p, t')) :
    (t'.proc p).links = (none, -1, none, none) := by
  simp only [popqueue] at h
  split at h
  · cases h
  · rename_i ret _
    split at h
    · cases h
      simp [Ptable.clearLinks, Proc.links]
    · split at h
      · cases h
      · rename_i nx _
        cases h
        by_cases hp : p = nx
        · simp [Ptable.clearLinks, Proc.links, hp]
        · simp [Ptable.clearLinks, Proc.links, hp]

/-- Each operation is the operation on lists. -/
theorem queue_ops_refine (t : Ptable) (L : QIdx → List Slot) (h : Linked t L) (q : QIdx) :
    (∀ p, (∀ k, p ∉ L k) → ∃ t', pushqueue t q p = .ok t' ∧
      Moved t t' (Function.update L q (L q ++ [p])) p (some q, (q.val : Int), (L q).getLast?, none)) ∧
    (∀ p, (∀ k, p ∉ L k) → ∃ t', pushfrontqueue t q p = .ok t' ∧
      Moved t t' (Function.update L q (p :: L q)) p (some q, (q.val : Int), none, (L q).head?)) ∧
    (∀ p, p ∈ L q → ∃ t', erasequeue t (some q) p = .ok t' ∧
      Moved t t' (Function.update L q ((L q).erase p)) p (none, -1, none, none)) ∧
    (L q = [] → popqueue t q = .ok (none, t)) ∧
    ∀ p l, L q = p :: l → ∃ t', popqueue t q = .ok (some p, t') ∧
      Moved t t' (Function.update L q l) p (none, -1, none, none) := by
  have hnone : ∀ p, (∀ k, p ∉ L k) → (t.proc p).queue = none := by
    intro p hp
    cases hq : (t.proc p).queue with
    | none => rfl
    | some k => exact absurd ((h.mem k p).mpr hq) (hp k)
  refine ⟨fun p hp => ?_, fun p hp => ?_, fun p hp => ?_, fun hq => popqueue_empty h hq, fun p l hq => ?_⟩
  · obtain ⟨t', hr, hL, hc⟩ := pushqueue_linked (q := q) h (hnone p hp)
    refine ⟨t', hr, hL, ?_, hc⟩
    apply hL.links (a := L q) (b := [])
    exact Function.update_self ..
  · obtain ⟨t', hr, hL, hc⟩ := pushfrontqueue_linked (q := q) h (hnone p hp)
    refine ⟨t', hr, hL, ?_, hc⟩
    apply hL.links (a := []) (b := L q)
    exact Function.update_self ..
  · obtain ⟨t', hr, hL, hc, -⟩ := erasequeue_linked h ((h.mem q p).mp hp)
    exact ⟨t', hr, hL, erasequeue_self hr, hc⟩
  · obtain ⟨t', hr, hL, hc, -⟩ := popqueue_linked h hq
    exact ⟨t', hr, hL, popqueue_self hr, hc⟩

end Refine

theorem pinit_linked : Linked pinit (fun _ => []) := by
  refine ⟨fun _ => rfl, fun _ => rfl, fun _ => rfl, fun _ => trivial, fun _ => List.nodup_nil,
    fun q p => ?_, fun q p hq => by cases hq⟩
  simp [pinit]

/-- The processes 7, 3 and 5 come on L0 and 2 on L1; the middle one is erased, and the front
is popped. -/
theorem queue_ops_refine_fourProcesses : ∃ t₁ t₂ t₃ t₄ t₅ t₆,
    pushqueue pinit 0 3 = .ok t₁ ∧ pushqueue t₁ 0 5 = .ok t₂ ∧ pushqueue t₂ 1 2 = .ok t₃ ∧
    pushfrontqueue t₃ 0 7 = .ok t₄ ∧ erasequeue t₄ (some 0) 3 = .ok t₅ ∧
    popqueue t₅ 0 = .ok (some 7, t₆) ∧ (t₄.proc 7).links = (some 0, 0, none, some 3) ∧
    (t₅.proc 3).links = (none, -1, none, none) ∧
    Linked t₆ (fun k => if k = 0 then [5] else if k = 1 then [2] else []) := by
  obtain ⟨t₁, h₁, m₁⟩ := (queue_ops_refine pinit _ pinit_linked 0).1 3 (by decide)
  obtain ⟨t₂, h₂, m₂⟩ := (queue_ops_refine t₁ _ m₁.linked 0).1 5 (by decide)
  obtain ⟨t₃, h₃, m₃⟩ := (queue_ops_refine t₂ _ m₂.linked 1).1 2 (by decide)
  obtain ⟨t₄, h₄, m₄⟩ := (queue_ops_refine t₃ _ m₃.linked 0).2.1 7 (by decide)
  obtain ⟨t₅, h₅, m₅⟩ := (queue_ops_refine t₄ _ m₄.linked 0).2.2.1 3 (by decide)
  obtain ⟨t₆, h₆, m₆⟩ := (queue_ops_refine t₅ _ m₅.linked 0).2.2.2.2 7 [5] (by decide)
  refine ⟨t₁, t₂, t₃, t₄, t₅, t₆, h₁, h₂, h₃, h₄, h₅, h₆, m₄.links, m₅.links, ?_⟩
  have hlists := m₆.linked
  refine cast (congrArg (Linked t₆) ?_) hlists
  decide

/-! ## The counter -/

/-- A call of one of the four operations, null pointers included. -/
inductive QueueAct where
  | pushqueue (q : Option QIdx) (n : Option Slot)
  | pushfrontqueue (q : Option QIdx) (p : Option Slot)
  | erasequeue (q : Option QIdx) (p : Slot)
  | popqueue (q : QIdx)
  deriving DecidableEq, Repr

def queueCall (t : Ptable) : QueueAct → Except Fault Ptable
  | .pushqueue (some q) (some n) => pushqueue t q n
  | .pushqueue none _ => .ok t
  | .pushqueue (some _) none => .ok t
  | .pushfrontqueue (some q) (some p) => pushfrontqueue t q p
  | .pushfrontqueue none _ => .ok t
  | .pushfrontqueue (some _) none => .ok t
  | .erasequeue q p => erasequeue t q p
  | .popqueue q => (popqueue t q).map Prod.snd

def queueStep (t : Ptable) (a : QueueAct) : Option Ptable := (queueCall t a).toOption

/-- The call puts a process on queue `k` without counting it. -/
def missed (t : Ptable) : QueueAct → QIdx → Bool
  | .pushfrontqueue (some q) (some _), k => q == k && (t.queue q).front.isNone
  | .pushfrontqueue none _, _ => false
  | .pushfrontqueue (some _) none, _ => false
  | .pushqueue _ _, _ => false
  | .erasequeue _ _, _ => false
  | .popqueue _, _ => false

/-- How many processes a run has put on queue `k` without counting them. -/
def short (t : Ptable) : List QueueAct → QIdx → Nat
  | [], _ => 0
  | a :: as, k => (if missed t a k then 1 else 0) +
    match queueStep t a with
    | none => 0
    | some t' => short t' as k

/-- No queue is empty at a `pushfrontqueue` on it. -/
def Counted (t : Ptable) (a : QueueAct) : Prop := ∀ k, missed t a k = false

section Counter

variable {t t' : Ptable} {L L' : QIdx → List Slot} {q k : QIdx} {p : Slot}

theorem queueStep_ok {a : QueueAct} (h : queueStep t a = some t') : queueCall t a = .ok t' := by
  unfold queueStep at h
  cases hc : queueCall t a with
  | error e =>
    rw [hc] at h
    cases h
  | ok u =>
    rw [hc] at h
    cases h
    rfl

theorem pushfrontqueue_size (h : pushfrontqueue t q p = .ok t') (k : QIdx) :
    (t'.queue k).size = (t.queue k).size + if k = q ∧ (t.queue q).front ≠ none then 1 else 0 := by
  simp only [pushfrontqueue] at h
  split at h
  · cases h
  · split at h
    · rename_i hf
      change (t.queue q).front = none at hf
      cases h
      by_cases hk : k = q <;> simp [Ptable.clearLinks, hk, hf]
    · rename_i f hf
      change (t.queue q).front = some f at hf
      split at h
      · cases h
        by_cases hk : k = q <;> simp [hk, hf]
      · cases h
        by_cases hk : k = q <;> simp [hk, hf]

theorem popqueue_size {r : Option Slot} (h : popqueue t q = .ok (r, t')) (k : QIdx) :
    (t'.queue k).size = (t.queue k).size - if k = q ∧ r ≠ none then 1 else 0 := by
  simp only [popqueue] at h
  split at h
  · cases h
    simp
  · split at h
    · cases h
      by_cases hk : k = q <;> simp [Ptable.clearLinks, hk]
    · split at h
      · cases h
      · cases h
        by_cases hk : k = q <;> simp [Ptable.clearLinks, hk]

/-- The processes of queue `k` that the counter has not counted. -/
def gap (t : Ptable) (L : QIdx → List Slot) (k : QIdx) : Int := ((L k).length : Int) - (t.queue k).size

/-- Two lists that a queue represents have the same length. -/
theorem Linked.length_eq (h : Linked t L) (h' : Linked t L') (k : QIdx) : (L k).length = (L' k).length := by
  apply List.Perm.length_eq
  apply (List.perm_ext_iff_of_nodup (h.nodup k) (h'.nodup k)).mpr
  intro p
  rw [h.mem k p, h'.mem k p]

theorem length_update {l : List Slot} (k : QIdx) :
    ((Function.update L q l) k).length = if k = q then l.length else (L k).length := by
  by_cases hk : k = q
  · rw [hk, Function.update_self, if_pos rfl]
  · rw [Function.update_of_ne hk, if_neg hk]

/-- What one call does to the gap. -/
theorem Linked.call_gap {a : QueueAct} (h : Linked t L) (ha : queueCall t a = .ok t') :
    ∃ L', Linked t' L' ∧ ∀ k, gap t' L' k = gap t L k + if missed t a k then 1 else 0 := by
  have hsame : ∃ L', Linked t L' ∧ ∀ k, gap t L' k = gap t L k + 0 := ⟨L, h, fun _ => (Int.add_zero _).symm⟩
  cases a with
  | pushqueue q n =>
    cases q with
    | none =>
      cases ha
      exact hsame
    | some q =>
      cases n with
      | none =>
        cases ha
        exact hsame
      | some n =>
        refine ⟨_, h.pushed ha, fun k => ?_⟩
        rw [gap, gap, length_update, (pushqueue_frame ha).1 k]
        simp only [missed, Bool.false_eq_true, if_false]
        split
        · rename_i hk
          rw [List.length_append, List.length_singleton, hk]
          omega
        · omega
  | pushfrontqueue q p =>
    cases q with
    | none =>
      cases ha
      exact hsame
    | some q =>
      cases p with
      | none =>
        cases ha
        exact hsame
      | some p =>
        refine ⟨_, h.pushedFront ha, fun k => ?_⟩
        rw [gap, gap, length_update, pushfrontqueue_size ha k]
        by_cases hk : k = q
        · subst hk
          cases hf : (t.queue k).front with
          | none =>
            -- the process that is not counted
            simp only [missed, hf, List.length_cons]
            simp
            omega
          | some f =>
            simp only [missed, hf, List.length_cons]
            simp
        · have hq : (q == k) = false := by simpa using fun he : q = k => hk he.symm
          simp [missed, hk, hq]
  | erasequeue q p =>
    refine ⟨_, h.erased ha, fun k => ?_⟩
    cases q with
    | none =>
      have hnone := erased_own ha
      have ht : t' = t := by
        simp only [queueCall, erasequeue, hnone] at ha
        cases ha
        rfl
      rw [gap, gap, List.erase_of_not_mem (h.not_mem hnone k), ht]
      simp [missed]
    | some q =>
      have hq := erased_own ha
      rw [gap, gap, (erasequeue_frame ha).1 k]
      simp only [missed, Bool.false_eq_true, if_false]
      by_cases hk : k = q
      · subst hk
        have hmem : p ∈ L k := (h.mem k p).mpr hq
        have hpos : 0 < (L k).length := List.length_pos_of_mem hmem
        rw [List.length_erase_of_mem hmem, if_pos rfl]
        omega
      · have hmem : p ∉ L k := fun hm => hk (h.mem_unique hm ((h.mem q p).mpr hq))
        rw [List.erase_of_not_mem hmem, if_neg hk]
        omega
  | popqueue q =>
    cases hr : popqueue t q with
    | error e =>
      simp only [queueCall, hr] at ha
      cases ha
    | ok x =>
      obtain ⟨r, u⟩ := x
      simp only [queueCall, hr] at ha
      cases ha
      cases hl : L q with
      | nil =>
        rw [popqueue_empty h hl] at hr
        cases hr
        exact hsame
      | cons p l =>
        obtain ⟨u', hu, hL, -⟩ := popqueue_linked h hl
        have hsize := popqueue_size hr
        rw [hu] at hr
        cases hr
        refine ⟨_, hL, fun k => ?_⟩
        rw [gap, gap, length_update, hsize k]
        simp only [missed, Bool.false_eq_true, if_false]
        by_cases hk : k = q
        · subst hk
          simp [hl]
          omega
        · simp [hk]

/-- Along a run the counters fall behind by the processes that were not counted. -/
theorem size_short : ∀ (as : List QueueAct) (t : Ptable) (L : QIdx → List Slot), Linked t L →
    Lib.run queueStep t as = some t' →
    ∃ L', Linked t' L' ∧ ∀ k, gap t' L' k = gap t L k + short t as k := by
  intro as
  induction as with
  | nil =>
    intro t L h hr
    cases hr
    exact ⟨L, h, fun _ => (Int.add_zero _).symm⟩
  | cons a as ih =>
    intro t L h hr
    obtain ⟨u, hs, hr⟩ := Lib.run_cons hr
    obtain ⟨L₁, h₁, hg₁⟩ := h.call_gap (queueStep_ok hs)
    obtain ⟨L', h', hg'⟩ := ih u L₁ h₁ hr
    refine ⟨L', h', fun k => ?_⟩
    rw [hg' k, hg₁ k, short, hs]
    by_cases hm : missed t a k = true
    · simp [hm]
      omega
    · simp [hm]

theorem short_zero_iff : ∀ (as : List QueueAct) (t : Ptable), (∃ t', Lib.run queueStep t as = some t') →
    ((∀ k, short t as k = 0) ↔ Lib.Meets queueStep Counted t as) := by
  intro as
  induction as with
  | nil => exact fun _ _ => ⟨fun _ => trivial, fun _ _ => rfl⟩
  | cons a as ih =>
    intro t ht
    obtain ⟨t', hr⟩ := ht
    obtain ⟨u, hs, hr⟩ := Lib.run_cons hr
    have hrest := ih u ⟨t', hr⟩
    constructor
    · intro h0
      have hboth : ∀ k, missed t a k = false ∧ short u as k = 0 := by
        intro k
        have hk := h0 k
        rw [short, hs] at hk
        by_cases hm : missed t a k = true
        · simp [hm] at hk
        · exact ⟨by simpa using hm, by simpa [hm] using hk⟩
      refine ⟨fun k => (hboth k).1, fun u' hu => ?_⟩
      rw [hs] at hu
      cases hu
      exact hrest.mp (fun k => (hboth k).2)
    · intro hm k
      rw [short, hs, hm.1 k]
      simpa using hrest.mpr (hm.2 u hs) k

end Counter

/-- The counters are right at the end of a run exactly when no process was pushed to
the front of an empty queue. -/
theorem sizes_right_iff (t t' : Ptable) (as : List QueueAct) (h : Linked t (fun _ => []))
    (hs : ∀ k, (t.queue k).size = 0) (hr : Lib.run queueStep t as = some t') :
    (∃ L, Linked t' L ∧ ∀ k, (t'.queue k).size = (L k).length) ↔ Lib.Meets queueStep Counted t as := by
  obtain ⟨L', h', hg⟩ := size_short as t _ h hr
  have hstart : ∀ k, gap t (fun _ => []) k = 0 := by
    intro k
    rw [gap, hs k]
    rfl
  rw [← short_zero_iff as t ⟨t', hr⟩]
  constructor
  · intro hex k
    obtain ⟨L, hL, hsize⟩ := hex
    have hk := hg k
    rw [hstart k, gap, hsize k, hL.length_eq h' k] at hk
    omega
  · intro h0
    refine ⟨L', h', fun k => ?_⟩
    have hk := hg k
    rw [hstart k, h0 k, gap] at hk
    omega

theorem sizes_right_iff_pushAndPop : ∃ t,
    Lib.run queueStep pinit [.pushqueue (some 0) (some 3), .popqueue 0] = some t ∧
      ((∃ L, Linked t L ∧ ∀ k, (t.queue k).size = (L k).length) ↔
        Lib.Meets queueStep Counted pinit [.pushqueue (some 0) (some 3), .popqueue 0]) := by
  refine ⟨_, rfl, ?_⟩
  exact sizes_right_iff pinit _ _ pinit_linked (fun _ => rfl) rfl

/-- A process is on L0 and the counter of L0 is 0. -/
theorem pushfrontqueue_not_counted : ∃ t,
    Lib.run queueStep pinit [.pushfrontqueue (some 0) (some 3)] = some t ∧
      ¬ ∃ L, Linked t L ∧ ∀ k, (t.queue k).size = (L k).length := by
  refine ⟨_, rfl, fun hex => ?_⟩
  obtain ⟨L, hL, hsize⟩ := hex
  have hmem : (3 : Slot) ∈ L 0 := (hL.mem 0 3).mpr rfl
  have hpos : 0 < (L 0).length := List.length_pos_of_mem hmem
  have hzero : (0 : Int) = (L 0).length := hsize 0
  omega

end Xv6.Mlfq
