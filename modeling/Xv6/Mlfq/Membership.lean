import Xv6.Mlfq.Sched

/- Queue membership over whole runs of the MLFQ scheduler. `Inv` says that the
   three queues represent some lists and that exactly the slots in use are on
   one of them. Every action keeps it: the ones that move a process do so by an
   `erasequeue` followed by a push (`relink`, `relinkFront`), `allocproc` adds
   a slot and `wait` removes one, and the others touch no link. `Safe` carries
   the second half through the code: no queue panic and no endless walk. -/
namespace Xv6.Mlfq

/-- The panic messages of `queue.c`. -/
def queuePanics : List String :=
  ["erasequeue:", "not in queue\n", "should have prev and next\n", "pushqueue", "pushfrontqueue"]

/-- A fault that is neither a panic of `queue.c` nor an endless walk. -/
def Fault.benign : Fault → Prop
  | .panic m => m ∉ queuePanics
  | .loops => False
  | _ => True

/-- The call ends in a result that satisfies `P`, or in a benign fault. -/
def Safe {α : Type} (P : α → Prop) : Except Fault α → Prop
  | .ok a => P a
  | .error e => e.benign

theorem Safe.bind {α β : Type} {P : α → Prop} {Q : β → Prop} {r : Except Fault α}
    {f : α → Except Fault β} (h : Safe P r) (hf : ∀ a, P a → Safe Q (f a)) : Safe Q (r >>= f) := by
  cases r with
  | error e => exact h
  | ok a => exact hf a h

theorem Safe.mono {α : Type} {P Q : α → Prop} {r : Except Fault α} (h : Safe P r)
    (hpq : ∀ a, P a → Q a) : Safe Q r := by
  cases r with
  | error e => exact h
  | ok a => exact hpq a h

/-- A process is unused exactly when it is on no queue. -/
def Member (t : Ptable) : Prop := ∀ p, (t.proc p).state = .UNUSED ↔ (t.proc p).queue = none

/-- The queues represent lists, and exactly the slots in use are on them. -/
def Inv (t : Ptable) : Prop := (∃ L, Linked t L) ∧ Member t

def Proc.links (x : Proc) : Option QIdx × Int × Option Slot × Option Slot :=
  (x.queue, x.level, x.prev, x.next)

section Frame

variable {t t' : Ptable} {L : QIdx → List Slot} {p : Slot} {q : QIdx}

theorem Linked.congr (h : Linked t L) (hq : t'.queue = t.queue)
    (hl : ∀ p, (t'.proc p).links = (t.proc p).links) : Linked t' L := by
  have hf : ∀ p, (t'.proc p).queue = (t.proc p).queue ∧ (t'.proc p).level = (t.proc p).level ∧
      (t'.proc p).prev = (t.proc p).prev ∧ (t'.proc p).next = (t.proc p).next := by
    intro p
    simpa [Proc.links] using hl p
  constructor
  · rw [hq]; exact h.front
  · rw [hq]; exact h.back
  · rw [hq]; exact h.qlevel
  · intro q
    exact Lib.seg_congr _ _ (fun y _ => (hf y).2.2.2) (fun y _ => (hf y).2.2.1) (h.seg q)
  · exact h.nodup
  · intro q p; rw [(hf p).1]; exact h.mem q p
  · intro q p hqp
    rw [(hf p).1] at hqp
    rw [(hf p).2.1]
    exact h.level q p hqp

/-- An action that writes no link and leaves unused slots unused. -/
theorem Inv.congr (h : Inv t) (hq : t'.queue = t.queue)
    (hl : ∀ p, (t'.proc p).links = (t.proc p).links)
    (hs : ∀ p, (t'.proc p).state = .UNUSED ↔ (t.proc p).state = .UNUSED) : Inv t' := by
  obtain ⟨⟨L, hL⟩, hm⟩ := h
  refine ⟨⟨L, hL.congr hq hl⟩, fun p => ?_⟩
  have hlq : (t'.proc p).queue = (t.proc p).queue := congrArg Prod.fst (hl p)
  rw [hs p, hlq]
  exact hm p

/-- The same for a write to one process. -/
theorem Inv.updProc (h : Inv t) (p : Slot) {f : Proc → Proc} (hl : ∀ x, (f x).links = x.links)
    (hs : (f (t.proc p)).state = .UNUSED ↔ (t.proc p).state = .UNUSED) : Inv (t.updProc p f) := by
  refine h.congr rfl (fun r => ?_) (fun r => ?_)
  · rw [Ptable.updProc_proc]
    split
    · exact hl _
    · rfl
  · rw [Ptable.updProc_proc]
    split
    · next he => subst he; exact hs
    · rfl

/-- Putting a process in use back on some queue after it was taken off one:
the membership of every other process is untouched, and it is on a queue
before and after. -/
theorem member_relinked {t₁ : Ptable} {q₀ : QIdx} {l' : List Slot} (hm : Member t)
    (hL : Linked t L) (hL₁ : Linked t₁ (Function.update L q₀ ((L q₀).erase p)))
    (hL' : Linked t' (Function.update (Function.update L q₀ ((L q₀).erase p)) q l'))
    (hp : (t.proc p).queue = some q₀) (hcore : SameCore t t')
    (hl : ∀ r, r ∈ l' ↔ r = p ∨ r ∈ Function.update L q₀ ((L q₀).erase p) q) :
    Member t' ∧ ∀ r, r ≠ p → (t'.proc r).queue = (t.proc r).queue := by
  have hkeep : ∀ r, r ≠ p → (t'.proc r).queue = (t.proc r).queue := by
    intro r hr
    rw [hL₁.queue_update hL' (by simp [hl, hr]), hL.queue_update hL₁ (by simp [List.mem_erase_of_ne hr])]
  refine ⟨fun r => ?_, hkeep⟩
  rw [hcore.state r, hm r]
  by_cases hr : r = p
  · subst hr
    have hq : (t'.proc r).queue = some q := (hL'.mem q r).mp (by simp [hl])
    simp [hp, hq]
  · rw [hkeep r hr]

/-- Move a process in use to the back of a queue. -/
theorem relink (h : Inv t) (hp : (t.proc p).state ≠ .UNUSED) (q : QIdx) :
    ∃ t₁ t', erasequeue t (t.proc p).queue p = .ok t₁ ∧ pushqueue t₁ q p = .ok t' ∧ Inv t' ∧
      SameCore t t' ∧ ∀ r, r ≠ p → (t'.proc r).queue = (t.proc r).queue := by
  obtain ⟨⟨L, hL⟩, hm⟩ := h
  obtain ⟨q₀, hq₀⟩ := Option.ne_none_iff_exists'.mp (fun he => hp ((hm p).mpr he))
  obtain ⟨t₁, he, hL₁, hc₁, hn⟩ := erasequeue_linked hL hq₀
  obtain ⟨t', hpush, hL', hc'⟩ := pushqueue_linked (q := q) hL₁ hn
  obtain ⟨hm', hkeep⟩ := member_relinked hm hL hL₁ hL' hq₀ (hc₁.trans hc')
    (fun r => by simp [or_comm])
  exact ⟨t₁, t', hq₀ ▸ he, hpush, ⟨⟨_, hL'⟩, hm'⟩, hc₁.trans hc', hkeep⟩

/-- Move a process in use to the front of a queue. -/
theorem relinkFront (h : Inv t) (hp : (t.proc p).state ≠ .UNUSED) (q : QIdx) :
    ∃ t₁ t', erasequeue t (t.proc p).queue p = .ok t₁ ∧ pushfrontqueue t₁ q p = .ok t' ∧ Inv t' ∧
      SameCore t t' := by
  obtain ⟨⟨L, hL⟩, hm⟩ := h
  obtain ⟨q₀, hq₀⟩ := Option.ne_none_iff_exists'.mp (fun he => hp ((hm p).mpr he))
  obtain ⟨t₁, he, hL₁, hc₁, hn⟩ := erasequeue_linked hL hq₀
  obtain ⟨t', hpush, hL', hc'⟩ := pushfrontqueue_linked (q := q) hL₁ hn
  obtain ⟨hm', -⟩ := member_relinked hm hL hL₁ hL' hq₀ (hc₁.trans hc') (fun r => by simp)
  exact ⟨t₁, t', hq₀ ▸ he, hpush, ⟨⟨_, hL'⟩, hm'⟩, hc₁.trans hc'⟩

/-- `relink` as the code writes it. -/
theorem relink_safe (h : Inv t) (hp : (t.proc p).state ≠ .UNUSED) (q : QIdx) :
    Safe (fun t' => Inv t' ∧ SameCore t t' ∧ ∀ r, r ≠ p → (t'.proc r).queue = (t.proc r).queue)
      (erasequeue t (t.proc p).queue p >>= fun t => pushqueue t q p) := by
  obtain ⟨t₁, t', he, hpush, hi, hc, hk⟩ := relink h hp q
  rw [he]
  show Safe _ (pushqueue t₁ q p)
  rw [hpush]
  exact ⟨hi, hc, hk⟩

end Frame

/-! ## Each function keeps the invariant -/

section Functions

variable {t : Ptable} {p : Slot}

theorem pinit_inv : Inv pinit := by
  refine ⟨⟨fun _ => [], ?_⟩, fun p => by simp [pinit]⟩
  constructor <;> intros <;> simp_all [pinit, Lib.Seg]

theorem firstSlot_spec {f : Slot → Bool} (h : firstSlot f = some p) : f p = true := by
  simpa using List.find?_some h

theorem getProc_spec {pid : Int} (h : getProc t pid = some p) : (t.proc p).state ≠ .UNUSED := by
  have := firstSlot_spec h
  simp only [Bool.and_eq_true, bne_iff_ne] at this
  exact this.2

/-- The slot `allocproc` fills, before it is put on L0. -/
theorem embryo_linked {L : QIdx → List Slot} (hL : Linked t L) (hq : (t.proc p).queue = none)
    {f : Proc → Proc} (hf : ∀ x, (f x).queue = x.queue) (n : Int) :
    Linked { t.updProc p f with nextpid := n } L := by
  have hne : ∀ q, ∀ y ∈ L q, y ≠ p := fun q y hy he => hL.not_mem hq q (he ▸ hy)
  have hfq : ∀ r, ((t.updProc p f).proc r).queue = (t.proc r).queue := by
    intro r
    rw [Ptable.updProc_proc]
    split
    · exact hf _
    · rfl
  constructor
  · exact hL.front
  · exact hL.back
  · exact hL.qlevel
  · intro q
    refine Lib.seg_congr _ _ (fun y hy => ?_) (fun y hy => ?_) (hL.seg q)
    · simp [Ptable.next, hne q y hy]
    · simp [Ptable.prev, hne q y hy]
  · exact hL.nodup
  · intro q r
    rw [hL.mem]
    exact (hfq r ▸ Iff.rfl)
  · intro q r hr
    have hr' : (t.proc r).queue = some q := (hfq r).symm.trans hr
    have hrp : r ≠ p := by rintro rfl; rw [hq] at hr'; simp at hr'
    simpa [hrp] using hL.level q r hr'

theorem allocproc_safe (h : Inv t) :
    Safe (fun r : Option Slot × Ptable => Inv r.2 ∧
      ∀ p, r.1 = some p → (r.2.proc p).state = .EMBRYO) (allocproc t) := by
  unfold allocproc
  split
  · exact ⟨h, by simp⟩
  · next p hfree =>
    have hp : (t.proc p).state = .UNUSED := by simpa using firstSlot_spec hfree
    obtain ⟨⟨L, hL⟩, hm⟩ := h
    have hq : (t.proc p).queue = none := (hm p).mp hp
    have hu := embryo_linked hL hq (f := fun x =>
      { x with
        state := .EMBRYO, pid := t.nextpid, priority := 3
        next := none, prev := none, tq := 0 }) (fun _ => rfl) (t.nextpid + 1)
    obtain ⟨t', hpush, hL', hc⟩ := pushqueue_linked (q := 0) (n := p) hu (by simpa using hq)
    simp only
    rw [hpush]
    refine ⟨⟨⟨_, hL'⟩, fun r => ?_⟩, fun r hr => ?_⟩
    · show (t'.proc r).state = .UNUSED ↔ (t'.proc r).queue = none
      rw [hc.state r]
      by_cases hr : r = p
      · subst hr
        have : (t'.proc r).queue = some 0 := (hL'.mem 0 r).mp (by simp)
        simp [this]
      · rw [hu.queue_update hL' (by simp [hr])]
        simpa [hr] using hm r
    · cases hr
      show (t'.proc p).state = .EMBRYO
      rw [hc.state p]
      simp

theorem userinit_safe (h : Inv t) : Safe Inv (userinit t) := by
  refine Safe.bind (allocproc_safe h) ?_
  rintro ⟨_ | p, t₁⟩ ⟨h₁, hs⟩
  · trivial
  · have hp : (t₁.proc p).state = .EMBRYO := hs p rfl
    have h₂ : Inv { t₁ with initproc := p } := h₁.congr rfl (fun _ => rfl) (fun _ => Iff.rfl)
    exact h₂.updProc p (fun _ => rfl) (by simp [hp])

theorem wakeup1_inv (h : Inv t) (chan : Chan) : Inv (wakeup1 t chan) := by
  refine h.congr rfl (fun p => ?_) (fun p => ?_)
  · simp only [wakeup1]
    split <;> rfl
  · simp only [wakeup1]
    split
    · next hs => simp [hs.1]
    · rfl

theorem wakeupProc_inv (h : Inv t) (p : Option Slot) : Inv (wakeupProc t p) := by
  cases p with
  | none => exact h
  | some p => exact wakeup1_inv h _

theorem clearProc_safe (h : Inv t) (p : Slot) : Safe Inv (clearProc t p) := by
  unfold clearProc
  split
  · exact h
  · next hp =>
    have hu : Inv (t.updProc p (fun x => { x with priority := 3, tq := 0 })) :=
      h.updProc p (fun _ => rfl) Iff.rfl
    exact (relink_safe hu (by simpa using hp) 0).mono (fun _ h => h.1)

theorem schedulerUnlock_safe (h : Inv t) (p : Option Slot) (password : Int)
    (hp : ∀ r, p = some r → (t.proc r).state = .RUNNING) :
    Safe Inv (schedulerUnlock t p password) := by
  unfold schedulerUnlock
  split
  · cases p with
    | none => trivial
    | some r => exact h.updProc r (fun _ => rfl) Iff.rfl
  · split
    · exact h
    · cases p with
      | none => exact h.congr rfl (fun _ => rfl) (fun _ => Iff.rfl)
      | some r =>
        simp only
        split
        · exact h
        · obtain ⟨t₁, t', he, hpush, hi, -⟩ := relinkFront (p := r) h (by simp [hp r rfl]) 0
          simp only [he, hpush, bind, Except.bind]
          have hu : Inv (t'.updProc r (fun x => { x with priority := 3, tq := 0 })) :=
            hi.updProc r (fun _ => rfl) Iff.rfl
          exact hu.congr rfl (fun _ => rfl) (fun _ => Iff.rfl)

theorem boostPass_safe (h : Inv t) : Safe Inv (boostPass t) := by
  have hfold : ∀ (l : List Slot) (t : Ptable), Inv t → Safe Inv (l.foldlM clearProc t) := by
    intro l
    induction l with
    | nil => intro t h; exact h
    | cons p l ih =>
      intro t h
      rw [List.foldlM_cons]
      exact (clearProc_safe h p).bind ih
  exact hfold _ t h

theorem boostLoop_safe : ∀ (n : Nat) (t : Ptable), Inv t → Safe Inv (boostLoop n t) := by
  intro n
  induction n with
  | zero => intro t h; exact h
  | succ n ih => intro t h; exact (boostPass_safe h).bind ih

theorem boostPriority_safe (h : Inv t) : Safe Inv (boostPriority t) := by
  have h0 : Inv { t with ticks := 0 } := h.congr rfl (fun _ => rfl) (fun _ => Iff.rfl)
  refine Safe.bind (P := Inv) ?_ (boostLoop_safe NPROC)
  unfold boostUnlock
  split
  · exact h0
  · exact schedulerUnlock_safe h0 none PASSWORD (by simp)

/-- The walk along L0 or L1 ends, and what it finds is in use. -/
theorem firstRunnable_seg : ∀ (l : List Slot) (pv : Option Slot) (fuel : Nat), l.length ≤ fuel →
    Lib.Seg t.next t.prev pv l none → ∃ r, firstRunnable t fuel l.head? = some r ∧
      ∀ p, r = some p → (t.proc p).state = .RUNNABLE := by
  intro l
  induction l with
  | nil => intro pv fuel _ _; exact ⟨none, by cases fuel <;> rfl, by simp⟩
  | cons y ys ih =>
    intro pv fuel hf h
    cases fuel with
    | zero => simp at hf
    | succ k =>
      have hnext : t.next y = ys.head? := by simpa using h.2.1
      simp only [List.head?_cons, firstRunnable, hnext]
      split
      · next hs => exact ⟨some y, rfl, fun p hp => by cases hp; exact hs⟩
      · exact ih (some y) k (by simpa using hf) h.2.2

theorem leastPriority_seg : ∀ (l : List Slot) (pv : Option Slot) (fuel : Nat) (m : Int)
    (best : Option Slot), l.length ≤ fuel → Lib.Seg t.next t.prev pv l none →
    (∀ p, best = some p → (t.proc p).state = .RUNNABLE) →
    ∃ r, leastPriority t fuel l.head? m best = some r ∧
      ∀ p, r = some p → (t.proc p).state = .RUNNABLE := by
  intro l
  induction l with
  | nil => intro pv fuel m best _ _ hb; exact ⟨best, by cases fuel <;> rfl, hb⟩
  | cons y ys ih =>
    intro pv fuel m best hf h hb
    cases fuel with
    | zero => simp at hf
    | succ k =>
      have hnext : t.next y = ys.head? := by simpa using h.2.1
      have hk : ys.length ≤ k := by simpa using hf
      simp only [List.head?_cons, leastPriority, hnext]
      split
      · exact ih (some y) k m best hk h.2.2 hb
      · next hs =>
        have hs : (t.proc y).state = .RUNNABLE := by simpa using hs
        split
        · exact ih (some y) k _ _ hk h.2.2 (fun p hp => by cases hp; exact hs)
        · exact ih (some y) k m best hk h.2.2 hb

/-- The walks end, and what they find is RUNNABLE. -/
theorem Linked.pick {L : QIdx → List Slot} (h : Linked t L) :
    ∃ r, pickQueues t = .ok r ∧ ∀ p, r = some p → (t.proc p).state = .RUNNABLE := by
  obtain ⟨r₀, e₀, s₀⟩ := firstRunnable_seg (L 0) none NPROC (h.length_le 0) (h.seg 0)
  obtain ⟨r₁, e₁, s₁⟩ := firstRunnable_seg (L 1) none NPROC (h.length_le 1) (h.seg 1)
  obtain ⟨r₂, e₂, s₂⟩ := leastPriority_seg (L 2) none NPROC 4 none (h.length_le 2) (h.seg 2)
    (fun _ hp => by cases hp)
  simp only [pickQueues, frontqueue, h.front, e₀, e₁, e₂]
  cases r₀ with
  | some p => exact ⟨some p, rfl, s₀⟩
  | none =>
    cases r₁ with
    | some p => exact ⟨some p, rfl, s₁⟩
    | none => exact ⟨r₂, rfl, s₂⟩

theorem pickQueues_safe (h : Inv t) :
    Safe (fun r => ∀ p, r = some p → (t.proc p).state = .RUNNABLE) (pickQueues t) := by
  obtain ⟨⟨L, hL⟩, -⟩ := h
  obtain ⟨r, hr, hrun⟩ := hL.pick
  rw [hr]
  exact hrun

/-- What the scheduler needs of its choice: a RUNNABLE process of the table it
goes on with. -/
def PickOk (r : Option Slot × Ptable) : Prop :=
  Inv r.2 ∧ ∀ p, r.1 = some p → (r.2.proc p).state = .RUNNABLE

theorem getProcessToRun_safe (h : Inv t) : Safe PickOk (getProcessToRun t) := by
  unfold getProcessToRun
  split
  · exact (pickQueues_safe h).bind (fun r hr => ⟨h, hr⟩)
  · split
    · trivial
    · next p _ =>
      split
      · next hs => exact ⟨h, fun r hr => by cases hr; exact hs⟩
      · refine (schedulerUnlock_safe h none PASSWORD (by simp)).bind (fun t' h' => ?_)
        exact (pickQueues_safe h').bind (fun r hr => ⟨h', hr⟩)

/-- A process in use has the level of its queue. -/
theorem Inv.level (h : Inv t) {q : QIdx} (hq : (t.proc p).queue = some q) :
    (t.proc p).level = (q.val : Int) := by
  obtain ⟨⟨L, hL⟩, -⟩ := h
  exact hL.level q p hq

theorem Inv.queue (h : Inv t) (hp : (t.proc p).state ≠ .UNUSED) : ∃ q, (t.proc p).queue = some q :=
  Option.ne_none_iff_exists'.mp (fun he => hp ((h.2 p).mpr he))

/-- A process in use that is on the same queue before and after has the same
level before and after. -/
theorem level_same {t' : Ptable} (h : Inv t) (h' : Inv t') (hp : (t.proc p).state ≠ .UNUSED)
    (hq : (t'.proc p).queue = (t.proc p).queue) : (t'.proc p).level = (t.proc p).level := by
  obtain ⟨q, hk⟩ := h.queue hp
  rw [h.level hk, h'.level (hq.trans hk)]

/-- What expiring the quantum of `p` does: `p` starts a new quantum, and the
states and the quanta of the others stay as they are. -/
def Expired (t : Ptable) (p : Slot) (t' : Ptable) : Prop :=
  Inv t' ∧ (∀ r, (t'.proc r).state = (t.proc r).state) ∧ (t'.proc p).tq = 0 ∧
    ∀ r, r ≠ p → (t.proc r).state ≠ .UNUSED →
      (t'.proc r).tq = (t.proc r).tq ∧ (t'.proc r).level = (t.proc r).level

theorem expireTimeQuantum_safe (h : Inv t) (hp : (t.proc p).state ≠ .UNUSED) :
    Safe (Expired t p) (expireTimeQuantum t p) := by
  have hu : Inv (t.updProc p (fun x => { x with tq := 0 })) := h.updProc p (fun _ => rfl) Iff.rfl
  unfold expireTimeQuantum
  simp only
  split
  · split
    · trivial
    · next q hq =>
      by_cases hlt : q.val + 1 < NQUEUE
      · have := relink_safe (p := p) hu (by simpa using hp) ⟨q.val + 1, hlt⟩
        rw [hq] at this
        simp only [hlt, dite_true]
        refine this.mono (fun t' ⟨hi, hc, hk⟩ => ⟨hi, fun r => ?_, ?_, fun r hr hs => ⟨?_, ?_⟩⟩)
        · rw [hc.state r]; by_cases hr : r = p <;> simp [hr]
        · rw [hc.tq p]; simp
        · rw [hc.tq r]; simp [hr]
        · have := level_same hu hi (p := r) (by simpa [hr] using hs) (hk r hr)
          simpa [hr] using this
      · obtain ⟨t₁, t', he, -⟩ := relink (p := p) hu (by simpa using hp) 0
        rw [hq] at he
        rw [he]
        simp only [hlt, dite_false]
        trivial
  · split
    · refine ⟨hu, fun r => ?_, by simp, fun r hr _ => by simp [hr]⟩
      by_cases hr : r = p <;> simp [hr]
    · refine ⟨hu.updProc p (fun _ => rfl) Iff.rfl, fun r => ?_, by simp, fun r hr _ => by simp [hr]⟩
      by_cases hr : r = p <;> simp [hr]

/-- The RUNNABLE processes that have used up the quantum of their level. -/
def spent (t : Ptable) : Finset Slot :=
  Finset.univ.filter (fun p => (t.proc p).state = .RUNNABLE ∧
    (t.proc p).tq = getTimeQuantum (t.proc p).level)

/-- A process that starts a new quantum leaves `spent`, and none comes in when the others
stay as they are. -/
theorem spent_lt {t' : Ptable} (hp : p ∈ spent t)
    (hstate : ∀ r, (t'.proc r).state = (t.proc r).state) (hown : (t'.proc p).tq = 0)
    (hlevel : ∃ q : QIdx, (t'.proc p).level = (q.val : Int))
    (hother : ∀ r, r ≠ p → (t.proc r).state ≠ .UNUSED →
      (t'.proc r).tq = (t.proc r).tq ∧ (t'.proc r).level = (t.proc r).level) :
    (spent t').card < (spent t).card := by
  apply Finset.card_lt_card
  refine ⟨fun r hr => ?_, fun hsub => ?_⟩
  · have hr' := (Finset.mem_filter.mp hr).2
    by_cases hrp : r = p
    · exact hrp ▸ hp
    · have hst : (t.proc r).state = .RUNNABLE := by
        rw [← hstate r]
        exact hr'.1
      obtain ⟨e1, e2⟩ := hother r hrp (by simp [hst])
      rw [e1, e2] at hr'
      exact Finset.mem_filter.mpr ⟨Finset.mem_univ r, hst, hr'.2⟩
  · -- no level has a quantum of 0
    have hp' := (Finset.mem_filter.mp (hsub hp)).2.2
    obtain ⟨q, hq⟩ := hlevel
    rw [hown, hq, getTimeQuantum] at hp'
    omega

theorem expired_spent {t' : Ptable} (h : Expired t p t') (hp : p ∈ spent t) :
    (spent t').card < (spent t).card := by
  obtain ⟨hi, hs, hz, hoth⟩ := h
  apply spent_lt hp hs hz _ hoth
  have hrun : (t'.proc p).state = .RUNNABLE := by
    rw [hs p]
    exact (Finset.mem_filter.mp hp).2.1
  obtain ⟨q, hq⟩ := hi.queue (p := p) (by simp [hrun])
  exact ⟨q, hi.level hq⟩

/-- The states and quanta a choice of the scheduler leaves in place. -/
theorem getProcessToRun_spent {r : Option Slot × Ptable} (h : getProcessToRun t = .ok r) :
    r.2.proc = t.proc := by
  unfold getProcessToRun at h
  split at h
  · cases hk : pickQueues t with
    | error e => rw [hk] at h; cases h
    | ok v => rw [hk] at h; cases h; rfl
  · split at h
    · cases h
    · split at h
      · cases h; rfl
      · next hl _ _ _ _ =>
        simp only [schedulerUnlock, ne_eq, not_true_eq_false, if_false, hl, bind, Except.bind] at h
        split at h
        · cases h
        · cases h; rfl

theorem pickLoop_safe : ∀ (n : Nat) (t : Ptable), Inv t → (spent t).card < n →
    Safe PickOk (pickLoop n t) := by
  intro n
  induction n with
  | zero => intro t _ hc; simp at hc
  | succ n ih =>
    intro t h hc
    have hsafe := getProcessToRun_safe h
    simp only [pickLoop]
    cases hg : getProcessToRun t with
    | error e => rw [hg] at hsafe; exact hsafe
    | ok r =>
      obtain ⟨o, t₁⟩ := r
      rw [hg] at hsafe
      obtain ⟨h₁, hrun⟩ := hsafe
      have hproc : t₁.proc = t.proc := getProcessToRun_spent hg
      cases o with
      | none => exact ⟨h₁, by simp⟩
      | some p =>
        have hp : (t₁.proc p).state = .RUNNABLE := hrun p rfl
        show Safe PickOk (if _ then _ else _)
        split
        · next htq =>
          refine (expireTimeQuantum_safe (p := p) h₁ (by simp [hp])).bind (fun t₂ h₂ => ?_)
          have hmem : p ∈ spent t₁ := Finset.mem_filter.mpr ⟨Finset.mem_univ p, hp, htq⟩
          have hlt := expired_spent h₂ hmem
          have hsame : spent t₁ = spent t := by simp only [spent, hproc]
          rw [hsame] at hlt
          exact ih t₂ h₂.1 (by omega)
        · exact ⟨h₁, hrun⟩

theorem roundRobin_safe (h : Inv t) (hp : (t.proc p).state ≠ .UNUSED) :
    Safe (fun t' => Inv t' ∧ (t'.proc p).state = (t.proc p).state) (roundRobin t p) := by
  unfold roundRobin
  split
  · obtain ⟨q, hq⟩ := h.queue hp
    have := relink_safe h hp q
    rw [hq] at this
    simp only [hq]
    exact this.mono (fun t' ht' => ⟨ht'.1, ht'.2.1.state p⟩)
  · exact ⟨h, rfl⟩

theorem runProc_safe (h : Inv t) (hp : (t.proc p).state = .RUNNABLE) : Safe Inv (runProc t p) := by
  have hu : Inv (t.updProc p (fun x => { x with tq := x.tq + 1 })) := h.updProc p (fun _ => rfl) Iff.rfl
  refine (roundRobin_safe (p := p) hu (by simp [hp])).bind (fun t' h' => ?_)
  have hs : (t'.proc p).state = .RUNNABLE := by rw [h'.2]; simpa using hp
  exact h'.1.updProc p (fun _ => rfl) (by simp [hs])

theorem dispatch_safe (h : Inv t) : Safe Inv (dispatch t) := by
  have hcard : (spent t).card < NPROC + 1 := by
    have := Finset.card_le_univ (spent t)
    rw [Fintype.card_fin] at this
    omega
  refine (pickLoop_safe (NPROC + 1) t h hcard).bind ?_
  rintro ⟨_ | p, t'⟩ ⟨h', hp⟩
  · exact h'
  · exact runProc_safe h' (hp p rfl)

theorem setLevel_safe (h : Inv t) (pid level : Int) : Safe Inv (setLevel t pid level) := by
  unfold setLevel
  split
  · exact h
  · split
    · exact h
    · next p hp =>
      have hs := getProc_spec hp
      cases hq : queueAt level with
      | some q => exact (relink_safe h hs q).mono (fun _ h => h.1)
      | none =>
        obtain ⟨t₁, -, he, -⟩ := relink (p := p) h hs 0
        simp only [he]
        trivial

theorem reap_safe (h : Inv t) (hp : (t.proc p).state ≠ .UNUSED) : Safe Inv (reap t p) := by
  obtain ⟨q, hq⟩ := h.queue hp
  obtain ⟨⟨L, hL⟩, hm⟩ := h
  obtain ⟨t₁, he, hL₁, hc, hn⟩ := erasequeue_linked hL hq
  unfold reap
  rw [hq, he]
  refine ⟨⟨_, hL₁.congr rfl (fun r => ?_)⟩, fun r => ?_⟩
  · rw [Ptable.updProc_proc]
    split <;> rfl
  · by_cases hr : r = p
    · subst hr; simp [hn]
    · have hk := hL.queue_update (p := r) hL₁ (by simp [List.mem_erase_of_ne hr])
      simp only [Ptable.updProc_proc, if_neg hr, hk, hc.state r]
      exact hm r

theorem sleep_inv (h : Inv t) (hp : (t.proc p).state ≠ .UNUSED) (chan : Chan) :
    Inv (sleep t p chan) := h.updProc p (fun _ => rfl) (by simp [hp])

theorem wait_safe (h : Inv t) (hp : (t.proc p).state ≠ .UNUSED) : Safe Inv (wait t p) := by
  unfold wait
  split
  · next z hz =>
    have := firstSlot_spec hz
    simp only [Bool.and_eq_true, beq_iff_eq] at this
    exact reap_safe h (by simp [this.2])
  · split
    · exact h
    · exact sleep_inv h hp _

theorem reparent_inv (h : Inv t) (cur : Slot) : Inv (reparent t cur) := by
  refine h.congr rfl (fun p => ?_) (fun p => ?_)
  · simp only [reparent]
    split <;> rfl
  · simp only [reparent]
    split <;> rfl

theorem passChildren_inv (h : Inv t) (cur : Slot) : Inv (passChildren t cur) := by
  unfold passChildren
  split
  · exact wakeup1_inv (reparent_inv h cur) _
  · exact reparent_inv h cur

theorem passChildren_state (cur : Slot) (hp : (t.proc p).state = .RUNNING) :
    ((passChildren t cur).proc p).state = .RUNNING := by
  have hr : ((reparent t cur).proc p).state = .RUNNING := by
    simp only [reparent]
    split <;> exact hp
  unfold passChildren
  split
  · simp [wakeup1, hr]
  · exact hr

theorem exitTail_inv (h : Inv t) (hp : (t.proc p).state = .RUNNING) : Inv (exitTail t p) := by
  have hw : ((wakeupProc t (t.proc p).parent).proc p).state = .RUNNING := by
    cases (t.proc p).parent with
    | none => exact hp
    | some r => simp [wakeupProc, wakeup1, hp]
  refine (passChildren_inv (wakeupProc_inv h _) p).updProc p (fun _ => rfl) ?_
  simp [passChildren_state p hw]

theorem setPriority_inv (h : Inv t) (pid priority : Int) : Inv (setPriority t pid priority) := by
  unfold setPriority
  split
  · exact h
  · split
    · exact h
    · exact h.updProc _ (fun _ => rfl) Iff.rfl

theorem schedulerLock_inv (h : Inv t) (p : Slot) (password : Int) :
    Inv (schedulerLock t p password) := by
  unfold schedulerLock
  split
  · exact h.updProc p (fun _ => rfl) Iff.rfl
  · split
    · exact h.updProc p (fun _ => rfl) Iff.rfl
    · exact h.congr rfl (fun _ => rfl) (fun _ => Iff.rfl)

theorem kill_inv (h : Inv t) (pid : Int) : Inv (kill t pid) := by
  unfold kill
  split
  · exact h
  · next p _ =>
    refine h.updProc p (fun _ => rfl) ?_
    simp only
    split
    · next hs => simp [hs]
    · rfl

end Functions

/-! ## Whole runs -/

/-- The actions the invariant is about: a fork that was begun succeeds, and
`setLevel` is given the level of a queue. -/
def Act.Successful : Act → Prop
  | .forkFail _ => False
  | .setLevel _ level => 0 ≤ level ∧ level < NQUEUE
  | _ => True

theorem byProc_safe {t : Ptable} {cur : Slot} {r : Except Fault Ptable}
    (h : (t.proc cur).state = .RUNNING → Safe Inv r) : Safe Inv (byProc t cur r) := by
  unfold byProc
  split
  · next hs => exact h hs
  · trivial

theorem exec_safe {t : Ptable} (h : Inv t) (a : Act) (ha : a.Successful) : Safe Inv (exec t a) := by
  cases a with
  | userinit =>
    simp only [exec]
    split
    · exact userinit_safe h
    · trivial
  | allocproc cur =>
    refine byProc_safe (fun _ => ?_)
    have := allocproc_safe h
    cases hr : allocproc t with
    | error e => rw [hr] at this; exact this
    | ok r => rw [hr] at this; exact this.1
  | forkFinish cur np =>
    simp only [exec]
    split
    · next hs => exact byProc_safe (fun _ => h.updProc np (fun _ => rfl) (by simp [hs]))
    · trivial
  | forkFail np => exact absurd ha id
  | exitUnlock cur =>
    refine byProc_safe (fun hs => ?_)
    split
    · exact schedulerUnlock_safe h (some cur) PASSWORD (fun r hr => by cases hr; exact hs)
    · exact h
  | exitTail cur =>
    simp only [exec]
    split
    · simp [Safe, Fault.benign, queuePanics]
    · exact byProc_safe (fun hs => exitTail_inv h hs)
  | wait cur => exact byProc_safe (fun hs => wait_safe h (by simp [hs]))
  | dispatch => exact dispatch_safe h
  | expireTimeQuantum p =>
    simp only [exec]
    split
    · next hs => exact (expireTimeQuantum_safe h (by simp [hs])).mono (fun _ h => h.1)
    · trivial
  | boostPriority => exact boostPriority_safe h
  | unlockSched => exact schedulerUnlock_safe h none PASSWORD (by simp)
  | setPriority pid priority => exact setPriority_inv h pid priority
  | schedulerLock cur password => exact byProc_safe (fun _ => schedulerLock_inv h cur password)
  | schedulerUnlock cur password =>
    exact byProc_safe (fun hs => schedulerUnlock_safe h (some cur) password
      (fun r hr => by cases hr; exact hs))
  | setLevel pid level => exact setLevel_safe h pid level
  | sleep cur chan => exact byProc_safe (fun hs => sleep_inv h (by simp [hs]) chan)
  | wakeup chan => exact wakeup1_inv h chan
  | kill pid => exact kill_inv h pid
  | yield cur => exact byProc_safe (fun hs => h.updProc cur (fun _ => rfl) (by simp [hs]))

theorem run_member {as : List Act} {t : Ptable} (hs : ∀ a ∈ as, a.Successful)
    (hr : Lib.run step pinit as = some t) : Inv t := by
  refine Lib.run_inv (fun s a s' hi ha hstep => ?_) as pinit t pinit_inv
    (Lib.meets_of_forall as pinit hs) hr
  have := exec_safe hi a ha
  unfold step at hstep
  cases he : exec s a with
  | error e => rw [he] at hstep; cases hstep
  | ok u => rw [he] at hstep this; cases hstep; exact this

/-- The links of the table, read from both ends: following `next` from `front`
ends and gives the list of each queue, following `prev` from `back` gives its
reverse, the two fields undo each other, and the lists hold exactly the slots
in use, each once, as their `queue` and `level` say. -/
structure WellLinked (t : Ptable) (L : QIdx → List Slot) : Prop where
  forward : ∀ q, Lib.walk t.next NPROC (t.queue q).front = some (L q)
  backward : ∀ q, Lib.walk t.prev NPROC (t.queue q).back = some (L q).reverse
  nodup : ∀ q, (L q).Nodup
  prev_next : ∀ q, ∀ p ∈ L q, ∀ r, t.next p = some r → r ∈ L q ∧ t.prev r = some p
  next_prev : ∀ q, ∀ p ∈ L q, ∀ r, t.prev p = some r → r ∈ L q ∧ t.next r = some p
  used : ∀ p, (t.proc p).state ≠ .UNUSED → ∃ q, (t.proc p).queue = some q ∧
    (t.proc p).level = (q.val : Int) ∧ (L q).count p = 1 ∧ ∀ q', q' ≠ q → p ∉ L q'
  unused : ∀ p, (t.proc p).state = .UNUSED → (t.proc p).queue = none ∧ ∀ q, p ∉ L q

theorem Inv.wellLinked {t : Ptable} (h : Inv t) : ∃ L, WellLinked t L := by
  obtain ⟨⟨L, hL⟩, hm⟩ := h
  have hrev : ∀ q, Lib.Seg t.prev t.next none (L q).reverse none := fun q =>
    Lib.seg_reverse (L q) none (hL.seg q)
  refine ⟨L, ?_, ?_, hL.nodup, ?_, ?_, ?_, ?_⟩
  · intro q
    rw [hL.front]
    exact Lib.walk_seg (L q) none NPROC (hL.length_le q) (hL.seg q)
  · intro q
    have hlen : (L q).reverse.length ≤ NPROC := by simpa using hL.length_le q
    have := Lib.walk_seg (L q).reverse none NPROC hlen (hrev q)
    rwa [List.head?_reverse, ← hL.back] at this
  · intro q p hp r hr
    exact Lib.seg_next_prev (hL.seg q) hp hr
  · intro q p hp r hr
    have := Lib.seg_next_prev (hrev q) (by simpa using hp) hr
    simpa using this
  · intro p hp
    obtain ⟨q, hq⟩ := Option.ne_none_iff_exists'.mp (fun he => hp ((hm p).mpr he))
    have hmem := (hL.mem q p).mpr hq
    refine ⟨q, hq, hL.level q p hq, List.count_eq_one_of_mem (hL.nodup q) hmem, ?_⟩
    exact fun q' hq' hmem' => hq' (hL.mem_unique hmem' hmem)
  · intro p hp
    have hq := (hm p).mp hp
    exact ⟨hq, hL.not_mem hq⟩

/-- In every state a run of successful actions reaches, the queues are well
linked and hold exactly the slots in use, and no action runs into one of the
panics of `queue.c`. -/
theorem queues_hold_used_slots {as : List Act} {t : Ptable} (hs : ∀ a ∈ as, a.Successful)
    (hr : Lib.run step pinit as = some t) :
    (∃ L, WellLinked t L) ∧
      ∀ a : Act, a.Successful → ∀ m ∈ queuePanics, exec t a ≠ .error (.panic m) := by
  have hi := run_member hs hr
  refine ⟨hi.wellLinked, fun a ha m hm he => ?_⟩
  have := exec_safe hi a ha
  rw [he] at this
  exact this hm

/-- A run that forks, demotes, boosts, exits and reaps. -/
def forkAndReap : List Act :=
  [.userinit, .dispatch, .allocproc 0, .forkFinish 0 1, .setLevel 2 1, .schedulerLock 0 PASSWORD,
    .schedulerUnlock 0 PASSWORD, .yield 0, .dispatch, .wait 0, .dispatch, .boostPriority,
    .exitUnlock 1, .exitTail 1, .dispatch, .wait 0]

theorem queues_hold_used_slots_forkAndReap :
    ∃ t, Lib.run step pinit forkAndReap = some t ∧ ∃ L, WellLinked t L := by
  have h : (Lib.run step pinit forkAndReap).isSome = true := by decide +kernel
  have hr := (Option.some_get h).symm
  have hs : ∀ a ∈ forkAndReap, a.Successful := by
    simp [forkAndReap, Act.Successful]
  exact ⟨_, hr, (queues_hold_used_slots hs hr).1⟩

end Xv6.Mlfq
