import Xv6.Base
import Xv6.Lib.Chain

/- The multi-level queues of the MLFQ scheduler (`project1_scheduler/queue.c`).

   Every `struct proc` carries its own `prev`, `next`, `queue` and `level`
   fields, and a `struct queue` holds only the two ends, its level and a size.
   The four operations are modelled field write by field write, in the source's
   order and with its panics; a pointer that the source would follow without a
   test is a `nullDeref`, and a walk that does not end within `NPROC` nodes
   never ends (`loops`).

   `Linked t L` says that the queues of `t` represent the lists `L`. Each
   operation refines the list operation it is named after: `pushqueue_linked`,
   `pushfrontqueue_linked`, `popqueue_linked`, `erasequeue_linked`. None of
   their panics is reachable from a state that represents some lists and a
   process that is (or is not) on one. -/
namespace Xv6.Mlfq

abbrev NQUEUE : Nat := 3

/-- A `struct queue *` into `ptable.queue`. -/
abbrev QIdx := Fin NQUEUE

/-- What a process can sleep on: a process (`wait`) or any other address. -/
inductive Chan where
  | proc (p : Slot)
  | obj (n : Nat)
  deriving DecidableEq, Repr

/-- The fields of `struct proc` that scheduling reads or writes. -/
structure Proc where
  state : ProcState := .UNUSED
  pid : Int := 0
  parent : Option Slot := none
  chan : Option Chan := none
  killed : Bool := false
  level : Int := 0
  priority : Int := 0
  prev : Option Slot := none
  next : Option Slot := none
  tq : Int := 0
  queue : Option QIdx := none
  deriving DecidableEq, Repr

structure Queue where
  front : Option Slot := none
  back : Option Slot := none
  level : Int := 0
  size : Int := 0
  deriving DecidableEq, Repr

/-- The process table with its queues, and the globals scheduling uses. -/
structure Ptable where
  proc : Slot → Proc
  queue : QIdx → Queue
  lockpid : Int
  nextpid : Int
  ticks : Nat
  initproc : Slot

/-- How a call can fail to return. `disabled` marks an action that the caller
cannot take in this state at all. -/
inductive Fault where
  | panic (msg : String)
  | nullDeref
  | outOfBounds
  | loops
  | disabled
  deriving DecidableEq, Repr

namespace Ptable

def updProc (t : Ptable) (p : Slot) (f : Proc → Proc) : Ptable :=
  { t with proc := fun r => if r = p then f (t.proc r) else t.proc r }

def updQueue (t : Ptable) (q : QIdx) (f : Queue → Queue) : Ptable :=
  { t with queue := fun r => if r = q then f (t.queue r) else t.queue r }

@[simp] theorem updProc_proc (t : Ptable) (p r : Slot) (f : Proc → Proc) :
    (t.updProc p f).proc r = if r = p then f (t.proc r) else t.proc r := rfl

@[simp] theorem updProc_queue (t : Ptable) (p : Slot) (f : Proc → Proc) :
    (t.updProc p f).queue = t.queue := rfl

@[simp] theorem updQueue_queue (t : Ptable) (q r : QIdx) (f : Queue → Queue) :
    (t.updQueue q f).queue r = if r = q then f (t.queue r) else t.queue r := rfl

@[simp] theorem updQueue_proc (t : Ptable) (q : QIdx) (f : Queue → Queue) :
    (t.updQueue q f).proc = t.proc := rfl

def next (t : Ptable) (p : Slot) : Option Slot := (t.proc p).next
def prev (t : Ptable) (p : Slot) : Option Slot := (t.proc p).prev

/-- `p->prev = p->next = NULL`. -/
def clearLinks (t : Ptable) (p : Slot) : Ptable :=
  t.updProc p (fun x => { x with prev := none, next := none })

end Ptable

/-! ## queue.c -/

def frontqueue (t : Ptable) (q : QIdx) : Option Slot := (t.queue q).front

/-- The search loop of `erasequeue`: is `p` met on the way along `next`?
`none` when the walk never ends. -/
def found (t : Ptable) (p : Slot) : Nat → Option Slot → Option Bool
  | _, none => some false
  | 0, some _ => none
  | n + 1, some pp => if pp = p then some true else found t p n (t.next pp)

/-- The branches of `erasequeue` after the search, from the test of a single
element on. -/
def unlink (t : Ptable) (q : QIdx) (p : Slot) : Except Fault Ptable :=
  if (t.queue q).front = (t.queue q).back then
    .ok ((t.updQueue q (fun x => { x with front := none, back := none })).clearLinks p)
  else if (t.queue q).front = some p then
    match t.next p with
    | none => .error .nullDeref
    | some nx =>
      .ok (((t.updQueue q (fun x => { x with front := some nx })).updProc nx
        (fun x => { x with prev := none })).clearLinks p)
  else if (t.queue q).back = some p then
    match t.prev p with
    | none => .error .nullDeref
    | some pv =>
      .ok (((t.updQueue q (fun x => { x with back := some pv })).updProc pv
        (fun x => { x with next := none })).clearLinks p)
  else
    match t.prev p, t.next p with
    | some pv, some nx =>
      .ok (((t.updProc pv (fun x => { x with next := some nx })).updProc nx
        (fun x => { x with prev := some pv })).clearLinks p)
    | _, _ => .error (.panic "should have prev and next\n")

def erasequeue (t : Ptable) (q : Option QIdx) (p : Slot) : Except Fault Ptable :=
  if (t.proc p).queue ≠ q then .error (.panic "erasequeue:")
  else match q with
    | none => .ok t
    | some q =>
      match found t p NPROC (frontqueue t q) with
      | none => .error .loops
      | some false => .error (.panic "not in queue\n")
      | some true =>
        unlink ((t.updProc p (fun x => { x with queue := none, level := -1 })).updQueue q
          (fun x => { x with size := x.size - 1 })) q p

def pushqueue (t : Ptable) (q : QIdx) (n : Slot) : Except Fault Ptable :=
  if (t.proc n).queue.isSome then .error (.panic "pushqueue")
  else
    let t := (t.updProc n (fun x => { x with queue := some q, level := (t.queue q).level })).updQueue
      q (fun x => { x with size := x.size + 1 })
    let t := t.updProc n (fun x => { x with prev := (t.queue q).back })
    match (t.queue q).back with
    | none =>
      .ok ((t.updQueue q (fun x => { x with front := some n, back := some n })).clearLinks n)
    | some u =>
      .ok (((t.updProc u (fun x => { x with next := some n })).updProc n
        (fun x => { x with next := none })).updQueue q (fun x => { x with back := some n }))

def popqueue (t : Ptable) (q : QIdx) : Except Fault (Option Slot × Ptable) :=
  match (t.queue q).front with
  | none => .ok (none, t)
  | some ret =>
    let t := (t.updProc ret (fun x => { x with queue := none, level := -1 })).updQueue q
      (fun x => { x with size := x.size - 1 })
    if (t.queue q).front = (t.queue q).back then
      .ok (some ret, (t.updQueue q (fun x => { x with front := none, back := none })).clearLinks ret)
    else
      match t.next ret with
      | none => .error .nullDeref
      | some nx =>
        .ok (some ret, ((t.updQueue q (fun x => { x with front := some nx })).updProc nx
          (fun x => { x with prev := none })).clearLinks ret)

def pushfrontqueue (t : Ptable) (q : QIdx) (p : Slot) : Except Fault Ptable :=
  if (t.proc p).queue.isSome then .error (.panic "pushfrontqueue")
  else
    let t := t.updProc p (fun x => { x with queue := some q, level := (t.queue q).level })
    match (t.queue q).front with
    | none =>
      -- the source returns here before `++q->size`
      .ok ((t.updQueue q (fun x => { x with front := some p, back := some p })).clearLinks p)
    | some f =>
      let t := t.updQueue q (fun x => { x with size := x.size + 1 })
      if (t.queue q).front = (t.queue q).back then
        .ok (((t.updQueue q (fun x => { x with front := some p })).updProc f
          (fun x => { x with prev := some p, next := none })).updProc p
          (fun x => { x with next := some f, prev := none }))
      else
        .ok (((t.updProc p (fun x => { x with prev := none, next := some f })).updQueue q
          (fun x => { x with front := some p })).updProc f (fun x => { x with prev := some p }))

/-! ## The lists the queues represent -/

/-- The queues of `t` represent the lists `L`: each queue's ends and links are
those of its list, and a process is on a list exactly when its `queue` field
says so, with the level of that queue. -/
structure Linked (t : Ptable) (L : QIdx → List Slot) : Prop where
  front : ∀ q, (t.queue q).front = (L q).head?
  back : ∀ q, (t.queue q).back = (L q).getLast?
  qlevel : ∀ q, (t.queue q).level = (q.val : Int)
  seg : ∀ q, Lib.Seg t.next t.prev none (L q) none
  nodup : ∀ q, (L q).Nodup
  mem : ∀ q p, p ∈ L q ↔ (t.proc p).queue = some q
  level : ∀ q p, (t.proc p).queue = some q → (t.proc p).level = (q.val : Int)

/-- The fields of a process that no queue operation writes. -/
def Proc.core (x : Proc) : ProcState × Int × Option Slot × Option Chan × Bool × Int × Int :=
  (x.state, x.pid, x.parent, x.chan, x.killed, x.priority, x.tq)

/-- `t'` differs from `t` in queue links only. -/
structure SameCore (t t' : Ptable) : Prop where
  core : ∀ p, (t'.proc p).core = (t.proc p).core
  lockpid : t'.lockpid = t.lockpid
  nextpid : t'.nextpid = t.nextpid
  ticks : t'.ticks = t.ticks
  initproc : t'.initproc = t.initproc

theorem SameCore.refl (t : Ptable) : SameCore t t := ⟨fun _ => rfl, rfl, rfl, rfl, rfl⟩

theorem SameCore.trans {t u v : Ptable} (h : SameCore t u) (h' : SameCore u v) : SameCore t v :=
  ⟨fun p => (h'.core p).trans (h.core p), h'.lockpid.trans h.lockpid, h'.nextpid.trans h.nextpid,
    h'.ticks.trans h.ticks, h'.initproc.trans h.initproc⟩

theorem SameCore.updProc {t u : Ptable} (h : SameCore t u) (p : Slot) {f : Proc → Proc}
    (hf : ∀ x, (f x).core = x.core) : SameCore t (u.updProc p f) := by
  refine ⟨fun r => ?_, h.lockpid, h.nextpid, h.ticks, h.initproc⟩
  rw [Ptable.updProc_proc]
  split
  · rw [hf]; exact h.core r
  · exact h.core r

theorem SameCore.updQueue {t u : Ptable} (h : SameCore t u) (q : QIdx) (f : Queue → Queue) :
    SameCore t (u.updQueue q f) := ⟨h.core, h.lockpid, h.nextpid, h.ticks, h.initproc⟩

/-- `t'` differs from `t` in `prev` and `next` and in the queue ends only. -/
structure LinksOnly (t t' : Ptable) : Prop extends SameCore t t' where
  queue : ∀ p, (t'.proc p).queue = (t.proc p).queue
  level : ∀ p, (t'.proc p).level = (t.proc p).level

theorem LinksOnly.refl (t : Ptable) : LinksOnly t t := ⟨.refl t, fun _ => rfl, fun _ => rfl⟩

theorem LinksOnly.updProc {t u : Ptable} (h : LinksOnly t u) (p : Slot) {f : Proc → Proc}
    (hf : ∀ x, (f x).core = x.core) (hq : ∀ x, (f x).queue = x.queue)
    (hl : ∀ x, (f x).level = x.level) : LinksOnly t (u.updProc p f) := by
  refine ⟨h.toSameCore.updProc p hf, fun r => ?_, fun r => ?_⟩
  · rw [Ptable.updProc_proc]
    split
    · rw [hq]; exact h.queue r
    · exact h.queue r
  · rw [Ptable.updProc_proc]
    split
    · rw [hl]; exact h.level r
    · exact h.level r

theorem LinksOnly.updQueue {t u : Ptable} (h : LinksOnly t u) (q : QIdx) (f : Queue → Queue) :
    LinksOnly t (u.updQueue q f) := ⟨h.toSameCore.updQueue q f, h.queue, h.level⟩

theorem LinksOnly.clearLinks {t u : Ptable} (h : LinksOnly t u) (p : Slot) :
    LinksOnly t (u.clearLinks p) :=
  h.updProc p (fun _ => rfl) (fun _ => rfl) (fun _ => rfl)

theorem SameCore.state {t t' : Ptable} (h : SameCore t t') (p : Slot) :
    (t'.proc p).state = (t.proc p).state := by
  have := h.core p
  simp only [Proc.core, Prod.mk.injEq] at this
  exact this.1

theorem SameCore.tq {t t' : Ptable} (h : SameCore t t') (p : Slot) :
    (t'.proc p).tq = (t.proc p).tq := by
  have := h.core p
  simp only [Proc.core, Prod.mk.injEq] at this
  exact this.2.2.2.2.2.2

namespace Linked

variable {t t' : Ptable} {L : QIdx → List Slot} {q : QIdx} {p n : Slot}

theorem mem_unique {q' : QIdx} (h : Linked t L) (h₁ : p ∈ L q) (h₂ : p ∈ L q') : q = q' := by
  have e₁ := (h.mem q p).mp h₁
  have e₂ := (h.mem q' p).mp h₂
  rw [e₁] at e₂
  exact Option.some.inj e₂

/-- A queue that holds `p` splits around it. -/
theorem split (h : Linked t L) (hq : (t.proc p).queue = some q) : ∃ a b, L q = a ++ p :: b :=
  List.append_of_mem ((h.mem q p).mpr hq)

/-- Rebuild the representation after an operation on queue `q` alone: the
other lists' nodes are untouched, and `q` now represents `l'`. -/
theorem replace (h : Linked t L) (q : QIdx) (l' : List Slot)
    (hqueue : ∀ q', q' ≠ q → t'.queue q' = t.queue q')
    (hfront : (t'.queue q).front = l'.head?) (hback : (t'.queue q).back = l'.getLast?)
    (hlev : (t'.queue q).level = (t.queue q).level)
    (hseg : Lib.Seg t'.next t'.prev none l' none) (hnd : l'.Nodup)
    (hsame : ∀ q', q' ≠ q → ∀ r ∈ L q', t'.proc r = t.proc r)
    (hnew : ∀ q', q' ≠ q → ∀ r, (t'.proc r).queue = some q' → r ∈ L q')
    (hmem : ∀ r, r ∈ l' ↔ (t'.proc r).queue = some q)
    (hlevel : ∀ r, (t'.proc r).queue = some q → (t'.proc r).level = (q.val : Int)) :
    Linked t' (Function.update L q l') := by
  constructor
  · intro q'
    by_cases hq : q' = q
    · subst hq; simpa using hfront
    · rw [Function.update_of_ne hq, hqueue q' hq]; exact h.front q'
  · intro q'
    by_cases hq : q' = q
    · subst hq; simpa using hback
    · rw [Function.update_of_ne hq, hqueue q' hq]; exact h.back q'
  · intro q'
    by_cases hq : q' = q
    · subst hq; rw [hlev]; exact h.qlevel q'
    · rw [hqueue q' hq]; exact h.qlevel q'
  · intro q'
    by_cases hq : q' = q
    · subst hq; simpa using hseg
    · rw [Function.update_of_ne hq]
      refine Lib.seg_congr _ _ (fun y hy => ?_) (fun y hy => ?_) (h.seg q')
      · simp only [Ptable.next, hsame q' hq y hy]
      · simp only [Ptable.prev, hsame q' hq y hy]
  · intro q'
    by_cases hq : q' = q
    · subst hq; simpa using hnd
    · rw [Function.update_of_ne hq]; exact h.nodup q'
  · intro q' r
    by_cases hq : q' = q
    · subst hq; simpa using hmem r
    · rw [Function.update_of_ne hq]
      refine ⟨fun hr => ?_, hnew q' hq r⟩
      rw [hsame q' hq r hr]
      exact (h.mem q' r).mp hr
  · intro q' r hr
    by_cases hq : q' = q
    · subst hq; exact hlevel r hr
    · have hmemr := hnew q' hq r hr
      rw [hsame q' hq r hmemr]
      exact h.level q' r ((h.mem q' r).mp hmemr)

theorem not_mem (h : Linked t L) (hn : (t.proc n).queue = none) (q : QIdx) : n ∉ L q := by
  intro hm
  have := (h.mem q n).mp hm
  rw [hn] at this
  simp at this

theorem length_le (h : Linked t L) (q : QIdx) : (L q).length ≤ NPROC := by
  have := List.Nodup.length_le_card (h.nodup q)
  rwa [Fintype.card_fin] at this

/-- A process whose membership does not change keeps its `queue` field. -/
theorem queue_update {l' : List Slot} (h : Linked t L) (h' : Linked t' (Function.update L q l'))
    (hm : p ∈ l' ↔ p ∈ L q) : (t'.proc p).queue = (t.proc p).queue := by
  have hiff : ∀ k, (t'.proc p).queue = some k ↔ (t.proc p).queue = some k := by
    intro k
    rw [← h'.mem k p, ← h.mem k p]
    by_cases hk : k = q
    · subst hk; simpa using hm
    · simp [hk]
  cases hq : (t.proc p).queue with
  | some k => exact (hiff k).mpr hq
  | none =>
    cases hq' : (t'.proc p).queue with
    | none => rfl
    | some k => have := (hiff k).mp hq'; rw [hq] at this; simp at this

/-- Two processes on different queues are different. -/
theorem ne_of_mem {r : Slot} {q' : QIdx} (h : Linked t L) (hp : p ∈ L q) (hr : r ∈ L q')
    (hq : q' ≠ q) : r ≠ p := by
  rintro rfl
  exact hq (h.mem_unique hr hp)

end Linked

/-! ## pushqueue and pushfrontqueue -/

section Ops

variable {t t' : Ptable} {L : QIdx → List Slot} {q : QIdx} {p n : Slot}

theorem pushqueue_linked (h : Linked t L) (hn : (t.proc n).queue = none) :
    ∃ t', pushqueue t q n = .ok t' ∧ Linked t' (Function.update L q (L q ++ [n])) ∧
      SameCore t t' := by
  have hnot := h.not_mem hn
  have hnd : (L q ++ [n]).Nodup := by
    rw [List.nodup_append]
    refine ⟨h.nodup q, by simp, fun a ha b hb => ?_⟩
    simp only [List.mem_singleton] at hb
    rintro rfl
    exact hnot q (hb ▸ ha)
  cases hb : (t.queue q).back with
  | none =>
    have hnil : L q = [] := by
      have := h.back q
      rw [hb] at this
      exact List.getLast?_eq_none_iff.mp this.symm
    refine ⟨_, by simp [pushqueue, hn, hb]; rfl, ?_, ?_⟩
    · refine h.replace q _ ?_ ?_ ?_ ?_ ?_ hnd ?_ ?_ ?_ ?_
      · intro q' hq; simp [Ptable.clearLinks, hq]
      · simp [Ptable.clearLinks, hnil]
      · simp [Ptable.clearLinks, hnil]
      · simp [Ptable.clearLinks]
      · simp [hnil, Lib.Seg, Ptable.next, Ptable.prev, Ptable.clearLinks]
      · intro q' _ r hr
        have : r ≠ n := fun he => hnot q' (he ▸ hr)
        simp [Ptable.clearLinks, this]
      · intro q' hq r hr
        by_cases hrn : r = n
        · subst hrn; simp [Ptable.clearLinks] at hr; exact absurd hr.symm hq
        · simp [Ptable.clearLinks, hrn] at hr; exact (h.mem q' r).mpr hr
      · intro r
        by_cases hrn : r = n
        · subst hrn; simp [Ptable.clearLinks]
        · simp [Ptable.clearLinks, hrn, h.mem]
      · intro r hr
        by_cases hrn : r = n
        · subst hrn; simp [Ptable.clearLinks, h.qlevel]
        · simp [Ptable.clearLinks, hrn] at hr ⊢; exact h.level q r hr
    · exact .updProc (.updQueue (.updProc (.updQueue (.updProc (.refl t) n fun _ => by rfl) q _) n
        fun _ => by rfl) q _) n fun _ => by rfl
  | some u =>
    have hlast : (L q).getLast? = some u := by rw [← h.back q, hb]
    have humem : u ∈ L q := List.mem_of_getLast? hlast
    have hun : u ≠ n := fun he => hnot q (he ▸ humem)
    refine ⟨_, by simp [pushqueue, hn, hb]; rfl, ?_, ?_⟩
    · refine h.replace q _ ?_ ?_ ?_ ?_ ?_ hnd ?_ ?_ ?_ ?_
      · intro q' hq; simp [hq]
      · cases hl : L q with
        | nil => rw [hl] at humem; simp at humem
        | cons y ys => simp [h.front, hl]
      · simp
      · simp
      · refine Lib.seg_push_back (h.seg q) ?_ ?_ ?_ ?_ ?_ (h.nodup q)
        · intro y hy hyl
          have hyn : y ≠ n := fun he => hnot q (he ▸ hy)
          have hyu : y ≠ u := fun he => hyl (he ▸ hlast)
          simp [Ptable.next, hyn, hyu]
        · intro y hyl
          rw [hlast] at hyl
          cases hyl
          simp [Ptable.next, hun]
        · intro y hy
          have hyn : y ≠ n := fun he => hnot q (he ▸ hy)
          by_cases hyu : y = u <;> simp [Ptable.prev, hyn, hyu, hun]
        · simp [Ptable.prev, hun.symm, hlast]
        · simp [Ptable.next]
      · intro q' hq r hr
        have hrn : r ≠ n := fun he => hnot q' (he ▸ hr)
        have hru : r ≠ u := h.ne_of_mem humem hr hq
        simp [hrn, hru]
      · intro q' hq r hr
        by_cases hrn : r = n
        · subst hrn; simp [hun.symm] at hr; exact absurd hr.symm hq
        · by_cases hru : r = u <;> simp [hrn, hru, hun] at hr <;> exact (h.mem q' _).mpr (by simpa [hru] using hr)
      · intro r
        by_cases hrn : r = n
        · subst hrn; simp [hun.symm]
        · by_cases hru : r = u <;> simp [hrn, hru, hun, h.mem]
      · intro r hr
        by_cases hrn : r = n
        · subst hrn; simp [hun.symm, h.qlevel]
        · by_cases hru : r = u <;> simp [hrn, hru, hun] at hr ⊢ <;> exact h.level q _ hr
    · exact .updQueue (.updProc (.updProc (.updProc (.updQueue (.updProc (.refl t) n fun _ => by rfl)
        q _) n fun _ => by rfl) u fun _ => by rfl) n fun _ => by rfl) q _

theorem pushfrontqueue_linked (h : Linked t L) (hn : (t.proc n).queue = none) :
    ∃ t', pushfrontqueue t q n = .ok t' ∧ Linked t' (Function.update L q (n :: L q)) ∧
      SameCore t t' := by
  have hnot := h.not_mem hn
  have hnd : (n :: L q).Nodup := List.nodup_cons.mpr ⟨hnot q, h.nodup q⟩
  cases hf : (t.queue q).front with
  | none =>
    have hnil : L q = [] := by
      have := h.front q
      rw [hf] at this
      exact List.head?_eq_none_iff.mp this.symm
    refine ⟨_, by simp [pushfrontqueue, hn, hf]; rfl, ?_, ?_⟩
    · refine h.replace q _ ?_ ?_ ?_ ?_ ?_ hnd ?_ ?_ ?_ ?_
      · intro q' hq; simp [Ptable.clearLinks, hq]
      · simp [Ptable.clearLinks]
      · simp [Ptable.clearLinks, hnil]
      · simp [Ptable.clearLinks]
      · simp [hnil, Lib.Seg, Ptable.next, Ptable.prev, Ptable.clearLinks]
      · intro q' _ r hr
        have : r ≠ n := fun he => hnot q' (he ▸ hr)
        simp [Ptable.clearLinks, this]
      · intro q' hq r hr
        by_cases hrn : r = n
        · subst hrn; simp [Ptable.clearLinks] at hr; exact absurd hr.symm hq
        · simp [Ptable.clearLinks, hrn] at hr; exact (h.mem q' r).mpr hr
      · intro r
        by_cases hrn : r = n
        · subst hrn; simp [Ptable.clearLinks]
        · simp [Ptable.clearLinks, hrn, h.mem]
      · intro r hr
        by_cases hrn : r = n
        · subst hrn; simp [Ptable.clearLinks, h.qlevel]
        · simp [Ptable.clearLinks, hrn] at hr ⊢; exact h.level q r hr
    · exact .updProc (.updQueue (.updProc (.refl t) n fun _ => by rfl) q _) n fun _ => by rfl
  | some f =>
    have hhead : (L q).head? = some f := by rw [← h.front q, hf]
    have hfmem : f ∈ L q := List.mem_of_mem_head? hhead
    have hfn : f ≠ n := fun he => hnot q (he ▸ hfmem)
    have hback : (t.queue q).back = (n :: L q).getLast? := by
      rw [h.back q, List.getLast?_cons]
      cases hl : (L q).getLast? with
      | none => rw [List.getLast?_eq_none_iff] at hl; rw [hl] at hfmem; simp at hfmem
      | some u => simp
    -- a single element has no successor, so both branches write the same links
    have hone : some f = (t.queue q).back → t.next f = none := by
      intro he
      rw [h.back q] at he
      obtain ⟨as, has⟩ := List.getLast?_eq_some_iff.mp he.symm
      exact (Lib.seg_mid (b := []) (has ▸ h.seg q)).2
    have hboth : ∃ t', pushfrontqueue t q n = .ok t' ∧
        (∀ q', q' ≠ q → t'.queue q' = t.queue q') ∧ (t'.queue q).front = some n ∧
        (t'.queue q).back = (t.queue q).back ∧ (t'.queue q).level = (t.queue q).level ∧
        ((t'.proc n).queue = some q ∧ (t'.proc n).level = (t.queue q).level ∧
          t'.prev n = none ∧ t'.next n = some f) ∧
        t'.proc f = { t.proc f with prev := some n } ∧
        (∀ r, r ≠ n → r ≠ f → t'.proc r = t.proc r) ∧ SameCore t t' := by
      by_cases he : some f = (t.queue q).back
      · have hnf : (t.proc f).next = none := hone he
        refine ⟨_, by simp only [pushfrontqueue, hn]; simp [hf, ← he]; rfl, ?_⟩
        refine ⟨fun q' hq => by simp [hq], by simp, by simp, by simp,
          by simp [Ptable.prev, Ptable.next, hfn.symm], by simp [hfn, hnf], fun r h1 h2 => by simp [h1, h2], ?_⟩
        exact .updProc (.updProc (.updQueue (.updQueue (.updProc (.refl t) n fun _ => by rfl) q _) q _) f
          fun _ => by rfl) n fun _ => by rfl
      · refine ⟨_, by simp [pushfrontqueue, hn, hf, he]; rfl, ?_⟩
        refine ⟨fun q' hq => by simp [hq], by simp, by simp, by simp,
          by simp [Ptable.prev, Ptable.next, hfn.symm], by simp [hfn],
          fun r h1 h2 => by simp [h1, h2], ?_⟩
        exact .updProc (.updQueue (.updProc (.updQueue (.updProc (.refl t) n fun _ => by rfl) q _) n
          fun _ => by rfl) q _) f fun _ => by rfl
    obtain ⟨t', hres, hoq, hfr, hbk, hlv, ⟨hnq, hnl, hnp, hnn⟩, hpf, hoth, hcore⟩ := hboth
    refine ⟨t', hres, ?_, hcore⟩
    have hrest : ∀ r, r ≠ n → (t'.proc r).queue = (t.proc r).queue ∧
        (t'.proc r).level = (t.proc r).level ∧ (t'.proc r).next = (t.proc r).next := by
      intro r hrn
      by_cases hrf : r = f
      · subst hrf; simp [hpf]
      · simp [hoth r hrn hrf]
    refine h.replace q _ hoq (by simp [hfr]) (hbk.trans hback) hlv ?_ hnd ?_ ?_ ?_ ?_
    · refine Lib.seg_push_front (h.seg q) ?_ ?_ ?_ ?_ ?_ (h.nodup q)
      · intro y hy hyl
        have hyn : y ≠ n := fun he => hnot q (he ▸ hy)
        have hyf : y ≠ f := fun he => hyl (he ▸ hhead)
        simp [Ptable.prev, hoth y hyn hyf]
      · intro y hyl
        rw [hhead] at hyl
        cases hyl
        simp [Ptable.prev, hpf]
      · intro y hy
        exact (hrest y (fun he => hnot q (he ▸ hy))).2.2
      · rw [hnn, hhead]
      · exact hnp
    · intro q' hq r hr
      exact hoth r (fun he => hnot q' (he ▸ hr)) (h.ne_of_mem hfmem hr hq)
    · intro q' hq r hr
      by_cases hrn : r = n
      · subst hrn; rw [hnq] at hr; exact absurd (Option.some.inj hr).symm hq
      · rw [(hrest r hrn).1] at hr; exact (h.mem q' r).mpr hr
    · intro r
      by_cases hrn : r = n
      · subst hrn; simp [hnq]
      · simp [hrn, (hrest r hrn).1, h.mem]
    · intro r hr
      by_cases hrn : r = n
      · subst hrn; rw [hnl]; exact h.qlevel q
      · rw [(hrest r hrn).1] at hr; rw [(hrest r hrn).2.1]; exact h.level q r hr

/-! ## erasequeue and popqueue -/

theorem found_seg : ∀ (l : List Slot) (pv : Option Slot) (fuel : Nat), l.length ≤ fuel →
    Lib.Seg t.next t.prev pv l none → p ∈ l → found t p fuel l.head? = some true := by
  intro l
  induction l with
  | nil => intro pv fuel _ _ hp; simp at hp
  | cons y ys ih =>
    intro pv fuel hf h hp
    cases fuel with
    | zero => simp at hf
    | succ k =>
      have hnext : t.next y = ys.head? := by simpa using h.2.1
      simp only [List.head?_cons, found]
      split
      · rfl
      · next hne =>
        rw [hnext]
        refine ih (some y) k (by simpa using hf) h.2.2 ?_
        rcases List.mem_cons.mp hp with he | hm
        · exact absurd he.symm hne
        · exact hm

/-- What the unlinking branches do to a queue that represents `a ++ p :: b`:
the queue then represents `a ++ b`, and only links of its members change. -/
theorem unlink_seg {a b : List Slot} (hseg : Lib.Seg t.next t.prev none (a ++ p :: b) none)
    (hnd : (a ++ p :: b).Nodup) (hfront : (t.queue q).front = (a ++ p :: b).head?)
    (hback : (t.queue q).back = (a ++ p :: b).getLast?) :
    ∃ t', unlink t q p = .ok t' ∧ (∀ q', q' ≠ q → t'.queue q' = t.queue q') ∧
      (t'.queue q).front = (a ++ b).head? ∧ (t'.queue q).back = (a ++ b).getLast? ∧
      (t'.queue q).level = (t.queue q).level ∧ Lib.Seg t'.next t'.prev none (a ++ b) none ∧
      (∀ r, r ∉ a ++ p :: b → t'.proc r = t.proc r) ∧ LinksOnly t t' := by
  obtain ⟨hprev, hnext⟩ := Lib.seg_mid hseg
  obtain ⟨hda, hdb, hdis⟩ := List.nodup_append.mp hnd
  have hpa : p ∉ a := fun hm => hdis p hm p (by simp) rfl
  have hpb : p ∉ b := (List.nodup_cons.mp hdb).1
  rcases List.eq_nil_or_concat a with rfl | ⟨as, u, rfl⟩
  · cases b with
    | nil =>
      -- the only element
      refine ⟨_, by simp [unlink, hfront, hback]; rfl, ?_⟩
      refine ⟨fun q' hq => by simp [Ptable.clearLinks, hq], by simp [Ptable.clearLinks],
        by simp [Ptable.clearLinks], by simp [Ptable.clearLinks], trivial, ?_, ?_⟩
      · intro r hr
        have : r ≠ p := by simpa using hr
        simp [Ptable.clearLinks, this]
      · exact ((LinksOnly.refl t).updQueue q _).clearLinks p
    | cons v bs =>
      -- the first of several
      have hpv : v ≠ p := fun he => hpb (by simp [he])
      have hne : ¬ (t.queue q).front = (t.queue q).back := by
        rw [hfront, hback]
        intro he
        have hlast : (p :: v :: bs).getLast? = some p := by simpa using he.symm
        rw [List.getLast?_cons_cons] at hlast
        exact hpb (List.mem_of_getLast? hlast)
      have hnx : t.next p = some v := by simpa using hnext
      refine ⟨_, by simp only [unlink, hne, if_false]; simp [hfront, hnx]; rfl, ?_⟩
      refine ⟨fun q' hq => by simp [Ptable.clearLinks, hq], by simp [Ptable.clearLinks],
        by simp [Ptable.clearLinks, hback], by simp [Ptable.clearLinks], ?_, ?_, ?_⟩
      · refine Lib.seg_unlink hseg hnd ?_ (by simp) ?_ ?_
        · intro y hy _
          have hyp : y ≠ p := fun he => hpb (he ▸ hy)
          by_cases hyv : y = v <;> simp [Ptable.next, Ptable.clearLinks, hyp, hyv, hpv]
        · intro y hy hyv
          have hyp : y ≠ p := fun he => hpb (he ▸ hy)
          have hyv' : y ≠ v := fun he => hyv (by simp [he])
          simp [Ptable.prev, Ptable.clearLinks, hyp, hyv']
        · intro y hyv
          simp only [List.head?_cons, Option.some.injEq] at hyv
          subst hyv
          simp [Ptable.prev, Ptable.clearLinks, hpv]
      · intro r hr
        have hrp : r ≠ p := fun he => hr (by simp [he])
        have hrv : r ≠ v := fun he => hr (by simp [he])
        simp [Ptable.clearLinks, hrp, hrv]
      · exact .clearLinks (.updProc (.updQueue (.refl t) q _) v (fun _ => by rfl) (fun _ => by rfl)
          fun _ => by rfl) p
  · rw [List.concat_eq_append] at *
    have hup : u ≠ p := fun he => hpa (by simp [he])
    have hpu : t.prev p = some u := by simpa using hprev
    have hfp : ¬ (t.queue q).front = some p := by
      rw [hfront]
      intro he
      cases as with
      | nil => simp at he; exact hup he
      | cons y ys => simp at he; exact hpa (by simp [he])
    cases b with
    | nil =>
      -- the last of several
      have hne : ¬ (t.queue q).front = (t.queue q).back := by
        rw [hback]; simpa using hfp
      have hbp : (t.queue q).back = some p := by simp [hback]
      refine ⟨_, by simp only [unlink, hfp, hbp, hpu, if_false, if_true]; rfl, ?_⟩
      refine ⟨fun q' hq => by simp [Ptable.clearLinks, hq], ?_, by simp [Ptable.clearLinks],
        by simp [Ptable.clearLinks], ?_, ?_, ?_⟩
      · cases as <;> simp [Ptable.clearLinks, hfront]
      · refine Lib.seg_unlink hseg hnd ?_ ?_ ?_ (by simp)
        · intro y hy hyu
          have hyp : y ≠ p := fun he => hpa (by simpa [he] using hy)
          have hyu' : y ≠ u := fun he => hyu (by simp [he])
          simp [Ptable.next, Ptable.clearLinks, hyp, hyu']
        · intro y hyu
          simp only [List.getLast?_append, List.getLast?_singleton, Option.some_or,
            Option.some.injEq] at hyu
          subst hyu
          simp [Ptable.next, Ptable.clearLinks, hup]
        · intro y hy _
          have hyp : y ≠ p := fun he => hpa (by simpa [he] using hy)
          by_cases hyu : y = u <;> simp [Ptable.prev, Ptable.clearLinks, hyp, hyu, hup]
      · intro r hr
        have hrp : r ≠ p := fun he => hr (by simp [he])
        have hru : r ≠ u := fun he => hr (by simp [he])
        simp [Ptable.clearLinks, hrp, hru]
      · exact .clearLinks (.updProc (.updQueue (.refl t) q _) u (fun _ => by rfl) (fun _ => by rfl)
          fun _ => by rfl) p
    | cons v bs =>
      -- between two others
      have hvp : v ≠ p := fun he => hpb (by simp [he])
      have huv : u ≠ v := fun he => hdis u (by simp) v (by simp) he
      have hnx : t.next p = some v := by simpa using hnext
      have hbp : ¬ (t.queue q).back = some p := by
        rw [hback]
        intro he
        have hlast : (v :: bs).getLast? = some p := by
          simpa [List.getLast?_append, List.getLast?_cons_cons] using he
        exact hpb (List.mem_of_getLast? hlast)
      have hne : ¬ (t.queue q).front = (t.queue q).back := by
        rw [hfront, hback]
        intro he
        have hl : ((as ++ [u]) ++ p :: v :: bs).getLast? = (v :: bs).getLast? := by
          rw [List.getLast?_append_of_ne_nil _ (by simp), List.getLast?_cons_cons]
        have hh : ((as ++ [u]) ++ p :: v :: bs).head? = (as ++ [u]).head? := by
          cases as <;> simp
        rw [hl, hh] at he
        cases hx : (as ++ [u]).head? with
        | none => simp at hx
        | some x =>
          rw [hx] at he
          exact hdis x (List.mem_of_mem_head? hx) x
            (List.mem_cons_of_mem _ (List.mem_of_getLast? he.symm)) rfl
      refine ⟨_, by simp only [unlink, hne, hfp, hbp, hpu, hnx, if_false]; rfl, ?_⟩
      refine ⟨fun q' hq => by simp [Ptable.clearLinks], ?_, ?_, by simp [Ptable.clearLinks],
        ?_, ?_, ?_⟩
      · cases as <;> simp [Ptable.clearLinks, hfront]
      · simp [Ptable.clearLinks, hback, List.getLast?_append, List.getLast?_cons_cons]
      · refine Lib.seg_unlink hseg hnd ?_ ?_ ?_ ?_
        · intro y hy hyu
          have hyp : y ≠ p := fun he => by
            subst he
            rcases List.mem_append.mp hy with hm | hm
            · exact hpa hm
            · exact hpb hm
          have hyu' : y ≠ u := fun he => hyu (by simp [he])
          by_cases hyv : y = v <;> simp [Ptable.next, Ptable.clearLinks, hyp, hyu', hyv, hvp, huv.symm]
        · intro y hyu
          simp only [List.getLast?_append, List.getLast?_singleton, Option.some_or,
            Option.some.injEq] at hyu
          subst hyu
          simp [Ptable.next, Ptable.clearLinks, hup, huv]
        · intro y hy hyv
          have hyp : y ≠ p := fun he => by
            subst he
            rcases List.mem_append.mp hy with hm | hm
            · exact hpa hm
            · exact hpb hm
          have hyv' : y ≠ v := fun he => hyv (by simp [he])
          by_cases hyu : y = u <;> simp [Ptable.prev, Ptable.clearLinks, hyp, hyv', hyu, hup, huv]
        · intro y hyv
          simp only [List.head?_cons, Option.some.injEq] at hyv
          subst hyv
          simp [Ptable.prev, Ptable.clearLinks, hvp]
      · intro r hr
        have hrp : r ≠ p := fun he => hr (by simp [he])
        have hru : r ≠ u := fun he => hr (by simp [he])
        have hrv : r ≠ v := fun he => hr (by simp [he])
        simp [Ptable.clearLinks, hrp, hru, hrv]
      · exact .clearLinks (.updProc (.updProc (.refl t) u (fun _ => by rfl) (fun _ => by rfl) fun _ => by rfl)
          v (fun _ => by rfl) (fun _ => by rfl) fun _ => by rfl) p

/-- Unlinking a member whose `queue` field has just been cleared. -/
theorem unlink_linked {a b : List Slot} {g : Queue → Queue} (h : Linked t L)
    (hq : (t.proc p).queue = some q) (hL : L q = a ++ p :: b) (hgf : ∀ x, (g x).front = x.front)
    (hgb : ∀ x, (g x).back = x.back) (hgl : ∀ x, (g x).level = x.level) :
    ∃ t', unlink ((t.updProc p (fun x => { x with queue := none, level := -1 })).updQueue q g) q p
        = .ok t' ∧ Linked t' (Function.update L q (a ++ b)) ∧ SameCore t t' ∧
      (t'.proc p).queue = none := by
  let u := (t.updProc p (fun x => { x with queue := none, level := -1 })).updQueue q g
  have hun : u.next = t.next := by
    funext r; by_cases hr : r = p <;> simp [u, Ptable.next, hr]
  have hup : u.prev = t.prev := by
    funext r; by_cases hr : r = p <;> simp [u, Ptable.prev, hr]
  have hseg : Lib.Seg u.next u.prev none (a ++ p :: b) none := by
    rw [hun, hup, ← hL]; exact h.seg q
  have hnd : (a ++ p :: b).Nodup := hL ▸ h.nodup q
  obtain ⟨t', hres, hoq, hfr, hbk, hlv, hsg, hoth, hlo⟩ := unlink_seg (q := q) hseg hnd
    (by simp [u, hgf, h.front, hL]) (by simp [u, hgb, h.back, hL])
  have hpab : p ∉ a ++ b := by
    have := List.nodup_append.mp hnd
    simp only [List.mem_append, not_or]
    exact ⟨fun hm => this.2.2 p hm p (by simp) rfl, (List.nodup_cons.mp this.2.1).1⟩
  have hkeep : ∀ r, r ≠ p → (t'.proc r).queue = (t.proc r).queue ∧
      (t'.proc r).level = (t.proc r).level := by
    intro r hr
    rw [hlo.queue, hlo.level]
    simp [u, hr]
  have hpq : (t'.proc p).queue = none := by rw [hlo.queue]; simp [u]
  refine ⟨t', hres, ?_, ?_, hpq⟩
  · refine h.replace q _ ?_ hfr hbk ?_ hsg ?_ ?_ ?_ ?_ ?_
    · intro q' hqq
      rw [hoq q' hqq]
      simp [u, hqq]
    · rw [hlv]; simp [u, hgl]
    · exact hnd.sublist (List.Sublist.append_left (List.sublist_cons_self p b) a)
    · intro q' hqq r hr
      have hrq : r ∉ a ++ p :: b := fun hm => hqq (h.mem_unique hr (hL ▸ hm))
      have hrp : r ≠ p := fun he => hrq (by simp [he])
      rw [hoth r hrq]
      simp [u, hrp]
    · intro q' hqq r hr
      by_cases hrp : r = p
      · subst hrp; rw [hpq] at hr; simp at hr
      · rw [(hkeep r hrp).1] at hr; exact (h.mem q' r).mpr hr
    · intro r
      by_cases hrp : r = p
      · subst hrp
        rw [hpq]
        simpa using hpab
      · rw [(hkeep r hrp).1, ← h.mem, hL]
        simp [hrp]
    · intro r hr
      by_cases hrp : r = p
      · subst hrp; rw [hpq] at hr; simp at hr
      · rw [(hkeep r hrp).1] at hr; rw [(hkeep r hrp).2]; exact h.level q r hr
  · exact (SameCore.updQueue (.updProc (.refl t) p fun _ => by rfl) q g).trans hlo.toSameCore

/-- A list without duplicates, split around one member. -/
theorem erase_split {a b : List Slot} (hnd : (a ++ p :: b).Nodup) :
    (a ++ p :: b).erase p = a ++ b := by
  have hpa : p ∉ a := fun hm => (List.nodup_append.mp hnd).2.2 p hm p (by simp) rfl
  rw [List.erase_append_right _ hpa]
  simp

theorem erasequeue_linked (h : Linked t L) (hq : (t.proc p).queue = some q) :
    ∃ t', erasequeue t (some q) p = .ok t' ∧ Linked t' (Function.update L q ((L q).erase p)) ∧
      SameCore t t' ∧ (t'.proc p).queue = none := by
  obtain ⟨a, b, hL⟩ := h.split hq
  have hf : found t p NPROC (frontqueue t q) = some true := by
    rw [frontqueue, h.front]
    exact found_seg (L q) none NPROC (h.length_le q) (h.seg q) ((h.mem q p).mpr hq)
  have herase : (L q).erase p = a ++ b := by
    rw [hL]; exact erase_split (hL ▸ h.nodup q)
  rw [herase]
  simp only [erasequeue, hq, ne_eq, not_true_eq_false, if_false, hf]
  exact unlink_linked h hq hL (fun _ => rfl) (fun _ => rfl) (fun _ => rfl)

theorem popqueue_empty (h : Linked t L) (hL : L q = []) : popqueue t q = .ok (none, t) := by
  have hf : (t.queue q).front = none := by rw [h.front, hL]; rfl
  simp only [popqueue, hf]

theorem popqueue_linked {l : List Slot} (h : Linked t L) (hL : L q = p :: l) :
    ∃ t', popqueue t q = .ok (some p, t') ∧ Linked t' (Function.update L q l) ∧ SameCore t t' ∧
      (t'.proc p).queue = none := by
  have hf : (t.queue q).front = some p := by rw [h.front, hL]; rfl
  have hq : (t.proc p).queue = some q := (h.mem q p).mp (by simp [hL])
  obtain ⟨t', hres, hrest⟩ := unlink_linked (a := []) (b := l) h hq hL
    (g := fun x => { x with size := x.size - 1 }) (fun _ => rfl) (fun _ => rfl) (fun _ => rfl)
  refine ⟨t', ?_, hrest⟩
  -- the branches of `popqueue` are those of `unlink` at the front
  simp only [unlink] at hres
  simp only [popqueue, hf]
  split
  · next he => rw [if_pos he] at hres; cases hres; rfl
  · next he =>
    rw [if_neg he, if_pos (by simp [hf])] at hres
    split at hres
    · cases hres
    · cases hres; rfl

/-! ## What a call that returns has done to the lists -/

theorem pushed_none (h : pushqueue t q p = .ok t') : (t.proc p).queue = none := by
  by_contra hq
  unfold pushqueue at h
  rw [if_pos (Option.isSome_iff_ne_none.mpr hq)] at h
  cases h

theorem pushedFront_none (h : pushfrontqueue t q p = .ok t') : (t.proc p).queue = none := by
  by_contra hq
  unfold pushfrontqueue at h
  rw [if_pos (Option.isSome_iff_ne_none.mpr hq)] at h
  cases h

theorem erased_own {x : Option QIdx} (h : erasequeue t x p = .ok t') : (t.proc p).queue = x := by
  by_contra hq
  unfold erasequeue at h
  rw [if_pos hq] at h
  cases h

theorem Linked.pushed (h : Linked t L) (hp : pushqueue t q p = .ok t') :
    Linked t' (Function.update L q (L q ++ [p])) := by
  obtain ⟨u, hu, hL, -⟩ := pushqueue_linked (q := q) h (pushed_none hp)
  rw [hu] at hp
  cases hp
  exact hL

theorem Linked.pushedFront (h : Linked t L) (hp : pushfrontqueue t q p = .ok t') :
    Linked t' (Function.update L q (p :: L q)) := by
  obtain ⟨u, hu, hL, -⟩ := pushfrontqueue_linked (q := q) h (pushedFront_none hp)
  rw [hu] at hp
  cases hp
  exact hL

/-- Erasing a process from its queue, seen on all lists. -/
theorem Linked.erased {x : Option QIdx} (h : Linked t L) (he : erasequeue t x p = .ok t') :
    Linked t' (fun k => (L k).erase p) := by
  have hx := erased_own he
  subst hx
  cases hq : (t.proc p).queue with
  | none =>
    have hsame : t' = t := by
      unfold erasequeue at he
      rw [hq] at he
      cases he
      rfl
    have hlists : (fun k => (L k).erase p) = L := by
      funext k
      exact List.erase_of_not_mem (h.not_mem hq k)
    rw [hlists, hsame]
    exact h
  | some q =>
    obtain ⟨u, hu, hL, -, -⟩ := erasequeue_linked h hq
    rw [hq, hu] at he
    cases he
    have hlists : Function.update L q ((L q).erase p) = fun k => (L k).erase p := by
      funext k
      by_cases hk : k = q
      · subst hk
        rw [Function.update_self]
      · have hs : p ∉ L k := fun hm => hk (h.mem_unique hm ((h.mem q p).mpr hq))
        rw [Function.update_of_ne hk, List.erase_of_not_mem hs]
    rwa [hlists] at hL

end Ops

end Xv6.Mlfq
