import Xv6.Mlfq.Lock

/- Levels, priorities and time quanta of the MLFQ scheduler over whole runs. A process has
   the level of the queue it is linked in, and `erasequeue` and `pushqueue` write the level
   in between; `Ranged k e t` says that levels, priorities and charges are in range, but for
   the level of the process `e` that is on its way from one queue to another. With `k` it
   also bounds the charge of a process by the time quantum of its level, which `setLevel`
   does not keep by itself.

   `getLevel` reads the level without `ptable.lock`, so on another CPU it can read in the
   middle of an action. It finds -1 just when the process that calls it is the one on its
   way (`Moves`).

   Nothing here depends on the links, so a failed `fork`, which leaves a free slot linked,
   is among the actions. -/
namespace Xv6.Mlfq

/-- `getLevel` with `p = myproc()`. -/
def getLevel (t : Ptable) : Option Slot → Int
  | none => -1
  | some p => if (t.proc p).level < 0 ∨ (t.proc p).level ≥ NQUEUE then -1 else (t.proc p).level

/-- A moment in the middle of the action `a` on `t`: it has taken `p` off its queue and put
it on no other yet, and the table is `u`. These are the actions that move a process which
another CPU may be running; the scheduler moves one that is `RUNNABLE`, `schedulerUnlock`
its caller, `wait` a `ZOMBIE`. -/
inductive Moves (t : Ptable) : Act → Slot → Ptable → Prop
  | setLevel {pid level : Int} {p : Slot} {q : QIdx} {u : Ptable} (hl : 0 ≤ level ∧ level ≤ 3)
      (hp : getProc t pid = some p) (he : erasequeue t (some q) p = .ok u) :
      Moves t (.setLevel pid level) p u
  | boost {v w x u : Ptable} {n : Nat} {l l' : List Slot} {p : Slot} {q : QIdx} (hn : n < NPROC)
      (hl : List.finRange NPROC = l ++ p :: l') (h0 : boostUnlock { t with ticks := 0 } = .ok v)
      (h1 : boostLoop n v = .ok w) (h2 : l.foldlM clearProc w = .ok x)
      (hp : (x.proc p).state ≠ .UNUSED)
      (he : erasequeue (x.updProc p (fun y => { y with priority := 3, tq := 0 })) (some q) p = .ok u) :
      Moves t .boostPriority p u

/-- The charge of a process is at most the time quantum of its level. -/
def Proc.InQuantum (x : Proc) : Prop := 0 ≤ x.tq ∧ x.tq ≤ getTimeQuantum x.level

structure Ranged (k : Bool) (e : Option Slot) (t : Ptable) : Prop where
  qlevel : ∀ q, (t.queue q).level = (q.val : Int)
  level : ∀ p q, (t.proc p).queue = some q → (t.proc p).level = (q.val : Int)
  prio : ∀ p, (t.proc p).state ≠ .UNUSED →
    0 ≤ (t.proc p).priority ∧ (t.proc p).priority ≤ 3 ∧ 0 ≤ (t.proc p).tq
  used : ∀ p, some p ≠ e → (t.proc p).state ≠ .UNUSED →
    0 ≤ (t.proc p).level ∧ (t.proc p).level < NQUEUE ∧
      (k = true → (t.proc p).tq ≤ getTimeQuantum (t.proc p).level)

/-- The fields of a process that `Ranged` is about. -/
def Proc.rank (x : Proc) : ProcState × Option QIdx × Int × Int × Int :=
  (x.state, x.queue, x.level, x.priority, x.tq)

/-- The same processes at the same levels with the same charges. -/
structure SameRank (t t' : Ptable) : Prop where
  qlevel : ∀ q, (t'.queue q).level = (t.queue q).level
  rank : ∀ p, (t'.proc p).rank = (t.proc p).rank

section Frames

variable {t t' u : Ptable} {p : Slot} {q : QIdx} {k : Bool} {e : Option Slot}

theorem SameRank.refl (t : Ptable) : SameRank t t := ⟨fun _ => rfl, fun _ => rfl⟩

theorem SameRank.trans (h : SameRank t u) (h' : SameRank u t') : SameRank t t' :=
  ⟨fun q => (h'.qlevel q).trans (h.qlevel q), fun p => (h'.rank p).trans (h.rank p)⟩

theorem SameRank.updProc (h : SameRank t u) (p : Slot) {f : Proc → Proc}
    (hf : ∀ x, (f x).rank = x.rank) : SameRank t (u.updProc p f) := by
  refine ⟨h.qlevel, fun r => ?_⟩
  rw [Ptable.updProc_proc]
  split
  · rw [hf]
    exact h.rank r
  · exact h.rank r

theorem SameRank.updQueue (h : SameRank t u) (q : QIdx) {f : Queue → Queue}
    (hf : ∀ x, (f x).level = x.level) : SameRank t (u.updQueue q f) := by
  refine ⟨fun r => ?_, h.rank⟩
  rw [Ptable.updQueue_queue]
  split
  · rw [hf]
    exact h.qlevel r
  · exact h.qlevel r

theorem SameRank.state (h : SameRank t t') (p : Slot) : (t'.proc p).state = (t.proc p).state :=
  congrArg Prod.fst (h.rank p)

theorem SameRank.queue (h : SameRank t t') (p : Slot) : (t'.proc p).queue = (t.proc p).queue :=
  congrArg (fun r => r.2.1) (h.rank p)

theorem SameRank.level (h : SameRank t t') (p : Slot) : (t'.proc p).level = (t.proc p).level :=
  congrArg (fun r => r.2.2.1) (h.rank p)

theorem SameRank.priority (h : SameRank t t') (p : Slot) :
    (t'.proc p).priority = (t.proc p).priority :=
  congrArg (fun r => r.2.2.2.1) (h.rank p)

theorem SameRank.tq (h : SameRank t t') (p : Slot) : (t'.proc p).tq = (t.proc p).tq :=
  congrArg (fun r => r.2.2.2.2) (h.rank p)

theorem SameRank.ranged (h : SameRank t t') (hr : Ranged k e t) : Ranged k e t' := by
  refine ⟨fun q => (h.qlevel q).trans (hr.qlevel q), fun p q hq => ?_, fun p hp => ?_,
    fun p he hp => ?_⟩
  · rw [h.level p]
    exact hr.level p q (h.queue p ▸ hq)
  · rw [h.priority p, h.tq p]
    exact hr.prio p (h.state p ▸ hp)
  · rw [h.level p, h.tq p]
    exact hr.used p he (h.state p ▸ hp)

theorem unlink_rank (h : unlink t q p = .ok t') : SameRank t t' := by
  have hlinks : ∀ {v : Ptable}, SameRank t v → SameRank t (v.clearLinks p) :=
    fun hv => hv.updProc p (fun _ => by rfl)
  unfold unlink at h
  split at h
  · cases h
    exact hlinks ((SameRank.refl t).updQueue q (fun _ => by rfl))
  · split at h
    · split at h <;> cases h
      exact hlinks (((SameRank.refl t).updQueue q (fun _ => by rfl)).updProc _ (fun _ => by rfl))
    · split at h
      · split at h <;> cases h
        exact hlinks (((SameRank.refl t).updQueue q (fun _ => by rfl)).updProc _ (fun _ => by rfl))
      · split at h <;> cases h
        exact hlinks (((SameRank.refl t).updProc _ (fun _ => by rfl)).updProc _ (fun _ => by rfl))

/-- What a queue operation on `p` keeps: every other process, and everything of `p` but its
queue and its level. -/
structure Shifts (p : Slot) (t t' : Ptable) : Prop where
  qlevel : ∀ q, (t'.queue q).level = (t.queue q).level
  other : ∀ r, r ≠ p → (t'.proc r).rank = (t.proc r).rank
  state : (t'.proc p).state = (t.proc p).state
  priority : (t'.proc p).priority = (t.proc p).priority
  tq : (t'.proc p).tq = (t.proc p).tq

theorem SameRank.shifts (h : SameRank t t') (p : Slot) : Shifts p t t' :=
  ⟨h.qlevel, fun r _ => h.rank r, h.state p, h.priority p, h.tq p⟩

theorem Shifts.trans (h : Shifts p t u) (h' : Shifts p u t') : Shifts p t t' :=
  ⟨fun q => (h'.qlevel q).trans (h.qlevel q), fun r hr => (h'.other r hr).trans (h.other r hr),
    h'.state.trans h.state, h'.priority.trans h.priority, h'.tq.trans h.tq⟩

/-- A new queue and a new level for `p`. -/
theorem shifts_relevel (t : Ptable) (p : Slot) (x : Option QIdx) (l : Int) :
    Shifts p t (t.updProc p (fun y => { y with queue := x, level := l })) := by
  refine ⟨fun _ => rfl, fun r hr => ?_, ?_, ?_, ?_⟩
  · rw [Ptable.updProc_proc, if_neg hr]
  · simp
  · simp
  · simp

theorem erasequeue_shifts {x : Option QIdx} (h : erasequeue t x p = .ok t') :
    Shifts p t t' ∧ (t'.proc p).queue = none ∧ x = (t.proc p).queue := by
  unfold erasequeue at h
  split at h
  · cases h
  · rename_i hx
    have hx' : (t.proc p).queue = x := not_not.mp hx
    split at h
    · cases h
      exact ⟨(SameRank.refl t).shifts p, hx', hx'.symm⟩
    · split at h <;> try cases h
      have h1 := ((shifts_relevel t p none (-1)).trans
        (((SameRank.refl _).updQueue _ (fun _ => by rfl)).shifts p)).trans ((unlink_rank h).shifts p)
      refine ⟨h1, ?_, hx'.symm⟩
      rw [(unlink_rank h).queue p]
      simp

theorem erasequeue_level (h : erasequeue t (some q) p = .ok t') : (t'.proc p).level = -1 := by
  unfold erasequeue at h
  split at h
  · cases h
  · simp only at h
    split at h <;> try cases h
    rw [(unlink_rank h).level p]
    simp

/-- `p` enters the queue `q`. -/
theorem SameRank.pushed (h : SameRank (t.updProc p (fun x =>
    { x with queue := some q, level := (t.queue q).level })) t') :
    Shifts p t t' ∧ (t'.proc p).queue = some q ∧ (t'.proc p).level = (t.queue q).level := by
  refine ⟨(shifts_relevel t p (some q) _).trans (h.shifts p), ?_, ?_⟩
  · rw [h.queue p]
    simp
  · rw [h.level p]
    simp

theorem pushqueue_shifts (h : pushqueue t q p = .ok t') :
    Shifts p t t' ∧ (t'.proc p).queue = some q ∧ (t'.proc p).level = (t.queue q).level := by
  unfold pushqueue at h
  split at h
  · cases h
  · simp only at h
    split at h <;> cases h
    · exact SameRank.pushed (((((SameRank.refl _).updQueue q (fun _ => by rfl)).updProc p
        (fun _ => by rfl)).updQueue q (fun _ => by rfl)).updProc p (fun _ => by rfl))
    · exact SameRank.pushed ((((((SameRank.refl _).updQueue q (fun _ => by rfl)).updProc p
        (fun _ => by rfl)).updProc _ (fun _ => by rfl)).updProc p (fun _ => by rfl)).updQueue q
          (fun _ => by rfl))

theorem erasequeue_bound {x : Option QIdx} : erasequeue t x p ≠ .error .outOfBounds := by
  intro h
  unfold erasequeue at h
  split at h
  · cases h
  · split at h
    · cases h
    · split at h <;> try cases h
      unfold unlink at h
      split at h
      · cases h
      · split at h
        · split at h <;> cases h
        · split at h
          · split at h <;> cases h
          · split at h <;> cases h

theorem pushqueue_bound : pushqueue t q p ≠ .error .outOfBounds := by
  intro h
  unfold pushqueue at h
  split at h
  · cases h
  · simp only at h
    split at h <;> cases h

theorem pushfrontqueue_bound : pushfrontqueue t q p ≠ .error .outOfBounds := by
  intro h
  unfold pushfrontqueue at h
  split at h
  · cases h
  · simp only at h
    split at h
    · cases h
    · split at h <;> cases h

theorem pushfrontqueue_shifts (h : pushfrontqueue t q p = .ok t') :
    Shifts p t t' ∧ (t'.proc p).queue = some q ∧ (t'.proc p).level = (t.queue q).level := by
  unfold pushfrontqueue at h
  split at h
  · cases h
  · simp only at h
    split at h
    · cases h
      exact SameRank.pushed (((SameRank.refl _).updQueue q (fun _ => by rfl)).updProc p (fun _ => by rfl))
    · split at h <;> cases h
      · exact SameRank.pushed (((((SameRank.refl _).updQueue q (fun _ => by rfl)).updQueue q
          (fun _ => by rfl)).updProc _ (fun _ => by rfl)).updProc p (fun _ => by rfl))
      · exact SameRank.pushed (((((SameRank.refl _).updQueue q (fun _ => by rfl)).updProc p
          (fun _ => by rfl)).updQueue q (fun _ => by rfl)).updProc _ (fun _ => by rfl))

end Frames

theorem quantum_nonneg {l : Int} (h : 0 ≤ l) : 4 ≤ getTimeQuantum l := by
  unfold getTimeQuantum
  omega

/-! ## Rules -/

section Rules

variable {t t' u : Ptable} {p : Slot} {q : QIdx} {k : Bool} {e : Option Slot}

/-- `p` has left its queue. -/
theorem Ranged.erase (h : Ranged k none t) {x : Option QIdx} (he : erasequeue t x p = .ok t') :
    Ranged k (some p) t' := by
  obtain ⟨hs, hq, -⟩ := erasequeue_shifts he
  have hrank : ∀ r, r ≠ p → (t'.proc r).state = (t.proc r).state ∧
      (t'.proc r).queue = (t.proc r).queue ∧ (t'.proc r).level = (t.proc r).level ∧
      (t'.proc r).priority = (t.proc r).priority ∧ (t'.proc r).tq = (t.proc r).tq := by
    intro r hr
    simpa [Proc.rank] using hs.other r hr
  refine ⟨fun q => (hs.qlevel q).trans (h.qlevel q), fun r q' hr => ?_, fun r hr => ?_,
    fun r hne hr => ?_⟩
  · have hrp : r ≠ p := by
      rintro rfl
      rw [hq] at hr
      cases hr
    obtain ⟨-, h2, h3, -⟩ := hrank r hrp
    rw [h3]
    exact h.level r q' (h2 ▸ hr)
  · by_cases hrp : r = p
    · subst hrp
      rw [hs.priority, hs.tq]
      exact h.prio r (hs.state ▸ hr)
    · obtain ⟨h1, -, -, h4, h5⟩ := hrank r hrp
      rw [h4, h5]
      exact h.prio r (h1 ▸ hr)
  · have hrp : r ≠ p := fun hrp => hne (by rw [hrp])
    obtain ⟨h1, -, h3, -, h5⟩ := hrank r hrp
    rw [h3, h5]
    exact h.used r (by simp) (h1 ▸ hr)

/-- `p` enters the queue `q`, with a charge that fits it. -/
theorem Ranged.push (h : Ranged k (some p) t)
    (hp : pushqueue t q p = .ok t' ∨ pushfrontqueue t q p = .ok t')
    (hk : k = true → (t.proc p).state ≠ .UNUSED → (t.proc p).tq ≤ getTimeQuantum q.val) :
    Ranged k none t' := by
  obtain ⟨hs, hq, hl⟩ : Shifts p t t' ∧ (t'.proc p).queue = some q ∧
      (t'.proc p).level = (t.queue q).level := by
    rcases hp with hp | hp
    · exact pushqueue_shifts hp
    · exact pushfrontqueue_shifts hp
  rw [h.qlevel q] at hl
  have hrank : ∀ r, r ≠ p → (t'.proc r).state = (t.proc r).state ∧
      (t'.proc r).queue = (t.proc r).queue ∧ (t'.proc r).level = (t.proc r).level ∧
      (t'.proc r).priority = (t.proc r).priority ∧ (t'.proc r).tq = (t.proc r).tq := by
    intro r hr
    simpa [Proc.rank] using hs.other r hr
  refine ⟨fun q => (hs.qlevel q).trans (h.qlevel q), fun r q' hr => ?_, fun r hr => ?_,
    fun r _ hr => ?_⟩
  · by_cases hrp : r = p
    · subst hrp
      rw [hq] at hr
      cases hr
      exact hl
    · obtain ⟨-, h2, h3, -⟩ := hrank r hrp
      rw [h3]
      exact h.level r q' (h2 ▸ hr)
  · by_cases hrp : r = p
    · subst hrp
      rw [hs.priority, hs.tq]
      exact h.prio r (hs.state ▸ hr)
    · obtain ⟨h1, -, -, h4, h5⟩ := hrank r hrp
      rw [h4, h5]
      exact h.prio r (h1 ▸ hr)
  · by_cases hrp : r = p
    · subst hrp
      rw [hl, hs.tq]
      have := q.isLt
      exact ⟨by omega, by omega, fun hk' => hk hk' (hs.state ▸ hr)⟩
    · obtain ⟨h1, -, h3, -, h5⟩ := hrank r hrp
      rw [h3, h5]
      refine h.used r ?_ (h1 ▸ hr)
      simpa using hrp

/-- A process changes its state, priority or charge. -/
theorem Ranged.upd (h : Ranged k none t) (p : Slot) {f : Proc → Proc}
    (hl : ∀ x, (f x).queue = x.queue ∧ (f x).level = x.level)
    (hf : (f (t.proc p)).state ≠ .UNUSED → (t.proc p).state ≠ .UNUSED ∧
      0 ≤ (f (t.proc p)).priority ∧ (f (t.proc p)).priority ≤ 3 ∧ 0 ≤ (f (t.proc p)).tq ∧
      (k = true → (f (t.proc p)).tq ≤ getTimeQuantum (t.proc p).level)) :
    Ranged k none (t.updProc p f) := by
  have hself : (t.updProc p f).proc p = f (t.proc p) := by simp
  have hother : ∀ r, r ≠ p → (t.updProc p f).proc r = t.proc r := by
    intro r hr
    simp [hr]
  refine ⟨h.qlevel, fun r q hr => ?_, fun r hr => ?_, fun r he hr => ?_⟩
  · by_cases hrp : r = p
    · subst hrp
      rw [hself] at hr ⊢
      rw [(hl _).2]
      exact h.level r q ((hl _).1 ▸ hr)
    · rw [hother r hrp] at hr ⊢
      exact h.level r q hr
  · by_cases hrp : r = p
    · subst hrp
      rw [hself] at hr ⊢
      obtain ⟨-, h2, h3, h4, -⟩ := hf hr
      exact ⟨h2, h3, h4⟩
    · rw [hother r hrp] at hr ⊢
      exact h.prio r hr
  · by_cases hrp : r = p
    · subst hrp
      rw [hself] at hr ⊢
      obtain ⟨h1, -, -, -, h5⟩ := hf hr
      obtain ⟨h6, h7, -⟩ := h.used r he h1
      rw [(hl _).2]
      exact ⟨h6, h7, h5⟩
    · rw [hother r hrp] at hr ⊢
      exact h.used r he hr

/-- A change that touches neither the priority nor the charge of a process in use. -/
theorem Ranged.keep (h : Ranged k none t) (p : Slot) {f : Proc → Proc}
    (hl : ∀ x, (f x).queue = x.queue ∧ (f x).level = x.level)
    (hf : (f (t.proc p)).state ≠ .UNUSED → (t.proc p).state ≠ .UNUSED ∧
      (f (t.proc p)).priority = (t.proc p).priority ∧ (f (t.proc p)).tq = (t.proc p).tq) :
    Ranged k none (t.updProc p f) := by
  refine h.upd p hl (fun hs => ?_)
  obtain ⟨h1, h2, h3⟩ := hf hs
  obtain ⟨h4, h5, h6⟩ := h.prio p h1
  rw [h2, h3]
  exact ⟨h1, h4, h5, h6, (h.used p (by simp) h1).2.2⟩

/-- A new quantum. -/
theorem Ranged.clear (h : Ranged k none t) (p : Slot) {f : Proc → Proc}
    (hl : ∀ x, (f x).queue = x.queue ∧ (f x).level = x.level ∧ (f x).state = x.state)
    (hp : (t.proc p).state ≠ .UNUSED → 0 ≤ (f (t.proc p)).priority ∧ (f (t.proc p)).priority ≤ 3)
    (ht : (f (t.proc p)).tq = 0) : Ranged k none (t.updProc p f) := by
  refine h.upd p (fun x => ⟨(hl x).1, (hl x).2.1⟩) (fun hs => ?_)
  rw [(hl _).2.2] at hs
  obtain ⟨h1, h2⟩ := hp hs
  have hq := quantum_nonneg (h.used p (by simp) hs).1
  rw [ht]
  exact ⟨hs, h1, h2, by omega, fun _ => by omega⟩

/-- `p` moves to another queue. -/
theorem Ranged.requeue (h : Ranged k none t) {x : Option QIdx}
    (hr : (erasequeue t x p >>= fun t => pushqueue t q p) = .ok t')
    (hk : k = true → (t.proc p).state ≠ .UNUSED → (t.proc p).tq ≤ getTimeQuantum q.val) :
    Ranged k none t' := by
  obtain ⟨u, h1, h2⟩ := bind_ok hr
  obtain ⟨hs, -, -⟩ := erasequeue_shifts h1
  refine (h.erase h1).push (.inl h2) (fun hk' hu => ?_)
  rw [hs.tq]
  exact hk hk' (hs.state ▸ hu)

/-! ## Actions -/

theorem Ranged.clearProc (h : Ranged k none t) (hr : clearProc t p = .ok t') : Ranged k none t' := by
  unfold Mlfq.clearProc at hr
  split at hr
  · cases hr
    exact h
  · refine Ranged.requeue (h.clear p (f := fun x => { x with priority := 3, tq := 0 })
      (fun _ => ⟨rfl, rfl, rfl⟩) (fun _ => by simp) rfl) hr (fun _ _ => ?_)
    have := quantum_nonneg (Int.natCast_nonneg (0 : QIdx).val)
    simp only [Ptable.updProc_proc, if_true]
    omega

theorem Ranged.clearProcs : ∀ (l : List Slot) (t t' : Ptable), Ranged k none t →
    l.foldlM Mlfq.clearProc t = .ok t' → Ranged k none t' := by
  intro l
  induction l with
  | nil =>
    intro t t' h hr
    cases hr
    exact h
  | cons p l ih =>
    intro t t' h hr
    rw [List.foldlM_cons] at hr
    obtain ⟨u, h1, h2⟩ := bind_ok hr
    exact ih u t' (h.clearProc h1) h2

theorem Ranged.boostPass (h : Ranged k none t) (hr : boostPass t = .ok t') : Ranged k none t' :=
  Ranged.clearProcs _ t t' h hr

theorem Ranged.boostLoop : ∀ (n : Nat) (t t' : Ptable), Ranged k none t → boostLoop n t = .ok t' →
    Ranged k none t' := by
  intro n
  induction n with
  | zero =>
    intro t t' h hr
    cases hr
    exact h
  | succ n ih =>
    intro t t' h hr
    obtain ⟨u, h1, h2⟩ := bind_ok hr
    exact ih u t' (h.boostPass h1) h2

/-- Only the globals change. -/
theorem Ranged.globals (h : Ranged k e t) (hq : t'.queue = t.queue) (hp : t'.proc = t.proc) :
    Ranged k e t' := by
  refine ⟨?_, ?_, ?_, ?_⟩
  · rw [hq]
    exact h.qlevel
  · rw [hp]
    exact h.level
  · rw [hp]
    exact h.prio
  · rw [hp]
    exact h.used

theorem Ranged.schedulerUnlock (h : Ranged k none t) {c : Option Slot} {password : Int}
    (hr : schedulerUnlock t c password = .ok t') : Ranged k none t' := by
  unfold Mlfq.schedulerUnlock at hr
  split at hr
  · split at hr <;> cases hr
    exact h.keep _ (fun _ => ⟨rfl, rfl⟩) (fun hs => ⟨hs, rfl, rfl⟩)
  · split at hr
    · cases hr
      exact h
    · split at hr
      · cases hr
        exact h.globals rfl rfl
      · split at hr
        · cases hr
          exact h
        · rename_i p _
          obtain ⟨u, h1, h2⟩ := bind_ok hr
          obtain ⟨v, h3, h4⟩ := bind_ok h2
          cases h4
          -- the charge may be above the quantum of L0 until it is cleared
          have hv : Ranged false none v :=
            Ranged.push (k := false) ((⟨h.qlevel, h.level, h.prio, fun p he hp =>
              ⟨(h.used p he hp).1, (h.used p he hp).2.1, fun hk => by cases hk⟩⟩ :
                Ranged false none t).erase h1) (.inr h3) (fun hk => by cases hk)
          have hs1 := (erasequeue_shifts h1).1
          have hs3 := (pushfrontqueue_shifts h3).1
          refine Ranged.globals (t := v.updProc p (fun x => { x with priority := 3, tq := 0 })) ?_
            rfl rfl
          have hc := hv.clear p (f := fun x => { x with priority := 3, tq := 0 })
            (fun _ => ⟨rfl, rfl, rfl⟩) (fun _ => by simp) rfl
          refine ⟨hc.qlevel, hc.level, hc.prio, fun r he hu => ?_⟩
          obtain ⟨h5, h6, -⟩ := hc.used r he hu
          refine ⟨h5, h6, fun hk => ?_⟩
          by_cases hrp : r = p
          · subst hrp
            have := quantum_nonneg h5
            simp only [Ptable.updProc_proc, if_true] at this ⊢
            omega
          · have hrank := (hs3.other r hrp).trans (hs1.other r hrp)
            simp only [Proc.rank, Prod.mk.injEq] at hrank
            simp only [Ptable.updProc_proc, if_neg hrp] at hu ⊢
            rw [hrank.2.2.1, hrank.2.2.2.2]
            rw [hrank.1] at hu
            exact (h.used r he hu).2.2 hk

theorem Ranged.expireTimeQuantum (h : Ranged k none t) (hr : expireTimeQuantum t p = .ok t') :
    Ranged k none t' := by
  have h0 : Ranged k none (t.updProc p (fun x => { x with tq := 0 })) := by
    refine h.clear p (fun _ => ⟨rfl, rfl, rfl⟩) (fun hs => ?_) rfl
    exact ⟨(h.prio p hs).1, (h.prio p hs).2.1⟩
  unfold Mlfq.expireTimeQuantum at hr
  simp only at hr
  split at hr
  · split at hr
    · cases hr
    · rename_i tmpq _
      obtain ⟨u, h1, h2⟩ := bind_ok hr
      split at h2
      · rename_i hlt
        refine (h0.erase h1).push (.inl h2) (fun _ _ => ?_)
        rw [(erasequeue_shifts h1).1.tq]
        have := quantum_nonneg (Int.natCast_nonneg (tmpq.val + 1))
        simp only [Ptable.updProc_proc, if_true]
        omega
      · cases h2
  · split at hr <;> cases hr
    · exact h0
    · rename_i hpr
      refine h0.upd p (fun _ => ⟨rfl, rfl⟩) (fun hs => ?_)
      have hs' : (t.proc p).state ≠ .UNUSED := by simpa using hs
      have h1 := h0.prio p (by simpa using hs')
      have h2 := h0.used p (by simp) (by simpa using hs')
      simp only [Ptable.updProc_proc, if_true] at h1 h2 hpr ⊢
      exact ⟨hs', by omega, by omega, by omega, h2.2.2⟩

/-- The queue behind that of a process above the last level exists. -/
theorem Ranged.expire_bound (h : Ranged k none t) :
    Mlfq.expireTimeQuantum t p ≠ .error .outOfBounds := by
  intro hr
  unfold Mlfq.expireTimeQuantum at hr
  simp only at hr
  split at hr
  · rename_i hlt
    split at hr
    · cases hr
    · rename_i tmpq hq
      have hl := h.level p tmpq (by simpa using hq)
      cases he : erasequeue (t.updProc p (fun x => { x with tq := 0 })) (some tmpq) p with
      | error f =>
        rw [he] at hr
        have hf : f = .outOfBounds := by
          cases hr
          rfl
        subst hf
        exact erasequeue_bound he
      | ok u =>
        rw [he] at hr
        simp only [Ptable.updProc_proc, if_true] at hlt
        rw [hl] at hlt
        have hb : tmpq.val + 1 < NQUEUE := by omega
        have hr' : (if h : tmpq.val + 1 < NQUEUE then pushqueue u ⟨tmpq.val + 1, h⟩ p
          else .error .outOfBounds) = .error .outOfBounds := hr
        rw [dif_pos hb] at hr'
        exact pushqueue_bound hr'
  · split at hr <;> cases hr

/-- A computation in two parts stays within the array if both parts do. -/
theorem bind_bound {α β : Type} {r : Except Fault α} {f : α → Except Fault β}
    (hr : r ≠ .error .outOfBounds) (hf : ∀ a, r = .ok a → f a ≠ .error .outOfBounds) :
    (r >>= f) ≠ .error .outOfBounds := by
  cases r with
  | error e =>
    intro h
    cases h
    exact hr rfl
  | ok a => exact hf a rfl

theorem schedulerUnlock_bound {c : Option Slot} {password : Int} :
    Mlfq.schedulerUnlock t c password ≠ .error .outOfBounds := by
  unfold Mlfq.schedulerUnlock
  split
  · split <;> simp
  · split
    · simp
    · split
      · simp
      · split
        · simp
        · refine bind_bound erasequeue_bound (fun u _ => ?_)
          refine bind_bound pushfrontqueue_bound (fun v _ => ?_)
          simp

theorem clearProc_bound : Mlfq.clearProc t p ≠ .error .outOfBounds := by
  unfold Mlfq.clearProc
  split
  · simp
  · exact bind_bound erasequeue_bound (fun u _ => pushqueue_bound)

theorem boostLoop_bound : ∀ (n : Nat) (t : Ptable), Mlfq.boostLoop n t ≠ .error .outOfBounds := by
  have hfold : ∀ (l : List Slot) (t : Ptable), l.foldlM Mlfq.clearProc t ≠ .error .outOfBounds := by
    intro l
    induction l with
    | nil =>
      intro t h
      cases h
    | cons p l ih =>
      intro t
      rw [List.foldlM_cons]
      exact bind_bound clearProc_bound (fun u _ => ih u)
  intro n
  induction n with
  | zero =>
    intro t h
    cases h
  | succ n ih =>
    intro t
    exact bind_bound (hfold _ t) (fun u _ => ih u)

theorem pickQueues_bound : pickQueues t ≠ .error .outOfBounds := by
  unfold pickQueues
  split
  · simp
  · simp
  · split
    · simp
    · simp
    · split <;> simp

/-- `getProcessToRun` gives up the scheduler lock, if anything. -/
theorem getProcessToRun_same {r : Option Slot} (h : getProcessToRun t = .ok (r, t')) :
    t'.queue = t.queue ∧ t'.proc = t.proc := by
  unfold getProcessToRun at h
  split at h
  · obtain ⟨x, -, h2⟩ := bind_ok h
    cases h2
    exact ⟨rfl, rfl⟩
  · split at h
    · cases h
    · split at h
      · cases h
        exact ⟨rfl, rfl⟩
      · obtain ⟨u, h1, h2⟩ := bind_ok h
        obtain ⟨x, -, h3⟩ := bind_ok h2
        cases h3
        unfold Mlfq.schedulerUnlock at h1
        rw [if_neg (by simp)] at h1
        split at h1 <;> cases h1 <;> exact ⟨rfl, rfl⟩

theorem getProcessToRun_runnable {r : Option Slot} (h : getProcessToRun t = .ok (r, t')) :
    ∀ p, r = some p → (t'.proc p).state = .RUNNABLE := by
  intro p hp
  subst hp
  unfold getProcessToRun at h
  split at h
  · obtain ⟨x, h1, h2⟩ := bind_ok h
    cases h2
    exact pickQueues_runnable h1
  · split at h
    · cases h
    · split at h
      · rename_i hs
        cases h
        exact hs
      · obtain ⟨u, -, h2⟩ := bind_ok h
        obtain ⟨x, h3, h4⟩ := bind_ok h2
        cases h4
        exact pickQueues_runnable h3

theorem getProcessToRun_bound : getProcessToRun t ≠ .error .outOfBounds := by
  unfold getProcessToRun
  split
  · exact bind_bound pickQueues_bound (fun x _ => by simp)
  · split
    · simp
    · split
      · simp
      · exact bind_bound schedulerUnlock_bound
          (fun u _ => bind_bound pickQueues_bound (fun x _ => by simp))

/-- The choice of the scheduler: charges are kept or, once used up, cleared. -/
structure Picked (t t' : Ptable) : Prop where
  state : ∀ p, (t'.proc p).state = (t.proc p).state
  tq : ∀ p, (t'.proc p).tq = (t.proc p).tq ∨ (t'.proc p).tq = 0 ∧ 4 ≤ (t.proc p).tq

theorem Ranged.picked (h : Ranged k none t) (hu : (t.proc p).state ≠ .UNUSED)
    (hq : (t.proc p).tq = getTimeQuantum (t.proc p).level) (hr : Mlfq.expireTimeQuantum t p = .ok t') :
    Picked t t' := by
  refine ⟨(expireTimeQuantum_ids hr).state, fun r => ?_⟩
  have hfield : ∀ {v : Ptable}, Shifts p (t.updProc p (fun x => { x with tq := 0 })) v →
      (v.proc r).tq = (t.proc r).tq ∨ (v.proc r).tq = 0 ∧ 4 ≤ (t.proc r).tq := by
    intro v hv
    by_cases hrp : r = p
    · subst hrp
      have := quantum_nonneg (h.used r (by simp) hu).1
      exact .inr ⟨by simpa using hv.tq, by omega⟩
    · have hrank := hv.other r hrp
      simp only [Proc.rank, Prod.mk.injEq, Ptable.updProc_proc, if_neg hrp] at hrank
      exact .inl hrank.2.2.2.2
  unfold Mlfq.expireTimeQuantum at hr
  simp only at hr
  split at hr
  · split at hr
    · cases hr
    · obtain ⟨u, h1, h2⟩ := bind_ok hr
      split at h2
      · exact hfield ((erasequeue_shifts h1).1.trans (pushqueue_shifts h2).1)
      · cases h2
  · split at hr <;> cases hr
    · exact hfield ((SameRank.refl _).shifts p)
    · have := hfield ((SameRank.refl _).shifts p)
      by_cases hrp : r = p
      · subst hrp
        simpa using this
      · simp [hrp]

theorem Ranged.pickLoop : ∀ (n : Nat) (t t' : Ptable) (r : Option Slot), Ranged k none t →
    pickLoop n t = .ok (r, t') → Ranged k none t' ∧ Picked t t' ∧
      ∀ p, r = some p → (t'.proc p).state = .RUNNABLE ∧
        (t'.proc p).tq ≠ getTimeQuantum (t'.proc p).level := by
  intro n
  induction n with
  | zero => intro t t' r _ h; cases h
  | succ n ih =>
    intro t t' r h hr
    obtain ⟨⟨x, u⟩, h1, h2⟩ := bind_ok hr
    obtain ⟨hq, hp⟩ := getProcessToRun_same h1
    have hu : Ranged k none u := h.globals hq hp
    have hrun := getProcessToRun_runnable h1
    cases x with
    | none =>
      cases h2
      refine ⟨hu, ⟨fun p => by rw [hp], fun p => .inl (by rw [hp])⟩, fun p hx => by cases hx⟩
    | some p =>
      simp only at h2
      split at h2
      · rename_i hx
        obtain ⟨v, h3, h4⟩ := bind_ok h2
        have hs : (u.proc p).state ≠ .UNUSED := by simp [hrun p rfl]
        have hv := hu.picked hs hx h3
        obtain ⟨h5, h6, h7⟩ := ih v t' r (hu.expireTimeQuantum h3) h4
        refine ⟨h5, ⟨fun s => ?_, fun s => ?_⟩, h7⟩
        · rw [h6.state, hv.state, hp]
        · rw [← hp]
          rcases h6.tq s with ha | ⟨ha, hb⟩ <;> rcases hv.tq s with hc | ⟨hc, hd⟩
          · exact .inl (ha.trans hc)
          · exact .inr ⟨ha.trans hc, hd⟩
          · exact .inr ⟨ha, hc ▸ hb⟩
          · omega
      · rename_i hx
        cases h2
        refine ⟨hu, ⟨fun p => by rw [hp], fun p => .inl (by rw [hp])⟩, fun s hs => ?_⟩
        cases hs
        exact ⟨hrun p rfl, hx⟩

theorem Ranged.pickLoop_bound : ∀ (n : Nat) (t : Ptable), Ranged k none t →
    Mlfq.pickLoop n t ≠ .error .outOfBounds := by
  intro n
  induction n with
  | zero => intro t _ h; cases h
  | succ n ih =>
    intro t h
    refine bind_bound getProcessToRun_bound (fun x hx => ?_)
    obtain ⟨r, u⟩ := x
    obtain ⟨hq, hp⟩ := getProcessToRun_same hx
    have hu : Ranged k none u := h.globals hq hp
    cases r with
    | none => simp
    | some p =>
      simp only
      split
      · exact bind_bound hu.expire_bound (fun v hv => ih v (hu.expireTimeQuantum hv))
      · simp

/-- A process with charge left gets the CPU. -/
theorem Ranged.runProc (h : Ranged k none t) (hs : (t.proc p).state = .RUNNABLE)
    (hq : (t.proc p).tq ≠ getTimeQuantum (t.proc p).level) (hr : runProc t p = .ok t') :
    Ranged k none t' ∧ (t'.proc p).tq = (t.proc p).tq + 1 ∧
      ∀ r, r ≠ p → (t'.proc r).tq = (t.proc r).tq ∧ (t'.proc r).state = (t.proc r).state := by
  have hu : (t.proc p).state ≠ .UNUSED := by simp [hs]
  obtain ⟨hl0, hl3, hk⟩ := h.used p (by simp) hu
  obtain ⟨hp0, hp3, ht0⟩ := h.prio p hu
  have h1 : Ranged k none (t.updProc p (fun x => { x with tq := x.tq + 1 })) := by
    refine h.upd p (fun _ => ⟨rfl, rfl⟩) (fun _ => ⟨hu, hp0, hp3, by simp; omega, fun hk' => ?_⟩)
    have := hk hk'
    simp only
    omega
  obtain ⟨u, h2, h3⟩ := bind_ok hr
  cases h3
  have hround : Ranged k none u ∧ Shifts p (t.updProc p (fun x => { x with tq := x.tq + 1 })) u := by
    unfold roundRobin at h2
    split at h2
    · split at h2
      · unfold erasequeue at h2
        split at h2 <;> cases h2
        exact ⟨h1, (SameRank.refl _).shifts p⟩
      · rename_i tmp htmp
        obtain ⟨v, h4, h5⟩ := bind_ok h2
        refine ⟨h1.requeue h2 (fun hk' _ => ?_),
          (erasequeue_shifts h4).1.trans (pushqueue_shifts h5).1⟩
        have h6 := (h1.used p (by simp) (by simpa using hu)).2.2 hk'
        rw [h1.level p tmp htmp] at h6
        exact h6
    · cases h2
      exact ⟨h1, (SameRank.refl _).shifts p⟩
  obtain ⟨h6, h7⟩ := hround
  refine ⟨h6.keep p (fun _ => ⟨rfl, rfl⟩) (fun _ => ⟨?_, rfl, rfl⟩), ?_, fun r hr => ?_⟩
  · rw [h7.state]
    simpa using hu
  · simp only [Ptable.updProc_proc, if_true]
    rw [h7.tq]
    simp
  · have hrank := h7.other r hr
    simp only [Proc.rank, Prod.mk.injEq, Ptable.updProc_proc, if_neg hr] at hrank
    simp only [Ptable.updProc_proc, if_neg hr]
    exact ⟨hrank.2.2.2.2, hrank.1⟩

theorem runProc_bound : Mlfq.runProc t p ≠ .error .outOfBounds := by
  refine bind_bound ?_ (fun u _ => by simp)
  unfold roundRobin
  split
  · split
    · exact erasequeue_bound
    · exact bind_bound erasequeue_bound (fun v _ => pushqueue_bound)
  · simp

theorem Ranged.dispatch (h : Ranged k none t) (hr : dispatch t = .ok t') : Ranged k none t' := by
  obtain ⟨⟨x, u⟩, h1, h2⟩ := bind_ok hr
  obtain ⟨hu, -, hx⟩ := Ranged.pickLoop _ t u x h h1
  cases x with
  | none =>
    cases h2
    exact hu
  | some p =>
    obtain ⟨hs, hq⟩ := hx p rfl
    exact (hu.runProc hs hq h2).1

/-- A dispatch charges one tick to the process it starts. -/
theorem Ranged.dispatch_tq (h : Ranged k none t) (hr : Mlfq.dispatch t = .ok t')
    (hs : (t.proc p).state ≠ .RUNNING) (hs' : (t'.proc p).state = .RUNNING)
    (hle : (t.proc p).tq ≤ (t'.proc p).tq) : (t.proc p).tq + 1 ≤ (t'.proc p).tq := by
  obtain ⟨⟨x, u⟩, h1, h2⟩ := bind_ok hr
  obtain ⟨hu, hpick, hx⟩ := Ranged.pickLoop _ t u x h h1
  cases x with
  | none =>
    cases h2
    rw [hpick.state p] at hs'
    exact absurd hs' hs
  | some q =>
    obtain ⟨hsq, hqq⟩ := hx q rfl
    obtain ⟨-, h4, h5⟩ := hu.runProc hsq hqq h2
    have hpq : p = q := by
      by_contra hpq
      rw [(h5 p hpq).2, hpick.state p] at hs'
      exact hs hs'
    subst hpq
    rcases hpick.tq p with ha | ⟨ha, hb⟩ <;> omega

theorem Ranged.dispatch_bound (h : Ranged k none t) : Mlfq.dispatch t ≠ .error .outOfBounds := by
  refine bind_bound (Ranged.pickLoop_bound _ t h) (fun x _ => ?_)
  obtain ⟨r, u⟩ := x
  cases r with
  | none => simp
  | some p => exact runProc_bound

end Rules

/-! ## Steps -/

/-- `setLevel` with a level that passes its check and is not that of a queue. -/
def WrongLevel (t : Ptable) : Act → Prop
  | .setLevel pid level => level = NQUEUE ∧ (getProc t pid).isSome
  | _ => False

instance WrongLevel.decidable (t : Ptable) (a : Act) : Decidable (WrongLevel t a) := by
  cases a <;> unfold WrongLevel <;> infer_instance

/-- `setLevel` moves no process to a level whose quantum is below the process's charge. -/
def QuantumFits (t : Ptable) : Act → Prop
  | .setLevel pid level => ∀ p, getProc t pid = some p → 0 ≤ level → level < NQUEUE →
      (t.proc p).tq ≤ getTimeQuantum level
  | _ => True

instance QuantumFits.decidable (t : Ptable) (a : Act) : Decidable (QuantumFits t a) :=
  match a with
  | .setLevel pid level =>
    match h : getProc t pid with
    | none => .isTrue (fun p hp => by rw [h] at hp; cases hp)
    | some p => decidable_of_iff (0 ≤ level → level < NQUEUE → (t.proc p).tq ≤ getTimeQuantum level)
        ⟨fun hq r hr => by rw [h] at hr; cases hr; exact hq, fun hq => hq p h⟩
  | .userinit | .allocproc _ | .forkFinish _ _ | .forkFail _ | .exitUnlock _ | .exitTail _ | .wait _
  | .dispatch | .expireTimeQuantum _ | .boostPriority | .unlockSched | .setPriority _ _
  | .schedulerLock _ _ | .schedulerUnlock _ _ | .sleep _ _ | .wakeup _ | .kill _ | .yield _ =>
    .isTrue trivial

section Steps

variable {t t' : Ptable} {p : Slot} {k : Bool}

theorem queueAt_val {level : Int} {q : QIdx} (h0 : 0 ≤ level) (h : queueAt level = some q) :
    (q.val : Int) = level ∧ level < NQUEUE := by
  unfold queueAt at h
  split at h
  · rename_i hlt
    cases h
    simp only
    omega
  · cases h

theorem Ranged.setLevel (h : Ranged k none t) {pid level : Int}
    (hf : k = true → QuantumFits t (.setLevel pid level)) (hr : setLevel t pid level = .ok t') :
    Ranged k none t' := by
  unfold Mlfq.setLevel at hr
  split at hr
  · cases hr
    exact h
  · rename_i hl
    split at hr
    · cases hr
      exact h
    · rename_i p hp
      obtain ⟨u, h1, h2⟩ := bind_ok hr
      split at h2
      · cases h2
      · rename_i q hq
        obtain ⟨hv, hlt⟩ := queueAt_val (by omega) hq
        refine (h.erase h1).push (.inl h2) (fun hk _ => ?_)
        rw [(erasequeue_shifts h1).1.tq, hv]
        exact hf hk p hp (by omega) hlt

theorem setLevel_bound {pid level : Int} (hw : ¬ WrongLevel t (.setLevel pid level)) :
    Mlfq.setLevel t pid level ≠ .error .outOfBounds := by
  unfold Mlfq.setLevel
  split
  · simp
  · rename_i hl
    split
    · simp
    · rename_i p hp
      refine bind_bound erasequeue_bound (fun u _ => ?_)
      have hne : level ≠ NQUEUE := fun he => hw ⟨he, by simp [hp]⟩
      have hlt : level.toNat < NQUEUE := by
        have h3 : (NQUEUE : Int) = 3 := rfl
        have h3' : NQUEUE = 3 := rfl
        omega
      have hq : queueAt level ≠ none := by
        unfold queueAt
        rw [dif_pos hlt]
        simp
      split
      · rename_i hn
        exact absurd hn hq
      · exact pushqueue_bound

/-- A slot that was free becomes a process with a new quantum on L0. -/
theorem Ranged.allocproc (h : Ranged k none t) {r : Option Slot} (hr : allocproc t = .ok (r, t')) :
    Ranged k none t' := by
  unfold Mlfq.allocproc at hr
  split at hr
  · cases hr
    exact h
  · rename_i p hp
    have hfree : (t.proc p).state = .UNUSED := by simpa [firstSlot] using List.find?_some hp
    obtain ⟨u, h1, h2⟩ := bind_ok hr
    cases h2
    refine Ranged.push (p := p) (q := 0) ?_ (.inl h1) (fun _ _ => ?_)
    · refine ⟨h.qlevel, fun s q hs => ?_, fun s hs => ?_, fun s he hs => ?_⟩
      · by_cases hsp : s = p
        · subst hsp
          have := h.level s q (by simpa using hs)
          simpa using this
        · have := h.level s q (by simpa [hsp] using hs)
          simpa [hsp] using this
      · by_cases hsp : s = p
        · subst hsp
          simp
        · have := h.prio s (by simpa [hsp] using hs)
          simpa [hsp] using this
      · have hsp : s ≠ p := fun hsp => he (by rw [hsp])
        have := h.used s (by simp) (by simpa [hsp] using hs)
        simpa [hsp] using this
    · have := quantum_nonneg (Int.natCast_nonneg (0 : QIdx).val)
      simp only [Ptable.updProc_proc, if_true]
      omega

theorem allocproc_bound : Mlfq.allocproc t ≠ .error .outOfBounds := by
  unfold Mlfq.allocproc
  split
  · simp
  · exact bind_bound pushqueue_bound (fun u _ => by simp)

theorem Ranged.userinit (h : Ranged k none t) (hr : userinit t = .ok t') : Ranged k none t' := by
  obtain ⟨⟨x, u⟩, h1, h2⟩ := bind_ok hr
  cases x with
  | none => cases h2
  | some p =>
    cases h2
    have hu := h.allocproc h1
    have hs : (u.proc p).state ≠ .UNUSED := by
      unfold Mlfq.allocproc at h1
      split at h1
      · cases h1
      · obtain ⟨v, h3, h4⟩ := bind_ok h1
        cases h4
        rw [(pushqueue_shifts h3).1.state]
        simp
    have hg : Ranged k none { u with initproc := p } := hu.globals rfl rfl
    refine hg.keep p (fun _ => by exact ⟨rfl, rfl⟩) (fun _ => ?_)
    exact ⟨hs, rfl, rfl⟩

theorem Ranged.wakeup1 (h : Ranged k none t) (chan : Chan) : Ranged k none (wakeup1 t chan) := by
  have hproc : ∀ p, ((Mlfq.wakeup1 t chan).proc p).queue = (t.proc p).queue ∧
      ((Mlfq.wakeup1 t chan).proc p).level = (t.proc p).level ∧
      ((Mlfq.wakeup1 t chan).proc p).priority = (t.proc p).priority ∧
      ((Mlfq.wakeup1 t chan).proc p).tq = (t.proc p).tq ∧
      (((Mlfq.wakeup1 t chan).proc p).state ≠ .UNUSED → (t.proc p).state ≠ .UNUSED) := by
    intro p
    simp only [Mlfq.wakeup1]
    split
    · rename_i hs
      refine ⟨rfl, rfl, rfl, rfl, fun _ => by simp [hs.1]⟩
    · exact ⟨rfl, rfl, rfl, rfl, id⟩
  refine ⟨h.qlevel, fun p q hq => ?_, fun p hp => ?_, fun p he hp => ?_⟩
  · obtain ⟨h1, h2, -⟩ := hproc p
    rw [h2]
    exact h.level p q (h1 ▸ hq)
  · obtain ⟨-, -, h3, h4, h5⟩ := hproc p
    rw [h3, h4]
    exact h.prio p (h5 hp)
  · obtain ⟨-, h2, -, h4, h5⟩ := hproc p
    rw [h2, h4]
    exact h.used p he (h5 hp)

theorem Ranged.reparent (h : Ranged k none t) (p : Slot) : Ranged k none (reparent t p) := by
  have hrank : SameRank t (Mlfq.reparent t p) := by
    refine ⟨fun _ => rfl, fun r => ?_⟩
    simp only [Mlfq.reparent]
    split <;> rfl
  exact hrank.ranged h

theorem Ranged.exitTail (h : Ranged k none t) (hs : (t.proc p).state ≠ .UNUSED) :
    Ranged k none (exitTail t p) := by
  have h1 : Ranged k none (wakeupProc t (t.proc p).parent) ∧
      ((wakeupProc t (t.proc p).parent).proc p).state ≠ .UNUSED := by
    unfold wakeupProc
    split
    · exact ⟨h, hs⟩
    · refine ⟨h.wakeup1 _, ?_⟩
      simp only [Mlfq.wakeup1]
      split
      · simp
      · exact hs
  have h2 : ∀ u : Ptable, Ranged k none u → (u.proc p).state ≠ .UNUSED →
      Ranged k none (passChildren u p) ∧ ((passChildren u p).proc p).state ≠ .UNUSED := by
    intro u hu hus
    have hr : ((Mlfq.reparent u p).proc p).state ≠ .UNUSED := by
      simp only [Mlfq.reparent]
      split <;> exact hus
    unfold passChildren
    split
    · refine ⟨(hu.reparent p).wakeup1 _, ?_⟩
      simp only [Mlfq.wakeup1]
      split
      · simp
      · exact hr
    · exact ⟨hu.reparent p, hr⟩
  obtain ⟨h3, h4⟩ := h2 _ h1.1 h1.2
  exact h3.keep p (fun _ => ⟨rfl, rfl⟩) (fun _ => ⟨h4, rfl, rfl⟩)

theorem Ranged.wait (h : Ranged k none t) (hs : (t.proc p).state ≠ .UNUSED)
    (hr : wait t p = .ok t') : Ranged k none t' := by
  unfold Mlfq.wait at hr
  split at hr
  · rename_i q _
    obtain ⟨u, h1, h2⟩ := bind_ok hr
    cases h2
    have hu := h.erase h1
    refine ⟨hu.qlevel, fun r q' hr => ?_, fun r hr => ?_, fun r he hr => ?_⟩
    · by_cases hrq : r = q
      · subst hrq
        have := hu.level r q' (by simpa using hr)
        simpa using this
      · have := hu.level r q' (by simpa [hrq] using hr)
        simpa [hrq] using this
    · by_cases hrq : r = q
      · simp [hrq] at hr
      · have := hu.prio r (by simpa [hrq] using hr)
        simpa [hrq] using this
    · by_cases hrq : r = q
      · simp [hrq] at hr
      · have := hu.used r (by simpa using hrq) (by simpa [hrq] using hr)
        simpa [hrq] using this
  · split at hr <;> cases hr
    · exact h
    · exact h.keep p (fun _ => ⟨rfl, rfl⟩) (fun _ => ⟨hs, rfl, rfl⟩)

theorem wait_bound : Mlfq.wait t p ≠ .error .outOfBounds := by
  unfold Mlfq.wait
  split
  · exact bind_bound erasequeue_bound (fun u _ => by simp)
  · split <;> simp

theorem Ranged.boostUnlock (h : Ranged k none t) (hr : boostUnlock { t with ticks := 0 } = .ok t') :
    Ranged k none t' := by
  have h0 : Ranged k none { t with ticks := 0 } := h.globals rfl rfl
  unfold Mlfq.boostUnlock at hr
  split at hr
  · cases hr
    exact h0
  · exact h0.schedulerUnlock hr

theorem Ranged.boostPriority (h : Ranged k none t) (hr : boostPriority t = .ok t') :
    Ranged k none t' := by
  obtain ⟨u, h1, h2⟩ := bind_ok hr
  exact Ranged.boostLoop _ u t' (h.boostUnlock h1) h2

/-- In the middle of an action only the process that is on its way has no level. -/
theorem Ranged.moves (h : Ranged k none t) {a : Act} (hm : Moves t a p u) :
    Ranged k (some p) u ∧ (u.proc p).level = -1 := by
  cases hm with
  | setLevel _ _ he => exact ⟨h.erase he, erasequeue_level he⟩
  | boost _ _ h0 h1 h2 _ he =>
    have hx := Ranged.clearProcs _ _ _ (Ranged.boostLoop _ _ _ (h.boostUnlock h0) h1) h2
    have hc := hx.clear p (f := fun y => { y with priority := 3, tq := 0 }) (fun _ => ⟨rfl, rfl, rfl⟩)
      (fun _ => by simp) rfl
    exact ⟨hc.erase he, erasequeue_level he⟩

theorem Ranged.getLevel (h : Ranged k e t) (he : some p ≠ e) (hp : (t.proc p).state ≠ .UNUSED) :
    getLevel t (some p) = (t.proc p).level ∧ getLevel t (some p) ≠ -1 := by
  obtain ⟨h1, h2, -⟩ := h.used p he hp
  rw [Mlfq.getLevel, if_neg (by omega)]
  exact ⟨rfl, by omega⟩

theorem boostPriority_bound : Mlfq.boostPriority t ≠ .error .outOfBounds := by
  refine bind_bound ?_ (fun u _ => boostLoop_bound _ u)
  unfold boostUnlock
  split
  · simp
  · exact schedulerUnlock_bound

theorem byProc_ok {r : Except Fault Ptable} (h : byProc t p r = .ok t') :
    (t.proc p).state = .RUNNING ∧ r = .ok t' := by
  unfold byProc at h
  split at h
  · exact ⟨‹_›, h⟩
  · cases h

theorem byProc_bound {r : Except Fault Ptable} (h : r ≠ .error .outOfBounds) :
    byProc t p r ≠ .error .outOfBounds := by
  unfold byProc
  split
  · exact h
  · simp

theorem Ranged.exec (h : Ranged k none t) {a : Act} (hf : k = true → QuantumFits t a)
    (hr : exec t a = .ok t') : Ranged k none t' := by
  have hused : ∀ {c : Slot}, (t.proc c).state = .RUNNING → (t.proc c).state ≠ .UNUSED :=
    fun hc => by simp [hc]
  cases a with
  | userinit =>
    simp only [Mlfq.exec] at hr
    split at hr
    · exact h.userinit hr
    · cases hr
  | allocproc cur =>
    obtain ⟨-, hr⟩ := byProc_ok hr
    cases ha : Mlfq.allocproc t with
    | error f =>
      rw [ha] at hr
      cases hr
    | ok x =>
      rw [ha] at hr
      cases hr
      exact h.allocproc ha
  | forkFinish cur np =>
    simp only [Mlfq.exec] at hr
    split at hr
    · rename_i hs
      obtain ⟨-, hr⟩ := byProc_ok hr
      cases hr
      exact h.keep np (fun _ => ⟨rfl, rfl⟩) (fun _ => ⟨by simp [hs], rfl, rfl⟩)
    · cases hr
  | forkFail np =>
    simp only [Mlfq.exec] at hr
    split at hr
    · cases hr
      exact h.keep np (fun _ => ⟨rfl, rfl⟩) (fun hs => absurd rfl hs)
    · cases hr
  | exitUnlock cur =>
    obtain ⟨-, hr⟩ := byProc_ok hr
    split at hr
    · exact h.schedulerUnlock hr
    · cases hr
      exact h
  | exitTail cur =>
    simp only [Mlfq.exec] at hr
    split at hr
    · cases hr
    · obtain ⟨hc, hr⟩ := byProc_ok hr
      cases hr
      exact h.exitTail (hused hc)
  | wait cur =>
    obtain ⟨hc, hr⟩ := byProc_ok hr
    exact h.wait (hused hc) hr
  | dispatch => exact h.dispatch hr
  | expireTimeQuantum p =>
    simp only [Mlfq.exec] at hr
    split at hr
    · exact h.expireTimeQuantum hr
    · cases hr
  | boostPriority => exact h.boostPriority hr
  | unlockSched =>
    simp only [Mlfq.exec] at hr
    exact h.schedulerUnlock hr
  | setPriority pid priority =>
    cases hr
    unfold setPriority
    split
    · exact h
    · rename_i hp
      split
      · exact h
      · refine h.upd _ (fun _ => ⟨rfl, rfl⟩) (fun hs => ⟨hs, by simp only; omega, by simp only; omega,
          (h.prio _ hs).2.2, (h.used _ (by simp) hs).2.2⟩)
  | schedulerLock cur password =>
    obtain ⟨-, hr⟩ := byProc_ok hr
    cases hr
    unfold schedulerLock
    split
    · exact h.keep _ (fun _ => ⟨rfl, rfl⟩) (fun hs => ⟨hs, rfl, rfl⟩)
    · split
      · exact h.keep _ (fun _ => ⟨rfl, rfl⟩) (fun hs => ⟨hs, rfl, rfl⟩)
      · exact h.globals rfl rfl
  | schedulerUnlock cur password =>
    obtain ⟨-, hr⟩ := byProc_ok hr
    exact h.schedulerUnlock hr
  | setLevel pid level => exact h.setLevel hf hr
  | sleep cur chan =>
    obtain ⟨hc, hr⟩ := byProc_ok hr
    cases hr
    exact h.keep _ (fun _ => ⟨rfl, rfl⟩) (fun _ => ⟨hused hc, rfl, rfl⟩)
  | wakeup chan =>
    cases hr
    exact h.wakeup1 chan
  | kill pid =>
    cases hr
    unfold kill
    split
    · exact h
    · refine h.keep _ (fun _ => ⟨rfl, rfl⟩) (fun hs => ⟨fun hu => hs ?_, rfl, rfl⟩)
      simp [hu]
  | yield cur =>
    obtain ⟨hc, hr⟩ := byProc_ok hr
    cases hr
    exact h.keep _ (fun _ => ⟨rfl, rfl⟩) (fun _ => ⟨hused hc, rfl, rfl⟩)

/-- No action but a `setLevel` with the level `NQUEUE` leaves the array of queues. -/
theorem Ranged.exec_bound (h : Ranged k none t) {a : Act} (hw : ¬ WrongLevel t a) :
    Mlfq.exec t a ≠ .error .outOfBounds := by
  cases a with
  | userinit =>
    simp only [Mlfq.exec]
    split
    · refine bind_bound allocproc_bound (fun x _ => ?_)
      split <;> simp
    · simp
  | allocproc cur =>
    refine byProc_bound (fun he => ?_)
    cases ha : Mlfq.allocproc t with
    | error f =>
      rw [ha] at he
      cases he
      exact allocproc_bound ha
    | ok x =>
      rw [ha] at he
      cases he
  | forkFinish cur np =>
    simp only [Mlfq.exec]
    split
    · exact byProc_bound (by simp)
    · simp
  | forkFail np =>
    simp only [Mlfq.exec]
    split <;> simp
  | exitUnlock cur =>
    refine byProc_bound ?_
    split
    · exact schedulerUnlock_bound
    · simp
  | exitTail cur =>
    simp only [Mlfq.exec]
    split
    · simp
    · exact byProc_bound (by simp)
  | wait cur => exact byProc_bound wait_bound
  | dispatch => exact h.dispatch_bound
  | expireTimeQuantum p =>
    simp only [Mlfq.exec]
    split
    · exact h.expire_bound
    · simp
  | boostPriority => exact boostPriority_bound
  | unlockSched =>
    simp only [Mlfq.exec]
    exact schedulerUnlock_bound
  | setPriority pid priority => simp [Mlfq.exec]
  | schedulerLock cur password => exact byProc_bound (by simp)
  | schedulerUnlock cur password => exact byProc_bound schedulerUnlock_bound
  | setLevel pid level => exact setLevel_bound hw
  | sleep cur chan => exact byProc_bound (by simp)
  | wakeup chan => simp [Mlfq.exec]
  | kill pid => simp [Mlfq.exec]
  | yield cur => exact byProc_bound (by simp)

theorem Ranged.step (h : Ranged k none t) {a : Act} (hf : k = true → QuantumFits t a)
    (hs : step t a = some t') : Ranged k none t' := by
  unfold Mlfq.step at hs
  cases he : Mlfq.exec t a with
  | error f => simp [he, Except.toOption] at hs
  | ok u =>
    rw [he] at hs
    cases hs
    exact h.exec hf he

theorem Ranged.pinit : Ranged k none pinit := by
  constructor <;> simp [Mlfq.pinit]

end Steps

/-! ## Whole runs -/

/-- What the levels and priorities promise in the state `t`. -/
structure LevelsOk (t : Ptable) : Prop where
  range : ∀ p, (t.proc p).state ≠ .UNUSED → 0 ≤ (t.proc p).level ∧ (t.proc p).level < NQUEUE ∧
    0 ≤ (t.proc p).priority ∧ (t.proc p).priority ≤ 3
  getLevel : ∀ p, (t.proc p).state = .RUNNING → getLevel t (some p) ≠ -1

/-- In every run in which no `setLevel` names the level `NQUEUE` and a process, levels and
priorities are in range in every state reached, and the next action stays within
`ptable.queue` as well unless it is such a call. A `getLevel` in the middle of that action
returns -1 to the process that is on its way to another queue, and to no other. -/
theorem levels_in_range (as : List Act) (t : Ptable)
    (hw : Lib.Meets step (fun t a => ¬ WrongLevel t a) pinit as)
    (hr : Lib.run step pinit as = some t) :
    LevelsOk t ∧ (∀ a, ¬ WrongLevel t a → exec t a ≠ .error .outOfBounds) ∧
      ∀ a p u q, Moves t a p u → (u.proc q).state = .RUNNING → (getLevel u (some q) = -1 ↔ q = p) := by
  have h : Ranged false none t := Lib.run_inv
    (fun _ _ _ h _ hs => h.step (fun hk => by cases hk) hs) as _ t Ranged.pinit hw hr
  have hrange : ∀ p, (t.proc p).state ≠ .UNUSED → 0 ≤ (t.proc p).level ∧
      (t.proc p).level < NQUEUE ∧ 0 ≤ (t.proc p).priority ∧ (t.proc p).priority ≤ 3 := by
    intro p hp
    obtain ⟨h1, h2, -⟩ := h.used p (by simp) hp
    obtain ⟨h3, h4, -⟩ := h.prio p hp
    exact ⟨h1, h2, h3, h4⟩
  refine ⟨⟨hrange, fun p hp => ?_⟩, fun a ha => h.exec_bound ha, fun a p u q hm hq => ?_⟩
  · exact (h.getLevel (by simp) (by simp [hp])).2
  · obtain ⟨hu, hp⟩ := h.moves hm
    constructor
    · intro hl
      by_contra hne
      exact (hu.getLevel (by simp [hne]) (by simp [hq])).2 hl
    · rintro rfl
      rw [Mlfq.getLevel, hp]
      rfl

/-- `setLevel` with a level out of range, with a pid that is not there, and in range; and a
child that another CPU dispatches. -/
def levelCalls : List Act :=
  [.userinit, .dispatch, .setLevel 1 7, .setLevel 9 3, .setLevel 1 2, .allocproc 0, .forkFinish 0 1,
    .dispatch]

/-- While `boostPriority` moves the parent, `getLevel` returns -1 to it, and 0 to the child. -/
theorem levels_in_range_levelCalls : ∃ t u, Lib.run step pinit levelCalls = some t ∧
    (t.proc 0).level = 2 ∧ (t.proc 1).state = .RUNNING ∧ LevelsOk t ∧ Moves t .boostPriority 0 u ∧
    (getLevel u (some 0) = -1 ↔ (0 : Slot) = 0) ∧ getLevel u (some 1) = 0 := by
  have hrun : (Lib.run step pinit levelCalls).any (fun t => t.lockpid = 0 ∧ (t.proc 0).level = 2 ∧
      (t.proc 1).state = .RUNNING ∧ (t.proc 0).state = .RUNNING ∧
      (erasequeue ({ t with ticks := 0 }.updProc 0 (fun y => { y with priority := 3, tq := 0 }))
        (some 2) 0).toOption.any (fun u => (u.proc 0).state = .RUNNING ∧ getLevel u (some 1) = 0)) := by
    decide +kernel
  obtain ⟨t, hr, ht⟩ := (Option.any_eq_true _ _).mp hrun
  obtain ⟨hlock, h2, h1, h0, he⟩ := of_decide_eq_true ht
  obtain ⟨u, hu, he⟩ := (Option.any_eq_true _ _).mp he
  obtain ⟨hrunning, hchild⟩ := of_decide_eq_true he
  cases hx : erasequeue ({ t with ticks := 0 }.updProc 0 (fun y => { y with priority := 3, tq := 0 }))
      (some 2) 0 with
  | error e =>
    rw [hx] at hu
    cases hu
  | ok v =>
    rw [hx] at hu
    obtain rfl : v = u := Option.some.inj hu
    have hm : Moves t .boostPriority 0 v := by
      refine .boost (n := 0) (l := []) (by decide) List.finRange_succ (if_pos hlock) rfl rfl ?_ hx
      simp [h0]
    obtain ⟨hok, -, hmoves⟩ := levels_in_range levelCalls t (by decide +kernel) hr
    exact ⟨t, v, hr, h2, h1, hok, hm, hmoves _ 0 v 0 hm hrunning, hchild⟩

/-- The first process asks for level 3, which passes the check of `setLevel`. -/
theorem setLevel_leaves_queues : ∃ t, Lib.run step pinit [.userinit, .dispatch] = some t ∧
    exec t (.setLevel 1 3) = .error .outOfBounds := by
  have hrun : (Lib.run step pinit [.userinit, .dispatch]).any (fun t =>
      match exec t (.setLevel 1 3) with
      | .error .outOfBounds => true
      | _ => false) := by
    decide +kernel
  obtain ⟨t, hr, ht⟩ := (Option.any_eq_true _ _).mp hrun
  refine ⟨t, hr, ?_⟩
  split at ht
  · assumption
  · cases ht

/-- How often a run dispatches the process in slot `p`. -/
def dispatches (p : Slot) : Ptable → List Act → Nat
  | _, [] => 0
  | t, a :: as =>
    match step t a with
    | none => 0
    | some t' =>
      (if a = .dispatch ∧ (t.proc p).state ≠ .RUNNING ∧ (t'.proc p).state = .RUNNING then 1 else 0) +
        dispatches p t' as

/-- The step gives the process in slot `p` no new quantum. -/
def SameQuantum (p : Slot) (t : Ptable) (a : Act) : Prop :=
  ∀ t', step t a = some t' → (t.proc p).tq ≤ (t'.proc p).tq

/-- Along a run that gives `p` no new quantum every dispatch of `p` is charged. -/
theorem dispatches_charged {p : Slot} : ∀ (as : List Act) (t t' : Ptable), Ranged true none t →
    Lib.Meets step QuantumFits t as → Lib.Meets step (SameQuantum p) t as →
    Lib.run step t as = some t' → (dispatches p t as : Int) + (t.proc p).tq ≤ (t'.proc p).tq := by
  intro as
  induction as with
  | nil =>
    intro t t' _ _ _ hr
    cases hr
    simp [dispatches]
  | cons a as ih =>
    intro t t' h hf hq hr
    obtain ⟨u, hs, hr⟩ := Lib.run_cons hr
    have hu := h.step (fun _ => hf.1) hs
    have hle := ih u t' hu (hf.2 u hs) (hq.2 u hs) hr
    have htq := hq.1 u hs
    simp only [dispatches, hs]
    split
    · rename_i hd
      obtain ⟨rfl, h1, h2⟩ := hd
      have hex : dispatch t = .ok u := by
        unfold step at hs
        cases he : exec t .dispatch with
        | error f => simp [he, Except.toOption] at hs
        | ok v =>
          rw [he] at hs
          cases hs
          exact he
      have := h.dispatch_tq hex h1 h2 htq
      push_cast
      omega
    · push_cast
      omega

/-- In every run in which `setLevel` moves no process to a level whose quantum is below its
charge, every process is charged at most the quantum of its level, and is dispatched at
most that often from there on unless it is given a new quantum. -/
theorem charges_in_quantum (as : List Act) (t : Ptable) (hf : Lib.Meets step QuantumFits pinit as)
    (hr : Lib.run step pinit as = some t) :
    (∀ p, (t.proc p).state ≠ .UNUSED → (t.proc p).InQuantum) ∧
      ∀ p bs t', (t.proc p).state ≠ .UNUSED → Lib.Meets step QuantumFits t bs →
        Lib.Meets step (SameQuantum p) t bs → Lib.run step t bs = some t' →
        (t'.proc p).state ≠ .UNUSED →
        (dispatches p t bs : Int) ≤ getTimeQuantum (t'.proc p).level := by
  have hstep : ∀ s a s', Ranged true none s → QuantumFits s a → step s a = some s' →
      Ranged true none s' := fun _ _ _ h hf hs => h.step (fun _ => hf) hs
  have h : Ranged true none t := Lib.run_inv hstep as _ t Ranged.pinit hf hr
  refine ⟨fun p hp => ⟨(h.prio p hp).2.2, (h.used p (by simp) hp).2.2 rfl⟩, ?_⟩
  intro p bs t' hp hfb hqb hrb hp'
  have h' : Ranged true none t' := Lib.run_inv hstep bs t t' h hfb hrb
  have h1 := dispatches_charged bs t t' h hfb hqb hrb
  have h2 := (h.prio p hp).2.2
  have h3 := (h'.used p (by simp) hp').2.2 rfl
  omega

/-- Three dispatches in a row on L0. -/
def threeDispatches : List Act := [.dispatch, .yield 0, .dispatch, .yield 0, .dispatch]

theorem charges_in_quantum_threeDispatches : ∃ t t',
    Lib.run step pinit [.userinit] = some t ∧ Lib.run step t threeDispatches = some t' ∧
      dispatches 0 t threeDispatches = 3 ∧ (t'.proc 0).InQuantum := by
  have hrun : (Lib.run step pinit [.userinit]).any (fun t => dispatches 0 t threeDispatches = 3) := by
    decide +kernel
  obtain ⟨t, hr, ht⟩ := (Option.any_eq_true _ _).mp hrun
  have hall : Lib.Meets step QuantumFits pinit ([.userinit] ++ threeDispatches) := by decide +kernel
  have hrun' : (Lib.run step pinit ([.userinit] ++ threeDispatches)).any
      (fun t' => (t'.proc 0).state = .RUNNING) := by
    decide +kernel
  obtain ⟨t', hr', ht'⟩ := (Option.any_eq_true _ _).mp hrun'
  have hr2 : Lib.run step t threeDispatches = some t' := by
    rw [Lib.run_append, hr] at hr'
    exact hr'
  have hs : (t'.proc 0).state ≠ .UNUSED := by simp [of_decide_eq_true ht']
  exact ⟨t, t', hr, hr2, of_decide_eq_true ht, (charges_in_quantum _ t' hall hr').1 0 hs⟩

/-- A process that has used five ticks on L2 is moved to L0, whose quantum is four. -/
theorem setLevel_keeps_charge : ∃ t, Lib.run step pinit
    ([.userinit, .dispatch, .setLevel 1 2] ++
      (List.replicate 4 [.yield 0, .dispatch]).flatten ++ [.setLevel 1 0]) = some t ∧
    (t.proc 0).state = .RUNNING ∧ (t.proc 0).tq = 5 ∧ ¬ (t.proc 0).InQuantum := by
  have hrun : (Lib.run step pinit ([.userinit, .dispatch, .setLevel 1 2] ++
      (List.replicate 4 [.yield 0, .dispatch]).flatten ++ [.setLevel 1 0])).any (fun t =>
        (t.proc 0).state = .RUNNING ∧ (t.proc 0).tq = 5 ∧ (t.proc 0).level = 0) := by
    decide +kernel
  obtain ⟨t, hr, ht⟩ := (Option.any_eq_true _ _).mp hrun
  obtain ⟨h1, h2, h3⟩ := of_decide_eq_true ht
  refine ⟨t, hr, h1, h2, fun h => ?_⟩
  have := h.2
  rw [h2, h3] at this
  simp [getTimeQuantum] at this

end Xv6.Mlfq
