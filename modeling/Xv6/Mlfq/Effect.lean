import Xv6.Mlfq.Levels
import Xv6.Mlfq.Membership

/- What one action of the machine can do to the table. Most actions write no link
   and no charge (`Quiet`); the others relink one process, by the calls that
   `Effect` names. A claim about runs is then proved by the cases of `Effect`, not
   by those of `Act`.

   The inner loop of the scheduler is taken apart the same way: `Picks t l r t'`
   says that it expires the processes of `l` in order and then settles on `r`. -/
namespace Xv6.Mlfq

/-- No link and no charge is written. A process that was RUNNABLE stays so, a free
slot stays free, and a slot is freed by a failed fork only. -/
structure Quiet (t : Ptable) (a : Act) (t' : Ptable) : Prop where
  queue : t'.queue = t.queue
  links : ∀ r, (t'.proc r).links = (t.proc r).links
  tq : ∀ r, (t'.proc r).tq = (t.proc r).tq
  priority : ∀ r, (t'.proc r).priority = (t.proc r).priority ∨
    ∃ pid n, a = .setPriority pid n ∧ getProc t pid = some r
  unused : ∀ r, (t.proc r).state = .UNUSED → (t'.proc r).state = .UNUSED
  runnable : ∀ r, (t.proc r).state = .RUNNABLE → (t'.proc r).state = .RUNNABLE
  freed : ∀ r, (t'.proc r).state = .UNUSED → (t.proc r).state = .UNUSED ∨
    a = .forkFail r ∧ (t.proc r).state = .EMBRYO

/-- The slot `allocproc` goes for. -/
def freeSlot (t : Ptable) : Option Slot := firstSlot (fun p => (t.proc p).state == .UNUSED)

/-- The slot `p` as `allocproc` fills it, before it is put on L0. -/
def embryo (t : Ptable) (p : Slot) : Ptable :=
  { t.updProc p (fun x =>
      { x with
        state := .EMBRYO, pid := t.nextpid, priority := 3
        next := none, prev := none, tq := 0 }) with nextpid := t.nextpid + 1 }

/-- The action gives up the scheduler lock on behalf of `c`. -/
def Unlocks (c : Slot) (a : Act) : Prop := a = .exitUnlock c ∨ ∃ password, a = .schedulerUnlock c password

inductive Effect (t : Ptable) : Act → Ptable → Prop where
  | quiet {a : Act} {t' : Ptable} (h : Quiet t a t') : Effect t a t'
  | create {a : Act} {u t' : Ptable} (p : Slot) (ha : a = .userinit ∨ ∃ c, a = .allocproc c)
      (hfree : freeSlot t = some p) (hu : pushqueue (embryo t p) 0 p = .ok u)
      (hq : t'.queue = u.queue) (hp : (t'.proc p).state ≠ .UNUSED)
      (hproc : ∀ r, t'.proc r = u.proc r ∨ r = p ∧ t'.proc r = { u.proc r with state := .RUNNABLE }) :
      Effect t a t'
  | reap {u : Ptable} (c p : Slot) (hz : (t.proc p).state = .ZOMBIE)
      (hu : erasequeue t (t.proc p).queue p = .ok u) :
      Effect t (.wait c) (u.updProc p (fun x =>
        { x with
          pid := 0, parent := none, killed := false, state := .UNUSED
          priority := -1, tq := -1 }))
  | front {a : Act} {u v : Ptable} (c : Slot) (ha : Unlocks c a) (hl : t.lockpid ≠ 0)
      (hc : (t.proc c).state = .RUNNING) (hu : erasequeue t (t.proc c).queue c = .ok u)
      (hv : pushfrontqueue u 0 c = .ok v) :
      Effect t a { v.updProc c (fun x => { x with priority := 3, tq := 0 }) with lockpid := 0 }
  | relevel {u t' : Ptable} (pid level : Int) (p : Slot) (q : QIdx) (hp : getProc t pid = some p)
      (hu : erasequeue t (t.proc p).queue p = .ok u) (ht : pushqueue u q p = .ok t') :
      Effect t (.setLevel pid level) t'
  | dispatch {t' : Ptable} (h : dispatch t = .ok t') : Effect t .dispatch t'
  | expire {t' : Ptable} (p : Slot) (hs : (t.proc p).state = .RUNNABLE)
      (h : expireTimeQuantum t p = .ok t') : Effect t (.expireTimeQuantum p) t'
  | boost {t' : Ptable} (h : boostPriority t = .ok t') : Effect t .boostPriority t'

section Quiet

variable {t t' u : Ptable} {a : Act} {p : Slot}

theorem Quiet.same (hq : t'.queue = t.queue) (hp : t'.proc = t.proc) : Quiet t a t' := by
  refine ⟨hq, ?_, ?_, ?_, ?_, ?_, ?_⟩
  · exact fun r => by rw [hp]
  · exact fun r => by rw [hp]
  · exact fun r => .inl (by rw [hp])
  · exact fun r hr => by rw [hp]; exact hr
  · exact fun r hr => by rw [hp]; exact hr
  · exact fun r hr => .inl (by rw [← hp]; exact hr)

theorem Quiet.refl (t : Ptable) (a : Act) : Quiet t a t := .same rfl rfl

/-- A field that `f` keeps is kept in the table. -/
theorem updProc_keep {α : Type} (t : Ptable) (p r : Slot) {f : Proc → Proc} (g : Proc → α)
    (hg : ∀ x, g (f x) = g x) : g ((t.updProc p f).proc r) = g (t.proc r) := by
  rw [Ptable.updProc_proc]
  split
  · exact hg _
  · rfl

/-- One process changes its state or a field scheduling does not order by. -/
theorem Quiet.updProc (p : Slot) {f : Proc → Proc} (hl : ∀ x, (f x).links = x.links)
    (ht : ∀ x, (f x).tq = x.tq) (hp : ∀ x, (f x).priority = x.priority)
    (hu : (f (t.proc p)).state = .UNUSED ↔ (t.proc p).state = .UNUSED)
    (hr : (t.proc p).state = .RUNNABLE → (f (t.proc p)).state = .RUNNABLE) :
    Quiet t a (t.updProc p f) := by
  refine ⟨rfl, fun r => updProc_keep t p r Proc.links hl, fun r => updProc_keep t p r Proc.tq ht,
    fun r => .inl (updProc_keep t p r Proc.priority hp), fun r h => ?_, fun r h => ?_, fun r h => .inl ?_⟩
  all_goals rw [Ptable.updProc_proc] at *
  · split
    · next he => subst he; exact hu.mpr h
    · exact h
  · split
    · next he => subst he; exact hr h
    · exact h
  · split at h
    · next he => subst he; exact hu.mp h
    · exact h

theorem Quiet.wakeup1 (t : Ptable) (a : Act) (chan : Chan) : Quiet t a (wakeup1 t chan) := by
  refine ⟨rfl, fun r => ?_, fun r => ?_, fun r => .inl ?_, fun r h => ?_, fun r h => ?_,
    fun r h => .inl ?_⟩
  all_goals simp only [Mlfq.wakeup1] at *
  all_goals split at *
  all_goals first
    | rfl
    | exact h
    | simp_all

theorem Quiet.trans (h : Quiet t a u) (h' : Quiet u a t') (ha : ∀ r, a ≠ .forkFail r)
    (hp : ∀ pid n, a ≠ .setPriority pid n) : Quiet t a t' := by
  refine ⟨h'.queue.trans h.queue, fun r => (h'.links r).trans (h.links r),
    fun r => (h'.tq r).trans (h.tq r), fun r => ?_, fun r hr => h'.unused r (h.unused r hr),
    fun r hr => h'.runnable r (h.runnable r hr), fun r hr => ?_⟩
  · rcases h.priority r with h1 | ⟨pid, n, h1, -⟩
    · rcases h'.priority r with h2 | ⟨pid, n, h2, -⟩
      · exact .inl (h2.trans h1)
      · exact absurd h2 (hp pid n)
    · exact absurd h1 (hp pid n)
  · rcases h'.freed r hr with h1 | ⟨h1, -⟩
    · exact h.freed r h1
    · exact absurd h1 (ha r)

/-- `exit` behind the unlock. -/
theorem Quiet.exitTail (cur : Slot) (hc : (t.proc cur).state = .RUNNING) :
    Quiet t (.exitTail cur) (exitTail t cur) := by
  have hwake : Quiet t (.exitTail cur) (wakeupProc t (t.proc cur).parent) := by
    cases (t.proc cur).parent with
    | none => exact .refl t _
    | some r => exact .wakeup1 t _ _
  have hpass : ∀ u : Ptable, Quiet u (.exitTail cur) (passChildren u cur) := by
    intro u
    have hre : Quiet u (.exitTail cur) (reparent u cur) := by
      refine ⟨rfl, fun r => ?_, fun r => ?_, fun r => .inl ?_, fun r h => ?_, fun r h => ?_,
        fun r h => .inl ?_⟩
      all_goals simp only [reparent] at *
      all_goals split at *
      all_goals first
        | rfl
        | exact h
    unfold passChildren
    split
    · exact hre.trans (.wakeup1 _ _ _) (by simp) (by simp)
    · exact hre
  have hu := hwake.trans (hpass _) (by simp) (by simp)
  -- the process itself is still RUNNING when it becomes a ZOMBIE
  have hrun : ((passChildren (wakeupProc t (t.proc cur).parent) cur).proc cur).state = .RUNNING := by
    refine passChildren_state cur ?_
    cases (t.proc cur).parent with
    | none => exact hc
    | some r => simp [wakeupProc, Mlfq.wakeup1, hc]
  refine hu.trans (Quiet.updProc cur (fun _ => rfl) (fun _ => rfl) (fun _ => rfl) ?_ ?_) (by simp)
    (by simp)
  · simp [hrun]
  · simp [hrun]

end Quiet

section Effects

variable {t t' : Ptable} {a : Act} {p : Slot}

theorem freeSlot_unused (h : freeSlot t = some p) : (t.proc p).state = .UNUSED := by
  simpa using firstSlot_spec h

theorem allocproc_push {r : Option Slot} (h : allocproc t = .ok (r, t')) :
    (r = none ∧ freeSlot t = none ∧ t' = t) ∨
      ∃ p, r = some p ∧ freeSlot t = some p ∧ pushqueue (embryo t p) 0 p = .ok t' := by
  unfold allocproc at h
  split at h
  · next hn =>
    cases h
    exact .inl ⟨rfl, hn, rfl⟩
  · next p hp =>
    obtain ⟨u, h1, h2⟩ := bind_ok h
    cases h2
    exact .inr ⟨p, rfl, hp, h1⟩

/-- The slot `allocproc` fills is in use from there on. -/
theorem pushed_embryo (h : pushqueue (embryo t p) 0 p = .ok t') : (t'.proc p).state = .EMBRYO := by
  rw [(pushqueue_shifts h).1.state]
  simp [embryo]

/-- `schedulerUnlock` for a process moves it to the front of L0 or leaves all
links alone. -/
theorem schedulerUnlock_effect {c : Slot} {password : Int} (ha : Unlocks c a)
    (hc : (t.proc c).state = .RUNNING) (h : schedulerUnlock t (some c) password = .ok t') :
    Effect t a t' := by
  unfold schedulerUnlock at h
  split at h
  · cases h
    exact .quiet (.updProc c (fun _ => rfl) (fun _ => rfl) (fun _ => rfl) Iff.rfl id)
  · split at h
    · cases h
      exact .quiet (.refl t a)
    · next hl =>
      simp only at h
      split at h
      · cases h
        exact .quiet (.refl t a)
      · obtain ⟨u, h1, h2⟩ := bind_ok h
        obtain ⟨v, h3, h4⟩ := bind_ok h2
        cases h4
        exact .front c ha hl hc h1 h3

theorem step_exec (h : step t a = some t') : exec t a = .ok t' := by
  unfold step at h
  cases he : exec t a with
  | error e => rw [he] at h; cases h
  | ok u => rw [he] at h; cases h; rfl

/-- Every action has one of the effects. -/
theorem exec_effect (h : exec t a = .ok t') : Effect t a t' := by
  cases a with
  | userinit =>
    simp only [exec] at h
    split at h
    · obtain ⟨⟨r, u⟩, h1, h2⟩ := bind_ok h
      rcases allocproc_push h1 with ⟨rfl, -, -⟩ | ⟨p, rfl, hfree, hpush⟩
      · cases h2
      · cases h2
        refine .create p (.inl rfl) hfree hpush rfl (by simp) (fun r => ?_)
        by_cases hr : r = p <;> simp [hr]
    · cases h
  | allocproc cur =>
    obtain ⟨-, h⟩ := byProc_ok h
    cases ha : allocproc t with
    | error e => rw [ha] at h; cases h
    | ok x =>
      obtain ⟨r, u⟩ := x
      rw [ha] at h
      cases h
      rcases allocproc_push ha with ⟨-, -, he⟩ | ⟨p, -, hfree, hpush⟩
      · subst he
        exact .quiet (.refl _ _)
      · refine .create p (.inr ⟨cur, rfl⟩) hfree hpush rfl ?_ (fun r => .inl rfl)
        simp [pushed_embryo hpush]
  | forkFinish cur np =>
    simp only [exec] at h
    split at h
    · next hs =>
      obtain ⟨-, h⟩ := byProc_ok h
      cases h
      exact .quiet (.updProc np (fun _ => rfl) (fun _ => rfl) (fun _ => rfl) (by simp [hs]) (by simp))
    · cases h
  | forkFail np =>
    simp only [exec] at h
    split at h
    · next hs =>
      cases h
      have hother : ∀ r, r ≠ np → (forkFail t np).proc r = t.proc r := fun r hr => by
        simp [forkFail, hr]
      refine .quiet ⟨rfl, fun r => updProc_keep t np r Proc.links (fun _ => rfl),
        fun r => updProc_keep t np r Proc.tq (fun _ => rfl),
        fun r => .inl (updProc_keep t np r Proc.priority (fun _ => rfl)), fun r hr => ?_, fun r hr => ?_, fun r hr => ?_⟩
      · by_cases he : r = np
        · simp [forkFail, he]
        · rw [hother r he]; exact hr
      · have he : r ≠ np := fun he => by rw [he, hs] at hr; cases hr
        rw [hother r he]; exact hr
      · by_cases he : r = np
        · exact .inr ⟨by rw [he], he ▸ hs⟩
        · rw [hother r he] at hr; exact .inl hr
    · cases h
  | exitUnlock cur =>
    obtain ⟨hc, h⟩ := byProc_ok h
    split at h
    · exact schedulerUnlock_effect (.inl rfl) hc h
    · cases h
      exact .quiet (.refl _ _)
  | exitTail cur =>
    simp only [exec] at h
    split at h
    · cases h
    · obtain ⟨hc, h⟩ := byProc_ok h
      cases h
      exact .quiet (.exitTail cur hc)
  | wait cur =>
    obtain ⟨hc, h⟩ := byProc_ok h
    unfold wait at h
    split at h
    · next z hz =>
      obtain ⟨u, h1, h2⟩ := bind_ok h
      cases h2
      have hz := firstSlot_spec hz
      simp only [Bool.and_eq_true, beq_iff_eq] at hz
      exact .reap cur z hz.2 h1
    · split at h <;> cases h
      · exact .quiet (.refl _ _)
      · exact .quiet (.updProc cur (fun _ => rfl) (fun _ => rfl) (fun _ => rfl) (by simp [hc])
          (by simp [hc]))
  | dispatch => exact .dispatch h
  | expireTimeQuantum p =>
    simp only [exec] at h
    split at h
    · next hs => exact .expire p hs h
    · cases h
  | boostPriority => exact .boost h
  | unlockSched =>
    simp only [exec, schedulerUnlock, ne_eq, not_true_eq_false, if_false] at h
    split at h <;> cases h
    · exact .quiet (.refl _ _)
    · exact .quiet (.same rfl rfl)
  | setPriority pid priority =>
    cases h
    unfold setPriority
    split
    · exact .quiet (.refl _ _)
    · split
      · exact .quiet (.refl _ _)
      · next p hp =>
        have hstate : ∀ r, ((t.updProc p (fun x => { x with priority := priority })).proc r).state =
            (t.proc r).state := fun r => updProc_keep t p r Proc.state (fun _ => rfl)
        refine .quiet ⟨rfl, fun r => updProc_keep t p r Proc.links (fun _ => rfl),
          fun r => updProc_keep t p r Proc.tq (fun _ => rfl), fun r => ?_, fun r hr => (hstate r).trans hr,
          fun r hr => (hstate r).trans hr, fun r hr => .inl ((hstate r).symm.trans hr)⟩
        by_cases he : r = p
        · exact .inr ⟨pid, priority, rfl, he ▸ hp⟩
        · exact .inl (by simp [he])
  | schedulerLock cur password =>
    obtain ⟨-, h⟩ := byProc_ok h
    cases h
    unfold schedulerLock
    split
    · exact .quiet (.updProc cur (fun _ => rfl) (fun _ => rfl) (fun _ => rfl) Iff.rfl id)
    · split
      · exact .quiet (.updProc cur (fun _ => rfl) (fun _ => rfl) (fun _ => rfl) Iff.rfl id)
      · exact .quiet (.same rfl rfl)
  | schedulerUnlock cur password =>
    obtain ⟨hc, h⟩ := byProc_ok h
    exact schedulerUnlock_effect (.inr ⟨password, rfl⟩) hc h
  | setLevel pid level =>
    simp only [exec] at h
    unfold setLevel at h
    split at h
    · cases h
      exact .quiet (.refl _ _)
    · split at h
      · cases h
        exact .quiet (.refl _ _)
      · next p hp =>
        obtain ⟨u, h1, h2⟩ := bind_ok h
        split at h2
        · cases h2
        · next q hq => exact .relevel pid level p q hp h1 h2
  | sleep cur chan =>
    obtain ⟨hc, h⟩ := byProc_ok h
    cases h
    exact .quiet (.updProc cur (fun _ => rfl) (fun _ => rfl) (fun _ => rfl) (by simp [hc]) (by simp [hc]))
  | wakeup chan =>
    cases h
    exact .quiet (.wakeup1 _ _ _)
  | kill pid =>
    cases h
    unfold kill
    split
    · exact .quiet (.refl _ _)
    · next p _ =>
      refine .quiet (.updProc p (fun _ => rfl) (fun _ => rfl) (fun _ => rfl) ?_ (fun hs => by simp [hs]))
      simp only
      split
      · next hs => simp [hs]
      · rfl
  | yield cur =>
    obtain ⟨hc, h⟩ := byProc_ok h
    cases h
    exact .quiet (.updProc cur (fun _ => rfl) (fun _ => rfl) (fun _ => rfl) (by simp [hc]) (by simp [hc]))

end Effects

/-! ## The inner loop of the scheduler -/

/-- The loop chooses the processes of `l`, one after the other, and expires their
used up quanta, and then settles on `r`, which has ticks left. -/
inductive Picks : Ptable → List Slot → Option Slot → Ptable → Prop where
  | idle {t t' : Ptable} (h : getProcessToRun t = .ok (none, t')) : Picks t [] none t'
  | settle {t t' : Ptable} (p : Slot) (h : getProcessToRun t = .ok (some p, t'))
      (hq : (t'.proc p).tq ≠ getTimeQuantum (t'.proc p).level) : Picks t [] (some p) t'
  | expire {t u v t' : Ptable} {l : List Slot} {r : Option Slot} (p : Slot)
      (h : getProcessToRun t = .ok (some p, u)) (hq : (u.proc p).tq = getTimeQuantum (u.proc p).level)
      (he : expireTimeQuantum u p = .ok v) (hrest : Picks v l r t') : Picks t (p :: l) r t'

theorem pickLoop_picks : ∀ (n : Nat) (t t' : Ptable) (r : Option Slot),
    pickLoop n t = .ok (r, t') → ∃ l, Picks t l r t' := by
  intro n
  induction n with
  | zero => intro t t' r h; cases h
  | succ n ih =>
    intro t t' r h
    obtain ⟨⟨x, u⟩, h1, h2⟩ := bind_ok h
    cases x with
    | none =>
      cases h2
      exact ⟨[], .idle h1⟩
    | some p =>
      simp only at h2
      split at h2
      · next hq =>
        obtain ⟨v, h3, h4⟩ := bind_ok h2
        obtain ⟨l, hl⟩ := ih v t' r h4
        exact ⟨p :: l, .expire p h1 hq h3 hl⟩
      · next hq =>
        cases h2
        exact ⟨[], .settle p h1 hq⟩

/-- A round of the scheduler: the choice, and the switch to it. -/
theorem dispatch_picks {t t' : Ptable} (h : dispatch t = .ok t') :
    ∃ l r u, Picks t l r u ∧ ((r = none ∧ t' = u) ∨ ∃ p, r = some p ∧ runProc u p = .ok t') := by
  obtain ⟨⟨r, u⟩, h1, h2⟩ := bind_ok h
  obtain ⟨l, hl⟩ := pickLoop_picks _ t u r h1
  cases r with
  | none =>
    cases h2
    exact ⟨l, none, t', hl, .inl ⟨rfl, rfl⟩⟩
  | some p => exact ⟨l, some p, u, hl, .inr ⟨p, rfl, h2⟩⟩

end Xv6.Mlfq
