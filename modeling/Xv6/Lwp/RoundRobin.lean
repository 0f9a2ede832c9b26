import Xv6.Lwp.Init

/- Round robin over the threads of a process (`project2_LWP/proc.c`).
   `thidxtorun` searches from the slot behind `thidx` on, and only a dispatch
   moves `thidx` (`step_turn`). So a thread that is `RUNNABLE` is not passed: each
   dispatch of its process brings `thidx` closer to it, counted in slots round
   the table (`Proc.ahead`), until the thread itself is chosen. What the other
   threads do meanwhile changes which of them are chosen, and not this. -/
namespace Xv6.Lwp

/-- How many slots behind `i`, going round, slot `u` comes. -/
def slotsTo (i u : ThIdx) : Nat := (u.val + NTHREAD - i.val) % NTHREAD

/-- How many slots behind the thread that was dispatched last slot `u` comes. -/
def Proc.ahead (x : Proc) (u : ThIdx) : Nat := slotsTo x.thidx u

theorem slotsTo_pos {i u : ThIdx} (h : u ≠ i) : 0 < slotsTo i u := by
  have hne : u.val ≠ i.val := fun he => h (Fin.ext he)
  have hi : i.val < 64 := i.isLt
  have hu : u.val < 64 := u.isLt
  unfold slotsTo NTHREAD
  omega

theorem slotsTo_next {i u : ThIdx} (h : u ≠ i) : slotsTo (i + 1) u + 1 = slotsTo i u := by
  have hne : u.val ≠ i.val := fun he => h (Fin.ext he)
  have hi : i.val < 64 := i.isLt
  have hu : u.val < 64 := u.isLt
  have hnext : (i + 1).val = (i.val + 1) % 64 := Fin.val_add i 1
  unfold slotsTo NTHREAD
  rw [hnext]
  omega

theorem slotsTo_lt (i u : ThIdx) : slotsTo i u < NTHREAD := Nat.mod_lt _ (by decide)

/-! ## The search of `thidxtorun` -/

/-- The search does not pass a `RUNNABLE` thread. -/
theorem Proc.thidxLoop_closer (x : Proc) {previdx u : ThIdx} (hu : (x.thread u).state = .RUNNABLE) :
    ∀ (n : Nat) (i : ThIdx), slotsTo i u < n → slotsTo i u < slotsTo previdx u →
      slotsTo (x.thidxLoop previdx n i) u < slotsTo previdx u := by
  intro n
  induction n with
  | zero =>
    intro i hn _
    omega
  | succ n ih =>
    intro i hn hlt
    simp only [Proc.thidxLoop]
    split
    · -- the search is not back at its start before it meets `u`
      rename_i hi
      rw [hi] at hlt
      omega
    · split
      · exact hlt
      · rename_i hi hs
        have hne : u ≠ i := by
          intro he
          rw [he] at hu
          exact hs hu
        have hnext := slotsTo_next hne
        apply ih (i + 1)
        · omega
        · omega

theorem Proc.thidxtorun_closer (x : Proc) {u : ThIdx} (hu : (x.thread u).state = .RUNNABLE)
    (hne : u ≠ x.thidx) : slotsTo x.thidxtorun u < x.ahead u := by
  have hnext := slotsTo_next hne
  have hlt := slotsTo_lt x.thidx u
  apply Proc.thidxLoop_closer x hu
  · omega
  · omega

/-! ## Only a dispatch moves `thidx` -/

/-- Every process ran the same thread last. -/
def SameTurn (m m' : Machine) : Prop := ∀ q, (m'.proc q).thidx = (m.proc q).thidx

section Rules

variable {m m' m'' : Machine} {c esp : Nat} {p np : Slot} {i : ThIdx}

theorem SameTurn.trans (h : SameTurn m m') (h' : SameTurn m' m'') : SameTurn m m'' :=
  fun q => (h' q).trans (h q)

theorem SameTurn.of_proc (hp : m'.proc = m.proc) : SameTurn m m' := fun q => by rw [hp]

theorem SameTurn.setProc (m : Machine) (p : Slot) {x : Proc} (hx : x.thidx = (m.proc p).thidx) :
    SameTurn m (m.setProc p x) := by
  intro q
  by_cases hq : q = p
  · simp [Machine.setProc, hq, hx]
  · simp [Machine.setProc, hq]

theorem SameTurn.wakeup1 (m : Machine) (chan : Option Chan) : SameTurn m (m.wakeup1 chan) := by
  intro q
  show (Machine.wakeProc chan (m.proc q)).thidx = (m.proc q).thidx
  unfold Machine.wakeProc
  split <;> rfl

theorem SameTurn.sched (m : Machine) (c : Nat) (p : Slot) (i : ThIdx) (esp : Nat) :
    SameTurn m (m.sched c p i esp) :=
  SameTurn.setProc m p rfl

theorem SameTurn.sleep (m : Machine) (c : Nat) (p : Slot) (i : ThIdx) (ch : Chan) (rs : Resume)
    (esp : Nat) : SameTurn m (m.sleep c p i ch rs esp) := by
  have h1 : SameTurn m
      ((m.setProc p ((m.proc p).sleep ch)).setKth p i { m.kth p i with resume := rs }) :=
    SameTurn.setProc m p rfl
  exact h1.trans (.sched _ c p i esp)

theorem SameTurn.abandon (m : Machine) (p : Slot) : SameTurn m (m.abandon p) := by
  have hadopt : ∀ (w : Machine), SameTurn w
      { w with proc := fun q => Machine.adopt m.initproc p (w.proc q) } := by
    intro w q
    show (Machine.adopt m.initproc p (w.proc q)).thidx = (w.proc q).thidx
    unfold Machine.adopt
    split <;> rfl
  have h1 : SameTurn m (m.wakeup1 ((m.proc p).parent.map .proc)) := .wakeup1 _ _
  simp only [Machine.abandon]
  split
  · exact (h1.trans (hadopt _)).trans (.wakeup1 _ _)
  · exact h1.trans (hadopt _)

theorem SameTurn.exitEnd (m : Machine) (c : Nat) (p : Slot) (i : ThIdx) (esp : Nat) :
    SameTurn m (m.exitEnd c p i esp) := by
  have h1 : SameTurn m ((m.acquire c).abandon p) := SameTurn.abandon (m.acquire c) p
  have h2 := h1.trans (SameTurn.setProc ((m.acquire c).abandon p) p
    (x := { ((m.acquire c).abandon p).proc p with state := .ZOMBIE }) rfl)
  exact h2.trans (SameTurn.sched ((((m.acquire c).abandon p).setProc p _).setPc p i .dead) c p i esp)

theorem SameTurn.threadExit (m : Machine) (c : Nat) (p : Slot) (i : ThIdx) (v esp : Nat) :
    SameTurn m (m.threadExit c p i v esp) := by
  have h1 : SameTurn m ((m.acquire c).leaveThread p i v) := by
    have h2 : SameTurn m (((m.acquire c).setProc p ((m.proc p).threadExit v)).setKth p i
        { m.kth p i with resume := .threadExit, exit := some m.exits.length }) :=
      SameTurn.setProc m p (Proc.threadExit_thidx _ v)
    exact (h2.trans (.wakeup1 _ _)).trans (SameTurn.setProc _ p rfl)
  exact h1.trans (SameTurn.sched ((m.acquire c).leaveThread p i v) c p i esp)

theorem SameTurn.waitLoop (m : Machine) (c : Nat) (p : Slot) (i : ThIdx) (esp : Nat) :
    SameTurn m (m.waitLoop c p i esp) := by
  unfold Machine.waitLoop
  split
  · rename_i r _
    exact SameTurn.setProc m r rfl
  · split
    · exact .of_proc rfl
    · exact .sleep m c p i _ _ esp

theorem SameTurn.joinLoop (m : Machine) (c : Nat) (p : Slot) (i j : ThIdx) (tid esp : Nat) :
    SameTurn m (m.joinLoop c p i j tid esp) := by
  unfold Machine.joinLoop
  split
  · exact SameTurn.setProc m p rfl
  · split
    · exact .of_proc rfl
    · exact .sleep m c p i _ _ esp

theorem Proc.userStack_thidx {x y : Proc} {j : ThIdx} {mapped copied : Bool}
    (h : x.userStack j mapped copied = .ok y ∨ x.userStack j mapped copied = .error y) :
    y.thidx = x.thidx := by
  unfold Proc.userStack at h
  split_ifs at h <;> simp only [Except.ok.injEq, Except.error.injEq, or_false,
    false_or] at h <;> subst h <;> rfl

theorem Proc.allocth_thidx {x y : Proc} {n : Nat} {j : ThIdx} (h : x.allocth n = some (j, y)) :
    y.thidx = x.thidx := by
  obtain ⟨-, rfl⟩ := Proc.allocth_eq h
  rfl

theorem SameTurn.threadCreate (m : Machine) (c : Nat) (p : Slot) (page : Option Nat)
    (mapped copied : Bool) : SameTurn m (m.threadCreate c p page mapped copied) := by
  unfold Machine.threadCreate
  split
  · exact .of_proc rfl
  · rename_i j x hx
    have hth : x.thidx = (m.proc p).thidx := Proc.allocth_thidx hx
    split
    · exact SameTurn.setProc m p hth
    · split
      · rename_i hy
        exact SameTurn.setProc m p ((Proc.userStack_thidx (.inl hy)).trans hth)
      · rename_i hy
        exact SameTurn.setProc m p ((Proc.userStack_thidx (.inr hy)).trans hth)

theorem SameTurn.allocproc (m : Machine) (p : Slot) (i : ThIdx) : SameTurn m (m.allocproc p i) := by
  unfold Machine.allocproc
  split
  · exact .of_proc rfl
  · rename_i np _
    split
    · exact SameTurn.setProc m np rfl
    · rename_i hx
      have hth := Proc.allocth_thidx hx
      exact SameTurn.setProc m np hth

theorem SameTurn.kill (m : Machine) (pid : Int) : SameTurn m (m.kill pid) := by
  unfold Machine.kill
  split
  · exact .of_proc rfl
  · refine SameTurn.setProc m _ ?_
    unfold Proc.kill
    split <;> rfl

theorem SameTurn.execKill (m : Machine) (p : Slot) (i : ThIdx) (n pages : Nat) :
    SameTurn m (m.execKill p i n pages) := by
  unfold Machine.execKill
  split
  · split
    · exact .of_proc rfl
    · refine SameTurn.setProc m p ?_
      unfold Proc.execKill
      split <;> rfl
  · exact .of_proc rfl

theorem CallStep.turn {k : Call} (hs : CallStep m c p i esp k m') : SameTurn m m' := by
  cases hs with
  | yield _ =>
    have h1 : SameTurn m (m.setProc p (m.proc p).yield) := SameTurn.setProc m p rfl
    exact h1.trans (SameTurn.setProc (m.setProc p (m.proc p).yield) p rfl)
  | sleep _ _ => exact SameTurn.sleep (m.acquire c) c p i _ _ esp
  | kill _ => exact .kill m _
  | fork _ _ => exact .allocproc m p i
  | @forkKalloc page np th _ => cases page <;> exact SameTurn.setProc m np rfl
  | @forkCopy ok np _ => cases ok <;> exact SameTurn.setProc m np rfl
  | @forkFields np _ => exact SameTurn.setProc m np rfl
  | @forkFinish np _ _ => exact SameTurn.setProc m np rfl
  | @undoAlloc np th _ => cases th <;> exact SameTurn.setProc m np rfl
  | @undoFork np _ => exact SameTurn.setProc m np rfl
  | exec _ => exact .of_proc rfl
  | execKill _ => exact .execKill m p i _ _
  | execCommit _ _ => exact SameTurn.setProc m p rfl
  | execFail _ _ => exact .of_proc rfl
  | exit _ _ => exact .of_proc rfl
  | exitEnd _ _ _ => exact .exitEnd m c p i esp
  | wait _ _ => exact SameTurn.waitLoop (m.acquire c) c p i esp
  | threadCreate _ _ => exact .threadCreate m c p _ _ _
  | threadExit _ _ => exact .threadExit m c p i _ esp
  | threadJoin _ _ =>
    unfold Machine.threadJoin
    split
    · exact .of_proc rfl
    · exact SameTurn.joinLoop (m.acquire c) c p i _ _ esp
  | fsEnter _ => exact .of_proc rfl
  | fsReturn _ _ => exact .of_proc rfl
  | fs _ hf =>
    cases Machine.fsCall_step hf with
    | @wait k n _ _ _ _ => exact SameTurn.sleep ((m.setKth p i k).acquire c) c p i _ _ esp
    | go _ _ _ => exact .of_proc rfl
    | @wake k l s n _ _ _ _ =>
      exact SameTurn.wakeup1 { m.setKth p i k with log := l, sleeplock := s } _

theorem SameTurn.awake (m : Machine) (p : Slot) (i : ThIdx) : SameTurn m (m.awake p i) := by
  have h1 : SameTurn m (m.schedTail p) := SameTurn.setProc m p rfl
  exact h1.trans (SameTurn.setProc (m.schedTail p) p rfl)

theorem SameTurn.resume (hs : m.resume c esp = some m') : SameTurn m m' := by
  unfold Machine.resume at hs
  split at hs
  · rename_i p i _
    have hawake : SameTurn m ((m.enter c p i).awake p i) := .awake (m.enter c p i) p i
    split at hs <;>
      simp only [Option.ite_none_left_eq_some, Option.some.injEq, reduceCtorEq] at hs
    · subst hs; exact .of_proc rfl
    · subst hs; exact SameTurn.setProc m p rfl
    · subst hs; exact hawake
    · subst hs; exact hawake.trans (.waitLoop _ c p i esp)
    · subst hs; exact hawake.trans (.joinLoop _ c p i _ _ esp)
    · obtain ⟨-, rfl⟩ := hs; exact SameTurn.setProc m p rfl
  · simp at hs

end Rules

/-- The step is one of a scheduler, which switches to thread `i` of process `p`. -/
def Dispatches (m : Machine) (p : Slot) (i : ThIdx) : Act → Prop
  | .schedule c => (step m (.schedule c)).any (fun m' => (m'.cpu c).mode = .switched p i)
  | _ => False

instance Dispatches.decidable (m : Machine) (p : Slot) (i : ThIdx) :
    ∀ a : Act, Decidable (Dispatches m p i a)
  | .schedule _ => inferInstanceAs (Decidable (_ = true))
  | .resume _ _ => inferInstanceAs (Decidable False)
  | .wakeup _ => inferInstanceAs (Decidable False)
  | .call _ _ _ => inferInstanceAs (Decidable False)

section Turns

variable {m m' : Machine} {a : Act} {p : Slot} {i t u : ThIdx}

/-- A dispatch is that of the thread `thidxtorun` returns, and `thidx` says so
afterwards. -/
theorem Dispatches.turn (h : Dispatches m p i a) (hs : step m a = some m') :
    i = (m.proc p).thidxtorun ∧ (m'.proc p).thidx = i := by
  cases a with
  | schedule c =>
    simp only [Dispatches, hs, Option.any_some, decide_eq_true_eq] at h
    simp only [step, Machine.schedule] at hs
    split at hs
    · split_ifs at hs
      cases hs
      simp [Machine.setCpu] at h
    · split at hs <;> cases hs
      · rename_i q _
        simp only [Machine.dispatch, Machine.setCpu, if_true, Mode.switched.injEq] at h
        obtain ⟨rfl, rfl⟩ := h
        exact ⟨rfl, by simp [Machine.dispatch, Machine.setCpu, Machine.setProc, Proc.runThread,
          Proc.copythproc]⟩
      · simp [Machine.setCpu] at h
    · cases hs
  | resume c esp => exact h.elim
  | wakeup n => exact h.elim
  | call c esp k => exact h.elim

/-- A dispatch is a step that can be taken. -/
theorem Dispatches.step (h : Dispatches m p i a) : ∃ m', step m a = some m' := by
  cases a with
  | schedule c =>
    obtain ⟨m', hs, -⟩ := (Option.any_eq_true _ _).mp h
    exact ⟨m', hs⟩
  | resume c esp => exact h.elim
  | wakeup n => exact h.elim
  | call c esp k => exact h.elim

/-- What one step does to `thidx` of process `p`: nothing, or it dispatches one of
its threads. -/
theorem step_turn (p : Slot) (hs : step m a = some m') :
    (m'.proc p).thidx = (m.proc p).thidx ∨ ∃ i, Dispatches m p i a := by
  cases a with
  | schedule c =>
    have hstep := hs
    simp only [step, Machine.schedule] at hs
    split at hs
    · split_ifs at hs
      cases hs
      exact .inl rfl
    · split at hs <;> cases hs
      · rename_i q _
        by_cases hq : p = q
        · refine .inr ⟨(m.proc q).thidxtorun, ?_⟩
          simp only [Dispatches, hstep, Option.any_some, decide_eq_true_eq]
          simp [Machine.dispatch, Machine.setCpu, hq]
        · exact .inl (by simp [Machine.dispatch, Machine.setCpu, Machine.setProc, hq])
      · exact .inl rfl
    · cases hs
  | resume c esp => exact .inl (SameTurn.resume hs p)
  | wakeup n =>
    simp only [step, Option.ite_none_right_eq_some, Option.some.injEq] at hs
    obtain ⟨-, rfl⟩ := hs
    exact .inl (SameTurn.wakeup1 m _ p)
  | call c esp k =>
    simp only [step] at hs
    split at hs
    · exact .inl (CallStep.turn (Machine.call_step hs) p)
    · cases hs

/-- Thread `u` of `p` comes no later than it did right behind `t`, and has not
been reached. -/
def Waits (m : Machine) (p : Slot) (t u : ThIdx) : Prop :=
  0 < (m.proc p).ahead u ∧ (m.proc p).ahead u ≤ slotsTo t u

theorem Waits.dispatched (h : Dispatches m p t a) (hs : step m a = some m') (hne : u ≠ t) :
    Waits m' p t u := by
  obtain ⟨-, ht⟩ := h.turn hs
  unfold Waits Proc.ahead
  rw [ht]
  exact ⟨slotsTo_pos hne, le_rfl⟩

/-- While `u` waits, its process dispatches neither `t` nor a thread behind `u`. -/
theorem Waits.closer (h : Waits m p t u) (hu : ((m.proc p).thread u).state = .RUNNABLE)
    (hd : Dispatches m p i a) (hs : step m a = some m') : slotsTo i u < slotsTo t u := by
  obtain ⟨hi, -⟩ := hd.turn hs
  have hne : u ≠ (m.proc p).thidx := by
    intro he
    have hpos := h.1
    unfold Proc.ahead slotsTo at hpos
    rw [← he] at hpos
    simp at hpos
  have hlt := (m.proc p).thidxtorun_closer hu hne
  have hle := h.2
  rw [hi]
  omega

theorem Waits.step (h : Waits m p t u) (hu : ((m.proc p).thread u).state = .RUNNABLE)
    (hn : ¬ Dispatches m p u a) (hs : step m a = some m') : Waits m' p t u := by
  rcases step_turn p hs with ht | ⟨i, hd⟩
  · unfold Waits Proc.ahead at h ⊢
    rw [ht]
    exact h
  · have hlt := h.closer hu hd hs
    have hne : u ≠ i := by
      intro he
      exact hn (he ▸ hd)
    obtain ⟨-, hi⟩ := hd.turn hs
    unfold Waits Proc.ahead
    rw [hi]
    exact ⟨slotsTo_pos hne, hlt.le⟩

end Turns

/-! ## Whole runs -/

/-- Thread `u` of `p` is `RUNNABLE` in every state of the run, up to its own
dispatch. -/
def StaysRunnable (p : Slot) (u : ThIdx) : Machine → List Act → Prop
  | m, [] => ((m.proc p).thread u).state = .RUNNABLE
  | m, a :: as => ((m.proc p).thread u).state = .RUNNABLE ∧
      (Dispatches m p u a ∨ ∀ m', step m a = some m' → StaysRunnable p u m' as)

instance StaysRunnable.decidable (p : Slot) (u : ThIdx) :
    ∀ (m : Machine) (as : List Act), Decidable (StaysRunnable p u m as)
  | m, [] => inferInstanceAs (Decidable (((m.proc p).thread u).state = .RUNNABLE))
  | m, a :: as =>
    match h : step m a with
    | none =>
      decidable_of_iff (((m.proc p).thread u).state = .RUNNABLE)
        ⟨fun hu => ⟨hu, .inr (fun m' hs => by simp [h] at hs)⟩, fun hu => hu.1⟩
    | some m' =>
      have := StaysRunnable.decidable p u m' as
      decidable_of_iff (((m.proc p).thread u).state = .RUNNABLE ∧
          (Dispatches m p u a ∨ StaysRunnable p u m' as))
        ⟨fun hu => ⟨hu.1, hu.2.imp_right (fun hu m'' hs => by rw [h] at hs; cases hs; exact hu)⟩,
          fun hu => ⟨hu.1, hu.2.imp_right (fun hu => hu m' h)⟩⟩

/-- A step of the run dispatches thread `u` of `p`. -/
def DispatchedIn (p : Slot) (u : ThIdx) : Machine → List Act → Prop
  | _, [] => False
  | m, a :: as => Dispatches m p u a ∨ ∃ m', step m a = some m' ∧ DispatchedIn p u m' as

/-- A thread that waits is dispatched before `t` is. -/
theorem Waits.before {p : Slot} {t u : ThIdx} {b : Act} : ∀ (as : List Act) (m m' : Machine),
    Waits m p t u → StaysRunnable p u m as → Lib.run Lwp.step m as = some m' → Dispatches m' p t b →
      DispatchedIn p u m as := by
  intro as
  induction as with
  | nil =>
    intro m m' hw hstay hr hd
    simp only [Lib.run, Option.some.injEq] at hr
    subst hr
    -- `t` would have to be closer to `u` than it is
    obtain ⟨w, hs⟩ := hd.step
    exact absurd (hw.closer hstay hd hs) (lt_irrefl _)
  | cons a as ih =>
    intro m m' hw hstay hr hd
    obtain ⟨w, hs, hr⟩ := Lib.run_cons hr
    obtain ⟨hu, hstay⟩ := hstay
    by_cases hda : Dispatches m p u a
    · exact .inl hda
    · have hstay' : StaysRunnable p u w as := by
        rcases hstay with hda' | hstay
        · exact absurd hda' hda
        · exact hstay w hs
      exact .inr ⟨w, hs, ih w m' (hw.step hu hda hs) hstay' hr hd⟩

/-- In any run, from any state, a thread `u` of `p` that is `RUNNABLE` when
another thread `t` of `p` is dispatched, and stays so until its own dispatch, is
dispatched before `t` is dispatched again. -/
theorem thread_round_robin (m m' m'' : Machine) (a b : Act) (as : List Act) (p : Slot)
    (t u : ThIdx) (ht : Dispatches m p t a) (hs : step m a = some m') (hne : u ≠ t)
    (hstay : StaysRunnable p u m' as) (hr : Lib.run step m' as = some m'')
    (hagain : Dispatches m'' p t b) : DispatchedIn p u m' as :=
  Waits.before as m' m'' (Waits.dispatched ht hs hne) hstay hr hagain

/-- `init` starts a second thread and both yield once; the first one has just been
chosen again. -/
def takeTurns : List Act :=
  [.call 0 0 (.threadCreate (some 8192) true true), .call 0 0 .yield,
   .schedule 0, .schedule 0, .schedule 0, .resume 0 0, .call 0 0 .yield, .schedule 0, .schedule 0]

/-- It yields to the second thread, which yields too. -/
def bothYield : List Act :=
  [.resume 0 0, .call 0 0 .yield, .schedule 0, .schedule 0, .schedule 0, .resume 0 0,
   .call 0 0 .yield, .schedule 0, .schedule 0]

theorem thread_round_robin_bothYield : ∃ m m', Lib.run step (boot 4096) (startInit ++ takeTurns) =
    some m ∧ step m (.schedule 0) = some m' ∧ DispatchedIn 0 1 m' bothYield := by
  have hrun : (Lib.run step (initReady 4096) takeTurns).any (fun m =>
      Dispatches m 0 0 (.schedule 0) ∧ (step m (.schedule 0)).any (fun m' =>
        StaysRunnable 0 1 m' bothYield ∧ (Lib.run step m' bothYield).any (fun m'' =>
          Dispatches m'' 0 0 (.schedule 0)))) := by
    decide +kernel
  obtain ⟨m, hr, hm⟩ := (Option.any_eq_true _ _).mp hrun
  obtain ⟨h1, h2⟩ := of_decide_eq_true hm
  obtain ⟨m', hs, h2⟩ := (Option.any_eq_true _ _).mp h2
  obtain ⟨h3, h4⟩ := of_decide_eq_true h2
  obtain ⟨m'', hr', h4⟩ := (Option.any_eq_true _ _).mp h4
  rw [← run_init] at hr
  exact ⟨m, m', hr, hs, thread_round_robin m m' m'' (.schedule 0) (.schedule 0) bothYield 0 0 1 h1 hs
    (by decide) h3 hr' (of_decide_eq_true h4)⟩

end Xv6.Lwp
