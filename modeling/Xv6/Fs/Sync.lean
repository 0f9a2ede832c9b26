import Mathlib.Data.List.Count
import Xv6.Lib.Run

/- Who is in `commit()`, and the flag `synchronizing` (`project3_filesystem/log.c`,
   `bio.c`), for any number of processes.

   A commit is started by `sync1`: from `sys_sync`, which sleeps instead when
   `log.committing` is set, and from `bget`, which goes past that test and relies on
   its own test of `synchronizing`. The flag has no lock: `bget` tests it in one step
   and raises it in another, and every `sys_sync` clears it when it returns, also one
   that has only slept.

   An action is what a process does between two points at which another can come in.
   The functions call each other (a commit reads blocks, and `bget` may start another
   commit), so a process has a stack of them.

   Commits exclude each other, and the flag is up during each, exactly in the runs in
   which `sync1` starts a commit with the flag up, `bget` lets it do so with
   `log.committing` 0, and nobody clears the flag with `log.committing` 1
   (`one_commit_iff`). -/
namespace Xv6.Fs

/-- Who has called `sync1`. -/
inductive Caller where
  | sys
  | bget
  deriving DecidableEq, Repr

/-- Where a call of `sys_sync` or `bget` is: the test of `bget` has passed (`test`), the
flag is up and `sync1` is called (`set`), asleep in `sync1`, at the test of
`log.committing` in `commit` (`entered`), behind it (`commit`), or back from `sync1`
(`done`). -/
inductive Frame where
  | test
  | set (c : Caller)
  | asleep
  | entered (c : Caller)
  | commit (c : Caller)
  | done (c : Caller)
  deriving DecidableEq, Repr

/-- An activation of `commit()`. -/
def Frame.busy : Frame → Bool
  | .test => false
  | .set _ => false
  | .asleep => false
  | .entered _ => true
  | .commit _ => true
  | .done _ => false

/-- `log.committing`, the flag, and what each process is in, innermost first. -/
structure Sync (P : Type) where
  committing : Bool
  synchronizing : Nat
  stack : P → List Frame

inductive SyncAct (P : Type) where
  | sysSync (p : P)
  | bget (p : P)
  | incr (p : P)
  | sync1 (p : P) (c : Caller)
  | commit (p : P) (c : Caller)
  | commitEnd (p : P) (c : Caller)
  | clear (p : P) (c : Caller)
  | kill (p : P)
  | endOp

/-- `wakeup(&log)`, for one process. There is no loop around the sleep in `sync1`. -/
def wake (fs : List Frame) : List Frame :=
  if fs.head? = some .asleep then .done .sys :: fs.tail else fs

section Machine

variable {P : Type} [DecidableEq P]

/-- After `initlog`. -/
def Sync.boot : Sync P := ⟨false, 0, fun _ => []⟩

/-- The function that `p` is in goes on to `f`. -/
def Sync.goto (s : Sync P) (p : P) (f : Frame) : Sync P :=
  { s with stack := Function.update s.stack p (f :: (s.stack p).tail) }

def Sync.at (s : Sync P) (p : P) (f : Frame) : Prop := (s.stack p).head? = some f

instance Sync.at.decidable (s : Sync P) (p : P) (f : Frame) : Decidable (s.at p f) :=
  inferInstanceAs (Decidable (_ = _))

/-- `p` may read a block: it is in none of the functions, or in a commit. -/
def Sync.reads (s : Sync P) (p : P) : Prop :=
  s.stack p = [] ∨ s.at p (.commit .sys) ∨ s.at p (.commit .bget)

instance Sync.reads.decidable (s : Sync P) (p : P) : Decidable (s.reads p) :=
  inferInstanceAs (Decidable (_ ∨ _ ∨ _))

def syncStep (s : Sync P) : SyncAct P → Option (Sync P)
  | .sysSync p =>
    if s.stack p = [] then
      some { s with synchronizing := 1, stack := Function.update s.stack p [.set .sys] }
    else none
  | .bget p =>
    -- a call that finds `cnt <= NRESBUF && synchronizing == 0`
    if s.reads p ∧ s.synchronizing = 0 then
      some { s with stack := Function.update s.stack p (.test :: s.stack p) }
    else none
  | .incr p =>
    if s.at p .test then some { s.goto p (.set .bget) with synchronizing := s.synchronizing + 1 }
    else none
  | .sync1 p .sys =>
    if s.at p (.set .sys) then
      if s.committing then some (s.goto p .asleep)
      else some { s.goto p (.entered .sys) with committing := true }
    else none
  | .sync1 p .bget =>
    if s.at p (.set .bget) then some { s.goto p (.entered .bget) with committing := true } else none
  | .commit p c =>
    -- otherwise the panic "in commit, log.committing 0"
    if s.at p (.entered c) ∧ s.committing then some (s.goto p (.commit c)) else none
  | .commitEnd p c =>
    if s.at p (.commit c) then
      some { s with committing := false, stack := fun q => wake ((s.goto p (.done c)).stack q) }
    else none
  | .clear p c =>
    if s.at p (.done c) then
      some { s with synchronizing := 0, stack := Function.update s.stack p (s.stack p).tail }
    else none
  | .kill p => if s.at p .asleep then some (s.goto p (.done .sys)) else none
  | .endOp => if s.committing then none else some { s with stack := fun q => wake (s.stack q) }

/-- The activations of `commit()` of a process. -/
def Sync.active (s : Sync P) (p : P) : Nat := (s.stack p).countP Frame.busy

/-- At most one activation of `commit()` is in progress. -/
def Sync.Exclusive (s : Sync P) : Prop :=
  (∀ p, s.active p ≤ 1) ∧ ∀ p q, 0 < s.active p → 0 < s.active q → p = q

/-- The flag is up while a commit is in progress. -/
def Sync.Flagged (s : Sync P) : Prop := ∀ p, 0 < s.active p → s.synchronizing ≠ 0

/-- `sync1` starts a commit with the flag up, `bget` has it do so with `log.committing` 0,
and the flag is cleared with `log.committing` 0. -/
def Ordered (s : Sync P) : SyncAct P → Prop
  | .sync1 _ .sys => s.committing = false → s.synchronizing ≠ 0
  | .sync1 _ .bget => s.committing = false ∧ s.synchronizing ≠ 0
  | .clear _ _ => s.committing = false
  | .sysSync _ => True
  | .bget _ => True
  | .incr _ => True
  | .commit _ _ => True
  | .commitEnd _ _ => True
  | .kill _ => True
  | .endOp => True

/-! ## What a step does to the activations -/

variable {s s' : Sync P} {p : P} {a : SyncAct P}

/-- The kinds of steps: one that starts a commit, one that ends one, one that clears the
flag, and one that does none of these. -/
inductive SyncEffect (s : Sync P) (a : SyncAct P) (s' : Sync P) : Prop
  | enter (p : P) (ho : Ordered s a ↔ s.committing = false ∧ s.synchronizing ≠ 0)
      (hcom : s'.committing = true) (hsync : s'.synchronizing = s.synchronizing)
      (hact : s'.active = Function.update s.active p (s.active p + 1))
  | leave (p : P) (ho : Ordered s a) (hp : 0 < s.active p) (hcom : s'.committing = false)
      (hact : s'.active = Function.update s.active p (s.active p - 1))
  | clear (ho : Ordered s a ↔ s.committing = false) (hcom : s'.committing = s.committing)
      (hsync : s'.synchronizing = 0) (hact : s'.active = s.active)
  | keep (ho : Ordered s a) (hcom : s'.committing = s.committing)
      (hsync : s'.synchronizing = s.synchronizing ∨ s'.synchronizing ≠ 0)
      (hact : s'.active = s.active)

theorem wake_busy (fs : List Frame) : (wake fs).countP Frame.busy = fs.countP Frame.busy := by
  unfold wake
  cases fs with
  | nil => rfl
  | cons f fs =>
    split
    · next h =>
      obtain rfl : f = .asleep := Option.some.inj h
      rfl
    · rfl

omit [DecidableEq P] in
theorem Sync.at.stack {f : Frame} (h : s.at p f) : s.stack p = f :: (s.stack p).tail := by
  cases hs : s.stack p with
  | nil =>
    rw [Sync.at, hs] at h
    cases h
  | cons x fs =>
    rw [Sync.at, hs] at h
    rw [Option.some.inj h]
    rfl

omit [DecidableEq P] in
theorem Sync.at.active {f : Frame} (h : s.at p f) :
    s.active p = (s.stack p).tail.countP Frame.busy + if f.busy then 1 else 0 := by
  rw [Sync.active, h.stack, List.countP_cons]
  rfl

/-- The stack of `p` becomes `fs`. -/
theorem active_update (c : Bool) (n : Nat) (fs : List Frame) :
    Sync.active ⟨c, n, Function.update s.stack p fs⟩ =
      Function.update s.active p (fs.countP Frame.busy) := by
  funext q
  show List.countP Frame.busy (Function.update s.stack p fs q) = _
  by_cases hq : q = p
  · rw [hq, Function.update_self, Function.update_self]
  · rw [Function.update_of_ne hq, Function.update_of_ne hq]
    rfl

/-- The activations stay when `fs` has as many as the stack of `p`. -/
theorem active_keep {fs : List Frame} (c : Bool) (n : Nat)
    (h : fs.countP Frame.busy = s.active p) :
    Sync.active ⟨c, n, Function.update s.stack p fs⟩ = s.active := by
  rw [active_update, h, Function.update_eq_self]

omit [DecidableEq P] in
theorem active_wake (c : Bool) (n : Nat) (f : P → List Frame) :
    Sync.active ⟨c, n, fun q => wake (f q)⟩ = Sync.active ⟨c, n, f⟩ := by
  funext q
  exact wake_busy (f q)

/-- `p` goes on from outside `commit()` to its start. -/
theorem active_enter {f : Frame} {c : Caller} (h : s.at p f) (hf : f.busy = false) (b : Bool) (n : Nat) :
    Sync.active ⟨b, n, (s.goto p (.entered c)).stack⟩ =
      Function.update s.active p (s.active p + 1) := by
  rw [h.active, hf]
  refine (active_update b n _).trans ?_
  rw [List.countP_cons]
  rfl

theorem step_effect (h : syncStep s a = some s') : SyncEffect s a s' := by
  cases a with
  | sysSync p =>
    obtain ⟨hs, he⟩ := Option.ite_none_right_eq_some.mp h
    cases he
    refine .keep trivial rfl (.inr Nat.one_ne_zero) (active_keep _ _ ?_)
    rw [Sync.active, hs]
    rfl
  | bget p =>
    obtain ⟨-, he⟩ := Option.ite_none_right_eq_some.mp h
    cases he
    exact .keep trivial rfl (.inl rfl) (active_keep _ _ rfl)
  | incr p =>
    obtain ⟨hs, he⟩ := Option.ite_none_right_eq_some.mp h
    cases he
    refine .keep trivial rfl (.inr (Nat.succ_ne_zero _)) (active_keep _ _ ?_)
    rw [hs.active]
    rfl
  | sync1 p c =>
    cases c with
    | sys =>
      obtain ⟨hs, he⟩ := Option.ite_none_right_eq_some.mp h
      cases hc : s.committing with
      | true =>
        rw [hc] at he
        cases he
        refine .keep (fun hf => ?_) rfl (.inl rfl) (active_keep _ _ ?_)
        · rw [hc] at hf
          cases hf
        · rw [hs.active]
          rfl
      | false =>
        rw [hc] at he
        cases he
        refine .enter p ?_ rfl rfl (active_enter hs rfl _ _)
        exact ⟨fun ho => ⟨hc, ho hc⟩, fun ho _ => ho.2⟩
    | bget =>
      obtain ⟨hs, he⟩ := Option.ite_none_right_eq_some.mp h
      cases he
      exact .enter p Iff.rfl rfl rfl (active_enter hs rfl _ _)
  | commit p c =>
    obtain ⟨hs, he⟩ := Option.ite_none_right_eq_some.mp h
    cases he
    refine .keep trivial rfl (.inl rfl) (active_keep _ _ ?_)
    rw [hs.1.active]
    exact List.countP_cons
  | commitEnd p c =>
    obtain ⟨hs, he⟩ := Option.ite_none_right_eq_some.mp h
    cases he
    refine .leave p trivial ?_ rfl ?_
    · rw [hs.active]
      exact Nat.succ_pos _
    · rw [active_wake, hs.active]
      exact active_update _ _ _
  | clear p c =>
    obtain ⟨hs, he⟩ := Option.ite_none_right_eq_some.mp h
    cases he
    refine .clear Iff.rfl rfl rfl (active_keep _ _ ?_)
    rw [hs.active]
    rfl
  | kill p =>
    obtain ⟨hs, he⟩ := Option.ite_none_right_eq_some.mp h
    cases he
    refine .keep trivial rfl (.inl rfl) (active_keep _ _ ?_)
    rw [hs.active]
    rfl
  | endOp =>
    obtain ⟨hs, he⟩ := Option.ite_none_left_eq_some.mp h
    cases he
    exact .keep trivial rfl (.inl rfl) (active_wake _ _ _)

/-! ## Whole runs -/

/-- While `log.committing` is 1 one process is in one commit, with the flag up. -/
structure Orderly (s : Sync P) : Prop where
  idle : s.committing = false → ∀ p, s.active p = 0
  one : s.committing = true → ∃ p, s.active p = 1 ∧ ∀ q, q ≠ p → s.active q = 0
  flag : s.committing = true → s.synchronizing ≠ 0

omit [DecidableEq P] in
theorem Orderly.busy (h : Orderly s) (hp : 0 < s.active p) :
    s.committing = true ∧ s.active p = 1 ∧ ∀ q, q ≠ p → s.active q = 0 := by
  cases hc : s.committing with
  | false =>
    have := h.idle hc p
    omega
  | true =>
    obtain ⟨r, hr, hother⟩ := h.one hc
    have hpr : p = r := by
      by_contra hne
      have := hother p hne
      omega
    rw [hpr]
    exact ⟨rfl, hr, hother⟩

omit [DecidableEq P] in
theorem Orderly.exclusive (h : Orderly s) : s.Exclusive := by
  constructor
  · intro p
    by_contra hp
    obtain ⟨-, hone, -⟩ := h.busy (p := p) (by omega)
    omega
  · intro p q hp hq
    by_contra hne
    have := (h.busy hp).2.2 q (fun he => hne he.symm)
    omega

omit [DecidableEq P] in
theorem Orderly.flagged (h : Orderly s) : s.Flagged := fun _ hp => h.flag (h.busy hp).1

omit [DecidableEq P] in
/-- The same activations with the flag still up. -/
theorem Orderly.same (h : Orderly s) (hcom : s'.committing = s.committing)
    (hact : s'.active = s.active) (hflag : s'.committing = true → s'.synchronizing ≠ 0) :
    Orderly s' := by
  refine ⟨fun hc => ?_, fun hc => ?_, hflag⟩
  · rw [hact]
    exact h.idle (hcom.symm.trans hc)
  · rw [hact]
    exact h.one (hcom.symm.trans hc)

theorem Orderly.next (h : Orderly s) (he : SyncEffect s a s') (ho : Ordered s a) : Orderly s' := by
  cases he with
  | enter p ho' hcom hsync hact =>
    obtain ⟨hidle, hflag⟩ := ho'.mp ho
    have h0 := h.idle hidle
    refine ⟨fun hc => ?_, fun _ => ⟨p, ?_, fun q hq => ?_⟩, fun _ => ?_⟩
    · rw [hcom] at hc
      cases hc
    · rw [hact, Function.update_self, h0 p]
    · rw [hact, Function.update_of_ne hq, h0 q]
    · rwa [hsync]
  | leave p _ hp hcom hact =>
    obtain ⟨-, hone, hother⟩ := h.busy hp
    refine ⟨fun _ q => ?_, fun hc => ?_, fun hc => ?_⟩
    · rw [hact]
      by_cases hq : q = p
      · rw [hq, Function.update_self, hone]
      · rw [Function.update_of_ne hq, hother q hq]
    · rw [hcom] at hc
      cases hc
    · rw [hcom] at hc
      cases hc
  | clear ho' hcom _ hact =>
    have hidle := ho'.mp ho
    refine h.same hcom hact (fun hc => ?_)
    rw [hcom, hidle] at hc
    cases hc
  | keep _ hcom hsync hact =>
    refine h.same hcom hact (fun hc => ?_)
    rcases hsync with hsame | hne
    · rw [hsame]
      exact h.flag (hcom.symm.trans hc)
    · exact hne

/-- A step that is out of order shows at once. -/
theorem Orderly.ordered (h : Orderly s) (he : SyncEffect s a s') (hx : s'.Exclusive)
    (hf : s'.Flagged) : Ordered s a := by
  cases he with
  | enter p ho' _ hsync hact =>
    have hp : s'.active p = s.active p + 1 := by
      rw [hact, Function.update_self]
    apply ho'.mpr
    constructor
    · -- otherwise there are two activations now
      by_contra hc
      obtain ⟨r, hr, -⟩ := h.one (Bool.not_eq_false _ ▸ hc)
      by_cases hpr : r = p
      · have := hx.1 p
        rw [hpr] at hr
        omega
      · have hr' : s'.active r = 1 := by
          rw [hact, Function.update_of_ne hpr, hr]
        exact hpr (hx.2 r p (by omega) (by omega))
    · rw [← hsync]
      exact hf p (by omega)
  | leave _ ho' _ _ _ => exact ho'
  | clear ho' hcom hsync hact =>
    apply ho'.mpr
    by_contra hc
    obtain ⟨r, hr, -⟩ := h.one (Bool.not_eq_false _ ▸ hc)
    exact hf r (by rw [hact]; omega) hsync
  | keep ho' _ _ _ => exact ho'

theorem Orderly.runs : ∀ (as : List (SyncAct P)) (s : Sync P), Orderly s →
    (∃ t, Lib.run syncStep s as = some t) →
    ((∀ n u, Lib.run syncStep s (as.take n) = some u → u.Exclusive ∧ u.Flagged) ↔
      Lib.Meets syncStep Ordered s as) := by
  intro as
  induction as with
  | nil =>
    intro s h _
    refine iff_of_true (fun n u hu => ?_) trivial
    rw [List.take_nil] at hu
    cases hu
    exact ⟨h.exclusive, h.flagged⟩
  | cons a as ih =>
    intro s h hr
    obtain ⟨t, hr⟩ := hr
    obtain ⟨m, hs, hr⟩ := Lib.run_cons hr
    have he := step_effect hs
    have htail : ∀ n, Lib.run syncStep s ((a :: as).take (n + 1)) = Lib.run syncStep m (as.take n) := by
      intro n
      show (syncStep s a).bind _ = _
      rw [hs]
      rfl
    constructor
    · intro hall
      have hm := hall 1 m (by rw [htail 0]; rfl)
      have ho := h.ordered he hm.1 hm.2
      have hrest : Lib.Meets syncStep Ordered m as := by
        apply (ih m (h.next he ho) ⟨t, hr⟩).mp
        intro n u hu
        exact hall (n + 1) u (by rw [htail n]; exact hu)
      refine ⟨ho, fun m' hm' => ?_⟩
      rw [hs] at hm'
      cases hm'
      exact hrest
    · intro hmeets n u hu
      cases n with
      | zero =>
        cases hu
        exact ⟨h.exclusive, h.flagged⟩
      | succ n =>
        rw [htail n] at hu
        exact (ih m (h.next he hmeets.1) ⟨t, hr⟩).mpr (hmeets.2 m hs) n u hu

omit [DecidableEq P] in
theorem boot_orderly : Orderly (Sync.boot : Sync P) := by
  refine ⟨fun _ _ => rfl, fun hc => ?_, fun hc => ?_⟩ <;> cases hc

/-- In the states of a run at most one activation of `commit()` is in progress, with the
flag up, exactly when the steps of the run are in order. -/
theorem one_commit_iff (as : List (SyncAct P)) (t : Sync P)
    (hr : Lib.run syncStep Sync.boot as = some t) :
    (∀ n u, Lib.run syncStep Sync.boot (as.take n) = some u → u.Exclusive ∧ u.Flagged) ↔
      Lib.Meets syncStep Ordered Sync.boot as :=
  Orderly.runs as Sync.boot boot_orderly ⟨t, hr⟩

end Machine

instance Ordered.decidable (s : Sync Nat) : ∀ a, Decidable (Ordered s a)
  | .sync1 _ .sys => inferInstanceAs (Decidable (s.committing = false → s.synchronizing ≠ 0))
  | .sync1 _ .bget => inferInstanceAs (Decidable (_ ∧ _))
  | .clear _ _ => inferInstanceAs (Decidable (_ = _))
  | .sysSync _ => .isTrue trivial
  | .bget _ => .isTrue trivial
  | .incr _ => .isTrue trivial
  | .commit _ _ => .isTrue trivial
  | .commitEnd _ _ => .isTrue trivial
  | .kill _ => .isTrue trivial
  | .endOp => .isTrue trivial

/-- A `sys_sync` sleeps through the commit of a flush, and one of another process starts the
next commit when both are over. -/
def syncDuringFlush : List (SyncAct Nat) :=
  [.bget 0, .incr 0, .sync1 0 .bget, .commit 0 .bget, .sysSync 1, .sync1 1 .sys, .commitEnd 0 .bget,
    .clear 0 .bget, .clear 1 .sys, .sysSync 2, .sync1 2 .sys, .commit 2 .sys]

theorem one_commit_iff_syncDuringFlush :
    (∃ t, Lib.run syncStep Sync.boot syncDuringFlush = some t ∧ t.active 2 = 1) ∧
    (∀ n u, Lib.run syncStep Sync.boot (syncDuringFlush.take n) = some u → u.Exclusive ∧ u.Flagged) ∧
    Lib.Meets syncStep Ordered Sync.boot syncDuringFlush := by
  have hmeets : Lib.Meets syncStep Ordered Sync.boot syncDuringFlush := by decide
  exact ⟨⟨_, rfl, rfl⟩, (one_commit_iff syncDuringFlush _ rfl).mpr hmeets, hmeets⟩

/-- Two processes find few buffers and the flag down before either of them raises it. -/
def twoFlushes : List (SyncAct Nat) :=
  [.bget 0, .bget 1, .incr 0, .incr 1, .sync1 0 .bget, .commit 0 .bget, .sync1 1 .bget]

/-- A `sys_sync` that has slept through one commit returns during the next. -/
def lateReturn : List (SyncAct Nat) :=
  [.bget 0, .incr 0, .sync1 0 .bget, .commit 0 .bget, .sysSync 1, .sync1 1 .sys, .commitEnd 0 .bget,
    .clear 0 .bget, .bget 2, .incr 2, .sync1 2 .bget, .commit 2 .bget, .clear 1 .sys]

/-- In the first run two processes are in `commit()`, in the second one is, with the
flag down. -/
theorem commits_overlap : (∃ t, Lib.run syncStep Sync.boot twoFlushes = some t ∧ ¬ t.Exclusive) ∧
    ∃ t, Lib.run syncStep Sync.boot lateReturn = some t ∧ ¬ t.Flagged := by
  refine ⟨⟨_, rfl, fun h => ?_⟩, ⟨_, rfl, fun h => ?_⟩⟩
  · exact absurd (h.2 0 1 (by decide) (by decide)) (by decide)
  · exact h 2 (by decide) rfl

end Xv6.Fs
