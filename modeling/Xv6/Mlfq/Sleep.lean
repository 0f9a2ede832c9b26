import Xv6.Base
import Xv6.Lib.Run

/- `sys_sleep` against the clock of the MLFQ kernel (`project1_scheduler/sysproc.c`,
   `trap.c`). `ticks` is a `uint` that the timer interrupt of CPU 0 counts up and that
   `boostPriority` and `schedulerLock` set back to 0. Each of these, and each pass of the
   loop of `sys_sleep` up to its `sleep`, runs under `tickslock` and is one step.
   `interrupts` counts the executions of `ticks++`. -/
namespace Xv6.Mlfq

/-- An `int` as the `uint` it is compared as. -/
def uint (n : Int) : Nat := (n % 2 ^ 32).toNat

/-- `ticks - ticks0` for two `uint`s. -/
def subU (a b : Nat) : Nat := (a + 2 ^ 32 - b) % 2 ^ 32

/-- A call `sleep(n)` that has read `ticks0`, when `start` interrupts had been counted. -/
structure SleepCall where
  n : Int
  ticks0 : Nat
  start : Nat
  deriving DecidableEq, Repr

inductive Sleeper where
  | out
  | asleep (c : SleepCall)
  | awake (c : SleepCall)
  deriving DecidableEq, Repr

/-- A call `sleep(n)` that returned `value` after `elapsed` interrupts. -/
structure SleepReturn where
  n : Int
  elapsed : Nat
  value : Int
  deriving DecidableEq, Repr

structure Clock where
  ticks : Nat
  interrupts : Nat
  sleeper : Slot → Sleeper
  killed : Slot → Bool
  returns : List SleepReturn

inductive ClockAct where
  | timer
  | reset
  | sleep (p : Slot) (n : Int)
  | resume (p : Slot)
  | kill (p : Slot) (sleeping : Bool)
  deriving DecidableEq, Repr

namespace Clock

def setSleeper (s : Clock) (p : Slot) (x : Sleeper) : Clock :=
  { s with sleeper := fun q => if q = p then x else s.sleeper q }

/-- The call `c` of process `p` returns. -/
def ret (s : Clock) (p : Slot) (c : SleepCall) (value : Int) : Clock :=
  { s.setSleeper p .out with
    returns := { n := c.n, elapsed := s.interrupts - c.start, value := value } :: s.returns }

/-- One pass of `while(ticks - ticks0 < n)`. -/
def pass (s : Clock) (p : Slot) (c : SleepCall) : Clock :=
  if subU s.ticks c.ticks0 < uint c.n then
    if s.killed p then s.ret p c (-1) else s.setSleeper p (.asleep c)
  else s.ret p c 0

/-- `wakeup(&ticks)` for one process. -/
def wake : Sleeper → Sleeper
  | .asleep c => .awake c
  | x => x

end Clock

def clockStep (s : Clock) : ClockAct → Option Clock
  | .timer => some { s with
      ticks := (s.ticks + 1) % 2 ^ 32, interrupts := s.interrupts + 1
      sleeper := fun p => Clock.wake (s.sleeper p) }
  | .reset => some { s with ticks := 0 }
  | .sleep p n =>
    if s.sleeper p = .out ∧ -2 ^ 31 ≤ n ∧ n < 2 ^ 31 then
      some (s.pass p { n := n, ticks0 := s.ticks, start := s.interrupts })
    else none
  | .resume p =>
    match s.sleeper p with
    | .awake c => some (s.pass p c)
    | _ => none
  -- `kill` may come after the test of `p->killed` and before `sleep` has set the state
  | .kill p sleeping => some { s with
      killed := fun q => if q = p then true else s.killed q
      sleeper := fun q => if q = p ∧ sleeping = true then Clock.wake (s.sleeper q) else s.sleeper q }

/-- The machine at boot. -/
def clockBoot : Clock :=
  { ticks := 0, interrupts := 0, sleeper := fun _ => .out, killed := fun _ => false, returns := [] }

/-- A `sleep(n)` that has returned 0 has waited for `n` interrupts. -/
def SleptEnough (s : Clock) : Prop :=
  ∀ r ∈ s.returns, 0 ≤ r.n → r.value = 0 → r.n ≤ r.elapsed

/-- A reset of `ticks` cannot end the call `c` early: `ticks` has been 0 since `ticks0`
was read, or the call has waited long enough. -/
def SleepCall.Unhurt (c : SleepCall) (interrupts : Nat) : Prop :=
  c.ticks0 = 0 ∨ c.ticks0 + (interrupts - c.start) ≥ 2 ^ 32 ∨ c.n ≤ (interrupts - c.start : Nat)

namespace Sleeper

/-- The call of a process that is inside `sys_sleep`. -/
def call : Sleeper → Option SleepCall
  | .out => none
  | .asleep c => some c
  | .awake c => some c

end Sleeper

/-- `ticks` is set back only while that hurts no `sleep` in progress. -/
def HarmlessReset (s : Clock) (a : ClockAct) : Prop :=
  a = .reset → ∀ p, ∀ c ∈ (s.sleeper p).call, c.Unhurt s.interrupts

instance SleepCall.Unhurt.decidable (c : SleepCall) (n : Nat) : Decidable (c.Unhurt n) :=
  inferInstanceAs (Decidable (_ ∨ _))

instance HarmlessReset.decidable (s : Clock) (a : ClockAct) : Decidable (HarmlessReset s a) :=
  inferInstanceAs (Decidable (_ → _))

/-! ## The invariant -/

/-- What holds of a call in progress: `ticks` has counted at most the interrupts since
`ticks0` was read, or the call has waited long enough. -/
def SleepCall.Sound (c : SleepCall) (ticks interrupts : Nat) : Prop :=
  c.start ≤ interrupts ∧ c.ticks0 < 2 ^ 32 ∧ c.n < 2 ^ 31 ∧
    ((∃ k, k ≤ interrupts - c.start ∧ ticks = (c.ticks0 + k) % 2 ^ 32) ∨
      c.n ≤ (interrupts - c.start : Nat))

structure ClockInv (s : Clock) : Prop where
  ticks : s.ticks < 2 ^ 32
  calls : ∀ p, ∀ c ∈ (s.sleeper p).call, c.Sound s.ticks s.interrupts
  returned : SleptEnough s

section Steps

variable {s s' : Clock} {p : Slot} {c : SleepCall}

@[simp] theorem Clock.wake_call (x : Sleeper) : (Clock.wake x).call = x.call := by
  cases x with
  | out => rfl
  | asleep c => rfl
  | awake c => rfl

theorem uint_of_nonneg {n : Int} (h : 0 ≤ n) (hn : n < 2 ^ 31) : (uint n : Int) = n := by
  unfold uint
  omega

/-- The difference of the two counters, when `k` ticks were counted in between. -/
theorem subU_add {a k : Nat} (ha : a < 2 ^ 32) : subU ((a + k) % 2 ^ 32) a = k % 2 ^ 32 := by
  unfold subU
  omega

/-- A pass of the loop that ends it ends it late enough. -/
theorem SleepCall.Sound.enough (h : c.Sound s.ticks s.interrupts) (h0 : 0 ≤ c.n)
    (hp : ¬ subU s.ticks c.ticks0 < uint c.n) : c.n ≤ (s.interrupts - c.start : Nat) := by
  obtain ⟨-, ht, hn, ⟨k, hk, hticks⟩ | hc⟩ := h
  · rw [hticks, subU_add ht] at hp
    have hu := uint_of_nonneg h0 hn
    have hmod : k % 2 ^ 32 ≤ k := Nat.mod_le k _
    omega
  · exact hc

/-- One more interrupt, and one more tick, for a call in progress. -/
theorem SleepCall.Sound.tick {ticks interrupts : Nat} (h : c.Sound ticks interrupts) :
    c.Sound ((ticks + 1) % 2 ^ 32) (interrupts + 1) := by
  obtain ⟨h1, h2, h3, ⟨k, hk, ht⟩ | h4⟩ := h
  · refine ⟨by omega, h2, h3, .inl ⟨k + 1, by omega, ?_⟩⟩
    rw [ht]
    omega
  · exact ⟨by omega, h2, h3, .inr (by omega)⟩

/-- A harmless reset: 0 is a value that `ticks` has had since, or none is needed. -/
theorem SleepCall.Sound.zero {ticks interrupts : Nat} (h : c.Sound ticks interrupts)
    (hu : c.Unhurt interrupts) : c.Sound 0 interrupts := by
  obtain ⟨h1, h2, h3, -⟩ := h
  refine ⟨h1, h2, h3, ?_⟩
  rcases hu with hu | hu | hu
  · exact .inl ⟨0, Nat.zero_le _, by rw [hu]; rfl⟩
  · exact .inl ⟨2 ^ 32 - c.ticks0, by omega, by rw [Nat.add_sub_of_le h2.le]; simp⟩
  · exact .inr hu

theorem ClockInv.setSleeper (h : ClockInv s) {x : Sleeper}
    (hx : ∀ c ∈ x.call, c.Sound s.ticks s.interrupts) : ClockInv (s.setSleeper p x) := by
  refine ⟨h.ticks, fun q => ?_, h.returned⟩
  by_cases hq : q = p
  · simpa [Clock.setSleeper, hq] using hx
  · simpa [Clock.setSleeper, hq] using h.calls q

theorem ClockInv.ret (h : ClockInv s) {value : Int}
    (hr : 0 ≤ c.n → value = 0 → c.n ≤ (s.interrupts - c.start : Nat)) : ClockInv (s.ret p c value) := by
  have h1 : ClockInv (s.setSleeper p .out) := h.setSleeper (fun c hc => by cases hc)
  refine ⟨h1.ticks, h1.calls, fun r hmem => ?_⟩
  rcases List.mem_cons.mp hmem with rfl | hmem
  · exact hr
  · exact h.returned r hmem

theorem ClockInv.pass (h : ClockInv s) (hc : c.Sound s.ticks s.interrupts) :
    ClockInv (s.pass p c) := by
  unfold Clock.pass
  split
  · split
    · exact h.ret (fun _ hv => by cases hv)
    · refine h.setSleeper (fun d hd => ?_)
      cases hd
      exact hc
  · rename_i hp
    exact h.ret (fun h0 _ => hc.enough h0 hp)

theorem ClockInv.step (h : ClockInv s) {a : ClockAct} (ha : HarmlessReset s a)
    (hs : clockStep s a = some s') : ClockInv s' := by
  cases a with
  | timer =>
    cases hs
    refine ⟨Nat.mod_lt _ (by norm_num), fun p d hd => ?_, h.returned⟩
    rw [Clock.wake_call] at hd
    exact (h.calls p d hd).tick
  | reset =>
    cases hs
    exact ⟨by norm_num, fun p d hd => (h.calls p d hd).zero (ha rfl p d hd), h.returned⟩
  | sleep p n =>
    simp only [clockStep] at hs
    split at hs
    · rename_i hg
      cases hs
      refine h.pass ⟨le_refl _, h.ticks, hg.2.2, .inl ⟨0, Nat.zero_le _, ?_⟩⟩
      exact (Nat.mod_eq_of_lt h.ticks).symm
    · cases hs
  | resume p =>
    simp only [clockStep] at hs
    split at hs
    · rename_i c hc
      cases hs
      exact h.pass (h.calls p c (by rw [hc]; rfl))
    · cases hs
  | kill p sleeping =>
    cases hs
    refine ⟨h.ticks, fun q d hd => h.calls q d ?_, h.returned⟩
    show d ∈ (s.sleeper q).call
    by_cases hq : q = p ∧ sleeping = true
    · simpa [hq] using hd
    · simpa [hq] using hd

end Steps

theorem clockBoot_inv : ClockInv clockBoot :=
  ⟨by decide, fun p c hc => (by cases hc), fun r hr => (by cases hr)⟩

/-- In every run in which `ticks` is set back only while every `sleep` in progress is safe
from that, a `sleep(n)` that returns 0 has waited for `n` timer interrupts. -/
theorem sleep_waits (as : List ClockAct) (s : Clock)
    (hok : Lib.Meets clockStep HarmlessReset clockBoot as)
    (hr : Lib.run clockStep clockBoot as = some s) : SleptEnough s := by
  refine (Lib.run_inv ?_ as clockBoot s clockBoot_inv hok hr).returned
  intro t a t' ht ha hs
  exact ht.step ha hs

/-- A process sleeps from boot on for two ticks, and the clock is set back meanwhile. -/
def sleepAtBoot : List ClockAct :=
  [.sleep 0 2, .timer, .resume 0, .reset, .timer, .resume 0, .timer, .resume 0]

theorem sleep_waits_sleepAtBoot : ∃ s, Lib.run clockStep clockBoot sleepAtBoot = some s ∧
    s.returns = [{ n := 2, elapsed := 3, value := 0 }] ∧ SleptEnough s := by
  have hrun : (Lib.run clockStep clockBoot sleepAtBoot).any
      (fun s => s.returns = [{ n := 2, elapsed := 3, value := 0 }]) := by
    decide +kernel
  obtain ⟨s, hr, hs⟩ := (Option.any_eq_true _ _).mp hrun
  exact ⟨s, hr, of_decide_eq_true hs, sleep_waits sleepAtBoot s (by decide +kernel) hr⟩

/-- A `sleep(10)` that starts at tick 2 and meets a reset returns after one interrupt. -/
theorem sleep_ends_at_reset : ∃ s, Lib.run clockStep clockBoot
    [.timer, .timer, .sleep 0 10, .reset, .timer, .resume 0] = some s ∧
    s.returns = [{ n := 10, elapsed := 1, value := 0 }] ∧ ¬ SleptEnough s := by
  have hrun : (Lib.run clockStep clockBoot [.timer, .timer, .sleep 0 10, .reset, .timer, .resume 0]).any
      (fun s => s.returns = [{ n := 10, elapsed := 1, value := 0 }]) := by
    decide +kernel
  obtain ⟨s, hr, hs⟩ := (Option.any_eq_true _ _).mp hrun
  have hs := of_decide_eq_true hs
  refine ⟨s, hr, hs, fun h => ?_⟩
  have h10 := h { n := 10, elapsed := 1, value := 0 } (by rw [hs]; simp) (by decide) rfl
  simp at h10

end Xv6.Mlfq
