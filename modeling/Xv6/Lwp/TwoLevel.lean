import Xv6.Lwp.Init

/- The two levels of scheduling state agree over whole runs: what the scheduling
   invariant says of one process, of its threads and of the CPUs holds in every
   state of every run from `boot` in which no `fork` takes a slot that is still
   being given back. Without the condition it does not: `lateWrite`. -/
namespace Xv6.Lwp

/-- A running process runs exactly the thread `thidx`, a process that is
`RUNNABLE` or `EMBRYO` runs none, and no process is on two CPUs. -/
structure TwoLevel (m : Machine) : Prop where
  running : ∀ p, (m.proc p).state = .RUNNING →
    ∀ j, ((m.proc p).thread j).state = .RUNNING ↔ j = (m.proc p).thidx
  waiting : ∀ p, (m.proc p).state = .RUNNABLE ∨ (m.proc p).state = .EMBRYO →
    ∀ j, ((m.proc p).thread j).state ≠ .RUNNING
  oneCpu : ∀ c d p, (m.cpu c).proc = some p → (m.cpu d).proc = some p → c = d

/-- Whenever a scheduler step switches to a thread, that thread is the choice of
`thidxtorun` and was `RUNNABLE`. -/
def SwitchesToRunnable (m : Machine) : Prop :=
  ∀ c m' p i, step m (.schedule c) = some m' → (m'.cpu c).mode = .switched p i →
    i = (m.proc p).thidxtorun ∧ ((m.proc p).thread i).state = .RUNNABLE

theorem switchesToRunnable (m : Machine) : SwitchesToRunnable m := by
  intro c m' p i hs hk
  simp only [step, Machine.schedule] at hs
  split at hs
  · split_ifs at hs
    cases hs
    simp [Machine.setCpu] at hk
  · split at hs <;> cases hs
    · rename_i q hq
      simp only [Machine.dispatch, Machine.setCpu, if_true, Mode.switched.injEq] at hk
      obtain ⟨rfl, rfl⟩ := hk
      exact ⟨rfl, Proc.thidxtorun_runnable (Machine.pick_spec hq).2⟩
    · simp [Machine.setCpu] at hk
  · cases hs

/-- In every run in which no `fork` takes a slot that a failed `fork` is still
giving back, the two levels of scheduling state agree in every state reached. -/
theorem two_level_of_free_slots (page : Nat) (as : List Act) (m : Machine)
    (hf : Lib.Meets step (OnCall FreeSlot) (boot page) as) (hr : Lib.run step (boot page) as = some m) :
    TwoLevel m ∧ SwitchesToRunnable m := by
  have h : Inv m := Lib.run_inv (fun _ _ _ h hf hs => h.step hf hs) as _ m (Inv.boot page) hf hr
  refine ⟨⟨fun p => (h.ok p).running, ?_, h.one⟩, switchesToRunnable m⟩
  intro p hp
  refine (h.ok p).waiting ?_ ?_
  · rcases hp with hp | hp <;> simp [hp]
  · rcases hp with hp | hp <;> simp [hp]

/-- `init` forks a process into slot 1; CPU 1 runs it. -/
def startTwo : List Act :=
  [.call 0 0 .fork, .call 0 0 (.forkKalloc (some 8192)), .call 0 0 (.forkCopy true),
   .call 0 0 .forkFields, .call 0 0 .forkFinish,
   .schedule 1, .schedule 1, .resume 1 100]

theorem two_level_startTwo : ∃ m, Lib.run step (boot 4096) (startInit ++ startTwo) = some m ∧
    (m.proc 1).state = .RUNNING ∧ TwoLevel m ∧ SwitchesToRunnable m := by
  have hrun : (Lib.run step (initReady 4096) startTwo).any (fun m => (m.proc 1).state = .RUNNING) := by
    decide +kernel
  obtain ⟨m, hr, hm⟩ := (Option.any_eq_true _ _).mp hrun
  rw [← run_init] at hr
  exact ⟨m, hr, by simpa using hm,
    two_level_of_free_slots 4096 _ m (meets_init (by decide +kernel) (by decide +kernel)) hr⟩

/-- `init`'s next `fork` fails in `copyuvm` and marks slot 2 `UNUSED`. Before it
marks the thread, the process of CPU 1 forks into slot 2 and yields to its
child. The late write of CPU 0 then hits the thread that is running. -/
def lateWrite : List Act :=
  startTwo ++
  [.call 0 0 .fork, .call 0 0 (.forkKalloc (some 12288)), .call 0 0 (.forkCopy false),
   .call 1 0 .fork, .call 1 0 (.forkKalloc (some 12288)), .call 1 0 (.forkCopy true),
   .call 1 0 .forkFields, .call 1 0 .forkFinish,
   .call 1 200 .yield, .schedule 1, .resume 1 100,
   .call 0 0 .forkUndo]

theorem lateWrite_stops_running_thread : ∃ m, Lib.run step (boot 4096) (startInit ++ lateWrite) = some m ∧
    m.lock = none ∧ ¬ TwoLevel m := by
  have hrun : (Lib.run step (initReady 4096) lateWrite).any (fun m => m.lock = none ∧
      (m.proc 2).state = .RUNNING ∧
        ((m.proc 2).thread (m.proc 2).thidx).state = .UNUSED) := by
    decide +kernel
  obtain ⟨m, hr, hm⟩ := (Option.any_eq_true _ _).mp hrun
  rw [← run_init] at hr
  simp only [decide_eq_true_eq] at hm
  refine ⟨m, hr, hm.1, fun h => ?_⟩
  have := (h.running 2 hm.2.1 (m.proc 2).thidx).mpr rfl
  simp [hm.2.2] at this

end Xv6.Lwp
