import Xv6.Lwp.Steps

/- The start of every concrete run: the first process gets CPU 0 and executes
   `/init`. It has no other thread, so the loop of `exec` over the thread slots
   changes nothing but its own position (`execKill_clear`), and the machine it
   leaves can be written down (`initReady`). -/
namespace Xv6.Lwp

/-- `exec("/init")`, an image of three pages, in the first process. -/
def startInit : List Act :=
  [.schedule 0, .schedule 0, .resume 0 0] ++ ([.call 0 0 (.exec 1)] ++
    (List.replicate (NTHREAD + 1) (.call 0 0 .execKill) ++ [.call 0 0 (.execCommit 12288)]))

/-- The first process has been dispatched. -/
def firstDispatch (page : Nat) : Machine :=
  ((((((boot page).acquire 0).setCpu 0 { mode := .scan 0 }).setProc 0
    (((boot page).proc 0).runThread 0)).setCpu 0
      { proc := some 0, mode := .switched 0 0 }).enter 0 0 0).release

/-- `/init` is about to run. -/
def initReady (page : Nat) : Machine :=
  let m := (firstDispatch page).setPc 0 0 (.execLoad 1)
  (m.setProc 0 ((m.proc 0).execCommit 12288 1)).setPc 0 0 .user

/-- The slots of process `p` other than that of the current thread are empty. -/
def Machine.Alone (m : Machine) (p : Slot) : Prop :=
  ∀ j, j ≠ (m.proc p).thidx →
    (m.proc p).thread j = {} ∧ (m.proc p).freedustack j = 0 ∧ m.kth p j = {}

section Loop

variable {m : Machine} {p : Slot} {i : ThIdx} {c esp : Nat}

/-- In a process with one thread, an iteration of the loop of `exec` only counts. -/
theorem Machine.execKill_alone (h : m.Alone p) {n : Nat} (hn : n < NTHREAD) (pages : Nat) :
    m.execKill p i n pages = m.setPc p i (.execKill (n + 1) pages) := by
  rw [Machine.execKill, dif_pos hn]
  split
  · rfl
  · rename_i hne
    obtain ⟨ht, hf, hk⟩ := h ⟨n, hn⟩ hne
    have hproc : (m.proc p).execKill ⟨n, hn⟩ = m.proc p := by
      rw [Proc.execKill, if_neg hne]
      have h1 : (fun j => if j = ⟨n, hn⟩ then {} else (m.proc p).thread j) = (m.proc p).thread := by
        funext j
        by_cases hj : j = ⟨n, hn⟩
        · rw [if_pos hj, hj, ht]
        · rw [if_neg hj]
      have h2 : (fun j => if j = ⟨n, hn⟩ then 0 else (m.proc p).freedustack j) =
          (m.proc p).freedustack := by
        funext j
        by_cases hj : j = ⟨n, hn⟩
        · rw [if_pos hj, hj, hf]
        · rw [if_neg hj]
      simp only [Proc.setThread, Proc.setFreed, h1, h2]
    have h3 : (fun q => if q = p then m.proc p else m.proc q) = m.proc := by
      funext q
      split
      · rename_i hq; rw [hq]
      · rfl
    have h4 : (fun q j => if q = p ∧ j = ⟨n, hn⟩ then {} else m.kth q j) = m.kth := by
      funext q j
      split
      · rename_i hq; rw [hq.1, hq.2, hk]
      · rfl
    simp only [hproc, Machine.setProc, Machine.setKth, h3, h4]

theorem Machine.setPc_setPc (m : Machine) (p : Slot) (i : ThIdx) (pc pc' : Pc) :
    (m.setPc p i pc).setPc p i pc' = m.setPc p i pc' := by
  have h : (fun q j => if q = p ∧ j = i then { m.kth p i with pc := pc' } else
      if q = p ∧ j = i then { m.kth p i with pc := pc } else m.kth q j) =
      fun q j => if q = p ∧ j = i then { m.kth p i with pc := pc' } else m.kth q j := by
    funext q j
    split <;> rfl
  simp only [Machine.setPc, Machine.setKth, and_self, if_true, h]

theorem Machine.Alone.setPc (h : m.Alone p) (hi : i = (m.proc p).thidx) (pc : Pc) :
    (m.setPc p i pc).Alone p := by
  intro j hj
  obtain ⟨h1, h2, h3⟩ := h j hj
  have hji : j ≠ i := fun he => hj (he.trans hi)
  exact ⟨h1, h2, by simpa [Machine.setPc, Machine.setKth, hji] using h3⟩

/-- The whole loop of `exec`, from iteration `n` on. -/
theorem run_execKill (h : m.Alone p) (hi : i = (m.proc p).thidx)
    (hr : (m.cpu c).mode = .running p i) (esp pages : Nat) : ∀ k n, n + k = NTHREAD →
    Lib.run step (m.setPc p i (.execKill n pages)) (List.replicate (k + 1) (.call c esp .execKill)) =
      some (m.setPc p i (.execLoad pages)) := by
  have hstep : ∀ n, step (m.setPc p i (.execKill n pages)) (.call c esp .execKill) =
      some ((m.setPc p i (.execKill n pages)).execKill p i n pages) := by
    intro n
    have hr' : ((m.setPc p i (.execKill n pages)).cpu c).mode = .running p i := hr
    have hpc : ((m.setPc p i (.execKill n pages)).kth p i).pc = .execKill n pages := by
      simp [Machine.setPc, Machine.setKth]
    simp only [step, hr']
    unfold Machine.call
    rw [hpc]
  intro k
  induction k with
  | zero =>
    intro n hn
    have hlast : ¬ n < NTHREAD := by omega
    rw [List.replicate_succ, Lib.run, hstep, Option.bind_some, Machine.execKill, dif_neg hlast,
      Machine.setPc_setPc]
    rfl
  | succ k ih =>
    intro n hn
    rw [List.replicate_succ, Lib.run, hstep, Option.bind_some,
      Machine.execKill_alone (h.setPc hi _) (by omega), Machine.setPc_setPc]
    exact ih (n + 1) (by omega)

end Loop

theorem firstDispatch_alone (page : Nat) : (firstDispatch page).Alone 0 := by
  intro j hj
  have hj0 : j ≠ 0 := hj
  simp [firstDispatch, boot, Machine.acquire, Machine.setCpu, Machine.enter,
    Machine.release, Machine.setProc, Machine.setKth, Proc.runThread, Proc.copythproc, hj0]

theorem boot_existrunnable (page : Nat) : ((boot page).proc 0).existrunnable = true := by
  simp only [Proc.existrunnable, List.any_eq_true, decide_eq_true_eq]
  exact ⟨0, List.mem_finRange _, by simp [boot]⟩

theorem boot_thread (page : Nat) {j : ThIdx} (hj : j ≠ 0) :
    (((boot page).proc 0).thread j).state = .UNUSED := by
  simp [boot, hj]

theorem boot_thidxtorun (page : Nat) : ((boot page).proc 0).thidxtorun = 0 := by
  have h := Proc.thidxtorun_runnable (boot_existrunnable page)
  by_contra hne
  rw [boot_thread page hne] at h
  cases h

theorem boot_pick (page : Nat) : (boot page).pick 0 = some 0 := by
  have hfirst : List.finRange NPROC = 0 :: (List.finRange 63).map Fin.succ := List.finRange_succ
  have hstate : ((boot page).proc 0).state = .RUNNABLE := by simp [boot]
  rw [Machine.pick, hfirst]
  refine List.find?_cons_of_pos ?_
  simp [boot_existrunnable, hstate]

theorem run_dispatch (page : Nat) :
    Lib.run step (boot page) [.schedule 0, .schedule 0, .resume 0 0] = some (firstDispatch page) := by
  have h1 : step (boot page) (.schedule 0) =
      some (((boot page).acquire 0).setCpu 0 { mode := .scan 0 }) := rfl
  have h2 : step (((boot page).acquire 0).setCpu 0 { mode := .scan 0 }) (.schedule 0) =
      some ((((boot page).acquire 0).setCpu 0 { mode := .scan 0 }).dispatch 0 0) := by
    have hp : (((boot page).acquire 0).setCpu 0 { mode := .scan 0 }).pick 0 = some 0 := boot_pick page
    have hk : ((((boot page).acquire 0).setCpu 0 { mode := .scan 0 }).cpu 0).mode = .scan 0 := rfl
    simp only [step, Machine.schedule, hk, hp]
  have h3 : (((boot page).acquire 0).setCpu 0 { mode := .scan 0 }).dispatch 0 0 =
      ((((boot page).acquire 0).setCpu 0 { mode := .scan 0 }).setProc 0
        (((boot page).proc 0).runThread 0)).setCpu 0
          { proc := some 0, mode := .switched 0 0 } := by
    have ht : ((((boot page).acquire 0).setCpu 0 { mode := .scan 0 }).proc 0).thidxtorun = 0 :=
      boot_thidxtorun page
    rw [Machine.dispatch, ht]
    rfl
  rw [Lib.run, h1, Option.bind_some, Lib.run, h2, Option.bind_some, h3]
  rfl

theorem run_startInit (page : Nat) :
    Lib.run step (boot page) startInit = some (initReady page) := by
  have h1 : Lib.run step (firstDispatch page) [.call 0 0 (.exec 1)] =
      some ((firstDispatch page).setPc 0 0 (.execKill 0 1)) := rfl
  have h2 := run_execKill (i := 0) (c := 0) (firstDispatch_alone page) rfl rfl 0 1 NTHREAD 0 rfl
  rw [startInit, Lib.run_append, run_dispatch, Option.bind_some, Lib.run_append, h1,
    Option.bind_some, Lib.run_append, h2, Option.bind_some]
  rfl

theorem run_init (page : Nat) (as : List Act) :
    Lib.run step (boot page) (startInit ++ as) = Lib.run step (initReady page) as := by
  rw [Lib.run_append, run_startInit, Option.bind_some]

theorem meets_init {R : Machine → Act → Prop} {page : Nat} {as : List Act}
    (h : Lib.Meets step R (boot page) startInit) (h' : Lib.Meets step R (initReady page) as) :
    Lib.Meets step R (boot page) (startInit ++ as) := by
  refine Lib.meets_append as startInit _ h (fun m hm => ?_)
  rw [run_startInit] at hm
  cases hm
  exact h'

end Xv6.Lwp
