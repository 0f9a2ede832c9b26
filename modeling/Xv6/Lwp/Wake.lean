import Xv6.Lwp.Records

/- Nobody sleeps through the event it waits for. A thread in `thread_join` waits
   for a slot of its process to become a zombie, a thread in `wait` for a child of
   its process to become one. `Wake` says that a sleeping thread has the channel of
   its own call in its record and that what it waits for has not happened, together
   with what this rests on: which process is on which CPU, which slots are under
   construction, and that a zombie has no children.

   It holds in every run, also after a failed `fork` has written to a slot that is
   in use again: such a write only takes a thread out of use. -/
namespace Xv6.Lwp

/-- The channel of the call the thread of process `p` sleeps in. -/
def Resume.chan (p : Slot) : Resume → Option Chan
  | .wait => some (.proc p)
  | .join j _ => some (.thread p j)
  | _ => none

/-- What a thread that sleeps on this channel waits for. -/
def Machine.Ready (m : Machine) : Chan → Prop
  | .thread p j => ((m.proc p).thread j).state = .ZOMBIE
  | .proc p => ∃ q, (m.proc q).parent = some p ∧ (m.proc q).state = .ZOMBIE
  | .obj _ => False

structure Wake (m : Machine) : Prop where
  on : ∀ c p i, (m.cpu c).mode.at p i → (m.proc p).state = .RUNNING ∧ (m.proc p).thidx = i
  one : ∀ c d p i j, (m.cpu c).mode.at p i → (m.cpu d).mode.at p j → c = d
  cur : ∀ c p i, (m.cpu c).mode.at p i → ((m.proc p).thread i).state ≠ .SLEEPING
  claim : ∀ p i np, (m.kth p i).pc.claim = some (np, .EMBRYO) → (m.proc np).state = .EMBRYO
  owner : ∀ p i q j np, (m.kth p i).pc.claim = some (np, .EMBRYO) →
    (m.kth q j).pc.claim = some (np, .EMBRYO) → p = q ∧ i = j
  unborn : ∀ p i, (m.proc p).Unborn → ((m.proc p).thread i).state ≠ .SLEEPING
  awake : ∀ p, (m.proc p).state ≠ .SLEEPING
  init : (m.proc m.initproc).Live
  exiting : ∀ p i, (m.kth p i).pc = .exiting → p ≠ m.initproc
  orphan : ∀ p q, (m.proc p).state = .ZOMBIE → (m.proc q).parent ≠ some p
  root : (m.proc m.initproc).parent = none
  self : ∀ p, (m.proc p).parent ≠ some p
  chan : ∀ p i ch, ((m.proc p).thread i).state = .SLEEPING → (m.kth p i).resume.chan p = some ch →
    ((m.proc p).thread i).chan = some ch
  idle : ∀ p i ch, ((m.proc p).thread i).state = .SLEEPING → (m.kth p i).resume.chan p = some ch →
    ¬ m.Ready ch

/-- A record in which nobody has fallen asleep and no thread has become a zombie. -/
structure Proc.Keeps (x y : Proc) : Prop where
  state : y.state = x.state
  thidx : y.thidx = x.thidx
  parent : y.parent = x.parent
  slept : ∀ j, (y.thread j).state = .SLEEPING →
    (x.thread j).state = .SLEEPING ∧ (y.thread j).chan = (x.thread j).chan
  zombie : ∀ j, (y.thread j).state = .ZOMBIE → (x.thread j).state = .ZOMBIE

/-- A thread that sleeps afterwards sleeps in the same call as before. -/
def SameSleep (m m' : Machine) (q : Slot) : Prop :=
  ∀ j, ((m'.proc q).thread j).state = .SLEEPING → (m'.kth q j).resume = (m.kth q j).resume

/-- A position in no `fork` and no `exit`. -/
def Pc.Plain (pc : Pc) : Prop := pc.claim = none ∧ pc ≠ .exiting

/-- No thread has begun to build a slot, or to exit. -/
def NoBuild (m m' : Machine) : Prop :=
  ∀ q j, (m'.kth q j).pc = (m.kth q j).pc ∨ (m'.kth q j).pc.Plain

theorem NoBuild.refl (m : Machine) : NoBuild m m := fun _ _ => .inl rfl

theorem NoBuild.claim {m m' : Machine} (h : NoBuild m m') {q np : Slot} {j : ThIdx} {s : ProcState}
    (hc : (m'.kth q j).pc.claim = some (np, s)) : (m.kth q j).pc.claim = some (np, s) := by
  rcases h q j with he | he
  · rw [← he]; exact hc
  · simp [he.1] at hc

theorem NoBuild.exiting {m m' : Machine} (h : NoBuild m m') {q : Slot} {j : ThIdx}
    (hc : (m'.kth q j).pc = .exiting) : (m.kth q j).pc = .exiting := by
  rcases h q j with he | he
  · rw [← he]; exact hc
  · exact absurd hc he.2

theorem NoBuild.setKth (m : Machine) (p : Slot) (i : ThIdx) {k : Kth}
    (h : k.pc = (m.kth p i).pc ∨ k.pc.Plain) : NoBuild m (m.setKth p i k) := by
  intro q j
  by_cases he : q = p ∧ j = i
  · obtain ⟨rfl, rfl⟩ := he
    simpa [Machine.setKth] using h
  · simp [Machine.setKth, he]

theorem Resume.chan_mem {p : Slot} {r : Resume} {ch : Chan} (h : r.chan p = some ch) :
    ch = .proc p ∨ ∃ j, ch = .thread p j := by
  cases r <;> simp only [Resume.chan, Option.some.injEq, reduceCtorEq] at h
  · exact .inl h.symm
  · exact .inr ⟨_, h.symm⟩

namespace Proc

variable {x y z : Proc}

theorem Keeps.refl (x : Proc) : x.Keeps x := ⟨rfl, rfl, rfl, fun _ h => ⟨h, rfl⟩, fun _ h => h⟩

theorem Keeps.trans (h : x.Keeps y) (h' : y.Keeps z) : x.Keeps z := by
  refine ⟨h'.state.trans h.state, h'.thidx.trans h.thidx, h'.parent.trans h.parent, ?_, ?_⟩
  · intro j hj
    obtain ⟨h1, h2⟩ := h'.slept j hj
    obtain ⟨h3, h4⟩ := h.slept j h1
    exact ⟨h3, h2.trans h4⟩
  · exact fun j hj => h.zombie j (h'.zombie j hj)

/-- One thread is written, and it neither sleeps nor is a zombie afterwards. -/
theorem keeps_of_thread (i : ThIdx) (hs : y.state = x.state) (ht : y.thidx = x.thidx)
    (hp : y.parent = x.parent) (hj : ∀ j, j ≠ i → y.thread j = x.thread j)
    (h1 : (y.thread i).state ≠ .SLEEPING) (h2 : (y.thread i).state ≠ .ZOMBIE) : x.Keeps y := by
  refine ⟨hs, ht, hp, fun j h => ?_, fun j h => ?_⟩
  · by_cases he : j = i
    · exact absurd (he ▸ h) h1
    · rw [hj j he] at h ⊢
      exact ⟨h, rfl⟩
  · by_cases he : j = i
    · exact absurd (he ▸ h) h2
    · rwa [hj j he] at h

theorem keeps_wakeProc (chan : Option Chan) (x : Proc) : x.Keeps (Machine.wakeProc chan x) := by
  unfold Machine.wakeProc
  split
  · refine ⟨rfl, rfl, rfl, fun j h => ?_, fun j h => ?_⟩
    · simp only [Machine.wakeThread] at h ⊢
      split at h
      · cases h
      · rename_i hn
        rw [if_neg hn]
        exact ⟨h, rfl⟩
    · simp only [Machine.wakeThread] at h
      split at h
      · cases h
      · exact h
  · exact Keeps.refl x

/-- Whoever still sleeps after `wakeup1` sleeps on another channel. -/
theorem wakeProc_chan {chan : Option Chan} (hx : x.Live) {j : ThIdx}
    (h : ((Machine.wakeProc chan x).thread j).state = .SLEEPING) : (x.thread j).chan ≠ chan := by
  intro hc
  have hup : x.state = .RUNNABLE ∨ x.state = .RUNNING := hx
  unfold Machine.wakeProc at h
  rw [if_pos hup] at h
  simp only [Machine.wakeThread] at h
  split at h
  · cases h
  · rename_i hn
    exact hn ⟨h, hc⟩

theorem keeps_kill (x : Proc) : x.Keeps x.kill := by
  unfold kill
  split
  · exact keeps_of_thread x.thidx rfl rfl rfl (fun j hj => by simp [hj]) (by simp) (by simp)
  · exact ⟨rfl, rfl, rfl, fun _ h => ⟨h, rfl⟩, fun _ h => h⟩

/-- One thread is written, and it was not asleep and keeps its state. -/
theorem keeps_of_state (i : ThIdx) (hs : y.state = x.state) (ht : y.thidx = x.thidx)
    (hp : y.parent = x.parent) (hj : ∀ j, j ≠ i → y.thread j = x.thread j)
    (h1 : (y.thread i).state = (x.thread i).state) (h2 : (x.thread i).state ≠ .SLEEPING) :
    x.Keeps y := by
  refine ⟨hs, ht, hp, fun j h => ?_, fun j h => ?_⟩
  · by_cases he : j = i
    · subst he
      rw [h1] at h
      exact absurd h h2
    · rw [hj j he] at h ⊢
      exact ⟨h, rfl⟩
  · by_cases he : j = i
    · subst he
      rwa [h1] at h
    · rwa [hj j he] at h

/-- The copy from the process to a thread that is not asleep. -/
theorem keeps_copyprocth (i : ThIdx) (hi : (x.thread i).state ≠ .SLEEPING) :
    x.Keeps (x.copyprocth i) :=
  keeps_of_state i rfl rfl rfl (fun j hj => by simp [copyprocth, hj]) (by simp [copyprocth]) hi

theorem keeps_execKill (x : Proc) (i : ThIdx) : x.Keeps (x.execKill i) := by
  unfold execKill
  split
  · exact Keeps.refl x
  · exact keeps_of_thread i rfl rfl rfl (fun j hj => by simp [hj]) (by simp) (by simp)

theorem keeps_execCommit (x : Proc) (img pages : Nat) : x.Keeps (x.execCommit img pages) :=
  keeps_of_thread x.thidx rfl rfl rfl (fun j hj => by simp [execCommit, hj])
    (by simp [execCommit]) (by simp [execCommit])

end Proc

section Rules

variable {m m' : Machine} {c : Nat} {p np : Slot} {i : ThIdx}

/-- What a sleeping thread waits for has not happened, if no zombie is new. -/
theorem Wake.not_ready (h : Wake m) (hp : ∀ q, (m.proc q).Keeps (m'.proc q)) {q : Slot} {j : ThIdx}
    {ch : Chan} (hs : ((m.proc q).thread j).state = .SLEEPING)
    (hc : (m.kth q j).resume.chan q = some ch) : ¬ m'.Ready ch := by
  intro hr
  refine h.idle q j ch hs hc ?_
  cases ch with
  | thread r k => exact (hp r).zombie k hr
  | proc r =>
    obtain ⟨s, h1, h2⟩ := hr
    exact ⟨s, (hp s).parent ▸ h1, (hp s).state ▸ h2⟩
  | obj n => exact hr

/-- Nobody has fallen asleep, nothing has become a zombie, and every process is
where it was. -/
theorem Wake.keep (h : Wake m) (hp : ∀ q, (m.proc q).Keeps (m'.proc q))
    (hc : ∀ d q j, (m'.cpu d).mode.at q j → (m.cpu d).mode.at q j)
    (hi : m'.initproc = m.initproc) (hr : ∀ q, SameSleep m m' q) (hk : NoBuild m m') : Wake m' := by
  constructor
  · intro d q j hd
    rw [(hp q).state, (hp q).thidx]
    exact h.on d q j (hc d q j hd)
  · exact fun d e q j k hd he => h.one d e q j k (hc d q j hd) (hc e q k he)
  · exact fun d q j hd hs => h.cur d q j (hc d q j hd) ((hp q).slept j hs).1
  · intro q j r hq
    rw [(hp r).state]
    exact h.claim q j r (hk.claim hq)
  · exact fun q j q' j' r hq hq' => h.owner q j q' j' r (hk.claim hq) (hk.claim hq')
  · intro q j hu hs
    unfold Proc.Unborn at hu
    rw [(hp q).state] at hu
    exact h.unborn q j hu ((hp q).slept j hs).1
  · intro q
    rw [(hp q).state]
    exact h.awake q
  · rw [hi]
    unfold Proc.Live
    rw [(hp _).state]
    exact h.init
  · intro q j hq
    rw [hi]
    exact h.exiting q j (hk.exiting hq)
  · intro q r hq
    rw [(hp r).parent]
    exact h.orphan q r ((hp q).state ▸ hq)
  · rw [hi, (hp _).parent]
    exact h.root
  · intro q
    rw [(hp q).parent]
    exact h.self q
  · intro q j ch hs hq
    rw [hr q j hs] at hq
    obtain ⟨h1, h2⟩ := (hp q).slept j hs
    rw [h2]
    exact h.chan q j ch h1 hq
  · intro q j ch hs hq
    rw [hr q j hs] at hq
    exact h.not_ready hp ((hp q).slept j hs).1 hq

/-- The slot `np`, which no scheduler looks at, has changed; it has no thread that
sleeps, and has not become a zombie. -/
theorem Wake.slot (h : Wake m) (np : Slot) (hn : ¬ (m.proc np).Live)
    (hst : (m'.proc np).Unborn ∨ (m'.proc np).state = .RUNNABLE)
    (hs : ∀ j, ((m'.proc np).thread j).state ≠ .SLEEPING)
    (hpar : ∀ r, (m'.proc np).parent = some r →
      (m.proc np).parent = some r ∨ (m.proc r).state = .RUNNING)
    (hp : ∀ q, q ≠ np → (m.proc q).Keeps (m'.proc q)) (hc : m'.cpu = m.cpu)
    (hi : m'.initproc = m.initproc) (hr : ∀ q, q ≠ np → SameSleep m m' q)
    (hcl : ∀ q j r, (m'.kth q j).pc.claim = some (r, .EMBRYO) → (m'.proc r).state = .EMBRYO)
    (how : ∀ q j q' j' r, (m'.kth q j).pc.claim = some (r, .EMBRYO) →
      (m'.kth q' j').pc.claim = some (r, .EMBRYO) → q = q' ∧ j = j')
    (hex : ∀ q j, (m'.kth q j).pc = .exiting → (m.kth q j).pc = .exiting) : Wake m' := by
  have hne : ∀ d q j, (m'.cpu d).mode.at q j → (m.cpu d).mode.at q j ∧ q ≠ np := by
    intro d q j hd
    rw [hc] at hd
    refine ⟨hd, ?_⟩
    rintro rfl
    exact hn (.inr (h.on d q j hd).1)
  have hinit : m.initproc ≠ np := by
    intro he
    exact hn (he ▸ h.init)
  have hz : (m'.proc np).state ≠ .ZOMBIE ∧ (m'.proc np).state ≠ .SLEEPING := by
    rcases hst with (he | he) | he <;> simp [he]
  constructor
  · intro d q j hd
    obtain ⟨hd, hq⟩ := hne d q j hd
    rw [(hp q hq).state, (hp q hq).thidx]
    exact h.on d q j hd
  · exact fun d e q j k hd he => h.one d e q j k (hne d q j hd).1 (hne e q k he).1
  · intro d q j hd hsl
    obtain ⟨hd, hq⟩ := hne d q j hd
    exact h.cur d q j hd ((hp q hq).slept j hsl).1
  · exact hcl
  · exact how
  · intro q j hu hsl
    by_cases hq : q = np
    · exact hs j (hq ▸ hsl)
    · unfold Proc.Unborn at hu
      rw [(hp q hq).state] at hu
      exact h.unborn q j hu ((hp q hq).slept j hsl).1
  · intro q
    by_cases hq : q = np
    · rw [hq]
      exact hz.2
    · rw [(hp q hq).state]
      exact h.awake q
  · rw [hi]
    unfold Proc.Live
    rw [(hp _ hinit).state]
    exact h.init
  · intro q j hq
    rw [hi]
    exact h.exiting q j (hex q j hq)
  · intro q r hq
    have hqn : q ≠ np := fun he => hz.1 (he ▸ hq)
    rw [(hp q hqn).state] at hq
    by_cases hrn : r = np
    · subst hrn
      intro he
      rcases hpar q he with h1 | h1
      · exact h.orphan q r hq h1
      · simp [hq] at h1
    · rw [(hp r hrn).parent]
      exact h.orphan q r hq
  · rw [hi, (hp _ hinit).parent]
    exact h.root
  · intro q he
    by_cases hqn : q = np
    · subst hqn
      rcases hpar q he with h1 | h1
      · exact h.self q h1
      · exact hn (.inr h1)
    · rw [(hp q hqn).parent] at he
      exact h.self q he
  · intro q j ch hsl hq
    have hqn : q ≠ np := fun he => hs j (he ▸ hsl)
    rw [hr q hqn j hsl] at hq
    obtain ⟨h1, h2⟩ := (hp q hqn).slept j hsl
    rw [h2]
    exact h.chan q j ch h1 hq
  · intro q j ch hsl hq hrd
    have hqn : q ≠ np := fun he => hs j (he ▸ hsl)
    rw [hr q hqn j hsl] at hq
    refine h.idle q j ch ((hp q hqn).slept j hsl).1 hq ?_
    rcases Resume.chan_mem hq with rfl | ⟨k, rfl⟩
    · obtain ⟨s, h1, h2⟩ := hrd
      have hsn : s ≠ np := fun he => hz.1 (he ▸ h2)
      exact ⟨s, (hp s hsn).parent ▸ h1, (hp s hsn).state ▸ h2⟩
    · exact (hp q hqn).zombie k hrd

/-- The thread `(p, i)`, which builds the slot `np`, has changed that slot, or is
done with it. -/
theorem Wake.build (h : Wake m) (hpc : (m.kth p i).pc.claim = some (np, .EMBRYO))
    (hst : (m'.proc np).Unborn ∨ (m'.proc np).state = .RUNNABLE)
    (hs : ∀ j, ((m'.proc np).thread j).state ≠ .SLEEPING)
    (hpar : ∀ r, (m'.proc np).parent = some r →
      (m.proc np).parent = some r ∨ (m.proc r).state = .RUNNING)
    (hp : ∀ q, q ≠ np → m'.proc q = m.proc q) (hc : m'.cpu = m.cpu)
    (hi : m'.initproc = m.initproc) (hr : ∀ q, q ≠ np → ∀ j, (m'.kth q j).resume = (m.kth q j).resume)
    (hk : ∀ q j, ¬ (q = p ∧ j = i) → (m'.kth q j).pc = (m.kth q j).pc ∨ (m'.kth q j).pc.Plain)
    (hpc' : (m'.kth p i).pc.claim = some (np, .EMBRYO) → (m'.proc np).state = .EMBRYO)
    (hpc'' : ∀ r, (m'.kth p i).pc.claim = some (r, .EMBRYO) → r = np)
    (hex : (m'.kth p i).pc ≠ .exiting) : Wake m' := by
  have hn : (m.proc np).state = .EMBRYO := h.claim p i np hpc
  -- a claim of another thread is an old one, and not on `np`
  have hold : ∀ q j r, ¬ (q = p ∧ j = i) → (m'.kth q j).pc.claim = some (r, .EMBRYO) →
      (m.kth q j).pc.claim = some (r, .EMBRYO) ∧ r ≠ np := by
    intro q j r hne hq
    have hq' : (m.kth q j).pc.claim = some (r, .EMBRYO) := by
      rcases hk q j hne with he | he
      · rw [← he]; exact hq
      · simp [he.1] at hq
    refine ⟨hq', ?_⟩
    rintro rfl
    exact hne (h.owner q j p i r hq' hpc)
  refine h.slot np (by simp [Proc.Live, hn]) hst hs hpar
    (fun q hq => by rw [hp q hq]; exact Proc.Keeps.refl _) hc hi (fun q hq j _ => hr q hq j) ?_ ?_ ?_
  · intro q j r hq
    by_cases hne : q = p ∧ j = i
    · obtain ⟨rfl, rfl⟩ := hne
      have hrn := hpc'' r hq
      subst hrn
      exact hpc' hq
    · obtain ⟨hq', hrn⟩ := hold q j r hne hq
      rw [hp r hrn]
      exact h.claim q j r hq'
  · intro q j q' j' r hq hq'
    by_cases hne : q = p ∧ j = i <;> by_cases hne' : q' = p ∧ j' = i
    · exact ⟨hne.1.trans hne'.1.symm, hne.2.trans hne'.2.symm⟩
    · obtain ⟨rfl, rfl⟩ := hne
      exact absurd (hpc'' r hq) (hold q' j' r hne' hq').2
    · obtain ⟨rfl, rfl⟩ := hne'
      exact absurd (hpc'' r hq') (hold q j r hne hq).2
    · exact h.owner q j q' j' r (hold q j r hne hq).1 (hold q' j' r hne' hq').1
  · intro q j hq
    by_cases hne : q = p ∧ j = i
    · exact absurd (hne.1 ▸ hne.2 ▸ hq) hex
    · rcases hk q j hne with he | he
      · rw [← he]; exact hq
      · exact absurd hq he.2

/-- The thread on CPU `c` has left it and its process waits to be scheduled. -/
theorem Wake.leave (h : Wake m) (hr : (m.cpu c).mode = .running p i)
    (hs : (m'.proc p).state = .RUNNABLE) (hpar : (m'.proc p).parent = (m.proc p).parent)
    (hsl : ∀ j, ((m'.proc p).thread j).state = .SLEEPING →
      (((m.proc p).thread j).state = .SLEEPING ∧
        ((m'.proc p).thread j).chan = ((m.proc p).thread j).chan ∧
        (m'.kth p j).resume = (m.kth p j).resume) ∨
      ∀ ch, (m'.kth p j).resume.chan p = some ch →
        ((m'.proc p).thread j).chan = some ch ∧ ¬ m'.Ready ch)
    (hzo : ∀ j, ((m'.proc p).thread j).state = .ZOMBIE → ((m.proc p).thread j).state = .ZOMBIE ∨
      ∀ k t, ((m'.proc p).thread k).state = .SLEEPING → (m'.kth p k).resume ≠ .join j t)
    (hp : ∀ q, q ≠ p → (m.proc q).Keeps (m'.proc q))
    (hc : ∀ d, m'.cpu d = if d = c then { mode := .scan (p + 1) } else m.cpu d)
    (hi : m'.initproc = m.initproc) (hrs : ∀ q, q ≠ p → SameSleep m m' q) (hk : NoBuild m m') :
    Wake m' := by
  have hon := h.on c p i (.inr hr)
  -- another CPU is in another process
  have hne : ∀ d q j, (m'.cpu d).mode.at q j → (m.cpu d).mode.at q j ∧ q ≠ p := by
    intro d q j hd
    rw [hc d] at hd
    by_cases hdc : d = c
    · simp [hdc, Mode.at] at hd
    · rw [if_neg hdc] at hd
      refine ⟨hd, ?_⟩
      rintro rfl
      exact hdc (h.one d c q j i hd (.inr hr))
  -- `p` was running, so it was no zombie
  have hpar' : ∀ q, (m'.proc q).parent = (m.proc q).parent := by
    intro q
    by_cases hq : q = p
    · rw [hq]; exact hpar
    · exact (hp q hq).parent
  have hzs : ∀ q, (m'.proc q).state = .ZOMBIE → (m.proc q).state = .ZOMBIE := by
    intro q hz
    by_cases hq : q = p
    · rw [hq, hs] at hz
      cases hz
    · exact (hp q hq).state ▸ hz
  constructor
  · intro d q j hd
    obtain ⟨hd, hq⟩ := hne d q j hd
    rw [(hp q hq).state, (hp q hq).thidx]
    exact h.on d q j hd
  · exact fun d e q j k hd he => h.one d e q j k (hne d q j hd).1 (hne e q k he).1
  · intro d q j hd hsl'
    obtain ⟨hd, hq⟩ := hne d q j hd
    exact h.cur d q j hd ((hp q hq).slept j hsl').1
  · intro q j r hq
    have hcl := h.claim q j r (hk.claim hq)
    have hrp : r ≠ p := by
      rintro rfl
      simp [hon.1] at hcl
    rw [(hp r hrp).state]
    exact hcl
  · exact fun q j q' j' r hq hq' => h.owner q j q' j' r (hk.claim hq) (hk.claim hq')
  · intro q j hu hsl'
    by_cases hq : q = p
    · rw [hq] at hu
      simp [Proc.Unborn, hs] at hu
    · unfold Proc.Unborn at hu
      rw [(hp q hq).state] at hu
      exact h.unborn q j hu ((hp q hq).slept j hsl').1
  · intro q
    by_cases hq : q = p
    · simp [hq, hs]
    · rw [(hp q hq).state]
      exact h.awake q
  · rw [hi]
    by_cases hq : m.initproc = p
    · rw [hq]
      exact .inl hs
    · unfold Proc.Live
      rw [(hp _ hq).state]
      exact h.init
  · intro q j hq
    rw [hi]
    exact h.exiting q j (hk.exiting hq)
  · intro q r hq
    rw [hpar' r]
    exact h.orphan q r (hzs q hq)
  · rw [hi, hpar']
    exact h.root
  · intro q
    rw [hpar' q]
    exact h.self q
  · intro q j ch hsl' hq
    by_cases hqp : q = p
    · subst hqp
      rcases hsl j hsl' with ⟨h1, h2, h3⟩ | h1
      · rw [h2]
        exact h.chan q j ch h1 (h3 ▸ hq)
      · exact (h1 ch hq).1
    · rw [hrs q hqp j hsl'] at hq
      obtain ⟨h1, h2⟩ := (hp q hqp).slept j hsl'
      rw [h2]
      exact h.chan q j ch h1 hq
  · intro q j ch hsl' hq hrd
    by_cases hqp : q = p
    · subst hqp
      rcases hsl j hsl' with ⟨h1, -, h3⟩ | h1
      · have hq0 : (m.kth q j).resume.chan q = some ch := h3 ▸ hq
        refine h.idle q j ch h1 hq0 ?_
        rcases Resume.chan_mem hq with rfl | ⟨k, rfl⟩
        · obtain ⟨s, h4, h5⟩ := hrd
          exact ⟨s, hpar' s ▸ h4, hzs s h5⟩
        · rcases hzo k hrd with h4 | h4
          · exact h4
          · -- the joiners of the new zombie have been woken
            cases hrj : (m'.kth q j).resume with
            | join l t =>
              rw [hrj] at hq
              simp only [Resume.chan, Option.some.injEq, Chan.thread.injEq, true_and] at hq
              exact absurd (hq ▸ hrj) (h4 j t hsl')
            | _ => simp [hrj, Resume.chan] at hq
      · exact (h1 ch hq).2 hrd
    · rw [hrs q hqp j hsl'] at hq
      refine h.idle q j ch ((hp q hqp).slept j hsl').1 hq ?_
      rcases Resume.chan_mem hq with rfl | ⟨k, rfl⟩
      · obtain ⟨s, h4, h5⟩ := hrd
        exact ⟨s, hpar' s ▸ h4, hzs s h5⟩
      · exact (hp q hqp).zombie k hrd

end Rules

/-! ## Calls -/

section Calls

variable {m m' : Machine} {c : Nat} {p np : Slot} {i : ThIdx} {esp : Nat}

/-- `sched` leaves the states and the channels of the threads alone. -/
theorem Machine.sched_thread (m : Machine) (c : Nat) (p : Slot) (esp : Nat) (q : Slot) (j : ThIdx) :
    (((m.sched c p (m.proc p).thidx esp).proc q).thread j).state = ((m.proc q).thread j).state ∧
      (((m.sched c p (m.proc p).thidx esp).proc q).thread j).chan = ((m.proc q).thread j).chan := by
  by_cases hq : q = p
  · subst hq
    by_cases hj : j = (m.proc q).thidx
    · simp [Machine.sched, Machine.setCpu, Machine.setProc, Proc.copyprocth, Proc.copythproc, hj]
    · simp [Machine.sched, Machine.setCpu, Machine.setProc, Proc.copyprocth, Proc.copythproc, hj]
  · simp [Machine.sched, Machine.setCpu, Machine.setProc, hq]

theorem Machine.sched_other (m : Machine) (c : Nat) (p : Slot) (i : ThIdx) (esp : Nat) {q : Slot}
    (hq : q ≠ p) : (m.sched c p i esp).proc q = m.proc q := by
  simp [Machine.sched, Machine.setCpu, Machine.setProc, hq]

theorem Machine.sched_self (m : Machine) (c : Nat) (p : Slot) (i : ThIdx) (esp : Nat) :
    ((m.sched c p i esp).proc p).state = (m.proc p).state ∧
      ((m.sched c p i esp).proc p).parent = (m.proc p).parent := by
  simp [Machine.sched, Machine.setCpu, Machine.setProc, Proc.copyprocth, Proc.copythproc,
    Proc.setThread]

/-- `sched` in a process that is marked `RUNNABLE`; the conditions are those of
`Wake.leave` before the switch. -/
theorem Wake.sched (h : Wake m) (hr : (m.cpu c).mode = .running p i)
    (hs : (m'.proc p).state = .RUNNABLE) (hpar : (m'.proc p).parent = (m.proc p).parent)
    (hth : (m'.proc p).thidx = (m.proc p).thidx)
    (hsl : ∀ j, ((m'.proc p).thread j).state = .SLEEPING →
      (((m.proc p).thread j).state = .SLEEPING ∧
        ((m'.proc p).thread j).chan = ((m.proc p).thread j).chan ∧
        (m'.kth p j).resume = (m.kth p j).resume) ∨
      ∀ ch, (m'.kth p j).resume.chan p = some ch →
        ((m'.proc p).thread j).chan = some ch ∧ ¬ m'.Ready ch)
    (hzo : ∀ j, ((m'.proc p).thread j).state = .ZOMBIE → ((m.proc p).thread j).state = .ZOMBIE ∨
      ∀ k t, ((m'.proc p).thread k).state = .SLEEPING → (m'.kth p k).resume ≠ .join j t)
    (hp : ∀ q, q ≠ p → (m.proc q).Keeps (m'.proc q)) (hc : m'.cpu = m.cpu)
    (hi : m'.initproc = m.initproc) (hrs : ∀ q, q ≠ p → SameSleep m m' q) (hk : NoBuild m m')
    (esp : Nat) : Wake (m'.sched c p i esp) := by
  have hthidx : i = (m'.proc p).thidx := by
    rw [hth]
    exact (h.on c p i (.inr hr)).2.symm
  have hthread := m'.sched_thread c p esp
  rw [← hthidx] at hthread
  have hself := m'.sched_self c p i esp
  have hother : ∀ {q}, q ≠ p → (m'.sched c p i esp).proc q = m'.proc q :=
    fun hq => m'.sched_other c p i esp hq
  have hready : ∀ ch, (m'.sched c p i esp).Ready ch → m'.Ready ch := by
    intro ch hrd
    cases ch with
    | thread r k =>
      have hrd' : (((m'.sched c p i esp).proc r).thread k).state = .ZOMBIE := hrd
      rw [(hthread r k).1] at hrd'
      exact hrd'
    | proc r =>
      obtain ⟨s, h1, h2⟩ := hrd
      by_cases hsp : s = p
      · subst hsp
        exact ⟨s, hself.2 ▸ h1, hself.1 ▸ h2⟩
      · rw [hother hsp] at h1 h2
        exact ⟨s, h1, h2⟩
    | obj n => exact hrd
  refine h.leave hr (hself.1.trans hs) (hself.2.trans hpar) ?_ ?_ ?_ ?_ hi ?_ hk
  · intro j hj
    rw [(hthread p j).1] at hj
    rw [(hthread p j).2]
    rcases hsl j hj with h1 | h1
    · exact .inl h1
    · exact .inr (fun ch hch => ⟨(h1 ch hch).1, fun hrd => (h1 ch hch).2 (hready ch hrd)⟩)
  · intro j hj
    rw [(hthread p j).1] at hj
    refine (hzo j hj).imp id (fun h1 k t hk' => ?_)
    rw [(hthread p k).1] at hk'
    exact h1 k t hk'
  · intro q hq
    rw [hother hq]
    exact hp q hq
  · intro d
    simp [Machine.sched, Machine.setCpu, Machine.setProc, hc]
  · intro q hq j hj
    rw [hother hq] at hj
    exact hrs q hq j hj

theorem Wake.setKth (h : Wake m) {k : Kth} (hk : k.pc = (m.kth p i).pc ∨ k.pc.Plain)
    (hr : ((m.proc p).thread i).state = .SLEEPING → k.resume = (m.kth p i).resume) :
    Wake (m.setKth p i k) := by
  refine h.keep (fun _ => Proc.Keeps.refl _) (fun _ _ _ hd => hd) rfl ?_
    (NoBuild.setKth m p i hk)
  intro q j hj
  by_cases he : q = p ∧ j = i
  · obtain ⟨rfl, rfl⟩ := he
    simpa [Machine.setKth] using hr hj
  · simp [Machine.setKth, he]

theorem Wake.setPc (h : Wake m) {pc : Pc} (hpc : pc.Plain) : Wake (m.setPc p i pc) :=
  h.setKth (.inr hpc) (fun _ => rfl)

theorem Machine.keeps_setProc {x : Proc} (hx : (m.proc p).Keeps x) (q : Slot) :
    (m.proc q).Keeps ((m.setProc p x).proc q) := by
  by_cases hq : q = p
  · subst hq; simpa [Machine.setProc] using hx
  · simpa [Machine.setProc, hq] using Proc.Keeps.refl _

theorem Wake.setProc (h : Wake m) {x : Proc} (hx : (m.proc p).Keeps x) : Wake (m.setProc p x) :=
  h.keep (Machine.keeps_setProc hx) (fun _ _ _ hd => hd) rfl (fun _ _ _ => rfl) (NoBuild.refl m)

/-- The lock, the ids and the events do not matter. -/
theorem Wake.congr (h : Wake m) (hp : m'.proc = m.proc) (hc : m'.cpu = m.cpu) (hk : m'.kth = m.kth)
    (hi : m'.initproc = m.initproc) : Wake m' := by
  refine h.keep (fun q => ?_) ?_ hi (fun q j _ => ?_) (fun q j => ?_)
  · rw [hp]; exact Proc.Keeps.refl _
  · rw [hc]; exact fun _ _ _ hd => hd
  · rw [hk]
  · rw [hk]; exact .inl rfl

theorem Wake.acquire (h : Wake m) (c : Nat) : Wake (m.acquire c) := h.congr rfl rfl rfl rfl

theorem Wake.wakeup1 (h : Wake m) (chan : Option Chan) : Wake (m.wakeup1 chan) :=
  h.keep (fun q => Proc.keeps_wakeProc chan (m.proc q)) (fun _ _ _ hd => hd) rfl (fun _ _ _ => rfl)
    (NoBuild.refl m)

theorem Wake.yield (h : Wake m) (hr : (m.cpu c).mode = .running p i) : Wake (m.yield c p i esp) := by
  have hth := (h.on c p i (.inr hr)).2
  have hthread : ∀ j, ((m.proc p).yield.thread j).state = .SLEEPING →
      j ≠ i ∧ (m.proc p).yield.thread j = (m.proc p).thread j := by
    intro j hj
    by_cases he : j = i
    · simp [Proc.yield, he, hth] at hj
    · exact ⟨he, by simp [Proc.yield, hth, he]⟩
  refine h.sched hr ?_ ?_ ?_ ?_ ?_ ?_ ?_ ?_ ?_ ?_ esp
  · simp [Machine.setKth, Machine.setProc, Proc.yield]
  · simp [Machine.setKth, Machine.setProc, Proc.yield, Proc.setThread]
  · simp [Machine.setKth, Machine.setProc, Proc.yield, Proc.setThread]
  · intro j hj
    simp only [Machine.setKth, Machine.setProc, if_true] at hj ⊢
    obtain ⟨he, heq⟩ := hthread j hj
    rw [heq] at hj ⊢
    exact .inl ⟨hj, rfl, by simp [he]; rfl⟩
  · intro j hj
    refine .inl ?_
    by_cases he : j = i
    · simp [Machine.setKth, Machine.setProc, Proc.yield, he, hth] at hj
    · simpa [Machine.setKth, Machine.setProc, Proc.yield, he, hth] using hj
  · intro q hq
    simpa [Machine.setKth, Machine.setProc, Machine.acquire, hq] using Proc.Keeps.refl _
  · rfl
  · rfl
  · intro q hq j _
    simp [Machine.setKth, Machine.setProc, hq]
    rfl
  · exact NoBuild.setKth _ p i (.inl rfl)

/-- A thread goes to sleep, and what it waits for has not happened. -/
theorem Wake.sleep (h : Wake m) (hr : (m.cpu c).mode = .running p i) {ch : Chan} {rs : Resume}
    (hrs : ∀ ch', rs.chan p = some ch' → ch = ch' ∧ ¬ m.Ready ch') :
    Wake (m.sleep c p i ch rs esp) := by
  have hth := (h.on c p i (.inr hr)).2
  have hzombie : ∀ j, (((m.proc p).sleep ch).thread j).state = .ZOMBIE →
      ((m.proc p).thread j).state = .ZOMBIE := by
    intro j hj
    by_cases he : j = i
    · simp [Proc.sleep, he, hth] at hj
    · simpa [Proc.sleep, he, hth] using hj
  refine h.sched hr ?_ ?_ ?_ ?_ ?_ ?_ ?_ ?_ ?_ ?_ esp
  · simp [Machine.setKth, Machine.setProc, Proc.sleep]
  · simp [Machine.setKth, Machine.setProc, Proc.sleep, Proc.setThread]
  · simp [Machine.setKth, Machine.setProc, Proc.sleep, Proc.setThread]
  · intro j hj
    by_cases he : j = i
    · subst he
      refine .inr (fun ch' hch' => ?_)
      simp only [Machine.setKth, Machine.setProc, and_self, if_true] at hch'
      obtain ⟨rfl, hnr⟩ := hrs ch' hch'
      refine ⟨by simp [Machine.setKth, Machine.setProc, Proc.sleep, hth], fun hrd => hnr ?_⟩
      rcases Resume.chan_mem hch' with rfl | ⟨k, rfl⟩
      · obtain ⟨s, h1, h2⟩ := hrd
        by_cases hs : s = p
        · subst hs
          simp [Machine.setKth, Machine.setProc, Proc.sleep] at h2
        · exact ⟨s, by simpa [Machine.setKth, Machine.setProc, hs] using h1,
            by simpa [Machine.setKth, Machine.setProc, hs] using h2⟩
      · refine hzombie k ?_
        simpa [Machine.Ready, Machine.setKth, Machine.setProc] using hrd
    · refine .inl ⟨?_, ?_, by simp [Machine.setKth, he]; rfl⟩
      · simpa [Machine.setKth, Machine.setProc, Proc.sleep, he, hth] using hj
      · simp [Machine.setKth, Machine.setProc, Proc.sleep, he, hth]
  · intro j hj
    refine .inl (hzombie j ?_)
    simpa [Machine.setKth, Machine.setProc] using hj
  · intro q hq
    simpa [Machine.setKth, Machine.setProc, hq] using Proc.Keeps.refl _
  · rfl
  · rfl
  · intro q hq j _
    simp [Machine.setKth, Machine.setProc, hq]
  · exact NoBuild.setKth _ p i (.inl rfl)

theorem Wake.waitLoop (h : Wake m) (hr : (m.cpu c).mode = .running p i) :
    Wake (m.waitLoop c p i esp) := by
  unfold Machine.waitLoop
  split
  · rename_i q hq
    have hz : (m.proc q).parent = some p ∧ (m.proc q).state = .ZOMBIE := by
      simpa using List.find?_some hq
    have hcl : ∀ r j s, ((if r = q then ({} : Kth) else m.kth r j)).pc.claim = some (s, .EMBRYO) →
        (m.kth r j).pc.claim = some (s, .EMBRYO) := by
      intro r j s hs
      by_cases hrq : r = q
      · simp [hrq, Pc.claim] at hs
      · simpa only [hrq, if_false] using hs
    refine h.slot q (by simp [Proc.Live, hz.2]) ?_ ?_ ?_ ?_ rfl rfl ?_ ?_ ?_ ?_
    · simp [Machine.setProc, Machine.release, Proc.reap, Proc.Unborn]
    · intro j
      simp only [Machine.setProc, Machine.release, if_true, Proc.reap, Proc.reapThread]
      split
      · rename_i hj; simp [hj]
      · simp
    · intro r hr'
      simp [Machine.setProc, Machine.release, Proc.reap] at hr'
    · intro r hrq
      simpa [Machine.setProc, Machine.release, hrq] using Proc.Keeps.refl _
    · intro r hrq j _
      simp [hrq]
    · intro r j s hs
      have hs' := h.claim r j s (hcl r j s hs)
      have hsq : s ≠ q := by
        rintro rfl
        simp [hz.2] at hs'
      simpa [Machine.setProc, Machine.release, hsq] using hs'
    · exact fun r j r' j' s hs hs' => h.owner r j r' j' s (hcl r j s hs) (hcl r' j' s hs')
    · intro r j hs
      by_cases hrq : r = q
      · simp [hrq] at hs
      · simpa only [hrq, if_false] using hs
  · rename_i hnone
    split
    · exact h.congr rfl rfl rfl rfl
    · refine h.sleep hr (fun ch' hch' => ?_)
      simp only [Resume.chan, Option.some.injEq] at hch'
      refine ⟨hch', ?_⟩
      rw [← hch']
      rintro ⟨q, h1, h2⟩
      have hn := List.find?_eq_none.mp hnone q (List.mem_finRange q)
      simp [h1, h2] at hn

theorem Wake.joinLoop (h : Wake m) (hr : (m.cpu c).mode = .running p i) (j : ThIdx) (tid : Nat) :
    Wake (m.joinLoop c p i j tid esp) := by
  unfold Machine.joinLoop
  split
  · have hx : (m.proc p).Keeps ((m.proc p).joinReap j) :=
      Proc.keeps_of_thread j rfl rfl rfl (fun k hk => by simp [Proc.joinReap, Proc.freeustack, hk])
        (by simp [Proc.joinReap, Proc.freeustack]) (by simp [Proc.joinReap, Proc.freeustack])
    have h1 : Wake ((m.setProc p ((m.proc p).joinReap j)).setKth p j {}) := by
      refine (h.setProc hx).setKth (.inr ⟨rfl, by simp⟩) (fun hs => ?_)
      simp [Machine.setProc, Proc.joinReap, Proc.freeustack] at hs
    exact h1.congr rfl rfl rfl rfl
  · rename_i hz
    split
    · exact h.congr rfl rfl rfl rfl
    · refine h.sleep hr (fun ch' hch' => ?_)
      simp only [Resume.chan, Option.some.injEq] at hch'
      refine ⟨hch', ?_⟩
      rw [← hch']
      exact hz

theorem Wake.threadJoin (h : Wake m) (hr : (m.cpu c).mode = .running p i) (tid : Nat) :
    Wake (m.threadJoin c p i tid esp) := by
  unfold Machine.threadJoin
  split
  · exact h
  · exact (h.acquire c).joinLoop hr _ _

theorem Wake.threadCreate (h : Wake m) (page : Option Nat) (mapped copied : Bool) :
    Wake (m.threadCreate c p page mapped copied) := by
  unfold Machine.threadCreate
  split
  · exact h.congr rfl rfl rfl rfl
  · rename_i j x hx
    obtain ⟨hj, rfl⟩ := Proc.allocth_eq hx
    split
    · refine h.keep (Machine.keeps_setProc ?_) (fun _ _ _ hd => hd) rfl (fun _ _ _ => rfl)
        (NoBuild.refl m)
      exact Proc.keeps_of_thread j rfl rfl rfl (fun k hk => by simp [hk]) (by simp) (by simp)
    · rename_i a
      have hy : ∀ y, (((m.proc p).setThread j { (m.proc p).thread j with
          tid := m.nexttid, state := .EMBRYO }).kernelStack j a).userStack j mapped copied = .ok y ∨
          (((m.proc p).setThread j { (m.proc p).thread j with
          tid := m.nexttid, state := .EMBRYO }).kernelStack j a).userStack j mapped copied = .error y →
          (m.proc p).Keeps y ∧ (y.thread j).state ≠ .SLEEPING := by
        intro y hy
        unfold Proc.userStack at hy
        split_ifs at hy <;> simp only [or_false, false_or, Except.ok.injEq,
          Except.error.injEq] at hy <;> subst hy
        all_goals
          refine ⟨Proc.keeps_of_thread j rfl rfl rfl
            (fun k hk => by simp [Proc.start, Proc.freevm, Proc.kernelStack, hk])
            (by simp [Proc.start, Proc.freevm, Proc.kernelStack])
            (by simp [Proc.start, Proc.freevm, Proc.kernelStack]),
            by simp [Proc.start, Proc.freevm, Proc.kernelStack]⟩
      split
      · rename_i y hok
        obtain ⟨hk, hs⟩ := hy y (.inl hok)
        have h1 : Wake ((m.setProc p y).setKth p j { pc := .user }) := by
          refine (h.setProc hk).setKth (.inr ⟨rfl, by simp⟩) (fun hsl => ?_)
          simp [Machine.setProc, hs] at hsl
        exact h1.congr rfl rfl rfl rfl
      · rename_i y herr
        exact (h.setProc (hy y (.inr herr)).1).congr rfl rfl rfl rfl

/-- `thread_exit`: the joiners of the new zombie are woken in the same section. -/
theorem Wake.threadExit (h : Wake m) (hr : (m.cpu c).mode = .running p i) (v : Nat) :
    Wake (m.threadExit c p i v esp) := by
  obtain ⟨hrun, hth⟩ := h.on c p i (.inr hr)
  have hup : ((m.proc p).threadExit v).Live := by
    unfold Proc.threadExit
    split
    · exact .inl rfl
    · exact .inr hrun
  have hpar : ((m.proc p).threadExit v).parent = (m.proc p).parent := by
    unfold Proc.threadExit
    split <;> rfl
  have hself : (((m.proc p).threadExit v).thread i).state ≠ .SLEEPING := by
    rw [← hth]
    unfold Proc.threadExit
    split <;> simp
  -- the threads of `p` after `wakeup1`
  obtain ⟨ch, hch⟩ : ∃ ch, ch = some (Chan.thread p (m.proc p).thidx) := ⟨_, rfl⟩
  obtain ⟨w, hw⟩ : ∃ w, w = Machine.wakeProc ch ((m.proc p).threadExit v) := ⟨_, rfl⟩
  have hkeep : ((m.proc p).threadExit v).Keeps w := hw ▸ Proc.keeps_wakeProc ch _
  have hslept : ∀ j, (w.thread j).state = .SLEEPING → j ≠ i ∧
      ((m.proc p).thread j).state = .SLEEPING ∧ (w.thread j).chan = ((m.proc p).thread j).chan := by
    intro j hj
    obtain ⟨h1, h2⟩ := hkeep.slept j hj
    have hji : j ≠ i := fun he => hself (he ▸ h1)
    rw [Proc.threadExit_other _ v (hth ▸ hji)] at h1 h2
    exact ⟨hji, h1, h2⟩
  have hs : Wake (((m.acquire c).leaveThread p i v).sched c p i esp) := by
    have hproc : ((m.acquire c).leaveThread p i v).proc p = { w with state := .RUNNABLE } := by
      rw [hw, hch]
      simp [Machine.leaveThread, Machine.setProc, Machine.setKth, Machine.wakeup1, Machine.acquire]
    have hkth : ∀ q j, ¬ (q = p ∧ j = i) →
        (((m.acquire c).leaveThread p i v).kth q j) = m.kth q j := by
      intro q j hne
      simp [Machine.leaveThread, Machine.setProc, Machine.setKth, Machine.wakeup1,
        Machine.acquire, hne]
    refine h.sched hr ?_ ?_ ?_ ?_ ?_ ?_ ?_ ?_ ?_ ?_ esp
    · rw [hproc]
    · rw [hproc]
      exact hkeep.parent.trans hpar
    · rw [hproc]
      exact hkeep.thidx.trans (Proc.threadExit_thidx _ v)
    · intro j hj
      rw [hproc] at hj ⊢
      obtain ⟨hji, h1, h2⟩ := hslept j hj
      exact .inl ⟨h1, h2, by rw [hkth p j (fun he => hji he.2)]⟩
    · intro j hj
      rw [hproc] at hj
      have hz := hkeep.zombie j hj
      by_cases hji : j = i
      · -- the joiners of `i` had the channel that was woken
        refine .inr (fun k t hk hjoin => ?_)
        rw [hproc] at hk
        obtain ⟨hki, h1, -⟩ := hslept k hk
        rw [hkth p k (fun he => hki he.2)] at hjoin
        have hc := h.chan p k (.thread p j) h1 (by rw [hjoin]; rfl)
        rw [hw] at hk
        refine Proc.wakeProc_chan hup hk ?_
        rw [Proc.threadExit_other _ v (hth ▸ hki), hc, hch, hji, hth]
      · rw [Proc.threadExit_other _ v (hth ▸ hji)] at hz
        exact .inl hz
    · intro q hq
      simpa [Machine.leaveThread, Machine.setProc, Machine.setKth, Machine.wakeup1,
        Machine.acquire, hq] using Proc.keeps_wakeProc _ (m.proc q)
    · rfl
    · rfl
    · exact fun q hq j _ => by rw [hkth q j (fun he => hq he.1)]
    · exact NoBuild.setKth _ p i (.inl rfl)
  exact hs.congr rfl rfl rfl rfl

/-- What `exit` does to the table before it marks its process a zombie. -/
structure Abandoned (m : Machine) (p : Slot) (a : Machine) : Prop where
  state : ∀ q, (a.proc q).state = (m.proc q).state
  thidx : ∀ q, (a.proc q).thidx = (m.proc q).thidx
  parent : ∀ q r, (a.proc q).parent = some r →
    (m.proc q).parent = some r ∧ r ≠ p ∨ (m.proc q).parent = some p ∧ r = m.initproc
  slept : ∀ q j, ((a.proc q).thread j).state = .SLEEPING →
    ((m.proc q).thread j).state = .SLEEPING ∧
      ((a.proc q).thread j).chan = ((m.proc q).thread j).chan
  zombie : ∀ q j, ((a.proc q).thread j).state = .ZOMBIE → ((m.proc q).thread j).state = .ZOMBIE
  woken : ∀ q j, (m.proc q).Live → ((a.proc q).thread j).state = .SLEEPING →
    ((m.proc q).thread j).chan ≠ (m.proc p).parent.map .proc
  told : ∀ q j s, (m.proc q).Live → ((a.proc q).thread j).state = .SLEEPING →
    (m.proc s).parent = some p → (m.proc s).state = .ZOMBIE →
      ((m.proc q).thread j).chan ≠ some (.proc m.initproc)

theorem Proc.adopt_spec (init p : Slot) (x : Proc) :
    (Machine.adopt init p x).state = x.state ∧ (Machine.adopt init p x).thidx = x.thidx ∧
      (Machine.adopt init p x).thread = x.thread ∧
      ∀ r, (Machine.adopt init p x).parent = some r →
        x.parent = some r ∧ r ≠ p ∨ x.parent = some p ∧ r = init := by
  unfold Machine.adopt
  split
  · rename_i he
    refine ⟨rfl, rfl, rfl, fun r hr => .inr ⟨he, ?_⟩⟩
    simpa using hr.symm
  · rename_i he
    exact ⟨rfl, rfl, rfl, fun r hr => .inl ⟨hr, fun hrp => he (hrp ▸ hr)⟩⟩

/-- `exit` wakes its parent, passes its children to init, and wakes init if one of
them is a zombie. -/
theorem Machine.abandoned (m : Machine) (p : Slot) : Abandoned m p (m.abandon p) := by
  obtain ⟨ch, hch⟩ : ∃ ch, ch = (m.proc p).parent.map Chan.proc := ⟨_, rfl⟩
  have hk : ∀ q, (m.proc q).Keeps (Machine.wakeProc ch (m.proc q)) :=
    fun q => Proc.keeps_wakeProc ch (m.proc q)
  -- the record after the first wakeup and the adoption
  obtain ⟨y, hy⟩ : ∃ y, y = fun q => Machine.adopt m.initproc p (Machine.wakeProc ch (m.proc q)) :=
    ⟨_, rfl⟩
  have hspec := fun q => Proc.adopt_spec m.initproc p (Machine.wakeProc ch (m.proc q))
  have hstate : ∀ q, (y q).state = (m.proc q).state := by
    intro q; rw [hy]; exact (hspec q).1.trans (hk q).state
  have hthidx : ∀ q, (y q).thidx = (m.proc q).thidx := by
    intro q; rw [hy]; exact (hspec q).2.1.trans (hk q).thidx
  have hthread : ∀ q, (y q).thread = (Machine.wakeProc ch (m.proc q)).thread := by
    intro q; rw [hy]; exact (hspec q).2.2.1
  have hparent : ∀ q r, (y q).parent = some r →
      (m.proc q).parent = some r ∧ r ≠ p ∨ (m.proc q).parent = some p ∧ r = m.initproc := by
    intro q r hr
    rw [hy] at hr
    have := (hspec q).2.2.2 r hr
    rwa [(hk q).parent] at this
  have hslept : ∀ q j, ((y q).thread j).state = .SLEEPING →
      ((m.proc q).thread j).state = .SLEEPING ∧
        ((y q).thread j).chan = ((m.proc q).thread j).chan := by
    intro q j hs
    rw [hthread] at hs ⊢
    exact (hk q).slept j hs
  have hzombie : ∀ q j, ((y q).thread j).state = .ZOMBIE → ((m.proc q).thread j).state = .ZOMBIE := by
    intro q j hz
    rw [hthread] at hz
    exact (hk q).zombie j hz
  have hwoken : ∀ q j, (m.proc q).Live → ((y q).thread j).state = .SLEEPING →
      ((m.proc q).thread j).chan ≠ (m.proc p).parent.map .proc := by
    intro q j hu hs
    rw [hthread] at hs
    rw [← hch]
    exact Proc.wakeProc_chan hu hs
  unfold Machine.abandon
  simp only [← hch, Machine.wakeup1]
  split
  · -- a zombie has been passed on: init's threads are woken too
    have hk2 : ∀ q, (y q).Keeps (Machine.wakeProc (some (.proc m.initproc)) (y q)) :=
      fun q => Proc.keeps_wakeProc _ (y q)
    rw [hy] at hk2 hstate hthidx hparent hslept hzombie hwoken
    refine ⟨fun q => (hk2 q).state.trans (hstate q), fun q => (hk2 q).thidx.trans (hthidx q),
      fun q r hr => hparent q r ((hk2 q).parent ▸ hr), fun q j hs => ?_,
      fun q j hz => hzombie q j ((hk2 q).zombie j hz),
      fun q j hu hs => hwoken q j hu ((hk2 q).slept j hs).1, fun q j s hu hs _ _ => ?_⟩
    · obtain ⟨h1, h2⟩ := (hk2 q).slept j hs
      obtain ⟨h3, h4⟩ := hslept q j h1
      exact ⟨h3, h2.trans h4⟩
    · have hup : (Machine.adopt m.initproc p (Machine.wakeProc ch (m.proc q))).Live := by
        unfold Proc.Live
        rw [hstate q]
        exact hu
      have hne := Proc.wakeProc_chan hup hs
      rwa [(hslept q j ((hk2 q).slept j hs).1).2] at hne
  · rename_i hnone
    rw [hy] at hstate hthidx hparent hslept hzombie hwoken
    refine ⟨hstate, hthidx, hparent, hslept, hzombie, hwoken, fun q j s _ _ hps hzs => ?_⟩
    refine absurd (List.any_eq_true.mpr ⟨s, List.mem_finRange s, ?_⟩) hnone
    simp [(hk s).parent, (hk s).state, hps, hzs]

/-- `exit`: the parent's threads in `wait` are woken before the process becomes a
zombie, in the same section, and so are init's if it inherits a zombie. -/
theorem Wake.exitEnd (h : Wake m) (hr : (m.cpu c).mode = .running p i)
    (hpc : (m.kth p i).pc = .exiting) : Wake (m.exitEnd c p i esp) := by
  obtain ⟨hrun, hth⟩ := h.on c p i (.inr hr)
  have hpi : p ≠ m.initproc := h.exiting p i hpc
  have ha : Abandoned m p ((m.acquire c).abandon p) := by
    have h0 := (m.acquire c).abandoned p
    exact ⟨h0.state, h0.thidx, h0.parent, h0.slept, h0.zombie, h0.woken, h0.told⟩
  obtain ⟨a, hae⟩ : ∃ a, a = (m.acquire c).abandon p := ⟨_, rfl⟩
  have hcpu : a.cpu = m.cpu := by rw [hae]; exact Machine.abandon_cpu (m.acquire c) p
  have hkth : a.kth = m.kth := by rw [hae]; exact Machine.abandon_kth (m.acquire c) p
  have hinit : a.initproc = m.initproc := by
    rw [hae]
    unfold Machine.abandon
    simp only
    split <;> rfl
  rw [← hae] at ha
  -- the machine before the switch
  obtain ⟨z, hz⟩ : ∃ z, z = (a.setProc p { a.proc p with state := .ZOMBIE }).setPc p i .dead :=
    ⟨_, rfl⟩
  have hzth : (z.proc p).thidx = i := by
    rw [hz]
    simp only [Machine.setPc, Machine.setKth, Machine.setProc, if_true]
    rw [ha.thidx p, hth]
  have hend : m.exitEnd c p i esp = z.sched c p (z.proc p).thidx esp := by
    rw [hzth, hz, hae]
    rfl
  have hthread : ∀ q j, (((m.exitEnd c p i esp).proc q).thread j).state = ((a.proc q).thread j).state ∧
      (((m.exitEnd c p i esp).proc q).thread j).chan = ((a.proc q).thread j).chan := by
    intro q j
    have hzq : (z.proc q).thread = (a.proc q).thread := by
      rw [hz]
      by_cases hq : q = p
      · subst hq; simp [Machine.setPc, Machine.setKth, Machine.setProc]
      · simp [Machine.setPc, Machine.setKth, Machine.setProc, hq]
    rw [hend, ← hzq]
    exact z.sched_thread c p esp q j
  have hstate : ∀ q, ((m.exitEnd c p i esp).proc q).state = if q = p then .ZOMBIE else (m.proc q).state := by
    intro q
    by_cases hq : q = p
    · subst hq
      rw [hend, (z.sched_self c q _ esp).1, hz]
      simp [Machine.setPc, Machine.setKth, Machine.setProc]
    · rw [hend, z.sched_other c p _ esp hq, hz, if_neg hq]
      simpa [Machine.setPc, Machine.setKth, Machine.setProc, hq] using ha.state q
  have hparent : ∀ q, ((m.exitEnd c p i esp).proc q).parent = (a.proc q).parent := by
    intro q
    by_cases hq : q = p
    · subst hq
      rw [hend, (z.sched_self c q _ esp).2, hz]
      simp [Machine.setPc, Machine.setKth, Machine.setProc]
    · rw [hend, z.sched_other c p _ esp hq, hz]
      simp [Machine.setPc, Machine.setKth, Machine.setProc, hq]
  have hother : ∀ q, q ≠ p → ((m.exitEnd c p i esp).proc q).thidx = (m.proc q).thidx := by
    intro q hq
    rw [hend, z.sched_other c p _ esp hq, hz]
    simpa [Machine.setPc, Machine.setKth, Machine.setProc, hq] using ha.thidx q
  have hslept : ∀ q j, (((m.exitEnd c p i esp).proc q).thread j).state = .SLEEPING →
      ((m.proc q).thread j).state = .SLEEPING ∧
        (((m.exitEnd c p i esp).proc q).thread j).chan = ((m.proc q).thread j).chan := by
    intro q j hs
    rw [(hthread q j).1] at hs
    rw [(hthread q j).2]
    exact ha.slept q j hs
  have hnb : NoBuild m (m.exitEnd c p i esp) := by
    intro q j
    have hk : (m.exitEnd c p i esp).kth = z.kth := by rw [hend]; rfl
    rw [hk, hz]
    by_cases he : q = p ∧ j = i
    · obtain ⟨rfl, rfl⟩ := he
      exact .inr (by simp [Machine.setPc, Machine.setKth, Pc.Plain, Pc.claim])
    · refine .inl ?_
      simp [Machine.setPc, Machine.setKth, Machine.setProc, he, hkth]
  have hresume : ∀ q j, ((m.exitEnd c p i esp).kth q j).resume = (m.kth q j).resume := by
    intro q j
    have hk : (m.exitEnd c p i esp).kth = z.kth := by rw [hend]; rfl
    rw [hk, hz]
    by_cases he : q = p ∧ j = i
    · obtain ⟨rfl, rfl⟩ := he
      simp [Machine.setPc, Machine.setKth, Machine.setProc, hkth]
    · simp [Machine.setPc, Machine.setKth, Machine.setProc, he, hkth]
  have hi : (m.exitEnd c p i esp).initproc = m.initproc := by
    rw [hend]
    exact hz ▸ hinit
  have hne : ∀ d q j, ((m.exitEnd c p i esp).cpu d).mode.at q j → (m.cpu d).mode.at q j ∧ q ≠ p := by
    intro d q j hd
    have hcd : (m.exitEnd c p i esp).cpu d = if d = c then { mode := .scan (p + 1) } else m.cpu d := by
      rw [hend, ← hcpu, hz]
      rfl
    rw [hcd] at hd
    by_cases hdc : d = c
    · simp [hdc, Mode.at] at hd
    · rw [if_neg hdc] at hd
      refine ⟨hd, ?_⟩
      rintro rfl
      exact hdc (h.one d c q j i hd (.inr hr))
  -- nobody is a child of `p` any more
  have hchild : ∀ q, ((m.exitEnd c p i esp).proc q).parent ≠ some p := by
    intro q he
    rw [hparent] at he
    rcases ha.parent q p he with ⟨-, hpp⟩ | ⟨-, hpp⟩
    · exact hpp rfl
    · exact hpi hpp
  have hzombie : ∀ q s, q ≠ p → (m.proc q).state = .ZOMBIE →
      ((m.exitEnd c p i esp).proc s).parent ≠ some q := by
    intro q s _ hq he
    rw [hparent] at he
    rcases ha.parent s q he with ⟨hps, -⟩ | ⟨-, hqi⟩
    · exact h.orphan q s hq hps
    · rw [hqi] at hq
      rcases h.init with hu | hu <;> simp [hu] at hq
  constructor
  · intro d q j hd
    obtain ⟨hd, hq⟩ := hne d q j hd
    rw [hstate, if_neg hq, hother q hq]
    exact h.on d q j hd
  · exact fun d e q j k hd he => h.one d e q j k (hne d q j hd).1 (hne e q k he).1
  · intro d q j hd hs
    exact h.cur d q j (hne d q j hd).1 (hslept q j hs).1
  · intro q j r hq
    have hcl := h.claim q j r (hnb.claim hq)
    have hrp : r ≠ p := by
      rintro rfl
      simp [hrun] at hcl
    rw [hstate, if_neg hrp]
    exact hcl
  · exact fun q j q' j' r hq hq' => h.owner q j q' j' r (hnb.claim hq) (hnb.claim hq')
  · intro q j hu hs
    have hqp : q ≠ p := by
      rintro rfl
      simp [Proc.Unborn, hstate] at hu
    unfold Proc.Unborn at hu
    rw [hstate, if_neg hqp] at hu
    exact h.unborn q j hu (hslept q j hs).1
  · intro q
    rw [hstate]
    split
    · simp
    · exact h.awake q
  · rw [hi]
    unfold Proc.Live
    rw [hstate, if_neg hpi.symm]
    exact h.init
  · intro q j hq
    rw [hi]
    exact h.exiting q j (hnb.exiting hq)
  · intro q s hq
    by_cases hqp : q = p
    · rw [hqp]
      exact hchild s
    · rw [hstate, if_neg hqp] at hq
      exact hzombie q s hqp hq
  · rw [hi, hparent]
    cases hpar : (a.proc m.initproc).parent with
    | none => rfl
    | some r =>
      rcases ha.parent m.initproc r hpar with ⟨h1, -⟩ | ⟨h1, -⟩ <;> simp [h.root] at h1
  · intro q he
    rw [hparent] at he
    rcases ha.parent q q he with ⟨h1, -⟩ | ⟨h1, h2⟩
    · exact h.self q h1
    · rw [h2, h.root] at h1
      cases h1
  · intro q j ch hs hq
    rw [hresume] at hq
    obtain ⟨h1, h2⟩ := hslept q j hs
    rw [h2]
    exact h.chan q j ch h1 hq
  · intro q j ch hs hq hrd
    rw [hresume] at hq
    have hsl := (hslept q j hs).1
    have hchan := h.chan q j ch hsl hq
    rcases Resume.chan_mem hq with rfl | ⟨k, rfl⟩
    · obtain ⟨s, h1, h2⟩ := hrd
      have hqp : q ≠ p := fun he => hchild s (he ▸ h1)
      have hup : (m.proc q).Live := by
        unfold Proc.Live
        cases hst : (m.proc q).state with
        | RUNNABLE => exact .inl rfl
        | RUNNING => exact .inr rfl
        | ZOMBIE => exact absurd h1 (hzombie q s hqp hst)
        | UNUSED => exact absurd hsl (h.unborn q j (.inl hst))
        | EMBRYO => exact absurd hsl (h.unborn q j (.inr hst))
        | SLEEPING => exact absurd hst (h.awake q)
      rw [(hthread q j).1] at hs
      rw [hparent] at h1
      by_cases hsp : s = p
      · -- the process that exits is the child: its parent has been woken
        rw [hsp] at h1
        rcases ha.parent p q h1 with ⟨h3, -⟩ | ⟨h3, -⟩
        · refine ha.woken q j hup hs ?_
          rw [hchan, h3]
          rfl
        · exact h.self p h3
      · rw [hstate, if_neg hsp] at h2
        rcases ha.parent s q h1 with ⟨h3, -⟩ | ⟨h3, h4⟩
        · exact h.idle q j _ hsl hq ⟨s, h3, h2⟩
        · -- a zombie passed on to init: init has been woken
          refine ha.told q j s hup hs h3 h2 ?_
          rw [hchan, h4]
    · have hz' : (((m.exitEnd c p i esp).proc q).thread k).state = .ZOMBIE := hrd
      rw [(hthread q k).1] at hz'
      exact h.idle q j _ hsl hq (ha.zombie q k hz')

/-! ## fork and exec -/

/-- `allocproc` takes a free slot for the thread `(p, i)`. -/
theorem Wake.takeSlot (h : Wake m) {x : Proc} (pc : Pc) (hn : (m.proc np).state = .UNUSED)
    (hx : x.parent = (m.proc np).parent)
    (hs : ∀ j, (x.thread j).state ≠ .SLEEPING) (hpc : pc.claim = some (np, .EMBRYO))
    (hex : pc ≠ .exiting) (pid : Int) : Wake ((m.setProc np (x.embryo pid)).setPc p i pc) := by
  have hold : ∀ q j r, (m.kth q j).pc.claim = some (r, .EMBRYO) → r ≠ np := by
    intro q j r hq hr
    have hst := h.claim q j r hq
    rw [hr, hn] at hst
    cases hst
  have hkth : ∀ q j, ((m.setProc np (x.embryo pid)).setPc p i pc).kth q j =
      if q = p ∧ j = i then { m.kth p i with pc := pc } else m.kth q j := fun _ _ => rfl
  refine h.slot np (by simp [Proc.Live, hn]) ?_ ?_ ?_ ?_ rfl rfl ?_ ?_ ?_ ?_
  · refine .inl (.inr ?_)
    simp [Machine.setPc, Machine.setKth, Machine.setProc, Proc.embryo]
  · simpa [Machine.setPc, Machine.setKth, Machine.setProc, Proc.embryo] using hs
  · intro r hr
    refine .inl ?_
    rw [← hx]
    simpa [Machine.setPc, Machine.setKth, Machine.setProc, Proc.embryo] using hr
  · intro q hq
    simpa [Machine.setPc, Machine.setKth, Machine.setProc, hq] using Proc.Keeps.refl _
  · intro q _ j _
    rw [hkth]
    split
    · rename_i he
      rw [he.1, he.2]
    · rfl
  · intro q j r hq
    rw [hkth] at hq
    split at hq
    · rw [hpc, Option.some.injEq, Prod.mk.injEq] at hq
      simp [Machine.setPc, Machine.setKth, Machine.setProc, Proc.embryo, hq.1]
    · simpa [Machine.setPc, Machine.setKth, Machine.setProc, hold q j r hq] using h.claim q j r hq
  · intro q j q' j' r hq hq'
    rw [hkth] at hq hq'
    split at hq <;> split at hq'
    · rename_i he he'
      exact ⟨he.1.trans he'.1.symm, he.2.trans he'.2.symm⟩
    · rw [hpc, Option.some.injEq, Prod.mk.injEq] at hq
      exact absurd hq.1.symm (hold q' j' r hq')
    · rw [hpc, Option.some.injEq, Prod.mk.injEq] at hq'
      exact absurd hq'.1.symm (hold q j r hq)
    · exact h.owner q j q' j' r hq hq'
  · intro q j hq
    rw [hkth] at hq
    split at hq
    · exact absurd hq hex
    · exact hq

theorem Wake.allocproc (h : Wake m) : Wake (m.allocproc p i) := by
  unfold Machine.allocproc
  split
  · exact h
  · rename_i np hnp
    have hn : (m.proc np).state = .UNUSED := by simpa using List.find?_some hnp
    have hsl := fun j => h.unborn np j (.inl hn)
    split
    · have h1 := h.takeSlot (p := p) (i := i) (.forkKalloc np none) hn rfl hsl rfl (by simp) m.nextpid
      exact h1.congr rfl rfl rfl rfl
    · rename_i j x hx
      obtain ⟨-, rfl⟩ := Proc.allocth_eq hx
      have hsl' : ∀ k, (((m.proc np).setThread j { (m.proc np).thread j with
          tid := m.nexttid, state := .EMBRYO }).thread k).state ≠ .SLEEPING := by
        intro k
        rw [Proc.setThread_thread]
        split
        · simp
        · exact hsl k
      have h1 := h.takeSlot (p := p) (i := i) (x := (m.proc np).setThread j
        { (m.proc np).thread j with tid := m.nexttid, state := .EMBRYO })
        (.forkKalloc np (some j)) hn rfl hsl' rfl (by simp) m.nextpid
      exact h1.congr rfl rfl rfl rfl

/-- The thread `(p, i)` rewrites the slot it builds and moves on to `pc`. -/
theorem Wake.buildSlot (h : Wake m) (hcl : (m.kth p i).pc.claim = some (np, .EMBRYO)) {y : Proc}
    (pc : Pc) (hy : y.Unborn) (hs : ∀ j, (y.thread j).state ≠ .SLEEPING)
    (hpar : ∀ r, y.parent = some r → (m.proc np).parent = some r ∨ (m.proc r).state = .RUNNING)
    (hpc : ∀ r, pc.claim = some (r, .EMBRYO) → r = np ∧ y.state = .EMBRYO) (hex : pc ≠ .exiting) :
    Wake ((m.setProc np y).setPc p i pc) := by
  have hself : (((m.setProc np y).setPc p i pc).kth p i).pc = pc := by
    simp [Machine.setPc, Machine.setKth]
  have hproc : ((m.setProc np y).setPc p i pc).proc np = y := by
    simp [Machine.setPc, Machine.setKth, Machine.setProc]
  refine h.build hcl ?_ ?_ ?_ ?_ rfl rfl ?_ ?_ ?_ ?_ ?_
  · rw [hproc]
    exact .inl hy
  · rw [hproc]
    exact hs
  · rw [hproc]
    exact hpar
  · intro q hq
    simp [Machine.setPc, Machine.setKth, Machine.setProc, hq]
  · intro q _ j
    by_cases he : q = p ∧ j = i
    · obtain ⟨rfl, rfl⟩ := he
      simp [Machine.setPc, Machine.setKth, Machine.setProc]
    · simp [Machine.setPc, Machine.setKth, Machine.setProc, he]
  · intro q j he
    simp [Machine.setPc, Machine.setKth, Machine.setProc, he]
  · rw [hself, hproc]
    exact fun hc => (hpc np hc).2
  · rw [hself]
    exact fun r hc => (hpc r hc).1
  · rw [hself]
    exact hex

/-- A slot under construction has no thread that sleeps. -/
theorem Wake.embryo (h : Wake m) (hcl : (m.kth p i).pc.claim = some (np, .EMBRYO)) :
    (m.proc np).state = .EMBRYO ∧ ∀ j, ((m.proc np).thread j).state ≠ .SLEEPING := by
  have hn := h.claim p i np hcl
  exact ⟨hn, fun j => h.unborn np j (.inr hn)⟩

theorem Wake.forkKalloc (h : Wake m) {th : Option ThIdx} (hpc : (m.kth p i).pc = .forkKalloc np th)
    (page : Option Nat) : Wake (m.forkKalloc p i np th page) := by
  have hcl : (m.kth p i).pc.claim = some (np, .EMBRYO) := by rw [hpc]; rfl
  obtain ⟨hn, hs⟩ := h.embryo hcl
  cases page with
  | none =>
    refine h.buildSlot hcl _ (.inl rfl) hs (fun r hr => .inl hr) ?_ (by simp)
    intro r hr
    simp [Pc.claim] at hr
  | some a =>
    refine h.buildSlot hcl _ (.inr hn) hs (fun r hr => .inl hr) ?_ (by simp)
    intro r hr
    simp only [Pc.claim, Option.some.injEq, Prod.mk.injEq, and_true] at hr
    exact ⟨hr.symm, hn⟩

theorem Wake.forkCopy (h : Wake m) (hpc : (m.kth p i).pc = .forkCopy np) (ok : Bool) :
    Wake (m.forkCopy p i np ok) := by
  have hcl : (m.kth p i).pc.claim = some (np, .EMBRYO) := by rw [hpc]; rfl
  obtain ⟨hn, hs⟩ := h.embryo hcl
  cases ok with
  | false =>
    refine h.buildSlot hcl _ (.inl rfl) hs (fun r hr => .inl hr) ?_ (by simp)
    intro r hr
    simp [Pc.claim] at hr
  | true =>
    refine h.buildSlot hcl _ (.inr hn) hs (fun r hr => .inl hr) ?_ (by simp)
    intro r hr
    simp only [Pc.claim, Option.some.injEq, Prod.mk.injEq, and_true] at hr
    exact ⟨hr.symm, hn⟩

/-- The child gets a parent that is running, so no zombie gets a child. -/
theorem Wake.forkFields (h : Wake m) (hr : (m.cpu c).mode = .running p i)
    (hpc : (m.kth p i).pc = .forkFields np) :
    Wake ((m.setProc np (Proc.forkFields (m.proc p) (m.proc np) p)).setPc p i (.forkFinish np)) := by
  have hcl : (m.kth p i).pc.claim = some (np, .EMBRYO) := by rw [hpc]; rfl
  obtain ⟨hn, hs⟩ := h.embryo hcl
  refine h.buildSlot hcl _ (.inr ?_) ?_ ?_ ?_ (by simp)
  · simpa [Proc.forkFields] using hn
  · intro j
    by_cases he : j = (m.proc np).thidx
    · simpa [Proc.forkFields, he] using hs (m.proc np).thidx
    · simpa [Proc.forkFields, he] using hs j
  · intro r hp
    simp only [Proc.forkFields, Proc.setThread, Proc.setFreed, Option.some.injEq] at hp
    rw [← hp]
    exact .inr (h.on c p i (.inr hr)).1
  · intro r hc
    simp only [Pc.claim, Option.some.injEq, Prod.mk.injEq, and_true] at hc
    exact ⟨hc.symm, by simpa [Proc.forkFields] using hn⟩

theorem Wake.forkFinish (h : Wake m) (hpc : (m.kth p i).pc = .forkFinish np) :
    Wake (m.forkFinish p i np) := by
  have hcl : (m.kth p i).pc.claim = some (np, .EMBRYO) := by rw [hpc]; rfl
  obtain ⟨-, hs⟩ := h.embryo hcl
  have hself : ((m.forkFinish p i np).kth p i).pc = .user := by
    simp [Machine.forkFinish, Machine.setPc, Machine.setKth]
  have hproc : (m.forkFinish p i np).proc np = (m.proc np).forkFinish := by
    simp [Machine.forkFinish, Machine.setPc, Machine.setKth, Machine.setProc]
  refine h.build hcl ?_ ?_ ?_ ?_ rfl rfl ?_ ?_ ?_ ?_ ?_
  · rw [hproc]
    exact .inr rfl
  · intro j
    rw [hproc]
    by_cases he : j = (m.proc np).thidx
    · simp [Proc.forkFinish, Proc.copyprocth, he]
    · simpa [Proc.forkFinish, Proc.copyprocth, he] using hs j
  · rw [hproc]
    exact fun r hp => .inl hp
  · intro q hq
    simp [Machine.forkFinish, Machine.setPc, Machine.setKth, Machine.setProc, hq]
  · intro q hq j
    by_cases he : q = p ∧ j = i
    · obtain ⟨rfl, rfl⟩ := he
      simp [Machine.forkFinish, Machine.setPc, Machine.setKth, Machine.setProc, hq]
    · simp [Machine.forkFinish, Machine.setPc, Machine.setKth, Machine.setProc, he, hq]
  · intro q j he
    simp only [Machine.forkFinish, Machine.setPc, Machine.setKth, Machine.setProc, he, if_false]
    split
    · exact .inr ⟨rfl, by simp⟩
    · exact .inl rfl
  · rw [hself]
    simp [Pc.claim]
  · rw [hself]
    simp [Pc.claim]
  · simp [hself]

/-- The late write of a failed `allocproc`, to whatever the slot holds by then. -/
theorem Wake.undoAlloc (h : Wake m) (th : Option ThIdx) :
    Wake ((m.undoAlloc np th).setPc p i .user) := by
  have h1 : Wake (m.undoAlloc np th) := by
    cases th with
    | none => exact h.setProc ⟨rfl, rfl, rfl, fun _ hj => ⟨hj, rfl⟩, fun _ hj => hj⟩
    | some j =>
      exact h.setProc (Proc.keeps_of_thread j rfl rfl rfl (fun k hk => by simp [hk]) (by simp)
        (by simp))
  exact h1.setPc ⟨rfl, by simp⟩

theorem Wake.undoFork (h : Wake m) : Wake ((m.undoFork np).setPc p i .user) := by
  have h1 : Wake (m.undoFork np) :=
    h.setProc (Proc.keeps_of_thread (m.proc np).thidx rfl rfl rfl (fun k hk => by simp [hk])
      (by simp) (by simp))
  exact h1.setPc ⟨rfl, by simp⟩

theorem Wake.execKill (h : Wake m) (n pages : Nat) : Wake (m.execKill p i n pages) := by
  unfold Machine.execKill
  split
  · rename_i hn
    split
    · exact h.setPc ⟨rfl, by simp⟩
    · rename_i hne
      have h1 := h.setProc (Proc.keeps_execKill (m.proc p) ⟨n, hn⟩)
      have h2 : Wake ((m.setProc p ((m.proc p).execKill ⟨n, hn⟩)).setKth p ⟨n, hn⟩ {}) := by
        refine h1.setKth (.inr ⟨rfl, by simp⟩) (fun hs => ?_)
        simp [Machine.setProc, Proc.execKill, hne] at hs
      exact h2.setPc ⟨rfl, by simp⟩
  · exact h.setPc ⟨rfl, by simp⟩

/-- A thread starts to exit; init never does. -/
theorem Wake.exit (h : Wake m) (hp : p ≠ m.initproc) : Wake (m.setPc p i .exiting) := by
  have hcl : ∀ q j r, ((m.setPc p i .exiting).kth q j).pc.claim = some (r, .EMBRYO) →
      (m.kth q j).pc.claim = some (r, .EMBRYO) := by
    intro q j r hq
    by_cases he : q = p ∧ j = i
    · simp [Machine.setPc, Machine.setKth, he, Pc.claim] at hq
    · simpa [Machine.setPc, Machine.setKth, he] using hq
  have hrs : ∀ q j, ((m.setPc p i .exiting).kth q j).resume = (m.kth q j).resume := by
    intro q j
    by_cases he : q = p ∧ j = i
    · simp [Machine.setPc, Machine.setKth, he]
    · simp [Machine.setPc, Machine.setKth, he]
  refine ⟨h.on, h.one, h.cur, fun q j r hq => h.claim q j r (hcl q j r hq),
    fun q j q' j' r hq hq' => h.owner q j q' j' r (hcl q j r hq) (hcl q' j' r hq'),
    h.unborn, h.awake, h.init, fun q j hq => ?_, h.orphan, h.root, h.self,
    fun q j ch hs hq => h.chan q j ch hs (hrs q j ▸ hq),
    fun q j ch hs hq => h.idle q j ch hs (hrs q j ▸ hq)⟩
  by_cases he : q = p ∧ j = i
  · rw [he.1]
    exact hp
  · refine h.exiting q j ?_
    simpa [Machine.setPc, Machine.setKth, he] using hq

theorem Wake.kill (h : Wake m) (pid : Int) : Wake (m.kill pid) := by
  unfold Machine.kill
  split
  · exact h
  · exact h.setProc (Proc.keeps_kill _)

theorem Wake.fsCall (h : Wake m) (hr : (m.cpu c).mode = .running p i)
    (hs : FsStep m c p i esp m') : Wake m' := by
  cases hs with
  | wait hl hpc hrs =>
    have h1 := h.setKth (.inl hpc) (fun _ => hrs)
    refine (h1.acquire c).sleep hr ?_
    intro ch' hch'
    simp [Resume.chan] at hch'
  | go hpc hrs => exact (h.setKth (.inl hpc) (fun _ => hrs)).congr rfl rfl rfl rfl
  | wake hl hpc hrs =>
    refine Wake.wakeup1 ?_ _
    exact (h.setKth (.inl hpc) (fun _ => hrs)).congr rfl rfl rfl rfl

end Calls

/-! ## The scheduler -/

section Scheduler

variable {m m' : Machine} {c : Nat} {p : Slot} {i : ThIdx} {esp : Nat}

theorem Wake.call (h : Wake m) (hr : (m.cpu c).mode = .running p i) {k : Call}
    (hs : CallStep m c p i esp k m') : Wake m' := by
  cases hs with
  | yield => exact h.yield hr
  | sleep =>
    refine (h.acquire c).sleep hr ?_
    intro ch' hch'
    simp [Resume.chan] at hch'
  | kill => exact h.kill _
  | fork => exact h.allocproc
  | forkKalloc hpc => exact h.forkKalloc hpc _
  | forkCopy hpc => exact h.forkCopy hpc _
  | forkFields hpc => exact h.forkFields hr hpc
  | forkFinish _ hpc => exact h.forkFinish hpc
  | undoAlloc => exact h.undoAlloc _
  | undoFork => exact h.undoFork
  | exec => exact h.setPc ⟨rfl, by simp⟩
  | execKill => exact h.execKill _ _
  | execCommit => exact (h.setProc (Proc.keeps_execCommit _ _ _)).setPc ⟨rfl, by simp⟩
  | execFail => exact h.setPc ⟨rfl, by simp⟩
  | exit _ hi => exact h.exit hi
  | exitEnd _ hpc => exact h.exitEnd hr hpc
  | wait => exact (h.acquire c).waitLoop hr
  | threadCreate => exact h.threadCreate _ _ _
  | threadExit => exact h.threadExit hr _
  | threadJoin => exact h.threadJoin hr _
  | fsEnter => exact h.setPc ⟨rfl, by simp⟩
  | fsReturn => exact h.setPc ⟨rfl, by simp⟩
  | fs _ hf => exact h.fsCall hr (Machine.fsCall_step hf)

/-- The scheduler of CPU `c` dispatches a thread of a process that waits. -/
theorem Wake.dispatch (h : Wake m) {n : Nat} (hp : m.pick n = some p) : Wake (m.dispatch c p) := by
  obtain ⟨hst, hex⟩ := Machine.pick_spec hp
  obtain ⟨i, hi⟩ : ∃ i, i = (m.proc p).thidxtorun := ⟨_, rfl⟩
  have hself : (m.dispatch c p).proc p = (m.proc p).runThread i := by
    simp [Machine.dispatch, Machine.setCpu, Machine.setProc, hi]
  have hother : ∀ {q}, q ≠ p → (m.dispatch c p).proc q = m.proc q := by
    intro q hq
    simp [Machine.dispatch, Machine.setCpu, Machine.setProc, hq]
  have hthread : ∀ q j, (((m.dispatch c p).proc q).thread j).state = .SLEEPING ∨
      (((m.dispatch c p).proc q).thread j).state = .ZOMBIE →
      ((m.dispatch c p).proc q).thread j = (m.proc q).thread j := by
    intro q j hj
    by_cases hq : q = p
    · subst hq
      rw [hself] at hj ⊢
      by_cases hji : j = i
      · simp [Proc.runThread, hji] at hj
      · simp [Proc.runThread, Proc.copythproc, hji]
    · rw [hother hq]
  have hparent : ∀ q, ((m.dispatch c p).proc q).parent = (m.proc q).parent := by
    intro q
    by_cases hq : q = p
    · rw [hq, hself]
      rfl
    · rw [hother hq]
  have hstate : ∀ q s, ((m.dispatch c p).proc q).state = s → s ≠ .RUNNING → (m.proc q).state = s := by
    intro q s hs hne
    by_cases hq : q = p
    · rw [hq, hself] at hs
      exact absurd hs.symm hne
    · rwa [hother hq] at hs
  have hat : ∀ d q j, ((m.dispatch c p).cpu d).mode.at q j →
      d = c ∧ q = p ∧ j = i ∨ (d ≠ c ∧ q ≠ p) ∧ (m.cpu d).mode.at q j := by
    intro d q j hd
    by_cases hdc : d = c
    · subst hdc
      simp only [Machine.dispatch, Machine.setCpu, if_true, Mode.at, Mode.switched.injEq,
        reduceCtorEq, or_false] at hd
      exact .inl ⟨rfl, hd.1.symm, hi ▸ hd.2.symm⟩
    · simp only [Machine.dispatch, Machine.setCpu, Machine.setProc, hdc, if_false] at hd
      refine .inr ⟨⟨hdc, fun hq => ?_⟩, hd⟩
      have hrun := (h.on d q j hd).1
      rw [hq, hst] at hrun
      cases hrun
  constructor
  · intro d q j hd
    rcases hat d q j hd with ⟨-, rfl, rfl⟩ | ⟨⟨-, hq⟩, hd⟩
    · rw [hself]
      exact ⟨rfl, rfl⟩
    · rw [hother hq]
      exact h.on d q j hd
  · intro d e q j k hd he
    rcases hat d q j hd with ⟨h1, h2, -⟩ | ⟨⟨h1, h2⟩, hd⟩ <;>
      rcases hat e q k he with ⟨h3, h4, -⟩ | ⟨⟨h3, h4⟩, he⟩
    · exact h1.trans h3.symm
    · exact absurd h2 h4
    · exact absurd h4 h2
    · exact h.one d e q j k hd he
  · intro d q j hd hs
    rw [hthread q j (.inl hs)] at hs
    rcases hat d q j hd with ⟨-, rfl, rfl⟩ | ⟨-, hd⟩
    · have hr := Proc.thidxtorun_runnable hex
      rw [← hi, hs] at hr
      cases hr
    · exact h.cur d q j hd hs
  · intro q j r hq
    have hcl := h.claim q j r hq
    have hrp : r ≠ p := by
      intro hr
      rw [hr, hst] at hcl
      cases hcl
    rw [hother hrp]
    exact hcl
  · exact h.owner
  · intro q j hu hs
    rw [hthread q j (.inl hs)] at hs
    refine h.unborn q j ?_ hs
    exact hu.imp (fun hu => hstate q _ hu (by simp)) (fun hu => hstate q _ hu (by simp))
  · exact fun q hq => h.awake q (hstate q _ hq (by simp))
  · show ((m.dispatch c p).proc m.initproc).Live
    by_cases hq : m.initproc = p
    · rw [hq, hself]
      exact .inr rfl
    · rw [hother hq]
      exact h.init
  · exact h.exiting
  · intro q r hq
    rw [hparent r]
    exact h.orphan q r (hstate q _ hq (by simp))
  · show ((m.dispatch c p).proc m.initproc).parent = none
    rw [hparent]
    exact h.root
  · intro q
    rw [hparent q]
    exact h.self q
  · intro q j ch hs hq
    have heq := hthread q j (.inl hs)
    rw [heq] at hs ⊢
    exact h.chan q j ch hs hq
  · intro q j ch hs hq hrd
    rw [hthread q j (.inl hs)] at hs
    refine h.idle q j ch hs hq ?_
    rcases Resume.chan_mem hq with rfl | ⟨k, rfl⟩
    · obtain ⟨s, h1, h2⟩ := hrd
      exact ⟨s, hparent s ▸ h1, hstate s _ h2 (by simp)⟩
    · have hz : (((m.dispatch c p).proc q).thread k).state = .ZOMBIE := hrd
      rwa [hthread q k (.inr hz)] at hz

theorem Wake.schedule (h : Wake m) (hs : m.schedule c = some m') : Wake m' := by
  have hkeep : ∀ k : Cpu, (∀ q j, ¬ k.mode.at q j) → Wake (m.setCpu c k) := by
    intro k hk
    refine h.keep (fun _ => Proc.Keeps.refl _) ?_ rfl (fun _ _ _ => rfl) (NoBuild.refl m)
    intro d q j hd
    simp only [Machine.setCpu] at hd
    split at hd
    · exact absurd hd (hk q j)
    · exact hd
  unfold Machine.schedule at hs
  split at hs
  · split_ifs at hs
    cases hs
    exact (hkeep { mode := .scan 0 } (by simp [Mode.at])).congr rfl rfl rfl rfl
  · split at hs <;> cases hs
    · rename_i p hp
      exact h.dispatch hp
    · exact (hkeep {} (by simp [Mode.at])).congr rfl rfl rfl rfl
  · cases hs

/-- The thread is not asleep when it gets the CPU. -/
theorem Wake.enter (h : Wake m) (hk : (m.cpu c).mode = .switched p i) : Wake (m.enter c p i) := by
  refine h.keep (fun _ => Proc.Keeps.refl _) ?_ rfl ?_ ?_
  · intro d q j hd
    by_cases hdc : d = c
    · subst hdc
      simp only [Machine.enter, Machine.setCpu, Machine.setKth, if_true, Mode.at, reduceCtorEq,
        false_or, Mode.running.injEq] at hd
      obtain ⟨rfl, rfl⟩ := hd
      exact .inl hk
    · simpa [Machine.enter, Machine.setCpu, Machine.setKth, hdc] using hd
  · intro q j hs
    by_cases he : q = p ∧ j = i
    · obtain ⟨rfl, rfl⟩ := he
      exact absurd hs (h.cur c q j (.inl hk))
    · simp [Machine.enter, Machine.setCpu, Machine.setKth, he]
  · exact NoBuild.setKth _ p i (.inl rfl)

theorem Wake.schedTail (h : Wake m) (hr : (m.cpu c).mode = .running p i) : Wake (m.schedTail p) := by
  refine h.setProc (Proc.keeps_copyprocth _ ?_)
  rw [(h.on c p i (.inr hr)).2]
  exact h.cur c p i (.inr hr)

theorem Wake.awake' (h : Wake m) (hr : (m.cpu c).mode = .running p i) : Wake (m.awake p i) := by
  have h1 := h.schedTail hr
  exact h1.setProc (Proc.keeps_of_state i rfl rfl rfl (fun j hj => by simp [hj]) (by simp)
    (h1.cur c p i (.inr hr)))

theorem Wake.resume (h : Wake m) (hs : m.resume c esp = some m') : Wake m' := by
  unfold Machine.resume at hs
  split at hs
  · rename_i p i hk
    have h1 := h.enter hk
    have hr : ((m.enter c p i).cpu c).mode = .running p i := by
      simp [Machine.enter, Machine.setCpu, Machine.setKth]
    split at hs
    · cases hs
    · cases hs; exact h1.congr rfl rfl rfl rfl
    · cases hs; exact (h1.schedTail hr).congr rfl rfl rfl rfl
    · cases hs; exact (h1.awake' hr).congr rfl rfl rfl rfl
    · cases hs; exact (h1.awake' hr).waitLoop hr
    · cases hs; exact (h1.awake' hr).joinLoop hr _ _
    · split_ifs at hs; cases hs; exact h1.schedTail hr
  · cases hs

theorem Wake.step (h : Wake m) {a : Act} (hs : step m a = some m') : Wake m' := by
  cases a with
  | schedule c => exact h.schedule hs
  | resume c esp => exact h.resume hs
  | wakeup n =>
    simp only [Lwp.step] at hs
    split_ifs at hs
    cases hs
    exact h.wakeup1 _
  | call c esp k =>
    simp only [Lwp.step] at hs
    split at hs
    · rename_i p i hr
      exact h.call hr (Machine.call_step hs)
    · cases hs

theorem Wake.boot (page : Nat) : Wake (boot page) := by
  have hthread : ∀ p i, (((Lwp.boot page).proc p).thread i).state ≠ .SLEEPING := by
    intro p i
    by_cases hp : p = 0
    · by_cases hi : i = 0 <;> simp [Lwp.boot, hp, hi]
    · simp [Lwp.boot, hp]
  have hpc : ∀ p i, ((Lwp.boot page).kth p i).pc.claim = none ∧
      ((Lwp.boot page).kth p i).pc ≠ .exiting := by
    intro p i
    simp only [Lwp.boot]
    split
    · exact ⟨rfl, by simp⟩
    · exact ⟨rfl, by simp⟩
  have hstate : ∀ p, ((Lwp.boot page).proc p).state = .RUNNABLE ∨
      ((Lwp.boot page).proc p).state = .UNUSED := by
    intro p
    by_cases hp : p = 0
    · exact .inl (by simp [Lwp.boot, hp])
    · exact .inr (by simp [Lwp.boot, hp])
  have hparent : ∀ p, ((Lwp.boot page).proc p).parent = none := by
    intro p
    by_cases hp : p = 0
    · simp [Lwp.boot, hp, Proc.setThread]
    · simp [Lwp.boot, hp]
  constructor
  · intro c p i hc
    simp [Lwp.boot, Mode.at] at hc
  · intro c d p i j hc
    simp [Lwp.boot, Mode.at] at hc
  · exact fun c p i _ => hthread p i
  · intro p i np hc
    simp [(hpc p i).1] at hc
  · intro p i q j np hc
    simp [(hpc p i).1] at hc
  · exact fun p i _ => hthread p i
  · intro p hp
    rcases hstate p with hs | hs <;> simp [hs] at hp
  · exact .inl (by simp [Lwp.boot])
  · exact fun p i hp => absurd hp (hpc p i).2
  · intro p q _
    simp [hparent]
  · exact hparent _
  · intro p
    simp [hparent]
  · exact fun p i _ hs => absurd hs (hthread p i)
  · exact fun p i _ hs => absurd hs (hthread p i)

end Scheduler

/-! ## Whole runs -/

end Xv6.Lwp
