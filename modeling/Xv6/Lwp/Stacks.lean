import Xv6.Lwp.Records

/- User stacks over whole runs. `StackInv` says that the stack records of every
   live process are in order, and adds what must hold in the middle of `fork` and
   `exec`, where records are in transit.

   `fork` reads the records of slots that are not in use and files the caller's
   own stack under its index, `exec` forgets the record of its own slot, and the
   error path of `thread_create` frees the address space. `SafeStacks` is the
   condition under which none of these does harm; `sharedStack` is a run without
   it. -/
namespace Xv6.Lwp

/-! ## The machine -/

/-- The points of `fork` and `exec` at which stack records are in transit. -/
def Pc.watched : Pc → Bool
  | .forkFields _ | .forkFinish _ | .execKill _ _ | .execLoad _ => true
  | _ => false

/-- The loop of `exec` has passed slot `j`. -/
def Pc.passed (j : ThIdx) : Pc → Bool
  | .execKill n _ => j.val < n
  | .execLoad _ => true
  | _ => false

theorem Pc.watched_of_passed {pc : Pc} {j : ThIdx} (h : pc.passed j = true) : pc.watched = true := by
  cases pc <;> simp [Pc.passed] at h <;> rfl

structure StackInv (m : Machine) : Prop where
  ok : ∀ p, (m.proc p).Live → (m.proc p).StackOk
  active : ∀ p i, (m.kth p i).pc.watched = true → ((m.proc p).thread i).Active
  fields : ∀ p i np, (m.proc p).Live → (m.kth p i).pc = .forkFields np →
    (∀ k, (m.proc p).record k ≠ 0 → (m.proc p).record k ∈ (m.proc np).regions) ∧
      ∀ r ∈ (m.proc np).regions, r ≤ (m.proc p).sz
  finish : ∀ p i np, (m.kth p i).pc = .forkFinish np → (m.proc np).forkFinish.StackOk
  exec : ∀ p i j, (m.proc p).Live → (m.kth p i).pc.passed j = true → j ≠ i → (m.proc p).Clear j

/-- The stack records of `x` and `y` are the same. -/
structure Proc.SameStack (x y : Proc) : Prop where
  live : y.Live → x.Live
  thidx : x.Unborn → y.thidx = x.thidx
  freed : y.freedustack = x.freedustack
  pgdir : y.pgdir = x.pgdir
  sz : y.sz = x.sz
  idle : ∀ k, (y.thread k).Idle ↔ (x.thread k).Idle
  ustack : ∀ k, (y.thread k).ustack = (x.thread k).ustack

namespace Proc

variable {x y z : Proc}

theorem SameStack.record (h : x.SameStack y) (k : ThIdx) : y.record k = x.record k :=
  record_congr (by rw [h.freed]) (h.idle k) (h.ustack k)

theorem SameStack.regions (h : x.SameStack y) : y.regions = x.regions := by
  simp only [Proc.regions, h.pgdir]

theorem SameStack.ok (h : x.SameStack y) (hx : x.StackOk) : y.StackOk := by
  refine hx.mono (fun i hi => ?_) (fun i => .inl (h.record i)) h.regions h.sz.ge
  rw [h.freed] at hi
  exact (h.idle i).mpr (hx.freed i hi)

theorem SameStack.clear (h : x.SameStack y) {j : ThIdx} (hx : x.Clear j) : y.Clear j :=
  ⟨(h.idle j).mpr hx.idle, (h.ustack j).trans hx.ustack, by rw [h.freed]; exact hx.freed⟩

/-- Also the records that the child of a `fork` is about to have. -/
theorem SameStack.finish (h : x.SameStack y) (hu : x.Unborn) (hx : x.forkFinish.StackOk) :
    y.forkFinish.StackOk := by
  have ht := h.thidx hu
  have hidle : ∀ k, (y.forkFinish.thread k).Idle ↔ (x.forkFinish.thread k).Idle := by
    intro k
    by_cases hk : k = x.thidx
    · simp [forkFinish, copyprocth, ht, hk, Thread.Idle]
    · simpa [forkFinish, copyprocth, ht, hk] using h.idle k
  have hf : y.forkFinish.freedustack = x.forkFinish.freedustack := h.freed
  refine hx.mono (fun i hi => ?_) (fun i => .inl ?_) h.regions h.sz.ge
  · rw [hf] at hi
    exact (hidle i).mpr (hx.freed i hi)
  · refine record_congr (by rw [hf]) (hidle i) ?_
    by_cases hi : i = x.thidx
    · simpa [forkFinish, copyprocth, ht, hi] using h.ustack x.thidx
    · simpa [forkFinish, copyprocth, ht, hi] using h.ustack i

theorem SameStack.refl (x : Proc) : x.SameStack x :=
  ⟨id, fun _ => rfl, rfl, rfl, rfl, fun _ => Iff.rfl, fun _ => rfl⟩

end Proc

/-- The same address space, and no process becomes live. Only a dispatch moves
`thidx`, in a process that was live before. -/
structure Proc.SameSpace (x y : Proc) : Prop where
  live : y.Live → x.Live
  thidx : x.Unborn → y.thidx = x.thidx
  freed : y.freedustack = x.freedustack
  pgdir : y.pgdir = x.pgdir
  sz : y.sz = x.sz

def SpaceAll (m m' : Machine) : Prop := ∀ q, (m.proc q).SameSpace (m'.proc q)

theorem Proc.SameSpace.refl (x : Proc) : x.SameSpace x := ⟨id, fun _ => rfl, rfl, rfl, rfl⟩

theorem Proc.SameSpace.of_state {x y : Proc} (hst : y.state = x.state) (ht : y.thidx = x.thidx)
    (hf : y.freedustack = x.freedustack) (hp : y.pgdir = x.pgdir) (hs : y.sz = x.sz) :
    x.SameSpace y :=
  ⟨fun h => by simpa [Proc.Live, hst] using h, fun _ => ht, hf, hp, hs⟩

theorem Proc.SameSpace.of_live {x y : Proc} (hl : x.Live) (hf : y.freedustack = x.freedustack)
    (hp : y.pgdir = x.pgdir) (hs : y.sz = x.sz) : x.SameSpace y := by
  refine ⟨fun _ => hl, fun hu => ?_, hf, hp, hs⟩
  rcases hl with hl | hl <;> simp [Proc.Unborn, hl] at hu

/-- The states and indices are as before. -/
theorem Proc.SameSpace.trans_state {x y z : Proc} (h : x.SameSpace y) (hst : z.state = y.state)
    (ht : z.thidx = y.thidx) (hf : z.freedustack = y.freedustack) (hp : z.pgdir = y.pgdir)
    (hs : z.sz = y.sz) : x.SameSpace z :=
  ⟨fun hl => h.live (by simpa [Proc.Live, hst] using hl), fun hu => ht.trans (h.thidx hu),
    hf.trans h.freed, hp.trans h.pgdir, hs.trans h.sz⟩

section Space

variable {m m' m'' : Machine} {c : Nat} {p : Slot} {i : ThIdx} {esp : Nat}

theorem SpaceAll.refl (m : Machine) : SpaceAll m m := fun _ => Proc.SameSpace.refl _

theorem SpaceAll.setProc {x : Proc} (h : (m.proc p).SameSpace x) : SpaceAll m (m.setProc p x) := by
  intro q
  by_cases hq : q = p
  · subst hq; simpa [Machine.setProc] using h
  · simpa [Machine.setProc, hq] using Proc.SameSpace.refl _

theorem SpaceAll.wakeup1 (h : SpaceAll m m') (chan : Option Chan) : SpaceAll m (m'.wakeup1 chan) := by
  intro q
  have hs := (Proc.same_wakeProc chan (m'.proc q))
  refine (h q).trans_state hs.state hs.thidx ?_ ?_ ?_ <;>
    simp only [Machine.wakeup1, Machine.wakeProc] <;> split <;> rfl

theorem SpaceAll.sched (h : SpaceAll m m') : SpaceAll m (m'.sched c p i esp) := by
  intro q
  by_cases hq : q = p
  · subst hq
    refine (h q).trans_state ?_ ?_ ?_ ?_ ?_ <;>
      simp [Machine.sched, Machine.setCpu, Machine.setProc, Proc.copyprocth, Proc.copythproc,
        Proc.setThread]
  · simpa [Machine.sched, Machine.setCpu, Machine.setProc, hq] using h q

theorem SpaceAll.sleep (hl : (m.proc p).Live) (ch : Chan) (rs : Resume) :
    SpaceAll m (m.sleep c p i ch rs esp) := by
  refine SpaceAll.sched ?_
  exact SpaceAll.setProc (m := m) (p := p) (.of_live hl rfl rfl rfl)

theorem SpaceAll.yield (hl : (m.proc p).Live) : SpaceAll m (m.yield c p i esp) := by
  refine SpaceAll.sched ?_
  exact SpaceAll.setProc (m := m) (p := p) (.of_live hl rfl rfl rfl)

theorem SpaceAll.kill (m : Machine) (pid : Int) : SpaceAll m (m.kill pid) := by
  unfold Machine.kill
  split
  · exact SpaceAll.refl m
  · refine SpaceAll.setProc ?_
    unfold Proc.kill
    split
    · exact .of_state rfl rfl rfl rfl rfl
    · exact .of_state rfl rfl rfl rfl rfl

theorem SpaceAll.adopt (h : SpaceAll m m') (init : Slot) :
    SpaceAll m { m' with proc := fun q => Machine.adopt init p (m'.proc q) } := by
  intro q
  refine (h q).trans_state ?_ ?_ ?_ ?_ ?_ <;> simp only [Machine.adopt] <;> split <;> rfl

theorem SpaceAll.abandon (m : Machine) (p : Slot) : SpaceAll m (m.abandon p) := by
  have h1 := ((SpaceAll.refl m).wakeup1 ((m.proc p).parent.map .proc)).adopt (p := p) m.initproc
  unfold Machine.abandon
  simp only
  split
  · exact h1.wakeup1 _
  · exact h1

theorem SpaceAll.exitEnd (m : Machine) (c : Nat) (p : Slot) (i : ThIdx) (esp : Nat)
    (hl : (m.proc p).Live) : SpaceAll m (m.exitEnd c p i esp) := by
  refine SpaceAll.sched ?_
  have h1 : SpaceAll m ((m.acquire c).abandon p) := SpaceAll.abandon (m.acquire c) p
  intro q
  by_cases hq : q = p
  · subst hq
    simp only [Machine.setPc, Machine.setKth, Machine.setProc, if_true]
    exact .of_live hl (h1 q).freed (h1 q).pgdir (h1 q).sz
  · simpa [Machine.setPc, Machine.setKth, Machine.setProc, hq] using h1 q

theorem SpaceAll.schedTail (m : Machine) (p : Slot) : SpaceAll m (m.schedTail p) :=
  SpaceAll.setProc (.of_state rfl rfl rfl rfl rfl)

theorem SpaceAll.awake (m : Machine) (p : Slot) (i : ThIdx) : SpaceAll m (m.awake p i) := by
  intro q
  refine (SpaceAll.schedTail m p q).trans_state ?_ ?_ ?_ ?_ ?_ <;>
    by_cases hq : q = p <;>
    simp [Machine.awake, Machine.schedTail, Machine.setThread, Machine.setProc, Proc.setThread, hq]

theorem SpaceAll.dispatch {n : Nat} (hp : m.pick n = some p) (c : Nat) :
    SpaceAll m (m.dispatch c p) :=
  SpaceAll.setProc (m := m) (p := p) (.of_live (.inl (Machine.pick_spec hp).1) rfl rfl rfl)

end Space

/-- Threads alike in the same address spaces. -/
theorem sameStack_of_like {m m' : Machine} (hl : LikeAll m m') (hs : SpaceAll m m') (q : Slot) :
    (m.proc q).SameStack (m'.proc q) :=
  ⟨(hs q).live, (hs q).thidx, (hs q).freed, (hs q).pgdir, (hs q).sz, fun k => (hl q k).idle,
    fun k => (hl q k).ustack⟩

section Rules

variable {m m' : Machine} {c : Nat} {p q np : Slot} {i : ThIdx} {esp : Nat}

/-- Each position is as before, or one at which no records are in transit. -/
def PcAs (m m' : Machine) : Prop :=
  ∀ r k, (m'.kth r k).pc = (m.kth r k).pc ∨ (m'.kth r k).pc.watched = false

theorem PcAs.of_kth (h : m'.kth = m.kth) : PcAs m m' := fun r k => .inl (by rw [h])

theorem PcAs.watched (h : PcAs m m') {r : Slot} {k : ThIdx}
    (hw : (m'.kth r k).pc.watched = true) : (m'.kth r k).pc = (m.kth r k).pc := by
  rcases h r k with h | h
  · exact h
  · simp [h] at hw

theorem PcAs.setKth {k : Kth} (h : k.pc = (m.kth p i).pc ∨ k.pc.watched = false) :
    PcAs m (m.setKth p i k) := by
  intro r l
  by_cases hr : r = p ∧ l = i
  · obtain ⟨rfl, rfl⟩ := hr
    simpa [Machine.setKth] using h
  · exact .inl (by simp [Machine.setKth, hr])

/-- No record has changed. -/
theorem StackInv.frame (h : StackInv m) (hI : Inv m)
    (hs : ∀ q, (m.proc q).SameStack (m'.proc q)) (hk : PcAs m m')
    (ha : ∀ q k, (m'.kth q k).pc.watched = true → ((m.proc q).thread k).Active →
      ((m'.proc q).thread k).Active) : StackInv m' := by
  constructor
  · exact fun q hl => (hs q).ok (h.ok q ((hs q).live hl))
  · intro q k hw
    have he := hk.watched hw
    exact ha q k hw (h.active q k (he ▸ hw))
  · intro q k r hl hpc
    have he := hk.watched (by rw [hpc]; rfl)
    obtain ⟨h1, h2⟩ := h.fields q k r ((hs q).live hl) (he ▸ hpc)
    rw [(hs r).regions, (hs q).sz]
    refine ⟨fun l hr => ?_, h2⟩
    rw [(hs q).record] at hr ⊢
    exact h1 l hr
  · intro q k r hpc
    have he := hk.watched (by rw [hpc]; rfl)
    have hcl : (m.kth q k).pc.claim = some (r, .EMBRYO) := by rw [← he, hpc]; rfl
    exact (hs r).finish (.inr (hI.claim q k r _ hcl)) (h.finish q k r (he ▸ hpc))
  · intro q k j hl hp hj
    have he := hk.watched (Pc.watched_of_passed hp)
    exact (hs q).clear (h.exec q k j ((hs q).live hl) (he ▸ hp) hj)

/-- Scheduling changes no record. -/
theorem StackInv.quiet (h : StackInv m) (hI : Inv m) (hl : LikeAll m m') (hs : SpaceAll m m')
    (hk : PcAs m m') : StackInv m' :=
  h.frame hI (sameStack_of_like hl hs) hk (fun q k _ => (hl q k).active.mpr)

/-- Only the live process `p` has changed. -/
theorem StackInv.slot (h : StackInv m) (hI : Inv m) (hp : (m.proc p).Live) {x : Proc}
    (hm : m'.proc = (m.setProc p x).proc) (hk : PcAs m m') (hok : x.StackOk)
    (ha : ∀ k, (m'.kth p k).pc.watched = true → (x.thread k).Active)
    (hf : ∀ k np, (m'.kth p k).pc = .forkFields np →
      (∀ l, x.record l ≠ 0 → x.record l ∈ (m.proc np).regions) ∧
        ∀ r ∈ (m.proc np).regions, r ≤ x.sz)
    (he : ∀ k j, (m'.kth p k).pc.passed j = true → j ≠ k → x.Clear j) : StackInv m' := by
  have hself : m'.proc p = x := by simp [hm, Machine.setProc]
  have hother : ∀ q, q ≠ p → m'.proc q = m.proc q := by
    intro q hq
    simp [hm, Machine.setProc, hq]
  -- a slot under construction is not `p`
  have hclaim : ∀ q k r, (m'.kth q k).pc.watched = true →
      (m'.kth q k).pc.claim = some (r, .EMBRYO) → r ≠ p := by
    rintro q k r hw hcl rfl
    have hst := hI.claim q k r _ (hk.watched hw ▸ hcl)
    rcases hp with hp | hp <;> simp [hst] at hp
  constructor
  · intro q hl
    by_cases hq : q = p
    · rw [hq, hself]; exact hok
    · rw [hother q hq] at hl ⊢; exact h.ok q hl
  · intro q k hw
    by_cases hq : q = p
    · subst hq; rw [hself]; exact ha k hw
    · rw [hother q hq]; exact h.active q k (hk.watched hw ▸ hw)
  · intro q k r hl hpc
    have hw : (m'.kth q k).pc.watched = true := by rw [hpc]; rfl
    have hr : r ≠ p := hclaim q k r hw (by rw [hpc]; rfl)
    rw [hother r hr]
    by_cases hq : q = p
    · subst hq; rw [hself]; exact hf k r hpc
    · rw [hother q hq] at hl ⊢
      exact h.fields q k r hl (hk.watched hw ▸ hpc)
  · intro q k r hpc
    have hw : (m'.kth q k).pc.watched = true := by rw [hpc]; rfl
    have hr : r ≠ p := hclaim q k r hw (by rw [hpc]; rfl)
    rw [hother r hr]
    exact h.finish q k r (hk.watched hw ▸ hpc)
  · intro q k j hl hps hj
    by_cases hq : q = p
    · subst hq; rw [hself]; exact he k j hps hj
    · rw [hother q hq] at hl ⊢
      exact h.exec q k j hl (hk.watched (Pc.watched_of_passed hps) ▸ hps) hj

/-- In a slot that is not in use, nobody is in the middle of anything. -/
theorem StackInv.unborn (h : StackInv m) (hI : Inv m) (hu : (m.proc np).Unborn) (k : ThIdx) :
    (m.kth np k).pc.watched = false := by
  by_contra hw
  exact (h.active np k (by simpa using hw)).not_idle ((hI.ok np).unborn hu k)

/-- The running thread `(p, i)` changes a slot that is not in use, and reaches the
position `pc`. -/
theorem StackInv.build (h : StackInv m) (hI : Inv m) (hr : (m.cpu c).mode = .running p i)
    (hu : (m.proc np).Unborn) {x : Proc} (pc : Pc) (hx : x.Live → x.StackOk)
    (hown : ∀ q k, (m.kth q k).pc.watched = true → (m.kth q k).pc.claim = some (np, .EMBRYO) →
      q = p ∧ k = i)
    (hm : m'.proc = (m.setProc np x).proc) (hpc : (m'.kth p i).pc = pc)
    (hpcs : ∀ q k, ¬ (q = p ∧ k = i) → (m'.kth q k).pc = (m.kth q k).pc ∨
      (m'.kth q k).pc.watched = false)
    (hf : ∀ r, pc = .forkFields r → r = np ∧
      (∀ l, (m.proc p).record l ≠ 0 → (m.proc p).record l ∈ x.regions) ∧
        ∀ r ∈ x.regions, r ≤ (m.proc p).sz)
    (hn : ∀ r, pc = .forkFinish r → r = np ∧ x.forkFinish.StackOk)
    (he : ∀ j, pc.passed j = false) : StackInv m' := by
  have hon := hI.on c p i (.inr hr)
  have hpn : p ≠ np := by
    rintro rfl
    rcases hu with hu | hu <;> simp [hon.2.1] at hu
  have hself : m'.proc np = x := by simp [hm, Machine.setProc]
  have hother : ∀ q, q ≠ np → m'.proc q = m.proc q := by
    intro q hq
    simp [hm, Machine.setProc, hq]
  have hold : ∀ q k, ¬ (q = p ∧ k = i) → (m'.kth q k).pc.watched = true →
      (m'.kth q k).pc = (m.kth q k).pc := by
    intro q k hq hw
    rcases hpcs q k hq with h1 | h1
    · exact h1
    · simp [h1] at hw
  -- no thread of the slot itself is in the middle of anything
  have hnp : ∀ q k, (m'.kth q k).pc.watched = true → q ≠ np := by
    rintro q k hw rfl
    have he := hold q k (fun hq => hpn hq.1.symm) hw
    rw [he, h.unborn hI hu k] at hw
    cases hw
  -- and no other thread builds it
  have hclaim : ∀ q k r, ¬ (q = p ∧ k = i) → (m'.kth q k).pc.watched = true →
      (m'.kth q k).pc.claim = some (r, .EMBRYO) → r ≠ np := by
    rintro q k r hq hw hcl rfl
    have he := hold q k hq hw
    rw [he] at hw hcl
    exact hq (hown q k hw hcl)
  constructor
  · intro q hl
    by_cases hq : q = np
    · subst hq; rw [hself] at hl ⊢; exact hx hl
    · rw [hother q hq] at hl ⊢; exact h.ok q hl
  · intro q k hw
    rw [hother q (hnp q k hw)]
    by_cases hqi : q = p ∧ k = i
    · obtain ⟨rfl, rfl⟩ := hqi
      exact .inr (.inl (hon.2.2 ▸ hI.thread_running hr))
    · exact h.active q k (hold q k hqi hw ▸ hw)
  · intro q k r hl hpc'
    have hw : (m'.kth q k).pc.watched = true := by rw [hpc']; rfl
    rw [hother q (hnp q k hw)] at hl ⊢
    by_cases hqi : q = p ∧ k = i
    · obtain ⟨rfl, rfl⟩ := hqi
      obtain ⟨rfl, h1⟩ := hf r (hpc ▸ hpc')
      rw [hself]
      exact h1
    · rw [hother r (hclaim q k r hqi hw (by rw [hpc']; rfl))]
      exact h.fields q k r hl (hold q k hqi hw ▸ hpc')
  · intro q k r hpc'
    have hw : (m'.kth q k).pc.watched = true := by rw [hpc']; rfl
    by_cases hqi : q = p ∧ k = i
    · obtain ⟨rfl, rfl⟩ := hqi
      obtain ⟨rfl, h1⟩ := hn r (hpc ▸ hpc')
      rw [hself]
      exact h1
    · rw [hother r (hclaim q k r hqi hw (by rw [hpc']; rfl))]
      exact h.finish q k r (hold q k hqi hw ▸ hpc')
  · intro q k j hl hps hj
    have hw := Pc.watched_of_passed hps
    rw [hother q (hnp q k hw)] at hl ⊢
    by_cases hqi : q = p ∧ k = i
    · obtain ⟨rfl, rfl⟩ := hqi
      rw [hpc, he j] at hps
      cases hps
    · exact h.exec q k j hl (hold q k hqi hw ▸ hps) hj

/-- A process that is not live gives its slot back. -/
theorem StackInv.dead (h : StackInv m) (hI : Inv m) {x : Proc} (hq : (m.proc q).state ≠ .EMBRYO)
    (hx : ¬ x.Live) (hm : m'.proc = (m.setProc q x).proc) (hk : PcAs m m')
    (hw : ∀ k, (m'.kth q k).pc.watched = false) : StackInv m' := by
  have hother : ∀ r, r ≠ q → m'.proc r = m.proc r := by
    intro r hr
    simp [hm, Machine.setProc, hr]
  have hnq : ∀ r k, (m'.kth r k).pc.watched = true → r ≠ q := by
    rintro r k hw' rfl
    simp [hw k] at hw'
  have hclaim : ∀ r k s, (m'.kth r k).pc.watched = true →
      (m'.kth r k).pc.claim = some (s, .EMBRYO) → s ≠ q := by
    rintro r k s hw' hcl rfl
    exact hq (hI.claim r k s _ (hk.watched hw' ▸ hcl))
  constructor
  · intro r hl
    have hr : r ≠ q := by
      rintro rfl
      exact hx (by simpa [hm, Machine.setProc] using hl)
    rw [hother r hr] at hl ⊢
    exact h.ok r hl
  · intro r k hw'
    rw [hother r (hnq r k hw')]
    exact h.active r k (hk.watched hw' ▸ hw')
  · intro r k s hl hpc
    have hw' : (m'.kth r k).pc.watched = true := by rw [hpc]; rfl
    rw [hother r (hnq r k hw')] at hl ⊢
    rw [hother s (hclaim r k s hw' (by rw [hpc]; rfl))]
    exact h.fields r k s hl (hk.watched hw' ▸ hpc)
  · intro r k s hpc
    have hw' : (m'.kth r k).pc.watched = true := by rw [hpc]; rfl
    rw [hother s (hclaim r k s hw' (by rw [hpc]; rfl))]
    exact h.finish r k s (hk.watched hw' ▸ hpc)
  · intro r k j hl hps hj
    have hw' := Pc.watched_of_passed hps
    rw [hother r (hnq r k hw')] at hl ⊢
    exact h.exec r k j hl (hk.watched hw' ▸ hps) hj

/-- The active thread `(p, i)` goes on in `exec`. -/
theorem StackInv.setExec (h : StackInv m) (ha : ((m.proc p).thread i).Active) {pc : Pc}
    (hf : ∀ r, pc ≠ .forkFields r) (hn : ∀ r, pc ≠ .forkFinish r)
    (he : ∀ j, pc.passed j = true → j ≠ i → (m.proc p).Clear j) : StackInv (m.setPc p i pc) := by
  have hself : ((m.setPc p i pc).kth p i).pc = pc := by simp [Machine.setPc, Machine.setKth]
  have hpcs : ∀ q k, ¬ (q = p ∧ k = i) → (m.setPc p i pc).kth q k = m.kth q k := by
    intro q k hq
    simp [Machine.setPc, Machine.setKth, hq]
  constructor
  · exact h.ok
  · intro q k hw
    by_cases hq : q = p ∧ k = i
    · obtain ⟨rfl, rfl⟩ := hq; exact ha
    · exact h.active q k (hpcs q k hq ▸ hw)
  · intro q k r hl hpc
    by_cases hq : q = p ∧ k = i
    · obtain ⟨rfl, rfl⟩ := hq; exact absurd (hself ▸ hpc) (hf r)
    · exact h.fields q k r hl (hpcs q k hq ▸ hpc)
  · intro q k r hpc
    by_cases hq : q = p ∧ k = i
    · obtain ⟨rfl, rfl⟩ := hq; exact absurd (hself ▸ hpc) (hn r)
    · exact h.finish q k r (hpcs q k hq ▸ hpc)
  · intro q k j hl hps hj
    by_cases hq : q = p ∧ k = i
    · obtain ⟨rfl, rfl⟩ := hq; exact he j (hself ▸ hps) hj
    · exact h.exec q k j hl (hpcs q k hq ▸ hps) hj

/-- One thread slot `j` of the live process `p` has changed, and no thread there
is in the middle of anything. -/
theorem StackInv.thread (h : StackInv m) (hI : Inv m) (hp : (m.proc p).Live) {j : ThIdx} {x : Proc}
    (hm : m'.proc = (m.setProc p x).proc) (hk : PcAs m m')
    (hj : (m'.kth p j).pc.watched = false)
    (ht : ∀ l, l ≠ j → x.thread l = (m.proc p).thread l)
    (hfr : ∀ l, l ≠ j → x.freedustack l = (m.proc p).freedustack l) (hok : x.StackOk)
    (hs : (m.proc p).sz ≤ x.sz)
    (hf : (∃ k np, (m.kth p k).pc = .forkFields np) →
      x.record j = (m.proc p).record j ∨ x.record j = 0)
    (hc : (∃ k, k ≠ j ∧ (m.kth p k).pc.passed j = true) → x.Clear j) : StackInv m' := by
  have hrec : ∀ l, l ≠ j → x.record l = (m.proc p).record l := fun l hl =>
    Proc.record_congr (hfr l hl) (by rw [ht l hl]) (by rw [ht l hl])
  refine h.slot hI hp hm hk hok ?_ ?_ ?_
  · intro k hw
    have hkj : k ≠ j := by
      rintro rfl
      simp [hj] at hw
    rw [ht k hkj]
    exact h.active p k (hk.watched hw ▸ hw)
  · intro k np hpc
    have hpc' : (m.kth p k).pc = .forkFields np := hk.watched (by rw [hpc]; rfl) ▸ hpc
    obtain ⟨h1, h2⟩ := h.fields p k np hp hpc'
    refine ⟨fun l hl => ?_, fun r hr => (h2 r hr).trans hs⟩
    by_cases hlj : l = j
    · subst hlj
      rcases hf ⟨k, np, hpc'⟩ with he | he
      · rw [he] at hl ⊢; exact h1 l hl
      · exact absurd he hl
    · rw [hrec l hlj] at hl ⊢; exact h1 l hl
  · intro k l hps hlk
    have hps' : (m.kth p k).pc.passed l = true := hk.watched (Pc.watched_of_passed hps) ▸ hps
    by_cases hlj : l = j
    · subst hlj
      exact hc ⟨k, hlk.symm, hps'⟩
    · obtain ⟨h1, h2, h3⟩ := h.exec p k l hp hps' hlk
      exact ⟨by rw [ht l hlj]; exact h1, by rw [ht l hlj]; exact h2, by rw [hfr l hlj]; exact h3⟩

end Rules

/-! ## The calls -/

section Calls

variable {m m' : Machine} {c : Nat} {p np : Slot} {i : ThIdx} {esp : Nat}

theorem Inv.live (hI : Inv m) (hr : (m.cpu c).mode = .running p i) : (m.proc p).Live :=
  .inr (hI.on c p i (.inr hr)).2.1

theorem Inv.active (hI : Inv m) (hr : (m.cpu c).mode = .running p i) :
    ((m.proc p).thread i).Active :=
  .inr (.inl ((hI.on c p i (.inr hr)).2.2 ▸ hI.thread_running hr))

theorem StackInv.sleep (h : StackInv m) (hI : Inv m) (hr : (m.cpu c).mode = .running p i)
    (ch : Chan) (rs : Resume) : StackInv (m.sleep c p i ch rs esp) :=
  h.quiet hI (LikeAll.sleep (hI.thread_running hr) ch rs esp) (SpaceAll.sleep (hI.live hr) ch rs)
    (PcAs.setKth (.inl rfl))

theorem StackInv.setPc (h : StackInv m) (hI : Inv m) {pc : Pc} (hpc : pc.watched = false) :
    StackInv (m.setPc p i pc) :=
  h.quiet hI (LikeAll.refl m) (SpaceAll.refl m) (PcAs.setKth (.inr hpc))

theorem StackInv.waitLoop (h : StackInv m) (hI : Inv m) (hr : (m.cpu c).mode = .running p i) :
    StackInv (m.waitLoop c p i esp) := by
  unfold Machine.waitLoop
  split
  · rename_i q hq
    have hz : (m.proc q).state = .ZOMBIE := by
      have := List.find?_some hq
      simp only [decide_eq_true_eq] at this
      exact this.2
    refine h.dead hI (q := q) (x := (m.proc q).reap) (by simp [hz]) (by simp [Proc.Live, Proc.reap])
      rfl ?_ ?_
    · intro r k
      by_cases hrq : r = q
      · exact .inr (by simp [hrq, Pc.watched])
      · exact .inl (by simp [hrq])
    · intro k
      simp [Pc.watched]
  · split
    · exact h.quiet hI (LikeAll.refl m) (SpaceAll.refl m) (PcAs.of_kth rfl)
    · exact h.sleep hI hr _ _

theorem StackInv.joinLoop (h : StackInv m) (hI : Inv m) (hr : (m.cpu c).mode = .running p i)
    (j : ThIdx) (tid : Nat) : StackInv (m.joinLoop c p i j tid esp) := by
  unfold Machine.joinLoop
  split
  · rename_i hz
    have hok := h.ok p (hI.live hr)
    have hni : ¬ ((m.proc p).thread j).Idle := by simp [Thread.Idle, hz]
    refine h.thread hI (hI.live hr) (j := j) (x := (m.proc p).joinReap j) rfl
      (PcAs.setKth (.inr rfl)) (by simp [Machine.setKth, Machine.release, Pc.watched])
      (fun l hl => by simp [Proc.joinReap, Proc.freeustack, hl])
      (fun l hl => by simp [Proc.joinReap, Proc.freeustack, hl]) (hok.joinReap hz) le_rfl
      (fun _ => .inl (Proc.record_joinReap hni (hok.used hni) j)) ?_
    -- a slot that `exec` has cleared holds no zombie
    rintro ⟨k, hkj, hps⟩
    exact absurd (h.exec p k j (hI.live hr) hps hkj.symm).idle hni
  · split
    · exact h.quiet hI (LikeAll.refl m) (SpaceAll.refl m) (PcAs.of_kth rfl)
    · exact h.sleep hI hr _ _

/-- The condition on `thread_create`: the error path is not taken, `exec` in a
sibling has not passed the new slot, and if the address space grows no sibling is
between `copyuvm` and the copying of the records in `fork`. -/
def Machine.SafeCreate (m : Machine) (p : Slot) (page : Option Nat) (mapped copied : Bool) : Prop :=
  match (m.proc p).allocth m.nexttid, page with
  | some (j, _), some _ =>
    (∀ k, (m.kth p k).pc.passed j = false) ∧ copied = true ∧
      ((m.proc p).freedustack j ≠ 0 ∨
        mapped = true ∧ Proc.stackTop (m.proc p).sz (m.proc p).stacksize < KERNBASE ∧
          ∀ k np, (m.kth p k).pc ≠ .forkFields np)
  | _, _ => True

instance Machine.SafeCreate.decidable (m : Machine) (p : Slot) (page : Option Nat)
    (mapped copied : Bool) : Decidable (m.SafeCreate p page mapped copied) := by
  unfold Machine.SafeCreate
  split <;> infer_instance

theorem StackInv.threadCreate (h : StackInv m) (hI : Inv m) (hr : (m.cpu c).mode = .running p i)
    {page : Option Nat} {mapped copied : Bool} (hc : m.SafeCreate p page mapped copied) :
    StackInv (m.threadCreate c p page mapped copied) := by
  have hl := hI.live hr
  have hok := h.ok p hl
  unfold Machine.threadCreate
  unfold Machine.SafeCreate at hc
  split
  · exact h.quiet hI (LikeAll.refl m) (SpaceAll.refl m) (PcAs.of_kth rfl)
  · rename_i j x hx
    rw [hx] at hc
    obtain ⟨hu, rfl⟩ := Proc.allocth_eq hx
    have hidle : ((m.proc p).thread j).Idle := .inl hu
    -- the slot has no thread, so its kernel stack is at rest
    have hrest : (m.kth p j).pc.watched = false := by
      by_contra hw
      exact (h.active p j (by simpa using hw)).not_idle hidle
    split
    · refine h.thread hI hl (j := j) (x := ((m.proc p).setThread j
          { (m.proc p).thread j with tid := m.nexttid, state := .EMBRYO }).setThread j
            { ((m.proc p).setThread j { (m.proc p).thread j with
                tid := m.nexttid, state := .EMBRYO }).thread j with kstack := 0, state := .UNUSED })
        rfl (PcAs.of_kth rfl) hrest (fun l hlj => by simp [hlj]) (fun l _ => rfl)
        ((hok.setIdle hidle (.inr rfl)).setIdle (.inr (by simp)) (.inl rfl)) le_rfl ?_ ?_
      · exact fun _ => .inl (by
          rw [Proc.record_idle hidle, Proc.record_idle (.inl (by simp))]; rfl)
      · rintro ⟨k, hkj, hps⟩
        obtain ⟨-, h2, h3⟩ := h.exec p k j hl hps hkj.symm
        exact ⟨.inl (by simp), by simpa using h2, h3⟩
    · rename_i a
      simp only at hc
      obtain ⟨hnp, hcp, hfr⟩ := hc
      generalize hz : (((m.proc p).setThread j { (m.proc p).thread j with
        tid := m.nexttid, state := .EMBRYO }).kernelStack j a) = z
      have hzidle : (z.thread j).Idle := .inr (by simp [← hz, Proc.kernelStack])
      have hzok : z.StackOk := by
        rw [← hz]
        exact (hok.setIdle hidle (.inr rfl)).setIdle (.inr (by simp)) (.inr (by simp))
      have hzf : z.freedustack = (m.proc p).freedustack := by rw [← hz]; rfl
      have hzs : z.sz = (m.proc p).sz := by rw [← hz]; rfl
      have hzt : ∀ l, l ≠ j → z.thread l = (m.proc p).thread l := by
        intro l hlj
        simp [← hz, Proc.kernelStack, hlj]
      have hzn : z.stacksize = (m.proc p).stacksize := by rw [← hz]; rfl
      split
      · rename_i y hy
        refine h.thread hI hl (j := j) (x := y) rfl (PcAs.setKth (.inr rfl))
          (by simp [Machine.setKth, Pc.watched]) ?_ ?_ (hzok.userStack hzidle hy) ?_ ?_ ?_
        · intro l hlj
          rw [(Proc.userStack_thread (.inl hy)).1 l hlj, hzt l hlj]
        · intro l hlj
          rw [← hzf]
          obtain ⟨-, rfl⟩ | ⟨-, rfl⟩ := Proc.userStack_ok hy <;> simp [Proc.start, hlj]
        · rw [← hzs]
          obtain ⟨-, rfl⟩ | ⟨-, rfl⟩ := Proc.userStack_ok hy
          · exact Proc.le_pgroundup _
          · exact (Proc.lt_stackTop _ _).le
        · rintro ⟨k, np, hpc⟩
          -- only a reused stack is possible here
          have hfj := hfr.resolve_right (fun hn => hn.2.2 k np hpc)
          rw [← hzf] at hfj
          obtain ⟨-, rfl⟩ | ⟨h0, -⟩ := Proc.userStack_ok hy
          · refine .inl ?_
            rw [Proc.record_idle hidle, ← hzf,
              Proc.record_used (by simp [Proc.start]) (by simp [Proc.start, Thread.Idle])]
            simp [Proc.start]
          · exact absurd h0 hfj
        · rintro ⟨k, -, hps⟩
          simp [hnp k] at hps
      · rename_i y hy
        -- the error path is excluded
        exfalso
        unfold Proc.userStack at hy
        rw [hzf, hzs, hzn, hcp] at hy
        rcases hfr with hfr | ⟨hm, ht, -⟩
        · simp [hfr] at hy
        · by_cases hf0 : (m.proc p).freedustack j = 0 <;> simp [hf0, hm, ht] at hy

theorem SpaceAll.threadExit (hl : (m.proc p).Live) (v : Nat) :
    SpaceAll m (m.threadExit c p i v esp) := by
  have hte : ((m.proc p).threadExit v).freedustack = (m.proc p).freedustack ∧
      ((m.proc p).threadExit v).pgdir = (m.proc p).pgdir ∧
      ((m.proc p).threadExit v).sz = (m.proc p).sz := by
    unfold Proc.threadExit
    split <;> exact ⟨rfl, rfl, rfl⟩
  have h1 : SpaceAll m ((m.setProc p ((m.proc p).threadExit v)).wakeup1
      (some (.thread p (m.proc p).thidx))) :=
    SpaceAll.wakeup1 (SpaceAll.setProc (.of_live hl hte.1 hte.2.1 hte.2.2)) _
  have h2 : SpaceAll m ((m.acquire c).leaveThread p i v) := by
    intro q
    by_cases hq : q = p
    · subst hq
      simp only [Machine.leaveThread, Machine.setProc, if_true]
      exact .of_live hl (h1 q).freed (h1 q).pgdir (h1 q).sz
    · have h3 := h1 q
      simp only [Machine.leaveThread, Machine.setProc, Machine.setKth, Machine.acquire,
        Machine.wakeup1, hq, if_false] at h3 ⊢
      exact h3
  exact h2.sched (c := c)

/-- The thread that exits keeps its stack. -/
theorem Proc.threadExit_stack (x : Proc) (v : Nat) (hr : (x.thread x.thidx).state = .RUNNING)
    (k : ThIdx) : (((x.threadExit v).thread k).Idle ↔ (x.thread k).Idle) ∧
      ((x.threadExit v).thread k).ustack = (x.thread k).ustack := by
  by_cases hk : k = x.thidx
  · subst hk
    unfold Proc.threadExit
    split <;> simp [Thread.Idle, hr]
  · rw [x.threadExit_other v hk]
    exact ⟨Iff.rfl, rfl⟩

theorem StackInv.threadExit (h : StackInv m) (hI : Inv m) (hr : (m.cpu c).mode = .running p i)
    (hpc : (m.kth p i).pc = .user) (v : Nat) : StackInv (m.threadExit c p i v esp) := by
  have hon := hI.on c p i (.inr hr)
  have hlike := LikeAll.threadExit m c p i v esp
  have hspace : SpaceAll m (m.threadExit c p i v esp) := .threadExit (hI.live hr) v
  have hte := (m.proc p).threadExit_stack v (hI.thread_running hr)
  have hthread : ∀ q k, (((m.setProc p ((m.proc p).threadExit v)).proc q).thread k).Idle ↔
      ((m.proc q).thread k).Idle := by
    intro q k
    by_cases hq : q = p
    · subst hq; simpa [Machine.setProc] using (hte k).1
    · simp [Machine.setProc, hq]
  have hustack : ∀ q k, (((m.setProc p ((m.proc p).threadExit v)).proc q).thread k).ustack =
      ((m.proc q).thread k).ustack := by
    intro q k
    by_cases hq : q = p
    · subst hq; simpa [Machine.setProc] using (hte k).2
    · simp [Machine.setProc, hq]
  have hkth : (m.threadExit c p i v esp).kth = (m.setKth p i
      { m.kth p i with resume := .threadExit, exit := some m.exits.length }).kth := rfl
  refine h.frame hI (fun q => ?_) (PcAs.setKth (.inl rfl)) ?_
  · exact ⟨(hspace q).live, (hspace q).thidx, (hspace q).freed, (hspace q).pgdir, (hspace q).sz,
      fun k => (hlike q k).idle.trans (hthread q k),
      fun k => (hlike q k).ustack.trans (hustack q k)⟩
  · intro q k hw ha
    refine (hlike q k).active.mpr ?_
    by_cases hq : q = p
    · subst hq
      -- the exiting thread itself is in user mode
      have hk : k ≠ (m.proc q).thidx := by
        rintro rfl
        rw [hkth, hon.2.2] at hw
        simp [Machine.setKth, hpc, Pc.watched] at hw
      simpa [Machine.setProc, (m.proc q).threadExit_other v hk] using ha
    · simpa [Machine.setProc, hq] using ha

theorem StackInv.exitEnd (h : StackInv m) (hI : Inv m) (hr : (m.cpu c).mode = .running p i) :
    StackInv (m.exitEnd c p i esp) := by
  refine h.quiet hI (LikeAll.exitEnd m c p i esp) (SpaceAll.exitEnd m c p i esp (hI.live hr)) ?_
  have hk : ((m.acquire c).abandon p).kth = m.kth := Machine.abandon_kth _ p
  intro q k
  by_cases hq : q = p ∧ k = i
  · exact .inr (by simp [Machine.exitEnd, Machine.sched, Machine.setPc, Machine.setKth,
      Machine.setCpu, Machine.setProc, hq, Pc.watched])
  · exact .inl (by simp [Machine.exitEnd, Machine.sched, Machine.setPc, Machine.setKth,
      Machine.setCpu, Machine.setProc, hq, hk])

/-! ## fork -/

/-- The positions after a step of `fork` in `(p, i)`. -/
theorem Machine.setPc_other (m : Machine) (pc : Pc) (q : Slot) (k : ThIdx)
    (hq : ¬ (q = p ∧ k = i)) : (m.setPc p i pc).kth q k = m.kth q k := by
  simp [Machine.setPc, Machine.setKth, hq]

theorem Machine.setPc_self (m : Machine) (p : Slot) (i : ThIdx) (pc : Pc) :
    ((m.setPc p i pc).kth p i).pc = pc := by
  simp [Machine.setPc, Machine.setKth]

/-- A step of `fork` that leaves no records in transit. -/
theorem StackInv.forkStep (h : StackInv m) (hI : Inv m) (hr : (m.cpu c).mode = .running p i)
    {s : ProcState} (hcl : (m.kth p i).pc.claim = some (np, s)) {x : Proc} (hx : ¬ x.Live) {pc : Pc}
    (hpc : pc.watched = false) : StackInv ((m.setProc np x).setPc p i pc) := by
  have hs := hI.claim p i np s hcl
  have hu : (m.proc np).Unborn := by
    rcases Pc.claim_state hcl with rfl | rfl
    · exact .inr hs
    · exact .inl hs
  refine h.build hI hr hu (x := x) pc (fun hl => absurd hl hx) ?_ rfl
    (Machine.setPc_self _ p i pc) (fun q k hq => .inl (by rw [Machine.setPc_other _ pc q k hq]; rfl))
    (fun r hr => by simp [hr, Pc.watched] at hpc) (fun r hr => by simp [hr, Pc.watched] at hpc) ?_
  · intro q k _ hq
    have he : s = .EMBRYO := hs.symm.trans (hI.claim q k np _ hq)
    exact hI.owner q k p i np hq (he ▸ hcl)
  · intro j
    by_contra hp
    rw [Pc.watched_of_passed (by simpa using hp)] at hpc
    cases hpc

theorem StackInv.allocproc (h : StackInv m) (hI : Inv m) (hr : (m.cpu c).mode = .running p i) :
    StackInv (m.allocproc p i) := by
  unfold Machine.allocproc
  split
  · exact h
  · rename_i np hnp
    have hn : (m.proc np).state = .UNUSED := by simpa using List.find?_some hnp
    have hown : ∀ q k, (m.kth q k).pc.watched = true →
        (m.kth q k).pc.claim = some (np, .EMBRYO) → q = p ∧ k = i := by
      intro q k _ hq
      have := hI.claim q k np _ hq
      simp [hn] at this
    split
    · exact h.build hI hr (.inl hn) (x := (m.proc np).embryo m.nextpid)
        (.forkKalloc np none) (by simp [Proc.Live, Proc.embryo]) hown rfl
        (Machine.setPc_self _ p i _) (fun q k hq => .inl (by simp [Machine.setPc_other, hq]; rfl))
        (by simp) (by simp) (fun _ => rfl)
    · rename_i j x hx
      exact h.build hI hr (.inl hn) (x := x.embryo m.nextpid)
        (.forkKalloc np (some j)) (by simp [Proc.Live, Proc.embryo]) hown rfl
        (Machine.setPc_self _ p i _) (fun q k hq => .inl (by simp [Machine.setPc_other, hq]; rfl))
        (by simp) (by simp) (fun _ => rfl)

theorem StackInv.forkCopy (h : StackInv m) (hI : Inv m) (hr : (m.cpu c).mode = .running p i)
    (hpc : (m.kth p i).pc = .forkCopy np) (ok : Bool) : StackInv (m.forkCopy p i np ok) := by
  have hcl : (m.kth p i).pc.claim = some (np, .EMBRYO) := by rw [hpc]; rfl
  have hs := hI.claim p i np _ hcl
  have hok := h.ok p (hI.live hr)
  cases ok with
  | false => exact h.forkStep hI hr hcl (by simp [Proc.Live]) rfl
  | true =>
    refine h.build hI hr (.inr hs) (x := { m.proc np with pgdir := some (m.proc p).copyuvm })
      (.forkFields np) (by simp [Proc.Live, hs]) (fun q k _ hq => hI.owner q k p i np hq hcl) rfl
      (Machine.setPc_self _ p i _) (fun q k hq => .inl ?_) ?_ (by simp) (fun _ => rfl)
    · rw [Machine.forkCopy, Machine.setPc_other _ _ q k hq]
      rfl
    rintro r hr'
    cases hr'
    -- `copyuvm` copies every region, since all lie below `sz`
    refine ⟨rfl, fun l hl => ?_, fun r hr' => ?_⟩
    · have hmem := hok.region l hl
      simpa [Proc.regions, Proc.copyuvm] using ⟨hmem, hok.top _ hmem⟩
    · simp only [Proc.regions, Proc.copyuvm, Option.getD_some, List.mem_filter,
        decide_eq_true_eq] at hr'
      exact hr'.2

theorem StackInv.forkFields (h : StackInv m) (hI : Inv m) (hr : (m.cpu c).mode = .running p i)
    (hpc : (m.kth p i).pc = .forkFields np) (hst : (m.proc p).NoStale (m.proc np).thidx)
    (hown : i = (m.proc np).thidx ∨ ((m.proc p).thread i).ustack = 0) :
    StackInv ((m.setProc np (Proc.forkFields (m.proc p) (m.proc np) p)).setPc p i
      (.forkFinish np)) := by
  have hcl : (m.kth p i).pc.claim = some (np, .EMBRYO) := by rw [hpc]; rfl
  have hs := hI.claim p i np _ hcl
  have hon := hI.on c p i (.inr hr)
  obtain ⟨h1, h2⟩ := h.fields p i np (hI.live hr) hpc
  refine h.build hI hr (.inr hs) (x := Proc.forkFields (m.proc p) (m.proc np) p)
    (.forkFinish np) (by simp [Proc.Live, Proc.forkFields, hs])
    (fun q k _ hq => hI.owner q k p i np hq hcl) rfl
    (Machine.setPc_self _ p i _) (fun q k hq => .inl (by rw [Machine.setPc_other _ _ q k hq]; rfl))
    (by simp) ?_ (fun _ => rfl)
  rintro r hr'
  cases hr'
  refine ⟨rfl, (h.ok p (hI.live hr)).fork ((hI.ok np).unborn (.inr hs)) hst ?_ ?_ h1 h2⟩
  · rw [hon.2.2]; exact (hI.active hr).not_idle
  · rw [hon.2.2]; exact hown

theorem StackInv.forkFinish (h : StackInv m) (hI : Inv m) (hr : (m.cpu c).mode = .running p i)
    (hpc : (m.kth p i).pc = .forkFinish np) : StackInv (m.forkFinish p i np) := by
  have hcl : (m.kth p i).pc.claim = some (np, .EMBRYO) := by rw [hpc]; rfl
  refine h.build hI hr (.inr (hI.claim p i np _ hcl)) (x := (m.proc np).forkFinish) .user
    (fun _ => h.finish p i np hpc) (fun q k _ hq => hI.owner q k p i np hq hcl) rfl
    (Machine.setPc_self _ p i _) ?_ (by simp) (by simp) (fun _ => rfl)
  intro q k hq
  simp only [Machine.forkFinish]
  rw [Machine.setPc_other _ _ q k hq]
  by_cases hqn : q = np ∧ k = (m.proc np).thidx
  · exact .inr (by simp [Machine.setKth, hqn, Pc.watched])
  · exact .inl (by simp [Machine.setKth, hqn, Machine.setProc])

/-! ## exec -/

theorem StackInv.execKill (h : StackInv m) (hI : Inv m) (hr : (m.cpu c).mode = .running p i)
    {n pages : Nat} (hpc : (m.kth p i).pc = .execKill n pages) :
    StackInv (m.execKill p i n pages) := by
  have hl := hI.live hr
  have ha := hI.active hr
  have hon := hI.on c p i (.inr hr)
  have hdone : ∀ j : ThIdx, j.val < n → j ≠ i → (m.proc p).Clear j := by
    intro j hj hji
    exact h.exec p i j hl (by simp [hpc, Pc.passed, hj]) hji
  unfold Machine.execKill
  split
  · rename_i hn
    split
    · rename_i he
      refine h.setExec ha (by simp) (by simp) (fun j hj hji => ?_)
      have hjn : j.val ≠ n := by
        intro hjn
        exact hji ((Fin.ext hjn : j = ⟨n, hn⟩).trans (he.trans hon.2.2))
      simp only [Pc.passed, decide_eq_true_eq] at hj
      exact hdone j (by omega) hji
    · rename_i hne
      have hni : (⟨n, hn⟩ : ThIdx) ≠ i := by rw [← hon.2.2]; exact hne
      have hclear : ((m.proc p).execKill ⟨n, hn⟩).Clear ⟨n, hn⟩ :=
        ⟨by simp [Proc.execKill, hne, Thread.Idle], by simp [Proc.execKill, hne],
          by simp [Proc.execKill, hne]⟩
      have h1 : StackInv ((m.setProc p ((m.proc p).execKill ⟨n, hn⟩)).setKth p ⟨n, hn⟩ {}) := by
        refine h.thread hI hl (j := ⟨n, hn⟩) rfl (PcAs.setKth (.inr rfl))
          (by simp [Machine.setKth, Pc.watched]) (fun l hlj => by simp [Proc.execKill, hne, hlj])
          (fun l hlj => by simp [Proc.execKill, hne, hlj]) ((h.ok p hl).execKill hne)
          (by simp [Proc.execKill, hne]) (fun _ => .inr ?_) (fun _ => hclear)
        rw [Proc.record_idle hclear.idle, hclear.freed]
      refine h1.setExec ?_ (by simp) (by simp) (fun j hj hji => ?_)
      · simpa [Machine.setKth, Machine.setProc, Proc.execKill, hne, hni.symm] using ha
      · simp only [Pc.passed, decide_eq_true_eq] at hj
        by_cases hjn : j = ⟨n, hn⟩
        · rw [hjn]
          simpa [Machine.setKth, Machine.setProc] using hclear
        · have hlt : j.val < n := by
            have : j.val ≠ n := fun he => hjn (Fin.ext he)
            omega
          obtain ⟨c1, c2, c3⟩ := hdone j hlt hji
          refine ⟨?_, ?_, ?_⟩
          · simpa [Machine.setKth, Machine.setProc, Proc.execKill, hne, hjn] using c1
          · simpa [Machine.setKth, Machine.setProc, Proc.execKill, hne, hjn] using c2
          · simpa [Machine.setKth, Machine.setProc, Proc.execKill, hne, hjn] using c3
  · rename_i hn
    exact h.setExec ha (by simp) (by simp) (fun j _ hji => hdone j (by omega) hji)

theorem StackInv.execCommit (h : StackInv m) (hI : Inv m) (hr : (m.cpu c).mode = .running p i)
    {img pages : Nat} (hpc : (m.kth p i).pc = .execLoad pages)
    (hu : ((m.proc p).thread i).ustack = 0) :
    StackInv ((m.setProc p ((m.proc p).execCommit img pages)).setPc p i .user) := by
  have hl := hI.live hr
  have hclear : ∀ j, j ≠ i → (m.proc p).Clear j := fun j hj =>
    h.exec p i j hl (by rw [hpc]; rfl) hj
  -- no other thread of the process is left in the middle of anything
  have hrest : ∀ k, (((m.setProc p ((m.proc p).execCommit img pages)).setPc p i .user).kth
      p k).pc.watched = false := by
    intro k
    by_cases hk : k = i
    · rw [hk, Machine.setPc_self]; rfl
    · rw [Machine.setPc_other _ _ p k (fun hq => hk hq.2)]
      by_contra hw
      have hw' : (m.kth p k).pc.watched = true := Bool.not_eq_false _ ▸ hw
      exact (h.active p k hw').not_idle (hclear k hk).idle
  refine h.slot hI hl (x := (m.proc p).execCommit img pages) rfl (PcAs.setKth (.inr rfl)) ?_ ?_ ?_ ?_
  · refine Proc.execCommit_stackOk img pages (fun k => ?_) (fun k => ?_)
    · by_cases hk : k = i
      · exact (h.ok p hl).used (hk ▸ (hI.active hr).not_idle)
      · exact (hclear k hk).freed
    · by_cases hk : k = i
      · rw [hk]; exact hu
      · exact (hclear k hk).ustack
  · intro k hw
    simp [hrest k] at hw
  · intro k r hpc'
    have := hrest k
    rw [hpc'] at this
    cases this
  · intro k j hps _
    have := hrest k
    rw [Pc.watched_of_passed hps] at this
    cases this

end Calls

/-! ## Whole runs -/

/-- The condition on a call. At the copying of the records in `fork`: no free slot
of the caller's process remembers a stack, and the caller has no stack of its own
or runs in the slot the child starts in. At the commit of `exec`: the caller has
no stack of its own. -/
def SafeStacks (m : Machine) (p : Slot) (i : ThIdx) : Call → Prop
  | .forkFields => ∀ np, (m.kth p i).pc = .forkFields np →
      (m.proc p).NoStale (m.proc np).thidx ∧
        (i = (m.proc np).thidx ∨ ((m.proc p).thread i).ustack = 0)
  | .threadCreate page mapped copied => m.SafeCreate p page mapped copied
  | .execCommit _ => ((m.proc p).thread i).ustack = 0
  | _ => True

instance SafeStacks.decidable (m : Machine) (p : Slot) (i : ThIdx) (k : Call) :
    Decidable (SafeStacks m p i k) := by
  unfold SafeStacks Proc.NoStale
  split <;> infer_instance

def FreeAndSafeStacks (m : Machine) (p : Slot) (i : ThIdx) (k : Call) : Prop :=
  FreeSlot m p i k ∧ SafeStacks m p i k

instance FreeAndSafeStacks.decidable (m : Machine) (p : Slot) (i : ThIdx) (k : Call) :
    Decidable (FreeAndSafeStacks m p i k) :=
  inferInstanceAs (Decidable (_ ∧ _))

section Runs

variable {m m' : Machine} {c : Nat} {p : Slot} {i : ThIdx} {esp : Nat}

/-- File-system calls touch no record. -/
theorem StackInv.fsCall (h : StackInv m) (hI : Inv m) (hr : (m.cpu c).mode = .running p i)
    {f : FsCall} (hs : m.fsCall c p i esp f = some m') : StackInv m' := by
  have hq : ∀ {k : Kth} {m'' : Machine}, LikeAll m m'' → SpaceAll m m'' →
      m''.kth = (m.setKth p i k).kth → k.pc = (m.kth p i).pc → StackInv m'' := by
    intro k m'' hl hs hk hp
    refine h.quiet hI hl hs (fun q l => .inl ?_)
    rw [hk, Machine.setKth_pc hp]
  have hsl : ∀ {k : Kth} (ch : Chan), k.pc = (m.kth p i).pc →
      StackInv (((m.setKth p i k).acquire c).sleep c p i ch .sleep esp) := by
    intro k ch hp
    refine hq (LikeAll.sleep (m := (m.setKth p i k).acquire c) (hI.thread_running hr) ch _ esp)
      (SpaceAll.sleep (m := (m.setKth p i k).acquire c) (hI.live hr) ch _)
      (k := { k with resume := .sleep }) ?_ hp
    funext q l
    by_cases hql : q = p ∧ l = i <;>
      simp [Machine.sleep, Machine.sched, Machine.setCpu, Machine.setProc, Machine.setKth,
        Machine.acquire, hql]
  cases f with
  | beginOp =>
    simp only [Machine.fsCall] at hs
    split_ifs at hs with h1 h2 h3 <;> cases hs
    · exact hsl _ (by rfl)
    · exact hq (LikeAll.refl m) (SpaceAll.refl m) (by rfl) (by rfl)
  | endOp =>
    simp only [Machine.fsCall] at hs
    split_ifs at hs with h1 h2 <;> cases hs
    · exact hq (LikeAll.refl m) (SpaceAll.refl m) (by rfl) (by rfl)
    · exact hq (LikeAll.wakeup1 m _) ((SpaceAll.refl m).wakeup1 _) (by rfl) (by rfl)
  | commitDone =>
    simp only [Machine.fsCall] at hs
    split_ifs at hs with h1
    cases hs
    exact hq (LikeAll.wakeup1 m _) ((SpaceAll.refl m).wakeup1 _) (by rfl) (by rfl)
  | logWrite new =>
    simp only [Machine.fsCall] at hs
    split_ifs at hs with h1 h2 <;> cases hs
    all_goals exact h.quiet hI (LikeAll.refl m) (SpaceAll.refl m) (PcAs.of_kth rfl)
  | acquiresleep l =>
    simp only [Machine.fsCall] at hs
    split_ifs at hs with h1 h2 <;> cases hs
    · exact hsl _ (by rfl)
    · exact hq (LikeAll.refl m) (SpaceAll.refl m) (by rfl) (by rfl)
  | releasesleep l =>
    simp only [Machine.fsCall] at hs
    split_ifs at hs with h1
    cases hs
    exact hq (LikeAll.wakeup1 m _) ((SpaceAll.refl m).wakeup1 _) (by rfl) (by rfl)

theorem StackInv.call (h : StackInv m) (hI : Inv m) (hr : (m.cpu c).mode = .running p i) {k : Call}
    (hv : SafeStacks m p i k) (hs : CallStep m c p i esp k m') : StackInv m' := by
  have hacq : m.lock = none → StackInv (m.acquire c) := fun _ =>
    h.quiet hI (LikeAll.refl m) (SpaceAll.refl m) (PcAs.of_kth rfl)
  cases hs with
  | yield hl =>
    exact h.quiet hI (LikeAll.yield (hI.thread_running hr) c i esp) (SpaceAll.yield (hI.live hr))
      (PcAs.setKth (.inl rfl))
  | sleep hl _ => exact (hacq hl).sleep (hI.acquire hl) hr _ _
  | kill =>
    refine h.quiet hI (LikeAll.kill m _) (SpaceAll.kill m _) (PcAs.of_kth ?_)
    unfold Machine.kill
    split <;> rfl
  | fork _ hpc => exact h.allocproc hI hr
  | @forkKalloc page np th hpc =>
    have hcl : (m.kth p i).pc.claim = some (np, .EMBRYO) := by rw [hpc]; rfl
    have hst := hI.claim p i np _ hcl
    cases page with
    | none => exact h.forkStep hI hr hcl (by simp [Proc.Live]) rfl
    | some a => exact h.forkStep hI hr hcl (by simp [Proc.Live, hst]) rfl
  | forkCopy hpc => exact h.forkCopy hI hr hpc _
  | @forkFields np hpc => exact h.forkFields hI hr hpc (hv np hpc).1 (hv np hpc).2
  | forkFinish _ hpc => exact h.forkFinish hI hr hpc
  | @undoAlloc np th hpc =>
    have hcl : (m.kth p i).pc.claim = some (np, .UNUSED) := by rw [hpc]; rfl
    have hst := hI.claim p i np _ hcl
    cases th with
    | none => exact h.forkStep hI hr hcl (by simp [Proc.Live, Proc.setFreed, hst]) rfl
    | some j => exact h.forkStep hI hr hcl (by simp [Proc.Live, hst]) rfl
  | @undoFork np hpc =>
    have hcl : (m.kth p i).pc.claim = some (np, .UNUSED) := by rw [hpc]; rfl
    have hst := hI.claim p i np _ hcl
    exact h.forkStep hI hr hcl (by simp [Proc.Live, hst]) rfl
  | exec hpc => exact h.setExec (hI.active hr) (by simp) (by simp) (fun j hj => by simp [Pc.passed] at hj)
  | execKill hpc => exact h.execKill hI hr hpc
  | execCommit hpc _ => exact h.execCommit hI hr hpc hv
  | execFail _ _ => exact h.setPc hI rfl
  | exit hpc => exact h.setPc hI rfl
  | exitEnd _ _ _ => exact h.exitEnd hI hr
  | wait hl _ => exact (hacq hl).waitLoop (hI.acquire hl) hr
  | threadCreate _ _ => exact h.threadCreate hI hr hv
  | threadExit _ hpc => exact h.threadExit hI hr hpc _
  | threadJoin hl _ =>
    unfold Machine.threadJoin
    split
    · exact h
    · exact (hacq hl).joinLoop (hI.acquire hl) hr _ _
  | fsEnter hpc => exact h.setPc hI rfl
  | fsReturn _ _ => exact h.setPc hI rfl
  | fs _ hf => exact h.fsCall hI hr hf

theorem StackInv.schedule (h : StackInv m) (hI : Inv m) (hs : m.schedule c = some m') :
    StackInv m' := by
  unfold Machine.schedule at hs
  split at hs
  · split_ifs at hs
    cases hs
    exact h.quiet hI (LikeAll.refl m) (SpaceAll.refl m) (PcAs.of_kth rfl)
  · split at hs <;> cases hs
    · rename_i p hp
      exact h.quiet hI (LikeAll.dispatch hp c) (SpaceAll.dispatch hp c) (PcAs.of_kth rfl)
    · exact h.quiet hI (LikeAll.refl m) (SpaceAll.refl m) (PcAs.of_kth rfl)
  · cases hs

theorem StackInv.resume (h : StackInv m) (hI : Inv m) (hs : m.resume c esp = some m') :
    StackInv m' := by
  unfold Machine.resume at hs
  split at hs
  · rename_i p i hk
    have hI1 := hI.enter hk
    have h1 : StackInv (m.enter c p i) :=
      h.quiet hI (LikeAll.refl m) (SpaceAll.refl m) (PcAs.setKth (.inl rfl))
    have hrel : ∀ {m1 : Machine}, StackInv m1 → Inv m1 → StackInv m1.release := fun h2 hI2 =>
      h2.quiet hI2 (LikeAll.refl _) (SpaceAll.refl _) (PcAs.of_kth rfl)
    have h2 : StackInv ((m.enter c p i).schedTail p) :=
      h1.quiet hI1 (LikeAll.schedTail _ p) (SpaceAll.schedTail _ p) (PcAs.of_kth rfl)
    have h3 : StackInv ((m.enter c p i).awake p i) :=
      h1.quiet hI1 (LikeAll.awake _ p i) (SpaceAll.awake _ p i) (PcAs.of_kth rfl)
    have hI3 := hI1.awake (p := p) (i := i)
    have hrun : (((m.enter c p i).awake p i).cpu c).mode = .running p i := by
      simp [Machine.awake, Machine.schedTail, Machine.setThread, Machine.setProc,
        Machine.enter, Machine.setCpu, Machine.setKth]
    split at hs
    · cases hs
    · cases hs; exact hrel h1 hI1
    · cases hs; exact hrel h2 hI1.schedTail
    · cases hs; exact hrel h3 hI3
    · cases hs; exact h3.waitLoop hI3 hrun
    · cases hs; exact h3.joinLoop hI3 hrun _ _
    · split_ifs at hs
      cases hs
      exact h2
  · cases hs

theorem StackInv.step (h : StackInv m) (hI : Inv m) {a : Act} (hv : OnCall SafeStacks m a)
    (hs : step m a = some m') : StackInv m' := by
  cases a with
  | schedule c => exact h.schedule hI hs
  | resume c esp => exact h.resume hI hs
  | wakeup n =>
    simp only [Lwp.step] at hs
    split_ifs at hs
    cases hs
    exact h.quiet hI (LikeAll.wakeup1 m _) ((SpaceAll.refl m).wakeup1 _) (PcAs.of_kth rfl)
  | call c esp k =>
    simp only [Lwp.step] at hs
    split at hs
    · rename_i p i hr
      exact h.call hI hr (hv.of_running hr) (Machine.call_step hs)
    · cases hs

theorem StackInv.boot (page : Nat) : StackInv (boot page) := by
  have hpc : ∀ p i, ((Lwp.boot page).kth p i).pc.watched = false := by
    intro p i
    simp only [Lwp.boot]
    split <;> rfl
  have hfreed : ∀ p k, ((Lwp.boot page).proc p).freedustack k = 0 := by
    intro p k
    simp only [Lwp.boot]
    split <;> rfl
  have hustack : ∀ p k, (((Lwp.boot page).proc p).thread k).ustack = 0 := by
    intro p k
    simp only [Lwp.boot]
    split
    · by_cases hk : k = 0 <;> simp [hk]
    · rfl
  have hregions : ∀ p, ((Lwp.boot page).proc p).regions = [] := by
    intro p
    simp only [Lwp.boot]
    split <;> rfl
  have hrec : ∀ p k, ((Lwp.boot page).proc p).record k = 0 := by
    intro p k
    simp [Proc.record, hfreed, hustack]
  constructor
  · intro p _
    exact ⟨fun i hi => absurd (hfreed p i) hi, fun i hi => absurd (hrec p i) hi,
      fun i _ _ hi => absurd (hrec p i) hi, fun r hr => by simp [hregions p] at hr⟩
  · intro p i hw
    simp [hpc p i] at hw
  · intro p i np _ hf
    have := hpc p i
    rw [hf] at this
    cases this
  · intro p i np hf
    have := hpc p i
    rw [hf] at this
    cases this
  · intro p i j _ hps _
    have := hpc p i
    rw [Pc.watched_of_passed hps] at this
    cases this

end Runs

/-- What the stack records of the live processes must satisfy: no freed stack is
the stack of an active thread or recorded twice, no two active threads share a
stack, and a freed stack is the top of a region of the process. -/
structure StacksValid (m : Machine) : Prop where
  unused : ∀ p, (m.proc p).Live → ∀ i j, (m.proc p).freedustack i ≠ 0 →
    ((m.proc p).thread j).Active → (m.proc p).freedustack i ≠ ((m.proc p).thread j).ustack
  freed : ∀ p, (m.proc p).Live → ∀ i j, i ≠ j → (m.proc p).freedustack i ≠ 0 →
    (m.proc p).freedustack i ≠ (m.proc p).freedustack j
  distinct : ∀ p, (m.proc p).Live → ∀ i j, i ≠ j → ((m.proc p).thread i).Active →
    ((m.proc p).thread j).Active → ((m.proc p).thread i).ustack ≠ 0 →
      ((m.proc p).thread i).ustack ≠ ((m.proc p).thread j).ustack
  region : ∀ p, (m.proc p).Live → ∀ i, (m.proc p).freedustack i ≠ 0 →
    (m.proc p).freedustack i ∈ (m.proc p).regions

theorem Proc.StackOk.active {x : Proc} (h : x.StackOk) {j : ThIdx} (hj : (x.thread j).Active) :
    x.record j = (x.thread j).ustack :=
  Proc.record_used (h.used hj.not_idle) hj.not_idle

theorem StackInv.valid {m : Machine} (h : StackInv m) : StacksValid m := by
  constructor
  · intro p hp i j hi hj
    have hok := h.ok p hp
    have hij : i ≠ j := by
      rintro rfl
      exact hj.not_idle (hok.freed i hi)
    rw [← hok.active hj, ← Proc.record_freed hi]
    exact hok.distinct i j hij (by rw [Proc.record_freed hi]; exact hi)
  · intro p hp i j hij hi heq
    have hok := h.ok p hp
    have hj : (m.proc p).freedustack j ≠ 0 := heq ▸ hi
    rw [← Proc.record_freed hi, ← Proc.record_freed hj] at heq
    exact hok.distinct i j hij (by rw [Proc.record_freed hi]; exact hi) heq
  · intro p hp i j hij hi hj h0
    have hok := h.ok p hp
    rw [← hok.active hi, ← hok.active hj]
    exact hok.distinct i j hij (by rw [hok.active hi]; exact h0)
  · intro p hp i hi
    have hok := h.ok p hp
    rw [← Proc.record_freed hi]
    exact hok.region i (by rw [Proc.record_freed hi]; exact hi)

end Xv6.Lwp
