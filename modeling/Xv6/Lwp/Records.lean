import Xv6.Lwp.Threads

/- The user-stack records of one process. The stacks are recorded in two parallel
   arrays, `thread[].ustack` and `freedustack[]`; `record i` is the stack that slot
   `i` stands for. `StackOk` says that the records are pairwise distinct and are
   tops of regions of the address space, and each operation on a process that
   touches the arrays has its lemma: which of them keep it, and when. -/
namespace Xv6.Lwp

instance Thread.Idle.decidable (th : Thread) : Decidable th.Idle := inferInstanceAs (Decidable (_ ∨ _))

instance Thread.Active.decidable (th : Thread) : Decidable th.Active :=
  inferInstanceAs (Decidable (_ ∨ _))

theorem Thread.Active.not_idle {th : Thread} (h : th.Active) : ¬ th.Idle := by
  rcases h with h | h | h <;> simp [Thread.Idle, h]

/-- A process that can be scheduled. -/
def Proc.Live (x : Proc) : Prop := x.state = .RUNNABLE ∨ x.state = .RUNNING

namespace Proc

/-- The stack that slot `i` stands for: its freed stack, or the stack of its
thread; `0` if it has none. -/
def record (x : Proc) (i : ThIdx) : Nat :=
  if x.freedustack i ≠ 0 then x.freedustack i
  else if (x.thread i).Idle then 0 else (x.thread i).ustack

/-- The stack records of one process. -/
structure StackOk (x : Proc) : Prop where
  freed : ∀ i, x.freedustack i ≠ 0 → (x.thread i).Idle
  region : ∀ i, x.record i ≠ 0 → x.record i ∈ x.regions
  distinct : ∀ i j, i ≠ j → x.record i ≠ 0 → x.record i ≠ x.record j
  top : ∀ r ∈ x.regions, r ≤ x.sz

variable {x y : Proc} {i j : ThIdx}

theorem record_freed (h : x.freedustack i ≠ 0) : x.record i = x.freedustack i := by
  simp [record, h]

theorem record_idle (h : (x.thread i).Idle) : x.record i = x.freedustack i := by
  by_cases hf : x.freedustack i = 0 <;> simp [record, hf, h]

theorem record_used (hf : x.freedustack i = 0) (h : ¬ (x.thread i).Idle) :
    x.record i = (x.thread i).ustack := by
  simp [record, hf, h]

/-- A slot with a thread has no freed stack. -/
theorem StackOk.used (h : x.StackOk) (hi : ¬ (x.thread i).Idle) : x.freedustack i = 0 :=
  Decidable.byContradiction fun hf => hi (h.freed i hf)

theorem record_congr (hf : y.freedustack i = x.freedustack i)
    (hi : (y.thread i).Idle ↔ (x.thread i).Idle) (hu : (y.thread i).ustack = (x.thread i).ustack) :
    y.record i = x.record i := by
  simp only [record, hf, hi, hu]

/-- No record is new, and the address space has not shrunk. -/
theorem StackOk.mono (h : x.StackOk) (hf : ∀ i, y.freedustack i ≠ 0 → (y.thread i).Idle)
    (hr : ∀ i, y.record i = x.record i ∨ y.record i = 0) (hg : y.regions = x.regions)
    (hs : x.sz ≤ y.sz) : y.StackOk := by
  have hsame : ∀ i, y.record i ≠ 0 → y.record i = x.record i := by
    intro i hi
    exact (hr i).resolve_right hi
  refine ⟨hf, ?_, ?_, ?_⟩
  · intro i hi
    have he := hsame i hi
    rw [hg, he]
    exact h.region i (he ▸ hi)
  · intro i j hij hi heq
    have he := hsame i hi
    have hj := hsame j (heq ▸ hi)
    refine h.distinct i j hij (he ▸ hi) ?_
    rw [← he, ← hj, heq]
  · intro r hr'
    rw [hg] at hr'
    exact (h.top r hr').trans hs

/-- `thread_create` puts a new region on top of the address space. -/
theorem StackOk.grow (h : x.StackOk) {top : Nat} (ht : x.sz < top)
    (hf : ∀ i, y.freedustack i ≠ 0 → (y.thread i).Idle) (hj : y.record j = top)
    (hr : ∀ i, i ≠ j → y.record i = x.record i) (hg : y.regions = top :: x.regions)
    (hs : y.sz = top) : y.StackOk := by
  have hold : ∀ i, i ≠ j → y.record i ≠ 0 → y.record i ∈ x.regions := by
    intro i hi h0
    rw [hr i hi] at h0 ⊢
    exact h.region i h0
  have hlt : ∀ i, i ≠ j → y.record i ≠ 0 → y.record i < top :=
    fun i hi h0 => lt_of_le_of_lt (h.top _ (hold i hi h0)) ht
  refine ⟨hf, ?_, ?_, ?_⟩
  · intro i h0
    rw [hg]
    by_cases hi : i = j
    · rw [hi, hj]; exact List.mem_cons_self
    · exact List.mem_cons_of_mem _ (hold i hi h0)
  · intro i k hik h0 heq
    by_cases hi : i = j
    · have hk : k ≠ j := fun hk => hik (hi.trans hk.symm)
      have := hlt k hk (heq ▸ h0)
      rw [← heq, hi, hj] at this
      exact lt_irrefl _ this
    · have := hlt i hi h0
      by_cases hk : k = j
      · rw [heq, hk, hj] at this
        exact lt_irrefl _ this
      · rw [hr i hi] at h0 heq
        rw [hr k hk] at heq
        exact h.distinct i k hik h0 heq
  · intro r hr'
    rw [hg, List.mem_cons] at hr'
    rcases hr' with rfl | hr'
    · exact hs.ge
    · rw [hs]
      exact ((h.top r hr').trans_lt ht).le

/-! ## thread_create and thread_join on one process -/

theorem le_pgroundup (a : Nat) : a ≤ PGROUNDUP a := by
  simp only [PGROUNDUP, PGSIZE]
  omega

theorem lt_stackTop (sz pages : Nat) : sz < stackTop sz pages := by
  have h := le_pgroundup sz
  have h1 : PGSIZE ≤ (1 + pages) * PGSIZE := Nat.le_mul_of_pos_left _ (by omega)
  simp only [stackTop, PGSIZE] at h h1 ⊢
  omega

/-- A slot without a thread gets other contents, still without one. -/
theorem StackOk.setIdle (h : x.StackOk) {th : Thread} (hj : (x.thread j).Idle) (ht : th.Idle) :
    (x.setThread j th).StackOk := by
  have hidle : ∀ i, ((x.setThread j th).thread i).Idle ↔ (x.thread i).Idle := by
    intro i
    by_cases hi : i = j
    · subst hi; simpa [ht] using hj
    · simp [hi]
  refine h.mono (fun i hf => (hidle i).mpr (h.freed i hf)) (fun i => .inl ?_) rfl le_rfl
  by_cases hi : i = j
  · subst hi
    rw [record_idle hj, record_idle ((hidle i).mpr hj)]
    rfl
  · exact record_congr rfl (hidle i) (by simp [hi])

/-- A `thread_create` that does not take the error path: where the new thread's
stack comes from. -/
theorem userStack_ok {mapped copied : Bool} (h : x.userStack j mapped copied = .ok y) :
    (x.freedustack j ≠ 0 ∧
      y = { x.setFreed j 0 with sz := PGROUNDUP x.sz }.start j (x.freedustack j)) ∨
    (x.freedustack j = 0 ∧
      y = { x with
        pgdir := some { regions := stackTop x.sz x.stacksize :: x.regions }
        sz := stackTop x.sz x.stacksize }.start j (stackTop x.sz x.stacksize)) := by
  unfold userStack at h
  split_ifs at h with hf hc hm hc <;> simp only [Except.ok.injEq] at h
  · exact .inl ⟨hf, h.symm⟩
  · exact .inr ⟨Decidable.not_not.mp hf, h.symm⟩

theorem StackOk.userStack (h : x.StackOk) {mapped copied : Bool} (hj : (x.thread j).Idle)
    (hy : x.userStack j mapped copied = .ok y) : y.StackOk := by
  obtain ⟨hf, rfl⟩ | ⟨hf, rfl⟩ := userStack_ok hy
  · refine h.mono ?_ (fun i => .inl ?_) rfl (le_pgroundup x.sz)
    · intro i hi
      by_cases hij : i = j
      · simp [start, hij] at hi
      · simp only [start, setThread_freedustack, setFreed_freedustack, hij, if_false] at hi
        simpa [start, hij] using h.freed i hi
    · by_cases hij : i = j
      · subst hij
        rw [record_idle hj, record_used (by simp [start]) (by simp [start, Thread.Idle])]
        simp [start]
      · exact record_congr (by simp [start, hij]) (by simp [start, hij]) (by simp [start, hij])
  · refine h.grow (j := j) (lt_stackTop x.sz x.stacksize) ?_ ?_ ?_ rfl rfl
    · intro i hi
      by_cases hij : i = j
      · exact absurd (hij ▸ hf) hi
      · simpa [start, hij] using h.freed i hi
    · rw [record_used (by simpa [start] using hf) (by simp [start, Thread.Idle])]
      simp [start]
    · intro i hij
      exact record_congr rfl (by simp [start, hij]) (by simp [start, hij])

/-- The stack of a joined thread becomes the freed stack of its slot. -/
theorem record_joinReap (hj : ¬ (x.thread j).Idle) (hf : x.freedustack j = 0) (i : ThIdx) :
    (x.joinReap j).record i = x.record i := by
  by_cases hij : i = j
  · subst hij
    rw [record_used hf hj, record_idle (by simp [joinReap, freeustack, Thread.Idle])]
    simp [joinReap, freeustack]
  · exact record_congr (by simp [joinReap, freeustack, hij]) (by simp [joinReap, freeustack, hij])
      (by simp [joinReap, freeustack, hij])

theorem StackOk.joinReap (h : x.StackOk) (hj : (x.thread j).state = .ZOMBIE) :
    (x.joinReap j).StackOk := by
  have hni : ¬ (x.thread j).Idle := by simp [Thread.Idle, hj]
  refine h.mono ?_ (fun i => .inl (record_joinReap hni (h.used hni) i)) rfl le_rfl
  intro i hi
  by_cases hij : i = j
  · simp [Proc.joinReap, freeustack, hij, Thread.Idle]
  · simp only [Proc.joinReap, freeustack, setThread_freedustack, setFreed_freedustack, hij,
      if_false] at hi
    simpa [Proc.joinReap, freeustack, hij] using h.freed i hi

/-! ## fork and exec on one process -/

/-- The slot `j` stands for no stack and remembers none. -/
structure Clear (x : Proc) (j : ThIdx) : Prop where
  idle : (x.thread j).Idle
  ustack : (x.thread j).ustack = 0
  freed : x.freedustack j = 0

/-- No slot that is free, apart from `t`, remembers the stack of an earlier
thread. -/
def NoStale (x : Proc) (t : ThIdx) : Prop :=
  ∀ k, k ≠ t → (x.thread k).Idle → x.freedustack k = 0 → (x.thread k).ustack = 0

/-- What the child of `fork` will record, once its thread is started. -/
theorem record_forkFields {np : Proc} {p : Slot} (hnp : ∀ k, (np.thread k).Idle)
    (hx : x.NoStale np.thidx) (k : ThIdx) :
    (forkFields x np p).forkFinish.record k =
      if k = np.thidx then (x.thread x.thidx).ustack else x.record k := by
  by_cases hk : k = np.thidx
  · subst hk
    rw [record_used (by simp [forkFinish, copyprocth, forkFields])
      (by simp [forkFinish, copyprocth, forkFields, Thread.Idle])]
    simp [forkFinish, copyprocth, forkFields]
  · rw [record_idle (by simpa [forkFinish, copyprocth, forkFields, hk] using hnp k), if_neg hk]
    simp only [forkFinish, copyprocth, forkFields, setThread_freedustack, setFreed_freedustack, hk,
      if_false]
    by_cases hf : x.freedustack k = 0
    · by_cases hi : (x.thread k).Idle
      · simp [record, hf, hi, hx k hk hi hf]
      · simp [record, hf, hi]
    · simp [record, hf]

/-- The child's records are the parent's, with the caller's stack filed under the
child's own slot. -/
theorem StackOk.fork (h : x.StackOk) {np : Proc} {p : Slot} (hnp : ∀ k, (np.thread k).Idle)
    (hx : x.NoStale np.thidx) (hc : ¬ (x.thread x.thidx).Idle)
    (hown : x.thidx = np.thidx ∨ (x.thread x.thidx).ustack = 0)
    (hg : ∀ k, x.record k ≠ 0 → x.record k ∈ np.regions) (ht : ∀ r ∈ np.regions, r ≤ x.sz) :
    (forkFields x np p).forkFinish.StackOk := by
  have hcur : x.record x.thidx = (x.thread x.thidx).ustack := record_used (h.used hc) hc
  -- every record of the child is the record of some slot of the parent
  have hrec : ∀ k, (forkFields x np p).forkFinish.record k =
      x.record (if k = np.thidx then x.thidx else k) := by
    intro k
    rw [record_forkFields hnp hx]
    split
    · exact hcur.symm
    · rfl
  refine ⟨?_, ?_, ?_, ht⟩
  · intro k hk
    by_cases hkt : k = np.thidx
    · simp [forkFinish, copyprocth, forkFields, hkt] at hk
    · simpa [forkFinish, copyprocth, forkFields, hkt] using hnp k
  · intro k hk
    rw [hrec] at hk ⊢
    exact hg _ hk
  · intro k l hkl hk
    rw [hrec] at hk ⊢
    rw [hrec]
    refine h.distinct _ _ ?_ hk
    rcases hown with hown | hown
    · rw [hown]
      split_ifs with h1 h2 h2 <;> simp_all
    · -- the caller's own stack is none, so its slot may be listed twice
      have hne : ¬ k = np.thidx := by
        intro hkt
        rw [if_pos hkt, hcur, hown] at hk
        exact hk rfl
      rw [if_neg hne] at hk ⊢
      split_ifs with h2
      · rintro rfl
        rw [hcur, hown] at hk
        exact hk rfl
      · exact hkl

theorem StackOk.execKill (h : x.StackOk) (hj : j ≠ x.thidx) : (x.execKill j).StackOk := by
  refine h.mono ?_ ?_ (by simp [Proc.execKill, hj]) (by simp [Proc.execKill, hj])
  · intro i hi
    by_cases hij : i = j
    · simp [Proc.execKill, hj, hij, Thread.Idle]
    · simp only [Proc.execKill, hj, if_false, setThread_freedustack, setFreed_freedustack, hij] at hi
      simpa [Proc.execKill, hj, hij] using h.freed i hi
  · intro i
    by_cases hij : i = j
    · subst hij
      exact .inr (by simp [record, Proc.execKill, hj, Thread.Idle])
    · exact .inl (record_congr (by simp [Proc.execKill, hj, hij]) (by simp [Proc.execKill, hj, hij])
        (by simp [Proc.execKill, hj, hij]))

/-- A new image in a process whose slots remember no stack. -/
theorem execCommit_stackOk (img pages : Nat) (hf : ∀ k, x.freedustack k = 0)
    (hu : ∀ k, (x.thread k).ustack = 0) : (x.execCommit img pages).StackOk := by
  have hrec : ∀ k, (x.execCommit img pages).record k = 0 := by
    intro k
    have hk : ((x.execCommit img pages).thread k).ustack = 0 := by
      by_cases hkt : k = x.thidx
      · simp [execCommit, hkt, hu]
      · simp [execCommit, hkt, hu]
    have hfk : (x.execCommit img pages).freedustack k = 0 := hf k
    simp [record, hk, hfk]
  refine ⟨fun k hk => absurd (hf k) hk, fun k hk => absurd (hrec k) hk,
    fun k _ _ hk => absurd (hrec k) hk, ?_⟩
  intro r hr
  simp only [regions, execCommit, Option.getD_some, List.mem_singleton] at hr
  exact hr.le

end Proc

end Xv6.Lwp
