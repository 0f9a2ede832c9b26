import Xv6.Vm.Exec

/- `thread_create` (`project2_LWP/proc.c`), with its four ways to fail: no thread
   slot, no page for the kernel stack, no memory for the user stack, and a
   `copyout` that does not reach the user stack. The label `bad:` comes from
   `exec`, where the page directory is a private copy; here it is that of the
   process. Only the two failures before it leave the process as it was
   (`thread_create_fail_intact_iff`). -/
namespace Xv6.Vm
open Lwp (PGSIZE KERNBASE PGROUNDUP ThIdx NTHREAD Thread)

/-- `allocth`: the first `UNUSED` slot becomes `EMBRYO` with the next tid. -/
def Proc.allocth (p : Proc) (nexttid : Nat) : Option (ThIdx × Proc) :=
  match (List.finRange NTHREAD).find? (fun i => (p.thread i).state = .UNUSED) with
  | none => none
  | some i => some (i, p.setThread i { p.thread i with tid := nexttid, state := .EMBRYO })

/-- The kernel stack `a` of a new thread, with its trap frame and context. -/
def Proc.kernelStack (p : Proc) (j : ThIdx) (a : Nat) : Proc :=
  p.setThread j { p.thread j with
    kstack := a, tf := Lwp.Proc.tfOf a, context := Lwp.Proc.contextOf a }

/-- The code after `bad:` frees the page directory of the process. -/
def Proc.bad (p : Proc) : VmM (Proc × Int) := do
  let d ← freevm p.pgdir
  return ({ p with pgdir := d }, -1)

/-- The end of `thread_create`: the stack pointer below two words at `top`, and
the new size of the process. -/
def Proc.finish (p : Proc) (j : ThIdx) (top sz : Nat) : VmM (Proc × Int) := do
  if ← copyout p.pgdir (u32 (2 ^ 32 + top - 8)) 8 then
    return ({ p with sz := sz }.setThread j { p.thread j with ustack := top, state := .RUNNABLE }, 0)
  else p.bad

/-- The user stack of the new thread: the freed stack of its slot, or new pages. -/
def Proc.userStack (p : Proc) (j : ThIdx) : VmM (Proc × Int) :=
  let sz := u32 (PGROUNDUP p.sz)
  if p.freedustack j ≠ 0 then (p.setFreed j 0).finish j (p.freedustack j) sz
  else do
    let (d, sz) ← allocuvm p.pgdir sz (u32 (sz + (1 + p.stacksize) * PGSIZE))
    if sz = 0 then Proc.bad { p with pgdir := d }
    else
      let d ← clearpteu d (u32 (2 ^ 32 + sz - (1 + p.stacksize) * PGSIZE))
      Proc.finish { p with pgdir := d } j sz sz

/-- `thread_create`: the process, the return value, and whether `nexttid` was
taken. -/
def threadCreate (nexttid : Nat) (p : Proc) : VmM (Proc × Int) :=
  match p.allocth nexttid with
  | none => return (p, -1)
  | some (j, p) => do
    match ← kalloc with
    | none => return (p.setThread j { p.thread j with kstack := 0, state := .UNUSED }, -1)
    | some a => (p.kernelStack j a).userStack j

/-! ## What a failing call leaves -/

section Rules

variable {s : List Nat} {p : Proc} {j : ThIdx}

theorem Proc.allocth_some {n : Nat} {q : Proc} (h : p.allocth n = some (j, q)) :
    (p.thread j).state = .UNUSED ∧
      q = p.setThread j { p.thread j with tid := n, state := .EMBRYO } := by
  unfold Proc.allocth at h
  split at h
  · cases h
  · rename_i i hi
    cases h
    exact ⟨by simpa using List.find?_some hi, rfl⟩

theorem Proc.allocth_none {n : Nat} : p.allocth n = none ↔ ∀ i, (p.thread i).state ≠ .UNUSED := by
  unfold Proc.allocth
  split
  · rename_i hi
    refine ⟨fun _ i => ?_, fun _ => rfl⟩
    simpa using List.find?_eq_none.mp hi i (List.mem_finRange i)
  · rename_i i hi
    refine ⟨fun h => (by cases h), fun h => ?_⟩
    exact absurd (by simpa using List.find?_some hi) (h i)

/-- The state of thread `j` is `EMBRYO` when the call fails. -/
def Embryo (j : ThIdx) (r : Proc × Int) (_ : List Nat) : Prop :=
  r.2 = -1 → (r.1.thread j).state = .EMBRYO

theorem wp_bad (h : (p.thread j).state = .EMBRYO) : Lib.wp p.bad (Embryo j) (fun _ _ => True) s := by
  have hfree : Lib.wp (freevm p.pgdir) (fun _ _ => True) (fun _ _ => True) s := by
    unfold Lib.wp
    split <;> trivial
  exact Lib.wp.bind hfree (fun _ _ _ => trivial) (fun _ _ _ => Lib.wp_pure (fun _ => h))

theorem wp_finish (h : (p.thread j).state = .EMBRYO) (top sz : Nat) :
    Lib.wp (p.finish j top sz) (Embryo j) (fun _ _ => True) s := by
  unfold Proc.finish
  have hcopy : Lib.wp (copyout p.pgdir (u32 (2 ^ 32 + top - 8)) 8) (fun _ _ => True)
      (fun _ _ => True) s := by
    unfold Lib.wp
    split <;> trivial
  refine Lib.wp.bind hcopy (fun _ _ _ => trivial) (fun ok _ _ => ?_)
  cases ok with
  | true => exact Lib.wp_pure (fun h0 => absurd (show (0 : Int) = -1 from h0) (by decide))
  | false => exact wp_bad h

theorem wp_userStack (h : (p.thread j).state = .EMBRYO) :
    Lib.wp (p.userStack j) (Embryo j) (fun _ _ => True) s := by
  unfold Proc.userStack
  simp only
  split
  · exact wp_finish (p := p.setFreed j 0) h _ _
  · refine Lib.wp_bind ?_
    unfold Lib.wp
    split
    · rename_i r t _
      obtain ⟨d, sz⟩ := r
      show Lib.wp _ (Embryo j) (fun _ _ => True) t
      simp only
      split
      · exact wp_bad (p := { p with pgdir := d }) h
      · refine Lib.wp_bind ?_
        unfold Lib.wp
        split
        · rename_i d' t' _
          show Lib.wp (Proc.finish { p with pgdir := d' } j sz sz) (Embryo j) (fun _ _ => True) t'
          exact wp_finish (p := { p with pgdir := d' }) h _ _
        · trivial
    · trivial

end Rules

/-- Nothing of the failed call is left: the address space, the size, the freed
stacks and the thread slots in use are as before, and every page that was free is
free again. -/
structure Undone (p p' : Proc) (s s' : List Nat) : Prop where
  pgdir : p'.pgdir = p.pgdir
  sz : p'.sz = p.sz
  freed : p'.freedustack = p.freedustack
  used : ∀ i, (p'.thread i).state ≠ .UNUSED ↔ (p.thread i).state ≠ .UNUSED
  pages : ∀ a ∈ s, a ∈ s'

theorem thread_create_fail_intact_iff (nexttid : Nat) (p p' : Proc) (s s' : List Nat)
    (h : threadCreate nexttid p s = .ok (p', -1) s') :
    Undone p p' s s' ↔ (∀ i, (p.thread i).state ≠ .UNUSED) ∨ s = [] := by
  cases halloc : p.allocth nexttid with
  | none =>
    have hnone := halloc
    simp only [threadCreate, halloc, pure, EStateM.pure, EStateM.Result.ok.injEq, Prod.mk.injEq, and_true] at h
    obtain ⟨rfl, rfl⟩ := h
    exact ⟨fun _ => .inl (Proc.allocth_none.mp hnone),
      fun _ => ⟨rfl, rfl, rfl, fun _ => Iff.rfl, fun _ ha => ha⟩⟩
  | some r =>
    obtain ⟨j, q⟩ := r
    obtain ⟨hun, rfl⟩ := Proc.allocth_some halloc
    simp only [threadCreate, halloc] at h
    cases s with
    | nil =>
      -- no page for the kernel stack: the slot is given back
      have h' : (((p.setThread j { p.thread j with tid := nexttid, state := .EMBRYO }).setThread j
          { (p.setThread j { p.thread j with tid := nexttid, state := .EMBRYO }).thread j with
            kstack := 0, state := .UNUSED }, (-1 : Int)) : Proc × Int) = (p', -1) ∧ [] = s' := by
        simpa only [kalloc, bind, EStateM.bind, get, getThe, MonadStateOf.get, EStateM.get, pure,
          EStateM.pure, EStateM.Result.ok.injEq] using h
      obtain ⟨he, rfl⟩ := h'
      rw [Prod.mk.injEq] at he
      obtain ⟨rfl, -⟩ := he
      refine ⟨fun _ => .inr rfl, fun _ => ⟨rfl, rfl, rfl, fun i => ?_, fun _ ha => ha⟩⟩
      by_cases hi : i = j
      · subst hi
        simp [Proc.setThread, hun]
      · simp [Proc.setThread, hi]
    | cons a free =>
      -- from here on the slot stays `EMBRYO`
      have h' : ((p.setThread j { p.thread j with tid := nexttid, state := .EMBRYO }).kernelStack j
          a).userStack j free = .ok (p', -1) s' := by
        simpa only [kalloc, bind, EStateM.bind, get, getThe, MonadStateOf.get, EStateM.get, set,
          MonadStateOf.set, EStateM.set, pure, EStateM.pure] using h
      have hemb := (wp_userStack (j := j) (by simp [Proc.kernelStack, Proc.setThread])).ok h' rfl
      constructor
      · intro hu
        have hused := (hu.used j).mp (by rw [hemb]; decide)
        exact absurd hun hused
      · rintro (hall | hnil)
        · exact absurd hun (hall j)
        · cases hnil

/-- A run that can be computed to return -1 does so. -/
theorem returns_fail {x : VmM (Proc × Int)} {s : List Nat}
    (h : (match x s with
      | .ok r _ => decide (r.2 = -1)
      | .error _ _ => false) = true) : ∃ p' s', x s = .ok (p', -1) s' := by
  split at h
  · rename_i r s' hx
    obtain ⟨p', v⟩ := r
    have hv : v = -1 := of_decide_eq_true h
    exact ⟨p', s', by rw [hx, hv]⟩
  · cases h

/-- Without free pages no kernel stack can be had. -/
theorem thread_create_fail_noPage : ∃ p' s', threadCreate 2 oneThread [] = .ok (p', -1) s' ∧
    Undone oneThread p' [] s' := by
  obtain ⟨p', s', h⟩ := returns_fail (x := threadCreate 2 oneThread) (s := []) (by decide +kernel)
  exact ⟨p', s', h, (thread_create_fail_intact_iff 2 oneThread p' [] s' h).mpr (.inr rfl)⟩

/-- With one free page the kernel stack can be had but no user stack. -/
theorem thread_create_fail_onePage : ∃ p' s', threadCreate 2 oneThread [16384] = .ok (p', -1) s' ∧
    ¬ Undone oneThread p' [16384] s' := by
  obtain ⟨p', s', h⟩ :=
    returns_fail (x := threadCreate 2 oneThread) (s := [16384]) (by decide +kernel)
  refine ⟨p', s', h, fun hu => ?_⟩
  rcases (thread_create_fail_intact_iff 2 oneThread p' [16384] s' h).mp hu with hall | hnil
  · exact hall 1 (by decide)
  · cases hnil

end Xv6.Vm
