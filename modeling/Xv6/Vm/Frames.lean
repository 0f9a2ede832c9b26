import Xv6.Vm.Reuse

/- The frames of a directory that `exec` builds. No page where the kernel is mapped
   is for the user, no two user pages have one frame, and no frame of a user page is
   on the free list (`Apart`): what is written to one page is not seen on another,
   and the next `kalloc` does not give it away. `setupkvm`, `allocuvm` and the loop
   over the segments keep this as long as they do not fail. -/
namespace Xv6.Vm
open Lwp (PGSIZE KERNBASE PGROUNDUP ThIdx NTHREAD Thread)

/-- No page where the kernel is mapped is for the user. -/
def Pgdir.KernelOnly (d : Pgdir) : Prop :=
  ∀ k x, KERNBASE / PGSIZE ≤ k → d.pte k = some x → x.u = false

/-- No two user pages have one frame. -/
def Pgdir.OwnFrames (d : Pgdir) : Prop :=
  ∀ j k x y, j < KERNBASE / PGSIZE → k < KERNBASE / PGSIZE → d.pte j = some x → d.pte k = some y →
    x.page = y.page → j = k

/-- The user pages of `d` have frames of their own, taken from `F`, and so is what is
still free. -/
structure Apart (F : List Nat) (d : Pgdir) (free : List Nat) : Prop where
  nodup : free.Nodup
  within : Within F free
  source : ∀ k x, k < KERNBASE / PGSIZE → d.pte k = some x → x.page ∈ F
  taken : ∀ k x, k < KERNBASE / PGSIZE → d.pte k = some x → x.page ∉ free
  own : d.OwnFrames
  kernel : d.KernelOnly

section Rules

variable {F s t : List Nat} {d e : Pgdir} {mem : Nat}

/-- Fewer pages mapped, and fewer free. -/
theorem Apart.less (h : Apart F d s) (he : ∀ k x, e.pte k = some x → d.pte k = some x)
    (ht : t.Sublist s) : Apart F e t :=
  ⟨h.nodup.sublist ht, fun a ha => h.within a (ht.subset ha), fun k x hk hx => h.source k x hk (he k x hx),
    fun k x hk hx hm => h.taken k x hk (he k x hx) (ht.subset hm),
    fun j k x y hj hk hx hy => h.own j k x y hj hk (he j x hx) (he k y hy),
    fun k x hk hx => h.kernel k x hk (he k x hx)⟩

/-- A page that was free is mapped. -/
theorem Apart.map {k : Nat} {u : Bool} (h : Apart F d (mem :: s)) (hk : k < KERNBASE / PGSIZE) :
    Apart F (d.setPte k (some { page := mem, u := u })) s := by
  obtain ⟨hmem, hnodup⟩ := List.nodup_cons.mp h.nodup
  have hother : ∀ j x, j ≠ k → (d.setPte k (some { page := mem, u := u })).pte j = some x →
      d.pte j = some x := by
    intro j x hj hx
    simpa only [Pgdir.setPte, if_neg hj] using hx
  have hself : ∀ x, (d.setPte k (some { page := mem, u := u })).pte k = some x → x.page = mem := by
    intro x hx
    simp only [Pgdir.setPte, if_true, Option.some.injEq] at hx
    rw [← hx]
  have hfresh : ∀ j x, j < KERNBASE / PGSIZE → d.pte j = some x → x.page ≠ mem :=
    fun j x hj hx he => h.taken j x hj hx (he ▸ List.mem_cons_self)
  refine ⟨hnodup, fun a ha => h.within a (List.mem_cons_of_mem _ ha), fun j x hj hx => ?_,
    fun j x hj hx => ?_, fun i j x y hi hj hx hy he => ?_, fun j x hj hx => ?_⟩
  · by_cases hjk : j = k
    · subst hjk
      rw [hself x hx]
      exact h.within mem List.mem_cons_self
    · exact h.source j x hj (hother j x hjk hx)
  · by_cases hjk : j = k
    · subst hjk
      rw [hself x hx]
      exact hmem
    · exact fun hm => h.taken j x hj (hother j x hjk hx) (List.mem_cons_of_mem _ hm)
  · by_cases hik : i = k
    · by_cases hjk : j = k
      · rw [hik, hjk]
      · subst hik
        rw [hself x hx] at he
        exact absurd he.symm (hfresh j y hj (hother j y hjk hy))
    · by_cases hjk : j = k
      · subst hjk
        rw [hself y hy] at he
        exact absurd he (hfresh i x hi (hother i x hik hx))
      · exact h.own i j x y hi hj (hother i x hik hx) (hother j y hjk hy) he
  · exact h.kernel j x hj (hother j x (by omega) hx)

/-- A page of the kernel's half. -/
theorem Apart.mapKernel {k pa : Nat} (h : Apart F d s) (hk : KERNBASE / PGSIZE ≤ k) :
    Apart F (d.setPte k (some { page := pa, u := false })) s := by
  have hother : ∀ j x, j < KERNBASE / PGSIZE →
      (d.setPte k (some { page := pa, u := false })).pte j = some x → d.pte j = some x := by
    intro j x hj hx
    simpa only [Pgdir.setPte, if_neg (show j ≠ k by omega)] using hx
  refine ⟨h.nodup, h.within, fun j x hj hx => h.source j x hj (hother j x hj hx),
    fun j x hj hx => h.taken j x hj (hother j x hj hx),
    fun i j x y hi hj hx hy => h.own i j x y hi hj (hother i x hi hx) (hother j y hj hy), fun j x hj hx => ?_⟩
  by_cases hjk : j = k
  · simp only [Pgdir.setPte, hjk, if_true, Option.some.injEq] at hx
    rw [← hx]
  · apply h.kernel j x hj
    simpa only [Pgdir.setPte, if_neg hjk] using hx

/-- `clearpteu` takes the `PTE_U` bit of one page and leaves the frames. -/
theorem Apart.clear {a : Nat} (h : Apart F d s) (he : ∀ k, e.pte k = if k = a then
    (d.pte k).map (fun x => { x with u := false }) else d.pte k) : Apart F e s := by
  have hpage : ∀ k x, e.pte k = some x → ∃ y, d.pte k = some y ∧ y.page = x.page ∧
      (y.u = false → x.u = false) := by
    intro k x hx
    rw [he k] at hx
    split at hx
    · obtain ⟨y, hy, rfl⟩ := Option.map_eq_some_iff.mp hx
      exact ⟨y, hy, rfl, fun _ => rfl⟩
    · exact ⟨x, hx, rfl, id⟩
  refine ⟨h.nodup, h.within, fun k x hk hx => ?_, fun k x hk hx => ?_, fun i j x y hi hj hx hy hxy => ?_,
    fun k x hk hx => ?_⟩
  · obtain ⟨y, hy, hp, -⟩ := hpage k x hx
    exact hp ▸ h.source k y hk hy
  · obtain ⟨y, hy, hp, -⟩ := hpage k x hx
    exact hp ▸ h.taken k y hk hy
  · obtain ⟨x', hx', hp, -⟩ := hpage i x hx
    obtain ⟨y', hy', hp', -⟩ := hpage j y hy
    exact h.own i j x' y' hi hj hx' hy' (by rw [hp, hp', hxy])
  · obtain ⟨y, hy, -, hu⟩ := hpage k x hx
    exact hu (h.kernel k y hk hy)

theorem wp_walkpgdir_less (d : Pgdir) (va : Nat) (s : List Nat) : Lib.wp (walkpgdir d va true)
    (fun r t => t.Sublist s ∧ ∀ e, r = some e → ∀ k x, e.pte k = some x → d.pte k = some x)
    (fun _ _ => True) s := by
  unfold walkpgdir
  split
  · refine Lib.wp_pure ⟨List.Sublist.refl s, fun e he k x hx => ?_⟩
    cases he
    exact hx
  · simp only [if_true]
    cases s with
    | nil => exact ⟨List.Sublist.refl _, fun e he => by cases he⟩
    | cons a s =>
      refine ⟨List.sublist_cons_self a s, fun e he k x hx => ?_⟩
      cases he
      simp only [Pgdir.clearTable, Pgdir.setTable] at hx
      split at hx
      · cases hx
      · exact hx

/-- `mappages` of one page of the user part. -/
theorem wp_mapPage_apart {a : Nat} (h : Apart F d (mem :: s)) (ha : a % PGSIZE = 0) (hk : a < KERNBASE) :
    Lib.wp (mappages d a PGSIZE mem true) (fun r t => r.2 = true → Apart F r.1 t) (fun _ _ => True) s := by
  have hone : (a + PGSIZE - 1) / PGSIZE - a / PGSIZE + 1 = 1 := by
    simp only [PGSIZE] at ha ⊢
    omega
  have hbase : a / PGSIZE * PGSIZE = a := by
    simp only [PGSIZE] at ha ⊢
    omega
  have hvpn : vpn a < KERNBASE / PGSIZE := by
    simp only [vpn, u32, PGSIZE, KERNBASE] at hk ⊢
    omega
  rw [mappages, hone, hbase, mapLoop]
  refine Lib.wp.bind (wp_walkpgdir_less d a s) (fun _ _ _ => trivial) (fun r t hr => ?_)
  cases r with
  | none => exact Lib.wp_pure (fun hf => by cases hf)
  | some e =>
    simp only
    split
    · exact Lib.wp_throw trivial
    · have hless : Apart F e (mem :: t) := h.less (hr.2 e rfl) (hr.1.cons_cons mem)
      exact Lib.wp_pure (fun _ => hless.map hvpn)

theorem wp_allocLoop_apart (oldsz newsz : Nat) : ∀ (n a : Nat) (d : Pgdir) (s : List Nat),
    Apart F d s → a % PGSIZE = 0 → a + n * PGSIZE ≤ KERNBASE →
    Lib.wp (allocLoop oldsz newsz n a d) (fun r t => r.2 ≠ 0 → Apart F r.1 t) (fun _ _ => True) s := by
  intro n
  induction n with
  | zero => exact fun a d s h _ _ => Lib.wp_pure (fun _ => h)
  | succ n ih =>
    intro a d s h ha hk
    have hfail : ∀ (x : VmM (Pgdir × Nat)) (f : Pgdir × Nat → VmM (Pgdir × Nat)) (t : List Nat),
        (∀ r t', Lib.wp (f r) (fun r t => r.2 ≠ 0 → Apart F r.1 t) (fun _ _ => True) t') →
        Lib.wp (x >>= f) (fun r t => r.2 ≠ 0 → Apart F r.1 t) (fun _ _ => True) t :=
      fun x f t hf => Lib.wp.bind (wp_any x t) (fun _ _ _ => trivial) (fun r t' _ => hf r t')
    rw [Nat.succ_mul] at hk
    unfold allocLoop
    cases s with
    | nil =>
      refine Lib.wp_bind ?_
      show Lib.wp _ _ _ []
      exact hfail _ _ _ (fun r t' => Lib.wp_pure (fun h0 => absurd rfl h0))
    | cons mem s =>
      refine Lib.wp_bind ?_
      show Lib.wp _ _ _ s
      refine Lib.wp.bind (wp_mapPage_apart h ha (by simp only [PGSIZE] at hk; omega)) (fun _ _ _ => trivial)
        (fun r t hr => ?_)
      obtain ⟨e, ok⟩ := r
      cases ok with
      | true =>
        apply ih _ e t (hr rfl)
        · rw [Nat.add_mod_right, ha]
        · omega
      | false =>
        refine hfail _ _ _ (fun r t' => ?_)
        exact Lib.wp.bind (wp_any _ t') (fun _ _ _ => trivial)
          (fun _ t'' _ => Lib.wp_pure (fun h0 => absurd rfl h0))

theorem wp_allocuvm_apart (h : Apart F d s) (oldsz newsz : Nat) : Lib.wp (allocuvm d oldsz newsz)
    (fun r t => r.2 ≠ 0 → Apart F r.1 t) (fun _ _ => True) s := by
  unfold allocuvm
  split
  · exact Lib.wp_pure (fun h0 => absurd rfl h0)
  · split
    · exact Lib.wp_pure (fun _ => h)
    · rename_i hlt _
      apply wp_allocLoop_apart oldsz newsz _ _ d s h
      · simp only [u32, PGROUNDUP, PGSIZE]
        omega
      · simp only [u32, PGROUNDUP, PGSIZE, KERNBASE] at hlt ⊢
        omega

/-- Mapping the kernel's half takes pages for its tables only. -/
theorem keptHigh_apart : KeptHigh (Apart F) := by
  intro a d s h hv
  refine (wp_walkpgdir_less d a s).mono (fun r t hr e he pa => ?_) (fun _ _ _ => trivial)
  exact (h.less (hr.2 e he) hr.1).mapKernel hv

theorem wp_setupkvm_apart (L : Layout) (hs : s.Nodup) : Lib.wp (setupkvm L)
    (fun r t => ∀ d, r = some d → Apart s d t) (fun _ _ => True) s := by
  apply wp_setupkvm_high keptHigh_apart L
  intro a t ht
  subst ht
  exact ⟨(List.nodup_cons.mp hs).2, fun b hb => List.mem_cons_of_mem _ hb, fun _ _ _ hx => (by cases hx),
    fun _ _ _ hx => (by cases hx), fun _ _ _ _ _ _ hx => (by cases hx), fun _ _ _ hx => (by cases hx)⟩

theorem wp_loadSegments_apart (fs : Files) (ip n off sz : Nat) (h : Apart F d s) :
    Lib.wp (loadSegments fs ip n off d sz) (fun r t => ∀ sz', r.2 = some sz' → Apart F r.1 t)
      (fun _ _ => True) s := by
  apply wp_loadSegments_grow (I := fun d _ t => Apart F d t) _ fs ip n off d sz s h
  exact fun _ sz _ newsz he => wp_allocuvm_apart he sz newsz

end Rules

end Xv6.Vm
