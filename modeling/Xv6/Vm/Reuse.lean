import Mathlib.Data.Fintype.Card
import Xv6.Lib.Run
import Xv6.Vm.Create
import Xv6.Vm.Sbrk

/- The user stacks of the threads of one process, page by page
   (`project2_LWP/proc.c`, `exec.c`). `thread_create`, `thread_exit` and
   `thread_join` run under `ptable.lock`, so a process goes from one state to the
   next in steps of `teamStep`, in any order.

   A slot of `thread[]` gets a stack at most once: `thread_join` moves it to
   `freedustack[]`, and the next thread in the slot takes it from there. So the
   stacks ever allocated are blocks of `1 + stacksize` pages on top of the image,
   one for each slot that has one (`Laid`), and `sz` counts them. -/
namespace Xv6.Vm
open Lwp (PGSIZE KERNBASE PGROUNDUP ThIdx NTHREAD Thread)

/-! ## The address space that exec leaves -/

section Loading

variable {s s' : List Nat} {d : Pgdir}

theorem wp_of_ok {α : Type} {x : VmM α} {a : α} {Q : α → List Nat → Prop}
    {E : String → List Nat → Prop} (h : x s = .ok a s') (hq : Q a s') : Lib.wp x Q E s := by
  unfold Lib.wp
  rw [h]
  exact hq

theorem wp_any {α : Type} (x : VmM α) (s : List Nat) :
    Lib.wp x (fun _ _ => True) (fun _ _ => True) s := by
  unfold Lib.wp
  split <;> trivial

/-- No page of the user part is mapped. -/
def Pgdir.Bare (d : Pgdir) : Prop := d.Tabled ∧ ∀ k, k < KERNBASE / PGSIZE → d.pte k = none

theorem wp_walkpgdir (h : d.Tabled) (va : Nat) : Lib.wp (walkpgdir d va true)
    (fun r _ => ∀ e, r = some e → e.pte = d.pte ∧ e.Tabled ∧ e.has (PDX va) = true)
    (fun _ _ => True) s := by
  unfold walkpgdir
  split
  · rename_i a ha
    refine Lib.wp_pure (fun e he => ?_)
    cases he
    exact ⟨rfl, h, by simp [Pgdir.has, ha]⟩
  · rename_i hnone
    have hno : d.has (PDX va) = false := by simp [Pgdir.has, hnone]
    simp only [if_true]
    refine Lib.wp.bind (wp_any kalloc s) (fun _ _ _ => trivial) (fun r t _ => ?_)
    cases r with
    | none => exact Lib.wp_pure (fun e he => by cases he)
    | some a =>
      refine Lib.wp_pure (fun e he => ?_)
      cases he
      have hpte := Pgdir.pte_newTable h hno a
      have hhas := Pgdir.has_newTable d (PDX va) a
      refine ⟨hpte, h.of_eq hpte (fun j hj => ?_), ?_⟩
      · rw [hhas]
        simp [hj]
      · rw [hhas]
        simp

/-- What a step of `mappages` keeps in the kernel's half, `mappages` keeps. -/
def KeptHigh (I : Pgdir → List Nat → Prop) : Prop :=
  ∀ (a : Nat) (d : Pgdir) (s : List Nat), I d s → KERNBASE / PGSIZE ≤ vpn a →
    Lib.wp (walkpgdir d a true)
      (fun r t => ∀ e, r = some e → ∀ pa, I (e.setPte (vpn a) (some { page := pa, u := false })) t)
      (fun _ _ => True) s

theorem wp_mapLoop_high {I : Pgdir → List Nat → Prop} (hI : KeptHigh I) : ∀ (n a pa : Nat) (d : Pgdir)
    (s : List Nat), I d s → (∀ k, k < n → KERNBASE / PGSIZE ≤ vpn (a + k * PGSIZE)) →
    Lib.wp (mapLoop false n a pa d) (fun r t => r.2 = true → I r.1 t) (fun _ _ => True) s := by
  intro n
  induction n with
  | zero => exact fun a pa d s h _ => Lib.wp_pure (fun _ => h)
  | succ n ih =>
    intro a pa d s h hv
    have hv0 := hv 0 (Nat.succ_pos n)
    rw [Nat.zero_mul, Nat.add_zero] at hv0
    unfold mapLoop
    refine Lib.wp.bind (hI a d s h hv0) (fun _ _ _ => trivial) (fun r t hr => ?_)
    cases r with
    | none => exact Lib.wp_pure (fun hf => by cases hf)
    | some e =>
      simp only
      split
      · exact Lib.wp_throw trivial
      · apply ih
        · exact hr e rfl pa
        · intro k hk
          have hk1 := hv (k + 1) (by omega)
          rw [Nat.succ_mul, Nat.add_comm (k * PGSIZE) PGSIZE, ← Nat.add_assoc] at hk1
          exact hk1

theorem wp_mapKernel_high {I : Pgdir → List Nat → Prop} (hI : KeptHigh I) :
    ∀ (ks : List (Nat × Nat × Nat)) (d : Pgdir) (s : List Nat), I d s →
    (∀ k ∈ ks, KERNBASE ≤ k.1 ∧ 0 < k.2.2 ∧ k.1 + k.2.2 ≤ 2 ^ 32) →
    Lib.wp (mapKernel ks d) (fun r t => r.2 = true → I r.1 t) (fun _ _ => True) s := by
  intro ks
  induction ks with
  | nil => exact fun d s h _ => Lib.wp_pure (fun _ => h)
  | cons k ks ih =>
    intro d s h hk
    obtain ⟨h1, h2, h3⟩ := hk k List.mem_cons_self
    have hmap : Lib.wp (mappages d k.1 k.2.2 k.2.1 false) (fun r t => r.2 = true → I r.1 t)
        (fun _ _ => True) s := by
      unfold mappages
      apply wp_mapLoop_high hI _ _ _ _ _ h
      intro j hj
      simp only [vpn, u32, KERNBASE, PGSIZE] at h1 h3 hj ⊢
      omega
    unfold mapKernel
    refine Lib.wp.bind hmap (fun _ _ _ => trivial) (fun r t hr => ?_)
    obtain ⟨e, ok⟩ := r
    cases ok with
    | true => exact ih e t (hr rfl) (fun k' hk' => hk k' (List.mem_cons_of_mem _ hk'))
    | false => exact Lib.wp_pure (fun hf => by cases hf)

/-- The lines of `kmap[]` are all above the user part. -/
theorem kmap_high (L : Layout) :
    ∀ k ∈ kmap L.data, KERNBASE ≤ k.1 ∧ 0 < k.2.2 ∧ k.1 + k.2.2 ≤ 2 ^ 32 := by
  intro k hk
  have hlow := L.low
  have hhigh := L.high
  simp only [kmap, List.mem_cons, List.not_mem_nil, or_false] at hk
  simp only [KERNLINK, KERNBASE, EXTMEM, PHYSTOP, DEVSPACE] at hlow hhigh hk ⊢
  rcases hk with rfl | rfl | rfl | rfl <;> simp only <;> omega

/-- The directory that `setupkvm` makes, from one that maps nothing. -/
theorem wp_setupkvm_high {I : Pgdir → List Nat → Prop} (hI : KeptHigh I) (L : Layout)
    (hnew : ∀ a t, s = a :: t → I { page := a, table := fun _ => none, pte := fun _ => none } t) :
    Lib.wp (setupkvm L) (fun r t => ∀ d, r = some d → I d t) (fun _ _ => True) s := by
  unfold setupkvm
  cases s with
  | nil =>
    refine Lib.wp_bind ?_
    exact fun d hd => by cases hd
  | cons a s =>
    refine Lib.wp_bind ?_
    show Lib.wp _ _ _ s
    refine Lib.wp.bind (wp_mapKernel_high hI _ _ s (hnew a s rfl) (kmap_high L)) (fun _ _ _ => trivial)
      (fun r t hr => ?_)
    obtain ⟨e, ok⟩ := r
    cases ok with
    | true => exact Lib.wp_pure (fun d hd => by cases hd; exact hr rfl)
    | false =>
      refine Lib.wp.bind (wp_any (freevm e) t) (fun _ _ _ => trivial) (fun _ t _ => ?_)
      exact Lib.wp_pure (fun d hd => by cases hd)

/-- Mapping the kernel's half maps no user page. -/
theorem keptHigh_bare : KeptHigh (fun d _ => d.Bare) := by
  intro a d s h hv
  refine (wp_walkpgdir h.1 a).mono (fun r t hr e he pa => ?_) (fun _ _ _ => trivial)
  obtain ⟨hpte, htab, hhas⟩ := hr e he
  refine ⟨fun k x hx => ?_, fun k hk => ?_⟩
  · simp only [Pgdir.setPte] at hx
    rw [Pgdir.has_setPte]
    split at hx
    · rename_i hk
      rw [hk]
      exact hhas
    · exact htab k x hx
  · simp only [Pgdir.setPte]
    rw [if_neg (by omega), hpte]
    exact h.2 k hk

/-- The directory of `setupkvm` is that of a space of size 0. -/
theorem wp_setupkvm_bare (L : Layout) : Lib.wp (setupkvm L)
    (fun r _ => ∀ d, r = some d → d.Bare) (fun _ _ => True) s :=
  wp_setupkvm_high keptHigh_bare L (fun _ _ _ => ⟨fun _ _ hx => (by cases hx), fun _ _ => rfl⟩)

/-- The pages below `sz` are mapped, and no others of the user part. -/
def Pgdir.Covers (d : Pgdir) (sz : Nat) : Prop := Space.Ok { pgdir := d, sz := sz, limit := 0 }

theorem Pgdir.Bare.covers (h : d.Bare) : d.Covers 0 := by
  have hpages : pagesOf 0 = 0 := by decide
  refine ⟨?_, fun k hk => ?_, fun k _ hk => h.2 k hk, h.1⟩
  · show 0 < KERNBASE
    decide
  · change k < pagesOf 0 at hk
    omega

/-- `allocuvm` from a size on up to which all is mapped. -/
theorem allocuvm_covers {sz : Nat} (h : d.Covers sz) (newsz : Nat) (free : List Nat) :
    ∃ d' r free', allocuvm d sz newsz free = .ok (d', r) free' ∧ (r ≠ 0 →
      r = max sz newsz ∧ newsz < KERNBASE ∧ d'.Covers r ∧
      (∀ j, j < pagesOf sz → d'.pte j = d.pte j) ∧
      ∀ j, pagesOf sz ≤ j → j < pagesOf r → ∃ mem, d'.pte j = some { page := mem, u := true }) := by
  obtain ⟨d', r, free', hr, hyes, hno⟩ := allocuvm_spec h newsz free
  refine ⟨d', r, free', hr, fun hne => ?_⟩
  have hc : CanGrow { pgdir := d, sz := sz, limit := 0 } newsz free := by
    by_contra hc
    exact hne (hno hc).1
  obtain ⟨hmax, htab, hsame, hnew⟩ := hyes hc
  exact ⟨hmax, hc.1, Space.Ok.grown h hc.1 hmax htab hsame hnew, fun j hj => hsame j (.inl hj), hnew⟩

theorem wp_loadLoop_same (fs : Files) (ip : Nat) (d : Pgdir) (addr off sz : Nat) : ∀ (fuel i : Nat)
    (s : List Nat), Lib.wp (loadLoop fs ip d addr off sz fuel i) (fun _ t => t = s) (fun _ _ => True) s := by
  intro fuel
  induction fuel with
  | zero => exact fun _ _ => Lib.wp_pure rfl
  | succ fuel ih =>
    intro i s
    unfold loadLoop
    split
    · split
      · exact Lib.wp_throw trivial
      · split
        · exact ih _ s
        · exact Lib.wp_pure rfl
    · exact Lib.wp_pure rfl

/-- What every `allocuvm` that succeeds keeps, the loop over the segments keeps. -/
theorem wp_loadSegments_grow {I : Pgdir → Nat → List Nat → Prop}
    (hgrow : ∀ d sz s newsz, I d sz s → Lib.wp (allocuvm d sz newsz)
      (fun r t => r.2 ≠ 0 → I r.1 r.2 t) (fun _ _ => True) s)
    (fs : Files) (ip : Nat) : ∀ (n off : Nat) (d : Pgdir) (sz : Nat) (s : List Nat), I d sz s →
    Lib.wp (loadSegments fs ip n off d sz) (fun r t => ∀ sz', r.2 = some sz' → I r.1 sz' t)
      (fun _ _ => True) s := by
  intro n
  induction n with
  | zero =>
    intro off d sz s h
    refine Lib.wp_pure (fun sz' hs => ?_)
    cases hs
    exact h
  | succ n ih =>
    intro off d sz s h
    have hfail : ∀ (e : Pgdir) (t : List Nat), Lib.wp (pure (e, none) : VmM (Pgdir × Option Nat))
        (fun r t => ∀ sz', r.2 = some sz' → I r.1 sz' t) (fun _ _ => True) t :=
      fun e t => Lib.wp_pure (fun sz' hs => by cases hs)
    unfold loadSegments
    split
    · exact hfail d s
    · rename_i bs _
      simp only
      split
      · exact ih _ d sz s h
      · split
        · exact hfail d s
        · split
          · exact hfail d s
          · refine Lib.wp.bind (hgrow d sz s _ h) (fun _ _ _ => trivial) (fun r t hr => ?_)
            obtain ⟨e, sz'⟩ := r
            by_cases h0 : sz' = 0
            · simp only [if_pos h0]
              exact hfail e t
            · simp only [if_neg h0]
              split
              · exact hfail e t
              · refine Lib.wp.bind (wp_loadLoop_same fs ip e _ _ _ _ 0 t) (fun _ _ _ => trivial)
                  (fun ok t' ht => ?_)
                subst ht
                cases ok with
                | true => exact ih _ e sz' t' (hr h0)
                | false => exact hfail e t'

theorem wp_loadSegments_covers (fs : Files) (ip : Nat) (n off : Nat) {sz : Nat} (h : d.Covers sz) :
    Lib.wp (loadSegments fs ip n off d sz)
      (fun r _ => ∀ sz', r.2 = some sz' → r.1.Covers sz') (fun _ _ => True) s := by
  apply wp_loadSegments_grow (I := fun d sz _ => d.Covers sz) _ fs ip n off d sz s h
  intro e sz s newsz he
  obtain ⟨e', r, t, hr, hspec⟩ := allocuvm_covers he newsz s
  exact wp_of_ok hr (fun h0 => (hspec h0).2.2.1)

/-- `clearpteu` changes the `PTE_U` bit of one page and no more. -/
theorem wp_clearpteu (d : Pgdir) (va : Nat) : Lib.wp (clearpteu d va)
    (fun d' _ => d'.has = d.has ∧ ∀ k, d'.pte k = if k = vpn va then
      (d.pte k).map (fun x => { x with u := false }) else d.pte k) (fun _ _ => True) s := by
  unfold clearpteu
  split
  · exact Lib.wp_throw trivial
  · refine Lib.wp_pure ?_
    split
    · rename_i hnone
      refine ⟨rfl, fun k => ?_⟩
      split
      · rename_i hk
        rw [hk, hnone]
        rfl
      · rfl
    · rename_i x hx
      refine ⟨rfl, fun k => ?_⟩
      simp only [Pgdir.setPte]
      split
      · rename_i hk
        rw [hk, hx]
        rfl
      · rfl

theorem Pgdir.Covers.clear {d' : Pgdir} {sz a : Nat} (h : d.Covers sz) (hh : d'.has = d.has)
    (hp : ∀ k, d'.pte k = if k = a then (d.pte k).map (fun x => { x with u := false }) else d.pte k) :
    d'.Covers sz := by
  have hsome : ∀ k, (d'.pte k).isSome = (d.pte k).isSome := by
    intro k
    rw [hp k]
    split
    · simp
    · rfl
  refine ⟨h.size, fun k hk => ?_, fun k h1 h2 => ?_, fun k x hx => ?_⟩
  · show (d'.pte k).isSome
    rw [hsome k]
    exact h.below k hk
  · have hnone : d.pte k = none := h.above k h1 h2
    show d'.pte k = none
    have hk := hsome k
    rw [hnone] at hk
    exact Option.isNone_iff_eq_none.mp (by simpa using hk)
  · show d'.has (k / NPTENTRIES) = true
    have hk : (d.pte k).isSome := by
      rw [← hsome k, hx]
      rfl
    obtain ⟨y, hy⟩ := Option.isSome_iff_exists.mp hk
    rw [hh]
    exact h.tabled k y hy

/-- A user stack of `pages` pages ends at `top`, with its guard page below. -/
structure Guarded (d : Pgdir) (top pages : Nat) : Prop where
  aligned : top % PGSIZE = 0
  room : (1 + pages) * PGSIZE ≤ top
  guard : ∃ x, d.pte (top / PGSIZE - (1 + pages)) = some x ∧ x.u = false
  stack : ∀ k, top / PGSIZE - pages ≤ k → k < top / PGSIZE → ∃ x, d.pte k = some x ∧ x.u = true

theorem Guarded.same {d' : Pgdir} {top pages : Nat} (h : Guarded d top pages)
    (hs : ∀ k, k < top / PGSIZE → d'.pte k = d.pte k) : Guarded d' top pages := by
  have hroom := h.room
  refine ⟨h.aligned, h.room, ?_, fun k h1 h2 => ?_⟩
  · rw [hs _ (by simp only [PGSIZE] at hroom ⊢; omega)]
    exact h.guard
  · rw [hs k h2]
    exact h.stack k h1 h2

/-- The `allocuvm` and `clearpteu` of `exec` and `thread_create`: a stack of `pages`
pages with its guard page, from the page-aligned size `sz` on. -/
theorem stack_block {sz pages : Nat} (h : d.Covers sz) (ha : sz % PGSIZE = 0) (hp : pages ≤ 100)
    (free : List Nat) :
    ∃ d₁ r free', allocuvm d sz (u32 (sz + (1 + pages) * PGSIZE)) free = .ok (d₁, r) free' ∧
      (r ≠ 0 → r = sz + (1 + pages) * PGSIZE ∧ ∀ s, Lib.wp
        (clearpteu d₁ (u32 (2 ^ 32 + r - (1 + pages) * PGSIZE)))
        (fun d' _ => d'.Covers r ∧ Guarded d' r pages ∧ ∀ k, k < pagesOf sz → d'.pte k = d.pte k)
        (fun _ _ => True) s) := by
  have hsize : sz < KERNBASE := h.size
  have hnew : u32 (sz + (1 + pages) * PGSIZE) = sz + (1 + pages) * PGSIZE := by
    simp only [u32, PGSIZE, KERNBASE] at hsize ⊢
    omega
  obtain ⟨d₁, r, free', hr, hspec⟩ := allocuvm_covers h (u32 (sz + (1 + pages) * PGSIZE)) free
  refine ⟨d₁, r, free', hr, fun hne => ?_⟩
  obtain ⟨hmax, hlt, hcov, hsame, hmapped⟩ := hspec hne
  have hrsz : r = sz + (1 + pages) * PGSIZE := by
    rw [hmax, hnew]
    exact max_eq_right (Nat.le_add_right _ _)
  refine ⟨hrsz, fun s => ?_⟩
  have hva : vpn (u32 (2 ^ 32 + r - (1 + pages) * PGSIZE)) = sz / PGSIZE := by
    simp only [vpn, u32, PGSIZE, KERNBASE] at hsize hrsz ⊢
    omega
  have hpages : pagesOf sz = sz / PGSIZE := by
    simp only [pagesOf, PGSIZE] at ha ⊢
    omega
  have hpagesr : pagesOf r = sz / PGSIZE + (1 + pages) := by
    simp only [pagesOf, PGSIZE] at ha hrsz ⊢
    omega
  have hdiv : r / PGSIZE = sz / PGSIZE + (1 + pages) := by
    simp only [PGSIZE] at ha hrsz ⊢
    omega
  refine (wp_clearpteu d₁ _).mono (fun d' t hd => ?_) (fun _ _ _ => trivial)
  obtain ⟨hhas, hpte⟩ := hd
  rw [hva] at hpte
  refine ⟨hcov.clear hhas hpte, ⟨?_, ?_, ?_, fun k h1 h2 => ?_⟩, fun k hk => ?_⟩
  · simp only [PGSIZE] at ha hrsz ⊢
    omega
  · omega
  · -- the guard page is the first one that was mapped
    have hk : r / PGSIZE - (1 + pages) = sz / PGSIZE := by omega
    obtain ⟨mem, hm⟩ := hmapped (sz / PGSIZE) (by omega) (by omega)
    rw [hk, hpte, if_pos rfl, hm]
    exact ⟨_, rfl, rfl⟩
  · obtain ⟨mem, hm⟩ := hmapped k (by omega) (by omega)
    rw [hpte, if_neg (by omega), hm]
    exact ⟨_, rfl, rfl⟩
  · rw [hpte, if_neg (by omega)]
    exact hsame k hk

/-- Up to the end of its last page a space is covered as well. -/
theorem Pgdir.Covers.rounded {sz : Nat} (h : d.Covers sz) (htop : pagesOf sz * PGSIZE < KERNBASE) :
    d.Covers (pagesOf sz * PGSIZE) := by
  have hpages : pagesOf (pagesOf sz * PGSIZE) = pagesOf sz := by
    simp only [pagesOf, PGSIZE]
    omega
  exact ⟨htop, fun k hk => h.below k (hpages ▸ hk), fun k hk => h.above k (hpages ▸ hk), h.tabled⟩

/-- A stack that would not end below the kernel. -/
theorem allocuvm_over {sz pages : Nat} (hsize : sz < KERNBASE) (hp : pages ≤ 100)
    (htop : ¬ pagesOf sz * PGSIZE < KERNBASE) (s : List Nat) :
    allocuvm d (pagesOf sz * PGSIZE) (u32 (pagesOf sz * PGSIZE + (1 + pages) * PGSIZE)) s =
      .ok (d, 0) s := by
  have hbig : u32 (pagesOf sz * PGSIZE + (1 + pages) * PGSIZE) ≥ KERNBASE := by
    simp only [u32, pagesOf, PGSIZE, KERNBASE] at hsize htop ⊢
    omega
  rw [allocuvm, if_pos hbig]
  rfl

/-- The image that `exec` commits to: a space that ends at a page boundary. -/
theorem wp_buildStack {sz pages : Nat} (h : d.Covers sz) (hp : pages ≤ 100)
    (argv : List (List UInt8)) (entry : Nat) : Lib.wp (buildStack pages argv entry d sz)
    (fun r _ => ∀ x, r = some x → x.pgdir.Covers x.sz ∧ x.sz % PGSIZE = 0) (fun _ _ => True) s := by
  have hbad : ∀ (e : Pgdir) (t : List Nat), Lib.wp (bad e)
      (fun r _ => ∀ x, r = some x → x.pgdir.Covers x.sz ∧ x.sz % PGSIZE = 0) (fun _ _ => True) t := by
    intro e t
    refine Lib.wp.bind (wp_any (freevm e) t) (fun _ _ _ => trivial) (fun _ t' _ => ?_)
    exact Lib.wp_pure (fun x hx => by cases hx)
  have hsize : sz < KERNBASE := h.size
  have hup : u32 (PGROUNDUP sz) = pagesOf sz * PGSIZE := by
    simp only [u32, PGROUNDUP, pagesOf, PGSIZE, KERNBASE] at hsize ⊢
    omega
  unfold buildStack
  simp only [hup]
  by_cases htop : pagesOf sz * PGSIZE < KERNBASE
  · obtain ⟨d₁, r, t, hr, hspec⟩ := stack_block (h.rounded htop) (Nat.mul_mod_left _ _) hp s
    refine Lib.wp_bind (wp_of_ok hr ?_)
    by_cases hr0 : r = 0
    · simp only [if_pos hr0]
      exact hbad d₁ t
    · simp only [if_neg hr0]
      obtain ⟨hrsz, hclear⟩ := hspec hr0
      refine Lib.wp.bind (hclear t) (fun _ _ _ => trivial) (fun d₂ t₂ hd₂ => ?_)
      refine Lib.wp.bind (wp_any _ t₂) (fun _ _ _ => trivial) (fun a t₃ _ => ?_)
      cases a with
      | none => exact hbad d₂ t₃
      | some a =>
        refine Lib.wp.bind (wp_any _ t₃) (fun _ _ _ => trivial) (fun ok t₄ _ => ?_)
        cases ok with
        | true =>
          refine Lib.wp_pure (fun x hx => ?_)
          cases hx
          exact ⟨hd₂.1, hd₂.2.1.aligned⟩
        | false => exact hbad d₂ t₄
  · -- the new size would not be below the kernel
    refine Lib.wp_bind (wp_of_ok (allocuvm_over hsize hp htop s) ?_)
    simp only [if_true]
    exact hbad d s

theorem wp_load (L : Layout) (fs : Files) (ip : Nat) {pages : Nat} (hp : pages ≤ 100)
    (argv : List (List UInt8)) : Lib.wp (load L fs ip pages argv)
    (fun r _ => ∀ x, r = some x → x.pgdir.Covers x.sz ∧ x.sz % PGSIZE = 0) (fun _ _ => True) s := by
  have hnone : ∀ t : List Nat, Lib.wp (pure none : VmM (Option Image))
      (fun r _ => ∀ x, r = some x → x.pgdir.Covers x.sz ∧ x.sz % PGSIZE = 0) (fun _ _ => True) t :=
    fun t => Lib.wp_pure (fun x hx => by cases hx)
  unfold load
  split
  · exact hnone s
  · split
    · exact hnone s
    · refine Lib.wp.bind (wp_setupkvm_bare L) (fun _ _ _ => trivial) (fun r t hr => ?_)
      cases r with
      | none => exact hnone t
      | some d =>
        refine Lib.wp.bind (wp_loadSegments_covers fs ip _ _ (hr d rfl).covers)
          (fun _ _ _ => trivial) (fun r t hr => ?_)
        obtain ⟨d', sz⟩ := r
        cases sz with
        | none =>
          refine Lib.wp.bind (wp_any (freevm d') t) (fun _ _ _ => trivial) (fun _ t' _ => hnone t')
        | some sz => exact wp_buildStack (hr sz rfl) hp argv _

/-- A process after a successful `exec` from `p`: its address space ends at a page
boundary, and the slots of `thread[]` other than the caller's are empty. -/
structure Proc.Fresh (p q : Proc) (pages : Nat) : Prop where
  space : q.pgdir.Covers q.sz
  aligned : q.sz % PGSIZE = 0
  stacksize : q.stacksize = pages
  thidx : q.thidx = p.thidx
  freed : ∀ i, i ≠ p.thidx → q.freedustack i = 0
  thread : ∀ i, i ≠ p.thidx → q.thread i = {}
  own : q.freedustack p.thidx = p.freedustack p.thidx ∧
    (q.thread p.thidx).ustack = (p.thread p.thidx).ustack ∧
    (q.thread p.thidx).state = .RUNNING

theorem wp_execWith_fresh (L : Layout) (fs : Files) {pages : Nat} (hp : pages ≤ 100) (path : List UInt8)
    (argv : List (List UInt8)) (p : Proc) : Lib.wp (execWith L fs pages path argv p)
    (fun r _ => r.2 = 0 → p.Fresh r.1 pages) (fun _ _ => True) s := by
  have hfail : ∀ (q : Proc) (t : List Nat), Lib.wp (pure (q, -1) : VmM (Proc × Int))
      (fun r _ => r.2 = 0 → p.Fresh r.1 pages) (fun _ _ => True) t :=
    fun q t => Lib.wp_pure (fun h => absurd (show (-1 : Int) = 0 from h) (by decide))
  unfold execWith
  refine Lib.wp.bind (wp_clearThreads p s) (fun _ _ _ => trivial) (fun q t hq => ?_)
  obtain ⟨hclear, -⟩ := hq
  have hth : q.thidx = p.thidx := by rw [hclear.rest]
  split
  · exact hfail q t
  · refine Lib.wp.bind (wp_load L fs _ hp argv) (fun _ _ _ => trivial) (fun r t hr => ?_)
    cases r with
    | none => exact hfail q t
    | some x =>
      simp only
      split
      · exact Lib.wp_throw trivial
      · obtain ⟨hcov, halign⟩ := hr x rfl
        refine Lib.wp.bind (wp_any (freevm q.pgdir) t) (fun _ _ _ => trivial) (fun _ t' _ => ?_)
        refine Lib.wp_pure (fun _ => ?_)
        refine ⟨hcov, halign, rfl, hth, fun i hi => ?_, fun i hi => ?_, ?_, ?_, ?_⟩
        · show q.freedustack i = 0
          rw [hclear.freed i, if_pos ⟨List.mem_finRange i, hi⟩]
        · show (if i = q.thidx then _ else q.thread i) = _
          rw [hth, if_neg hi, hclear.thread i, if_pos ⟨List.mem_finRange i, hi⟩]
        · show q.freedustack p.thidx = _
          rw [hclear.freed, if_neg (fun h => h.2 rfl)]
        · show (if p.thidx = q.thidx then { q.thread q.thidx with state := .RUNNING } else _).ustack = _
          rw [hth, if_pos rfl]
          show (q.thread p.thidx).ustack = _
          rw [hclear.thread, if_neg (fun h => h.2 rfl)]
        · show (if p.thidx = q.thidx then { q.thread q.thidx with state := .RUNNING } else _).state = _
          rw [hth, if_pos rfl]

end Loading

/-! ## Threads -/

/-- The number of threads that are neither free nor zombies. -/
def Proc.countth (p : Proc) : Nat :=
  (List.finRange NTHREAD).countP (fun i =>
    (p.thread i).state ≠ .UNUSED ∧ (p.thread i).state ≠ .ZOMBIE)

/-- `thread_exit` by thread `j`; the only live thread is not left a zombie. -/
def Proc.threadExit (p : Proc) (j : ThIdx) (retval : Nat) : Proc :=
  if (p.setThread j { p.thread j with state := .ZOMBIE }).countth = 0 then
    p.setThread j { p.thread j with state := .RUNNABLE, retval := retval }
  else p.setThread j { p.thread j with state := .ZOMBIE, retval := retval }

/-- `freeustack`: the stack of slot `i` becomes the freed stack of slot `i`. -/
def Proc.freeustack (p : Proc) (i : ThIdx) : Proc :=
  (p.setFreed i (p.thread i).ustack).setThread i { p.thread i with ustack := 0 }

/-- What `thread_join` does to the zombie in slot `j`. -/
def Proc.joinReap (p : Proc) (j : ThIdx) : Proc :=
  let p := p.setThread j { p.thread j with
    tid := 0, kstack := 0, state := .UNUSED, tf := 0, context := 0, chan := none }
  let p := p.freeustack j
  p.setThread j { p.thread j with retval := 0 }

/-- A process, the next tid, the free pages, and which slots hold a thread that
`thread_create` has made. -/
structure Team where
  proc : Proc
  nexttid : Nat
  free : List Nat
  created : ThIdx → Bool

/-- What happens to a process between two sections under the lock. `switch`: the
scheduler, `sleep` or a wakeup changes the state of a thread; `others`: the other
processes take tids and take or free pages. -/
inductive TeamAct where
  | threadCreate
  | threadExit (j : ThIdx) (retval : Nat)
  | threadJoin (j : ThIdx)
  | switch (j : ThIdx) (state : ProcState)
  | others (nexttid : Nat) (free : List Nat)

/-- A thread that the scheduler or a wakeup can be about. -/
def Scheduled (st : ProcState) : Prop := st = .RUNNABLE ∨ st = .RUNNING ∨ st = .SLEEPING

instance Scheduled.decidable (st : ProcState) : Decidable (Scheduled st) :=
  inferInstanceAs (Decidable (_ ∨ _ ∨ _))

/-- One step; `thread_create` is one that succeeds. -/
def teamStep (t : Team) : TeamAct → Option Team
  | .threadCreate =>
    match threadCreate t.nexttid t.proc t.free with
    | .ok (p, r) free =>
      if r = 0 then
        some { proc := p, nexttid := t.nexttid + 1, free := free
               created := fun i => t.created i ||
                 ((t.proc.thread i).state = .UNUSED && (p.thread i).state ≠ .UNUSED) }
      else none
    | .error _ _ => none
  | .threadExit j retval =>
    if (t.proc.thread j).state = .RUNNING then some { t with proc := t.proc.threadExit j retval }
    else none
  | .threadJoin j =>
    if (t.proc.thread j).state = .ZOMBIE then
      some { t with
        proc := t.proc.joinReap j
        free := if (t.proc.thread j).kstack ≠ 0 then (t.proc.thread j).kstack :: t.free else t.free
        created := fun i => if i = j then false else t.created i }
    else none
  | .switch j st =>
    if Scheduled (t.proc.thread j).state ∧ Scheduled st then
      some { t with proc := t.proc.setThread j { t.proc.thread j with state := st } }
    else none
  | .others nexttid free => some { t with nexttid := nexttid, free := free }

/-! ## One thread_create -/

section Create

variable {s : List Nat} {p : Proc} {j : ThIdx}

/-- The new thread is in slot `j`, the first free one, with the stack that ends at `top`. -/
structure Proc.Started (p q : Proc) (j : ThIdx) (top : Nat) : Prop where
  unused : (p.thread j).state = .UNUSED
  first : ∀ i, i < j → (p.thread i).state ≠ .UNUSED
  state : (q.thread j).state = .RUNNABLE
  ustack : (q.thread j).ustack = top
  freed : q.freedustack j = 0
  stacksize : q.stacksize = p.stacksize
  thread : ∀ i, i ≠ j → q.thread i = p.thread i
  other : ∀ i, i ≠ j → q.freedustack i = p.freedustack i

theorem Proc.allocth_first {n : Nat} {q : Proc} (h : p.allocth n = some (j, q)) {i : ThIdx}
    (hi : i < j) : (p.thread i).state ≠ .UNUSED := by
  unfold Proc.allocth at h
  split at h
  · cases h
  · rename_i k hk
    cases h
    obtain ⟨-, m, hm, hget, hall⟩ := List.find?_eq_some_iff_getElem.mp hk
    have hmj : m = j.val := by
      rw [← hget]
      simp
    have := hall i.val (by rw [hmj]; exact hi)
    simpa using this

theorem wp_finish_run (p : Proc) (j : ThIdx) (top sz : Nat) : Lib.wp (p.finish j top sz)
    (fun r _ => r.2 = 0 → r.1 =
      { p with sz := sz }.setThread j { p.thread j with ustack := top, state := .RUNNABLE })
    (fun _ _ => True) s := by
  unfold Proc.finish
  refine Lib.wp.bind (wp_any _ s) (fun _ _ _ => trivial) (fun ok t _ => ?_)
  cases ok with
  | true => exact Lib.wp_pure (fun _ => rfl)
  | false =>
    refine Lib.wp.bind (wp_any (freevm p.pgdir) t) (fun _ _ _ => trivial) (fun _ t' _ => ?_)
    exact Lib.wp_pure (fun h => absurd (show (-1 : Int) = 0 from h) (by decide))

/-- A `thread_create` that succeeds takes the freed stack of its slot, or puts a
new block on top of the address space. -/
theorem wp_threadCreate (n : Nat) (h : p.pgdir.Covers p.sz) (ha : p.sz % PGSIZE = 0)
    (hp : p.stacksize ≤ 100) : Lib.wp (threadCreate n p)
    (fun r _ => r.2 = 0 → ∃ j top, p.Started r.1 j top ∧
      ((p.freedustack j ≠ 0 ∧ top = p.freedustack j ∧ r.1.pgdir = p.pgdir ∧ r.1.sz = p.sz) ∨
       (p.freedustack j = 0 ∧ top = p.sz + (1 + p.stacksize) * PGSIZE ∧ r.1.sz = top ∧
        r.1.pgdir.Covers top ∧ Guarded r.1.pgdir top p.stacksize ∧
        ∀ k, k < pagesOf p.sz → r.1.pgdir.pte k = p.pgdir.pte k)))
    (fun _ _ => True) s := by
  have hsize : p.sz < KERNBASE := h.size
  have hup : u32 (PGROUNDUP p.sz) = p.sz := by
    simp only [u32, PGROUNDUP, PGSIZE, KERNBASE] at ha hsize ⊢
    omega
  unfold threadCreate
  split
  · exact Lib.wp_pure (fun h => absurd (show (-1 : Int) = 0 from h) (by decide))
  · rename_i j q hq
    have hfirst : ∀ i, i < j → (p.thread i).state ≠ .UNUSED := fun i hi => Proc.allocth_first hq hi
    obtain ⟨hun, rfl⟩ := Proc.allocth_some hq
    refine Lib.wp.bind (wp_any kalloc s) (fun _ _ _ => trivial) (fun r t _ => ?_)
    cases r with
    | none => exact Lib.wp_pure (fun h => absurd (show (-1 : Int) = 0 from h) (by decide))
    | some a =>
      simp only
      unfold Proc.userStack
      simp only [Proc.kernelStack, Proc.setThread, hup]
      split
      · -- the freed stack of the slot
        rename_i hf
        refine (wp_finish_run _ j _ _).mono (fun r _ hr h0 => ?_) (fun _ _ _ => trivial)
        refine ⟨j, p.freedustack j, ?_, .inl ⟨hf, rfl, ?_, ?_⟩⟩
        · rw [hr h0]
          refine ⟨hun, hfirst, ?_, ?_, ?_, rfl, fun i hi => ?_, fun i hi => ?_⟩
          · simp [Proc.setThread]
          · simp [Proc.setThread]
          · simp [Proc.setThread, Proc.setFreed]
          · simp [Proc.setThread, Proc.setFreed, hi]
          · simp [Proc.setThread, Proc.setFreed, hi]
        · rw [hr h0]
          rfl
        · rw [hr h0]
          rfl
      · rename_i hf
        have hf0 : p.freedustack j = 0 := not_not.mp hf
        obtain ⟨d₁, r, t', hr, hspec⟩ := stack_block h ha hp t
        refine Lib.wp_bind (wp_of_ok hr ?_)
        by_cases hr0 : r = 0
        · simp only [if_pos hr0]
          refine Lib.wp.bind (wp_any _ t') (fun _ _ _ => trivial) (fun _ _ _ => ?_)
          exact Lib.wp_pure (fun h => absurd (show (-1 : Int) = 0 from h) (by decide))
        · simp only [if_neg hr0]
          obtain ⟨hrsz, hclear⟩ := hspec hr0
          refine Lib.wp.bind (hclear t') (fun _ _ _ => trivial) (fun d₂ t₂ hd₂ => ?_)
          refine (wp_finish_run _ j _ _).mono (fun x _ hx h0 => ?_) (fun _ _ _ => trivial)
          refine ⟨j, r, ?_, .inr ⟨hf0, hrsz, ?_, ?_, ?_, ?_⟩⟩
          · rw [hx h0]
            refine ⟨hun, hfirst, ?_, ?_, hf0, rfl, fun i hi => ?_, fun i hi => rfl⟩
            · simp [Proc.setThread]
            · simp [Proc.setThread]
            · simp [Proc.setThread, hi]
          · rw [hx h0]
            rfl
          · rw [hx h0]
            exact hd₂.1
          · rw [hx h0]
            exact hd₂.2.1
          · rw [hx h0]
            exact hd₂.2.2

end Create

/-! ## The invariant -/

/-- The stack that slot `i` stands for, or 0. -/
def Proc.record (p : Proc) (i : ThIdx) : Nat :=
  if p.freedustack i ≠ 0 then p.freedustack i else (p.thread i).ustack

/-- The slots that have got a stack. -/
def Proc.owners (p : Proc) : Finset ThIdx := Finset.univ.filter (fun i => p.record i ≠ 0)

/-- The size of a stack with its guard page. -/
def blockSize (pages : Nat) : Nat := (1 + pages) * PGSIZE

/-- The stacks lie in blocks behind each other on top of an image of `base` bytes,
one for each slot that has a stack, and `sz` is where the last one ends. -/
structure Laid (base pages : Nat) (t : Team) : Prop where
  space : t.proc.pgdir.Covers t.proc.sz
  stacksize : t.proc.stacksize = pages
  size : t.proc.sz = base + t.proc.owners.card * blockSize pages
  block : ∀ i, t.proc.record i ≠ 0 →
    ∃ k, k < t.proc.owners.card ∧ t.proc.record i = base + (k + 1) * blockSize pages
  distinct : ∀ i j, i ≠ j → t.proc.record i ≠ 0 → t.proc.record i ≠ t.proc.record j
  guarded : ∀ i, t.proc.record i ≠ 0 → Guarded t.proc.pgdir (t.proc.record i) pages
  unused : ∀ i, (t.proc.thread i).state = .UNUSED → (t.proc.thread i).ustack = 0
  used : ∀ i, t.proc.freedustack i ≠ 0 → (t.proc.thread i).state = .UNUSED
  created : ∀ i, t.created i = true →
    (t.proc.thread i).state ≠ .UNUSED ∧ (t.proc.thread i).ustack ≠ 0

section Steps

variable {base pages : Nat} {t t' : Team}

theorem Proc.record_of_freed {p : Proc} {i : ThIdx} (h : p.freedustack i = 0) :
    p.record i = (p.thread i).ustack := by
  simp [Proc.record, h]

/-- A slot with a thread has no freed stack. -/
theorem Laid.freed (h : Laid base pages t) {i : ThIdx} (hi : (t.proc.thread i).state ≠ .UNUSED) :
    t.proc.freedustack i = 0 := by
  by_contra hf
  exact hi (h.used i hf)

/-- No stack is new, and the address space is the same. -/
theorem Laid.keep (h : Laid base pages t) (hr : ∀ i, t'.proc.record i = t.proc.record i)
    (hd : t'.proc.pgdir = t.proc.pgdir) (hs : t'.proc.sz = t.proc.sz)
    (hp : t'.proc.stacksize = t.proc.stacksize)
    (hun : ∀ i, (t'.proc.thread i).state = .UNUSED → (t'.proc.thread i).ustack = 0)
    (hus : ∀ i, t'.proc.freedustack i ≠ 0 → (t'.proc.thread i).state = .UNUSED)
    (hcr : ∀ i, t'.created i = true →
      (t'.proc.thread i).state ≠ .UNUSED ∧ (t'.proc.thread i).ustack ≠ 0) : Laid base pages t' := by
  have howners : t'.proc.owners = t.proc.owners := by
    simp only [Proc.owners, hr]
  refine ⟨?_, hp.trans h.stacksize, ?_, fun i hi => ?_, fun i j hij hi => ?_, fun i hi => ?_,
    hun, hus, hcr⟩
  · rw [hd, hs]
    exact h.space
  · rw [hs, howners]
    exact h.size
  · rw [howners, hr i]
    exact h.block i (hr i ▸ hi)
  · rw [hr i, hr j]
    exact h.distinct i j hij (hr i ▸ hi)
  · rw [hd, hr i]
    exact h.guarded i (hr i ▸ hi)

/-- A thread changes its state, but its slot is not given up. -/
theorem Laid.setThread (h : Laid base pages t) {j : ThIdx} {th : Thread}
    (hj : (t.proc.thread j).state ≠ .UNUSED) (hst : th.state ≠ .UNUSED)
    (hu : th.ustack = (t.proc.thread j).ustack) :
    Laid base pages { t with proc := t.proc.setThread j th } := by
  have hth : ∀ i, (t.proc.setThread j th).thread i = if i = j then th else t.proc.thread i :=
    fun _ => rfl
  have hust : ∀ i, ((t.proc.setThread j th).thread i).ustack = (t.proc.thread i).ustack := by
    intro i
    rw [hth i]
    split
    · rename_i hi
      rw [hu, hi]
    · rfl
  have hstate : ∀ i, ((t.proc.setThread j th).thread i).state = .UNUSED ↔
      (t.proc.thread i).state = .UNUSED := by
    intro i
    rw [hth i]
    split
    · rename_i hi
      rw [hi]
      exact ⟨fun he => absurd he hst, fun he => absurd he hj⟩
    · exact Iff.rfl
  refine h.keep (fun i => ?_) rfl rfl rfl (fun i hi => ?_) (fun i hi => ?_) (fun i hi => ?_)
  · show (if t.proc.freedustack i ≠ 0 then _ else ((t.proc.setThread j th).thread i).ustack) = _
    rw [hust i]
    rfl
  · rw [hust i]
    exact h.unused i ((hstate i).mp hi)
  · exact (hstate i).mpr (h.used i hi)
  · obtain ⟨h1, h2⟩ := h.created i hi
    exact ⟨fun he => h1 ((hstate i).mp he), by rw [hust i]; exact h2⟩

/-- The stack of a joined thread becomes the freed stack of its slot. -/
theorem Laid.joinReap (h : Laid base pages t) {j : ThIdx} (hj : (t.proc.thread j).state = .ZOMBIE)
    (free : List Nat) :
    Laid base pages { t with
      proc := t.proc.joinReap j, free := free
      created := fun i => if i = j then false else t.created i } := by
  have hf : t.proc.freedustack j = 0 := h.freed (by simp [hj])
  have hother : ∀ i, i ≠ j → (t.proc.joinReap j).thread i = t.proc.thread i ∧
      (t.proc.joinReap j).freedustack i = t.proc.freedustack i := by
    intro i hi
    simp [Proc.joinReap, Proc.freeustack, Proc.setThread, Proc.setFreed, hi]
  have hself : ((t.proc.joinReap j).thread j).state = .UNUSED ∧
      ((t.proc.joinReap j).thread j).ustack = 0 ∧
      (t.proc.joinReap j).freedustack j = (t.proc.thread j).ustack := by
    simp [Proc.joinReap, Proc.freeustack, Proc.setThread, Proc.setFreed]
  refine h.keep (fun i => ?_) rfl rfl rfl (fun i hi => ?_) (fun i hi => ?_) (fun i hi => ?_)
  · show (t.proc.joinReap j).record i = t.proc.record i
    by_cases hij : i = j
    · subst hij
      rw [Proc.record_of_freed hf, Proc.record, hself.2.1, hself.2.2]
      split
      · rfl
      · rename_i h0
        exact (not_not.mp h0).symm
    · simp only [Proc.record, (hother i hij).1, (hother i hij).2]
  · change ((t.proc.joinReap j).thread i).state = .UNUSED at hi
    show ((t.proc.joinReap j).thread i).ustack = 0
    by_cases hij : i = j
    · rw [hij]
      exact hself.2.1
    · rw [(hother i hij).1] at hi ⊢
      exact h.unused i hi
  · change (t.proc.joinReap j).freedustack i ≠ 0 at hi
    show ((t.proc.joinReap j).thread i).state = .UNUSED
    by_cases hij : i = j
    · rw [hij]
      exact hself.1
    · rw [(hother i hij).2] at hi
      rw [(hother i hij).1]
      exact h.used i hi
  · change (if i = j then false else t.created i) = true at hi
    show ((t.proc.joinReap j).thread i).state ≠ .UNUSED ∧ ((t.proc.joinReap j).thread i).ustack ≠ 0
    by_cases hij : i = j
    · rw [if_pos hij] at hi
      cases hi
    · rw [if_neg hij] at hi
      rw [(hother i hij).1]
      exact h.created i hi

/-- The slots with a thread that `thread_create` has made, after one more. -/
theorem Laid.created_started (h : Laid base pages t) {q : Proc} {j : ThIdx} {top : Nat}
    (hq : t.proc.Started q j top) (htop : top ≠ 0) (i : ThIdx)
    (hi : (t.created i || ((t.proc.thread i).state = .UNUSED && (q.thread i).state ≠ .UNUSED)) = true) :
    (q.thread i).state ≠ .UNUSED ∧ (q.thread i).ustack ≠ 0 := by
  by_cases hij : i = j
  · rw [hij, hq.state, hq.ustack]
    exact ⟨by decide, htop⟩
  · rw [hq.thread i hij] at hi ⊢
    rcases (Bool.or_eq_true _ _).mp hi with hc | hc
    · exact h.created i hc
    · obtain ⟨h1, h2⟩ := (Bool.and_eq_true _ _).mp hc
      exact absurd (of_decide_eq_true h1) (of_decide_eq_true h2)

theorem Laid.started (h : Laid base pages t) {q : Proc} {j : ThIdx} {top : Nat}
    (hq : t.proc.Started q j top) :
    (∀ i, i ≠ j → q.record i = t.proc.record i) ∧ q.record j = top ∧
    (∀ i, (q.thread i).state = .UNUSED → (q.thread i).ustack = 0) ∧
    (∀ i, q.freedustack i ≠ 0 → (q.thread i).state = .UNUSED) := by
  refine ⟨fun i hi => ?_, ?_, fun i hi => ?_, fun i hi => ?_⟩
  · simp only [Proc.record, hq.thread i hi, hq.other i hi]
  · rw [Proc.record_of_freed hq.freed, hq.ustack]
  · by_cases hij : i = j
    · rw [hij, hq.state] at hi
      cases hi
    · rw [hq.thread i hij] at hi ⊢
      exact h.unused i hi
  · by_cases hij : i = j
    · rw [hij] at hi
      exact absurd hq.freed hi
    · rw [hq.other i hij] at hi
      rw [hq.thread i hij]
      exact h.used i hi

/-- The thread gets the stack that its slot has got before. -/
theorem Laid.reuse (h : Laid base pages t) {q : Proc} {j : ThIdx} {n : Nat} {free : List Nat}
    (hq : t.proc.Started q j (t.proc.freedustack j)) (hf : t.proc.freedustack j ≠ 0)
    (hd : q.pgdir = t.proc.pgdir) (hs : q.sz = t.proc.sz) :
    Laid base pages { proc := q, nexttid := n, free := free
                      created := fun i => t.created i ||
                        ((t.proc.thread i).state = .UNUSED && (q.thread i).state ≠ .UNUSED) } := by
  obtain ⟨hrec, hrecj, hun, hus⟩ := h.started hq
  refine h.keep (fun i => ?_) hd hs hq.stacksize hun hus (h.created_started hq hf)
  by_cases hij : i = j
  · rw [hij]
    show q.record j = t.proc.record j
    rw [hrecj, Proc.record, if_pos hf]
  · exact hrec i hij

/-- The thread gets a new block, the first one of its slot. -/
theorem Laid.grow (h : Laid base pages t) {q : Proc} {j : ThIdx} {n : Nat} {free : List Nat}
    (hq : t.proc.Started q j (t.proc.sz + blockSize pages)) (hf : t.proc.freedustack j = 0)
    (hs : q.sz = t.proc.sz + blockSize pages) (hc : q.pgdir.Covers (t.proc.sz + blockSize pages))
    (hg : Guarded q.pgdir (t.proc.sz + blockSize pages) pages)
    (hsame : ∀ k, k < pagesOf t.proc.sz → q.pgdir.pte k = t.proc.pgdir.pte k) :
    Laid base pages { proc := q, nexttid := n, free := free
                      created := fun i => t.created i ||
                        ((t.proc.thread i).state = .UNUSED && (q.thread i).state ≠ .UNUSED) } := by
  obtain ⟨hrec, hrecj, hun, hus⟩ := h.started hq
  have hpos : 0 < blockSize pages := Nat.mul_pos (by omega) (by decide)
  have hold : t.proc.record j = 0 := by
    rw [Proc.record_of_freed hf]
    exact h.unused j hq.unused
  have howners : q.owners = insert j t.proc.owners := by
    ext i
    simp only [Proc.owners, Finset.mem_filter, Finset.mem_univ, true_and, Finset.mem_insert]
    by_cases hij : i = j
    · rw [hij, hrecj]
      simp only [true_or, iff_true]
      omega
    · rw [hrec i hij]
      simp [hij]
  have hcard : q.owners.card = t.proc.owners.card + 1 := by
    rw [howners]
    apply Finset.card_insert_of_notMem
    simp [Proc.owners, hold]
  have hsize := h.size
  -- the blocks that are there end at `sz` or below
  have hle : ∀ i, t.proc.record i ≠ 0 → t.proc.record i ≤ t.proc.sz := by
    intro i hi
    obtain ⟨k, hk, hkr⟩ := h.block i hi
    rw [hkr, hsize]
    exact Nat.add_le_add_left (Nat.mul_le_mul_right _ hk) _
  refine ⟨?_, hq.stacksize.trans h.stacksize, ?_, fun i hi => ?_, fun i k hik hi => ?_,
    fun i hi => ?_, hun, hus, h.created_started hq (by omega)⟩
  · show q.pgdir.Covers q.sz
    rw [hs]
    exact hc
  · show q.sz = base + q.owners.card * blockSize pages
    rw [hs, hcard, hsize, Nat.succ_mul, Nat.add_assoc]
  · change q.record i ≠ 0 at hi
    show ∃ k, k < q.owners.card ∧ q.record i = base + (k + 1) * blockSize pages
    rw [hcard]
    by_cases hij : i = j
    · refine ⟨t.proc.owners.card, Nat.lt_succ_self _, ?_⟩
      rw [hij, hrecj, hsize, Nat.succ_mul, Nat.add_assoc]
    · rw [hrec i hij] at hi ⊢
      obtain ⟨k, hk, hkr⟩ := h.block i hi
      exact ⟨k, Nat.lt_succ_of_lt hk, hkr⟩
  · change q.record i ≠ 0 at hi
    show q.record i ≠ q.record k
    by_cases hij : i = j
    · rw [hij, hrecj, hrec k (fun he => hik (hij.trans he.symm))]
      by_cases hk : t.proc.record k = 0
      · omega
      · have := hle k hk
        omega
    · rw [hrec i hij] at hi ⊢
      have hlei := hle i hi
      by_cases hkj : k = j
      · rw [hkj, hrecj]
        omega
      · rw [hrec k hkj]
        exact h.distinct i k hik hi
  · change q.record i ≠ 0 at hi
    show Guarded q.pgdir (q.record i) pages
    by_cases hij : i = j
    · rw [hij, hrecj]
      exact hg
    · rw [hrec i hij] at hi ⊢
      have hlei := hle i hi
      refine (h.guarded i hi).same (fun k hk => hsame k ?_)
      refine lt_of_lt_of_le hk ?_
      simp only [pagesOf, PGSIZE]
      omega

theorem Laid.step (h : Laid base pages t) (ha : base % PGSIZE = 0) (hp : pages ≤ 100) {a : TeamAct}
    (hs : teamStep t a = some t') : Laid base pages t' := by
  cases a with
  | threadCreate =>
    simp only [teamStep] at hs
    split at hs
    · rename_i q r free hrun
      split_ifs at hs with hr
      cases hs
      have halign : t.proc.sz % PGSIZE = 0 := by
        rw [h.size, blockSize, ← Nat.mul_assoc, Nat.add_mul_mod_self_right]
        exact ha
      have hstack := h.stacksize
      obtain ⟨j, top, hq, hcase⟩ :=
        (wp_threadCreate t.nexttid h.space halign (hstack ▸ hp)).ok hrun hr
      rcases hcase with ⟨hf, rfl, hd, hsz⟩ | ⟨hf, rfl, hsz, hc, hg, hsame⟩
      · exact h.reuse hq hf hd hsz
      · rw [hstack] at hq hsz hc hg
        exact h.grow hq hf hsz hc hg hsame
    · cases hs
  | threadExit j retval =>
    simp only [teamStep] at hs
    split_ifs at hs with hj
    cases hs
    have hne : (t.proc.thread j).state ≠ .UNUSED := by simp [hj]
    unfold Proc.threadExit
    split
    · exact h.setThread hne (by simp) rfl
    · exact h.setThread hne (by simp) rfl
  | threadJoin j =>
    simp only [teamStep] at hs
    split_ifs at hs with hj
    · cases hs
      exact h.joinReap hj _
    · cases hs
      exact h.joinReap hj _
  | switch j st =>
    simp only [teamStep] at hs
    split_ifs at hs with hj
    cases hs
    have hlive : ∀ st : ProcState, Scheduled st → st ≠ .UNUSED := by
      intro st hst he
      rw [he] at hst
      revert hst
      decide
    exact h.setThread (hlive _ hj.1) (hlive _ hj.2) rfl
  | others nexttid free =>
    simp only [teamStep, Option.some.injEq] at hs
    subst hs
    exact h.keep (fun _ => rfl) rfl rfl rfl h.unused h.used h.created

/-- `exec` and `exec2` leave an image with no block on top of it yet. -/
theorem Proc.Fresh.laid {p q : Proc} (h : p.Fresh q pages) (hu : (p.thread p.thidx).ustack = 0)
    (hf : p.freedustack p.thidx = 0) (nexttid : Nat) (free : List Nat) :
    Laid q.sz pages { proc := q, nexttid := nexttid, free := free, created := fun _ => false } := by
  have hfreed : ∀ i, q.freedustack i = 0 := by
    intro i
    by_cases hi : i = p.thidx
    · rw [hi, h.own.1, hf]
    · exact h.freed i hi
  have hust : ∀ i, (q.thread i).ustack = 0 := by
    intro i
    by_cases hi : i = p.thidx
    · rw [hi, h.own.2.1, hu]
    · rw [h.thread i hi]
  have hrec : ∀ i, q.record i = 0 := by
    intro i
    rw [Proc.record_of_freed (hfreed i), hust i]
  have hcard : q.owners.card = 0 := by
    simp [Proc.owners, hrec]
  refine ⟨h.space, h.stacksize, ?_, fun i hi => absurd (hrec i) hi, fun i _ _ hi => absurd (hrec i) hi,
    fun i hi => absurd (hrec i) hi, fun i _ => hust i, fun i hi => absurd (hfreed i) hi,
    fun i hi => by cases hi⟩
  show q.sz = q.sz + q.owners.card * blockSize pages
  rw [hcard, Nat.zero_mul, Nat.add_zero]

/-- The stacks of the threads that `thread_create` has made and that have not been
joined, and the size of a process that was `base` after `exec`. -/
structure StacksApart (base : Nat) (t : Team) : Prop where
  guarded : ∀ i, t.created i = true →
    Guarded t.proc.pgdir (t.proc.thread i).ustack t.proc.stacksize ∧
    (t.proc.thread i).ustack ≤ t.proc.sz
  apart : ∀ i j, i ≠ j → t.created i = true → t.created j = true →
    (t.proc.thread i).ustack + (1 + t.proc.stacksize) * PGSIZE ≤ (t.proc.thread j).ustack ∨
    (t.proc.thread j).ustack + (1 + t.proc.stacksize) * PGSIZE ≤ (t.proc.thread i).ustack
  size : t.proc.sz ≤ base + NTHREAD * (1 + t.proc.stacksize) * PGSIZE

theorem Laid.apart (h : Laid base pages t) : StacksApart base t := by
  have hrec : ∀ i, t.created i = true →
      t.proc.record i = (t.proc.thread i).ustack ∧ t.proc.record i ≠ 0 := by
    intro i hi
    obtain ⟨h1, h2⟩ := h.created i hi
    have he := Proc.record_of_freed (h.freed h1)
    exact ⟨he, he ▸ h2⟩
  have hcard : t.proc.owners.card ≤ NTHREAD := by
    refine (Finset.card_le_univ _).trans ?_
    rw [Fintype.card_fin]
  refine ⟨fun i hi => ?_, fun i j hij hi hj => ?_, ?_⟩
  · obtain ⟨he, hne⟩ := hrec i hi
    obtain ⟨k, hk, hkr⟩ := h.block i hne
    rw [h.stacksize, ← he]
    refine ⟨h.guarded i hne, ?_⟩
    rw [hkr, h.size]
    exact Nat.add_le_add_left (Nat.mul_le_mul_right _ hk) _
  · obtain ⟨hei, hnei⟩ := hrec i hi
    obtain ⟨hej, hnej⟩ := hrec j hj
    obtain ⟨k, -, hkr⟩ := h.block i hnei
    obtain ⟨l, -, hlr⟩ := h.block j hnej
    have hne := h.distinct i j hij hnei
    rw [h.stacksize, ← hei, ← hej]
    show t.proc.record i + blockSize pages ≤ _ ∨ t.proc.record j + blockSize pages ≤ _
    -- different blocks
    rcases Nat.lt_trichotomy k l with hlt | heq | hgt
    · refine .inl ?_
      rw [hkr, hlr, Nat.add_assoc, ← Nat.succ_mul]
      exact Nat.add_le_add_left (Nat.mul_le_mul_right _ (Nat.succ_le_succ hlt)) _
    · rw [hkr, hlr, heq] at hne
      exact absurd rfl hne
    · refine .inr ?_
      rw [hkr, hlr, Nat.add_assoc, ← Nat.succ_mul]
      exact Nat.add_le_add_left (Nat.mul_le_mul_right _ (Nat.succ_le_succ hgt)) _
  · rw [h.size, h.stacksize, blockSize, Nat.mul_assoc]
    exact Nat.add_le_add_left (Nat.mul_le_mul_right _ hcard) _

end Steps

/-! ## Where there is memory -/

section Memory

variable {d : Pgdir} {s : List Nat}

theorem walkpgdir_ok (h : d.Tabled) (va : Nat) (hs : s ≠ []) :
    ∃ e t, walkpgdir d va true s = .ok (some e) t ∧ e.pte = d.pte ∧ e.Tabled ∧
      e.has (PDX va) = true ∧ s.length ≤ t.length + 1 := by
  cases htable : d.table (PDX va) with
  | some a =>
    refine ⟨d, s, ?_, rfl, h, by simp [Pgdir.has, htable], Nat.le_succ _⟩
    rw [walkpgdir, htable]
    rfl
  | none =>
    have hno : d.has (PDX va) = false := by simp [Pgdir.has, htable]
    cases s with
    | nil => exact absurd rfl hs
    | cons a t =>
      have hpte := Pgdir.pte_newTable h hno a
      have hhas := Pgdir.has_newTable d (PDX va) a
      refine ⟨(d.setTable (PDX va) (some a)).clearTable (PDX va), t, ?_, hpte,
        h.of_eq hpte (fun j hj => ?_), ?_, le_rfl⟩
      · rw [walkpgdir, htable]
        rfl
      · rw [hhas]
        simp [hj]
      · rw [hhas]
        simp

/-- With a frame for every page the loop of `mappages` succeeds on pages that are
not mapped. -/
theorem mapLoop_ok (u : Bool) : ∀ (n k pa : Nat) (d : Pgdir) (s : List Nat), d.Tabled →
    k + n ≤ 2 ^ 20 → (∀ j, k ≤ j → d.pte j = none) → n ≤ s.length →
    ∃ d' s', mapLoop u n (k * PGSIZE) pa d s = .ok (d', true) s' ∧ d'.Tabled ∧
      (∀ j, k + n ≤ j → d'.pte j = none) ∧ s.length ≤ s'.length + n := by
  intro n
  induction n with
  | zero => exact fun k pa d s h _ hn _ => ⟨d, s, rfl, h, hn, le_rfl⟩
  | succ n ih =>
    intro k pa d s h hk hn hs
    have hvpn : vpn (k * PGSIZE) = k := by
      simp only [vpn, u32, PGSIZE]
      omega
    have hne : s ≠ [] := by
      intro he
      rw [he, List.length_nil] at hs
      omega
    obtain ⟨e, t, hwalk, hpte, htab, hhas, hlen⟩ := walkpgdir_ok h (k * PGSIZE) hne
    have hset : (e.setPte k (some { page := pa, u := u })).Tabled := by
      intro j x hx
      simp only [Pgdir.setPte] at hx
      rw [Pgdir.has_setPte]
      split at hx
      · rename_i hj
        rw [PDX, hvpn] at hhas
        rw [hj]
        exact hhas
      · exact htab j x hx
    obtain ⟨d', s', hr, htab', hnone, hlen'⟩ := ih (k + 1) (pa + PGSIZE) _ t hset (by omega)
      (fun j hj => by
        simp only [Pgdir.setPte]
        rw [if_neg (by omega), hpte]
        exact hn j (by omega)) (by omega)
    refine ⟨d', s', ?_, htab', fun j hj => hnone j (by omega), by omega⟩
    have hfree : e.pte k = none := by
      rw [hpte]
      exact hn k le_rfl
    rw [mapLoop, Lib.run_bind hwalk]
    simp only [hvpn, hfree, Option.isSome_none, Bool.false_eq_true, if_false]
    rw [← hr, Nat.succ_mul]

/-- The number of pages a line of `kmap[]` takes. -/
def linePages (l : Nat × Nat × Nat) : Nat := (l.1 + l.2.2 - 1) / PGSIZE - l.1 / PGSIZE + 1

/-- The lines come one behind the other, from page `k` on. -/
def InOrder : Nat → List (Nat × Nat × Nat) → Prop
  | _, [] => True
  | k, l :: ls => k ≤ l.1 / PGSIZE ∧ l.1 / PGSIZE + linePages l ≤ 2 ^ 20 ∧
      InOrder (l.1 / PGSIZE + linePages l) ls

theorem mapKernel_ok : ∀ (ks : List (Nat × Nat × Nat)) (k : Nat) (d : Pgdir) (s : List Nat),
    d.Tabled → InOrder k ks → (∀ j, k ≤ j → d.pte j = none) → 2 ^ 20 - k ≤ s.length →
    ∃ d' s', mapKernel ks d s = .ok (d', true) s' ∧ s.length ≤ s'.length + (2 ^ 20 - k) := by
  intro ks
  induction ks with
  | nil => exact fun k d s h _ _ _ => ⟨d, s, rfl, by omega⟩
  | cons l ls ih =>
    intro k d s h ho hn hs
    obtain ⟨h1, h2, h3⟩ := ho
    obtain ⟨d₁, t, hr, htab, hnone, hlen⟩ := mapLoop_ok false (linePages l) (l.1 / PGSIZE) l.2.1 d s h
      h2 (fun j hj => hn j (by omega)) (by omega)
    obtain ⟨d', s', hr', hlen'⟩ := ih (l.1 / PGSIZE + linePages l) d₁ t htab h3 hnone (by omega)
    refine ⟨d', s', ?_, by omega⟩
    have hmap : mappages d l.1 l.2.2 l.2.1 false s = .ok (d₁, true) t := hr
    rw [mapKernel, Lib.run_bind hmap]
    exact hr'

theorem setupkvm_ok (hs : 2 ^ 20 < s.length) :
    ∃ d s', setupkvm someLayout s = .ok (some d) s' ∧ s.length ≤ s'.length + 2 ^ 20 + 1 := by
  cases s with
  | nil => simp at hs
  | cons a t =>
    have hka : kalloc (a :: t) = .ok (some a) t := rfl
    have horder : InOrder 0 (kmap someLayout.data) := by
      simp only [InOrder, kmap, linePages, someLayout, KERNLINK, KERNBASE, EXTMEM, PHYSTOP,
        DEVSPACE, PGSIZE]
      decide
    rw [List.length_cons] at hs
    obtain ⟨d, s', hr, hlen⟩ := mapKernel_ok (kmap someLayout.data) 0
      { page := a, table := fun _ => none, pte := fun _ => none } t
      (fun _ _ hx => by cases hx) horder (fun _ _ => rfl) (by omega)
    refine ⟨d, s', ?_, by rw [List.length_cons]; omega⟩
    rw [setupkvm, Lib.run_bind hka]
    show (mapKernel (kmap someLayout.data) _ >>= fun r => _) t = _
    rw [Lib.run_bind hr]
    rfl

theorem framesNeeded_le : ∀ (n k : Nat) (has : Nat → Bool), framesNeeded has n k ≤ 2 * n := by
  intro n
  induction n with
  | zero => exact fun _ _ => le_rfl
  | succ n ih =>
    intro k has
    unfold framesNeeded
    split
    · have := ih (k + 1) has
      omega
    · have := ih (k + 1) (fun j => j == k / NPTENTRIES || has j)
      omega

/-- A few bytes near the end of a page that the user can write. -/
theorem copyout_ok (htab : d.Tabled) {k off len : Nat} {x : Pte} (hx : d.pte k = some x) (hu : x.u = true)
    (hk : (k + 1) * PGSIZE < KERNBASE) (h0 : 0 < len) (hoff : len ≤ off) (h64 : off ≤ 64) :
    copyout d (u32 (2 ^ 32 + (k + 1) * PGSIZE - off)) len s = .ok true s := by
  -- one round of the loop
  have hbase : u32 (2 ^ 32 + (k + 1) * PGSIZE - off) / PGSIZE * PGSIZE = k * PGSIZE := by
    simp only [u32, PGSIZE, KERNBASE] at hk ⊢
    omega
  have hroom : min (PGSIZE - (u32 (2 ^ 32 + (k + 1) * PGSIZE - off) - k * PGSIZE)) len = len := by
    simp only [u32, PGSIZE, KERNBASE] at hk ⊢
    omega
  have hvpn : vpn (k * PGSIZE) = k := by
    simp only [vpn, u32, PGSIZE, KERNBASE] at hk ⊢
    omega
  obtain ⟨b, htb⟩ := Option.isSome_iff_exists.mp (htab _ _ hx)
  have hka : uva2ka d (k * PGSIZE) s = .ok true s := by
    rw [uva2ka, PDX, hvpn, htb]
    simp only [hx, Option.any_some, hu]
    rfl
  obtain ⟨n, rfl⟩ := Nat.exists_eq_succ_of_ne_zero (Nat.pos_iff_ne_zero.mp h0)
  rw [copyout, copyLoop, if_neg (Nat.succ_ne_zero n)]
  simp only [hbase]
  rw [Lib.run_bind hka]
  simp only [if_true, hroom, Nat.sub_self]
  cases n with
  | zero => rfl
  | succ n =>
    rw [copyLoop, if_pos rfl]
    rfl

/-- With four frames a stack of one page and its guard page can be had, and bytes can
be written near its top. -/
theorem onePage_ok {sz : Nat} (h : d.Covers sz) (ha : sz % PGSIZE = 0)
    (hlt : sz + 2 * PGSIZE < KERNBASE) (hs : 4 ≤ s.length) :
    ∃ d₁ t d₂, allocuvm d sz (u32 (sz + (1 + 1) * PGSIZE)) s = .ok (d₁, sz + 2 * PGSIZE) t ∧
      clearpteu d₁ (u32 (2 ^ 32 + (sz + 2 * PGSIZE) - (1 + 1) * PGSIZE)) t = .ok d₂ t ∧
      ∀ off len, 0 < len → len ≤ off → off ≤ 64 →
        copyout d₂ (u32 (2 ^ 32 + (sz + 2 * PGSIZE) - off)) len t = .ok true t := by
  have hnew : u32 (sz + (1 + 1) * PGSIZE) = sz + 2 * PGSIZE := by
    simp only [u32, PGSIZE, KERNBASE] at hlt ⊢
    omega
  have hp : pagesOf sz = sz / PGSIZE := by
    simp only [pagesOf, PGSIZE] at ha ⊢
    omega
  have hp' : pagesOf (sz + 2 * PGSIZE) = sz / PGSIZE + 2 := by
    simp only [pagesOf, PGSIZE] at ha ⊢
    omega
  obtain ⟨d₁, r, t, hr, hyes, -⟩ := allocuvm_spec h (sz + 2 * PGSIZE) s
  have hcan : CanGrow { pgdir := d, sz := sz, limit := 0 } (sz + 2 * PGSIZE) s := by
    refine ⟨hlt, .inr ?_⟩
    show framesNeeded d.has (pagesOf (sz + 2 * PGSIZE) - pagesOf sz) (pagesOf sz) ≤ s.length
    have hle := framesNeeded_le (pagesOf (sz + 2 * PGSIZE) - pagesOf sz) (pagesOf sz) d.has
    omega
  obtain ⟨hmax, htab, -, hmapped⟩ := hyes hcan
  have hrsz : r = sz + 2 * PGSIZE := by
    rw [hmax]
    exact max_eq_right (Nat.le_add_right _ _)
  subst hrsz
  change ∀ j, pagesOf sz ≤ j → j < pagesOf (sz + 2 * PGSIZE) → _ at hmapped
  have hva : vpn (u32 (2 ^ 32 + (sz + 2 * PGSIZE) - (1 + 1) * PGSIZE)) = sz / PGSIZE := by
    simp only [vpn, u32, PGSIZE, KERNBASE] at hlt ⊢
    omega
  obtain ⟨g, hguard⟩ := hmapped (sz / PGSIZE) (by omega) (by omega)
  obtain ⟨w, hstack⟩ := hmapped (sz / PGSIZE + 1) (by omega) (by omega)
  obtain ⟨a, hta⟩ := Option.isSome_iff_exists.mp (htab _ _ hguard)
  refine ⟨d₁, t, d₁.setPte (sz / PGSIZE) (some { page := g, u := false }), ?_, ?_,
    fun off len h0 hoff h64 => ?_⟩
  · rw [hnew]
    exact hr
  · rw [clearpteu, PDX, hva, hta]
    simp only [hguard]
    rfl
  · have htop : sz + 2 * PGSIZE = (sz / PGSIZE + 1 + 1) * PGSIZE := by
      simp only [PGSIZE] at ha ⊢
      omega
    have htab' : (d₁.setPte (sz / PGSIZE) (some { page := g, u := false })).Tabled := by
      intro k x hx
      simp only [Pgdir.setPte] at hx
      rw [Pgdir.has_setPte]
      split at hx
      · rename_i hk
        rw [hk]
        exact htab _ _ hguard
      · exact htab k x hx
    have hpte : (d₁.setPte (sz / PGSIZE) (some { page := g, u := false })).pte (sz / PGSIZE + 1) =
        some { page := w, u := true } := by
      simp only [Pgdir.setPte]
      rw [if_neg (by omega)]
      exact hstack
    rw [htop] at hlt ⊢
    exact copyout_ok htab' hpte rfl hlt h0 hoff h64

theorem freeTables_ok (d : Pgdir) : ∀ (n : Nat) (s : List Nat), ∃ s', freeTables d n s = .ok () s' := by
  intro n
  induction n with
  | zero => exact fun s => ⟨s, rfl⟩
  | succ n ih =>
    intro s
    unfold freeTables
    split
    · rename_i a _
      obtain ⟨s', hr⟩ := ih (a :: s)
      exact ⟨s', hr⟩
    · obtain ⟨s', hr⟩ := ih s
      exact ⟨s', hr⟩

theorem freevm_ok (h : d.Tabled) (s : List Nat) : ∃ e s', freevm d s = .ok e s' := by
  have hlast : u32 (PGROUNDUP 0) / PGSIZE = 0 := by decide
  obtain ⟨e, t, hr, -⟩ := deallocLoop_spec ((KERNBASE + PGSIZE - 1) / PGSIZE)
    ((KERNBASE + PGSIZE - 1) / PGSIZE) 0 d s (Nat.sub_le _ _) h
  obtain ⟨s', hr'⟩ := freeTables_ok e NPDENTRIES t
  have hdealloc : deallocuvm d KERNBASE 0 s = .ok (e, 0) t := by
    rw [deallocuvm, if_neg (by decide)]
    simp only [hlast]
    rw [Lib.run_bind hr]
    rfl
  refine ⟨{ page := e.page, table := fun _ => none, pte := fun _ => none }, e.page :: s', ?_⟩
  rw [freevm, Lib.run_bind hdealloc]
  show (freeTables e NPDENTRIES >>= fun _ => _) t = _
  rw [Lib.run_bind hr']
  rfl

/-- A file that is an ELF header with no segments. -/
def bareHeader : List UInt8 := [0x7F, 0x45, 0x4C, 0x46] ++ List.replicate 48 0

def bareElf : Files :=
  { namei := fun _ => some 1, readi := fun _ off n => some ((bareHeader.drop off).take n) }

/-- The stack of a program without arguments. -/
theorem buildStack_ok (h : d.Covers 0) (hs : 4 ≤ s.length) (entry : Nat) :
    ∃ x t, buildStack 1 [] entry d 0 s = .ok (some x) t ∧ x.sz = 2 * PGSIZE := by
  obtain ⟨d₁, t, d₂, hgrow, hguard, hcopy⟩ := onePage_ok h rfl (by decide) hs
  have hround : u32 (PGROUNDUP 0) = 0 := by decide
  have hstart : (0 + 2 * PGSIZE = 0) = False := by decide
  have hno : pushArgs d₂ [] 0 (0 + 2 * PGSIZE) t = .ok (some (0, 0 + 2 * PGSIZE)) t := rfl
  refine ⟨{ pgdir := d₂, sz := 0 + 2 * PGSIZE, entry := entry
            sp := u32 (2 ^ 32 + (0 + 2 * PGSIZE) - 16), ustack := 0 + 2 * PGSIZE }, t, ?_, Nat.zero_add _⟩
  rw [buildStack]
  simp only [hround]
  rw [Lib.run_bind hgrow]
  simp only [hstart, if_false]
  rw [Lib.run_bind hguard, Lib.run_bind hno]
  show (copyout d₂ _ 16 >>= fun _ => _) t = _
  rw [Lib.run_bind (hcopy 16 16 (by decide) le_rfl (by decide))]
  rfl

/-- With the memory of a machine, `exec` succeeds on such a file if the arguments
find room. -/
theorem exec_bareElf (p : Proc) (argv : List (List UInt8)) (hp : p.pgdir.Tabled) (hk : p.kstack ≠ 0)
    (hs : 2 ^ 20 + 8 < s.length)
    (hbuild : ∀ (d : Pgdir) (t : List Nat), d.Covers 0 → 4 ≤ t.length →
      ∃ x t', buildStack 1 argv (elfhdr bareHeader).entry d 0 t = .ok (some x) t' ∧ x.sz = 2 * PGSIZE) :
    ∃ q s', exec someLayout bareElf [] argv p s = .ok (q, 0) s' ∧ q.sz = 2 * PGSIZE := by
  obtain ⟨q, t, hclear, hlen⟩ := clearThreads_ok p s
  have hq : q.pgdir = p.pgdir ∧ q.kstack = p.kstack := by
    have hrest := ((wp_clearThreads p s).ok hclear).1.rest
    rw [hrest]
    exact ⟨rfl, rfl⟩
  obtain ⟨d, t₁, hkvm, hlen₁⟩ := setupkvm_ok (s := t) (by omega)
  have hbare : d.Bare := (wp_setupkvm_bare someLayout).ok hkvm d rfl
  have hread : bareElf.readAll 1 0 52 = some bareHeader := by decide
  have hmagic : (elfhdr bareHeader).magic = ELF_MAGIC := by decide
  have hphnum : (elfhdr bareHeader).phnum = 0 := by decide
  obtain ⟨x, t₂, hx, hxsz⟩ := hbuild d t₁ hbare.covers (by omega)
  have hload : load someLayout bareElf 1 1 argv t = .ok (some x) t₂ := by
    rw [load, hread]
    simp only [hmagic, hphnum, ne_eq, not_true_eq_false, if_false]
    rw [Lib.run_bind hkvm]
    exact hx
  obtain ⟨e, s', hfree⟩ := freevm_ok (d := q.pgdir) (hq.1 ▸ hp) t₂
  refine ⟨q.commit 1 x, s', ?_, hxsz⟩
  have hname : bareElf.namei [] = some 1 := rfl
  have hkq : q.kstack ≠ 0 := hq.2 ▸ hk
  rw [exec, execWith, Lib.run_bind hclear, hname]
  show (load someLayout bareElf 1 1 argv >>= fun _ => _) t = _
  rw [Lib.run_bind hload]
  simp only [hkq, if_false]
  show (freevm q.pgdir >>= fun _ => _) t₂ = _
  rw [Lib.run_bind hfree]
  rfl

theorem finish_ok {p : Proc} {top : Nat} (j : ThIdx) (sz : Nat)
    (h : copyout p.pgdir (u32 (2 ^ 32 + top - 8)) 8 s = .ok true s) :
    ∃ r, p.finish j top sz s = .ok (r, 0) s := by
  refine ⟨{ p with sz := sz }.setThread j { p.thread j with ustack := top, state := .RUNNABLE }, ?_⟩
  rw [Proc.finish, Lib.run_bind h]
  rfl

theorem userStack_ok {p : Proc} {j : ThIdx} (h : p.pgdir.Covers p.sz) (ha : p.sz % PGSIZE = 0)
    (h1 : p.stacksize = 1) (hlt : p.sz + 2 * PGSIZE < KERNBASE) (hf : p.freedustack j = 0)
    (hs : 4 ≤ s.length) : ∃ r s', p.userStack j s = .ok (r, 0) s' := by
  obtain ⟨d₁, t, d₂, hgrow, hguard, hcopy⟩ := onePage_ok h ha hlt hs
  have hround : u32 (PGROUNDUP p.sz) = p.sz := by
    simp only [u32, PGROUNDUP, PGSIZE, KERNBASE] at ha hlt ⊢
    omega
  have hstart : (p.sz + 2 * PGSIZE = 0) = False := by
    simp only [PGSIZE, eq_iff_iff, iff_false]
    omega
  rw [Proc.userStack]
  simp only [hf, hround, h1, ne_eq, not_true_eq_false, if_false]
  rw [Lib.run_bind hgrow]
  simp only [hstart, if_false]
  rw [Lib.run_bind hguard]
  obtain ⟨r, hr⟩ := finish_ok (p := { p with pgdir := d₂, stacksize := 1 }) j (p.sz + 2 * PGSIZE)
    (hcopy 8 8 (by decide) le_rfl (by decide))
  exact ⟨r, t, hr⟩

/-- A `thread_create` with five pages to spare succeeds, in a slot with or without a stack. -/
theorem Laid.threadCreate_ok {base : Nat} {t : Team} (h : Laid base 1 t) (ha : base % PGSIZE = 0)
    (hlt : t.proc.sz + 2 * PGSIZE < KERNBASE) {i : ThIdx} (hi : (t.proc.thread i).state = .UNUSED)
    (hs : 5 ≤ t.free.length) : ∃ q free, threadCreate t.nexttid t.proc t.free = .ok (q, 0) free := by
  have halign : t.proc.sz % PGSIZE = 0 := by
    rw [h.size, blockSize, ← Nat.mul_assoc, Nat.add_mul_mod_self_right]
    exact ha
  cases hj : t.proc.allocth t.nexttid with
  | none => exact absurd hi (Proc.allocth_none.mp hj i)
  | some x =>
    obtain ⟨j, q⟩ := x
    obtain ⟨-, rfl⟩ := Proc.allocth_some hj
    cases hfree : t.free with
    | nil =>
      rw [hfree] at hs
      cases hs
    | cons a s =>
      rw [hfree, List.length_cons] at hs
      have hka : kalloc (a :: s) = .ok (some a) s := rfl
      rw [threadCreate, hj]
      simp only
      rw [Lib.run_bind hka]
      by_cases hf : t.proc.freedustack j = 0
      · exact userStack_ok h.space halign h.stacksize hlt hf (by omega)
      · -- the page below the end of the freed stack is still mapped
        have hrec : t.proc.record j = t.proc.freedustack j := if_pos hf
        have hne : t.proc.record j ≠ 0 := hrec ▸ hf
        have hg := h.guarded j hne
        obtain ⟨k, hk, hkr⟩ := h.block j hne
        rw [hrec] at hg hkr
        have hle : t.proc.freedustack j ≤ t.proc.sz := by
          rw [hkr, h.size]
          exact Nat.add_le_add_left (Nat.mul_le_mul_right _ hk) _
        obtain ⟨haligned, hroom, -, hstack⟩ := hg
        have htop : (t.proc.freedustack j / PGSIZE - 1 + 1) * PGSIZE = t.proc.freedustack j := by
          simp only [PGSIZE] at haligned hroom ⊢
          omega
        obtain ⟨x, hx, hu⟩ := hstack (t.proc.freedustack j / PGSIZE - 1) le_rfl
          (by simp only [PGSIZE] at hroom ⊢; omega)
        have hcopy : copyout t.proc.pgdir (u32 (2 ^ 32 + t.proc.freedustack j - 8)) 8 s = .ok true s := by
          rw [← htop]
          exact copyout_ok h.space.tabled hx hu (by rw [htop]; omega) (by decide) le_rfl (by decide)
        obtain ⟨r, hr⟩ := finish_ok
          (p := ((t.proc.setThread j { t.proc.thread j with tid := t.nexttid, state := .EMBRYO }).kernelStack
            j a).setFreed j 0) j (u32 (PGROUNDUP t.proc.sz)) hcopy
        refine ⟨r, s, ?_⟩
        unfold Proc.userStack
        exact (congrFun (if_pos hf) s).trans hr

/-- The step, and the slot that it fills. -/
theorem Laid.create {base : Nat} {t : Team} (h : Laid base 1 t) (ha : base % PGSIZE = 0)
    (hlt : t.proc.sz + 2 * PGSIZE < KERNBASE) {i : ThIdx} (hi : (t.proc.thread i).state = .UNUSED)
    (hs : 5 ≤ t.free.length) : ∃ t' j top, teamStep t .threadCreate = some t' ∧
      t.proc.Started t'.proc j top ∧ t'.created j = true ∧ (∀ i, t.created i = true → t'.created i = true) ∧
      t'.proc.sz ≤ t.proc.sz + 2 * PGSIZE ∧ (t.proc.freedustack j ≠ 0 → t'.proc.sz = t.proc.sz) := by
  obtain ⟨q, free, hrun⟩ := h.threadCreate_ok ha hlt hi hs
  have halign : t.proc.sz % PGSIZE = 0 := by
    rw [h.size, blockSize, ← Nat.mul_assoc, Nat.add_mul_mod_self_right]
    exact ha
  obtain ⟨j, top, hq, hcase⟩ :=
    (wp_threadCreate t.nexttid h.space halign (by rw [h.stacksize]; decide)).ok hrun rfl
  have hstep : teamStep t .threadCreate = some
      { proc := q, nexttid := t.nexttid + 1, free := free
        created := fun i => t.created i ||
          ((t.proc.thread i).state = .UNUSED && (q.thread i).state ≠ .UNUSED) } := by
    rw [teamStep, hrun]
    exact if_pos rfl
  refine ⟨_, j, top, hstep, hq, ?_, fun k hk => ?_, ?_, fun hf => ?_⟩
  · have hstate : (q.thread j).state = .RUNNABLE := hq.state
    simp [hq.unused, hstate]
  · simp [hk]
  · dsimp only at hcase ⊢
    rcases hcase with ⟨-, -, -, hsz⟩ | ⟨-, htop, hsz, -⟩
    · omega
    · rw [hsz, htop, h.stacksize]
  · rcases hcase with ⟨-, -, -, hsz⟩ | ⟨h0, -⟩
    · exact hsz
    · exact absurd h0 hf

end Memory

/-! ## Whole runs -/

/-- In every run of `thread_create`, `thread_exit` and `thread_join` after a
successful `exec` or `exec2`, by a thread whose slot has no stack on record, the
threads have stacks of their own, and no more blocks are allocated than there are
slots. -/
theorem thread_stacks_reused (L : Layout) (fs : Files) (path : List UInt8) (argv : List (List UInt8))
    (p q : Proc) (s s' : List Nat)
    (hx : exec L fs path argv p s = .ok (q, 0) s' ∨
      ∃ n, exec2 L fs path argv n p s = .ok (q, 0) s')
    (hu : (p.thread p.thidx).ustack = 0) (hf : p.freedustack p.thidx = 0) (nexttid : Nat)
    (free : List Nat) (as : List TeamAct) (t : Team)
    (hr : Lib.run teamStep { proc := q, nexttid := nexttid, free := free, created := fun _ => false }
      as = some t) :
    t.proc.stacksize = q.stacksize ∧ StacksApart q.sz t := by
  obtain ⟨pages, hp, hfresh⟩ : ∃ pages, pages ≤ 100 ∧ p.Fresh q pages := by
    rcases hx with hx | ⟨n, hx⟩
    · exact ⟨1, by decide, (wp_execWith_fresh L fs (by decide) path argv p).ok hx rfl⟩
    · have hn : Lwp.Proc.clampStack n ≤ 100 := by
        unfold Lwp.Proc.clampStack
        split_ifs <;> omega
      exact ⟨_, hn, (wp_execWith_fresh L fs hn path argv p).ok hx rfl⟩
  have hlaid : Laid q.sz pages t := by
    refine Lib.run_inv_all ?_ (hfresh.laid hu hf nexttid free) hr
    intro t a t' ht ha
    exact ht.step hfresh.aligned hp ha
  exact ⟨hlaid.stacksize.trans hfresh.stacksize.symm, hlaid.apart⟩

/-- A thread that exits beside another one is left a zombie. -/
theorem exit_leaves_zombie {p : Proc} {i j : ThIdx} (hij : i ≠ j)
    (hi : (p.thread i).state ≠ .UNUSED ∧ (p.thread i).state ≠ .ZOMBIE) (retval : Nat) :
    p.threadExit j retval = p.setThread j { p.thread j with state := .ZOMBIE, retval := retval } := by
  rw [Proc.threadExit, if_neg]
  intro hno
  rw [Proc.countth, List.countP_eq_zero] at hno
  apply hno i (List.mem_finRange i)
  simp only [Proc.setThread, if_neg hij]
  exact decide_eq_true hi

/-- A thread runs, exits and is joined beside another one: its slot is free and has its stack. -/
theorem runs_to_join {t : Team} {i j : ThIdx} (hij : i ≠ j) (hi : (t.proc.thread i).state = .RUNNABLE)
    (hj : (t.proc.thread j).state = .RUNNABLE) :
    ∃ t', Lib.run teamStep t [.switch j .RUNNING, .threadExit j 7, .threadJoin j] = some t' ∧
      (∀ k, k ≠ j → t'.proc.thread k = t.proc.thread k ∧ t'.created k = t.created k) ∧
      (t'.proc.thread j).state = .UNUSED ∧ t'.proc.freedustack j = (t.proc.thread j).ustack ∧
      t'.proc.sz = t.proc.sz := by
  let p := t.proc.setThread j { t.proc.thread j with state := .RUNNING }
  let q := p.setThread j { p.thread j with state := .ZOMBIE, retval := 7 }
  have hs1 : teamStep t (.switch j .RUNNING) = some { t with proc := p } :=
    if_pos ⟨by rw [hj]; decide, by decide⟩
  have hs2 : teamStep { t with proc := p } (.threadExit j 7) = some { t with proc := q } := by
    have hlive : (p.thread i).state = .RUNNABLE := by simp [p, Proc.setThread, hij, hi]
    rw [teamStep, if_pos (by simp [p, Proc.setThread]), exit_leaves_zombie hij (by simp [hlive]) 7]
  obtain ⟨t', hs3, hproc, hcreated⟩ : ∃ t', teamStep { t with proc := q } (.threadJoin j) = some t' ∧
      t'.proc = q.joinReap j ∧ t'.created = fun i => if i = j then false else t.created i :=
    ⟨_, if_pos (by simp [q, Proc.setThread]), rfl, rfl⟩
  have hrun : Lib.run teamStep t [.switch j .RUNNING, .threadExit j 7, .threadJoin j] = some t' := by
    rw [Lib.run, hs1, Option.bind_some, Lib.run, hs2, Option.bind_some, Lib.run, hs3]
    rfl
  refine ⟨t', hrun, fun k hk => ?_, ?_, ?_, ?_⟩ <;> rw [hproc]
  · rw [hcreated]
    simp [p, q, Proc.joinReap, Proc.freeustack, Proc.setThread, Proc.setFreed, hk]
  · simp [p, q, Proc.joinReap, Proc.freeustack, Proc.setThread, Proc.setFreed]
  · simp [p, q, Proc.joinReap, Proc.freeustack, Proc.setThread, Proc.setFreed]
  · rfl

/-- Two threads are created; the second one, in slot `j`, exits and is joined; and its slot and
its stack are given to a third one. -/
def joinAndCreate (j : ThIdx) : List TeamAct :=
  [.threadCreate, .others 3 (List.replicate 8 4096), .threadCreate] ++
  [.switch j .RUNNING, .threadExit j 7, .threadJoin j] ++
  [.others 4 (List.replicate 8 4096), .threadCreate]

theorem thread_stacks_reused_joinAndCreate : ∃ q s' i j t,
    exec someLayout bareElf [] [] oneThread (List.replicate (2 ^ 21) 4096) = .ok (q, 0) s' ∧
    Lib.run teamStep { proc := q, nexttid := 2, free := List.replicate 8 4096
                       created := fun _ => false } (joinAndCreate j) = some t ∧
    i ≠ j ∧ t.created i = true ∧ t.created j = true ∧ t.proc.sz ≤ q.sz + 2 * (2 * PGSIZE) ∧
    t.proc.stacksize = q.stacksize ∧ StacksApart q.sz t := by
  obtain ⟨q, s', hexec, hsz⟩ := exec_bareElf (s := List.replicate (2 ^ 21) 4096) oneThread []
    (fun _ _ hx => by cases hx) (by decide) (by rw [List.length_replicate]; decide)
    (fun _ _ h hs => buildStack_ok h hs _)
  have hfresh := (wp_execWith_fresh someLayout bareElf (by decide) [] [] oneThread).ok hexec rfl
  have ha := hfresh.aligned
  have hstep : ∀ t a t', Laid q.sz 1 t → teamStep t a = some t' → Laid q.sz 1 t' :=
    fun t a t' h hs => h.step ha (by decide) hs
  have hfive : 5 ≤ (List.replicate 8 4096).length := by decide
  have hbound : q.sz + 2 * (2 * PGSIZE) + 2 * PGSIZE < KERNBASE := by
    rw [hsz]
    decide
  have hslot : ∀ k, k ≠ oneThread.thidx → (q.thread k).state = .UNUSED := by
    intro k hk
    rw [hfresh.thread k hk]
  -- the first thread
  have h0 := hfresh.laid rfl rfl 2 (List.replicate 8 4096)
  obtain ⟨t1, i, top1, hs1, hstart1, hc1, -, hsz1, -⟩ := h0.create ha
    (by rw [hsz]; decide) (hslot 1 (by decide)) hfive
  change t1.proc.sz ≤ q.sz + 2 * PGSIZE at hsz1
  -- the second one
  have h2 := hstep _ (.others 3 (List.replicate 8 4096)) _ (hstep _ _ _ h0 hs1) rfl
  obtain ⟨k, hk⟩ : ∃ k, (t1.proc.thread k).state = .UNUSED := by
    by_cases hi : i = 1
    · refine ⟨2, ?_⟩
      rw [hstart1.thread 2 (by rw [hi]; decide)]
      exact hslot 2 (by decide)
    · refine ⟨1, ?_⟩
      rw [hstart1.thread 1 (fun h => hi h.symm)]
      exact hslot 1 (by decide)
  obtain ⟨t3, j, top2, hs3, hstart2, hc3, hkeep3, hsz3, -⟩ := h2.create ha (by dsimp only; omega) hk hfive
  change t3.proc.sz ≤ t1.proc.sz + 2 * PGSIZE at hsz3
  have hij : i ≠ j := by
    rintro rfl
    have hun : (t1.proc.thread i).state = .UNUSED := hstart2.unused
    rw [hstart1.state] at hun
    cases hun
  have hlive : (t3.proc.thread i).state = .RUNNABLE := by
    rw [hstart2.thread i hij]
    exact hstart1.state
  -- it runs, exits and is joined
  have h3 := hstep _ _ _ h2 hs3
  obtain ⟨t6, hr6, hother, hun, hfreed, hsz6⟩ := runs_to_join hij hlive hstart2.state
  have h6 : Laid q.sz 1 t6 := Lib.run_inv_all hstep h3 hr6
  -- the third one finds the same slot
  have h7 := hstep _ (.others 4 (List.replicate 8 4096)) _ h6 rfl
  obtain ⟨t8, j', top3, hs8, hstart3, hc8, hkeep8, -, hsz8⟩ := h7.create ha (by dsimp only; omega) hun hfive
  have hj' : j' = j := by
    rcases lt_trichotomy j' j with hlt | heq | hgt
    · refine absurd hstart3.unused ?_
      change (t6.proc.thread j').state ≠ _
      rw [(hother j' hlt.ne).1, hstart2.thread j' hlt.ne]
      exact hstart2.first j' hlt
    · exact heq
    · exact absurd hun (hstart3.first j hgt)
  subst hj'
  have hreuse : t8.proc.sz = t6.proc.sz := by
    apply hsz8
    change t6.proc.freedustack j' ≠ 0
    rw [hfreed]
    exact (h3.created j' hc3).2
  have hr3 : Lib.run teamStep { proc := q, nexttid := 2, free := List.replicate 8 4096
                                created := fun _ => false }
      [.threadCreate, .others 3 (List.replicate 8 4096), .threadCreate] = some t3 := by
    rw [Lib.run, hs1, Option.bind_some, Lib.run, teamStep, Option.bind_some, Lib.run, hs3]
    rfl
  have hr8 : Lib.run teamStep t6 [.others 4 (List.replicate 8 4096), .threadCreate] = some t8 := by
    rw [Lib.run, teamStep, Option.bind_some, Lib.run, hs8]
    rfl
  have hrun : Lib.run teamStep { proc := q, nexttid := 2, free := List.replicate 8 4096
                                 created := fun _ => false } (joinAndCreate j') = some t8 := by
    rw [joinAndCreate, List.append_assoc, Lib.run_append, hr3, Option.bind_some, Lib.run_append, hr6,
      Option.bind_some, hr8]
  have hi8 : t8.created i = true := by
    apply hkeep8
    dsimp only
    rw [(hother i hij).2]
    exact hkeep3 i hc1
  exact ⟨q, s', i, j', t8, hexec, hrun, hij, hi8, hc8, by omega, thread_stacks_reused someLayout bareElf [] []
    oneThread q _ s' (.inl hexec) rfl rfl 2 _ _ t8 hrun⟩

end Xv6.Vm
