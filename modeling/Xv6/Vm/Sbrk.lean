import Xv6.Lwp.Limit
import Xv6.Vm.Memory

/- `sbrk` of the LWP kernel (`project2_LWP/sysproc.c`, `proc.c`), with the page
   directory it works on. Where the new size would pass the limit that
   `setmemorylimit` has set, `growproc` asks `allocuvm` for the limit instead and
   returns 0 all the same, so `sbrk` answers with an address below which less
   memory follows than was asked for; `morecore` in `umalloc.c` uses all of it.

   `Space.Ok` is what `exec`, `fork` and `growproc` establish of an address space:
   exactly the pages below `sz` are mapped. `allocuvm_spec` says, for such a space,
   when the pages can be had (`CanGrow` counts them, with the page tables that are
   missing) and that a failure takes back all that was mapped. -/
namespace Xv6.Vm
open Lwp (PGSIZE KERNBASE PGROUNDUP growTarget addU)

/-- `struct proc`, as far as `growproc` reads or writes it. -/
structure Space where
  pgdir : Pgdir
  sz : Nat
  limit : Nat

/-- A `uint` as an `int`. -/
def toInt (a : Nat) : Int := if a < 2 ^ 31 then a else (a : Int) - 2 ^ 32

/-- `growproc`. -/
def growproc (p : Space) (n : Int) : VmM (Space × Int) :=
  let newsz := growTarget p.sz p.limit n
  if 0 < n then do
    let (d, sz) ← allocuvm p.pgdir p.sz newsz
    if sz = 0 then return ({ p with pgdir := d }, -1)
    else return ({ p with pgdir := d, sz := sz }, 0)
  else if n < 0 then do
    let (d, sz) ← deallocuvm p.pgdir p.sz (addU p.sz n)
    if sz = 0 then return ({ p with pgdir := d }, -1)
    else return ({ p with pgdir := d, sz := sz }, 0)
  else return (p, 0)

/-- `sys_sbrk`, with the argument it has got. -/
def sys_sbrk (p : Space) (n : Int) : VmM (Space × Int) := do
  let addr := toInt p.sz
  let (q, r) ← growproc p n
  if r < 0 then return (q, -1)
  else return (q, addr)

/-- The number of pages that hold `sz` bytes. -/
def pagesOf (sz : Nat) : Nat := (sz + PGSIZE - 1) / PGSIZE

/-- The page table for directory entry `i` exists. -/
def Pgdir.has (d : Pgdir) (i : Nat) : Bool := (d.table i).isSome

/-- Every mapped page has its page table. -/
def Pgdir.Tabled (d : Pgdir) : Prop := ∀ k x, d.pte k = some x → d.has (k / NPTENTRIES) = true

/-- The pages below `sz` are mapped, and no other page of the user part is. -/
structure Space.Ok (p : Space) : Prop where
  size : p.sz < KERNBASE
  below : ∀ k, k < pagesOf p.sz → (p.pgdir.pte k).isSome
  above : ∀ k, pagesOf p.sz ≤ k → k < KERNBASE / PGSIZE → p.pgdir.pte k = none
  tabled : p.pgdir.Tabled

/-- The frames that mapping `n` pages from page `k` on takes: one for each, and one
for each page table that is missing. -/
def framesNeeded (has : Nat → Bool) : Nat → Nat → Nat
  | 0, _ => 0
  | n + 1, k =>
    if has (k / NPTENTRIES) then 1 + framesNeeded has n (k + 1)
    else 2 + framesNeeded (fun j => j == k / NPTENTRIES || has j) n (k + 1)

/-- `allocuvm` up to `newsz` succeeds: the size is below the kernel, and it is not
larger than the present one or there are pages enough. -/
def CanGrow (p : Space) (newsz : Nat) (free : List Nat) : Prop :=
  newsz < KERNBASE ∧ (newsz < p.sz ∨
    framesNeeded p.pgdir.has (pagesOf newsz - pagesOf p.sz) (pagesOf p.sz) ≤ free.length)

/-- What is expected of `sbrk(n)`: after an address `a` the range `[a, a + n)` is
below `sz` and mapped, and after -1 the size and the mappings are as before. -/
def SbrkContract (p : Space) (n : Int) (free : List Nat) : Prop :=
  ∃ q r free', sys_sbrk p n free = .ok (q, r) free' ∧
    (r ≠ -1 → ∀ va : Nat, r ≤ va → va < r + n → va < q.sz ∧ (q.pgdir.pte (vpn va)).isSome) ∧
    (r = -1 → q.sz = p.sz ∧ ∀ k, q.pgdir.pte k = p.pgdir.pte k)

section Rules

variable {d d' : Pgdir} {s s' : List Nat}

/-! ## Page tables -/

theorem Pgdir.has_newTable (d : Pgdir) (i a : Nat) :
    ((d.setTable i (some a)).clearTable i).has = fun j => j == i || d.has j := by
  funext j
  by_cases hj : j = i
  · simp [Pgdir.has, Pgdir.clearTable, Pgdir.setTable, hj]
  · simp [Pgdir.has, Pgdir.clearTable, Pgdir.setTable, hj]

/-- Where there was no page table nothing was mapped. -/
theorem Pgdir.pte_newTable (h : d.Tabled) {i : Nat} (hi : d.has i = false) (a : Nat) :
    ((d.setTable i (some a)).clearTable i).pte = d.pte := by
  funext k
  simp only [Pgdir.clearTable, Pgdir.setTable]
  split
  · rename_i hk
    cases hx : d.pte k with
    | none => rfl
    | some x =>
      have hhas := h k x hx
      rw [hk, hi] at hhas
      cases hhas
  · rfl

theorem Pgdir.Tabled.of_eq (h : d.Tabled) (hp : d'.pte = d.pte) (hh : ∀ j, d.has j → d'.has j) :
    d'.Tabled := by
  intro k x hx
  rw [hp] at hx
  exact hh _ (h k x hx)

theorem Pgdir.has_setPte (d : Pgdir) (k : Nat) (x : Option Pte) : (d.setPte k x).has = d.has := rfl

/-- `mappages` of one page that is not mapped, where there is a frame for a page
table if one is missing. -/
theorem mapPage_ok (h : d.Tabled) (mem : Nat) {k : Nat} (hk : k < 2 ^ 20) (hn : d.pte k = none)
    (hf : d.has (k / NPTENTRIES) = true ∨ s ≠ []) :
    ∃ d' s', mappages d (k * PGSIZE) PGSIZE mem true s = .ok (d', true) s' ∧ d'.Tabled ∧
      (∀ j, d'.pte j = if j = k then some { page := mem, u := true } else d.pte j) ∧
      s'.length + (if d.has (k / NPTENTRIES) then 0 else 1) = s.length ∧
      d'.has = if d.has (k / NPTENTRIES) then d.has else fun j => j == k / NPTENTRIES || d.has j := by
  have hone : (k * PGSIZE + PGSIZE - 1) / PGSIZE - k * PGSIZE / PGSIZE + 1 = 1 := by
    simp only [PGSIZE]
    omega
  have hbase : k * PGSIZE / PGSIZE * PGSIZE = k * PGSIZE := by
    simp only [PGSIZE]
    omega
  have hvpn : vpn (k * PGSIZE) = k := by
    simp only [vpn, u32, PGSIZE]
    omega
  have hpdx : PDX (k * PGSIZE) = k / NPTENTRIES := by rw [PDX, hvpn]
  -- what is done with the page table, be it old or new
  have hrest : ∀ (e : Pgdir) (t : List Nat), walkpgdir d (k * PGSIZE) true s = .ok (some e) t →
      e.pte = d.pte → mappages d (k * PGSIZE) PGSIZE mem true s =
        .ok (e.setPte k (some { page := mem, u := true }), true) t := by
    intro e t hwalk he
    rw [mappages, hone, hbase, mapLoop, Lib.run_bind hwalk]
    simp only [hvpn, he, hn]
    rfl
  have hset : ∀ (e : Pgdir), e.pte = d.pte → ∀ j,
      (e.setPte k (some { page := mem, u := true })).pte j =
        if j = k then some { page := mem, u := true } else d.pte j := by
    intro e he j
    simp only [Pgdir.setPte, he]
  have htab : ∀ (e : Pgdir), e.pte = d.pte → (∀ j, d.has j → e.has j) →
      e.has (k / NPTENTRIES) = true → (e.setPte k (some { page := mem, u := true })).Tabled := by
    intro e he hh hek j x hx
    rw [hset e he j] at hx
    rw [Pgdir.has_setPte]
    split at hx
    · rename_i hj
      rw [hj]
      exact hek
    · exact hh _ (h j x hx)
  by_cases hhas : d.has (k / NPTENTRIES) = true
  · obtain ⟨a, ha⟩ := Option.isSome_iff_exists.mp hhas
    have hwalk : walkpgdir d (k * PGSIZE) true s = .ok (some d) s := by
      rw [walkpgdir, hpdx, ha]
      rfl
    refine ⟨_, s, hrest d s hwalk rfl, htab d rfl (fun _ hj => hj) hhas, hset d rfl, ?_, ?_⟩
    · simp [hhas]
    · simp [hhas, Pgdir.has_setPte]
  · have hno : d.has (k / NPTENTRIES) = false := by simpa using hhas
    cases s with
    | nil => exact absurd rfl (hf.resolve_left hhas)
    | cons a t =>
      have hnone : d.table (k / NPTENTRIES) = none := by simpa [Pgdir.has] using hno
      have hwalk : walkpgdir d (k * PGSIZE) true (a :: t) =
          .ok (some ((d.setTable (k / NPTENTRIES) (some a)).clearTable (k / NPTENTRIES))) t := by
        rw [walkpgdir, hpdx, hnone]
        rfl
      have hpte := Pgdir.pte_newTable h hno a
      have hhas' := Pgdir.has_newTable d (k / NPTENTRIES) a
      refine ⟨_, t, hrest _ t hwalk hpte, htab _ hpte ?_ ?_, hset _ hpte, ?_, ?_⟩
      · intro j hj
        rw [hhas']
        simp [hj]
      · rw [hhas']
        simp
      · simp [hno]
      · rw [Pgdir.has_setPte, hhas', if_neg hhas]

/-- `mappages` of one page when a page table is missing and no frame is left. -/
theorem mapPage_fail {k mem : Nat} (hk : k < 2 ^ 20) (hno : d.has (k / NPTENTRIES) = false) :
    mappages d (k * PGSIZE) PGSIZE mem true [] = .ok (d, false) [] := by
  have hone : (k * PGSIZE + PGSIZE - 1) / PGSIZE - k * PGSIZE / PGSIZE + 1 = 1 := by
    simp only [PGSIZE]
    omega
  have hbase : k * PGSIZE / PGSIZE * PGSIZE = k * PGSIZE := by
    simp only [PGSIZE]
    omega
  have hvpn : vpn (k * PGSIZE) = k := by
    simp only [vpn, u32, PGSIZE]
    omega
  have hpdx : PDX (k * PGSIZE) = k / NPTENTRIES := by rw [PDX, hvpn]
  have hnone : d.table (k / NPTENTRIES) = none := by simpa [Pgdir.has] using hno
  have hwalk : walkpgdir d (k * PGSIZE) true [] = .ok none [] := by
    rw [walkpgdir, hpdx, hnone]
    rfl
  rw [mappages, hone, hbase, mapLoop, Lib.run_bind hwalk]
  rfl

/-! ## Taking pages back -/

theorem deallocLoop_spec (last : Nat) : ∀ (fuel n : Nat) (d : Pgdir) (s : List Nat),
    last - n ≤ fuel → d.Tabled → ∃ d' s', deallocLoop last fuel n d s = .ok d' s' ∧
      ∀ k, d'.pte k = if n ≤ k ∧ k < last then none else d.pte k := by
  intro fuel
  induction fuel with
  | zero =>
    intro n d s hn _
    refine ⟨d, s, rfl, fun k => ?_⟩
    rw [if_neg (by omega)]
  | succ fuel ih =>
    intro n d s hn h
    unfold deallocLoop
    by_cases hlt : n < last
    · rw [if_pos hlt]
      cases hnone : d.table (n / NPTENTRIES) with
      | none =>
        -- nothing is mapped up to the next page table
        obtain ⟨d', s', hr, hp⟩ := ih ((n / NPTENTRIES + 1) * NPTENTRIES) d s
          (by simp only [NPTENTRIES]; omega) h
        refine ⟨d', s', hr, fun k => ?_⟩
        rw [hp k]
        by_cases hin : n ≤ k ∧ k < last
        · rw [if_pos hin]
          by_cases hk : (n / NPTENTRIES + 1) * NPTENTRIES ≤ k
          · rw [if_pos ⟨hk, hin.2⟩]
          · rw [if_neg (fun hc => hk hc.1)]
            cases hx : d.pte k with
            | none => rfl
            | some x =>
              have hhas := h k x hx
              have hdiv : k / NPTENTRIES = n / NPTENTRIES := by
                simp only [NPTENTRIES] at hk ⊢
                omega
              rw [hdiv, Pgdir.has, hnone] at hhas
              cases hhas
        · rw [if_neg hin, if_neg]
          intro hc
          have hle : n ≤ (n / NPTENTRIES + 1) * NPTENTRIES := by
            simp only [NPTENTRIES]
            omega
          exact hin ⟨hle.trans hc.1, hc.2⟩
      | some a =>
        cases hpte : d.pte n with
        | none =>
          obtain ⟨d', s', hr, hp⟩ := ih (n + 1) d s (by omega) h
          refine ⟨d', s', hr, fun k => ?_⟩
          rw [hp k]
          by_cases hkn : k = n
          · rw [hkn, if_neg (by omega), if_pos ⟨le_rfl, hlt⟩]
            exact hpte
          · by_cases hin : n ≤ k ∧ k < last
            · rw [if_pos hin, if_pos ⟨by omega, hin.2⟩]
            · rw [if_neg hin, if_neg (by omega)]
        | some x =>
          have htab : (d.setPte n none).Tabled := by
            intro k y hy
            simp only [Pgdir.setPte] at hy
            split at hy
            · cases hy
            · exact h k y hy
          have hfree : kfree x.page s = .ok () (x.page :: s) := rfl
          obtain ⟨d', s', hr, hp⟩ := ih (n + 1) (d.setPte n none) (x.page :: s) (by omega) htab
          refine ⟨d', s', ?_, fun k => ?_⟩
          · show (kfree x.page >>= fun _ => deallocLoop last fuel (n + 1) (d.setPte n none)) s = _
            rw [Lib.run_bind hfree]
            exact hr
          · rw [hp k]
            by_cases hkn : k = n
            · rw [hkn, if_neg (by omega), if_pos ⟨le_rfl, hlt⟩]
              simp [Pgdir.setPte]
            · by_cases hin : n ≤ k ∧ k < last
              · rw [if_pos hin, if_pos ⟨by omega, hin.2⟩]
              · rw [if_neg hin, if_neg (by omega)]
                simp [Pgdir.setPte, hkn]
    · rw [if_neg hlt]
      refine ⟨d, s, rfl, fun k => ?_⟩
      rw [if_neg (by omega)]

/-- `deallocuvm` from `newsz` back to `oldsz` unmaps the pages in between. -/
theorem deallocuvm_spec (h : d.Tabled) (newsz : Nat) {oldsz : Nat} (ho : oldsz < KERNBASE) :
    ∃ d' r s', deallocuvm d newsz oldsz s = .ok (d', r) s' ∧
      ∀ k, d'.pte k = if pagesOf oldsz ≤ k ∧ k < pagesOf newsz then none else d.pte k := by
  unfold deallocuvm
  by_cases hge : oldsz ≥ newsz
  · rw [if_pos hge]
    refine ⟨d, newsz, s, rfl, fun k => ?_⟩
    have hle : pagesOf newsz ≤ pagesOf oldsz := by
      simp only [pagesOf, PGSIZE]
      omega
    rw [if_neg (by omega)]
  · rw [if_neg hge]
    have hstart : u32 (PGROUNDUP oldsz) / PGSIZE = pagesOf oldsz := by
      simp only [u32, PGROUNDUP, pagesOf, PGSIZE, KERNBASE] at ho ⊢
      omega
    obtain ⟨d', s', hr, hp⟩ := deallocLoop_spec (pagesOf newsz) (pagesOf newsz)
      (pagesOf oldsz) d s (by omega) h
    refine ⟨d', oldsz, s', ?_, hp⟩
    simp only [hstart]
    exact Lib.run_bind hr

/-! ## allocuvm -/

/-- The state of `allocLoop` at page `k`: the pages from `first` on were mapped, the
others up to `last` are still free, and the rest is as in `d₀`. -/
structure Filled (d₀ d : Pgdir) (first k last : Nat) : Prop where
  tabled : d.Tabled
  pte : ∀ j, j < first ∨ k ≤ j → d.pte j = d₀.pte j
  new : ∀ j, first ≤ j → j < k → ∃ mem, d.pte j = some { page := mem, u := true }
  free : ∀ j, first ≤ j → j < last → d₀.pte j = none

/-- A failure takes back what was mapped. -/
theorem Filled.undo {d₀ : Pgdir} {k oldsz newsz : Nat}
    (h : Filled d₀ d (pagesOf oldsz) k (pagesOf newsz)) (hk : k ≤ pagesOf newsz)
    (ho : oldsz < KERNBASE) :
    ∃ d' r s', deallocuvm d newsz oldsz s = .ok (d', r) s' ∧ ∀ j, d'.pte j = d₀.pte j := by
  obtain ⟨d', r, s', hr, hp⟩ := deallocuvm_spec (s := s) h.tabled newsz ho
  refine ⟨d', r, s', hr, fun j => ?_⟩
  rw [hp j]
  by_cases hj : pagesOf oldsz ≤ j ∧ j < pagesOf newsz
  · rw [if_pos hj, h.free j hj.1 hj.2]
  · rw [if_neg hj]
    apply h.pte j
    omega

theorem Filled.next {d₀ : Pgdir} {first k last mem : Nat} (h : Filled d₀ d first k last)
    (hf : first ≤ k) (htab : d'.Tabled)
    (hp : ∀ j, d'.pte j = if j = k then some { page := mem, u := true } else d.pte j) :
    Filled d₀ d' first (k + 1) last := by
  refine ⟨htab, fun j hj => ?_, fun j h1 h2 => ?_, h.free⟩
  · rw [hp j, if_neg (by omega)]
    apply h.pte j
    omega
  · rw [hp j]
    by_cases hjk : j = k
    · rw [if_pos hjk]
      exact ⟨mem, rfl⟩
    · rw [if_neg hjk]
      exact h.new j h1 (by omega)

/-- The loop maps all its pages when there are frames enough for them and their
page tables, and otherwise leaves every mapping as it was before `allocuvm`. -/
theorem allocLoop_spec {d₀ : Pgdir} {oldsz newsz : Nat} (ho : oldsz < KERNBASE)
    (hw : newsz < KERNBASE) : ∀ (n k : Nat) (d : Pgdir) (s : List Nat),
    pagesOf oldsz ≤ k → k + n = pagesOf newsz → Filled d₀ d (pagesOf oldsz) k (pagesOf newsz) →
    ∃ d' r s', allocLoop oldsz newsz n (k * PGSIZE) d s = .ok (d', r) s' ∧
      (framesNeeded d.has n k ≤ s.length → r = newsz ∧
        Filled d₀ d' (pagesOf oldsz) (pagesOf newsz) (pagesOf newsz)) ∧
      (¬ framesNeeded d.has n k ≤ s.length → r = 0 ∧ ∀ j, d'.pte j = d₀.pte j) := by
  intro n
  induction n with
  | zero =>
    intro k d s _ hk h
    have hkl : k = pagesOf newsz := by omega
    refine ⟨d, newsz, s, rfl, fun _ => ⟨rfl, hkl ▸ h⟩, fun hno => ?_⟩
    exact absurd (Nat.zero_le _) hno
  | succ n ih =>
    intro k d s hf hk h
    have hk20 : k < 2 ^ 20 := by
      simp only [pagesOf, PGSIZE, KERNBASE] at hw hk
      omega
    have hnone : d.pte k = none := by
      rw [h.pte k (.inr le_rfl)]
      exact h.free k hf (by omega)
    have hkl : k ≤ pagesOf newsz := by omega
    cases s with
    | nil =>
      -- no frame for the page
      obtain ⟨d', r, s', hr, hp⟩ := h.undo (s := []) hkl ho
      refine ⟨d', 0, s', ?_, fun hle => ?_, fun _ => ⟨rfl, hp⟩⟩
      · have hka : kalloc [] = .ok none [] := rfl
        rw [allocLoop, Lib.run_bind hka]
        show (deallocuvm d newsz oldsz >>= fun r => pure (r.1, 0)) [] = _
        rw [Lib.run_bind hr]
        rfl
      · simp only [framesNeeded, List.length_nil] at hle
        split at hle <;> omega
    | cons mem t =>
      have hka : kalloc (mem :: t) = .ok (some mem) t := rfl
      by_cases hroom : d.has (k / NPTENTRIES) = true ∨ t ≠ []
      · obtain ⟨d₁, t₁, hmap, htab, hpte, hlen, hhas⟩ :=
          mapPage_ok h.tabled mem hk20 hnone hroom
        have hnext := h.next hf htab hpte
        have hadd : k * PGSIZE + PGSIZE = (k + 1) * PGSIZE := (Nat.succ_mul k PGSIZE).symm
        obtain ⟨d', r, s', hr, hyes, hno⟩ := ih (k + 1) d₁ t₁ (by omega) (by omega) hnext
        have hrun : allocLoop oldsz newsz (n + 1) (k * PGSIZE) d (mem :: t) = .ok (d', r) s' := by
          rw [allocLoop, Lib.run_bind hka]
          show (mappages d (k * PGSIZE) PGSIZE mem true >>= fun r =>
            if r.2 then allocLoop oldsz newsz n (k * PGSIZE + PGSIZE) r.1 else do
              let (d, _) ← deallocuvm r.1 newsz oldsz
              kfree mem
              return (d, 0)) t = _
          rw [Lib.run_bind hmap, hadd]
          exact hr
        -- the frames that are left are those that the rest of the loop needs
        have hcount : framesNeeded d.has (n + 1) k ≤ (mem :: t).length ↔
            framesNeeded d₁.has n (k + 1) ≤ t₁.length := by
          rw [hhas]
          simp only [framesNeeded, List.length_cons]
          split at hlen
          · rename_i hh
            rw [if_pos hh, if_pos hh]
            omega
          · rename_i hh
            rw [if_neg hh, if_neg hh]
            omega
        rw [hcount]
        exact ⟨d', r, s', hrun, hyes, hno⟩
      · -- no frame for the page table
        have hnohas : d.has (k / NPTENTRIES) = false := by
          simpa using fun hh => hroom (.inl hh)
        have ht : t = [] := by
          by_contra hne
          exact hroom (.inr hne)
        subst ht
        obtain ⟨d', r, s', hr, hp⟩ := h.undo (s := []) hkl ho
        refine ⟨d', 0, mem :: s', ?_, fun hle => ?_, fun _ => ⟨rfl, hp⟩⟩
        · rw [allocLoop, Lib.run_bind hka]
          show (mappages d (k * PGSIZE) PGSIZE mem true >>= fun r =>
            if r.2 then allocLoop oldsz newsz n (k * PGSIZE + PGSIZE) r.1 else do
              let (d, _) ← deallocuvm r.1 newsz oldsz
              kfree mem
              return (d, 0)) [] = _
          rw [Lib.run_bind (mapPage_fail hk20 hnohas)]
          show (deallocuvm d newsz oldsz >>= fun r => do
            kfree mem
            return (r.1, 0)) [] = _
          rw [Lib.run_bind hr]
          rfl
        · simp only [framesNeeded, hnohas, List.length_cons, List.length_nil] at hle
          simp only [Bool.false_eq_true, if_false] at hle
          omega

/-- `allocuvm` in a space that is in order. -/
theorem allocuvm_spec {p : Space} (h : p.Ok) (newsz : Nat) (free : List Nat) :
    ∃ d' r free', allocuvm p.pgdir p.sz newsz free = .ok (d', r) free' ∧
      (CanGrow p newsz free → r = max p.sz newsz ∧ d'.Tabled ∧
        (∀ j, j < pagesOf p.sz ∨ pagesOf r ≤ j → d'.pte j = p.pgdir.pte j) ∧
        ∀ j, pagesOf p.sz ≤ j → j < pagesOf r →
          ∃ mem, d'.pte j = some { page := mem, u := true }) ∧
      (¬ CanGrow p newsz free → r = 0 ∧ ∀ j, d'.pte j = p.pgdir.pte j) := by
  unfold allocuvm CanGrow
  have hsize := h.size
  by_cases hk : newsz ≥ KERNBASE
  · rw [if_pos hk]
    exact ⟨p.pgdir, 0, free, rfl, fun hc => absurd hc.1 (not_lt.mpr hk), fun _ => ⟨rfl, fun _ => rfl⟩⟩
  · rw [if_neg hk]
    have hlt : newsz < KERNBASE := not_le.mp hk
    by_cases hs : newsz < p.sz
    · rw [if_pos hs]
      refine ⟨p.pgdir, p.sz, free, rfl, fun _ => ⟨?_, h.tabled, fun _ _ => rfl,
        fun j h1 h2 => absurd h1 (not_le.mpr h2)⟩, fun hno => ?_⟩
      · exact (max_eq_left hs.le).symm
      · exact absurd ⟨hlt, .inl hs⟩ hno
    · rw [if_neg hs]
      have hstart : u32 (PGROUNDUP p.sz) = pagesOf p.sz * PGSIZE := by
        simp only [u32, PGROUNDUP, pagesOf, PGSIZE, KERNBASE] at hsize ⊢
        omega
      have hcount : (newsz - pagesOf p.sz * PGSIZE + PGSIZE - 1) / PGSIZE =
          pagesOf newsz - pagesOf p.sz := by
        simp only [pagesOf, PGSIZE]
        omega
      have hle : pagesOf p.sz ≤ pagesOf newsz := by
        simp only [pagesOf, PGSIZE]
        omega
      have hbase : pagesOf newsz ≤ KERNBASE / PGSIZE := by
        simp only [pagesOf, PGSIZE, KERNBASE] at hlt ⊢
        omega
      have hfill : Filled p.pgdir p.pgdir (pagesOf p.sz) (pagesOf p.sz) (pagesOf newsz) :=
        ⟨h.tabled, fun _ _ => rfl, fun j h1 h2 => absurd h1 (not_le.mpr h2),
          fun j h1 h2 => h.above j h1 (by omega)⟩
      obtain ⟨d', r, free', hr, hyes, hno⟩ := allocLoop_spec hsize hlt
        (pagesOf newsz - pagesOf p.sz) (pagesOf p.sz) p.pgdir free le_rfl (by omega) hfill
      refine ⟨d', r, free', ?_, fun hc => ?_, fun hc => ?_⟩
      · simp only [hstart, hcount]
        exact hr
      · obtain ⟨rfl, hf⟩ := hyes (hc.2.resolve_left hs)
        exact ⟨(max_eq_right (not_lt.mp hs)).symm, hf.tabled, hf.pte, hf.new⟩
      · exact hno (fun hle => hc ⟨hlt, .inr hle⟩)

/-- The space after `allocuvm` is in order as well. -/
theorem Space.Ok.grown {p : Space} (h : p.Ok) {newsz r limit : Nat} (hn : newsz < KERNBASE)
    (hr : r = max p.sz newsz) (ht : d'.Tabled)
    (hs : ∀ j, j < pagesOf p.sz ∨ pagesOf r ≤ j → d'.pte j = p.pgdir.pte j)
    (hw : ∀ j, pagesOf p.sz ≤ j → j < pagesOf r → ∃ mem, d'.pte j = some { page := mem, u := true }) :
    Space.Ok { pgdir := d', sz := r, limit := limit } := by
  have hsize := h.size
  refine ⟨?_, fun k hk => ?_, fun k h1 h2 => ?_, ht⟩
  · show r < KERNBASE
    omega
  · show (d'.pte k).isSome
    by_cases hko : k < pagesOf p.sz
    · rw [hs k (.inl hko)]
      exact h.below k hko
    · obtain ⟨mem, hm⟩ := hw k (not_lt.mp hko) hk
      rw [hm]
      rfl
  · show d'.pte k = none
    rw [hs k (.inr h1)]
    apply h.above k ?_ h2
    have hle : pagesOf p.sz ≤ pagesOf r := by
      simp only [pagesOf, PGSIZE]
      omega
    exact hle.trans h1

end Rules

/-! ## sbrk -/

section Sbrk

variable {p : Space} {n : Int}

/-- `sbrk(n)` in a space that is in order, for a positive `n`: it grows to the
target of `growproc`, or changes nothing. -/
theorem sbrk_spec (h : p.Ok) (free : List Nat) (hn : 0 < n) (ht : 0 < growTarget p.sz p.limit n) :
    ∃ q r free', sys_sbrk p n free = .ok (q, r) free' ∧
      (CanGrow p (growTarget p.sz p.limit n) free → r = p.sz ∧
        q.sz = max p.sz (growTarget p.sz p.limit n) ∧ q.Ok) ∧
      (¬ CanGrow p (growTarget p.sz p.limit n) free → r = -1 ∧ q.sz = p.sz ∧
        ∀ k, q.pgdir.pte k = p.pgdir.pte k) := by
  have hsize := h.size
  have hint : toInt p.sz = p.sz := if_pos hsize
  obtain ⟨d', r, free', hr, hyes, hno⟩ := allocuvm_spec h (growTarget p.sz p.limit n) free
  have hgrow : growproc p n = (allocuvm p.pgdir p.sz (growTarget p.sz p.limit n) >>= fun x =>
      if x.2 = 0 then return ({ p with pgdir := x.1 }, -1)
      else return ({ p with pgdir := x.1, sz := x.2 }, 0)) := by
    simp only [growproc, hn, if_true]
  by_cases hc : CanGrow p (growTarget p.sz p.limit n) free
  · obtain ⟨hmax, htab, hsame, hnew⟩ := hyes hc
    have hpos : r ≠ 0 := by omega
    have hg : growproc p n free = .ok ({ p with pgdir := d', sz := r }, 0) free' := by
      rw [hgrow, Lib.run_bind hr]
      simp only [if_neg hpos]
      rfl
    refine ⟨{ p with pgdir := d', sz := r }, p.sz, free', ?_, fun _ => ⟨rfl, hmax, ?_⟩,
      fun hc' => absurd hc hc'⟩
    · rw [sys_sbrk, Lib.run_bind hg, hint]
      rfl
    · exact h.grown hc.1 hmax htab hsame hnew
  · obtain ⟨rfl, hsame⟩ := hno hc
    have hg : growproc p n free = .ok ({ p with pgdir := d' }, -1) free' := by
      rw [hgrow, Lib.run_bind hr]
      rfl
    refine ⟨{ p with pgdir := d' }, -1, free', ?_, fun hc' => absurd hc' hc,
      fun _ => ⟨rfl, rfl, hsame⟩⟩
    rw [sys_sbrk, Lib.run_bind hg]
    rfl

/-- Without a clamp the sum does not wrap, for an `int` added to a size below the
kernel. -/
theorem growTarget_eq (hs : p.sz < KERNBASE) (hn : 0 < n) (hm : n < 2 ^ 31) :
    (growTarget p.sz p.limit n : Int) =
      if p.limit ≠ 0 ∧ (p.limit : Int) < p.sz + n then (p.limit : Int) else p.sz + n := by
  have hadd : (addU p.sz n : Int) = p.sz + n := by
    simp only [addU, KERNBASE] at hs ⊢
    omega
  simp only [growTarget, gt_iff_lt]
  by_cases hc : p.limit ≠ 0 ∧ (p.limit : Int) < p.sz + n
  · rw [if_pos hc, if_pos ⟨hc.1, by omega⟩]
  · rw [if_neg hc, if_neg (fun h => hc ⟨h.1, by omega⟩)]
    exact hadd

/-- `sbrk(n)` keeps its contract exactly when the new size does not pass the limit,
or growing to the limit fails. -/
theorem sbrk_contract_iff (p : Space) (n : Int) (free : List Nat) (h : p.Ok) (hn : 0 < n)
    (hm : n < 2 ^ 31) :
    SbrkContract p n free ↔
      p.limit = 0 ∨ p.sz + n ≤ p.limit ∨ ¬ CanGrow p p.limit free := by
  have hsize := h.size
  have htarget := growTarget_eq (p := p) hsize hn hm
  have hpos : 0 < growTarget p.sz p.limit n := by
    split at htarget <;> omega
  obtain ⟨q, r, free', hr, hyes, hno⟩ := sbrk_spec h free hn hpos
  constructor
  · intro ⟨q', r', free'', hr', hrange, _⟩
    rw [hr, EStateM.Result.ok.injEq, Prod.mk.injEq] at hr'
    obtain ⟨⟨rfl, rfl⟩, rfl⟩ := hr'
    by_contra hcon
    simp only [not_or, not_not] at hcon
    obtain ⟨hl, hlt, hc⟩ := hcon
    rw [if_pos ⟨hl, not_le.mp hlt⟩] at htarget
    have htl : growTarget p.sz p.limit n = p.limit := by exact_mod_cast htarget
    rw [htl] at hyes
    obtain ⟨hrsz, hqsz, -⟩ := hyes hc
    -- the last byte that was asked for is not below the new size
    have hlast := (hrange (by omega) (p.sz + n.toNat - 1) (by omega) (by omega)).1
    omega
  · intro hcond
    refine ⟨q, r, free', hr, fun hne va h1 h2 => ?_, fun hm1 => ?_⟩
    · have hc : CanGrow p (growTarget p.sz p.limit n) free := by
        by_contra hc
        exact hne (hno hc).1
      obtain ⟨hrsz, hqsz, hqok⟩ := hyes hc
      have hunclamped : ¬ (p.limit ≠ 0 ∧ (p.limit : Int) < p.sz + n) := by
        intro hcl
        rw [if_pos hcl] at htarget
        have htl : growTarget p.sz p.limit n = p.limit := by exact_mod_cast htarget
        rw [htl] at hc
        rcases hcond with h0 | hle | hng
        · exact hcl.1 h0
        · omega
        · exact hng hc
      rw [if_neg hunclamped] at htarget
      have hva : va < q.sz := by omega
      refine ⟨hva, ?_⟩
      have hqlt := hqok.size
      apply hqok.below
      simp only [vpn, u32, pagesOf, PGSIZE, KERNBASE] at hqlt ⊢
      omega
    · have hc : ¬ CanGrow p (growTarget p.sz p.limit n) free := by
        intro hc
        obtain ⟨hrsz, -⟩ := hyes hc
        omega
      exact (hno hc).2

end Sbrk

/-- A process after `exec`: one page of text, the guard page and one stack page. -/
def smallSpace (limit : Nat) : Space where
  pgdir :=
    { page := 0x8DFF0000
      table := fun i => if i = 0 then some 0x8DFF1000 else none
      pte := fun k =>
        if k < 3 then some { page := 0x8DFF2000 + k * PGSIZE, u := k != 1 } else none }
  sz := 3 * PGSIZE
  limit := limit

theorem smallSpace_ok (limit : Nat) : (smallSpace limit).Ok := by
  have hpte : ∀ k, ((smallSpace limit).pgdir.pte k).isSome ↔ k < 3 := by
    intro k
    simp only [smallSpace]
    split <;> simp [*]
  have hsize : (smallSpace limit).sz = 12288 := rfl
  have hpages : pagesOf (smallSpace limit).sz = 3 := by rw [hsize]; decide
  refine ⟨by rw [hsize]; decide, fun k hk => (hpte k).mpr (hpages ▸ hk), fun k hk _ => ?_,
    fun k x hx => ?_⟩
  · have hk3 : ¬ k < 3 := not_lt.mpr (hpages ▸ hk)
    exact Option.not_isSome_iff_eq_none.mp (fun hs => hk3 ((hpte k).mp hs))
  · have hk3 : k < 3 := (hpte k).mp (by rw [hx]; rfl)
    have hdiv : k / NPTENTRIES = 0 := Nat.div_eq_of_lt (hk3.trans (by decide))
    rw [hdiv]
    rfl

theorem sbrk_contract_iff_smallSpace : SbrkContract (smallSpace 0) 32768 [0x8DFE0000] ∧
    SbrkContract (smallSpace 65536) 32768 (List.replicate 8 0x8DFE0000) :=
  ⟨(sbrk_contract_iff _ _ _ (smallSpace_ok 0) (by decide) (by decide)).mpr (.inl rfl),
    (sbrk_contract_iff _ _ _ (smallSpace_ok 65536) (by decide) (by decide)).mpr
      (.inr (.inl (by decide)))⟩

/-- `morecore` asks for 32768 bytes, and the limit leaves room for 4096: `sbrk`
answers with the old size, and only one page follows. -/
theorem sbrk_stops_at_limit : (smallSpace 16384).Ok ∧
    ¬ SbrkContract (smallSpace 16384) 32768 [0x8DFE0000] := by
  refine ⟨smallSpace_ok 16384, fun h => ?_⟩
  obtain ⟨q, r, free', hr, hrange, -⟩ := h
  have hrun : (match sys_sbrk (smallSpace 16384) 32768 [0x8DFE0000] with
      | .ok (q, r) _ => decide (r = 12288 ∧ q.sz = 16384)
      | .error _ _ => false) = true := by
    decide +kernel
  rw [hr] at hrun
  obtain ⟨hr0, hsz⟩ := of_decide_eq_true hrun
  have hlast := (hrange (by omega) 16384 (by omega) (by omega)).1
  omega

end Xv6.Vm
