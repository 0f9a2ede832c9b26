import Xv6.Lib.Hoare
import Xv6.Lwp.Proc

/- Pages and page tables (`project2_LWP/kalloc.c`, `vm.c`). The state is the free
   list of `kmem`; a page is its kernel address. A page directory is a value: its
   own page, the pages of its page tables, and for each virtual page the frame it
   is mapped to and the `PTE_U` bit. What the frames contain is left out, so
   `copyout` and `loaduvm` keep only their checks and results.

   `Uses F d` says that every page of `d` that `freevm` would free comes from `F`:
   code that starts with the free list `F` and works on a directory it has built
   itself gives back no page from elsewhere. -/
namespace Xv6.Vm
open Lwp (PGSIZE KERNBASE PGROUNDUP)

abbrev NPDENTRIES : Nat := 1024
abbrev NPTENTRIES : Nat := 1024
abbrev EXTMEM : Nat := 0x100000
abbrev PHYSTOP : Nat := 0xE000000
abbrev DEVSPACE : Nat := 0xFE000000
abbrev KERNLINK : Nat := KERNBASE + EXTMEM

/-- Arithmetic on `uint`. -/
def u32 (n : Nat) : Nat := n % 2 ^ 32

/-- The number of the virtual page of an address, and its index in the directory. -/
def vpn (va : Nat) : Nat := u32 va / PGSIZE
def PDX (va : Nat) : Nat := vpn va / NPTENTRIES

/-- A page table entry with `PTE_P`: the frame, by its kernel address, and `PTE_U`. -/
structure Pte where
  page : Nat
  u : Bool
  deriving DecidableEq, Repr

/-- A page directory and its page tables; `pte` by virtual page number. -/
structure Pgdir where
  page : Nat
  table : Nat → Option Nat
  pte : Nat → Option Pte

namespace Pgdir

def setTable (d : Pgdir) (i : Nat) (a : Option Nat) : Pgdir :=
  { d with table := fun j => if j = i then a else d.table j }

def setPte (d : Pgdir) (n : Nat) (x : Option Pte) : Pgdir :=
  { d with pte := fun k => if k = n then x else d.pte k }

/-- A page table full of zeros. -/
def clearTable (d : Pgdir) (i : Nat) : Pgdir :=
  { d with pte := fun k => if k / NPTENTRIES = i then none else d.pte k }

end Pgdir

/-- Kernel code that works on the free list of `kmem` and may panic. -/
abbrev VmM := EStateM String (List Nat)

def kalloc : VmM (Option Nat) := do
  match ← get with
  | [] => return none
  | a :: free =>
    set free
    return some a

def kfree (a : Nat) : VmM Unit := modify (a :: ·)

/-- The directory in which the page table for `va` exists, if it does. -/
def walkpgdir (d : Pgdir) (va : Nat) (alloc : Bool) : VmM (Option Pgdir) :=
  match d.table (PDX va) with
  | some _ => return some d
  | none =>
    if alloc then do
      match ← kalloc with
      | none => return none
      | some a => return some ((d.setTable (PDX va) (some a)).clearTable (PDX va))
    else return none

/-- The loop of `mappages` over `n` pages from `a` on. -/
def mapLoop (u : Bool) : Nat → Nat → Nat → Pgdir → VmM (Pgdir × Bool)
  | 0, _, _, d => return (d, true)
  | n + 1, a, pa, d => do
    match ← walkpgdir d a true with
    | none => return (d, false)
    | some d =>
      if (d.pte (vpn a)).isSome then throw "remap"
      mapLoop u n (a + PGSIZE) (pa + PGSIZE) (d.setPte (vpn a) (some { page := pa, u := u }))

/-- `mappages`; `pa` is the kernel address of the first frame. -/
def mappages (d : Pgdir) (va size pa : Nat) (u : Bool) : VmM (Pgdir × Bool) :=
  mapLoop u ((va + size - 1) / PGSIZE - va / PGSIZE + 1) (va / PGSIZE * PGSIZE) pa d

/-- The loop of `deallocuvm` from page `n` to page `last`. Where there is no page
table the code goes on at the next one. -/
def deallocLoop (last : Nat) : Nat → Nat → Pgdir → VmM Pgdir
  | 0, _, d => return d
  | fuel + 1, n, d =>
    if n < last then
      match d.table (n / NPTENTRIES) with
      | none => deallocLoop last fuel ((n / NPTENTRIES + 1) * NPTENTRIES) d
      | some _ =>
        match d.pte n with
        | none => deallocLoop last fuel (n + 1) d
        | some x => do
          kfree x.page
          deallocLoop last fuel (n + 1) (d.setPte n none)
    else return d

def deallocuvm (d : Pgdir) (oldsz newsz : Nat) : VmM (Pgdir × Nat) :=
  if newsz ≥ oldsz then return (d, oldsz)
  else do
    let last := (oldsz + PGSIZE - 1) / PGSIZE
    let d ← deallocLoop last last (u32 (PGROUNDUP newsz) / PGSIZE) d
    return (d, newsz)

/-- The loop of `freevm` over the directory. -/
def freeTables (d : Pgdir) : Nat → VmM Unit
  | 0 => return ()
  | n + 1 => do
    match d.table (NPDENTRIES - (n + 1)) with
    | some a => kfree a
    | none => pure ()
    freeTables d n

/-- `freevm`. The directory it leaves is a freed page and maps nothing. -/
def freevm (d : Pgdir) : VmM Pgdir := do
  let (d, _) ← deallocuvm d KERNBASE 0
  freeTables d NPDENTRIES
  kfree d.page
  return { page := d.page, table := fun _ => none, pte := fun _ => none }

/-- The loop of `allocuvm` over `n` pages from `a` on; `oldsz` and `newsz` are for
giving the new pages back. -/
def allocLoop (oldsz newsz : Nat) : Nat → Nat → Pgdir → VmM (Pgdir × Nat)
  | 0, _, d => return (d, newsz)
  | n + 1, a, d => do
    match ← kalloc with
    | none =>
      let (d, _) ← deallocuvm d newsz oldsz
      return (d, 0)
    | some mem =>
      let (d, ok) ← mappages d a PGSIZE mem true
      if ok then allocLoop oldsz newsz n (a + PGSIZE) d
      else
        let (d, _) ← deallocuvm d newsz oldsz
        kfree mem
        return (d, 0)

/-- `allocuvm`: the new size, or 0. -/
def allocuvm (d : Pgdir) (oldsz newsz : Nat) : VmM (Pgdir × Nat) :=
  if newsz ≥ KERNBASE then return (d, 0)
  else if newsz < oldsz then return (d, oldsz)
  else
    let a := u32 (PGROUNDUP oldsz)
    allocLoop oldsz newsz ((newsz - a + PGSIZE - 1) / PGSIZE) a d

/-- `clearpteu`. -/
def clearpteu (d : Pgdir) (va : Nat) : VmM Pgdir :=
  match d.table (PDX va) with
  | none => throw "clearpteu"
  | some _ =>
    return match d.pte (vpn va) with
    | none => d
    | some x => d.setPte (vpn va) (some { x with u := false })

/-- `uva2ka`, for its result: whether the page is there for the user. A page
without a page table is a null pointer that the code follows. -/
def uva2ka (d : Pgdir) (va : Nat) : VmM Bool :=
  match d.table (PDX va) with
  | none => throw "uva2ka"
  | some _ => return (d.pte (vpn va)).any (·.u)

/-- `copyout` of `len` bytes to `va`; every round copies at least one byte. -/
def copyLoop (d : Pgdir) : Nat → Nat → Nat → VmM Bool
  | 0, _, _ => return true
  | fuel + 1, va, len =>
    if len = 0 then return true
    else do
      let va0 := va / PGSIZE * PGSIZE
      if ← uva2ka d va0 then
        copyLoop d fuel (u32 (va0 + PGSIZE)) (len - min (PGSIZE - (va - va0)) len)
      else return false

def copyout (d : Pgdir) (va len : Nat) : VmM Bool := copyLoop d len va len

/-- The kernel image: the linker puts `data` behind the kernel text. -/
structure Layout where
  data : Nat
  low : KERNLINK < data
  high : data < KERNBASE + PHYSTOP

/-- `kmap[]` as virtual address, first frame and size. -/
def kmap (data : Nat) : List (Nat × Nat × Nat) :=
  [(KERNBASE, KERNBASE, EXTMEM), (KERNLINK, KERNLINK, data - KERNLINK),
   (data, data, PHYSTOP + KERNBASE - data), (DEVSPACE, DEVSPACE + KERNBASE, 2 ^ 32 - DEVSPACE)]

def mapKernel : List (Nat × Nat × Nat) → Pgdir → VmM (Pgdir × Bool)
  | [], d => return (d, true)
  | (virt, pa, size) :: ks, d => do
    let (d, ok) ← mappages d virt size pa false
    if ok then mapKernel ks d else return (d, false)

def setupkvm (L : Layout) : VmM (Option Pgdir) := do
  match ← kalloc with
  | none => return none
  | some a =>
    let (d, ok) ← mapKernel (kmap L.data) { page := a, table := fun _ => none, pte := fun _ => none }
    if ok then return some d
    else
      let _ ← freevm d
      return none

/-! ## Pages go back where they came from -/

/-- Every free page is one of `F`. -/
def Within (F free : List Nat) : Prop := ∀ a ∈ free, a ∈ F

/-- Every page that `freevm` would free is one of `F`. -/
structure Pgdir.Uses (F : List Nat) (d : Pgdir) : Prop where
  page : d.page ∈ F
  table : ∀ i a, d.table i = some a → a ∈ F
  pte : ∀ n x, n < KERNBASE / PGSIZE → d.pte n = some x → x.page ∈ F

section Rules

variable {F s : List Nat} {d : Pgdir}

/-- Kernel code gives a result with `Q` and leaves the free list within `F`. -/
def Gives {α : Type} (F : List Nat) (x : VmM α) (Q : α → Prop) (s : List Nat) : Prop :=
  Lib.wp x (fun a s' => Within F s' ∧ Q a) (fun _ _ => True) s

theorem Gives.bind {α β : Type} {x : VmM α} {f : α → VmM β} {P : α → Prop} {Q : β → Prop}
    (h : Gives F x P s) (hf : ∀ a s', Within F s' → P a → Gives F (f a) Q s') :
    Gives F (x >>= f) Q s :=
  Lib.wp.bind h (fun _ _ _ => trivial) (fun a s' ha => hf a s' ha.1 ha.2)

theorem gives_pure {α : Type} {a : α} {Q : α → Prop} (hs : Within F s) (h : Q a) :
    Gives F (pure a) Q s :=
  ⟨hs, h⟩

theorem gives_throw {α : Type} {e : String} {Q : α → Prop} : Gives F (throw e) Q s := trivial

theorem gives_kalloc (hs : Within F s) : Gives F kalloc (fun r => ∀ a, r = some a → a ∈ F) s := by
  cases s with
  | nil => exact ⟨hs, fun a ha => by cases ha⟩
  | cons a free =>
    refine ⟨fun b hb => hs b (by simp [hb]), fun b hb => ?_⟩
    cases hb
    exact hs a (by simp)

theorem gives_kfree {a : Nat} (hs : Within F s) (ha : a ∈ F) : Gives F (kfree a) (fun _ => True) s := by
  refine ⟨fun b hb => ?_, trivial⟩
  rcases List.mem_cons.mp hb with rfl | hb
  · exact ha
  · exact hs b hb

theorem Pgdir.Uses.newTable (h : d.Uses F) {a : Nat} (ha : a ∈ F) (i : Nat) :
    ((d.setTable i (some a)).clearTable i).Uses F := by
  refine ⟨h.page, fun j b hb => ?_, fun n x hn hx => ?_⟩
  · by_cases hj : j = i
    · simp only [Pgdir.clearTable, Pgdir.setTable, hj, if_true, Option.some.injEq] at hb
      exact hb ▸ ha
    · simp only [Pgdir.clearTable, Pgdir.setTable, hj, if_false] at hb
      exact h.table j b hb
  · simp only [Pgdir.clearTable, Pgdir.setTable] at hx
    split at hx
    · cases hx
    · exact h.pte n x hn hx

theorem Pgdir.Uses.setPte (h : d.Uses F) {n : Nat} {x : Option Pte}
    (hx : ∀ y, x = some y → n < KERNBASE / PGSIZE → y.page ∈ F) : (d.setPte n x).Uses F := by
  refine ⟨h.page, h.table, fun k y hk hy => ?_⟩
  simp only [Pgdir.setPte] at hy
  split at hy
  · rename_i he
    exact hx y hy (he ▸ hk)
  · exact h.pte k y hk hy

theorem gives_walkpgdir (hs : Within F s) (h : d.Uses F) (va : Nat) (alloc : Bool) :
    Gives F (walkpgdir d va alloc) (fun r => ∀ d', r = some d' → d'.Uses F) s := by
  unfold walkpgdir
  split
  · exact gives_pure hs (fun d' hd => by cases hd; exact h)
  · split
    · refine (gives_kalloc hs).bind (fun r s' hs' hr => ?_)
      cases r with
      | none => exact gives_pure hs' (fun d' hd => by cases hd)
      | some a => exact gives_pure hs' (fun d' hd => by cases hd; exact h.newTable (hr a rfl) _)
    · exact gives_pure hs (fun d' hd => by cases hd)

/-- The frames of user pages come from `F`; where the kernel is mapped any frame
will do. -/
theorem gives_mapLoop (u : Bool) : ∀ (n a pa : Nat) (d : Pgdir) (s : List Nat), Within F s →
    d.Uses F → (∀ k, k < n → vpn (a + k * PGSIZE) < KERNBASE / PGSIZE → pa + k * PGSIZE ∈ F) →
    Gives F (mapLoop u n a pa d) (fun r => r.1.Uses F) s := by
  intro n
  induction n with
  | zero => exact fun a pa d s hs h _ => gives_pure hs h
  | succ n ih =>
    intro a pa d s hs h hpa
    unfold mapLoop
    refine (gives_walkpgdir hs h a true).bind (fun r s' hs' hr => ?_)
    cases r with
    | none => exact gives_pure hs' h
    | some d' =>
      have hd' := hr d' rfl
      simp only
      split
      · exact gives_throw
      · have hset : (d'.setPte (vpn a) (some { page := pa, u := u })).Uses F := by
          refine hd'.setPte (fun y hy hlt => ?_)
          cases hy
          have h0 := hpa 0 (Nat.succ_pos n)
          rw [Nat.zero_mul, Nat.add_zero, Nat.add_zero] at h0
          exact h0 hlt
        refine ih (a + PGSIZE) (pa + PGSIZE) _ s' hs' hset (fun k hk hlt => ?_)
        have hk1 := hpa (k + 1) (by omega)
        rw [Nat.succ_mul, Nat.add_comm (k * PGSIZE) PGSIZE, ← Nat.add_assoc, ← Nat.add_assoc] at hk1
        exact hk1 hlt

theorem gives_deallocLoop {last : Nat} (hl : last ≤ KERNBASE / PGSIZE) : ∀ (fuel n : Nat) (d : Pgdir)
    (s : List Nat), Within F s → d.Uses F →
    Gives F (deallocLoop last fuel n d) (fun d' => d'.Uses F) s := by
  intro fuel
  induction fuel with
  | zero => exact fun n d s hs h => gives_pure hs h
  | succ fuel ih =>
    intro n d s hs h
    unfold deallocLoop
    split
    · rename_i hn
      split
      · exact ih _ d s hs h
      · split
        · exact ih _ d s hs h
        · rename_i x hx
          have hpage : x.page ∈ F := h.pte n x (by omega) hx
          refine (gives_kfree hs hpage).bind (fun _ s' hs' _ => ?_)
          exact ih _ _ s' hs' (h.setPte (fun y hy => by cases hy))
    · exact gives_pure hs h

theorem gives_deallocuvm (hs : Within F s) (h : d.Uses F) {oldsz : Nat} (ho : oldsz ≤ KERNBASE)
    (newsz : Nat) : Gives F (deallocuvm d oldsz newsz) (fun r => r.1.Uses F) s := by
  unfold deallocuvm
  split
  · exact gives_pure hs h
  · have hl : (oldsz + PGSIZE - 1) / PGSIZE ≤ KERNBASE / PGSIZE := by
      simp only [KERNBASE, PGSIZE] at ho ⊢
      omega
    exact (gives_deallocLoop hl _ _ d s hs h).bind (fun d' s' hs' hd => gives_pure hs' hd)

theorem gives_freeTables (h : d.Uses F) : ∀ (n : Nat) (s : List Nat), Within F s →
    Gives F (freeTables d n) (fun _ => True) s := by
  intro n
  induction n with
  | zero => exact fun s hs => gives_pure hs trivial
  | succ n ih =>
    intro s hs
    unfold freeTables
    split
    · rename_i a ha
      exact (gives_kfree hs (h.table _ a ha)).bind (fun _ s' hs' _ => ih s' hs')
    · exact ih s hs

theorem gives_freevm (hs : Within F s) (h : d.Uses F) : Gives F (freevm d) (fun _ => True) s := by
  unfold freevm
  refine (gives_deallocuvm hs h le_rfl 0).bind (fun r s' hs' hr => ?_)
  refine (gives_freeTables hr _ s' hs').bind (fun _ s' hs' _ => ?_)
  exact (gives_kfree hs' hr.page).bind (fun _ s' hs' _ => gives_pure hs' trivial)

theorem gives_mapPage (hs : Within F s) (h : d.Uses F) {a mem : Nat} (ha : a % PGSIZE = 0)
    (hm : mem ∈ F) : Gives F (mappages d a PGSIZE mem true) (fun r => r.1.Uses F) s := by
  have hn : (a + PGSIZE - 1) / PGSIZE - a / PGSIZE + 1 = 1 := by
    simp only [PGSIZE] at ha ⊢
    omega
  unfold mappages
  rw [hn]
  refine gives_mapLoop true 1 _ mem d s hs h (fun k hk _ => ?_)
  have hk0 : k = 0 := by omega
  rw [hk0, Nat.zero_mul, Nat.add_zero]
  exact hm

theorem gives_allocLoop {oldsz newsz : Nat} (hn : newsz ≤ KERNBASE) : ∀ (n a : Nat) (d : Pgdir)
    (s : List Nat), a % PGSIZE = 0 → Within F s → d.Uses F →
    Gives F (allocLoop oldsz newsz n a d) (fun r => r.1.Uses F) s := by
  intro n
  induction n with
  | zero => exact fun a d s _ hs h => gives_pure hs h
  | succ n ih =>
    intro a d s ha hs h
    unfold allocLoop
    refine (gives_kalloc hs).bind (fun r s' hs' hr => ?_)
    cases r with
    | none =>
      refine (gives_deallocuvm hs' h hn oldsz).bind (fun r s' hs' hr => ?_)
      exact gives_pure hs' hr
    | some mem =>
      refine (gives_mapPage hs' h ha (hr mem rfl)).bind (fun r s' hs' hd => ?_)
      obtain ⟨d', ok⟩ := r
      cases ok with
      | true => exact ih (a + PGSIZE) d' s' (by rw [Nat.add_mod_right]; exact ha) hs' hd
      | false =>
        refine (gives_deallocuvm hs' hd hn oldsz).bind (fun r s' hs' hd' => ?_)
        exact (gives_kfree hs' (hr mem rfl)).bind (fun _ s' hs' _ => gives_pure hs' hd')

theorem gives_allocuvm (hs : Within F s) (h : d.Uses F) (oldsz newsz : Nat) :
    Gives F (allocuvm d oldsz newsz) (fun r => r.1.Uses F) s := by
  unfold allocuvm
  split
  · exact gives_pure hs h
  · split
    · exact gives_pure hs h
    · refine gives_allocLoop (by omega) _ _ d s ?_ hs h
      simp only [u32, PGROUNDUP, PGSIZE]
      omega

theorem gives_clearpteu (hs : Within F s) (h : d.Uses F) (va : Nat) :
    Gives F (clearpteu d va) (fun d' => d'.Uses F) s := by
  unfold clearpteu
  split
  · exact gives_throw
  · refine gives_pure hs ?_
    split
    · exact h
    · rename_i x hx
      refine h.setPte (fun y hy hlt => ?_)
      cases hy
      exact h.pte _ x hlt hx

theorem gives_copyLoop (d : Pgdir) : ∀ (fuel va len : Nat) (s : List Nat), Within F s →
    Gives F (copyLoop d fuel va len) (fun _ => True) s := by
  intro fuel
  induction fuel with
  | zero => exact fun va len s hs => gives_pure hs trivial
  | succ fuel ih =>
    intro va len s hs
    unfold copyLoop
    split
    · exact gives_pure hs trivial
    · have hka : Gives F (uva2ka d (va / PGSIZE * PGSIZE)) (fun _ => True) s := by
        unfold uva2ka
        split
        · exact gives_throw
        · exact gives_pure hs trivial
      refine hka.bind (fun r s' hs' _ => ?_)
      cases r with
      | true => exact ih _ _ s' hs'
      | false => exact gives_pure hs' trivial

theorem gives_copyout (hs : Within F s) (d : Pgdir) (va len : Nat) :
    Gives F (copyout d va len) (fun _ => True) s :=
  gives_copyLoop d len va len s hs

/-- A mapping of the kernel's half takes no user page. -/
theorem gives_mapHigh (hs : Within F s) (h : d.Uses F) {virt pa size : Nat} (hv : KERNBASE ≤ virt)
    (h0 : 0 < size) (he : virt + size ≤ 2 ^ 32) :
    Gives F (mappages d virt size pa false) (fun r => r.1.Uses F) s := by
  unfold mappages
  refine gives_mapLoop false _ _ pa d s hs h (fun k hk hlt => ?_)
  simp only [vpn, u32, KERNBASE, PGSIZE] at hv he hk hlt
  omega

theorem gives_mapKernel : ∀ (ks : List (Nat × Nat × Nat)) (d : Pgdir) (s : List Nat), Within F s →
    d.Uses F → (∀ k ∈ ks, KERNBASE ≤ k.1 ∧ 0 < k.2.2 ∧ k.1 + k.2.2 ≤ 2 ^ 32) →
    Gives F (mapKernel ks d) (fun r => r.1.Uses F) s := by
  intro ks
  induction ks with
  | nil => exact fun d s hs h _ => gives_pure hs h
  | cons k ks ih =>
    intro d s hs h hk
    obtain ⟨h1, h2, h3⟩ := hk k (by simp)
    unfold mapKernel
    refine (gives_mapHigh hs h h1 h2 h3).bind (fun r s' hs' hr => ?_)
    obtain ⟨d', ok⟩ := r
    cases ok with
    | true => exact ih d' s' hs' hr (fun k' hk' => hk k' (by simp [hk']))
    | false => exact gives_pure hs' hr

theorem gives_setupkvm (hs : Within F s) (L : Layout) :
    Gives F (setupkvm L) (fun r => ∀ d, r = some d → d.Uses F) s := by
  unfold setupkvm
  refine (gives_kalloc hs).bind (fun r s' hs' hr => ?_)
  cases r with
  | none => exact gives_pure hs' (fun d hd => by cases hd)
  | some a =>
    have hnew : ({ page := a, table := fun _ => none, pte := fun _ => none } : Pgdir).Uses F :=
      ⟨hr a rfl, fun _ _ h => (by cases h), fun _ _ _ h => (by cases h)⟩
    have hlow := L.low
    have hhigh := L.high
    have hk : ∀ k ∈ kmap L.data, KERNBASE ≤ k.1 ∧ 0 < k.2.2 ∧ k.1 + k.2.2 ≤ 2 ^ 32 := by
      intro k hk
      simp only [kmap, List.mem_cons, List.not_mem_nil, or_false] at hk
      simp only [KERNLINK, KERNBASE, EXTMEM, PHYSTOP, DEVSPACE] at hlow hhigh hk ⊢
      rcases hk with rfl | rfl | rfl | rfl <;> simp only <;> omega
    refine (gives_mapKernel _ _ s' hs' hnew hk).bind (fun r s' hs' hr => ?_)
    obtain ⟨d', ok⟩ := r
    cases ok with
    | true => exact gives_pure hs' (fun d hd => by cases hd; exact hr)
    | false =>
      refine (gives_freevm hs' hr).bind (fun _ s' hs' _ => ?_)
      exact gives_pure hs' (fun d hd => by cases hd)

end Rules

end Xv6.Vm
