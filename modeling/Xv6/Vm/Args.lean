import Xv6.Vm.Frames

/- How `exec2` passes the arguments (`project2_LWP/exec.c`), with the bytes that
   `copyout` writes. `Contents` is what the frames hold; the code up to the stack is
   that of `Vm.Exec`, and `m` is what the frames hold when the arguments are pushed.
   A page that `freevm` gives back with the old directory is filled with ones.

   `Passed` is what the new program finds from its stack pointer upward: a return
   address, `argc`, and a pointer to the array of pointers to its arguments. The
   pieces lie one below the other, within the stack and above its guard page,
   because a `copyout` that reaches the guard page fails (`store_spec`,
   `pushStrings_spec`). A byte that is written stays as no two pages of the
   directory have one frame, and no frame is on the free list (`Apart`). -/
namespace Xv6.Vm
open Lwp (PGSIZE KERNBASE PGROUNDUP ThIdx NTHREAD Thread)

/-- The bytes of the pages of memory, by the address of the page and the offset. -/
abbrev Contents := Nat → Nat → UInt8

/-- `memmove` into the page at `a`, from offset `o` on. -/
def Contents.write (m : Contents) (a o : Nat) (bs : List UInt8) : Contents := fun b i =>
  if b = a ∧ o ≤ i then (bs[i - o]?).getD (m b i) else m b i

/-- `kfree` fills a page with ones. -/
def Contents.scrub (m : Contents) (free : List Nat) : Contents := fun a i =>
  if free.contains a then 1 else m a i

/-- The frame of a mapped page. -/
def Pgdir.frame (d : Pgdir) (va : Nat) : Nat := ((d.pte (vpn va)).map (·.page)).getD 0

/-- The loop of `copyout`, with the bytes of `buf`: the new contents if it returns 0. -/
def storeLoop (d : Pgdir) : Nat → Nat → List UInt8 → Contents → VmM (Option Contents)
  | 0, _, _, m => return some m
  | fuel + 1, va, buf, m =>
    if buf.length = 0 then return some m
    else do
      let va0 := va / PGSIZE * PGSIZE
      if ← uva2ka d va0 then
        let n := min (PGSIZE - (va - va0)) buf.length
        storeLoop d fuel (u32 (va0 + PGSIZE)) (buf.drop n) (m.write (d.frame va0) (va - va0) (buf.take n))
      else return none

def store (d : Pgdir) (va : Nat) (buf : List UInt8) (m : Contents) : VmM (Option Contents) :=
  storeLoop d buf.length va buf m

/-- A `uint` in memory. -/
def wordBytes (w : Nat) : List UInt8 :=
  [UInt8.ofNat w, UInt8.ofNat (w / 2 ^ 8), UInt8.ofNat (w / 2 ^ 16), UInt8.ofNat (w / 2 ^ 24)]

/-- The loop that pushes the argument strings: `ptrs` is `ustack[3..]`. -/
def pushStrings (d : Pgdir) : List (List UInt8) → List Nat → Nat → Contents →
    VmM (Option (List Nat × Nat × Contents))
  | [], ptrs, sp, m => return some (ptrs, sp, m)
  | s :: argv, ptrs, sp, m =>
    if ptrs.length ≥ MAXARG then return none
    else do
      let sp := u32 (2 ^ 32 + sp - (s.length + 1)) / 4 * 4
      match ← store d sp (s ++ [0]) m with
      | none => return none
      | some m => pushStrings d argv (ptrs ++ [sp]) sp m

/-- `ustack[]`: the return address, `argc`, the pointer to the array, the array. -/
def ustackWords (ptrs : List Nat) (sp : Nat) : List Nat :=
  [0xffffffff, ptrs.length, u32 (2 ^ 32 + sp - (ptrs.length + 1) * 4)] ++ ptrs ++ [0]

/-- `buildStack` with the contents. -/
def buildStackBytes (pages : Nat) (argv : List (List UInt8)) (entry : Nat) (d : Pgdir) (sz : Nat)
    (m : Contents) : VmM (Option (Image × Contents)) := do
  let sz := u32 (PGROUNDUP sz)
  let (d, sz) ← allocuvm d sz (u32 (sz + (1 + pages) * PGSIZE))
  if sz = 0 then
    let _ ← bad d
    return none
  else
    let d ← clearpteu d (u32 (2 ^ 32 + sz - (1 + pages) * PGSIZE))
    match ← pushStrings d argv [] sz m with
    | none =>
      let _ ← bad d
      return none
    | some (ptrs, sp, m) =>
      let top := sp
      let sp := u32 (2 ^ 32 + sp - (3 + ptrs.length + 1) * 4)
      match ← store d sp ((ustackWords ptrs top).flatMap wordBytes) m with
      | none =>
        let _ ← bad d
        return none
      | some m => return some ({ pgdir := d, sz := sz, entry := entry, sp := sp, ustack := sz }, m)

/-- `load` with the contents. -/
def loadBytes (L : Layout) (fs : Files) (ip pages : Nat) (argv : List (List UInt8)) (m : Contents) :
    VmM (Option (Image × Contents)) :=
  match fs.readAll ip 0 52 with
  | none => return none
  | some bs =>
    if (elfhdr bs).magic ≠ ELF_MAGIC then return none
    else do
      match ← setupkvm L with
      | none => return none
      | some d =>
        let (d, sz) ← loadSegments fs ip (elfhdr bs).phnum (elfhdr bs).phoff d 0
        match sz with
        | none =>
          let _ ← bad d
          return none
        | some sz => buildStackBytes pages argv (elfhdr bs).entry d sz m

/-- `execWith` with the contents; `m` is what the frames hold when the stack is
built. -/
def execBytes (L : Layout) (fs : Files) (pages : Nat) (path : List UInt8) (argv : List (List UInt8))
    (m : Contents) (p : Proc) : VmM (Proc × Int × Contents) := do
  let p ← p.clearThreads
  match fs.namei path with
  | none => return (p, -1, m)
  | some ip =>
    match ← loadBytes L fs ip pages argv m with
    | none => return (p, -1, m)
    | some (x, m) =>
      if p.kstack = 0 then throw "switchuvm: no kstack"
      let _ ← freevm p.pgdir
      let free ← get
      return (p.commit pages x, 0, m.scrub free)

def exec2Bytes (L : Layout) (fs : Files) (path : List UInt8) (argv : List (List UInt8)) (stacksize : Int)
    (m : Contents) (p : Proc) : VmM (Proc × Int × Contents) :=
  execBytes L fs (Lwp.Proc.clampStack stacksize) path argv m p

/-! ## Without the contents it is exec2 -/

section Forget

theorem storeLoop_forget (d : Pgdir) : ∀ (fuel va : Nat) (buf : List UInt8) (m : Contents),
    Option.isSome <$> storeLoop d fuel va buf m = copyLoop d fuel va buf.length := by
  intro fuel
  induction fuel with
  | zero => exact fun _ _ _ => rfl
  | succ fuel ih =>
    intro va buf m
    rw [storeLoop, copyLoop]
    by_cases hlen : buf.length = 0
    · rw [if_pos hlen, if_pos hlen]
      rfl
    · rw [if_neg hlen, if_neg hlen]
      simp only [map_bind]
      apply bind_congr
      intro ok
      cases ok with
      | true =>
        have hrest := ih (u32 (va / PGSIZE * PGSIZE + PGSIZE))
          (buf.drop (min (PGSIZE - (va - va / PGSIZE * PGSIZE)) buf.length))
          (m.write (d.frame (va / PGSIZE * PGSIZE)) (va - va / PGSIZE * PGSIZE)
            (buf.take (min (PGSIZE - (va - va / PGSIZE * PGSIZE)) buf.length)))
        rw [List.length_drop] at hrest
        exact hrest
      | false => rfl

theorem store_forget (d : Pgdir) (va : Nat) (buf : List UInt8) (m : Contents) :
    Option.isSome <$> store d va buf m = copyout d va buf.length :=
  storeLoop_forget d _ va buf m

/-- A program that forgets the contents, followed by one that does not need them. -/
theorem bind_forget {α β γ δ : Type} {x : VmM α} {y : VmM β} {g : α → β} {f : α → VmM γ} {k : γ → δ}
    {f' : β → VmM δ} (hx : g <$> x = y) (hf : ∀ a, k <$> f a = f' (g a)) :
    k <$> (x >>= f) = y >>= f' := by
  rw [← hx, map_bind, bind_map_left]
  exact bind_congr hf

theorem pushStrings_forget (d : Pgdir) : ∀ (argv : List (List UInt8)) (ptrs : List Nat) (sp : Nat)
    (m : Contents), Option.map (fun r => (r.1.length, r.2.1)) <$> pushStrings d argv ptrs sp m =
      pushArgs d argv ptrs.length sp := by
  intro argv
  induction argv with
  | nil => exact fun _ _ _ => rfl
  | cons str argv ih =>
    intro ptrs sp m
    rw [pushStrings, pushArgs]
    by_cases hmax : ptrs.length ≥ MAXARG
    · rw [if_pos hmax, if_pos hmax]
      rfl
    · rw [if_neg hmax, if_neg hmax]
      have hst := store_forget d (u32 (2 ^ 32 + sp - (str.length + 1)) / 4 * 4) (str ++ [0]) m
      rw [List.length_append, List.length_singleton] at hst
      apply bind_forget hst
      intro r
      cases r with
      | none => rfl
      | some m₁ =>
        have hrest := ih (ptrs ++ [u32 (2 ^ 32 + sp - (str.length + 1)) / 4 * 4])
          (u32 (2 ^ 32 + sp - (str.length + 1)) / 4 * 4) m₁
        rw [List.length_append, List.length_singleton] at hrest
        exact hrest

theorem bad_forget (d : Pgdir) :
    Option.map Prod.fst <$> (do let _ ← bad d; return none : VmM (Option (Image × Contents))) = bad d := by
  simp only [bad, map_bind, bind_assoc, pure_bind, map_pure, Option.map_none]

theorem buildStackBytes_forget (pages : Nat) (argv : List (List UInt8)) (entry : Nat) (d : Pgdir) (sz : Nat)
    (m : Contents) :
    Option.map Prod.fst <$> buildStackBytes pages argv entry d sz m = buildStack pages argv entry d sz := by
  rw [buildStackBytes, buildStack]
  simp only [map_bind]
  apply bind_congr
  intro r
  by_cases h0 : r.2 = 0
  · simp only [if_pos h0]
    exact bad_forget r.1
  · simp only [if_neg h0]
    apply bind_forget (id_map _)
    intro d₁
    apply bind_forget (pushStrings_forget d₁ argv [] r.2 m)
    intro a
    cases a with
    | none => exact bad_forget d₁
    | some a =>
      obtain ⟨ptrs, sp, m₁⟩ := a
      have hst := store_forget d₁ (u32 (2 ^ 32 + sp - (3 + ptrs.length + 1) * 4))
        ((ustackWords ptrs sp).flatMap wordBytes) m₁
      have hlen : ((ustackWords ptrs sp).flatMap wordBytes).length = (3 + ptrs.length + 1) * 4 := by
        simp [ustackWords, List.length_flatMap, wordBytes]
        omega
      rw [hlen] at hst
      apply bind_forget hst
      intro b
      cases b with
      | none => exact bad_forget d₁
      | some m₂ => rfl

theorem loadBytes_forget (L : Layout) (fs : Files) (ip pages : Nat) (argv : List (List UInt8))
    (m : Contents) : Option.map Prod.fst <$> loadBytes L fs ip pages argv m = load L fs ip pages argv := by
  rw [loadBytes, load]
  cases fs.readAll ip 0 52 with
  | none => rfl
  | some bs =>
    simp only
    split
    · rfl
    · apply bind_forget (id_map _)
      intro r
      cases r with
      | none => rfl
      | some d =>
        apply bind_forget (id_map _)
        intro r
        obtain ⟨e, sz⟩ := r
        cases sz with
        | none => exact bad_forget e
        | some sz => exact buildStackBytes_forget pages argv _ e sz m

theorem exec2Bytes_forget (L : Layout) (fs : Files) (path : List UInt8) (argv : List (List UInt8))
    (stacksize : Int) (m : Contents) (p : Proc) :
    (fun r => (r.1, r.2.1)) <$> exec2Bytes L fs path argv stacksize m p =
      exec2 L fs path argv stacksize p := by
  rw [exec2Bytes, exec2, execBytes, execWith]
  apply bind_forget (id_map _)
  intro q
  rw [id]
  cases fs.namei path with
  | none => rfl
  | some ip =>
    apply bind_forget (loadBytes_forget L fs ip _ argv m)
    intro r
    cases r with
    | none => rfl
    | some r =>
      obtain ⟨x, m₁⟩ := r
      simp only [Option.map_some]
      split
      · rfl
      · apply bind_forget (id_map _)
        intro _
        rfl

end Forget

/-! ## Reading a user's memory -/

section Read

variable {d : Pgdir} {m : Contents}

/-- The byte that a user program reads at `va`. -/
def Pgdir.user (d : Pgdir) (m : Contents) (va : Nat) : Option UInt8 :=
  (d.pte (va / PGSIZE)).bind (fun x => if x.u then some (m x.page (va % PGSIZE)) else none)

def Pgdir.Reads (d : Pgdir) (m : Contents) (va : Nat) (bs : List UInt8) : Prop :=
  ∀ i, i < bs.length → d.user m (va + i) = bs[i]?

/-- The word that a user program reads at `va`. -/
def Pgdir.userWord (d : Pgdir) (m : Contents) (va : Nat) : Option Nat := do
  let b0 ← d.user m va
  let b1 ← d.user m (va + 1)
  let b2 ← d.user m (va + 2)
  let b3 ← d.user m (va + 3)
  return b0.toNat + 2 ^ 8 * b1.toNat + 2 ^ 16 * b2.toNat + 2 ^ 24 * b3.toNat

theorem Pgdir.reads_append {va : Nat} {as bs : List UInt8} :
    d.Reads m va (as ++ bs) ↔ d.Reads m va as ∧ d.Reads m (va + as.length) bs := by
  constructor
  · intro h
    refine ⟨fun i hi => ?_, fun i hi => ?_⟩
    · rw [h i (by rw [List.length_append]; omega), List.getElem?_append_left hi]
    · rw [Nat.add_assoc, h (as.length + i) (by rw [List.length_append]; omega),
        List.getElem?_append_right (by omega), Nat.add_sub_cancel_left]
  · intro h i hi
    rw [List.length_append] at hi
    by_cases hia : i < as.length
    · rw [h.1 i hia, List.getElem?_append_left hia]
    · rw [List.getElem?_append_right (by omega), ← h.2 (i - as.length) (by omega)]
      apply congrArg
      omega

theorem wordBytes_length (w : Nat) : (wordBytes w).length = 4 := rfl

theorem Pgdir.Reads.word {va w : Nat} (h : d.Reads m va (wordBytes w)) (hw : w < 2 ^ 32) :
    d.userWord m va = some w := by
  have h0 : d.user m va = some (UInt8.ofNat w) := h 0 (by rw [wordBytes_length]; decide)
  have h1 : d.user m (va + 1) = some (UInt8.ofNat (w / 2 ^ 8)) := h 1 (by rw [wordBytes_length]; decide)
  have h2 : d.user m (va + 2) = some (UInt8.ofNat (w / 2 ^ 16)) := h 2 (by rw [wordBytes_length]; decide)
  have h3 : d.user m (va + 3) = some (UInt8.ofNat (w / 2 ^ 24)) := h 3 (by rw [wordBytes_length]; decide)
  have hval : w % 2 ^ 8 + 2 ^ 8 * (w / 2 ^ 8 % 2 ^ 8) + 2 ^ 16 * (w / 2 ^ 16 % 2 ^ 8) +
      2 ^ 24 * (w / 2 ^ 24 % 2 ^ 8) = w := by
    omega
  simp only [Pgdir.userWord, h0, h1, h2, h3, Option.bind_eq_bind, Option.bind_some, Option.pure_def]
  apply congrArg
  simpa [UInt8.toNat_ofNat'] using hval

/-- The words of a block are found one after the other. -/
theorem Pgdir.Reads.words : ∀ {ws : List Nat} {va : Nat}, d.Reads m va (ws.flatMap wordBytes) →
    (∀ w ∈ ws, w < 2 ^ 32) → ∀ k, k < ws.length → d.userWord m (va + 4 * k) = ws[k]? := by
  intro ws
  induction ws with
  | nil => exact fun _ _ k hk => absurd hk (Nat.not_lt_zero k)
  | cons w ws ih =>
    intro va h hlt k hk
    rw [List.flatMap_cons, Pgdir.reads_append] at h
    cases k with
    | zero => exact h.1.word (hlt w List.mem_cons_self)
    | succ k =>
      have hrest := ih h.2 (fun w hw => hlt w (List.mem_cons_of_mem _ hw)) k (by simpa using hk)
      rw [List.getElem?_cons_succ, ← hrest]
      apply congrArg
      show va + 4 * (k + 1) = va + 4 + 4 * k
      omega

end Read

/-! ## What copyout writes -/

section Store

variable {d : Pgdir} {m : Contents} {s : List Nat}

theorem uva2ka_run {va : Nat} {b : Bool} {s' : List Nat} (h : uva2ka d va s = .ok b s') :
    s' = s ∧ (b = true → ∃ x, d.pte (vpn va) = some x ∧ x.u = true) := by
  cases htable : d.table (PDX va) with
  | none =>
    rw [uva2ka, htable] at h
    cases h
  | some a =>
    rw [uva2ka, htable] at h
    cases h
    refine ⟨rfl, fun hb => ?_⟩
    cases hx : d.pte (vpn va) with
    | none => simp [hx] at hb
    | some x => exact ⟨x, rfl, by simpa [hx] using hb⟩

/-- What a user reads after a `memmove` into the frame of page `k`. -/
theorem Pgdir.OwnFrames.user_write (ho : d.OwnFrames) {k o w : Nat} {x : Pte} {bs : List UInt8}
    (hk : k < KERNBASE / PGSIZE) (hx : d.pte k = some x) (hu : x.u = true) (hw : w < KERNBASE) :
    d.user (m.write x.page o bs) w =
      if w / PGSIZE = k ∧ o ≤ w % PGSIZE ∧ w % PGSIZE < o + bs.length then bs[w % PGSIZE - o]?
      else d.user m w := by
  have hwk : w / PGSIZE < KERNBASE / PGSIZE := by
    simp only [PGSIZE, KERNBASE] at hw ⊢
    omega
  cases hy : d.pte (w / PGSIZE) with
  | none =>
    have hne : w / PGSIZE ≠ k := by
      intro he
      rw [he, hx] at hy
      cases hy
    simp [Pgdir.user, hy, hne]
  | some y =>
    by_cases he : w / PGSIZE = k
    · rw [he, hx] at hy
      cases hy
      simp only [Pgdir.user, he, hx, Option.bind_some, hu, if_true, Contents.write, true_and]
      by_cases h1 : o ≤ w % PGSIZE
      · by_cases h2 : w % PGSIZE < o + bs.length
        · rw [if_pos h1, if_pos ⟨h1, h2⟩, List.getElem?_eq_getElem (by omega), Option.getD_some]
        · rw [if_pos h1, if_neg (fun h => h2 h.2), List.getElem?_eq_none (by omega), Option.getD_none]
      · rw [if_neg h1, if_neg (fun h => h1 h.1)]
    · have hpage : y.page ≠ x.page := fun h => he (ho _ _ _ _ hwk hk hy hx h)
      rw [if_neg (fun h => he h.1)]
      simp [Pgdir.user, hy, Contents.write, hpage]

/-- A `copyout` that returns 0: its bytes are on pages of the user, and it has written
them and nothing else. -/
structure Stored (d : Pgdir) (m m' : Contents) (va : Nat) (buf : List UInt8) : Prop where
  page : ∀ i, i < buf.length → va + i < KERNBASE ∧ ∃ x, d.pte ((va + i) / PGSIZE) = some x ∧ x.u = true
  reads : d.Reads m' va buf
  frame : ∀ w, w < KERNBASE → w < va ∨ va + buf.length ≤ w → d.user m' w = d.user m w

theorem storeLoop_spec (hk : d.KernelOnly) (ho : d.OwnFrames) : ∀ (fuel va : Nat) (buf : List UInt8)
    (m m' : Contents) (s s' : List Nat), buf.length ≤ fuel → va < 2 ^ 32 →
    storeLoop d fuel va buf m s = .ok (some m') s' → s' = s ∧ Stored d m m' va buf := by
  intro fuel
  induction fuel with
  | zero =>
    intro va buf m m' s s' hf _ h
    cases h
    exact ⟨rfl, fun i hi => by omega, fun i hi => by omega, fun _ _ _ => rfl⟩
  | succ fuel ih =>
    intro va buf m m' s s' hf hva h
    rw [storeLoop] at h
    by_cases hlen : buf.length = 0
    · rw [if_pos hlen] at h
      cases h
      exact ⟨rfl, fun i hi => by omega, fun i hi => by omega, fun _ _ _ => rfl⟩
    rw [if_neg hlen] at h
    obtain ⟨b, t, hb, h⟩ := Lib.bind_ok h
    obtain ⟨rfl, hmap⟩ := uva2ka_run hb
    cases b with
    | false => cases h
    | true =>
      simp only [if_true] at h
      obtain ⟨x, hx, hu⟩ := hmap rfl
      have hvpn : vpn (va / PGSIZE * PGSIZE) = va / PGSIZE := by
        simp only [vpn, u32, PGSIZE]
        omega
      have hframe : d.frame (va / PGSIZE * PGSIZE) = x.page := by
        simp [Pgdir.frame, hx]
      rw [hvpn] at hx
      have hpage : va / PGSIZE < KERNBASE / PGSIZE := by
        by_contra hge
        have := hk _ x (Nat.le_of_not_lt hge) hx
        rw [hu] at this
        cases this
      rw [hframe] at h
      obtain ⟨n, hn⟩ : ∃ n, n = min (PGSIZE - (va - va / PGSIZE * PGSIZE)) buf.length := ⟨_, rfl⟩
      rw [← hn] at h
      have hnext : u32 (va / PGSIZE * PGSIZE + PGSIZE) = (va / PGSIZE + 1) * PGSIZE := by
        simp only [u32, PGSIZE, KERNBASE] at hpage ⊢
        omega
      rw [hnext] at h
      have hlt : (va / PGSIZE + 1) * PGSIZE < 2 ^ 32 := by
        simp only [PGSIZE, KERNBASE] at hpage ⊢
        omega
      have hdrop : (buf.drop n).length = buf.length - n := List.length_drop
      have hn1 : 1 ≤ n := by
        simp only [PGSIZE] at hn
        omega
      obtain ⟨rfl, hst⟩ := ih _ _ _ _ _ _ (by omega) hlt h
      have htake : (buf.take n).length = n := by
        rw [List.length_take]
        omega
      -- behind the `n` bytes of this page there is more only at the next one
      have hmore : ∀ i, n ≤ i → i < buf.length → va + i = (va / PGSIZE + 1) * PGSIZE + (i - n) := by
        intro i h1 h2
        simp only [PGSIZE] at hn ⊢
        omega
      have hhere : ∀ i, i < n → (va + i) / PGSIZE = va / PGSIZE ∧
          (va + i) % PGSIZE = va - va / PGSIZE * PGSIZE + i := by
        intro i hi
        simp only [PGSIZE] at hn ⊢
        omega
      refine ⟨rfl, fun i hi => ?_, fun i hi => ?_, fun w hw hout => ?_⟩
      · by_cases hin : i < n
        · refine ⟨?_, x, (hhere i hin).1 ▸ hx, hu⟩
          have := (hhere i hin).1
          simp only [PGSIZE, KERNBASE] at this hpage ⊢
          omega
        · rw [hmore i (by omega) hi]
          exact hst.page (i - n) (by omega)
      · by_cases hin : i < n
        · obtain ⟨h1, h2⟩ := hhere i hin
          have hbelow : va + i < (va / PGSIZE + 1) * PGSIZE := by
            simp only [PGSIZE] at h1 ⊢
            omega
          have hkern : va + i < KERNBASE := by
            simp only [PGSIZE, KERNBASE] at h1 hpage ⊢
            omega
          rw [hst.frame _ hkern (.inl hbelow), ho.user_write hpage hx hu hkern,
            if_pos ⟨h1, by omega, by omega⟩, h2, Nat.add_sub_cancel_left, List.getElem?_take_of_lt hin]
        · rw [hmore i (by omega) hi, hst.reads (i - n) (by omega), List.getElem?_drop]
          apply congrArg (buf[·]?)
          omega
      · have hrest : w < (va / PGSIZE + 1) * PGSIZE ∨
            (va / PGSIZE + 1) * PGSIZE + (buf.drop n).length ≤ w := by
          rw [hdrop]
          simp only [PGSIZE] at hn ⊢
          omega
        rw [hst.frame w hw hrest, ho.user_write hpage hx hu hw, if_neg (fun hc => ?_)]
        obtain ⟨h1, h2, h3⟩ := hc
        simp only [PGSIZE] at h1 h2 h3 hn
        omega

theorem store_spec (hk : d.KernelOnly) (ho : d.OwnFrames) {va : Nat} {buf : List UInt8} {m' : Contents}
    {s' : List Nat} (hva : va < 2 ^ 32) (h : store d va buf m s = .ok (some m') s') :
    s' = s ∧ Stored d m m' va buf :=
  storeLoop_spec hk ho _ _ _ _ _ _ _ le_rfl hva h

end Store

/-! ## The stack of the new program -/

section Stack

variable {d : Pgdir} {m m' : Contents} {s : List Nat} {lo : Nat}

/-- The arguments under `hi`, one below the other, down to `lo`. -/
def Strings (d : Pgdir) (m : Contents) (lo : Nat) : Nat → List (List UInt8) → List Nat → Prop
  | hi, [], [] => lo ≤ hi
  | hi, s :: argv, a :: ptrs => a % 4 = 0 ∧ a + (s.length + 1) ≤ hi ∧ d.Reads m a (s ++ [0]) ∧
      Strings d m lo a argv ptrs
  | _, [], _ :: _ => False
  | _, _ :: _, [] => False

theorem Strings.low : ∀ {argv : List (List UInt8)} {ptrs : List Nat} {hi : Nat},
    Strings d m lo hi argv ptrs → lo ≤ hi := by
  intro argv
  induction argv with
  | nil =>
    intro ptrs hi h
    cases ptrs with
    | nil => exact h
    | cons a ptrs => exact h.elim
  | cons s argv ih =>
    intro ptrs hi h
    cases ptrs with
    | nil => exact h.elim
    | cons a ptrs =>
      have := ih h.2.2.2
      have := h.2.1
      omega

/-- What is written below the strings leaves them as they are. -/
theorem Strings.keep (hf : ∀ w, lo ≤ w → w < KERNBASE → d.user m' w = d.user m w) :
    ∀ {argv : List (List UInt8)} {ptrs : List Nat} {hi : Nat}, hi ≤ KERNBASE →
      Strings d m lo hi argv ptrs → Strings d m' lo hi argv ptrs := by
  intro argv
  induction argv with
  | nil =>
    intro ptrs hi _ h
    cases ptrs with
    | nil => exact h
    | cons a ptrs => exact h.elim
  | cons s argv ih =>
    intro ptrs hi hk h
    cases ptrs with
    | nil => exact h.elim
    | cons a ptrs =>
      obtain ⟨h1, h2, h3, h4⟩ := h
      have hlow := h4.low
      refine ⟨h1, h2, fun i hi => ?_, ih (by omega) h4⟩
      have hlen : i < s.length + 1 := by simpa using hi
      rw [hf (a + i) (by omega) (by omega)]
      exact h3 i hi

theorem Strings.length : ∀ {argv : List (List UInt8)} {ptrs : List Nat} {hi : Nat},
    Strings d m lo hi argv ptrs → ptrs.length = argv.length := by
  intro argv
  induction argv with
  | nil =>
    intro ptrs hi h
    cases ptrs with
    | nil => rfl
    | cons a ptrs => exact h.elim
  | cons s argv ih =>
    intro ptrs hi h
    cases ptrs with
    | nil => exact h.elim
    | cons a ptrs =>
      have := ih h.2.2.2
      rw [List.length_cons, List.length_cons, this]

theorem Strings.ptr_le : ∀ {argv : List (List UInt8)} {ptrs : List Nat} {hi : Nat},
    Strings d m lo hi argv ptrs → ∀ a ∈ ptrs, a ≤ hi := by
  intro argv
  induction argv with
  | nil =>
    intro ptrs hi h a ha
    cases ptrs with
    | nil => cases ha
    | cons b ptrs => exact h.elim
  | cons s argv ih =>
    intro ptrs hi h a ha
    cases ptrs with
    | nil => cases ha
    | cons b ptrs =>
      have h2 := h.2.1
      rcases List.mem_cons.mp ha with rfl | ha
      · omega
      · have := ih h.2.2.2 a ha
        omega

/-- The page below `lo` is not for the user. -/
structure GuardBelow (d : Pgdir) (lo : Nat) : Prop where
  aligned : lo % PGSIZE = 0
  room : PGSIZE ≤ lo
  guard : ∀ x, d.pte (lo / PGSIZE - 1) = some x → x.u = false

/-- A `copyout` that ends above the guard page has begun above it. -/
theorem Stored.above {va : Nat} {buf : List UInt8} (h : Stored d m m' va buf) (hg : GuardBelow d lo)
    (ha : va % 4 = 0) (hend : lo < va + buf.length + 4) : lo ≤ va := by
  by_contra hlt
  obtain ⟨hal, hroom, hguard⟩ := hg
  simp only [PGSIZE] at hal hroom
  obtain ⟨-, x, hx, hu⟩ := h.page (lo - 4 - va) (by omega)
  have hpage : (va + (lo - 4 - va)) / PGSIZE = lo / PGSIZE - 1 := by
    simp only [PGSIZE]
    omega
  rw [hpage] at hx
  have hno := hguard x hx
  rw [hu] at hno
  cases hno

/-- Where a string goes: below `sp`, if `copyout` accepts it. -/
theorem Stored.below {sp va : Nat} {str : List UInt8} (h : Stored d m m' va (str ++ [0]))
    (hva : va = u32 (2 ^ 32 + sp - (str.length + 1)) / 4 * 4) (hsp : sp % 4 = 0) (hk : sp < KERNBASE) :
    va + (str.length + 1) ≤ sp ∧ sp < va + (str.length + 1) + 4 := by
  have hlast := (h.page str.length (by simp)).1
  simp only [u32, KERNBASE] at hva hk hlast
  omega

theorem pushStrings_spec (hk : d.KernelOnly) (ho : d.OwnFrames) (hg : GuardBelow d lo) :
    ∀ (argv : List (List UInt8)) (ptrs : List Nat) (sp : Nat) (m m' : Contents) (ptrs' : List Nat)
      (sp' : Nat) (s s' : List Nat), lo ≤ sp → sp < KERNBASE → sp % 4 = 0 → ptrs.length ≤ MAXARG →
      pushStrings d argv ptrs sp m s = .ok (some (ptrs', sp', m')) s' →
      s' = s ∧ lo ≤ sp' ∧ sp' % 4 = 0 ∧ ptrs'.length ≤ MAXARG ∧
      (∀ w, sp ≤ w → w < KERNBASE → d.user m' w = d.user m w) ∧
      ∃ new, ptrs' = ptrs ++ new ∧ Strings d m' sp' sp argv new := by
  intro argv
  induction argv with
  | nil =>
    intro ptrs sp m m' ptrs' sp' s s' hlo _ h4 hlen h
    cases h
    exact ⟨rfl, hlo, h4, hlen, fun _ _ _ => rfl, [], (List.append_nil _).symm, le_rfl⟩
  | cons str argv ih =>
    intro ptrs sp m m' ptrs' sp' s s' hlo hkern h4 hlen h
    rw [pushStrings] at h
    by_cases hmax : ptrs.length ≥ MAXARG
    · rw [if_pos hmax] at h
      cases h
    rw [if_neg hmax] at h
    obtain ⟨va, hva⟩ : ∃ va, va = u32 (2 ^ 32 + sp - (str.length + 1)) / 4 * 4 := ⟨_, rfl⟩
    simp only [← hva] at h
    obtain ⟨r, t, hr, hpush⟩ := Lib.bind_ok h
    cases r with
    | none => cases hpush
    | some m₁ =>
      simp only at hpush
      have hva32 : va < 2 ^ 32 := by
        simp only [u32] at hva
        omega
      obtain ⟨rfl, hst⟩ := store_spec hk ho hva32 hr
      obtain ⟨hbelow, hnear⟩ := hst.below hva h4 hkern
      have hva4 : va % 4 = 0 := by omega
      have habove : lo ≤ va := hst.above hg hva4 (by simp only [List.length_append, List.length_singleton]; omega)
      obtain ⟨rfl, h1, h2, h3, hframe, new, rfl, hstr⟩ := ih (ptrs ++ [va]) va m₁ m' ptrs' sp' t s' habove
        (by omega) hva4 (by rw [List.length_append, List.length_singleton]; omega) hpush
      refine ⟨rfl, h1, h2, h3, fun w hw hwk => ?_, va :: new, by simp, hva4, hbelow, fun i hi => ?_, hstr⟩
      · rw [hframe w (by omega) hwk]
        refine hst.frame w hwk (.inr ?_)
        rw [List.length_append, List.length_singleton]
        omega
      · rw [hframe _ (Nat.le_add_right _ _) (hst.page i hi).1]
        exact hst.reads i hi

/-- The words and strings from `esp` up to `top`. -/
structure Block (d : Pgdir) (m : Contents) (lo esp top : Nat) (argv : List (List UInt8))
    (ptrs : List Nat) : Prop where
  words : d.Reads m esp ((ustackWords ptrs (esp + 4 * (ptrs.length + 4))).flatMap wordBytes)
  strings : Strings d m (esp + 4 * (ptrs.length + 4)) top argv ptrs
  low : lo ≤ esp
  size : top < KERNBASE

theorem Block.keep {esp top : Nat} {argv : List (List UInt8)} {ptrs : List Nat}
    (h : Block d m lo esp top argv ptrs) (hf : ∀ w, w < KERNBASE → d.user m' w = d.user m w) :
    Block d m' lo esp top argv ptrs := by
  have hlow := h.strings.low
  have hsize := h.size
  refine ⟨fun i hi => ?_, h.strings.keep (fun w _ hw => hf w hw) (Nat.le_of_lt hsize), h.low, hsize⟩
  have hlen : ((ustackWords ptrs (esp + 4 * (ptrs.length + 4))).flatMap wordBytes).length =
      4 * (ptrs.length + 4) := by
    simp [ustackWords, List.length_flatMap, wordBytes_length]
    omega
  rw [hf _ (by omega)]
  exact h.words i hi

/-- What the new program finds from its stack pointer upward: the return address,
`argc`, the pointer to the array of pointers, the array, and the strings above it;
all of it between `lo` and `top`. -/
structure Passed (d : Pgdir) (m : Contents) (lo esp top : Nat) (argv : List (List UInt8))
    (ptrs : List Nat) : Prop where
  retaddr : d.userWord m esp = some 0xffffffff
  argc : d.userWord m (esp + 4) = some argv.length
  array : d.userWord m (esp + 8) = some (esp + 12)
  count : ptrs.length = argv.length
  entry : ∀ k, k < argv.length → d.userWord m (esp + 12 + 4 * k) = ptrs[k]?
  null : d.userWord m (esp + 12 + 4 * argv.length) = some 0
  strings : Strings d m (esp + 12 + 4 * argv.length + 4) top argv ptrs
  low : lo ≤ esp

theorem Block.passed {esp top : Nat} {argv : List (List UInt8)} {ptrs : List Nat}
    (h : Block d m lo esp top argv ptrs) : Passed d m lo esp top argv ptrs := by
  obtain ⟨hwords, hstr, hlow, hsize⟩ := h
  have hcount := hstr.length
  have htop := hstr.low
  have harray : u32 (2 ^ 32 + (esp + 4 * (ptrs.length + 4)) - (ptrs.length + 1) * 4) = esp + 12 := by
    simp only [u32, KERNBASE] at hsize ⊢
    omega
  rw [ustackWords, harray] at hwords
  have hlt : ∀ w ∈ [0xffffffff, ptrs.length, esp + 12] ++ ptrs ++ [0], w < 2 ^ 32 := by
    intro w hw
    simp only [KERNBASE] at hsize
    simp only [List.mem_append, List.mem_cons, List.not_mem_nil, or_false] at hw
    rcases hw with ((rfl | rfl | rfl) | hw) | rfl
    · decide
    · omega
    · omega
    · have := hstr.ptr_le w hw
      omega
    · decide
  have hword := hwords.words hlt
  have hlen : ([0xffffffff, ptrs.length, esp + 12] ++ ptrs ++ [0]).length = ptrs.length + 4 := by
    simp
  rw [hlen] at hword
  refine ⟨?_, ?_, ?_, hcount, fun k hk => ?_, ?_, ?_, hlow⟩
  · exact hword 0 (by omega)
  · rw [← hcount]
    exact hword 1 (by omega)
  · exact hword 2 (by omega)
  · have h3 := hword (k + 3) (by omega)
    have hget : ([0xffffffff, ptrs.length, esp + 12] ++ ptrs ++ [0])[k + 3]? = ptrs[k]? := by
      rw [List.append_assoc, List.getElem?_append_right (by simp), List.getElem?_append_left (by simp; omega)]
      rfl
    rw [hget] at h3
    rw [← h3]
    apply congrArg
    omega
  · have h3 := hword (ptrs.length + 3) (by omega)
    have hget : ([0xffffffff, ptrs.length, esp + 12] ++ ptrs ++ [0])[ptrs.length + 3]? = some 0 := by
      rw [List.getElem?_append_right (by simp)]
      have : ptrs.length + 3 - ([0xffffffff, ptrs.length, esp + 12] ++ ptrs).length = 0 := by
        simp
      rw [this]
      rfl
    rw [hget] at h3
    rw [← h3, ← hcount]
    apply congrArg
    omega
  · rw [← hcount]
    have : esp + 12 + 4 * ptrs.length + 4 = esp + 4 * (ptrs.length + 4) := by omega
    rw [this]
    exact hstr

/-- What `exec2` has built when it commits: the frames of the new directory come from
the free list `F`, and none of them is free. -/
structure Built (F : List Nat) (pages : Nat) (argv : List (List UInt8)) (x : Image) (m : Contents)
    (free : List Nat) : Prop where
  apart : Apart F x.pgdir free
  guarded : Guarded x.pgdir x.sz pages
  block : ∃ ptrs, Block x.pgdir m (x.sz - pages * PGSIZE) x.sp x.sz argv ptrs

theorem wp_of_run {α : Type} {x : VmM α} {Q : α → List Nat → Prop}
    (h : ∀ a t, x s = .ok a t → Q a t) : Lib.wp x Q (fun _ _ => True) s := by
  unfold Lib.wp
  split
  · rename_i a t hx
    exact h a t hx
  · trivial

theorem clearpteu_run {va : Nat} {e : Pgdir} {t : List Nat} (h : clearpteu d va s = .ok e t) : t = s := by
  cases htable : d.table (PDX va) with
  | none =>
    rw [clearpteu, htable] at h
    cases h
  | some a =>
    rw [clearpteu, htable] at h
    cases h
    rfl

theorem Guarded.guardBelow {top pages : Nat} (h : Guarded d top pages) :
    GuardBelow d (top - pages * PGSIZE) := by
  obtain ⟨hal, hroom, ⟨x, hx, hu⟩, -⟩ := h
  simp only [PGSIZE] at hal hroom
  have hpage : (top - pages * PGSIZE) / PGSIZE - 1 = top / PGSIZE - (1 + pages) := by
    simp only [PGSIZE]
    omega
  refine ⟨?_, ?_, fun y hy => ?_⟩
  · simp only [PGSIZE]
    omega
  · simp only [PGSIZE]
    omega
  · rw [hpage, hx] at hy
    cases hy
    exact hu

/-- The arguments on a stack that is mapped. -/
theorem push_block {F : List Nat} {top pages : Nat} {argv : List (List UInt8)} {ptrs : List Nat} {sp : Nat}
    {m₁ m₂ : Contents} {t t' : List Nat} (ha : Apart F d s) (hg : Guarded d top pages) (hk : top < KERNBASE)
    (hpush : pushStrings d argv [] top m s = .ok (some (ptrs, sp, m₁)) t)
    (hstore : store d (u32 (2 ^ 32 + sp - (3 + ptrs.length + 1) * 4)) ((ustackWords ptrs sp).flatMap wordBytes)
      m₁ t = .ok (some m₂) t') :
    t' = s ∧ Block d m₂ (top - pages * PGSIZE) (u32 (2 ^ 32 + sp - (3 + ptrs.length + 1) * 4)) top argv
      ptrs := by
  have hal := hg.aligned
  have hroom := hg.room
  simp only [PGSIZE] at hal hroom
  obtain ⟨rfl, hlo, h4, hmax, -, new, hnew, hstr⟩ := pushStrings_spec ha.kernel ha.own hg.guardBelow argv []
    top m m₁ ptrs sp _ _ (Nat.sub_le _ _) hk (by omega) (Nat.zero_le _) hpush
  rw [List.nil_append] at hnew
  subst hnew
  have hsp := hstr.low
  obtain ⟨esp, hesp⟩ : ∃ esp, esp = u32 (2 ^ 32 + sp - (3 + ptrs.length + 1) * 4) := ⟨_, rfl⟩
  rw [← hesp] at hstore ⊢
  have hroom' := hg.guardBelow.room
  simp only [PGSIZE] at hroom' hlo
  simp only [MAXARG] at hmax
  have hback : esp + 4 * (ptrs.length + 4) = sp := by
    simp only [u32, KERNBASE] at hesp hk
    omega
  obtain ⟨rfl, hst⟩ := store_spec ha.kernel ha.own (by simp only [KERNBASE] at hk; omega) hstore
  have hlen : ((ustackWords ptrs sp).flatMap wordBytes).length = 4 * (ptrs.length + 4) := by
    simp [ustackWords, List.length_flatMap, wordBytes_length]
    omega
  refine ⟨rfl, ?_, ?_, hst.above hg.guardBelow (by omega) (by rw [hlen, hback]; simp only [PGSIZE]; omega), hk⟩
  · rw [hback]
    exact hst.reads
  · rw [hback]
    refine hstr.keep (fun w hw hwk => hst.frame w hwk (.inr ?_)) (Nat.le_of_lt hk)
    rw [hlen, hback]
    exact hw

theorem wp_buildStackBytes {F : List Nat} {sz pages : Nat} (h : d.Covers sz) (hp : pages ≤ 100)
    (ha : Apart F d s) (argv : List (List UInt8)) (entry : Nat) (m : Contents) :
    Lib.wp (buildStackBytes pages argv entry d sz m)
      (fun r t => ∀ x m', r = some (x, m') → Built F pages argv x m' t) (fun _ _ => True) s := by
  have hbad : ∀ (e : Pgdir) (t : List Nat),
      Lib.wp (do let _ ← bad e; return none : VmM (Option (Image × Contents)))
      (fun r t => ∀ x m', r = some (x, m') → Built F pages argv x m' t) (fun _ _ => True) t := by
    intro e t
    refine Lib.wp.bind (wp_any (bad e) t) (fun _ _ _ => trivial) (fun _ t' _ => ?_)
    exact Lib.wp_pure (fun x m' hx => by cases hx)
  have hsize : sz < KERNBASE := h.size
  have hup : u32 (PGROUNDUP sz) = pagesOf sz * PGSIZE := by
    simp only [u32, PGROUNDUP, pagesOf, PGSIZE, KERNBASE] at hsize ⊢
    omega
  unfold buildStackBytes
  simp only [hup]
  by_cases htop : pagesOf sz * PGSIZE < KERNBASE
  · obtain ⟨d₁, r, t, hr, hspec⟩ := stack_block (h.rounded htop) (Nat.mul_mod_left _ _) hp s
    refine Lib.wp_bind (wp_of_ok hr ?_)
    by_cases hr0 : r = 0
    · simp only [if_pos hr0]
      exact hbad d₁ t
    · simp only [if_neg hr0]
      obtain ⟨hrsz, hclear⟩ := hspec hr0
      have hapart : Apart F d₁ t := (wp_allocuvm_apart ha _ _).ok hr hr0
      refine Lib.wp_bind (wp_of_run (fun d₂ t₂ hd₂ => ?_))
      obtain ⟨hcov, hguard, -⟩ := (hclear t).ok hd₂
      have hapart₂ : Apart F d₂ t := hapart.clear ((wp_clearpteu d₁ _).ok hd₂).2
      obtain rfl := clearpteu_run hd₂
      refine Lib.wp_bind (wp_of_run (fun a t₃ hpush => ?_))
      cases a with
      | none => exact hbad d₂ t₃
      | some a =>
        obtain ⟨ptrs, sp, m₁⟩ := a
        refine Lib.wp_bind (wp_of_run (fun b t₄ hstore => ?_))
        cases b with
        | none => exact hbad d₂ t₄
        | some m₂ =>
          obtain ⟨rfl, hblock⟩ := push_block hapart₂ hguard hcov.size hpush hstore
          refine Lib.wp_pure (fun x m' hx => ?_)
          cases hx
          exact ⟨hapart₂, hguard, ptrs, hblock⟩
  · refine Lib.wp_bind (wp_of_ok (allocuvm_over hsize hp htop s) ?_)
    simp only [if_true]
    exact hbad d s

end Stack

/-! ## exec2 -/

section Exec

variable {d : Pgdir} {m : Contents} {s : List Nat}

theorem wp_loadBytes (L : Layout) (fs : Files) (ip : Nat) {pages : Nat} (hp : pages ≤ 100)
    (argv : List (List UInt8)) (m : Contents) (hs : s.Nodup) : Lib.wp (loadBytes L fs ip pages argv m)
    (fun r t => ∀ x m', r = some (x, m') → Built s pages argv x m' t) (fun _ _ => True) s := by
  have hnone : ∀ t : List Nat, Lib.wp (pure none : VmM (Option (Image × Contents)))
      (fun r t => ∀ x m', r = some (x, m') → Built s pages argv x m' t) (fun _ _ => True) t :=
    fun t => Lib.wp_pure (fun x m' hx => by cases hx)
  unfold loadBytes
  split
  · exact hnone s
  · split
    · exact hnone s
    · refine Lib.wp_bind (wp_of_run (fun r t hr => ?_))
      cases r with
      | none => exact hnone t
      | some d =>
        have hbare := (wp_setupkvm_bare L).ok hr d rfl
        have hapart := (wp_setupkvm_apart L hs).ok hr d rfl
        refine Lib.wp_bind (wp_of_run (fun r t hr => ?_))
        obtain ⟨e, sz⟩ := r
        cases sz with
        | none =>
          exact Lib.wp.bind (wp_any (bad e) t) (fun _ _ _ => trivial) (fun _ t' _ => hnone t')
        | some sz =>
          have hcov := (wp_loadSegments_covers fs ip _ _ hbare.covers).ok hr sz rfl
          have hapart' := (wp_loadSegments_apart fs ip _ _ 0 hapart).ok hr sz rfl
          exact wp_buildStackBytes hcov hp hapart' argv _ m

/-- What was on the pages that are not free is still there. -/
theorem Pgdir.user_scrub {free : List Nat} (h : ∀ k x, k < KERNBASE / PGSIZE → d.pte k = some x → x.page ∉ free)
    {w : Nat} (hw : w < KERNBASE) : d.user (m.scrub free) w = d.user m w := by
  have hk : w / PGSIZE < KERNBASE / PGSIZE := by
    simp only [PGSIZE, KERNBASE] at hw ⊢
    omega
  cases hx : d.pte (w / PGSIZE) with
  | none => simp [Pgdir.user, hx]
  | some x =>
    have hno : free.contains x.page = false := by simpa using h _ x hk hx
    simp only [Pgdir.user, hx, Option.bind_some, Contents.scrub, hno, Bool.false_eq_true, if_false]

/-- The kernel stacks that `exec` gives back when it removes the threads of `l`. -/
def Proc.stacksOf (p : Proc) (l : List ThIdx) : List Nat :=
  (l.filter (fun i => i ≠ p.thidx && (p.thread i).kstack ≠ 0)).map (fun i => (p.thread i).kstack)

/-- The pages the other threads of `p` have as kernel stacks, those of its address space
and the free ones: no page is there twice. -/
def Proc.PagesApart (p : Proc) (free : List Nat) : Prop :=
  (p.stacksOf (List.finRange NTHREAD) ++ free).Nodup ∧
    ∃ held, p.pgdir.Uses held ∧ ∀ a ∈ held, a ∉ p.stacksOf (List.finRange NTHREAD) ++ free

theorem clearThread_run {p q : Proc} {i : ThIdx} {t : List Nat} (h : p.clearThread i s = .ok q t) :
    q.thidx = p.thidx ∧ (∀ j, j ≠ i → q.thread j = p.thread j) ∧ t = p.stacksOf [i] ++ s := by
  unfold Proc.clearThread at h
  by_cases hi : i = p.thidx
  · rw [if_pos hi] at h
    cases h
    exact ⟨rfl, fun _ _ => rfl, by simp [Proc.stacksOf, hi]⟩
  · rw [if_neg hi] at h
    by_cases hk : (p.thread i).kstack ≠ 0
    · simp only [if_pos hk] at h
      cases h
      refine ⟨rfl, fun j hj => by simp [Proc.setThread, Proc.setFreed, hj], ?_⟩
      simp [Proc.stacksOf, hi, hk]
    · simp only [if_neg hk] at h
      cases h
      refine ⟨rfl, fun j hj => by simp [Proc.setThread, Proc.setFreed, hj], ?_⟩
      simp [Proc.stacksOf, not_not.mp hk]

theorem Proc.stacksOf_congr {p q : Proc} {l : List ThIdx} (ht : q.thidx = p.thidx)
    (h : ∀ i ∈ l, q.thread i = p.thread i) : q.stacksOf l = p.stacksOf l := by
  induction l with
  | nil => rfl
  | cons i l ih =>
    have hi := h i List.mem_cons_self
    have hl := ih (fun j hj => h j (List.mem_cons_of_mem _ hj))
    unfold Proc.stacksOf at hl ⊢
    rw [List.filter_cons, List.filter_cons, hi, ht]
    split
    · rw [List.map_cons, List.map_cons, hi]
      rw [ht] at hl
      rw [hl]
    · rw [ht] at hl
      exact hl

theorem Proc.stacksOf_cons (p : Proc) (i : ThIdx) (l : List ThIdx) :
    p.stacksOf (i :: l) = p.stacksOf [i] ++ p.stacksOf l := by
  unfold Proc.stacksOf
  rw [← List.map_append, ← List.filter_append, List.singleton_append]

/-- The free list after the loop over the thread slots. -/
theorem clearThreads_perm : ∀ (l : List ThIdx) (p q : Proc) (s t : List Nat), l.Nodup →
    l.foldlM Proc.clearThread p s = .ok q t → t.Perm (p.stacksOf l ++ s) := by
  intro l
  induction l with
  | nil =>
    intro p q s t _ h
    cases h
    exact List.Perm.refl _
  | cons i l ih =>
    intro p q s t hn h
    obtain ⟨hi, hl⟩ := List.nodup_cons.mp hn
    rw [List.foldlM_cons] at h
    obtain ⟨p₁, s₁, h1, h2⟩ := Lib.bind_ok h
    obtain ⟨hth, hsame, rfl⟩ := clearThread_run h1
    have hrest := ih p₁ q _ t hl h2
    rw [Proc.stacksOf_congr hth (fun j hj => hsame j (fun he => hi (he ▸ hj)))] at hrest
    refine hrest.trans ?_
    rw [Proc.stacksOf_cons p i l, ← List.append_assoc]
    exact List.perm_append_comm.append_right s

theorem of_map_ok {α β : Type} {x : VmM α} {g : α → β} {b : β} {t : List Nat}
    (h : (g <$> x) s = .ok b t) : ∃ a, x s = .ok a t ∧ g a = b := by
  rw [map_eq_pure_bind] at h
  obtain ⟨a, t', ha, hb⟩ := Lib.bind_ok h
  cases hb
  exact ⟨a, ha, rfl⟩

/-- The stack of a program with one short argument. -/
theorem buildStack_hi (h : d.Covers 0) (hs : 4 ≤ s.length) (entry : Nat) :
    ∃ x t, buildStack 1 [[104, 105]] entry d 0 s = .ok (some x) t ∧ x.sz = 2 * PGSIZE := by
  obtain ⟨d₁, t, d₂, hgrow, hguard, hcopy⟩ := onePage_ok h rfl (by decide) hs
  have hround : u32 (PGROUNDUP 0) = 0 := by decide
  have hstart : (0 + 2 * PGSIZE = 0) = False := by decide
  have hstring : copyout d₂ 8188 3 t = .ok true t := hcopy 4 3 (by decide) (by decide) (by decide)
  have hwords : copyout d₂ 8168 20 t = .ok true t := hcopy 24 20 (by decide) (by decide) (by decide)
  have hpush : pushArgs d₂ [[104, 105]] 0 (0 + 2 * PGSIZE) t = .ok (some (1, 8188)) t := by
    rw [pushArgs, if_neg (by decide)]
    show (copyout d₂ 8188 3 >>= fun _ => _) t = _
    rw [Lib.run_bind hstring]
    rfl
  refine ⟨{ pgdir := d₂, sz := 0 + 2 * PGSIZE, entry := entry, sp := 8168, ustack := 0 + 2 * PGSIZE }, t,
    ?_, Nat.zero_add _⟩
  rw [buildStack]
  simp only [hround]
  rw [Lib.run_bind hgrow]
  simp only [hstart, if_false]
  rw [Lib.run_bind hguard, Lib.run_bind hpush]
  show (copyout d₂ 8168 20 >>= fun _ => _) t = _
  rw [Lib.run_bind hwords]
  rfl

end Exec

/-- After an `exec2` that returns 0 the new program finds its arguments above its
stack pointer, within the `clamp(stacksize)` pages above the guard page. -/
theorem exec2_passes_args (L : Layout) (fs : Files) (path : List UInt8) (argv : List (List UInt8))
    (stacksize : Int) (m m' : Contents) (p q : Proc) (s s' : List Nat) (hp : p.PagesApart s)
    (h : exec2Bytes L fs path argv stacksize m p s = .ok (q, 0, m') s') :
    q.stacksize = Lwp.Proc.clampStack stacksize ∧ Guarded q.pgdir q.sz q.stacksize ∧
      ∃ ptrs, Passed q.pgdir m' (q.sz - q.stacksize * PGSIZE) q.tf.esp q.sz argv ptrs := by
  obtain ⟨pages, hpages⟩ : ∃ pages, pages = Lwp.Proc.clampStack stacksize := ⟨_, rfl⟩
  have hle : pages ≤ 100 := by
    rw [hpages]
    unfold Lwp.Proc.clampStack
    split_ifs <;> omega
  rw [exec2Bytes, ← hpages, execBytes] at h
  rw [← hpages]
  obtain ⟨p₁, t, hclear, h⟩ := Lib.bind_ok h
  have hperm := clearThreads_perm _ p p₁ s t (List.nodup_finRange NTHREAD) hclear
  have hdir : p₁.pgdir = p.pgdir := by
    rw [((wp_clearThreads p s).ok hclear).1.rest]
  obtain ⟨hnodup, held, huses, hheld⟩ := hp
  have ht : t.Nodup := hperm.nodup_iff.mpr hnodup
  cases hname : fs.namei path with
  | none =>
    rw [hname] at h
    cases h
  | some ip =>
    rw [hname] at h
    obtain ⟨r, t₁, hload, h⟩ := Lib.bind_ok h
    cases r with
    | none => cases h
    | some r =>
      obtain ⟨x, m₁⟩ := r
      have hbuilt := (wp_loadBytes L fs ip hle argv m ht).ok hload x m₁ rfl
      obtain ⟨ptrs, hblock⟩ := hbuilt.block
      simp only at h
      split at h
      · cases h
      · obtain ⟨_, t₂, hfree, h⟩ := Lib.bind_ok h
        cases h
        -- what `freevm` gives back was free before or belongs to the old space
        have hback : Within (t₁ ++ held) s' :=
          ((gives_freevm (fun a ha => List.mem_append_left _ ha) (d := p₁.pgdir)
            ⟨List.mem_append_right _ (hdir ▸ huses.page),
              fun i a ha => List.mem_append_right _ (huses.table i a (hdir ▸ ha)),
              fun n y hn hy => List.mem_append_right _ (huses.pte n y hn (hdir ▸ hy))⟩).ok hfree).1
        have hkept : ∀ k y, k < KERNBASE / PGSIZE → x.pgdir.pte k = some y → y.page ∉ s' := by
          intro k y hk hy hmem
          rcases List.mem_append.mp (hback _ hmem) with hin | hin
          · exact hbuilt.apart.taken k y hk hy hin
          · exact hheld _ hin (hperm.subset (hbuilt.apart.source k y hk hy))
        refine ⟨rfl, hbuilt.guarded, ptrs, Block.passed ?_⟩
        exact hblock.keep (fun w hw => Pgdir.user_scrub hkept hw)

theorem exec2_passes_args_hi : ∃ q m' s',
    exec2Bytes someLayout bareElf [] [[104, 105]] 1 (fun _ _ => 0) oneThread
      ((List.range (2 ^ 21)).map (fun i => (i + 4) * PGSIZE)) = .ok (q, 0, m') s' ∧
    q.stacksize = 1 ∧ Guarded q.pgdir q.sz q.stacksize ∧
      ∃ ptrs, Passed q.pgdir m' (q.sz - q.stacksize * PGSIZE) q.tf.esp q.sz [[104, 105]] ptrs := by
  have hdiff : oneThread.PagesApart ((List.range (2 ^ 21)).map (fun i => (i + 4) * PGSIZE)) := by
    have hno : oneThread.stacksOf (List.finRange NTHREAD) = [] := by decide
    refine ⟨?_, [4096], ⟨List.mem_singleton.mpr rfl, fun _ _ ha => (by cases ha),
      fun _ _ _ hx => (by cases hx)⟩, fun a ha hmem => ?_⟩
    · rw [hno, List.nil_append]
      refine List.Nodup.map (fun i j hij => ?_) List.nodup_range
      simp only [PGSIZE] at hij
      omega
    · rw [hno, List.nil_append] at hmem
      rw [List.mem_singleton] at ha
      obtain ⟨i, -, hi⟩ := List.mem_map.mp hmem
      simp only [PGSIZE] at hi
      omega
  obtain ⟨q, s', hexec, -⟩ := exec_bareElf (s := (List.range (2 ^ 21)).map (fun i => (i + 4) * PGSIZE))
    oneThread [[104, 105]] (fun _ _ hx => by cases hx) (by decide)
    (by rw [List.length_map, List.length_range]; decide) (fun _ _ h hs => buildStack_hi h hs _)
  have hrun : exec2 someLayout bareElf [] [[104, 105]] 1 oneThread
      ((List.range (2 ^ 21)).map (fun i => (i + 4) * PGSIZE)) = .ok (q, 0) s' := hexec
  rw [← exec2Bytes_forget someLayout bareElf [] [[104, 105]] 1 (fun _ _ => 0) oneThread] at hrun
  obtain ⟨a, hbytes, ha⟩ := of_map_ok hrun
  obtain ⟨q₁, r, m'⟩ := a
  cases ha
  exact ⟨q₁, m', s', hbytes, exec2_passes_args someLayout bareElf [] [[104, 105]] 1 _ m' oneThread q₁ _ s'
    hdiff hbytes⟩

end Xv6.Vm
