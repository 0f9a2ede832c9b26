import Mathlib.Data.UInt
import Xv6.Lib.Intervals
import Xv6.Lib.Path
import Xv6.Lib.Run

/- The allocator of the user programs (`umalloc.c`, the same file in the three kernels).

   Memory is counted in units of one `Header`, and `KERNBASE` with it. What is free is
   threaded into a circular list that begins at `base`, a header of size 0 below the heap,
   and `freep` is at one of its nodes. `live` are the blocks that the program has, and `got`
   is what `sbrk` has given to `morecore`; nothing reads them. The program may write what it
   likes into its blocks, and may move the break up itself, by whole headers.

   What is proved: after any calls, the free list has the free units as intervals in order
   with gaps between them, the blocks of the program are apart from it and from each other,
   no unit is lost, and the loops end (`heap_sound`); `malloc` gives a block of the size that
   was asked for, or finds that neither the list nor the kernel has it, in every state,
   exactly when it is asked for less than `2 ^ 31 - 15` bytes (`malloc_good_iff`); and when the
   program has freed everything and the break was not moved, all memory is one free block
   again (`all_free`). -/
namespace Xv6.User

open Lib (Path search)
open Lib.Intervals

abbrev KERNBASE : Nat := 2 ^ 28

/-- `Header`. -/
structure Header where
  ptr : Nat
  size : Nat
  deriving DecidableEq, Repr

structure Heap (base : Nat) where
  mem : Nat → Header
  freep : Option Nat
  brk : Nat
  live : List Interval
  got : List Interval

/-- What `malloc` comes to: 0; a block, by the unit behind its header; or a header written where
`sbrk` has given no memory. -/
inductive Result where
  | null
  | block (p : Nat)
  | wild
  deriving DecidableEq, Repr

inductive HeapAct where
  | malloc (nbytes : UInt32) (pages : Bool)
  | free (p : Nat)
  | write (u : Nat) (h : Header)
  | sbrk (n : Nat)

/-- Where the loop of `free` stops. -/
abbrev Fits (mem : Nat → Header) (bp p : Nat) : Prop :=
  bp > p ∧ bp < (mem p).ptr ∨ p ≥ (mem p).ptr ∧ (bp > p ∨ bp < (mem p).ptr)

/-- The rest of `free`. -/
def link (mem : Nat → Header) (bp p : Nat) : Nat → Header :=
  let q := (mem p).ptr
  let mem :=
    if bp + (mem bp).size = q then
      Function.update mem bp ⟨(mem q).ptr, (mem bp).size + (mem q).size⟩
    else Function.update mem bp ⟨q, (mem bp).size⟩
  if p + (mem p).size = bp then Function.update mem p ⟨(mem bp).ptr, (mem p).size + (mem bp).size⟩
  else Function.update mem p ⟨bp, (mem p).size⟩

/-- The units that `malloc` looks for. -/
def nunits (nbytes : UInt32) : UInt32 := (nbytes + 8 - 1) / 8 + 1

/-- What `morecore` asks for. -/
def coreUnits (nu : UInt32) : UInt32 := if nu < 4096 then 4096 else nu

namespace Heap

variable {base : Nat}

/-- There are no more rounds than addresses. -/
def free (s : Heap base) (bp : Nat) : Option (Heap base) :=
  s.freep.bind fun fp =>
    (search (fun p => (s.mem p).ptr) (Fits s.mem bp) s.brk fp).map fun p =>
      { s with mem := link s.mem bp p, freep := some p }

/-- `sbrk` of `nu` units: `pages` says whether the kernel has the pages for them. -/
def grow (s : Heap base) (nu : Nat) (pages : Bool) : Option (Heap base) :=
  if pages ∧ s.brk + nu < KERNBASE then
    some { s with brk := s.brk + nu, got := (s.brk, nu) :: s.got }
  else none

/-- `morecore`, for an argument of `sbrk` that is positive. -/
def morecore (s : Heap base) (nu : Nat) (pages : Bool) : Option (Option (Heap base)) :=
  match s.grow nu pages with
  | none => some none
  | some t => ({ t with mem := Function.update t.mem s.brk { t.mem s.brk with size := nu } }.free s.brk).map some

/-- The block for `nu` units is taken from the free block at `p`. -/
def take (s : Heap base) (nu prevp p : Nat) : Heap base × Result :=
  let size := (s.mem p).size
  if size = nu then
    ({ s with
        mem := Function.update s.mem prevp { s.mem prevp with ptr := (s.mem p).ptr }
        freep := some prevp, live := (p, nu) :: s.live }, .block (p + 1))
  else
    let mem := Function.update s.mem p { s.mem p with size := size - nu }
    let q := p + (size - nu)
    ({ s with
        mem := Function.update mem q { mem q with size := nu }
        freep := some prevp, live := (q, nu) :: s.live }, .block (q + 1))

/-- The loop of `malloc`. -/
def mallocLoop (nu : UInt32) (pages : Bool) : Nat → Heap base → Nat → Nat → Option (Heap base × Result)
  | 0, _, _, _ => none
  | k + 1, s, prevp, p =>
    if (s.mem p).size ≥ nu.toNat then some (s.take nu.toNat prevp p)
    else if s.freep = some p then
      -- the argument of `sbrk` is an `int`
      if (coreUnits nu * 8).toBitVec.toInt ≤ 0 then some (s, .wild)
      else
        (s.morecore (coreUnits nu).toNat pages).bind fun r =>
          match r with
          | none => some (s, .null)
          | some t => t.freep.bind fun p => mallocLoop nu pages k t p (t.mem p).ptr
    else mallocLoop nu pages k s p (s.mem p).ptr

/-- The first call makes the list. -/
def init (s : Heap base) : Heap base :=
  match s.freep with
  | none => { s with mem := Function.update s.mem base ⟨base, 0⟩, freep := some base }
  | some _ => s

def malloc (s : Heap base) (nbytes : UInt32) (pages : Bool) : Option (Heap base × Result) :=
  s.init.freep.bind fun prevp =>
    mallocLoop (nunits nbytes) pages (2 * KERNBASE) s.init prevp (s.init.mem prevp).ptr

/-- The block of the program with the header at `bp`. -/
def blockAt (s : Heap base) (bp : Nat) : Option Interval := s.live.find? fun i => i.1 = bp

def step (s : Heap base) : HeapAct → Option (Heap base)
  | .malloc nbytes pages => (s.malloc nbytes pages).map Prod.fst
  | .free p =>
    match s.blockAt (p - 1) with
    | none => none
    | some i => ({ s with live := s.live.erase i }.free (p - 1))
  | .write u h =>
    if ∃ i ∈ s.live, i.1 < u ∧ u < stop i then some { s with mem := Function.update s.mem u h } else none
  | .sbrk n => if s.brk + n < KERNBASE then some { s with brk := s.brk + n } else none

/-- A program that has not called `malloc` yet. -/
def boot (mem : Nat → Header) (brk : Nat) : Heap base where
  mem := mem
  freep := none
  brk := brk
  live := []
  got := []

end Heap

/-! ## The free list -/

/-- Headers in memory: the pointers lead from `x` through the blocks of `l` to `y`. -/
structure Headers (mem : Nat → Header) (x : Nat) (l : List Interval) (y : Nat) : Prop where
  path : Path (fun p => (mem p).ptr) x (l.map Prod.fst) y
  sizes : ∀ i ∈ l, (mem i.1).size = i.2

namespace Headers

variable {mem mem' : Nat → Header} {x y : Nat} {a b l : List Interval} {i : Interval}

theorem append : Headers mem x (a ++ b) y ↔ ∃ m, Headers mem x a m ∧ Headers mem m b y := by
  constructor
  · intro h
    have hpath := h.path
    rw [List.map_append] at hpath
    obtain ⟨m, ha, hb⟩ := Path.append.mp hpath
    exact ⟨m, ⟨ha, fun i hi => h.sizes i (List.mem_append_left b hi)⟩,
      ⟨hb, fun i hi => h.sizes i (List.mem_append_right a hi)⟩⟩
  · rintro ⟨m, ha, hb⟩
    refine ⟨?_, fun i hi => (List.mem_append.mp hi).elim (ha.sizes i) (hb.sizes i)⟩
    rw [List.map_append]
    exact Path.append.mpr ⟨m, ha.path, hb.path⟩

theorem congr (h : Headers mem x l y) (hm : ∀ i ∈ l, mem' i.1 = mem i.1) : Headers mem' x l y := by
  refine ⟨h.path.congr fun p hp => ?_, fun i hi => ?_⟩
  · obtain ⟨i, hi, rfl⟩ := List.mem_map.mp hp
    rw [hm i hi]
  · rw [hm i hi]
    exact h.sizes i hi

theorem cons {z n : Nat} (hz : mem x = ⟨z, n⟩) (h : Headers mem z l y) : Headers mem x ((x, n) :: l) y := by
  refine ⟨⟨rfl, ?_⟩, List.forall_mem_cons.mpr ⟨congrArg Header.size hz, h.sizes⟩⟩
  show Path _ (mem x).ptr _ y
  rw [hz]
  exact h.path

/-- The header of the last block is written. -/
theorem set_last (h : Headers mem x (a ++ [i]) y) (hi : i.1 ∉ a.map Prod.fst) (z n : Nat) :
    Headers (Function.update mem i.1 ⟨z, n⟩) x (a ++ [(i.1, n)]) z := by
  have hpath := h.path
  rw [List.map_append] at hpath
  have hupdate : (fun w => (Function.update mem i.1 ⟨z, n⟩ w).ptr) =
      Function.update (fun w => (mem w).ptr) i.1 z := Function.comp_update Header.ptr mem i.1 _
  refine ⟨?_, fun j hj => ?_⟩
  · rw [List.map_append, hupdate]
    exact hpath.redirect hi z
  · rcases List.mem_append.mp hj with hj | hj
    · have hne : j.1 ≠ i.1 := fun he => hi (he ▸ List.mem_map_of_mem hj)
      rw [Function.update_of_ne hne]
      exact h.sizes j (List.mem_append_left _ hj)
    · rw [List.mem_singleton.mp hj, Function.update_self]

theorem ptr_last (h : Headers mem x (a ++ [i]) y) : mem i.1 = ⟨y, i.2⟩ := by
  have hpath := h.path
  rw [List.map_append] at hpath
  have hptr : (mem i.1).ptr = y := hpath.last
  have hsize := h.sizes i (List.mem_append_right a (List.mem_singleton_self i))
  rw [← hptr, ← hsize]

end Headers

/-- The nodes of the free list. -/
abbrev nodes (base : Nat) (fl : List Interval) : List Nat := ((base, 0) :: fl).map Prod.fst

/-- The free units, as the list that begins at `base`. -/
structure FreeList (base : Nat) (mem : Nat → Header) (fl : List Interval) : Prop where
  headers : Headers mem base ((base, 0) :: fl) base
  apart : Apart fl
  above : ∀ i ∈ fl, base < i.1

namespace FreeList

variable {base : Nat} {mem : Nat → Header} {fl : List Interval}

theorem sorted (h : FreeList base mem fl) : (nodes base fl).Pairwise (· < ·) := by
  refine List.pairwise_cons.mpr ⟨fun a ha => ?_, ?_⟩
  · obtain ⟨i, hi, rfl⟩ := List.mem_map.mp ha
    exact h.above i hi
  · rw [List.pairwise_map]
    exact h.apart.gap.imp fun {a b} hab => Nat.lt_of_le_of_lt (Nat.le_add_right _ _) hab

/-- The loop of `free` stops at the last node before the block, wherever it begins. -/
theorem search_eq (h : FreeList base mem fl) {bp p start k : Nat} (hbase : base < bp)
    (hp : p ∈ nodes base fl) (hlt : p < bp)
    (hrest : ∀ w ∈ nodes base fl, w ≤ p ∨ bp < w)
    (hstart : start ∈ nodes base fl) (hk : fl.length < k) :
    search (fun p => (mem p).ptr) (Fits mem bp) k start = some p := by
  have hstop : Fits mem bp p := by
    rcases h.headers.path.next_sorted h.sorted hp with ⟨hnext, hup, -⟩ | ⟨hback, -⟩
    · have := hrest _ (List.mem_cons_of_mem base hnext)
      left
      omega
    · have hlow : base ≤ p := by
        rcases hrest base List.mem_cons_self with hb | hb <;> omega
      right
      omega
  have honly : ∀ w ∈ nodes base fl, Fits mem bp w → w = p := by
    intro w hw hfits
    have hwp := hrest w hw
    rcases h.headers.path.next_sorted h.sorted hw with ⟨-, hup, hgap⟩ | ⟨hback, htop⟩
    · have := hgap p hp
      omega
    · have := htop p hp
      omega
  have hpath : Path (fun p => (mem p).ptr) base (nodes base fl) base := h.headers.path
  have hlen : (nodes base fl).length ≤ k := by
    rw [List.length_map]
    exact hk
  obtain ⟨a, b, hab⟩ := List.append_of_mem hstart
  rw [hab] at hpath hp honly hlen
  have hmem : ∀ w, w ∈ start :: b ++ a ↔ w ∈ a ++ start :: b := by
    intro w
    rw [List.mem_append, List.mem_append]
    exact or_comm
  apply hpath.enter.search_eq ((hmem p).mpr hp) hstop fun w hw => honly w ((hmem w).mp hw)
  rw [List.length_append, Nat.add_comm, ← List.length_append]
  exact hlen

/-- The first half of `link`: the block takes in the next one, if it is at its end. -/
theorem join_next {bp n q : Nat} {hi : List Interval} (hbase : base < bp) (hn : 0 < n)
    (hsize : (mem bp).size = n) (hapart : Apart hi) (hhi : ∀ i ∈ hi, bp + n ≤ i.1)
    (hq : Headers mem q hi base) :
    ∃ q' n' hi', (if bp + (mem bp).size = q then
          Function.update mem bp ⟨(mem q).ptr, (mem bp).size + (mem q).size⟩
        else Function.update mem bp ⟨q, (mem bp).size⟩) = Function.update mem bp ⟨q', n'⟩ ∧
      Headers mem q' hi' base ∧ hi'.Sublist hi ∧ 0 < n' ∧ (∀ i ∈ hi', bp + n' < i.1) ∧
      ∀ u, u ∈ units ((bp, n') :: hi') ↔ u ∈ units hi ∨ bp ≤ u ∧ u < bp + n := by
  rw [hsize]
  cases hi with
  | nil =>
    have hqb : q = base := hq.path
    rw [if_neg (by omega)]
    refine ⟨q, n, [], rfl, hq, List.Sublist.refl [], hn, nofun, fun u => ?_⟩
    rw [mem_units_cons]
    exact or_comm
  | cons c hi =>
    obtain ⟨rfl, hrest⟩ := hq.path
    have hpos := hapart.pos c List.mem_cons_self
    have hgap := (List.pairwise_cons.mp hapart.gap).1
    have hc := hhi c List.mem_cons_self
    have hcsize := hq.sizes c List.mem_cons_self
    split
    next hjoin =>
      refine ⟨_, n + c.2, hi, by rw [hcsize], ⟨hrest, fun i hi => hq.sizes i (List.mem_cons_of_mem c hi)⟩,
        List.sublist_cons_self c hi, by omega, fun i hi => ?_, fun u => ?_⟩
      · have := hgap i hi
        dsimp only [stop] at this
        omega
      · rw [mem_units_cons, mem_units_cons]
        dsimp only [stop]
        constructor
        · rintro (hu | hu)
          · rcases Nat.lt_or_ge u (bp + n) with hlt | hge
            · exact .inr ⟨hu.1, hlt⟩
            · exact .inl (.inl (by omega))
          · exact .inl (.inr hu)
        · rintro ((hu | hu) | hu)
          · exact .inl (by omega)
          · exact .inr hu
          · exact .inl (by omega)
    next hapart' =>
      refine ⟨_, n, c :: hi, rfl, hq, List.Sublist.refl _, hn,
        List.forall_mem_cons.mpr ⟨by omega, fun i hi => ?_⟩, fun u => ?_⟩
      · have := hgap i hi
        dsimp only [stop] at this
        omega
      · rw [mem_units_cons (i := (bp, n))]
        exact or_comm

theorem of_units {mem' : Nat → Header} {fl' : List Interval} {bp n : Nat} (h : FreeList base mem fl)
    (hbase : base < bp) (hheaders : Headers mem' base ((base, 0) :: fl') base) (hapart : Apart fl')
    (hunits : ∀ u, u ∈ units fl' ↔ u ∈ units fl ∨ bp ≤ u ∧ u < bp + n) : FreeList base mem' fl' := by
  refine ⟨hheaders, hapart, fun i hi => ?_⟩
  rcases (hunits i.1).mp (hapart.fst_mem hi) with ⟨j, hj, hu⟩ | hu
  · have := h.above j hj
    omega
  · omega

/-- The nodes before and behind the node `d`. -/
theorem nodes_split {lo a hi : List Interval} {d : Interval} (hlo : (base, 0) :: lo = a ++ [d]) :
    nodes base (lo ++ hi) = a.map Prod.fst ++ [d.1] ++ hi.map Prod.fst := by
  rw [nodes, ← List.cons_append, hlo, List.map_append, List.map_append]
  rfl

theorem mem_nodes_split {lo a hi : List Interval} {d : Interval} (hlo : (base, 0) :: lo = a ++ [d]) :
    d.1 ∈ nodes base (lo ++ hi) := by
  rw [nodes_split hlo]
  exact List.mem_append_left _ (List.mem_append_right _ (List.mem_singleton_self _))

/-- `link` at the last node before a block that is apart from the free units: the block is free
and nothing else changes. -/
theorem link (h : FreeList base mem fl) {bp n : Nat} (hbase : base < bp) (hn : 0 < n)
    (hsize : (mem bp).size = n) (hout : ∀ u, bp ≤ u → u < bp + n → u ∉ units fl) :
    ∃ p fl', p ∈ nodes base fl ∧ p < bp ∧ (∀ w ∈ nodes base fl, w ≤ p ∨ bp < w) ∧
      FreeList base (link mem bp p) fl' ∧ p ∈ nodes base fl' ∧
      (∀ u, u ∈ units fl' ↔ u ∈ units fl ∨ bp ≤ u ∧ u < bp + n) ∧
      ∀ u, u ∉ nodes base fl → u ≠ bp → User.link mem bp p u = mem u := by
  obtain ⟨lo, hi, rfl, hlo, hhi⟩ := h.apart.split (i := (bp, n)) hn hout
  dsimp only [stop] at hlo hhi
  obtain ⟨q, hheadlo, hheadhi⟩ := Headers.append.mp ((List.cons_append ▸ h.headers :
    Headers mem base (((base, 0) :: lo) ++ hi) base))
  have hparthi := h.apart.sublist (List.sublist_append_right lo hi)
  obtain ⟨q', n', hi', hmem, hhead', hsub, hn', hafter, hunits⟩ := join_next hbase hn hsize hparthi hhi hheadhi
  have hapart := h.apart.sublist (hsub.append_left lo)
  -- the last node before the block
  obtain ⟨pre, p, sp, hpre⟩ : ∃ pre p sp, (base, 0) :: lo = pre ++ [(p, sp)] := by
    rcases List.eq_nil_or_concat ((base, 0) :: lo) with he | ⟨pre, p, he⟩
    · cases he
    · exact ⟨pre, p.1, p.2, he.trans List.concat_eq_append⟩
  have hnodes : nodes base (lo ++ hi) = pre.map Prod.fst ++ [p] ++ hi.map Prod.fst := nodes_split hpre
  have hsorted := h.sorted
  rw [hnodes] at hsorted
  obtain ⟨hsortlo, -, -⟩ := List.pairwise_append.mp hsorted
  have hprelt : ∀ w ∈ pre.map Prod.fst, w < p := fun w hw =>
    (List.pairwise_append.mp hsortlo).2.2 w hw p (List.mem_singleton_self p)
  have hlow : ∀ i ∈ pre ++ [(p, sp)], i.1 < bp := by
    intro i hi
    rw [← hpre] at hi
    rcases List.mem_cons.mp hi with rfl | hi
    · exact hbase
    · have hpos := h.apart.pos i (List.mem_append_left _ hi)
      have := hlo i hi
      omega
  have hpbp : p < bp := hlow (p, sp) (List.mem_append_right pre (List.mem_singleton_self _))
  have hhigh : ∀ i ∈ hi, bp < i.1 := by
    intro i hi
    have := hhi i hi
    omega
  rw [hpre] at hheadlo
  have hp : mem p = ⟨q, sp⟩ := hheadlo.ptr_last
  -- the memory after the first half
  obtain ⟨mem1, hmem1⟩ : ∃ mem1, mem1 = Function.update mem bp ⟨q', n'⟩ := ⟨_, rfl⟩
  have hkeep : ∀ w, w ≠ bp → mem1 w = mem w := fun w hw => by
    rw [hmem1]
    exact Function.update_of_ne hw _ _
  have hbp : mem1 bp = ⟨q', n'⟩ := by
    rw [hmem1]
    exact Function.update_self _ _ _
  have hlo1 : Headers mem1 base (pre ++ [(p, sp)]) q :=
    hheadlo.congr fun i hi => hkeep i.1 (Nat.ne_of_lt (hlow i hi))
  have hhi1 : Headers mem1 q' hi' base :=
    hhead'.congr fun i hi => hkeep i.1 (Nat.ne_of_gt (hhigh i (hsub.subset hi)))
  have hpnot : p ∉ pre.map Prod.fst := fun hmem => Nat.lt_irrefl p (hprelt p hmem)
  have hlink : User.link mem bp p = if p + sp = bp then Function.update mem1 p ⟨q', sp + n'⟩
      else Function.update mem1 p ⟨bp, sp⟩ := by
    rw [User.link, hp, hmem, ← hmem1, hkeep p (Nat.ne_of_lt hpbp), hbp, hp]
  have hup : ∀ x, Headers (Function.update mem1 p x) q' hi' base := fun x =>
    hhi1.congr fun i hi => Function.update_of_ne (Nat.ne_of_gt (Nat.lt_trans hpbp (hhigh i (hsub.subset hi)))) _ _
  have hpmem : p ∈ nodes base (lo ++ hi) := mem_nodes_split hpre
  have hrest : ∀ w ∈ nodes base (lo ++ hi), w ≤ p ∨ bp < w := by
    intro w hw
    rw [hnodes] at hw
    rcases List.mem_append.mp hw with hw | hw
    · rcases List.mem_append.mp hw with hw | hw
      · exact .inl (Nat.le_of_lt (hprelt w hw))
      · exact .inl (Nat.le_of_eq (List.mem_singleton.mp hw))
    · obtain ⟨i, hi, rfl⟩ := List.mem_map.mp hw
      exact .inr (hhigh i hi)
  have hframe : ∀ x u, u ∉ nodes base (lo ++ hi) → u ≠ bp → Function.update mem1 p x u = mem u := by
    intro x u hu hne
    have hup : u ≠ p := fun he => hu (he ▸ hpmem)
    rw [Function.update_of_ne hup, hkeep u hne]
  rcases Decidable.em (p + sp = bp) with hjoin | hjoin
  · -- the node before is a block, and it takes in the new one
    rw [if_pos hjoin] at hlink
    obtain ⟨pre, rfl⟩ : ∃ pre', pre = (base, 0) :: pre' := by
      cases pre with
      | nil =>
        rw [List.nil_append, List.cons.injEq, Prod.mk.injEq] at hpre
        omega
      | cons c pre =>
        rw [List.cons_append, List.cons.injEq] at hpre
        exact ⟨pre, by rw [hpre.1]⟩
    rw [List.cons_append, List.cons.injEq] at hpre
    obtain rfl := hpre.2
    have hunits' : ∀ u, u ∈ units (pre ++ (p, sp + n') :: hi') ↔
        u ∈ units (pre ++ [(p, sp)] ++ hi) ∨ bp ≤ u ∧ u < bp + n := by
      intro u
      have hu := mem_units_join (i := (p, sp)) (j := (bp, n')) (l := hi') (u := u) hjoin
      rw [mem_units_append, hu, mem_units_cons, hunits]
      simp only [mem_units_append, mem_units_cons, mem_units_nil, or_false, or_assoc]
    refine ⟨p, pre ++ (p, sp + n') :: hi', hpmem, hpbp, hrest, ?_, ?_, hunits', ?_⟩
    · rw [hlink]
      apply h.of_units hbase ?_ ?_ hunits'
      · have hset := hlo1.set_last hpnot q' (sp + n')
        have happ := Headers.append.mpr ⟨q', hset, hup _⟩
        rwa [List.append_assoc] at happ
      · rw [List.append_assoc] at hapart
        apply hapart.grow
        intro i hi
        have := hafter i hi
        dsimp only [stop]
        omega
    · apply List.mem_cons_of_mem
      rw [List.map_append]
      exact List.mem_append_right _ List.mem_cons_self
    · rw [hlink]
      exact hframe _
  · -- the block is a node of its own
    rw [if_neg hjoin] at hlink
    have hunits' : ∀ u, u ∈ units (lo ++ (bp, n') :: hi') ↔
        u ∈ units (lo ++ hi) ∨ bp ≤ u ∧ u < bp + n := by
      intro u
      rw [mem_units_append, hunits, mem_units_append, or_assoc]
    have hgap : ∀ i ∈ lo, stop i < bp := by
      cases pre with
      | nil =>
        rw [List.nil_append, List.cons.injEq] at hpre
        rw [hpre.2]
        exact nofun
      | cons c pre =>
        rw [List.cons_append, List.cons.injEq] at hpre
        obtain rfl := hpre.2
        have hle := hlo (p, sp) (List.mem_append_right pre (List.mem_singleton_self _))
        exact (h.apart.sublist (List.sublist_append_left _ hi)).stop_lt (Nat.lt_of_le_of_ne hle hjoin)
    refine ⟨p, lo ++ (bp, n') :: hi', hpmem, hpbp, hrest, ?_, ?_, hunits', ?_⟩
    · rw [hlink]
      apply h.of_units hbase ?_ (hapart.add hn' hgap hafter) hunits'
      have hset := hlo1.set_last hpnot bp sp
      have hself : Function.update mem1 p ⟨bp, sp⟩ bp = ⟨q', n'⟩ :=
        (Function.update_of_ne (Nat.ne_of_gt hpbp) _ _).trans hbp
      have happ := Headers.append.mpr ⟨bp, hset, (hup _).cons hself⟩
      rwa [← hpre] at happ
    · exact mem_nodes_split hpre
    · rw [hlink]
      exact hframe _

end FreeList

/-- The block `c` of a free list, the blocks `lo` before it and `b` behind it, and `d`, the last
of the nodes before it. -/
structure Behind (base : Nat) (mem : Nat → Header) (lo a : List Interval) (d c : Interval) (b : List Interval) :
    Prop where
  split : (base, 0) :: lo = a ++ [d]
  before : Headers mem base (a ++ [d]) c.1
  size : (mem c.1).size = c.2
  after : Headers mem (mem c.1).ptr b base

section Behind

variable {base : Nat} {mem : Nat → Header} {fl lo a b : List Interval} {c d : Interval}

/-- The block behind a node, in the list. -/
theorem FreeList.behind (h : FreeList base mem fl)
    {prevp : Nat} (hprev : prevp ∈ nodes base fl) (hne : (mem prevp).ptr ≠ base) :
    ∃ lo a d c b, fl = lo ++ c :: b ∧ d.1 = prevp ∧ c.1 = (mem prevp).ptr ∧ Behind base mem lo a d c b := by
  obtain ⟨d, hd, rfl⟩ := List.mem_map.mp hprev
  obtain ⟨a, b, hab⟩ := List.append_of_mem hd
  have hheaders := h.headers
  rw [hab, ← List.singleton_append, ← List.append_assoc] at hheaders
  obtain ⟨m, hbefore, hafter⟩ := Headers.append.mp hheaders
  have hm : (mem d.1).ptr = m := congrArg Header.ptr hbefore.ptr_last
  cases b with
  | nil =>
    have hmb : m = base := hafter.path
    exact absurd (hm.trans hmb) hne
  | cons c b =>
    have hmc : m = c.1 := hafter.path.1
    obtain ⟨lo, hlo⟩ : ∃ lo, (base, 0) :: lo = a ++ [d] := by
      cases a with
      | nil =>
        rw [List.nil_append, List.cons.injEq] at hab
        exact ⟨[], by rw [hab.1]; rfl⟩
      | cons e a =>
        rw [List.cons_append, List.cons.injEq] at hab
        exact ⟨a ++ [d], by rw [hab.1]; rfl⟩
    refine ⟨lo, a, d, c, b, ?_, rfl, hmc.symm.trans hm.symm, hlo, hmc ▸ hbefore,
      hafter.sizes c List.mem_cons_self, hafter.path.2, fun i hi => hafter.sizes i (List.mem_cons_of_mem c hi)⟩
    have hall : (base, 0) :: fl = (base, 0) :: (lo ++ c :: b) := by
      rw [hab, ← List.cons_append, hlo, List.append_assoc]
      rfl
    exact (List.cons.inj hall).2

theorem Behind.order (h : Behind base mem lo a d c b) (hl : FreeList base mem (lo ++ c :: b)) :
    d.1 ∉ a.map Prod.fst ∧ (∀ i ∈ a ++ [d], ∀ j ∈ c :: b, i.1 < j.1) ∧ ∀ j ∈ b, c.1 < j.1 := by
  have hsorted := hl.sorted
  rw [FreeList.nodes_split h.split] at hsorted
  obtain ⟨hlo, hhi, hcross⟩ := List.pairwise_append.mp hsorted
  refine ⟨fun hmem => ?_, fun i hi j hj => ?_, fun j hj => ?_⟩
  · exact Nat.lt_irrefl _ ((List.pairwise_append.mp hlo).2.2 d.1 hmem d.1 List.mem_cons_self)
  · refine hcross i.1 ?_ j.1 (List.mem_map_of_mem hj)
    change i.1 ∈ a.map Prod.fst ++ [d].map Prod.fst
    rw [← List.map_append]
    exact List.mem_map_of_mem hi
  · exact (List.pairwise_cons.mp hhi).1 j.1 (List.mem_map_of_mem hj)

/-- What is left of the list without the block. -/
theorem FreeList.rest (hl : FreeList base mem (lo ++ c :: b)) :
    Apart (lo ++ b) ∧ ∀ i ∈ lo ++ b, base < i.1 := by
  have hsub := (List.sublist_cons_self c b).append_left lo
  exact ⟨hl.apart.sublist hsub, fun i hi => hl.above i (hsub.subset hi)⟩

end Behind

namespace Heap

variable {base : Nat}

/-- What holds of the heap after the first call. -/
structure Inv (s : Heap base) (fl : List Interval) : Prop where
  list : FreeList base s.mem fl
  freep : ∃ p ∈ nodes base fl, s.freep = some p
  sizes : ∀ i ∈ s.live, (s.mem i.1).size = i.2
  pos : ∀ i ∈ s.live, 0 < i.2
  apart : s.live.Pairwise fun i j => stop i ≤ j.1 ∨ stop j ≤ i.1
  sep : ∀ u, u ∈ units fl → u ∉ units s.live
  cover : ∀ u, u ∈ units fl ∨ u ∈ units s.live ↔ u ∈ units s.got
  inside : ∀ u ∈ units s.got, base < u ∧ u < s.brk
  room : base < s.brk ∧ s.brk < KERNBASE

/-- The units of the other blocks of the program are as before. -/
def Keeps (s t : Heap base) : Prop := ∀ i ∈ s.live, ∀ u, i.1 ≤ u → u < stop i → t.mem u = s.mem u

namespace Inv

variable {s t : Heap base} {fl : List Interval} {i : Interval}

theorem free_inside (h : Inv s fl) {u : Nat} (hu : u ∈ units fl) : base < u ∧ u < s.brk :=
  h.inside u ((h.cover u).mp (.inl hu))

theorem live_inside (h : Inv s fl) {u : Nat} (hu : u ∈ units s.live) : base < u ∧ u < s.brk :=
  h.inside u ((h.cover u).mp (.inr hu))

theorem live_mem (h : Inv s fl) (hi : i ∈ s.live) : i.1 ∈ units s.live :=
  ⟨i, hi, Nat.le_refl _, Nat.lt_add_of_pos_right (h.pos i hi)⟩

/-- No unit of the program is a node. -/
theorem not_node (h : Inv s fl) {u : Nat} (hu : u ∈ units s.live) : u ∉ nodes base fl := by
  intro hmem
  rcases List.mem_cons.mp hmem with rfl | hmem
  · exact Nat.lt_irrefl _ (h.live_inside hu).1
  · obtain ⟨i, hi, rfl⟩ := List.mem_map.mp hmem
    exact h.sep i.1 (h.list.apart.fst_mem hi) hu

/-- The nodes are less than the addresses. -/
theorem length_lt (h : Inv s fl) : fl.length < s.brk := by
  have hsub : nodes base fl ⊆ List.range s.brk := by
    intro p hp
    rw [List.mem_range]
    rcases List.mem_cons.mp hp with rfl | hp
    · exact h.room.1
    · obtain ⟨i, hi, rfl⟩ := List.mem_map.mp hp
      exact (h.free_inside (h.list.apart.fst_mem hi)).2
  have hnodup : (nodes base fl).Nodup := h.list.sorted.imp fun hab => Nat.ne_of_lt hab
  have hlen := (List.subperm_of_subset hnodup hsub).length_le
  rwa [List.length_range, List.length_map, List.length_cons] at hlen

theorem perm {live : List Interval} (h : Inv s fl) (hp : s.live.Perm live) :
    Inv ({ s with live := live } : Heap base) fl := by
  have hunits : ∀ u, u ∈ units live ↔ u ∈ units s.live := by
    intro u
    constructor
    · rintro ⟨i, hi, hu⟩
      exact ⟨i, hp.mem_iff.mpr hi, hu⟩
    · rintro ⟨i, hi, hu⟩
      exact ⟨i, hp.mem_iff.mp hi, hu⟩
  refine ⟨h.list, h.freep, fun i hi => h.sizes i (hp.mem_iff.mpr hi), fun i hi => h.pos i (hp.mem_iff.mpr hi),
    ?_, fun u hu => ?_, fun u => ?_, h.inside, h.room⟩
  · exact (hp.pairwise_iff fun hab => hab.symm).mp h.apart
  · rw [hunits]
    exact h.sep u hu
  · rw [hunits]
    exact h.cover u

/-- `free` of a block of the program. -/
theorem free {live : List Interval} (h : Inv s fl) (hlive : s.live = i :: live) :
    ∃ t fl', ({ s with live := live } : Heap base).free i.1 = some t ∧ Inv t fl' ∧ t.live = live ∧
      t.got = s.got ∧ t.brk = s.brk ∧ (∀ u, u ∈ units fl' ↔ u ∈ units fl ∨ i.1 ≤ u ∧ u < stop i) ∧
      Keeps { s with live := live } t := by
  have hi : i ∈ s.live := hlive ▸ List.mem_cons_self
  have hpos := h.pos i hi
  have hunit : ∀ u, i.1 ≤ u → u < stop i → u ∈ units s.live := fun u h1 h2 => ⟨i, hi, h1, h2⟩
  have hbase := (h.live_inside (h.live_mem hi)).1
  obtain ⟨p, fl', hp, hlt, hrest, hlist, hp', hunits, hframe⟩ := h.list.link hbase hpos (h.sizes i hi)
    fun u h1 h2 hu => h.sep u hu (hunit u h1 h2)
  obtain ⟨start, hstart, hfreep⟩ := h.freep
  have hsearch := h.list.search_eq hbase hp hlt hrest hstart h.length_lt
  have hmem : ∀ u, u ∈ units live → u ∈ units s.live := by
    intro u hu
    rw [hlive, mem_units_cons]
    exact .inr hu
  have hout : ∀ u, u ∈ units live → ¬ (i.1 ≤ u ∧ u < stop i) := by
    rintro u ⟨j, hj, h1, h2⟩ hu
    have hap := (List.pairwise_cons.mp (hlive ▸ h.apart)).1 j hj
    omega
  have hkeep : ∀ u, u ∈ units live → link s.mem i.1 p u = s.mem u := by
    intro u hu
    apply hframe u (h.not_node (hmem u hu))
    rintro rfl
    exact hout i.1 hu ⟨Nat.le_refl _, Nat.lt_add_of_pos_right hpos⟩
  have hsub : ∀ j ∈ live, j ∈ s.live := fun j hj => hlive ▸ List.mem_cons_of_mem i hj
  refine ⟨{ s with live := live, mem := link s.mem i.1 p, freep := some p }, fl', ?_, ?_, rfl, rfl, rfl,
    hunits, fun j hj u h1 h2 => hkeep u ⟨j, hj, h1, h2⟩⟩
  · rw [Heap.free]
    dsimp only
    rw [hfreep, Option.bind_some, hsearch]
    rfl
  · refine ⟨hlist, ⟨p, hp', rfl⟩, fun j hj => ?_, fun j hj => h.pos j (hsub j hj), ?_, fun u hu hl => ?_,
      fun u => ?_, h.inside, h.room⟩
    · have hj' : j.1 ∈ units live := ⟨j, hj, Nat.le_refl _, Nat.lt_add_of_pos_right (h.pos j (hsub j hj))⟩
      dsimp only
      rw [hkeep j.1 hj']
      exact h.sizes j (hsub j hj)
    · exact (List.pairwise_cons.mp (hlive ▸ h.apart)).2
    · rcases (hunits u).mp hu with hu | hu
      · exact h.sep u hu (hmem u hl)
      · exact hout u hl hu
    · rw [hunits, ← h.cover u, hlive, mem_units_cons, or_assoc]

/-- A part of the free units is handed out. -/
theorem hand_out (h : Inv s fl) {fl' : List Interval} {mem : Nat → Header} {p : Nat}
    (hlist : FreeList base mem fl') (hp : p ∈ nodes base fl')
    (hunits : ∀ u, u ∈ units fl ↔ u ∈ units fl' ∨ i.1 ≤ u ∧ u < stop i)
    (hsep : ∀ u, u ∈ units fl' → ¬ (i.1 ≤ u ∧ u < stop i)) (hsize : (mem i.1).size = i.2)
    (hpos : 0 < i.2) (hkeep : ∀ u, u ∈ units s.live → mem u = s.mem u) :
    Inv ({ s with mem := mem, freep := some p, live := i :: s.live } : Heap base) fl' := by
  have hout : ∀ u, u ∈ units s.live → ¬ (i.1 ≤ u ∧ u < stop i) := by
    intro u hl hu
    exact h.sep u ((hunits u).mpr (.inr hu)) hl
  refine ⟨hlist, ⟨p, hp, rfl⟩, List.forall_mem_cons.mpr ⟨hsize, fun j hj => ?_⟩,
    List.forall_mem_cons.mpr ⟨hpos, h.pos⟩, List.pairwise_cons.mpr ⟨fun j hj => ?_, h.apart⟩,
    fun u hu hl => ?_, fun u => ?_, h.inside, h.room⟩
  · dsimp only
    rw [hkeep j.1 (h.live_mem hj)]
    exact h.sizes j hj
  · have hposj := h.pos j hj
    have hi := hout i.1
    have hj' := hout j.1 (h.live_mem hj)
    by_contra hover
    rcases Nat.le_total i.1 j.1 with hle | hle
    · apply hj'
      omega
    · apply hi ⟨j, hj, hle, ?_⟩
      · exact ⟨Nat.le_refl _, Nat.lt_add_of_pos_right hpos⟩
      · omega
  · rcases mem_units_cons.mp hl with hl | hl
    · exact hsep u hu hl
    · exact h.sep u ((hunits u).mpr (.inl hu)) hl
  · rw [mem_units_cons, ← or_assoc, ← hunits]
    exact h.cover u

/-- `take` of a block of the size asked for: it is unlinked. -/
theorem take_whole {lo a b : List Interval} {c d : Interval} (h : Inv s (lo ++ c :: b))
    (hb : Behind base s.mem lo a d c b) {mem : Nat → Header}
    (hmem : mem = Function.update s.mem d.1 ⟨(s.mem c.1).ptr, (s.mem d.1).size⟩) :
    Inv ({ s with mem := mem, freep := some d.1, live := c :: s.live } : Heap base) (lo ++ b) ∧
      ∀ u ∈ units s.live, mem u = s.mem u := by
  obtain ⟨hnot, hlohi, -⟩ := hb.order h.list
  obtain ⟨hrest, habove⟩ := h.list.rest
  have hd : d ∈ a ++ [d] := List.mem_append_right a List.mem_cons_self
  rw [hb.before.sizes d hd] at hmem
  have hbefore : Headers mem base (a ++ [d]) (s.mem c.1).ptr := by
    rw [hmem]
    exact hb.before.set_last hnot (s.mem c.1).ptr d.2
  have hafter : Headers mem (s.mem c.1).ptr b base := hb.after.congr fun j hj => by
    have := hlohi d hd j (List.mem_cons_of_mem c hj)
    rw [hmem, Function.update_of_ne (Nat.ne_of_gt this)]
  have happ := Headers.append.mpr ⟨_, hbefore, hafter⟩
  have hkeep : ∀ u ∈ units s.live, mem u = s.mem u := by
    intro u hu
    rw [hmem]
    apply Function.update_of_ne
    rintro rfl
    exact h.not_node hu (FreeList.mem_nodes_split hb.split)
  refine ⟨h.hand_out ⟨?_, hrest, habove⟩ (FreeList.mem_nodes_split hb.split) (fun u => ?_)
    (fun u hu => h.list.apart.not_mem_others hu) ?_ (h.list.apart.pos c (List.mem_append_right lo List.mem_cons_self))
    hkeep, hkeep⟩
  · rwa [← hb.split] at happ
  · rw [mem_units_append, mem_units_append, mem_units_cons, or_comm (b := u ∈ units b), or_assoc]
  · have := hlohi d hd c List.mem_cons_self
    rw [hmem, Function.update_of_ne (Nat.ne_of_gt this)]
    exact hb.size

/-- `take` of a larger block: its end `q` is cut off. -/
theorem take_end {lo a b : List Interval} {c d : Interval} {nu q : Nat} (h : Inv s (lo ++ c :: b))
    (hb : Behind base s.mem lo a d c b) (hnu : 0 < nu) (hlt : nu < c.2) (hq : q = c.1 + (c.2 - nu))
    {mem : Nat → Header} (hmemq : (mem q).size = nu) (hmemc : mem c.1 = ⟨(s.mem c.1).ptr, c.2 - nu⟩)
    (hother : ∀ u, u ≠ c.1 → u ≠ q → mem u = s.mem u) :
    Inv ({ s with mem := mem, freep := some d.1, live := (q, nu) :: s.live } : Heap base)
      (lo ++ (c.1, c.2 - nu) :: b) ∧ ∀ u ∈ units s.live, mem u = s.mem u := by
  obtain ⟨-, hlohi, hcb⟩ := hb.order h.list
  obtain ⟨hrest, habove⟩ := h.list.rest
  have hcq : c.1 < q := by omega
  have hqc : q + nu = stop c := by
    dsimp only [stop]
    omega
  have hfree : ∀ u, c.1 ≤ u → u < stop c → u ∈ units (lo ++ c :: b) := fun u h1 h2 =>
    ⟨c, List.mem_append_right lo List.mem_cons_self, h1, h2⟩
  have hqnot : q ∉ nodes base (lo ++ b) := by
    intro hmem
    rcases List.mem_cons.mp hmem with he | hmem
    · have := (h.free_inside (hfree q (Nat.le_of_lt hcq) (by omega))).1
      omega
    · obtain ⟨j, hj, he⟩ := List.mem_map.mp hmem
      exact h.list.apart.not_mem_others (he ▸ hrest.fst_mem hj) ⟨Nat.le_of_lt hcq, by omega⟩
  have hnodes : nodes base (lo ++ b) = (a ++ [d]).map Prod.fst ++ b.map Prod.fst := by
    rw [nodes, ← List.cons_append, hb.split, List.map_append]
  have hbefore : Headers mem base (a ++ [d]) c.1 := hb.before.congr fun j hj => by
    apply hother j.1 (Nat.ne_of_lt (hlohi j hj c List.mem_cons_self))
    rintro rfl
    apply hqnot
    rw [hnodes]
    exact List.mem_append_left _ (List.mem_map_of_mem hj)
  have hafter : Headers mem (s.mem c.1).ptr b base := hb.after.congr fun j hj => by
    apply hother j.1 (Nat.ne_of_gt (hcb j hj))
    rintro rfl
    apply hqnot
    rw [hnodes]
    exact List.mem_append_right _ (List.mem_map_of_mem hj)
  have happ := Headers.append.mpr ⟨_, hbefore, hafter.cons hmemc⟩
  have hkeep : ∀ u ∈ units s.live, mem u = s.mem u := by
    intro u hu
    have hout : ¬ (c.1 ≤ u ∧ u < stop c) := fun hc => h.sep u (hfree u hc.1 hc.2) hu
    apply hother u <;> rintro rfl
    · exact hout ⟨Nat.le_refl _, by omega⟩
    · exact hout ⟨Nat.le_of_lt hcq, by omega⟩
  refine ⟨h.hand_out ⟨?_, h.list.apart.shrink (by omega) (by omega), fun i hi => ?_⟩
    (FreeList.mem_nodes_split hb.split) (fun u => ?_) (fun u hu hin => ?_) hmemq hnu hkeep, hkeep⟩
  · rwa [← hb.split] at happ
  · rcases List.mem_append.mp hi with hi | hi
    · exact habove i (List.mem_append_left b hi)
    · rcases List.mem_cons.mp hi with rfl | hi
      · exact h.list.above c (List.mem_append_right lo List.mem_cons_self)
      · exact habove i (List.mem_append_right lo hi)
  · have hu := mem_units_join (i := (c.1, c.2 - nu)) (j := (q, nu)) (l := b) (u := u) hq.symm
    have hc : (c.1, c.2 - nu + nu) = c := Prod.ext rfl (Nat.sub_add_cancel (Nat.le_of_lt hlt))
    rw [hc] at hu
    rw [mem_units_append, mem_units_append, hu, mem_units_cons, mem_units_cons, mem_units_cons, or_assoc, or_assoc,
      or_comm (b := u ∈ units b)]
  · have hrest' : u ∈ units (lo ++ b) ∨ c.1 ≤ u ∧ u < stop (c.1, c.2 - nu) := by
      rw [mem_units_append, mem_units_cons] at hu
      rw [mem_units_append]
      tauto
    dsimp only [stop] at hin hqc hrest'
    rcases hrest' with hu | hu
    · exact h.list.apart.not_mem_others hu ⟨by omega, by dsimp only [stop]; omega⟩
    · omega

/-- `take` at the node behind `prevp`, when it is large enough. -/
theorem take (h : Inv s fl) {nu prevp : Nat} (hnu : 0 < nu) (hprev : prevp ∈ nodes base fl)
    (hsize : nu ≤ (s.mem (s.mem prevp).ptr).size) :
    ∃ t i fl', s.take nu prevp (s.mem prevp).ptr = (t, .block (i.1 + 1)) ∧ i.2 = nu ∧ Inv t fl' ∧
      t.live = i :: s.live ∧ t.got = s.got ∧ t.brk = s.brk ∧ Keeps s t := by
  have hne : (s.mem prevp).ptr ≠ base := by
    intro he
    have hzero := h.list.headers.sizes _ List.mem_cons_self
    rw [he, hzero] at hsize
    exact absurd hsize (Nat.not_le.mpr hnu)
  obtain ⟨lo, a, d, c, b, rfl, rfl, hc, hb⟩ := h.list.behind hprev hne
  rw [← hc] at hsize ⊢
  rw [hb.size] at hsize
  rw [Heap.take, hb.size]
  dsimp only
  split
  next hexact =>
    obtain rfl := hexact
    obtain ⟨hinv, hkeep⟩ := h.take_whole hb rfl
    exact ⟨_, c, lo ++ b, rfl, rfl, hinv, rfl, rfl, rfl, fun j hj u h1 h2 => hkeep u ⟨j, hj, h1, h2⟩⟩
  next hsplit =>
    have hne : c.1 ≠ c.1 + (c.2 - nu) := by omega
    obtain ⟨mem, hmem⟩ : ∃ mem, mem = Function.update
        (Function.update s.mem c.1 { s.mem c.1 with size := c.2 - nu }) (c.1 + (c.2 - nu))
        { Function.update s.mem c.1 { s.mem c.1 with size := c.2 - nu } (c.1 + (c.2 - nu)) with size := nu } := ⟨_, rfl⟩
    have hmemq : (mem (c.1 + (c.2 - nu))).size = nu := by
      rw [hmem, Function.update_self]
    have hmemc : mem c.1 = ⟨(s.mem c.1).ptr, c.2 - nu⟩ := by
      rw [hmem, Function.update_of_ne hne, Function.update_self]
    have hother : ∀ u, u ≠ c.1 → u ≠ c.1 + (c.2 - nu) → mem u = s.mem u := by
      intro u h1 h2
      rw [hmem, Function.update_of_ne h2, Function.update_of_ne h1]
    obtain ⟨hinv, hkeep⟩ := h.take_end hb hnu (by omega) rfl hmemq hmemc hother
    rw [← hmem]
    exact ⟨_, (c.1 + (c.2 - nu), nu), lo ++ (c.1, c.2 - nu) :: b, rfl, rfl, hinv, rfl, rfl, rfl,
      fun j hj u h1 h2 => hkeep u ⟨j, hj, h1, h2⟩⟩

/-- `morecore`: the kernel has not the memory, or there is a free block that is large enough. -/
theorem morecore (h : Inv s fl) {nu : Nat} (hnu : 0 < nu) (pages : Bool) :
    (s.morecore nu pages = some none ∧ (pages = false ∨ KERNBASE ≤ s.brk + nu)) ∨
    ∃ t fl', s.morecore nu pages = some (some t) ∧ Inv t fl' ∧ (∃ i ∈ fl', nu ≤ i.2) ∧ t.live = s.live ∧
      t.got = (s.brk, nu) :: s.got ∧ t.brk = s.brk + nu ∧ Keeps s t := by
  rw [Heap.morecore, Heap.grow]
  split
  next hgrow =>
    left
    split at hgrow
    · cases hgrow
    next hno =>
      refine ⟨rfl, ?_⟩
      cases pages with
      | false => exact .inl rfl
      | true => exact .inr (Nat.le_of_not_lt fun hlt => hno ⟨rfl, hlt⟩)
  next t hgrow =>
    right
    split at hgrow
    next hroom =>
      obtain rfl := Option.some.inj hgrow
      dsimp only
      obtain ⟨mem, hmem⟩ : ∃ mem, mem = Function.update s.mem s.brk { s.mem s.brk with size := nu } := ⟨_, rfl⟩
      have hother : ∀ u, u < s.brk → mem u = s.mem u := fun u hu => by
        rw [hmem]
        exact Function.update_of_ne (Nat.ne_of_lt hu) _ _
      have hsize : (mem s.brk).size = nu := by
        rw [hmem, Function.update_self]
      -- the new memory as a block of the program
      have hinv : Inv ({ s with
          mem := mem, brk := s.brk + nu, got := (s.brk, nu) :: s.got
          live := (s.brk, nu) :: s.live } : Heap base) fl := by
        have hnode : ∀ i ∈ (base, 0) :: fl, mem i.1 = s.mem i.1 := by
          refine List.forall_mem_cons.mpr ⟨hother base h.room.1, fun i hi => ?_⟩
          exact hother i.1 (h.free_inside (h.list.apart.fst_mem hi)).2
        refine ⟨⟨h.list.headers.congr hnode, h.list.apart, h.list.above⟩, h.freep,
          List.forall_mem_cons.mpr ⟨?_, fun i hi => ?_⟩, List.forall_mem_cons.mpr ⟨hnu, h.pos⟩,
          List.pairwise_cons.mpr ⟨fun i hi => ?_, h.apart⟩, fun u hu hl => ?_, fun u => ?_, fun u hu => ?_,
          Nat.lt_add_right nu h.room.1, hroom.2⟩
        · exact hsize
        · dsimp only
          rw [hother i.1 (h.live_inside (h.live_mem hi)).2]
          exact h.sizes i hi
        · right
          have hpos := h.pos i hi
          have hin : i.1 ≤ i.1 + i.2 - 1 ∧ i.1 + i.2 - 1 < i.1 + i.2 := by omega
          have hlast := (h.live_inside ⟨i, hi, hin⟩).2
          dsimp only [stop]
          omega
        · rcases mem_units_cons.mp hl with hl | hl
          · exact Nat.lt_irrefl u (Nat.lt_of_lt_of_le (h.free_inside hu).2 hl.1)
          · exact h.sep u hu hl
        · rw [mem_units_cons, mem_units_cons, ← h.cover u]
          tauto
        · rcases mem_units_cons.mp hu with hu | hu
          · dsimp only [stop] at hu ⊢
            exact ⟨Nat.lt_of_lt_of_le h.room.1 hu.1, hu.2⟩
          · have := h.inside u hu
            exact ⟨this.1, Nat.lt_add_right nu this.2⟩
      obtain ⟨t, fl', ht, hinv', hlive, hgot, hbrk, hunits, hkeep⟩ := hinv.free rfl
      rw [← hmem]
      refine ⟨t, fl', ?_, hinv', ?_, hlive, hgot, hbrk, fun i hi u h1 h2 => ?_⟩
      · have hfree : ({ s with mem := mem, brk := s.brk + nu, got := (s.brk, nu) :: s.got } : Heap base).free
            s.brk = some t := ht
        rw [hfree]
        rfl
      · have hin : ∀ u, s.brk ≤ u → u < stop (s.brk, nu) → u ∈ units fl' :=
          fun u h1 h2 => (hunits u).mpr (.inr ⟨h1, h2⟩)
        obtain ⟨j, hj, hlow, hup⟩ := hinv'.list.apart.covers (i := (s.brk, nu)) hnu hin
        refine ⟨j, hj, ?_⟩
        dsimp only [stop] at hlow hup
        omega
      · have hu : u < s.brk := (h.live_inside ⟨i, hi, h1, h2⟩).2
        rw [hkeep i hi u h1 h2]
        exact hother u hu
    · cases hgrow

end Inv

variable {s : Heap base} {fl : List Interval}

/-- A round of the loop of `malloc`: a block is taken, or none is large enough. -/
theorem round (nu : UInt32) (pages : Bool) {fp : Nat} (hfp : s.freep = some fp) :
    ∀ (l : List Nat) (prevp k : Nat), prevp ∈ nodes base fl →
      Path (fun p => (s.mem p).ptr) (s.mem prevp).ptr (l ++ [fp]) (s.mem fp).ptr → fp ∉ l →
      (∀ p ∈ l ++ [fp], p ∈ nodes base fl) → l.length < k →
      (∃ p ∈ nodes base fl, nu.toNat ≤ (s.mem (s.mem p).ptr).size ∧
        mallocLoop nu pages k s prevp (s.mem prevp).ptr = some (s.take nu.toNat p (s.mem p).ptr)) ∨
      ((∀ p ∈ l ++ [fp], (s.mem p).size < nu.toNat) ∧
        mallocLoop nu pages k s prevp (s.mem prevp).ptr =
          if (coreUnits nu * 8).toBitVec.toInt ≤ 0 then some (s, .wild)
          else (s.morecore (coreUnits nu).toNat pages).bind fun r =>
            match r with
            | none => some (s, .null)
            | some t => t.freep.bind fun p =>
                mallocLoop nu pages (k - l.length - 1) t p (t.mem p).ptr) := by
  intro l
  induction l with
  | nil =>
    intro prevp k hprev hpath _ hall hk
    obtain ⟨k, rfl⟩ := Nat.exists_eq_add_of_lt hk
    have hp : (s.mem prevp).ptr = fp := hpath.1
    rw [show [].length + k + 1 = k + 1 by rw [List.length_nil, Nat.zero_add], mallocLoop]
    split
    next hsize => exact .inl ⟨prevp, hprev, hsize, rfl⟩
    next hsize =>
      right
      rw [hp] at hsize ⊢
      rw [if_pos hfp]
      exact ⟨List.forall_mem_singleton.mpr (Nat.lt_of_not_le hsize), rfl⟩
  | cons x l ih =>
    intro prevp k hprev hpath hnot hall hk
    obtain ⟨hp, hpath⟩ := hpath
    obtain ⟨k, rfl⟩ := Nat.exists_eq_add_of_lt hk
    rw [show (x :: l).length + k + 1 = (l.length + 1 + k) + 1 by rw [List.length_cons], mallocLoop]
    split
    next hsize => exact .inl ⟨prevp, hprev, hsize, rfl⟩
    next hsize =>
      rw [hp] at hsize ⊢
      have hne : ¬ s.freep = some x := by
        rw [hfp]
        exact fun he => hnot (Option.some.inj he ▸ List.mem_cons_self)
      rw [if_neg hne]
      rcases ih x (l.length + 1 + k) (hall x List.mem_cons_self) hpath
        (fun hmem => hnot (List.mem_cons_of_mem x hmem)) (fun p hp => hall p (List.mem_cons_of_mem x hp))
        (by omega) with hfound | ⟨hsmall, hloop⟩
      · exact .inl hfound
      · right
        refine ⟨List.forall_mem_cons.mpr ⟨Nat.lt_of_not_le hsize, hsmall⟩, ?_⟩
        rw [hloop, show (l.length + 1 + k) - l.length - 1 = (l.length + 1 + k + 1) - (x :: l).length - 1 by
          rw [List.length_cons]; omega]

/-- The same for the whole list. -/
theorem Inv.round (h : Inv s fl) {nu : UInt32} (hnu : 0 < nu.toNat) (pages : Bool) {fp k : Nat}
    (hfp : s.freep = some fp) (hk : fl.length < k) :
    (∃ t i fl', mallocLoop nu pages k s fp (s.mem fp).ptr = some (t, .block (i.1 + 1)) ∧ i.2 = nu.toNat ∧
      Inv t fl' ∧ t.live = i :: s.live ∧ t.got = s.got ∧ t.brk = s.brk ∧ Keeps s t) ∨
    ((∀ i ∈ fl, i.2 < nu.toNat) ∧
      mallocLoop nu pages k s fp (s.mem fp).ptr =
        if (coreUnits nu * 8).toBitVec.toInt ≤ 0 then some (s, .wild)
        else (s.morecore (coreUnits nu).toNat pages).bind fun r =>
          match r with
          | none => some (s, .null)
          | some t => t.freep.bind fun p =>
              mallocLoop nu pages (k - fl.length - 1) t p (t.mem p).ptr) := by
  obtain ⟨p, hp, hfp'⟩ := h.freep
  obtain rfl : p = fp := Option.some.inj (hfp'.symm.trans hfp)
  obtain ⟨a, b, hab⟩ := List.append_of_mem hp
  have hpath : Path (fun p => (s.mem p).ptr) base (nodes base fl) base := h.list.headers.path
  have hnodup : (nodes base fl).Nodup := h.list.sorted.imp fun hab => Nat.ne_of_lt hab
  have hlen : (nodes base fl).length = fl.length + 1 := by
    rw [List.length_map, List.length_cons]
  rw [hab] at hpath hnodup hlen
  have henter := hpath.enter.2
  have hlast : Path (fun p => (s.mem p).ptr) p [p] (s.mem p).ptr := ⟨rfl, rfl⟩
  have hnot : p ∉ b ++ a := by
    obtain ⟨-, hb, hdisj⟩ := List.nodup_append.mp hnodup
    intro hmem
    rcases List.mem_append.mp hmem with hmem | hmem
    · exact (List.nodup_cons.mp hb).1 hmem
    · exact hdisj p hmem p List.mem_cons_self rfl
  have hmem : ∀ w, w ∈ b ++ a ++ [p] ↔ w ∈ nodes base fl := by
    intro w
    rw [hab]
    simp only [List.mem_append, List.mem_cons, List.not_mem_nil, or_false]
    tauto
  have hlen' : (b ++ a).length = fl.length := by
    rw [List.length_append, List.length_cons] at hlen
    rw [List.length_append]
    omega
  rcases Heap.round nu pages hfp (b ++ a) p k hp (Path.append.mpr ⟨p, henter, hlast⟩) hnot
    (fun w hw => (hmem w).mp hw) (by rw [hlen']; exact hk) with ⟨w, hw, hsize, hloop⟩ | ⟨hsmall, hloop⟩
  · obtain ⟨t, i, fl', htake, hi, hrest⟩ := h.take hnu hw hsize
    exact .inl ⟨t, i, fl', hloop.trans (congrArg some htake), hi, hrest⟩
  · right
    rw [hlen'] at hloop
    refine ⟨fun i hi => ?_, hloop⟩
    have := hsmall i.1 ((hmem i.1).mpr (List.mem_cons_of_mem _ (List.mem_map_of_mem hi)))
    rwa [h.list.headers.sizes i (List.mem_cons_of_mem _ hi)] at this

/-! ## The number of units -/

theorem nunits_toNat {nbytes : UInt32} (h : nbytes.toNat < 2 ^ 32 - 7) :
    (nunits nbytes).toNat = (nbytes.toNat + 7) / 8 + 1 := by
  have hlt := nbytes.toNat_lt
  rw [nunits, UInt32.toNat_add, UInt32.toNat_div, UInt32.toNat_sub, UInt32.toNat_add]
  have h8 : (8 : UInt32).toNat = 8 := rfl
  have h1 : (1 : UInt32).toNat = 1 := rfl
  rw [h8, h1]
  omega

/-- From `2 ^ 32 - 7` bytes on, the number wraps around. -/
theorem nunits_wraps {nbytes : UInt32} (h : 2 ^ 32 - 7 ≤ nbytes.toNat) : (nunits nbytes).toNat = 1 := by
  have hlt := nbytes.toNat_lt
  rw [nunits, UInt32.toNat_add, UInt32.toNat_div, UInt32.toNat_sub, UInt32.toNat_add]
  have h8 : (8 : UInt32).toNat = 8 := rfl
  have h1 : (1 : UInt32).toNat = 1 := rfl
  rw [h8, h1]
  omega

theorem coreUnits_toNat (nu : UInt32) : (coreUnits nu).toNat = max 4096 nu.toNat := by
  rw [coreUnits]
  split
  next hlt =>
    have : nu.toNat < 4096 := UInt32.lt_iff_toNat_lt.mp hlt
    rw [Nat.max_eq_left (Nat.le_of_lt this)]
    rfl
  next hge =>
    have : ¬ nu.toNat < 4096 := fun hlt => hge (UInt32.lt_iff_toNat_lt.mpr hlt)
    rw [Nat.max_eq_right (Nat.le_of_not_lt this)]

/-- The argument of `sbrk` is positive for less than `KERNBASE` units. -/
theorem asks_iff {nu : UInt32} (h : nu.toNat ≤ 2 ^ 29) :
    (coreUnits nu * 8).toBitVec.toInt ≤ 0 ↔ KERNBASE ≤ nu.toNat := by
  have hmul : (coreUnits nu * 8).toBitVec.toNat = max 4096 nu.toNat * 8 % 2 ^ 32 := by
    show (coreUnits nu * 8).toNat = _
    rw [UInt32.toNat_mul, coreUnits_toNat]
    rfl
  rw [BitVec.toInt_eq_toNat_cond, hmul]
  show _ ↔ 2 ^ 28 ≤ nu.toNat
  split <;> omega

theorem nunits_pos (nbytes : UInt32) : 0 < (nunits nbytes).toNat := by
  rcases Nat.lt_or_ge nbytes.toNat (2 ^ 32 - 7) with h | h
  · rw [nunits_toNat h]
    omega
  · rw [nunits_wraps h]
    omega

/-! ## `malloc` -/

/-- `malloc` has given the block `i`. -/
structure Gives (s t : Heap base) (i : Interval) : Prop where
  ready : ∃ fl, Inv t fl
  live : t.live = i :: s.live
  keeps : Keeps s t
  brk : s.brk ≤ t.brk
  got : ∀ u, u ∈ units t.got ↔ u ∈ units s.got ∨ s.brk ≤ u ∧ u < t.brk

/-- What the loop of `malloc` comes to. -/
theorem Inv.malloc (h : Inv s fl) {nu : UInt32} (hnu : 0 < nu.toNat) (pages : Bool) {fp : Nat}
    (hfp : s.freep = some fp) :
    (∃ t i, mallocLoop nu pages (2 * KERNBASE) s fp (s.mem fp).ptr = some (t, .block (i.1 + 1)) ∧
      i.2 = nu.toNat ∧ Gives s t i) ∨
    (∀ i ∈ fl, i.2 < nu.toNat) ∧
      ((mallocLoop nu pages (2 * KERNBASE) s fp (s.mem fp).ptr = some (s, .wild) ∧
          (coreUnits nu * 8).toBitVec.toInt ≤ 0) ∨
        mallocLoop nu pages (2 * KERNBASE) s fp (s.mem fp).ptr = some (s, .null) ∧
          ¬ (coreUnits nu * 8).toBitVec.toInt ≤ 0 ∧ (pages = false ∨ KERNBASE ≤ s.brk + max 4096 nu.toNat)) := by
  have hlen := h.length_lt
  have hroom := h.room.2
  rcases h.round hnu pages hfp (k := 2 * KERNBASE) (by omega) with
    ⟨t, i, fl', hloop, hi, hinv, hlive, hgot, hbrk, hkeep⟩ | ⟨hsmall, hloop⟩
  · refine .inl ⟨t, i, hloop, hi, ⟨fl', hinv⟩, hlive, hkeep, Nat.le_of_eq hbrk.symm, fun u => ?_⟩
    rw [hgot, hbrk]
    exact ⟨.inl, fun hu => hu.elim id fun hu => absurd hu.2 (Nat.not_lt.mpr hu.1)⟩
  · rw [hloop]
    split
    next hask => exact .inr ⟨hsmall, .inl ⟨rfl, hask⟩⟩
    next hask =>
      rcases h.morecore (show 0 < (coreUnits nu).toNat by rw [coreUnits_toNat]; omega) pages with
        ⟨hmore, hwhy⟩ | ⟨m, fl', hmore, hinv, ⟨j, hj, hjsize⟩, hlive, hgot, hbrk, hkeep⟩
      · rw [hmore]
        rw [coreUnits_toNat] at hwhy
        exact .inr ⟨hsmall, .inr ⟨rfl, hask, hwhy⟩⟩
      · left
        obtain ⟨p, -, hp⟩ := hinv.freep
        have hlen' := hinv.length_lt
        have hroom' := hinv.room.2
        rw [hmore]
        dsimp only [Option.bind_some]
        rw [hp]
        dsimp only [Option.bind_some]
        rcases hinv.round hnu pages hp (k := 2 * KERNBASE - fl.length - 1) (by omega) with
          ⟨t, i, fl'', hloop', hi, hinv', hlive', hgot', hbrk', hkeep'⟩ | ⟨hsmall', -⟩
        · refine ⟨t, i, hloop', hi, ⟨fl'', hinv'⟩, by rw [hlive', hlive], fun j hj u h1 h2 => ?_,
            by omega, fun u => ?_⟩
          · rw [hkeep' j (hlive ▸ hj) u h1 h2]
            exact hkeep j hj u h1 h2
          · rw [hgot', hgot, hbrk', hbrk, mem_units_cons]
            exact or_comm
        · -- the memory that was asked for is in one block
          have hbig := hsmall' j hj
          rw [coreUnits_toNat] at hjsize
          omega

/-- Before the first call, or with the list of the free units. -/
def Ready (s : Heap base) : Prop :=
  (s.freep = none ∧ s.live = [] ∧ s.got = [] ∧ base < s.brk ∧ s.brk < KERNBASE) ∨ ∃ fl, Inv s fl

theorem Ready.init (h : Ready s) : ∃ fl, Inv s.init fl ∧ s.init.live = s.live ∧ s.init.got = s.got ∧
    s.init.brk = s.brk ∧ Keeps s s.init := by
  rcases h with ⟨hfreep, hlive, hgot, hroom⟩ | ⟨fl, h⟩
  · obtain ⟨mem, freep, brk, live, got⟩ := s
    obtain rfl : freep = none := hfreep
    obtain rfl : live = [] := hlive
    obtain rfl : got = [] := hgot
    have hbase : Function.update mem base ⟨base, 0⟩ base = ⟨base, 0⟩ := Function.update_self _ _ _
    have hnone : ∀ u, u ∉ units ([] : List Interval) := fun u hu => mem_units_nil.mp hu
    refine ⟨[], ⟨⟨Headers.cons hbase ⟨rfl, nofun⟩, ⟨nofun, List.Pairwise.nil⟩, nofun⟩,
      ⟨base, List.mem_cons_self, rfl⟩, nofun, nofun, List.Pairwise.nil, fun u hu => absurd hu (hnone u),
      fun u => or_self_iff, fun u hu => absurd hu (hnone u), hroom⟩, rfl, rfl, rfl, nofun⟩
  · obtain ⟨p, -, hfreep⟩ := h.freep
    have hinit : s.init = s := by
      rw [Heap.init, hfreep]
    rw [hinit]
    exact ⟨fl, h, rfl, rfl, rfl, fun i _ u _ _ => rfl⟩

/-- A right answer to `malloc(nbytes)`: a block with room for `nbytes`, apart from the others and
below the break; or 0, when no free block is large enough and the kernel has not the memory.
The blocks of the program are as before. -/
def Serves (s : Heap base) (nbytes : UInt32) (pages : Bool) : Prop :=
  ∃ t fl r, s.malloc nbytes pages = some (t, r) ∧ Inv t fl ∧ Keeps s t ∧
    ((∃ i, r = .block (i.1 + 1) ∧ t.live = i :: s.live ∧ nbytes.toNat ≤ 8 * (i.2 - 1)) ∨
      (r = .null ∧ t.live = s.live ∧ (∀ i ∈ fl, 8 * (i.2 - 1) < nbytes.toNat) ∧
        (pages = false ∨ KERNBASE ≤ s.brk + max 4096 (nunits nbytes).toNat)))

/-- Less than `KERNBASE` units. -/
def Small (nbytes : UInt32) : Prop := nbytes.toNat < 2 ^ 31 - 15

instance (nbytes : UInt32) : Decidable (Small nbytes) := inferInstanceAs (Decidable (_ < _))

theorem Small.units {nbytes : UInt32} (h : Small nbytes) :
    (nunits nbytes).toNat = (nbytes.toNat + 7) / 8 + 1 ∧ (nunits nbytes).toNat < KERNBASE := by
  rw [Small] at h
  have hn := nunits_toNat (show nbytes.toNat < 2 ^ 32 - 7 by omega)
  refine ⟨hn, ?_⟩
  show _ < 2 ^ 28
  omega

theorem Ready.serves (h : Ready s) {nbytes : UInt32} (hsmall : Small nbytes) (pages : Bool) :
    Serves s nbytes pages := by
  obtain ⟨fl, hinv, hlive, -, hbrk, hkeep⟩ := h.init
  obtain ⟨hunits, hlt⟩ := hsmall.units
  obtain ⟨fp, -, hfp⟩ := hinv.freep
  have hmalloc : s.malloc nbytes pages =
      mallocLoop (nunits nbytes) pages (2 * KERNBASE) s.init fp (s.init.mem fp).ptr := by
    rw [Heap.malloc, hfp, Option.bind_some]
  rcases hinv.malloc (nunits_pos nbytes) pages hfp with
    ⟨t, i, hloop, hi, ⟨fl', hinv'⟩, hlive', hkeep', -, -⟩ | ⟨hno, ⟨-, hask⟩ | ⟨hloop, -, hwhy⟩⟩
  · refine ⟨t, fl', _, hmalloc.trans hloop, hinv', fun j hj u h1 h2 => ?_, .inl ⟨i, rfl, ?_, ?_⟩⟩
    · rw [hkeep' j (hlive ▸ hj) u h1 h2]
      exact hkeep j hj u h1 h2
    · rw [hlive', hlive]
    · rw [hi, hunits]
      omega
  · have hlt' : _ < 2 ^ 28 := hlt
    exact absurd ((asks_iff (by omega)).mp hask) (Nat.not_le.mpr hlt)
  · refine ⟨s.init, fl, .null, hmalloc.trans hloop, hinv, hkeep, .inr ⟨rfl, hlive, fun i hi => ?_, hbrk ▸ hwhy⟩⟩
    have hsmall := hno i hi
    have hpos := hinv.list.apart.pos i hi
    omega

theorem Ready.boot {mem : Nat → Header} {brk : Nat} (h : base < brk ∧ brk < KERNBASE) :
    Ready (boot mem brk : Heap base) :=
  .inl ⟨rfl, rfl, rfl, h⟩

/-- What a program before its first call gets for more: the number of units wraps around, or the
argument of `sbrk` is not positive. -/
theorem serves_boot (mem : Nat → Header) {nbytes : UInt32} (h : Serves (Heap.boot mem 1 : Heap 0) nbytes true) :
    Small nbytes := by
  have hboot : Ready (Heap.boot mem 1 : Heap 0) := Ready.boot (by decide)
  obtain ⟨fl, hinv, hlive, -, hbrk, -⟩ := Ready.init hboot
  obtain ⟨fp, -, hfp⟩ := hinv.freep
  obtain ⟨t, fl', r, hmalloc, -, -, hr⟩ := h
  rw [Heap.malloc, hfp, Option.bind_some] at hmalloc
  by_contra hlarge
  rw [Small, Nat.not_lt] at hlarge
  have hlt := nbytes.toNat_lt
  rcases hinv.malloc (nunits_pos nbytes) true hfp with
    ⟨t', i, hloop, hi, hgives⟩ | ⟨-, ⟨hloop, -⟩ | ⟨hloop, hask, hwhy⟩⟩
  · -- a block of one unit has no room
    cases hmalloc.symm.trans hloop
    rcases hr with ⟨j, hj, hlive', hroom⟩ | ⟨hnull, -⟩
    · obtain rfl : i = j := by
        have hlists := hgives.live.symm.trans hlive'
        rw [hlive] at hlists
        exact (List.cons.inj hlists).1
      obtain ⟨fl'', hinv'⟩ := hgives.ready
      have hmem : i ∈ t.live := hlive' ▸ List.mem_cons_self
      have hpos := hinv'.pos i hmem
      have hin : i.1 ≤ i.1 + i.2 - 1 ∧ i.1 + i.2 - 1 < i.1 + i.2 := by omega
      have hlast := (hinv'.live_inside ⟨i, hmem, hin⟩).2
      have hbreak : t.brk < 2 ^ 28 := hinv'.room.2
      rcases Nat.lt_or_ge nbytes.toNat (2 ^ 32 - 7) with hfits | hwraps
      · rw [nunits_toNat hfits] at hi
        omega
      · rw [nunits_wraps hwraps] at hi
        omega
    · cases hnull
  · cases hmalloc.symm.trans hloop
    rcases hr with ⟨j, hj, -⟩ | ⟨hnull, -⟩
    · cases hj
    · cases hnull
  · rcases Nat.lt_or_ge nbytes.toNat (2 ^ 32 - 7) with hfits | hwraps
    · have hunits := nunits_toNat hfits
      rw [asks_iff (by omega)] at hask
      have hask' : ¬ 2 ^ 28 ≤ _ := hask
      omega
    · rw [nunits_wraps hwraps, hbrk] at hwhy
      rcases hwhy with hp | hroom
      · cases hp
      · exact absurd hroom (show ¬ 2 ^ 28 ≤ 1 + max 4096 1 by decide)

/-! ## Runs -/

/-- No call asks for more than `malloc` can serve. -/
def Modest : HeapAct → Prop
  | .malloc nbytes _ => Small nbytes
  | .free _ | .write _ _ | .sbrk _ => True

instance : DecidablePred Modest
  | .malloc nbytes _ => inferInstanceAs (Decidable (Small nbytes))
  | .free _ | .write _ _ | .sbrk _ => .isTrue trivial

/-- The memory that `sbrk` has given is all that is behind the first break. -/
def Solid (start : Nat) (s : Heap base) : Prop :=
  start ≤ s.brk ∧ ∀ u, u ∈ units s.got ↔ start ≤ u ∧ u < s.brk

theorem Gives.solid {t : Heap base} {i : Interval} {start : Nat} (h : Gives s t i) (hs : Solid start s) :
    Solid start t := by
  have hbrk := h.brk
  have hstart := hs.1
  refine ⟨by omega, fun u => ?_⟩
  rw [h.got, hs.2]
  omega

/-- Two blocks of the program are apart. -/
theorem Inv.order (h : Inv s fl) {i j : Interval} (hi : i ∈ s.live) (hj : j ∈ s.live) :
    i = j ∨ stop i ≤ j.1 ∨ stop j ≤ i.1 := by
  obtain ⟨a, b, hab⟩ := List.append_of_mem hi
  have hap := h.apart
  rw [hab] at hap hj
  obtain ⟨-, hafter, hcross⟩ := List.pairwise_append.mp hap
  rcases List.mem_append.mp hj with hj | hj
  · exact .inr (hcross j hj i List.mem_cons_self).symm
  · rcases List.mem_cons.mp hj with rfl | hj
    · exact .inl rfl
    · exact .inr ((List.pairwise_cons.mp hafter).1 j hj)

theorem Inv.blockAt (h : Inv s fl) {i : Interval} (hi : i ∈ s.live) : s.blockAt i.1 = some i := by
  cases hblock : s.blockAt i.1 with
  | none =>
    have hno := List.find?_eq_none.mp hblock i hi
    exact absurd (decide_eq_true rfl) hno
  | some j =>
    have hj : j ∈ s.live := List.mem_of_find?_eq_some hblock
    have heq : j.1 = i.1 :=
      of_decide_eq_true (List.find?_some (p := fun j : Interval => decide (j.1 = i.1)) hblock)
    have hposi := h.pos i hi
    have hposj := h.pos j hj
    rcases h.order hi hj with rfl | hap | hap
    · rfl
    · dsimp only [stop] at hap
      omega
    · dsimp only [stop] at hap
      omega

theorem Inv.write (h : Inv s fl) {i : Interval} {u : Nat} (x : Header) (hi : i ∈ s.live) (hlow : i.1 < u)
    (hup : u < stop i) : Inv ({ s with mem := Function.update s.mem u x } : Heap base) fl := by
  have hu : u ∈ units s.live := ⟨i, hi, Nat.le_of_lt hlow, hup⟩
  have hnode : ∀ j ∈ (base, 0) :: fl, Function.update s.mem u x j.1 = s.mem j.1 := by
    intro j hj
    apply Function.update_of_ne
    rintro rfl
    exact h.not_node hu (List.mem_map_of_mem hj)
  refine { h with list := ⟨h.list.headers.congr hnode, h.list.apart, h.list.above⟩, sizes := fun j hj => ?_ }
  have hne : j.1 ≠ u := by
    rintro rfl
    have hpos := h.pos j hj
    rcases h.order hi hj with rfl | hap | hap
    · exact Nat.lt_irrefl _ hlow
    · dsimp only [stop] at hap hup
      omega
    · dsimp only [stop] at hap
      omega
  dsimp only
  rw [Function.update_of_ne hne]
  exact h.sizes j hj

theorem Ready.step {t : Heap base} {a : HeapAct} (h : Ready s) (ha : Modest a) (hs : step s a = some t) :
    Ready t ∧ ∀ start, (∀ n, a ≠ .sbrk n) → Solid start s → Solid start t := by
  cases a with
  | malloc nbytes pages =>
    obtain ⟨⟨t', r⟩, hmalloc, rfl⟩ := Option.map_eq_some_iff.mp hs
    obtain ⟨fl, hinv, hlive, hgot, hbrk, -⟩ := h.init
    obtain ⟨fp, -, hfp⟩ := hinv.freep
    rw [Heap.malloc, hfp, Option.bind_some] at hmalloc
    have hinit : ∀ start, Solid start s → Solid start s.init := fun start hs => by
      rw [Solid, hgot, hbrk]
      exact hs
    rcases hinv.malloc (nunits_pos nbytes) pages hfp with
      ⟨t, i, hloop, -, hgives⟩ | ⟨-, ⟨hloop, -⟩ | ⟨hloop, -⟩⟩
    · cases hmalloc.symm.trans hloop
      exact ⟨.inr hgives.ready, fun start _ hs => hgives.solid (hinit start hs)⟩
    · cases hmalloc.symm.trans hloop
      exact ⟨.inr ⟨fl, hinv⟩, fun start _ hs => hinit start hs⟩
    · cases hmalloc.symm.trans hloop
      exact ⟨.inr ⟨fl, hinv⟩, fun start _ hs => hinit start hs⟩
  | free p =>
    rw [Heap.step] at hs
    cases hblock : s.blockAt (p - 1) with
    | none =>
      rw [hblock] at hs
      cases hs
    | some i =>
      rw [hblock] at hs
      have hi : i ∈ s.live := List.mem_of_find?_eq_some hblock
      have hp : i.1 = p - 1 :=
        of_decide_eq_true (List.find?_some (p := fun j : Interval => decide (j.1 = p - 1)) hblock)
      rcases h with ⟨-, hlive, -⟩ | ⟨fl, hinv⟩
      · rw [hlive] at hi
        cases hi
      · obtain ⟨t', fl', hfree, hinv', -, hgot, hbrk, -⟩ := (hinv.perm (List.perm_cons_erase hi)).free rfl
        rw [hp] at hfree
        cases hs.symm.trans hfree
        refine ⟨.inr ⟨fl', hinv'⟩, fun start _ hs => ?_⟩
        rw [Solid, hgot, hbrk]
        exact hs
  | write u x =>
    obtain ⟨⟨i, hi, hlow, hup⟩, hs⟩ := Option.ite_none_right_eq_some.mp hs
    obtain rfl := Option.some.inj hs
    rcases h with ⟨-, hlive, -⟩ | ⟨fl, hinv⟩
    · rw [hlive] at hi
      cases hi
    · exact ⟨.inr ⟨fl, hinv.write x hi hlow hup⟩, fun start _ hs => hs⟩
  | sbrk n =>
    obtain ⟨hroom, hs⟩ := Option.ite_none_right_eq_some.mp hs
    obtain rfl := Option.some.inj hs
    refine ⟨?_, fun start hno _ => absurd rfl (hno n)⟩
    rcases h with ⟨hfreep, hlive, hgot, hbase, -⟩ | ⟨fl, hinv⟩
    · exact .inl ⟨hfreep, hlive, hgot, Nat.lt_add_right n hbase, hroom⟩
    · refine .inr ⟨fl, { hinv with inside := fun u hu => ?_, room := ⟨Nat.lt_add_right n hinv.room.1, hroom⟩ }⟩
      exact ⟨(hinv.inside u hu).1, Nat.lt_add_right n (hinv.inside u hu).2⟩

theorem ready_run {mem : Nat → Header} {brk : Nat} (hb : base < brk ∧ brk < KERNBASE) {as : List HeapAct}
    (ha : ∀ a ∈ as, Modest a) (hr : Lib.run step (boot mem brk) as = some s) : Ready s := by
  refine Lib.run_inv (fun t a t' h ha hs => (h.step ha hs).1) as (boot mem brk) s (Ready.boot hb) ?_ hr
  exact Lib.meets_of_forall as _ ha

/-- After any calls the free list is in order, and what is not free is in the blocks of the
program; and each of them can be given back, whatever the program has written to them, with the
others as before. -/
theorem heap_sound (mem : Nat → Header) (brk : Nat) (as : List HeapAct) (s : Heap base)
    (hb : base < brk ∧ brk < KERNBASE) (ha : ∀ a ∈ as, Modest a)
    (hr : Lib.run step (boot mem brk) as = some s) :
    Ready s ∧ ∀ i ∈ s.live, ∃ t, step s (.free (i.1 + 1)) = some t ∧ t.live = s.live.erase i ∧
      Keeps { s with live := s.live.erase i } t := by
  have hready := ready_run hb ha hr
  refine ⟨hready, fun i hi => ?_⟩
  rcases hready with ⟨-, hlive, -⟩ | ⟨fl, hinv⟩
  · rw [hlive] at hi
    cases hi
  · obtain ⟨t, fl', hfree, -, hlive, -, -, -, hkeep⟩ := (hinv.perm (List.perm_cons_erase hi)).free rfl
    refine ⟨t, ?_, hlive, hkeep⟩
    rw [step, Nat.add_sub_cancel, hinv.blockAt hi]
    exact hfree

/-- Two blocks, of which the first one is written, and both are given back. -/
def takeAndFree : List HeapAct :=
  [.malloc 100 true, .malloc 5 true, .write 4085 ⟨7, 7⟩, .free 4084, .free 4082]

theorem heap_sound_takeAndFree : ∃ s : Heap 0,
    Lib.run step (boot (fun _ => ⟨0, 0⟩) 1) (takeAndFree.take 3) = some s ∧ s.live = [(4081, 2), (4083, 14)] ∧
    Ready s ∧ ∃ t, step s (.free 4084) = some t ∧ t.live = [(4081, 2)] := by
  have hrun : ∃ s : Heap 0, Lib.run step (boot (fun _ => ⟨0, 0⟩) 1) (takeAndFree.take 3) = some s ∧
      s.live = [(4081, 2), (4083, 14)] := ⟨_, rfl, rfl⟩
  obtain ⟨s, hr, hlive⟩ := hrun
  obtain ⟨hready, hfree⟩ :=
    heap_sound (fun _ => ⟨0, 0⟩) 1 (takeAndFree.take 3) s (by decide) (by decide) hr
  obtain ⟨t, ht, htlive, -⟩ := hfree (4083, 14) (by rw [hlive]; decide)
  refine ⟨s, hr, hlive, hready, t, ht, ?_⟩
  rw [htlive, hlive]
  rfl

/-- From `2 ^ 31 - 15` bytes on the number of units wraps around, or else the argument of `sbrk`
is not positive. -/
theorem large_units {nbytes : UInt32} (h : 2 ^ 31 - 15 ≤ nbytes.toNat) :
    (nunits nbytes).toNat = 1 ∨ (coreUnits (nunits nbytes) * 8).toBitVec.toInt ≤ 0 := by
  rcases Nat.lt_or_ge nbytes.toNat (2 ^ 32 - 7) with hfits | hwraps
  · have hunits := nunits_toNat hfits
    have hlarge : 2 ^ 28 ≤ (nunits nbytes).toNat := by omega
    exact .inr ((asks_iff (by omega)).mpr hlarge)
  · exact .inl (nunits_wraps hwraps)

/-- `malloc` serves a program in every state it can come to, exactly when it asks for less than
`2 ^ 31 - 15` bytes. -/
theorem malloc_good_iff (nbytes : UInt32) :
    ((∀ (base brk : Nat) (mem : Nat → Header) (as : List HeapAct) (s : Heap base) (pages : Bool),
      base < brk ∧ brk < KERNBASE → (∀ a ∈ as, Modest a) → Lib.run step (boot mem brk) as = some s →
      Serves s nbytes pages) ↔ nbytes.toNat < 2 ^ 31 - 15) ∧
    (2 ^ 31 - 15 ≤ nbytes.toNat →
      (nunits nbytes).toNat = 1 ∨ (coreUnits (nunits nbytes) * 8).toBitVec.toInt ≤ 0) := by
  refine ⟨⟨fun h => ?_, fun h base brk mem as s pages hb ha hr => ?_⟩, large_units⟩
  · exact serves_boot (fun _ => ⟨0, 0⟩) (h 0 1 _ [] _ true (by decide) nofun rfl)
  · exact (ready_run hb ha hr).serves h pages

/-- When the program has given back all its blocks and nobody else has moved the break, all memory
is one free block. -/
theorem all_free (mem : Nat → Header) (brk : Nat) (as : List HeapAct) (s : Heap base)
    (hb : base < brk ∧ brk < KERNBASE) (ha : ∀ a ∈ as, Modest a) (hno : ∀ n, .sbrk n ∉ as)
    (hr : Lib.run step (boot mem brk) as = some s) (hlive : s.live = []) (hgrown : brk < s.brk) :
    FreeList base s.mem [(brk, s.brk - brk)] := by
  have hrun : Ready s ∧ Solid brk s := by
    have hmeets : Lib.Meets step (fun _ a => Modest a ∧ ∀ n, a ≠ .sbrk n) (boot mem brk : Heap base) as :=
      Lib.meets_of_forall as _ fun a hmem => ⟨ha a hmem, fun n he => hno n (he ▸ hmem)⟩
    refine Lib.run_inv (I := fun s : Heap base => Ready s ∧ Solid brk s)
      (fun t a t' h ha hs => ?_) as (boot mem brk) s ⟨Ready.boot hb, Nat.le_refl _, fun u => ?_⟩ hmeets hr
    · obtain ⟨hready, hsolid⟩ := h.1.step ha.1 hs
      exact ⟨hready, hsolid brk ha.2 h.2⟩
    · refine iff_of_false mem_units_nil.mp fun hu => ?_
      exact Nat.lt_irrefl _ (Nat.lt_of_le_of_lt hu.1 hu.2)
  obtain ⟨hready, -, hsolid⟩ := hrun
  rcases hready with ⟨-, -, hgot, -⟩ | ⟨fl, hinv⟩
  · have hin := (hsolid brk).mpr ⟨Nat.le_refl _, hgrown⟩
    rw [hgot] at hin
    exact (mem_units_nil.mp hin).elim
  · have hunits : ∀ u, u ∈ units fl ↔ brk ≤ u ∧ u < s.brk := by
      intro u
      rw [← hsolid, ← hinv.cover, hlive]
      exact ⟨.inl, fun hu => hu.elim id fun hu => (mem_units_nil.mp hu).elim⟩
    rw [← hinv.list.apart.eq_singleton hgrown hunits]
    exact hinv.list

theorem all_free_takeAndFree : ∃ s : Heap 0,
    Lib.run step (boot (fun _ => ⟨0, 0⟩) 1) takeAndFree = some s ∧ FreeList 0 s.mem [(1, 4096)] := by
  have hrun : ∃ s : Heap 0, Lib.run step (boot (fun _ => ⟨0, 0⟩) 1) takeAndFree = some s ∧
      s.live = [] ∧ s.brk = 4097 := ⟨_, rfl, rfl, rfl⟩
  obtain ⟨s, hr, hlive, hbrk⟩ := hrun
  have hno : ∀ n, HeapAct.sbrk n ∉ takeAndFree := by
    intro n h
    simp [takeAndFree] at h
  have hfree := all_free (fun _ => ⟨0, 0⟩) 1 takeAndFree s (by decide) (by decide) hno hr hlive (by omega)
  rw [hbrk] at hfree
  exact ⟨s, hr, hfree⟩

end Heap

end Xv6.User
