import Xv6.Fs.Bio
import Xv6.Lib.Hoare

/- The buffer cache as the rest of the file system sees it. `view` is the logical
   contents of a block: its buffer's data if it is cached, else the disk's. A state
   is `Coherent` if no block has two buffers, every assigned buffer is valid, a
   buffer is referred to exactly while it is locked, and a clean buffer holds what
   the disk holds.

   Each operation has one lemma, which says what it does to `view`, to the sets of
   locked and of dirty blocks and to the disk. Behind these lemmas the list of
   buffers does not matter any more. -/
namespace Xv6.Fs

open Lib (wp)
open Lib.RedoLog (upd)

namespace Store

def view (s : Store) (b : Nat) : Block :=
  match s.find b with
  | some x => x.data
  | none => s.disk b

def lockedSet (s : Store) : Set Nat := { b | ∃ x, s.find b = some x ∧ x.locked = true }

def dirtySet (s : Store) : Set Nat := { b | ∃ x, s.find b = some x ∧ x.dirty = true }

end Store

structure Coherent (s : Store) : Prop where
  keys : (s.bufs.filterMap (·.blockno)).Nodup
  len : s.bufs.length = NBUF
  valid : ∀ b x, s.find b = some x → x.valid = true
  ref : ∀ x ∈ s.bufs, x.refcnt = if x.locked then 1 else 0
  assigned : ∀ x ∈ s.bufs, x.blockno = none → x.locked = false ∧ x.dirty = false
  clean : ∀ b x, s.find b = some x → x.dirty = false → x.data = s.disk b

/-! ## Buffers in a list -/

section Bufs

variable {s : Store} {b c : Nat} {x : Buf}

theorem Store.find_mem (h : s.find b = some x) : x ∈ s.bufs ∧ x.blockno = some b :=
  ⟨List.mem_of_find?_eq_some h, by simpa using List.find?_some h⟩

/-- In a list without two buffers for one block, a buffer is found under its
block number. -/
theorem find_of_mem : ∀ {l : List Buf}, (l.filterMap (·.blockno)).Nodup → x ∈ l →
    x.blockno = some b → l.find? (fun y => y.blockno = some b) = some x := by
  intro l
  induction l with
  | nil => intro _ h; simp at h
  | cons y l ih =>
    intro hk hx hb
    by_cases hy : y.blockno = some b
    · rw [List.find?_cons_of_pos (by simpa using hy)]
      rcases List.mem_cons.mp hx with rfl | hx
      · rfl
      · -- a second buffer for `b` would repeat the key
        rw [List.filterMap_cons_some hy, List.nodup_cons] at hk
        exact absurd (List.mem_filterMap.mpr ⟨x, hx, hb⟩) hk.1
    · rw [List.find?_cons_of_neg (by simpa using hy)]
      refine ih ?_ ?_ hb
      · cases hyb : y.blockno with
        | none => rwa [List.filterMap_cons_none hyb] at hk
        | some d =>
          rw [List.filterMap_cons_some hyb, List.nodup_cons] at hk
          exact hk.2
      · rcases List.mem_cons.mp hx with rfl | hx
        · exact absurd hb hy
        · exact hx

theorem Coherent.find (h : Coherent s) (hx : x ∈ s.bufs) (hb : x.blockno = some b) :
    s.find b = some x := find_of_mem h.keys hx hb

/-- A write to the buffer of `b` is found there, and nowhere else. -/
theorem Store.find_modBuf {f : Buf → Buf} (hf : ∀ x, (f x).blockno = x.blockno) (c : Nat) :
    (s.modBuf b f).find c = if c = b then (s.find b).map f else s.find c := by
  unfold Store.find Store.modBuf
  rw [List.find?_map]
  have hp : ((fun y : Buf => decide (y.blockno = some c)) ∘
      fun x => if x.blockno = some b then f x else x) = fun y => decide (y.blockno = some c) := by
    funext y
    simp only [Function.comp_apply]
    split <;> simp [hf]
  rw [hp]
  by_cases hc : c = b
  · subst hc
    rw [if_pos rfl]
    cases hy : s.bufs.find? (fun y => y.blockno = some c) with
    | none => rfl
    | some y =>
      have hyb : y.blockno = some c := by simpa using List.find?_some hy
      simp [hyb]
  · rw [if_neg hc]
    cases hy : s.bufs.find? (fun y => y.blockno = some c) with
    | none => rfl
    | some y =>
      have hyb : y.blockno = some c := by simpa using List.find?_some hy
      simp [hyb, hc]

theorem Store.keys_modBuf {f : Buf → Buf} (hf : ∀ x, (f x).blockno = x.blockno) :
    (s.modBuf b f).bufs.filterMap (·.blockno) = s.bufs.filterMap (·.blockno) := by
  simp only [Store.modBuf, List.filterMap_map]
  congr 1
  funext y
  simp only [Function.comp_apply]
  split <;> simp [hf]

theorem Buf.lock_blockno (x : Buf) : x.lock.blockno = x.blockno := rfl

theorem Buf.unlock_blockno (x : Buf) : x.unlock.blockno = x.blockno := rfl

theorem Buf.fill_blockno (d : Block) (x : Buf) : (x.fill d).blockno = x.blockno := rfl

theorem Buf.put_blockno (d : Block) (x : Buf) : (x.put d).blockno = x.blockno := rfl

theorem Buf.log_blockno (d : Block) (x : Buf) : (x.log d).blockno = x.blockno := rfl

/-- Without its one buffer for `b` the list is shorter by one. -/
theorem length_filter_key : ∀ {l : List Buf}, (l.filterMap (·.blockno)).Nodup → x ∈ l →
    x.blockno = some b → (l.filter (fun y => y.blockno ≠ some b)).length + 1 = l.length := by
  intro l
  induction l with
  | nil => intro _ h; simp at h
  | cons y l ih =>
    intro hk hx hb
    by_cases hy : y.blockno = some b
    · rw [List.filterMap_cons_some hy, List.nodup_cons] at hk
      have hall : l.filter (fun y => y.blockno ≠ some b) = l := by
        refine List.filter_eq_self.mpr (fun z hz => ?_)
        simpa using fun hzb => hk.1 (List.mem_filterMap.mpr ⟨z, hz, hzb⟩)
      rw [List.filter_cons_of_neg (by simpa using hy), hall, List.length_cons]
    · have hk' : (l.filterMap (·.blockno)).Nodup := by
        refine hk.sublist ?_
        exact (List.sublist_cons_self y l).filterMap _
      have hx' : x ∈ l := by
        rcases List.mem_cons.mp hx with rfl | hx
        · exact absurd hb hy
        · exact hx
      rw [List.filter_cons_of_pos (by simpa using hy), List.length_cons, List.length_cons,
        ih hk' hx' hb]

/-- What `recycle` does to the list. -/
theorem recycle_eq : ∀ {l l' : List Buf}, recycle b l = some l' →
    ∃ l₁ x l₂, l = l₁ ++ x :: l₂ ∧ x.free = true ∧
      l' = l₁ ++ x.assign b :: l₂ := by
  intro l
  induction l with
  | nil => intro l' h; simp [recycle] at h
  | cons x l ih =>
    intro l' h
    simp only [recycle] at h
    split at h
    · rename_i ys hys
      cases h
      obtain ⟨l₁, y, l₂, rfl, hy, rfl⟩ := ih hys
      exact ⟨x :: l₁, y, l₂, rfl, hy, rfl⟩
    · split_ifs at h with hx
      cases h
      exact ⟨[], x, l, rfl, hx, rfl⟩

theorem recycle_none : ∀ {l : List Buf}, recycle b l = none → l.countP Buf.free = 0 := by
  intro l
  induction l with
  | nil => intro _; rfl
  | cons x l ih =>
    intro h
    simp only [recycle] at h
    split at h
    · cases h
    · rename_i hl
      split_ifs at h with hx
      rw [List.countP_cons_of_neg (by simpa using hx)]
      exact ih hl

theorem avail_of_recycle (h : recycle b s.bufs = none) : s.avail = 0 := recycle_none h

/-- The buffers that cannot be recycled are those of the locked and of the dirty
blocks. -/
theorem Coherent.le_avail (h : Coherent s) {L : List Nat}
    (hl : ∀ b ∈ s.lockedSet, b ∈ L) (hd : ∀ b ∈ s.dirtySet, b ∈ L) :
    NBUF ≤ s.avail + L.length := by
  have hcount : s.bufs.length = s.avail + s.bufs.countP (fun x => ¬ x.free) := by
    rw [Store.avail, List.length_eq_countP_add_countP Buf.free]
  have hkeys : ((s.bufs.filter (fun x => ¬ x.free)).filterMap (·.blockno)).length =
      s.bufs.countP (fun x => ¬ x.free) := by
    rw [List.countP_eq_length_filter]
    refine List.filterMap_length_eq_length.mpr (fun x hx => ?_)
    obtain ⟨hx, hf⟩ := List.mem_filter.mp hx
    cases hxb : x.blockno with
    | some c => rfl
    | none =>
      obtain ⟨h1, h2⟩ := h.assigned x hx hxb
      have h3 := h.ref x hx
      simp [Buf.free, h1, h2, h3] at hf
  have hsub : ((s.bufs.filter (fun x => ¬ x.free)).filterMap (·.blockno)) ⊆ L := by
    intro c hc
    obtain ⟨x, hx, hxc⟩ := List.mem_filterMap.mp hc
    obtain ⟨hx, hf⟩ := List.mem_filter.mp hx
    have hfind := h.find hx hxc
    by_cases hxd : x.dirty = true
    · exact hd c ⟨x, hfind, hxd⟩
    · refine hl c ⟨x, hfind, ?_⟩
      have h3 := h.ref x hx
      cases hxl : x.locked with
      | true => rfl
      | false => simp [Buf.free, hxl, hxd, h3] at hf
  have hnd : ((s.bufs.filter (fun x => ¬ x.free)).filterMap (·.blockno)).Nodup :=
    h.keys.sublist (List.filter_sublist.filterMap _)
  have hle := (List.subperm_of_subset hnd hsub).length_le
  have hlen := h.len
  omega

end Bufs

/-! ## Operations on a coherent cache -/

section Ops

variable {s s' : Store} {b c : Nat} {x : Buf} {d : Block}

theorem Store.view_of_find (h : s.find b = some x) : s.view b = x.data := by
  simp [Store.view, h]

theorem Store.view_of_none (h : s.find b = none) : s.view b = s.disk b := by
  simp [Store.view, h]

theorem Store.mem_lockedSet (h : s.find b = some x) : b ∈ s.lockedSet ↔ x.locked = true := by
  simp [Store.lockedSet, h]

theorem Store.mem_dirtySet (h : s.find b = some x) : b ∈ s.dirtySet ↔ x.dirty = true := by
  simp [Store.dirtySet, h]

/-- A block that is not dirty has its disk contents. -/
theorem Coherent.view_clean (h : Coherent s) (hb : b ∉ s.dirtySet) : s.view b = s.disk b := by
  cases hf : s.find b with
  | none => exact Store.view_of_none hf
  | some x =>
    rw [Store.view_of_find hf]
    refine h.clean b x hf ?_
    rw [Store.mem_dirtySet hf] at hb
    simpa using hb

/-- Coherence is about the buffers and the disk. -/
theorem Coherent.congr (h : Coherent s) {s' : Store} (hb : s'.bufs = s.bufs) (hd : s'.disk = s.disk) :
    Coherent s' := by
  have hf : ∀ b, s'.find b = s.find b := fun b => by simp only [Store.find, hb]
  constructor
  · rw [hb]; exact h.keys
  · rw [hb]; exact h.len
  · intro b x hx
    rw [hf] at hx
    exact h.valid b x hx
  · rw [hb]; exact h.ref
  · rw [hb]; exact h.assigned
  · intro b x hx
    rw [hf] at hx
    rw [hd]
    exact h.clean b x hx

/-- The buffers of `s'` are those of `s`, with `f` applied to the buffer `x` of
`b`, and the disk differs in `b` at most. -/
structure Changed (s : Store) (b : Nat) (x : Buf) (f : Buf → Buf) (s' : Store) : Prop where
  key : ∀ x, (f x).blockno = x.blockno
  find : s.find b = some x
  bufs : s'.bufs = (s.modBuf b f).bufs
  disk : ∀ c, c ≠ b → s'.disk c = s.disk c

section Changed

variable {f : Buf → Buf} (hch : Changed s b x f s')
include hch

theorem Changed.find_eq (c : Nat) : s'.find c = if c = b then some (f x) else s.find c := by
  have h : s'.find c = (s.modBuf b f).find c := by
    simp only [Store.find, hch.bufs]
  rw [h, Store.find_modBuf hch.key, hch.find]
  rfl

/-- The change keeps the buffer valid, its references in step with its lock, and
its data, if it is clean, in step with the disk. -/
theorem Changed.coherent (h : Coherent s) (hv : (f x).valid = true)
    (hr : (f x).refcnt = if (f x).locked then 1 else 0)
    (hc : (f x).dirty = false → (f x).data = s'.disk b) : Coherent s' := by
  have hb := (Store.find_mem hch.find).2
  have hmem : ∀ y ∈ s'.bufs, y = f x ∨ y ∈ s.bufs := by
    intro y hy
    rw [hch.bufs] at hy
    simp only [Store.modBuf, List.mem_map] at hy
    obtain ⟨z, hz, rfl⟩ := hy
    split
    · rename_i hzb
      have hzf := h.find hz hzb
      rw [hch.find, Option.some.injEq] at hzf
      exact .inl (by rw [hzf])
    · exact .inr hz
  constructor
  · rw [hch.bufs, Store.keys_modBuf hch.key]; exact h.keys
  · rw [hch.bufs]; simp [Store.modBuf, h.len]
  · intro c y hy
    rw [hch.find_eq] at hy
    split_ifs at hy with hcb
    · cases hy; exact hv
    · exact h.valid c y hy
  · intro y hy
    rcases hmem y hy with rfl | hy
    · exact hr
    · exact h.ref y hy
  · intro y hy hn
    rcases hmem y hy with rfl | hy
    · rw [hch.key, hb] at hn
      cases hn
    · exact h.assigned y hy hn
  · intro c y hy hd
    rw [hch.find_eq] at hy
    split_ifs at hy with hcb
    · cases hy; rw [hcb]; exact hc hd
    · rw [hch.disk c hcb]; exact h.clean c y hy hd

theorem Changed.view_eq : s'.view = upd s.view b (f x).data := by
  funext c
  by_cases hc : c = b
  · subst hc
    rw [Store.view_of_find (hch.find_eq c ▸ if_pos rfl)]
    simp [upd]
  · simp only [Store.view, hch.find_eq, if_neg hc, hch.disk c hc, upd]

theorem Changed.mem_locked (c : Nat) :
    c ∈ s'.lockedSet ↔ if c = b then (f x).locked = true else c ∈ s.lockedSet := by
  by_cases hc : c = b
  · rw [if_pos hc, hc, Store.mem_lockedSet (hch.find_eq b ▸ if_pos rfl)]
  · simp only [Store.lockedSet, Set.mem_ofPred_eq, hch.find_eq, if_neg hc]

theorem Changed.mem_dirty (c : Nat) :
    c ∈ s'.dirtySet ↔ if c = b then (f x).dirty = true else c ∈ s.dirtySet := by
  by_cases hc : c = b
  · rw [if_pos hc, hc, Store.mem_dirtySet (hch.find_eq b ▸ if_pos rfl)]
  · simp only [Store.dirtySet, Set.mem_ofPred_eq, hch.find_eq, if_neg hc]

end Changed

/-- The cache after `recycle`: one clean buffer that nobody refers to has become
the buffer of `b`. -/
structure Recycled (s : Store) (b : Nat) (x : Buf) (s' : Store) : Prop where
  mem : x ∈ s.bufs
  free : x.free = true
  find : ∀ c, s'.find c =
    if c = b then some (x.assign b) else if x.blockno = some c then none else s.find c
  bufs : ∀ y ∈ s'.bufs, y ∈ s.bufs ∨ y = x.assign b
  keys : (s'.bufs.filterMap (·.blockno)).Nodup
  len : s'.bufs.length = s.bufs.length

theorem recycled (hk : (s.bufs.filterMap (·.blockno)).Nodup) (hb : s.find b = none) {l : List Buf}
    (h : recycle b s.bufs = some l) : ∃ x, Recycled s b x { s with bufs := l } := by
  obtain ⟨l₁, x, l₂, hs, hx, rfl⟩ := recycle_eq h
  refine ⟨x, ?_⟩
  have hnone : ∀ y ∈ s.bufs, y.blockno ≠ some b := by
    intro y hy hyb
    simp [Store.find] at hb
    exact hb y hy hyb
  refine ⟨by rw [hs]; simp, hx, ?_, ?_, ?_, by rw [hs]; simp⟩
  · intro c
    by_cases hc : c = b
    · subst hc
      have h1 : l₁.find? (fun y => y.blockno = some c) = none := by
        refine List.find?_eq_none.mpr (fun y hy => ?_)
        simpa using hnone y (by rw [hs]; simp [hy])
      simp [Store.find, h1, Buf.assign]
    · have hbc : ¬ b = c := fun he => hc he.symm
      simp only [Store.find, List.find?_append, List.find?_cons, Buf.assign, Option.some.injEq, hbc,
        decide_false, hc, if_false]
      by_cases hxc : x.blockno = some c
      · -- the block of the recycled buffer is not cached any more
        rw [if_pos hxc]
        rw [hs, List.filterMap_append, List.filterMap_cons_some hxc, List.nodup_append] at hk
        obtain ⟨-, h2, h3⟩ := hk
        rw [List.nodup_cons] at h2
        have hl₁ : l₁.find? (fun y => y.blockno = some c) = none := by
          refine List.find?_eq_none.mpr (fun y hy hyc => ?_)
          exact h3 c (List.mem_filterMap.mpr ⟨y, hy, by simpa using hyc⟩) c (by simp) rfl
        have hl₂ : l₂.find? (fun y => y.blockno = some c) = none := by
          refine List.find?_eq_none.mpr (fun y hy hyc => ?_)
          exact h2.1 (List.mem_filterMap.mpr ⟨y, hy, by simpa using hyc⟩)
        rw [hl₁, hl₂]
        rfl
      · rw [if_neg hxc, hs, List.find?_append, List.find?_cons_of_neg (by simpa using hxc)]
  · intro y hy
    simp only [List.mem_append, List.mem_cons] at hy
    rcases hy with hy | rfl | hy
    · exact .inl (by rw [hs]; simp [hy])
    · exact .inr rfl
    · exact .inl (by rw [hs]; simp [hy])
  · -- `b` was not among the keys
    have hbk : b ∉ s.bufs.filterMap (·.blockno) := by
      intro hm
      obtain ⟨y, hy, hyb⟩ := List.mem_filterMap.mp hm
      exact hnone y hy hyb
    rw [hs, List.filterMap_append] at hk hbk
    have hsub : (l₁.filterMap (·.blockno) ++ l₂.filterMap (·.blockno)).Sublist
        (l₁.filterMap (·.blockno) ++ (x :: l₂).filterMap (·.blockno)) := by
      refine List.Sublist.append_left ?_ _
      cases hxb : x.blockno with
      | none => rw [List.filterMap_cons_none hxb]
      | some e => rw [List.filterMap_cons_some hxb]; exact List.sublist_cons_self _ _
    simp only [List.filterMap_append, List.filterMap_cons, Buf.assign]
    rw [List.nodup_middle, List.nodup_cons]
    exact ⟨fun hm => hbk (hsub.subset hm), hk.sublist hsub⟩

/-- What `bread` without a flush has done when it returns. -/
structure Got (s : Store) (b : Nat) (d : Block) (s' : Store) : Prop where
  coh : Coherent s'
  data : d = s.view b
  view : s'.view = s.view
  unlocked : b ∉ s.lockedSet
  locked : s'.lockedSet = insert b s.lockedSet
  dirty : s'.dirtySet = s.dirtySet
  rest : s' = { s with bufs := s'.bufs }

/-- The block was not cached: a buffer was recycled and read. -/
theorem Recycled.got (h : Coherent s) (hb : s.find b = none) {l : List Buf}
    (hr : Recycled s b x { s with bufs := l }) :
    Got s b (s.disk b) (Store.modBuf { s with bufs := l } b (Buf.fill (s.disk b))) := by
  have hxf : x.refcnt = 0 ∧ x.dirty = false := by simpa [Buf.free] using hr.free
  have hxc : ∀ c, x.blockno = some c → s.find c = some x := fun c hc => h.find hr.mem hc
  have hxl : x.locked = false := by
    have := h.ref x hr.mem
    cases hl : x.locked with
    | false => rfl
    | true => simp [hl, hxf.1] at this
  have hfind : ∀ c, (Store.modBuf { s with bufs := l } b (Buf.fill (s.disk b))).find c =
      if c = b then some ((x.assign b).fill (s.disk b))
      else if x.blockno = some c then none else s.find c := by
    intro c
    rw [Store.find_modBuf (Buf.fill_blockno _), hr.find, hr.find, if_pos rfl]
    by_cases hc : c = b
    · simp [hc]
    · rw [if_neg hc, if_neg hc, if_neg hc]
  have hmem : ∀ y ∈ (Store.modBuf { s with bufs := l } b (Buf.fill (s.disk b))).bufs,
      y ∈ s.bufs ∨ y = (x.assign b).fill (s.disk b) := by
    intro y hy
    simp only [Store.modBuf, List.mem_map] at hy
    obtain ⟨z, hz, rfl⟩ := hy
    rcases hr.bufs z hz with hz | rfl
    · have hzb : z.blockno ≠ some b := by
        intro hzb
        rw [h.find hz hzb] at hb
        cases hb
      rw [if_neg hzb]
      exact .inl hz
    · exact .inr (if_pos rfl)
  constructor
  · constructor
    · rw [Store.keys_modBuf (Buf.fill_blockno _)]; exact hr.keys
    · simp only [Store.modBuf, List.length_map]
      exact hr.len.trans h.len
    · intro c y hy
      rw [hfind] at hy
      split_ifs at hy with h1 h2
      · cases hy; rfl
      · exact h.valid c y hy
    · intro y hy
      rcases hmem y hy with hy | rfl
      · exact h.ref y hy
      · rfl
    · intro y hy hn
      rcases hmem y hy with hy | rfl
      · exact h.assigned y hy hn
      · simp [Buf.fill, Buf.assign] at hn
    · intro c y hy hd
      rw [hfind] at hy
      split_ifs at hy with h1 h2
      · cases hy; rw [h1]; rfl
      · exact h.clean c y hy hd
  · exact (Store.view_of_none hb).symm
  · funext c
    simp only [Store.view, hfind]
    by_cases hc : c = b
    · subst hc; simp [hb, Buf.fill]
    · simp only [if_neg hc]
      by_cases hxb : x.blockno = some c
      · -- the recycled buffer was clean
        simp only [if_pos hxb, hxc c hxb]
        exact (h.clean c x (hxc c hxb) hxf.2).symm
      · simp only [if_neg hxb]
        rfl
  · rintro ⟨y, hy, -⟩
    rw [hb] at hy
    cases hy
  · ext c
    simp only [Store.lockedSet, Set.mem_ofPred_eq, Set.mem_insert_iff, hfind]
    by_cases hc : c = b
    · simp [hc, Buf.fill, Buf.assign]
    · by_cases hxb : x.blockno = some c
      · simp [hc, hxb, hxc c hxb, hxl]
      · simp [hc, hxb]
  · ext c
    simp only [Store.dirtySet, Set.mem_ofPred_eq, hfind]
    by_cases hc : c = b
    · simp [hc, hb, Buf.fill, Buf.assign]
    · by_cases hxb : x.blockno = some c
      · simp [hc, hxb, hxc c hxb, hxf.2]
      · simp [hc, hxb]
  · rfl

/-- The block was cached and not locked. -/
theorem got_cached (h : Coherent s) (hb : s.find b = some x) (hl : x.locked = false) :
    Got s b x.data (s.modBuf b Buf.lock) := by
  have hch : Changed s b x Buf.lock (s.modBuf b Buf.lock) :=
    ⟨Buf.lock_blockno, hb, rfl, fun _ _ => rfl⟩
  have hr : x.refcnt = 0 := by
    have := h.ref x (Store.find_mem hb).1
    simpa [hl] using this
  refine ⟨?_, (Store.view_of_find hb).symm, ?_, ?_, ?_, ?_, rfl⟩
  · exact hch.coherent h (h.valid b x hb) (by simp [Buf.lock, hr]) (h.clean b x hb)
  · rw [hch.view_eq]
    funext c
    by_cases hc : c = b
    · simp [upd, hc, Store.view_of_find hb, Buf.lock]
    · simp [upd, hc]
  · rw [Store.mem_lockedSet hb, hl]
    exact Bool.false_ne_true
  · ext c
    rw [hch.mem_locked, Set.mem_insert_iff]
    by_cases hc : c = b <;> simp [hc, Buf.lock]
  · ext c
    rw [hch.mem_dirty]
    by_cases hc : c = b
    · simp [hc, Store.mem_dirtySet hb, Buf.lock]
    · simp [hc]

/-- Why a `bread` without a flush does not return: the caller holds the buffer
itself, or no buffer can be recycled. Only the cache has changed then. -/
structure Stuck (s : Store) (b : Nat) (e : Fault) (s' : Store) : Prop where
  cause : e = .deadlock b ∧ b ∈ s.lockedSet ∨ e = .panic "bget: no buffers" ∧ s.avail = 0
  rest : s' = { s with bufs := s'.bufs }

/-- `bread` without a flush. -/
theorem wp_fetch (h : Coherent s) :
    wp (bgetFind b >>= fun _ => iderwRead b) (Got s b) (Stuck s b) s := by
  refine Lib.wp_bind ?_
  cases hb : s.find b with
  | none =>
    cases hr : recycle b s.bufs with
    | none =>
      simp only [wp, bgetFind, hb, hr]
      exact ⟨.inr ⟨rfl, avail_of_recycle hr⟩, rfl⟩
    | some l =>
      obtain ⟨x, hx⟩ := recycled h.keys hb hr
      have hfb := hx.find b
      rw [if_pos rfl] at hfb
      simp only [wp, bgetFind, hb, hr, iderwRead, hfb]
      exact hx.got h hb
  | some x =>
    by_cases hl : x.locked = true
    · simp only [wp, bgetFind, hb, hl, if_true]
      exact ⟨.inl ⟨rfl, (Store.mem_lockedSet hb).mpr hl⟩, rfl⟩
    · have hl' : x.locked = false := by simpa using hl
      have hfb : (s.modBuf b Buf.lock).find b = some x.lock := by
        rw [Store.find_modBuf Buf.lock_blockno, if_pos rfl, hb]
        rfl
      have hv : x.lock.valid = true := h.valid b x hb
      simp only [wp, bgetFind, hb, hl', Bool.false_eq_true, if_false, iderwRead, hfb, hv, if_true]
      exact got_cached (x := x) h hb hl'

/-- As long as no flush is needed it does not matter which flush `bread` has. -/
theorem wp_breadWith {f : M Unit} (h : Coherent s) (hn : s.needsFlush = false) :
    wp (breadWith f b) (Got s b) (Stuck s b) s := by
  have hbr : breadWith f b s = (bgetFind b >>= fun _ => iderwRead b) s := by
    simp only [breadWith, bgetWith, bind, EStateM.bind, get, getThe, MonadStateOf.get, EStateM.get,
      hn, Bool.false_eq_true, if_false]
  unfold wp
  rw [hbr]
  exact wp_fetch h

/-- What `bwrite` has done. -/
structure Wrote (s : Store) (b : Nat) (d : Block) (s' : Store) : Prop where
  coh : Coherent s'
  view : s'.view = upd s.view b d
  locked : s'.lockedSet = s.lockedSet
  dirty : s'.dirtySet = s.dirtySet \ {b}
  rest : s' = { s with
    bufs := s'.bufs, disk := upd s.disk b d, writes := s.writes ++ [(b, d)] }

theorem wp_bwrite (h : Coherent s) (hb : b ∈ s.lockedSet) {E : Fault → Store → Prop} :
    wp (bwrite b d) (fun _ => Wrote s b d) E s := by
  obtain ⟨x, hx, hl⟩ := hb
  simp only [wp, bwrite, hx, hl, if_true]
  have hch : Changed s b x (Buf.put d) { s.modBuf b (Buf.put d) with
      disk := upd s.disk b d, writes := s.writes ++ [(b, d)] } :=
    ⟨Buf.put_blockno d, hx, rfl, fun c hc => by simp [upd, hc]⟩
  refine ⟨?_, ?_, ?_, ?_, rfl⟩
  · exact hch.coherent h rfl (h.ref x (Store.find_mem hx).1) (fun _ => by simp [upd, Buf.put])
  · exact hch.view_eq
  · ext c
    rw [hch.mem_locked]
    by_cases hc : c = b
    · simp [hc, Store.mem_lockedSet hx, Buf.put]
    · simp [hc]
  · ext c
    rw [hch.mem_dirty]
    by_cases hc : c = b <;> simp [hc, Buf.put]

/-- What `brelse` has done. -/
structure Released (s : Store) (b : Nat) (s' : Store) : Prop where
  coh : Coherent s'
  view : s'.view = s.view
  locked : s'.lockedSet = s.lockedSet \ {b}
  dirty : s'.dirtySet = s.dirtySet
  rest : s' = { s with bufs := s'.bufs }

theorem wp_brelse (h : Coherent s) (hb : b ∈ s.lockedSet) {E : Fault → Store → Prop} :
    wp (brelse b) (fun _ => Released s b) E s := by
  obtain ⟨x, hx, hl⟩ := hb
  have hr : x.unlock.refcnt = 0 := by
    have := h.ref x (Store.find_mem hx).1
    simp [Buf.unlock, this, hl]
  have hxb := (Store.find_mem hx).2
  simp only [wp, brelse, hx, hl, hr, if_true]
  have hfind : ∀ c, Store.find { s with
      bufs := x.unlock :: s.bufs.filter (fun y => y.blockno ≠ some b) } c =
        if c = b then some x.unlock else s.find c := by
    intro c
    by_cases hc : c = b
    · subst hc
      simp [Store.find, Buf.unlock, hxb]
    · rw [if_neg hc]
      have hne : ¬ b = c := fun he => hc he.symm
      simp only [Store.find, List.find?_cons, Buf.unlock, hxb, Option.some.injEq, hne, decide_false,
        List.find?_filter]
      congr 1
      funext y
      by_cases hyc : y.blockno = some c
      · simp [hyc, hc]
      · simp [hyc]
  have hmem : ∀ y ∈ (x.unlock :: s.bufs.filter (fun y => y.blockno ≠ some b)),
      y = x.unlock ∨ y ∈ s.bufs := by
    intro y hy
    rcases List.mem_cons.mp hy with rfl | hy
    · exact .inl rfl
    · exact .inr (List.mem_of_mem_filter hy)
  refine ⟨?_, ?_, ?_, ?_, rfl⟩
  · constructor
    · have hsub : ((s.bufs.filter (fun y => y.blockno ≠ some b)).filterMap (·.blockno)).Sublist
          (s.bufs.filterMap (·.blockno)) := List.filter_sublist.filterMap _
      rw [List.filterMap_cons_some (show x.unlock.blockno = some b from hxb), List.nodup_cons]
      refine ⟨?_, h.keys.sublist hsub⟩
      intro hm
      obtain ⟨y, hy, hyb⟩ := List.mem_filterMap.mp hm
      simp [hyb] at hy
    · rw [List.length_cons, length_filter_key h.keys (Store.find_mem hx).1 hxb]
      exact h.len
    · intro c y hy
      rw [hfind] at hy
      split_ifs at hy with hc
      · cases hy; exact h.valid b x hx
      · exact h.valid c y hy
    · intro y hy
      rcases hmem y hy with rfl | hy
      · rw [hr]; rfl
      · exact h.ref y hy
    · intro y hy hn
      rcases hmem y hy with rfl | hy
      · rw [Buf.unlock_blockno, hxb] at hn
        cases hn
      · exact h.assigned y hy hn
    · intro c y hy hd
      rw [hfind] at hy
      split_ifs at hy with hc
      · cases hy; rw [hc]; exact h.clean b x hx hd
      · exact h.clean c y hy hd
  · funext c
    simp only [Store.view, hfind]
    by_cases hc : c = b
    · subst hc; simp [hx, Buf.unlock]
    · simp only [if_neg hc]
  · ext c
    simp only [Store.lockedSet, Set.mem_ofPred_eq, hfind, Set.mem_sdiff, Set.mem_singleton_iff]
    by_cases hc : c = b
    · simp [hc, Buf.unlock]
    · simp [hc]
  · ext c
    simp only [Store.dirtySet, Set.mem_ofPred_eq, hfind]
    by_cases hc : c = b
    · subst hc; simp [hx, Buf.unlock]
    · simp [hc]

/-- What `log_write` has done. -/
structure LogWrote (s : Store) (b : Nat) (d : Block) (s' : Store) : Prop where
  coh : Coherent s'
  view : s'.view = upd s.view b d
  locked : s'.lockedSet = s.lockedSet
  dirty : s'.dirtySet = insert b s.dirtySet
  small : s.lh.length < LOGSIZE ∧ s.lh.length < s.size - 1
  rest : s' = { s with bufs := s'.bufs, lh := if b ∈ s.lh then s.lh else s.lh ++ [b] }

theorem wp_logWrite (h : Coherent s) (hb : b ∈ s.lockedSet) :
    wp (logWrite b d) (fun _ => LogWrote s b d)
      (fun e s' => e = .panic "too big a transaction" ∧ s' = s) s := by
  obtain ⟨x, hx, hl⟩ := hb
  by_cases hfull : s.lh.length ≥ LOGSIZE ∨ s.lh.length ≥ s.size - 1
  · simp only [wp, logWrite, hx, hl, if_true, if_pos hfull]
    exact ⟨trivial, trivial⟩
  simp only [wp, logWrite, hx, hl, if_true, if_neg hfull]
  have hch : Changed s b x (Buf.log d) { s.modBuf b (Buf.log d) with
      lh := if b ∈ s.lh then s.lh else s.lh ++ [b] } :=
    ⟨Buf.log_blockno d, hx, rfl, fun _ _ => rfl⟩
  refine ⟨?_, ?_, ?_, ?_, by omega, rfl⟩
  · refine hch.coherent h (h.valid b x hx) (h.ref x (Store.find_mem hx).1) (fun hd => ?_)
    simp [Buf.log] at hd
  · exact hch.view_eq
  · ext c
    rw [hch.mem_locked]
    by_cases hc : c = b
    · simp [hc, Store.mem_lockedSet hx, Buf.log]
    · simp [hc]
  · ext c
    rw [hch.mem_dirty, Set.mem_insert_iff]
    by_cases hc : c = b <;> simp [hc, Buf.log]

end Ops

end Xv6.Fs
