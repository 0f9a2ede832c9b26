import Xv6.Fs.Refine

/- The room in the buffer cache and in the log (`project3_filesystem/bio.c`, `log.c`,
   `param.h`).

   `begin_op` does not reserve log space any more. What keeps the log from overflowing
   is `bget`: it flushes when at most `NRESBUF` buffers can be recycled, so that
   `NRESBUF` are left before and after every call, the other blocks of the cache are not
   more than `NBUF - NRESBUF`, and the blocks in `log.lh` are among them. The two that
   are left are the two that a commit needs.

   `fs.c` holds at most three buffers when it calls `bread`: `itrunc` of a file with a
   triple-indirect block holds that block, `freeDouble` two more, and `bfree` reads the
   free map. The results are for any number that leaves a flush room
   (`log_and_cache_fit`). -/
namespace Xv6.Fs

open Lib (wp)
open Lib.RedoLog (Home)

/-- The states of a process that makes these calls from `s₀` on, with at most `n` buffers
held when it calls `bread`. -/
inductive Holds (start size n : Nat) (s₀ : Store) : Store → Prop where
  | refl : Holds start size n s₀ s₀
  | bread {s s' : Store} {d : Block} (b : HomeBlock start size) : Holds start size n s₀ s →
    s.held.length ≤ n → Fs.bread b.val s = .ok d s' → Holds start size n s₀ s'
  | logWrite {s s' : Store} {d : Block} (b : HomeBlock start size) : Holds start size n s₀ s →
    Fs.logWrite b.val d s = .ok () s' → Holds start size n s₀ s'
  | brelse {s s' : Store} (b : HomeBlock start size) : Holds start size n s₀ s →
    Fs.brelse b.val s = .ok () s' → Holds start size n s₀ s'
  | beginOp {s s' : Store} : Holds start size n s₀ s → Fs.beginOp s = .ok () s' →
    Holds start size n s₀ s'
  | endOp {s s' : Store} : Holds start size n s₀ s → Fs.endOp s = .ok () s' → Holds start size n s₀ s'
  | sync {s s' : Store} {r : Int} : Holds start size n s₀ s → sysSync s = .ok r s' →
    Holds start size n s₀ s'

section Room

variable {start size n : Nat} {s₀ s s' : Store} {b : Nat}

theorem Holds.runs (h : Holds start size n s₀ s) : Runs start size s₀ s := by
  induction h with
  | refl => exact .refl
  | bread b _ _ hb ih => exact ih.bread b hb
  | logWrite b _ hb ih => exact ih.logWrite b hb
  | brelse b _ hb ih => exact ih.brelse b hb
  | beginOp _ hb ih => exact ih.beginOp hb
  | endOp _ hb ih => exact ih.endOp hb
  | sync _ hb ih => exact ih.sync hb

namespace Store

/-- The blocks whose buffers cannot be recycled. -/
def busy (s : Store) : List Nat := (s.bufs.filter (fun x => ¬ x.free)).filterMap (·.blockno)

theorem mem_busy {x : Buf} (hx : s.find b = some x) (hf : x.free = false) : b ∈ s.busy := by
  obtain ⟨hmem, hb⟩ := find_mem hx
  exact List.mem_filterMap.mpr ⟨x, List.mem_filter.mpr ⟨hmem, by simp [hf]⟩, hb⟩

theorem mem_held (h : b ∈ s.lockedSet) : b ∈ s.held := by
  obtain ⟨x, hx, hl⟩ := h
  obtain ⟨hmem, hb⟩ := find_mem hx
  exact List.mem_filterMap.mpr ⟨x, List.mem_filter.mpr ⟨hmem, hl⟩, hb⟩

end Store

theorem Coherent.locked_busy (h : Coherent s) (hb : b ∈ s.lockedSet) : b ∈ s.busy := by
  obtain ⟨x, hx, hl⟩ := hb
  apply Store.mem_busy hx
  have href := h.ref x (Store.find_mem hx).1
  rw [hl] at href
  simp [Buf.free, href]

theorem dirty_busy (hb : b ∈ s.dirtySet) : b ∈ s.busy := by
  obtain ⟨x, hx, hd⟩ := hb
  exact Store.mem_busy hx (by simp [Buf.free, hd])

theorem Coherent.busy_length (h : Coherent s) : s.busy.length + s.avail ≤ NBUF := by
  have hkeys : s.busy.length ≤ (s.bufs.filter (fun x => ¬ x.free)).length :=
    List.length_filterMap_le _ _
  have hcount : s.bufs.length = s.avail + (s.bufs.filter (fun x => ¬ x.free)).length := by
    rw [Store.avail, List.length_eq_countP_add_countP Buf.free, ← List.countP_eq_length_filter]
  have hlen := h.len
  omega

/-- Two buffers are left for a commit. -/
theorem Coherent.room (h : Coherent s) (ha : NRESBUF ≤ s.avail) : Room s := by
  refine ⟨s.busy, ?_, fun b hb => h.locked_busy hb, fun b hb => dirty_busy hb⟩
  have hbusy := h.busy_length
  have htwo : NRESBUF = 2 := rfl
  omega

/-- What can be recycled, if no more blocks are locked or dirty than before. -/
theorem Coherent.avail_le (h : Coherent s) (h' : Coherent s')
    (hl : ∀ b ∈ s'.lockedSet, b ∈ s.busy) (hd : ∀ b ∈ s'.dirtySet, b ∈ s.busy) :
    s.avail ≤ s'.avail := by
  have hle := h'.le_avail hl hd
  have := h.busy_length
  omega

/-- `bread` of a block takes at most one buffer. -/
theorem Got.avail {d : Block} (h : Coherent s) (hg : Got s b d s') : s.avail ≤ s'.avail + 1 := by
  have hle : NBUF ≤ s'.avail + (b :: s.busy).length := by
    apply hg.coh.le_avail
    · intro c hc
      rw [hg.locked] at hc
      rcases hc with rfl | hc
      · exact List.mem_cons_self
      · exact List.mem_cons_of_mem _ (h.locked_busy hc)
    · intro c hc
      rw [hg.dirty] at hc
      exact List.mem_cons_of_mem _ (dirty_busy hc)
  have := h.busy_length
  simp only [List.length_cons] at hle
  omega

/-- A flush leaves the buffers that are held. -/
theorem Committed.avail (hc : Committed s s') : NBUF ≤ s'.avail + s.held.length := by
  apply hc.coh.le_avail
  · intro c hb
    rw [hc.locked] at hb
    exact Store.mem_held hb
  · intro c hb
    rw [hc.dirty] at hb
    exact hb.elim

theorem Quiet.lh_length (h : Quiet s) : s.lh.length + s.avail ≤ NBUF := by
  have hsub : s.lh ⊆ s.busy := by
    intro c hc
    exact dirty_busy ((h.dirty c).mpr hc)
  have hle := (List.subperm_of_subset h.nodup hsub).length_le
  have := h.coh.busy_length
  omega

/-- The step of `bread`. -/
theorem Quiet.bread_avail {d : Block} (h : Quiet s) (hn : n + NRESBUF < NBUF)
    (hheld : s.held.length ≤ n) (hb : Fs.bread b s = .ok d s') : NRESBUF ≤ s'.avail := by
  rcases (wp_bread h).ok hb with ⟨hno, hg⟩ | ⟨-, s₁, hf, hg⟩
  · -- more than `NRESBUF` before, so that one can go
    have hlt : NRESBUF < s.avail := by
      by_contra hle
      have : s.needsFlush = true := by
        simp only [Store.needsFlush, h.synchronizing, and_true, decide_eq_true_eq]
        omega
      rw [hno] at this
      cases this
    have := hg.avail h.coh
    omega
  · have hc : Committed { s with flushes := s.flushes ++ [{ held := s.held, lh := s.lh }] } s₁ := hf
    have hleft : NBUF ≤ s₁.avail + s.held.length := hc.avail
    have := hg.avail hc.coh
    omega

/-- In every state `NRESBUF` buffers can be recycled. -/
theorem Holds.avail (h : Holds start size n s₀ s) {t : Nat → Block} (h0 : Sees start size s₀ t)
    (ha : NRESBUF ≤ s₀.avail) (hn : n + NRESBUF < NBUF) : NRESBUF ≤ s.avail := by
  induction h with
  | refl => exact ha
  | bread b hr hheld hb ih =>
    obtain ⟨t', hs⟩ := hr.runs.sees h0
    exact hs.quiet.bread_avail hn hheld hb
  | @logWrite s s' d b hr hb ih =>
    obtain ⟨t', hs⟩ := hr.runs.sees h0
    have hcoh := hs.quiet.coh
    have hlocked := held_of_logWrite hb
    -- the buffer that becomes dirty is held, and could not be recycled before
    have hw := (wp_logWrite hcoh hlocked).ok hb
    apply ih.trans
    apply hcoh.avail_le hw.coh
    · intro c hc
      rw [hw.locked] at hc
      exact hcoh.locked_busy hc
    · intro c hc
      rw [hw.dirty] at hc
      rcases hc with rfl | hc
      · exact hcoh.locked_busy hlocked
      · exact dirty_busy hc
  | @brelse s s' b hr hb ih =>
    obtain ⟨t', hs⟩ := hr.runs.sees h0
    have hcoh := hs.quiet.coh
    have hrel := (wp_brelse (E := fun _ _ => True) hcoh (held_of_brelse hb)).ok hb
    apply ih.trans
    -- what is locked or dirty behind `brelse` was so before
    apply hcoh.avail_le hrel.coh
    · intro c hc
      rw [hrel.locked] at hc
      exact hcoh.locked_busy hc.1
    · intro c hc
      rw [hrel.dirty] at hc
      exact dirty_busy hc
  | @beginOp s s' hr hb ih =>
    obtain ⟨t', hs⟩ := hr.runs.sees h0
    rw [hs.quiet.beginOp_run] at hb
    cases hb
    exact ih
  | @endOp s s' hr hb ih =>
    obtain ⟨t', hs⟩ := hr.runs.sees h0
    rw [hs.quiet.endOp_run] at hb
    cases hb
    exact ih
  | @sync s s' r hr hb ih =>
    obtain ⟨t', hs⟩ := hr.runs.sees h0
    have hc := ((wp_sysSync hs.quiet).ok hb).2
    have hcoh := hs.quiet.coh
    apply ih.trans
    apply hcoh.avail_le hc.coh
    · intro c hb
      rw [hc.locked] at hb
      exact hcoh.locked_busy hb
    · intro c hb
      rw [hc.dirty] at hb
      exact hb.elim

theorem Broke.not_full {B : Set Nat} {ws : List (Nat × Block)} {e : Fault} (h : Broke s B ws e s')
    (hroom : Room s) : e ≠ .panic "bget: no buffers" := by
  rcases h.cause with ⟨b, -, he, -⟩ | ⟨-, hno⟩
  · rw [he]
    exact nofun
  · exact (hno hroom).elim

theorem Stuck.not_full {e : Fault} (h : Stuck s b e s') (ha : 0 < s.avail) :
    e ≠ .panic "bget: no buffers" := by
  rcases h.cause with ⟨he, -⟩ | ⟨-, hno⟩
  · rw [he]
    exact nofun
  · omega

theorem Quiet.bread_fits {e : Fault} (h : Quiet s) (ha : NRESBUF ≤ s.avail) (hn : n + NRESBUF < NBUF)
    (hheld : s.held.length ≤ n) (hb : Fs.bread b s = .error e s') : e ≠ .panic "bget: no buffers" := by
  have htwo : NRESBUF = 2 := rfl
  have hroom := h.coh.room ha
  rcases (wp_bread h).error hb with ⟨-, hstuck⟩ | ⟨-, hbroke | ⟨s₁, hf, hstuck⟩⟩
  · exact hstuck.not_full (by omega)
  · -- the flush is short of nothing
    have hroom' : Room { s with flushes := s.flushes ++ [{ held := s.held, lh := s.lh }] } := hroom
    exact hbroke.not_full hroom'
  · have hc : Committed { s with flushes := s.flushes ++ [{ held := s.held, lh := s.lh }] } s₁ := hf
    have hleft : NBUF ≤ s₁.avail + s.held.length := hc.avail
    exact hstuck.not_full (by omega)

theorem Quiet.logWrite_fits {d : Block} {e : Fault} (h : Quiet s) (ha : NRESBUF ≤ s.avail)
    (hsize : LOGSIZE ≤ s.size) (hb : Fs.logWrite b d s = .error e s') :
    e ≠ .panic "too big a transaction" := by
  have hlh : s.lh.length + s.avail ≤ 50 := h.lh_length
  have htwo : NRESBUF = 2 := rfl
  have hlog : LOGSIZE = 52 := rfl
  -- every block of the log has a buffer, and two of the buffers are clean
  have hsmall : ¬ (s.lh.length ≥ LOGSIZE ∨ s.lh.length ≥ s.size - 1) := by omega
  unfold Fs.logWrite at hb
  simp only [if_neg hsmall] at hb
  split at hb
  · split at hb
    · cases hb
    · cases hb
      exact nofun
  · cases hb
    exact nofun

end Room

/-- In every state of a process that makes calls of the file system, from the start of
the kernel on, the blocks in `log.lh` are distinct and those of the dirty buffers, and
`NRESBUF` buffers can be recycled. No call finds the cache or the log full, in a flush or
outside; `mkfs` makes the log `LOGSIZE` blocks long. -/
theorem log_and_cache_fit (start size n : Nat) (d : Nat → Block) (s₀ : Store)
    (hhome : ∀ b ∈ (d start).header, Home start (size - 1) b)
    (hroom : (d start).header.length ≤ size - 1) (hsize : LOGSIZE ≤ size)
    (h0 : recoverFromLog (reboot start size d) = .ok () s₀) (hn : n + NRESBUF < NBUF) (s : Store)
    (hs : Holds start size n s₀ s) :
    s.lh.Nodup ∧ (∀ b, b ∈ s.lh ↔ ∃ x, s.find b = some x ∧ x.dirty = true) ∧ NRESBUF ≤ s.avail ∧
    (∀ b e s', s.held.length ≤ n → Fs.bread b s = .error e s' → e ≠ .panic "bget: no buffers") ∧
    (∀ b d e s', Fs.logWrite b d s = .error e s' → e ≠ .panic "too big a transaction") ∧
    ∀ e s', sysSync s = .error e s' → e ≠ .panic "bget: no buffers" := by
  obtain ⟨-, -, hq, hst, hsz, hlh, hfree⟩ := (wp_recoverFromLog size hhome hroom).ok h0
  have hsees : Sees start size s₀ s₀.view := ⟨hq, fun _ _ => rfl, hst, hsz⟩
  have hfirst : NRESBUF ≤ s₀.avail := by
    -- nothing is locked or dirty when the recovery has ended
    have hall : NBUF ≤ s₀.avail + ([] : List Nat).length := by
      apply hq.coh.le_avail
      · intro b hb
        rw [hfree] at hb
        exact hb.elim
      · intro b hb
        rw [hq.dirty, hlh] at hb
        exact hb
    exact (by decide : NRESBUF ≤ NBUF).trans hall
  obtain ⟨t, ht⟩ := hs.runs.sees hsees
  have hquiet := ht.quiet
  have havail := hs.avail hsees hfirst hn
  have hsize' : LOGSIZE ≤ s.size := by rw [ht.logSize]; exact hsize
  refine ⟨hquiet.nodup, fun b => (hquiet.dirty b).symm, havail, ?_, ?_, ?_⟩
  · intro b e s' hheld hb
    exact hquiet.bread_fits havail hn hheld hb
  · intro b d e s' hb
    exact hquiet.logWrite_fits havail hsize' hb
  · intro e s' hb
    exact ((wp_sysSync hquiet).error hb).not_full (hquiet.coh.room havail)

/-- The blocks are read, changed and logged, one after the other. -/
def logAll : List (HomeBlock 2 LOGSIZE) → Store → Option Store
  | [], s => some s
  | b :: bs, s =>
    if s.held.length ≤ 3 then
      match Fs.bread b.val s with
      | .error _ _ => none
      | .ok d s₁ =>
        match (do logWrite b.val d; brelse b.val : M Unit) s₁ with
        | .error _ _ => none
        | .ok _ s₂ => logAll bs s₂
    else none

theorem Holds.logAll {s₀ s' : Store} : ∀ (bs : List (HomeBlock 2 LOGSIZE)) (s : Store),
    Holds 2 LOGSIZE 3 s₀ s → Fs.logAll bs s = some s' → Holds 2 LOGSIZE 3 s₀ s' := by
  intro bs
  induction bs with
  | nil =>
    intro s h hs
    cases hs
    exact h
  | cons b bs ih =>
    intro s h hs
    unfold Fs.logAll at hs
    split_ifs at hs with hheld
    split at hs
    · cases hs
    · next d s₁ hread =>
      have h₁ := Holds.bread b h hheld hread
      split at hs
      · cases hs
      · next s₂ hlog =>
        obtain ⟨_, t, hwrite, hrelse⟩ := Lib.bind_ok hlog
        exact ih s₂ (.brelse b (.logWrite b h₁ hwrite) hrelse) hs

theorem home_data (i : Fin 200) :
    Home 2 (LOGSIZE - 1) (100 + i.val) ∧ 100 + i.val < 2 ^ 32 := by
  have hlog : LOGSIZE = 52 := rfl
  constructor
  · unfold Home
    omega
  · omega

/-- Block `100 + i`, behind a log as long as `mkfs` makes it. -/
def dataBlock (i : Fin 200) : HomeBlock 2 LOGSIZE :=
  ⟨100 + i.val, home_data i⟩

/-- The state in which 48 blocks are logged and two buffers are left, and the one behind the
next `bread`, which flushes them. -/
theorem log_and_cache_fit_fullCache : ∃ s₀ s t d,
    recoverFromLog (reboot 2 LOGSIZE fun _ => Block.zero) = .ok () s₀ ∧
    logAll ((List.finRange 48).map fun i => dataBlock (i.castLE (by decide))) s₀ = some s ∧
    s.lh.length = 48 ∧ s.avail = NRESBUF ∧ Fs.bread 148 s = .ok d t ∧ t.flushes.length = 1 ∧
    (∀ b e s', s.held.length ≤ 3 → Fs.bread b s = .error e s' → e ≠ .panic "bget: no buffers") ∧
    (∀ b d e s', Fs.logWrite b d s = .error e s' → e ≠ .panic "too big a transaction") ∧
    t.lh.Nodup ∧ (∀ b, b ∈ t.lh ↔ ∃ x, t.find b = some x ∧ x.dirty = true) ∧ NRESBUF ≤ t.avail ∧
    ∀ e s', sysSync t = .error e s' → e ≠ .panic "bget: no buffers" := by
  have hrun : (match recoverFromLog (reboot 2 LOGSIZE fun _ => Block.zero) with
      | .error _ _ => false
      | .ok _ s₀ =>
        match logAll ((List.finRange 48).map fun i => dataBlock (i.castLE (by decide))) s₀ with
        | none => false
        | some s =>
          match Fs.bread 148 s with
          | .error _ _ => false
          | .ok _ t => decide (s.held.length ≤ 3 ∧ s.lh.length = 48 ∧ s.avail = NRESBUF ∧ t.flushes.length = 1)) =
        true := by
    decide +kernel
  cases h0 : recoverFromLog (reboot 2 LOGSIZE fun _ => Block.zero) with
  | error e s₀ => rw [h0] at hrun; cases hrun
  | ok u s₀ =>
    rw [h0] at hrun
    simp only at hrun
    cases h1 : logAll ((List.finRange 48).map fun i => dataBlock (i.castLE (by decide))) s₀ with
    | none => rw [h1] at hrun; cases hrun
    | some s =>
      rw [h1] at hrun
      simp only at hrun
      cases h2 : Fs.bread 148 s with
      | error e t => rw [h2] at hrun; cases hrun
      | ok d t =>
        rw [h2] at hrun
        obtain ⟨hheld, hlen, havail, hflush⟩ := of_decide_eq_true hrun
        have hs : Holds 2 LOGSIZE 3 s₀ s := Holds.logAll _ s₀ .refl h1
        have ht : Holds 2 LOGSIZE 3 s₀ t := .bread (dataBlock 48) hs hheld h2
        have hfit := log_and_cache_fit 2 LOGSIZE 3 (fun _ => Block.zero) s₀ (by decide) (by decide)
          (by decide) h0 (by decide)
        obtain ⟨-, -, -, hread, hwrite, -⟩ := hfit s hs
        obtain ⟨hnodup, hdirty, hleft, -, -, hsync⟩ := hfit t ht
        exact ⟨s₀, s, t, d, rfl, h1, hlen, havail, h2, hflush, hread, hwrite, hnodup, hdirty, hleft, hsync⟩

end Xv6.Fs
