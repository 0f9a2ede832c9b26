import Xv6.Fs.Crash

/- The buffer cache and the log, as file-system code sees them
   (`project3_filesystem/bio.c`, `log.c`). `Prog` is code over `bread`,
   `log_write`, `brelse`, `begin_op`, `end_op` and `sync`, which may decide on what
   it has read and uses no block of the log area. `Prog.run` runs it on the store,
   `Prog.spec` on an array of blocks. A run that completes gives the result of the
   specification and ends in its blocks (`flush_invisible`): what a flush in the
   middle of a `bread` does is not seen. The simulation relation is `Sees`. -/
namespace Xv6.Fs
open Lib (wp)
open Lib.RedoLog (Home upd)

/-- A block outside the log area. -/
abbrev HomeBlock (start size : Nat) := { b : Nat // Home start (size - 1) b ∧ b < 2 ^ 32 }

/-- File-system code with a result in `α`. What `sys_sync` returns, a number of
log entries, is not used. -/
inductive Prog (start size : Nat) (α : Type) where
  | done (a : α)
  | bread (b : HomeBlock start size) (k : Block → Prog start size α)
  | logWrite (b : HomeBlock start size) (d : Block) (k : Prog start size α)
  | brelse (b : HomeBlock start size) (k : Prog start size α)
  | beginOp (k : Prog start size α)
  | endOp (k : Prog start size α)
  | sync (k : Prog start size α)

namespace Prog

variable {start size : Nat} {α β : Type}

def run : Prog start size α → M α
  | done a => pure a
  | bread b k => do run (k (← Fs.bread b.val))
  | logWrite b d k => do Fs.logWrite b.val d; run k
  | brelse b k => do Fs.brelse b.val; run k
  | beginOp k => do Fs.beginOp; run k
  | endOp k => do Fs.endOp; run k
  | sync k => do let _ ← sysSync; run k

/-- The same code on an array of blocks, without cache and log. -/
def spec : Prog start size α → (Nat → Block) → α × (Nat → Block)
  | done a, t => (a, t)
  | bread b k, t => spec (k (t b.val)) t
  | logWrite b d k, t => spec k (upd t b.val d)
  | brelse _ k, t => spec k t
  | beginOp k, t => spec k t
  | endOp k, t => spec k t
  | sync k, t => spec k t

/-- One operation after the other. -/
def bind : Prog start size α → (α → Prog start size β) → Prog start size β
  | done a, f => f a
  | bread b k, f => bread b (fun d => bind (k d) f)
  | logWrite b d k, f => logWrite b d (bind k f)
  | brelse b k, f => brelse b (bind k f)
  | beginOp k, f => beginOp (bind k f)
  | endOp k, f => endOp (bind k f)
  | sync k, f => sync (bind k f)

theorem spec_bind (p : Prog start size α) (f : α → Prog start size β) : ∀ t,
    (p.bind f).spec t = (f (p.spec t).1).spec (p.spec t).2 := by
  induction p with
  | done a => exact fun t => rfl
  | bread b k ih => exact fun t => ih (t b.val) t
  | logWrite b d k ih => exact fun t => ih _
  | brelse b k ih => exact fun t => ih t
  | beginOp k ih => exact fun t => ih t
  | endOp k ih => exact fun t => ih t
  | sync k ih => exact fun t => ih t

end Prog

/-- The states of a process that makes these calls, from `s₀` on. -/
inductive Runs (start size : Nat) (s₀ : Store) : Store → Prop where
  | refl : Runs start size s₀ s₀
  | bread {s s' : Store} {d : Block} (b : HomeBlock start size) : Runs start size s₀ s →
    Fs.bread b.val s = .ok d s' → Runs start size s₀ s'
  | logWrite {s s' : Store} {d : Block} (b : HomeBlock start size) : Runs start size s₀ s →
    Fs.logWrite b.val d s = .ok () s' → Runs start size s₀ s'
  | brelse {s s' : Store} (b : HomeBlock start size) : Runs start size s₀ s →
    Fs.brelse b.val s = .ok () s' → Runs start size s₀ s'
  | beginOp {s s' : Store} : Runs start size s₀ s → Fs.beginOp s = .ok () s' → Runs start size s₀ s'
  | endOp {s s' : Store} : Runs start size s₀ s → Fs.endOp s = .ok () s' → Runs start size s₀ s'
  | sync {s s' : Store} {n : Int} : Runs start size s₀ s → sysSync s = .ok n s' → Runs start size s₀ s'

/-- What a flush leaves as it was: the contents of every block outside the log
area, and the buffers that are held. -/
structure Unseen (s s' : Store) : Prop where
  view : ∀ x, Home s.start (s.size - 1) x → s'.view x = s.view x
  held : s'.lockedSet = s.lockedSet
  buffer : ∀ b x, Home s.start (s.size - 1) b → s.find b = some x → x.locked = true →
    ∃ x', s'.find b = some x' ∧ x'.locked = true ∧ x'.data = x.data

/-- The store shows the blocks `t`. -/
structure Sees (start size : Nat) (s : Store) (t : Nat → Block) : Prop where
  quiet : Quiet s
  view : ∀ x, Home start (size - 1) x → s.view x = t x
  logStart : s.start = start
  logSize : s.size = size

section Calls

variable {start size : Nat} {s s' : Store} {t : Nat → Block} {d : Block}

theorem Committed.unseen (h : Committed s s') : Unseen s s' := by
  refine ⟨h.view, h.locked, fun b x hb hx hl => ?_⟩
  have hmem : b ∈ s'.lockedSet := by
    rw [h.locked]
    exact ⟨x, hx, hl⟩
  obtain ⟨x', hx', hl'⟩ := hmem
  refine ⟨x', hx', hl', ?_⟩
  have hv := h.view b hb
  rw [Store.view_of_find hx, Store.view_of_find hx'] at hv
  exact hv

/-- `flushes` is not read. -/
theorem Quiet.flushes (h : Quiet s) (fs : List Flush) : Quiet { s with flushes := fs } :=
  ⟨h.toLogged.congr rfl rfl rfl rfl rfl, h.committing, h.synchronizing⟩

theorem Flushed.unseen (h : Flushed s s') : Unseen s s' := by
  have hc := Committed.unseen h
  exact ⟨hc.view, hc.held, hc.buffer⟩

theorem Sees.committed (h : Sees start size s t) (hc : Committed s s') : Sees start size s' t := by
  have hst : s'.start = s.start := by rw [hc.rest]
  have hsz : s'.size = s.size := by rw [hc.rest]
  refine ⟨hc.quiet h.quiet, fun x hx => ?_, hst.trans h.logStart, hsz.trans h.logSize⟩
  rw [hc.view x (by rw [h.logStart, h.logSize]; exact hx)]
  exact h.view x hx

theorem Sees.flushed (h : Sees start size s t) (hf : Flushed s s') : Sees start size s' t := by
  have h1 : Sees start size { s with flushes := s.flushes ++ [{ held := s.held, lh := s.lh }] } t :=
    ⟨h.quiet.flushes _, h.view, h.logStart, h.logSize⟩
  exact h1.committed hf

theorem Sees.got (h : Sees start size s t) {b : Nat} (hb : Home start (size - 1) b)
    (hg : Got s b d s') : d = t b ∧ Sees start size s' t := by
  have hst : s'.start = s.start := by rw [hg.rest]
  have hsz : s'.size = s.size := by rw [hg.rest]
  refine ⟨hg.data.trans (h.view b hb), hg.quiet h.quiet, fun x hx => ?_, hst.trans h.logStart,
    hsz.trans h.logSize⟩
  rw [hg.view]
  exact h.view x hx

theorem Sees.bread (h : Sees start size s t) (b : HomeBlock start size)
    (hb : Fs.bread b.val s = .ok d s') : d = t b.val ∧ Sees start size s' t := by
  rcases (wp_bread h.quiet).ok hb with ⟨-, hg⟩ | ⟨-, s₁, hf, hg⟩
  · exact h.got b.property.1 hg
  · exact (h.flushed hf).got b.property.1 hg

/-- Only a held buffer can be released. -/
theorem held_of_brelse {b : Nat} (h : Fs.brelse b s = .ok () s') : b ∈ s.lockedSet := by
  unfold Fs.brelse at h
  split at h
  · rename_i x hx
    by_cases hl : x.locked = true
    · exact ⟨x, hx, hl⟩
    · rw [if_neg hl] at h
      cases h
  · cases h

theorem held_of_logWrite {b : Nat} (h : Fs.logWrite b d s = .ok () s') : b ∈ s.lockedSet := by
  unfold Fs.logWrite at h
  split at h
  · rename_i x hx
    by_cases hl : x.locked = true
    · exact ⟨x, hx, hl⟩
    · rw [if_neg hl] at h
      cases h
  · cases h

theorem Sees.brelse (h : Sees start size s t) {b : Nat} (hb : Fs.brelse b s = .ok () s') :
    Sees start size s' t := by
  have hr := (wp_brelse (E := fun _ _ => True) h.quiet.coh (held_of_brelse hb)).ok hb
  have hst : s'.start = s.start := by rw [hr.rest]
  have hsz : s'.size = s.size := by rw [hr.rest]
  refine ⟨hr.quiet h.quiet, fun x hx => ?_, hst.trans h.logStart, hsz.trans h.logSize⟩
  rw [hr.view]
  exact h.view x hx

theorem Sees.logWrite (h : Sees start size s t) (b : HomeBlock start size)
    (hb : Fs.logWrite b.val d s = .ok () s') : Sees start size s' (upd t b.val d) := by
  have hw := (wp_logWrite h.quiet.coh (held_of_logWrite hb)).ok hb
  have hst : s'.start = s.start := by rw [hw.rest]
  have hsz : s'.size = s.size := by rw [hw.rest]
  have hhome : Home s.start (s.size - 1) b.val := by
    rw [h.logStart, h.logSize]
    exact b.property.1
  refine ⟨hw.quiet h.quiet hhome b.property.2, fun x hx => ?_, hst.trans h.logStart,
    hsz.trans h.logSize⟩
  rw [hw.view]
  simp only [upd]
  split
  · rfl
  · exact h.view x hx

theorem Quiet.beginOp_run (h : Quiet s) :
    Fs.beginOp s = .ok () { s with outstanding := s.outstanding + 1 } := by
  unfold Fs.beginOp
  simp only [bind, EStateM.bind, get, getThe, MonadStateOf.get, EStateM.get, modify, modifyGet,
    MonadStateOf.modifyGet, EStateM.modifyGet, h.committing, Bool.false_eq_true, if_false]

theorem Quiet.endOp_run (h : Quiet s) :
    Fs.endOp s = .ok () { s with outstanding := s.outstanding - 1 } := by
  unfold Fs.endOp
  simp only [bind, EStateM.bind, get, getThe, MonadStateOf.get, EStateM.get, modify, modifyGet,
    MonadStateOf.modifyGet, EStateM.modifyGet, h.committing, Bool.false_eq_true, if_false]
  rfl

/-- `outstanding` is not read. -/
theorem Sees.outstanding (h : Sees start size s t) (k : Nat) :
    Sees start size { s with outstanding := k } t :=
  ⟨⟨h.quiet.toLogged.congr rfl rfl rfl rfl rfl, h.quiet.committing, h.quiet.synchronizing⟩,
    h.view, h.logStart, h.logSize⟩

theorem Sees.beginOp (h : Sees start size s t) (hb : Fs.beginOp s = .ok () s') :
    Sees start size s' t := by
  rw [h.quiet.beginOp_run] at hb
  cases hb
  exact h.outstanding _

theorem Sees.endOp (h : Sees start size s t) (hb : Fs.endOp s = .ok () s') :
    Sees start size s' t := by
  rw [h.quiet.endOp_run] at hb
  cases hb
  exact h.outstanding _

theorem Sees.sync (h : Sees start size s t) {n : Int} (hb : sysSync s = .ok n s') :
    Sees start size s' t :=
  h.committed ((wp_sysSync h.quiet).ok hb).2

theorem ok_bind {α β : Type} {x : M β} {f : β → M α} {a : α} (h : (x >>= f) s = .ok a s') :
    ∃ b s₁, x s = .ok b s₁ ∧ f b s₁ = .ok a s' := by
  simp only [bind, EStateM.bind] at h
  cases hx : x s with
  | ok b s₁ => exact ⟨b, s₁, rfl, by simpa only [hx] using h⟩
  | error e s₁ => simp [hx] at h

/-- A run that completes shows what the specification computes. -/
theorem Sees.run {α : Type} (p : Prog start size α) : ∀ (s : Store) (t : Nat → Block) (a : α)
    (s' : Store), Sees start size s t → p.run s = .ok a s' →
    a = (p.spec t).1 ∧ Sees start size s' (p.spec t).2 := by
  induction p with
  | done a =>
    intro s t b s' h hr
    cases hr
    exact ⟨rfl, h⟩
  | bread b k ih =>
    intro s t a s' h hr
    obtain ⟨d, s₁, hb, hr⟩ := ok_bind hr
    obtain ⟨rfl, h1⟩ := h.bread b hb
    exact ih _ s₁ t a s' h1 hr
  | logWrite b d k ih =>
    intro s t a s' h hr
    obtain ⟨_, s₁, hb, hr⟩ := ok_bind hr
    exact ih s₁ _ a s' (h.logWrite b hb) hr
  | brelse b k ih =>
    intro s t a s' h hr
    obtain ⟨_, s₁, hb, hr⟩ := ok_bind hr
    exact ih s₁ t a s' (h.brelse hb) hr
  | beginOp k ih =>
    intro s t a s' h hr
    obtain ⟨_, s₁, hb, hr⟩ := ok_bind hr
    exact ih s₁ t a s' (h.beginOp hb) hr
  | endOp k ih =>
    intro s t a s' h hr
    obtain ⟨_, s₁, hb, hr⟩ := ok_bind hr
    exact ih s₁ t a s' (h.endOp hb) hr
  | sync k ih =>
    intro s t a s' h hr
    obtain ⟨_, s₁, hb, hr⟩ := ok_bind hr
    exact ih s₁ t a s' (h.sync hb) hr

theorem Runs.sees {s₀ : Store} (h : Runs start size s₀ s) (h0 : Sees start size s₀ t) :
    ∃ t', Sees start size s t' := by
  induction h with
  | refl => exact ⟨t, h0⟩
  | bread b _ hb ih => obtain ⟨t', h'⟩ := ih; exact ⟨t', (h'.bread b hb).2⟩
  | logWrite b _ hb ih => obtain ⟨t', h'⟩ := ih; exact ⟨_, h'.logWrite b hb⟩
  | brelse b _ hb ih => obtain ⟨t', h'⟩ := ih; exact ⟨t', h'.brelse hb⟩
  | beginOp _ hb ih => obtain ⟨t', h'⟩ := ih; exact ⟨t', h'.beginOp hb⟩
  | endOp _ hb ih => obtain ⟨t', h'⟩ := ih; exact ⟨t', h'.endOp hb⟩
  | sync _ hb ih => obtain ⟨t', h'⟩ := ih; exact ⟨t', h'.sync hb⟩

/-- The states along a program are those of a process that makes its calls. -/
theorem Prog.runs {α : Type} (p : Prog start size α) (s₀ : Store) : ∀ (s : Store) (a : α)
    (s' : Store), Runs start size s₀ s → p.run s = .ok a s' → Runs start size s₀ s' := by
  induction p with
  | done a =>
    intro s b s' h hr
    cases hr
    exact h
  | bread b k ih =>
    intro s a s' h hr
    obtain ⟨d, s₁, hb, hr⟩ := ok_bind hr
    exact ih d s₁ a s' (h.bread b hb) hr
  | logWrite b d k ih =>
    intro s a s' h hr
    obtain ⟨_, s₁, hb, hr⟩ := ok_bind hr
    exact ih s₁ a s' (h.logWrite b hb) hr
  | brelse b k ih =>
    intro s a s' h hr
    obtain ⟨_, s₁, hb, hr⟩ := ok_bind hr
    exact ih s₁ a s' (h.brelse b hb) hr
  | beginOp k ih =>
    intro s a s' h hr
    obtain ⟨_, s₁, hb, hr⟩ := ok_bind hr
    exact ih s₁ a s' (h.beginOp hb) hr
  | endOp k ih =>
    intro s a s' h hr
    obtain ⟨_, s₁, hb, hr⟩ := ok_bind hr
    exact ih s₁ a s' (h.endOp hb) hr
  | sync k ih =>
    intro s a s' h hr
    obtain ⟨_, s₁, hb, hr⟩ := ok_bind hr
    exact ih s₁ a s' (h.sync hb) hr

end Calls

/-- From the start of the kernel on: no flush is seen, and what completes has the
result and the blocks of the specification. The log on the disk names blocks
outside the log area, and no more than fit there. -/
theorem flush_invisible (start size : Nat) (d : Nat → Block) (s₀ : Store)
    (hhome : ∀ b ∈ (d start).header, Home start (size - 1) b)
    (hroom : (d start).header.length ≤ size - 1)
    (h0 : recoverFromLog (reboot start size d) = .ok () s₀) :
    (∀ s, Runs start size s₀ s → ∀ s',
      (s.needsFlush = true ∧ bgetFlush s = .ok () s') ∨ (∃ n, sysSync s = .ok n s') →
      Unseen s s') ∧
    (∀ (α : Type) (p : Prog start size α) (a : α) (s' : Store), p.run s₀ = .ok a s' →
      Runs start size s₀ s' ∧ a = (p.spec s₀.view).1 ∧
        ∀ x, Home start (size - 1) x → s'.view x = (p.spec s₀.view).2 x) := by
  obtain ⟨-, -, hq, hst, hsz, -⟩ := (wp_recoverFromLog size hhome hroom).ok h0
  have hsees : Sees start size s₀ s₀.view := ⟨hq, fun _ _ => rfl, hst, hsz⟩
  constructor
  · intro s hs s' hf
    obtain ⟨t, ht⟩ := hs.sees hsees
    rcases hf with ⟨-, hf⟩ | ⟨n, hf⟩
    · exact ((wp_bgetFlush ht.quiet).ok hf).unseen
    · exact ((wp_sysSync ht.quiet).ok hf).2.unseen
  · intro α p a s' hr
    obtain ⟨ha, h'⟩ := hsees.run p s₀ s₀.view a s' hr
    exact ⟨p.runs s₀ s₀ a s' .refl hr, ha, h'.view⟩

/-- Block 20 is read, given the word 7 and read again. -/
def writeOnce : Prog 2 10 Nat :=
  let b : HomeBlock 2 10 := ⟨20, by decide⟩
  .bread b fun d => .logWrite b (d.setWord 0 7) (.brelse b (.sync (.bread b fun d => .done (d.word 0))))

theorem flush_invisible_writeOnce : ∃ s₀ s' a,
    recoverFromLog (reboot 2 10 (fun _ => Block.zero)) = .ok () s₀ ∧ writeOnce.run s₀ = .ok a s' ∧
      a = (writeOnce.spec s₀.view).1 := by
  have hrun : (match recoverFromLog (reboot 2 10 (fun _ => Block.zero)) with
      | .ok _ s₀ =>
        match writeOnce.run s₀ with
        | .ok _ _ => true
        | .error _ _ => false
      | .error _ _ => false) = true := by
    decide +kernel
  cases h0 : recoverFromLog (reboot 2 10 (fun _ => Block.zero)) with
  | error e s₀ => rw [h0] at hrun; cases hrun
  | ok u s₀ =>
    rw [h0] at hrun
    simp only at hrun
    cases h1 : writeOnce.run s₀ with
    | error e s' => rw [h1] at hrun; cases hrun
    | ok a s' =>
      have hinv := flush_invisible 2 10 (fun _ => Block.zero) s₀ (by decide) (by decide) h0
      exact ⟨s₀, s', a, rfl, h1, (hinv.2 Nat writeOnce a s' h1).2.1⟩

end Xv6.Fs
