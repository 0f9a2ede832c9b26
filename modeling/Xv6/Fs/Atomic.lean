import Xv6.Fs.Refine

/- Crashes of runs of operations (`project3_filesystem/log.c`, `bio.c`).

   An operation reads blocks, logs some of them and gives them back, between `begin_op`
   and `end_op`; a run is operations and calls of `sync` one after the other. `bread`
   flushes when few buffers are left. It does not look at `log.outstanding`, so that the
   flush commits what the operation under way has logged so far, and a crash behind it
   shows a part of the operation.

   A crash after any write of the disk shows the first operations completely and
   nothing of the others in the runs in which no operation flushes between two of its
   `log_write`s (`crash_shows_prefix`). -/
namespace Xv6.Fs

open Lib (wp)
open Lib.RedoLog (Home upd applyWrites applyWrites_append Recoverable recoverable_of_empty)

/-- What an operation does between `begin_op` and `end_op`. -/
inductive Op (start size : Nat) where
  | done
  | bread (b : HomeBlock start size) (k : Block → Op start size)
  | logWrite (b : HomeBlock start size) (d : Block) (k : Op start size)
  | brelse (b : HomeBlock start size) (k : Op start size)

inductive FsCall (start size : Nat) where
  | op (o : Op start size)
  | sync

section Calls

variable {start size : Nat}

namespace Op

def run : Op start size → M Unit
  | done => pure ()
  | bread b k => do run (k (← Fs.bread b.val))
  | logWrite b d k => do Fs.logWrite b.val d; run k
  | brelse b k => do Fs.brelse b.val; run k

/-- What the operation makes of the blocks. -/
def blocks : Op start size → (Nat → Block) → Nat → Block
  | done, t => t
  | bread b k, t => blocks (k (t b.val)) t
  | logWrite b d k, t => blocks k (upd t b.val d)
  | brelse _ k, t => blocks k t

/-- The operation logs nothing, on the blocks `t`. -/
def ReadsOnly : Op start size → (Nat → Block) → Prop
  | done, _ => True
  | bread b k, t => ReadsOnly (k (t b.val)) t
  | logWrite _ _ _, _ => False
  | brelse _ k, t => ReadsOnly k t

/-- No `bread` of the operation flushes between two of its `log_write`s; `logged`: there
has been one. -/
def FlushesApart : Op start size → Bool → Store → Prop
  | done, _, _ => True
  | bread b k, logged, s =>
    (s.needsFlush = true → logged = true → ReadsOnly (k (s.view b.val)) s.view) ∧
    ∀ d s', Fs.bread b.val s = .ok d s' → FlushesApart (k d) logged s'
  | logWrite b d k, _, s => ∀ s', Fs.logWrite b.val d s = .ok () s' → FlushesApart k true s'
  | brelse b k, logged, s => ∀ s', Fs.brelse b.val s = .ok () s' → FlushesApart k logged s'

end Op

namespace FsCall

def run : FsCall start size → M Unit
  | op o => do beginOp; o.run; endOp
  | sync => do let _ ← sysSync

def blocks : FsCall start size → (Nat → Block) → Nat → Block
  | op o, t => o.blocks t
  | sync, t => t

def FlushesApart : FsCall start size → Store → Prop
  | op o, s => ∀ s', beginOp s = .ok () s' → o.FlushesApart false s'
  | sync, _ => True

end FsCall

def runCalls : List (FsCall start size) → M Unit
  | [] => pure ()
  | c :: cs => do c.run; runCalls cs

/-- The blocks after the calls, each of them complete. -/
def blocksAfter : List (FsCall start size) → (Nat → Block) → Nat → Block
  | [], t => t
  | c :: cs, t => blocksAfter cs (c.blocks t)

/-- In no operation of the run a `bread` flushes between two `log_write`s. -/
def FlushesApart : List (FsCall start size) → Store → Prop
  | [], _ => True
  | c :: cs, s => c.FlushesApart s ∧ ∀ s', c.run s = .ok () s' → FlushesApart cs s'

end Calls

/-! ## What a crash shows -/

/-- One of the `T`, outside the log area. -/
def Shown (s₀ : Store) (T : Set (Nat → Block)) (t : Nat → Block) : Prop :=
  ∃ u ∈ T, ∀ x, Home s₀.start (s₀.size - 1) x → t x = u x

/-- Whatever has been written since `s₀` when it crashes, the recovery shows one of
the `T`. -/
def CrashSafe (s₀ : Store) (T : Set (Nat → Block)) (s : Store) : Prop :=
  ∃ ws, s.writes = s₀.writes ++ ws ∧ s.disk = applyWrites s₀.disk ws ∧
    ∀ k, ∃ t, Shown s₀ T t ∧
      Recoverable s₀.start (s₀.size - 1) Block.header (applyWrites s₀.disk (ws.take k)) t

structure Safe (s₀ : Store) (T : Set (Nat → Block)) (s : Store) : Prop where
  crash : CrashSafe s₀ T s
  disk : Shown s₀ T s.disk

section Safe

variable {s₀ s s' : Store} {T : Set (Nat → Block)} {u : Nat → Block}

theorem CrashSafe.still (h : CrashSafe s₀ T s) (hw : s'.writes = s.writes) (hd : s'.disk = s.disk) :
    CrashSafe s₀ T s' := by
  obtain ⟨ws, hws, hdisk, hk⟩ := h
  exact ⟨ws, hw.trans hws, hd.trans hdisk, hk⟩

theorem Safe.still (h : Safe s₀ T s) (hw : s'.writes = s.writes) (hd : s'.disk = s.disk) :
    Safe s₀ T s' := ⟨h.crash.still hw hd, hd ▸ h.disk⟩

/-- A part of a commit: it shows what the disk had, or what the cache has. -/
theorem Safe.cut (h : Safe s₀ T s) (hs : Sees s₀.start s₀.size s u) (hu : u ∈ T)
    {vs : List (Nat × Block)} (hvs : vs <+: s.commitTrace) (hw : s'.writes = s.writes ++ vs)
    (hd : s'.disk = applyWrites s.disk vs) : CrashSafe s₀ T s' := by
  obtain ⟨ws, hws, hdisk, hk⟩ := h.crash
  refine ⟨ws ++ vs, ?_, ?_, fun k => ?_⟩
  · rw [hw, hws, List.append_assoc]
  · rw [hd, hdisk, applyWrites_append]
  · rcases Nat.le_total k ws.length with hle | hle
    · rw [List.take_append_of_le_length hle]
      exact hk k
    · obtain ⟨m, rfl⟩ := Nat.exists_eq_add_of_le hle
      rw [List.take_length_add_append, applyWrites_append, ← hdisk]
      obtain ⟨hnew, hold⟩ := hs.quiet.toLogged.recoverable hvs m
      rw [hs.logStart, hs.logSize] at hnew hold
      by_cases hh : HeaderWritten s₀.start vs m
      · exact ⟨s.view, ⟨u, hu, hs.view⟩, hnew hh⟩
      · exact ⟨s.disk, h.disk, hold hh⟩

theorem Safe.committed (h : Safe s₀ T s) (hs : Sees s₀.start s₀.size s u) (hu : u ∈ T)
    (hc : Committed s s') : Safe s₀ T s' := by
  have hw : s'.writes = s.writes ++ s.commitTrace := by rw [hc.rest]
  have hd : s'.disk = applyWrites s.disk s.commitTrace := by rw [hc.rest]
  refine ⟨h.cut hs hu (List.prefix_refl _) hw hd, u, hu, fun x hx => ?_⟩
  have hview := hc.view x (by rw [hs.logStart, hs.logSize]; exact hx)
  calc s'.disk x = s'.view x := hc.disk_view x
    _ = s.view x := hview
    _ = u x := hs.view x hx

theorem Safe.flushed (h : Safe s₀ T s) (hs : Sees s₀.start s₀.size s u) (hu : u ∈ T)
    (hf : Flushed s s') : Safe s₀ T s' := by
  have h1 : Safe s₀ T { s with flushes := s.flushes ++ [{ held := s.held, lh := s.lh }] } :=
    h.still rfl rfl
  exact h1.committed ⟨hs.quiet.flushes _, hs.view, hs.logStart, hs.logSize⟩ hu hf

theorem Safe.broke (h : Safe s₀ T s) (hs : Sees s₀.start s₀.size s u) (hu : u ∈ T) {B : Set Nat}
    {e : Fault} (hb : Broke s B s.commitTrace e s') : CrashSafe s₀ T s' := by
  obtain ⟨vs, hvs, hd, hw, -⟩ := hb.cut
  exact h.cut hs hu hvs hw hd

/-- `bread`; if it flushes, `u` is one of the `T`. -/
theorem Safe.bread (h : Safe s₀ T s) (hs : Sees s₀.start s₀.size s u)
    (hu : s.needsFlush = true → u ∈ T) (b : HomeBlock s₀.start s₀.size) :
    wp (Fs.bread b.val)
      (fun d s' => d = u b.val ∧ Sees s₀.start s₀.size s' u ∧ Safe s₀ T s')
      (fun _ s' => CrashSafe s₀ T s') s := by
  apply (wp_bread hs.quiet).mono
  · rintro d s' (⟨-, hg⟩ | ⟨hn, s₁, hf, hg⟩)
    · obtain ⟨hd, hs'⟩ := hs.got b.property.1 hg
      exact ⟨hd, hs', h.still (by rw [hg.rest]) (by rw [hg.rest])⟩
    · obtain ⟨hd, hs'⟩ := (hs.flushed hf).got b.property.1 hg
      exact ⟨hd, hs', (h.flushed hs (hu hn) hf).still (by rw [hg.rest]) (by rw [hg.rest])⟩
  · rintro e s' (⟨-, hb⟩ | ⟨hn, hb | ⟨s₁, hf, hb⟩⟩)
    · exact h.crash.still (by rw [hb.rest]) (by rw [hb.rest])
    · have h1 : Safe s₀ T { s with flushes := s.flushes ++ [{ held := s.held, lh := s.lh }] } :=
        h.still rfl rfl
      exact h1.broke ⟨hs.quiet.flushes _, hs.view, hs.logStart, hs.logSize⟩ (hu hn) hb
    · exact (h.flushed hs (hu hn) hf).crash.still (by rw [hb.rest]) (by rw [hb.rest])

theorem logWrite_error {b : Nat} {d : Block} {e : Fault} (h : Fs.logWrite b d s = .error e s') :
    s' = s := by
  unfold Fs.logWrite at h
  split at h
  · split at h
    · split at h
      · cases h
        rfl
      · cases h
    · cases h
      rfl
  · cases h
    rfl

theorem brelse_error {b : Nat} {e : Fault} (h : Fs.brelse b s = .error e s') : s' = s := by
  unfold Fs.brelse at h
  split at h
  · split at h
    · split at h <;> cases h
    · cases h
      rfl
  · cases h
    rfl

/-- The `log_write` of an operation. -/
theorem Safe.logWrite (h : Safe s₀ T s) (hs : Sees s₀.start s₀.size s u)
    (b : HomeBlock s₀.start s₀.size) (d : Block) :
    wp (Fs.logWrite b.val d)
      (fun _ s' => Sees s₀.start s₀.size s' (upd u b.val d) ∧ Safe s₀ T s')
      (fun _ s' => CrashSafe s₀ T s') s := by
  unfold wp
  cases hx : Fs.logWrite b.val d s with
  | ok a s' =>
    have hw := (wp_logWrite hs.quiet.coh (held_of_logWrite hx)).ok hx
    exact ⟨hs.logWrite b hx, h.still (by rw [hw.rest]) (by rw [hw.rest])⟩
  | error e s' =>
    rw [logWrite_error hx]
    exact h.crash

theorem Safe.brelse (h : Safe s₀ T s) (hs : Sees s₀.start s₀.size s u) (b : Nat) :
    wp (Fs.brelse b) (fun _ s' => Sees s₀.start s₀.size s' u ∧ Safe s₀ T s')
      (fun _ s' => CrashSafe s₀ T s') s := by
  unfold wp
  cases hx : Fs.brelse b s with
  | ok a s' =>
    have hr := (wp_brelse (E := fun _ _ => True) hs.quiet.coh (held_of_brelse hx)).ok hx
    exact ⟨hs.brelse hx, h.still (by rw [hr.rest]) (by rw [hr.rest])⟩
  | error e s' =>
    rw [brelse_error hx]
    exact h.crash

/-- A call followed by the rest of a run, of which something is known in the state the
call ends in. -/
theorem wp_seq {α β : Type} {x : M α} {f : α → M β} {P : α → Store → Prop} {Q : β → Store → Prop}
    {E : Fault → Store → Prop} (h : wp x P E s)
    (hf : ∀ a s', x s = .ok a s' → P a s' → wp (f a) Q E s') : wp (x >>= f) Q E s := by
  apply Lib.wp_bind
  unfold wp at h ⊢
  cases hx : x s with
  | ok a s' =>
    rw [hx] at h
    exact hf a s' hx h
  | error e s' =>
    rw [hx] at h
    exact h

theorem Op.ReadsOnly.blocks {start size : Nat} {o : Op start size} {t : Nat → Block}
    (h : o.ReadsOnly t) : o.blocks t = t := by
  induction o with
  | done => rfl
  | bread b k ih => exact ih _ h
  | logWrite b d k _ => exact h.elim
  | brelse b k ih => exact ih h

/-- An operation sees the blocks outside the log area only. -/
theorem Op.ReadsOnly.congr {start size : Nat} {o : Op start size} {t u : Nat → Block}
    (h : o.ReadsOnly t) (ht : ∀ x, Home start (size - 1) x → t x = u x) : o.ReadsOnly u := by
  induction o with
  | done => trivial
  | bread b k ih =>
    apply ih (u b.val)
    rw [← ht b.val b.property.1]
    exact h
  | logWrite b d k _ => exact h.elim
  | brelse b k ih => exact ih h

/-- An operation: it has logged nothing, or logs nothing more when it flushes. -/
theorem Safe.op (o : Op s₀.start s₀.size) : ∀ (logged : Bool) (s : Store) (u : Nat → Block),
    Safe s₀ T s → Sees s₀.start s₀.size s u → (logged = false → u ∈ T) → o.blocks u ∈ T →
    o.FlushesApart logged s →
    wp o.run (fun _ s' => Sees s₀.start s₀.size s' (o.blocks u) ∧ Safe s₀ T s')
      (fun _ s' => CrashSafe s₀ T s') s := by
  induction o with
  | done =>
    intro logged s u h hs _ _ _
    exact ⟨hs, h⟩
  | bread b k ih =>
    intro logged s u h hs hu hdone hf
    have hflush : s.needsFlush = true → u ∈ T := by
      intro hn
      cases logged with
      | false => exact hu rfl
      | true =>
        have hreads : (Op.bread b k).ReadsOnly u := Op.ReadsOnly.congr (hf.1 hn rfl) hs.view
        rw [← hreads.blocks]
        exact hdone
    apply wp_seq (h.bread hs hflush b)
    intro d s' hx ⟨hd, hs', h'⟩
    have hrun := ih d logged s' u h' hs' hu (hd ▸ hdone) (hf.2 d s' hx)
    rw [hd] at hrun ⊢
    exact hrun
  | logWrite b d k ih =>
    intro logged s u h hs _ hdone hf
    apply wp_seq (h.logWrite hs b d)
    intro a s' hx ⟨hs', h'⟩
    exact ih true s' _ h' hs' (fun hc => by cases hc) hdone (hf s' hx)
  | brelse b k ih =>
    intro logged s u h hs hu hdone hf
    apply wp_seq (h.brelse hs b.val)
    intro a s' hx ⟨hs', h'⟩
    exact ih logged s' u h' hs' hu hdone (hf s' hx)

theorem Safe.beginOp (h : Safe s₀ T s) (hs : Sees s₀.start s₀.size s u) :
    wp Fs.beginOp (fun _ s' => Sees s₀.start s₀.size s' u ∧ Safe s₀ T s')
      (fun _ s' => CrashSafe s₀ T s') s := by
  unfold wp
  rw [hs.quiet.beginOp_run]
  exact ⟨hs.outstanding _, h.still rfl rfl⟩

theorem Safe.endOp (h : Safe s₀ T s) (hs : Sees s₀.start s₀.size s u) :
    wp Fs.endOp (fun _ s' => Sees s₀.start s₀.size s' u ∧ Safe s₀ T s')
      (fun _ s' => CrashSafe s₀ T s') s := by
  unfold wp
  rw [hs.quiet.endOp_run]
  exact ⟨hs.outstanding _, h.still rfl rfl⟩

theorem Safe.call (h : Safe s₀ T s) (hs : Sees s₀.start s₀.size s u) (hu : u ∈ T)
    (c : FsCall s₀.start s₀.size) (hdone : c.blocks u ∈ T) (hf : c.FlushesApart s) :
    wp c.run (fun _ s' => Sees s₀.start s₀.size s' (c.blocks u) ∧ Safe s₀ T s')
      (fun _ s' => CrashSafe s₀ T s') s := by
  cases c with
  | op o =>
    apply wp_seq (h.beginOp hs)
    intro _ s₁ hx ⟨hs₁, h₁⟩
    apply wp_seq (Safe.op o false s₁ u h₁ hs₁ (fun _ => hu) hdone (hf s₁ hx))
    intro _ s₂ _ ⟨hs₂, h₂⟩
    exact h₂.endOp hs₂
  | sync =>
    apply Lib.wp_bind
    apply (wp_sysSync hs.quiet).mono
    · intro n s' ⟨_, hc⟩
      exact ⟨hs.committed hc, h.committed hs hu hc⟩
    · intro e s' hb
      exact h.broke hs hu hb

/-- The run: after each call the store shows the blocks of the calls so far. -/
theorem Safe.calls (cs : List (FsCall s₀.start s₀.size)) : ∀ (s : Store) (u : Nat → Block),
    Safe s₀ T s → Sees s₀.start s₀.size s u → (∀ j, blocksAfter (cs.take j) u ∈ T) →
    FlushesApart cs s →
    wp (runCalls cs) (fun _ s' => CrashSafe s₀ T s') (fun _ s' => CrashSafe s₀ T s') s := by
  induction cs with
  | nil =>
    intro s u h _ _ _
    exact h.crash
  | cons c cs ih =>
    intro s u h hs hT hf
    apply wp_seq (h.call hs (hT 0) c (hT 1) hf.1)
    intro _ s' hx ⟨hs', h'⟩
    exact ih s' _ h' hs' (fun j => hT (j + 1)) (hf.2 s' hx)

end Safe

/-- From the start of the kernel on, with any number of crashes: after a crash behind any
write of the disk, recovery shows the first operations of the run completely and nothing
of the others, if no operation flushes between two of its `log_write`s. -/
theorem crash_shows_prefix (start size : Nat) (d : Nat → Block) (s₀ : Store)
    (hhome : ∀ b ∈ (d start).header, Home start (size - 1) b)
    (hroom : (d start).header.length ≤ size - 1)
    (h0 : recoverFromLog (reboot start size d) = .ok () s₀) (cs : List (FsCall start size))
    (hf : FlushesApart cs s₀) (k : Nat) (d' : Nat → Block)
    (hc : Crashes start size (applyWrites s₀.disk ((issued (runCalls cs) s₀).take k)) d') :
    ∃ t, recoverFromLog (reboot start size d') = .ok () t ∧
      ∃ j, j ≤ cs.length ∧
        ∀ x, Home start (size - 1) x → t.disk x = blocksAfter (cs.take j) s₀.view x := by
  obtain ⟨-, -, hq, rfl, rfl, hlh, -⟩ := (wp_recoverFromLog size hhome hroom).ok h0
  have hsees : Sees s₀.start s₀.size s₀ s₀.view := ⟨hq, fun _ _ => rfl, rfl, rfl⟩
  -- the blocks after each of the calls
  let T : Set (Nat → Block) := { u | ∃ j, j ≤ cs.length ∧ u = blocksAfter (cs.take j) s₀.view }
  have hT : ∀ j, blocksAfter (cs.take j) s₀.view ∈ T := by
    intro j
    rcases Nat.le_total j cs.length with hj | hj
    · exact ⟨j, hj, rfl⟩
    · exact ⟨cs.length, Nat.le_refl _, by rw [List.take_of_length_le hj, List.take_length]⟩
  have hdisk : Shown s₀ T s₀.disk := by
    refine ⟨s₀.view, hT 0, fun x _ => ?_⟩
    symm
    apply hq.coh.view_clean
    rw [hq.dirty, hlh]
    exact List.not_mem_nil
  have hsafe : Safe s₀ T s₀ := by
    refine ⟨⟨[], (List.append_nil _).symm, rfl, fun k => ⟨s₀.disk, hdisk, ?_⟩⟩, hdisk⟩
    rw [List.take_nil]
    exact recoverable_of_empty hq.head (fun _ _ => rfl)
  obtain ⟨ws, hws, -, hk⟩ := after_of_wp (Safe.calls cs s₀ s₀.view hsafe hsees hT hf)
  have hissued : issued (runCalls cs) s₀ = ws := by
    unfold issued
    rw [hws, List.drop_left]
  rw [hissued] at hc
  obtain ⟨t, ⟨u, ⟨j, hj, rfl⟩, ht⟩, hrec⟩ := hk k
  obtain ⟨r, hr, -, hhomes⟩ := recoverFromLog_ok hrec hc
  refine ⟨r, hr, j, hj, fun x hx => ?_⟩
  rw [hhomes x hx]
  exact ht x hx

/-- Each of the blocks is read, filled with ones and given back. -/
def setOnes {start size : Nat} : List (HomeBlock start size) → Op start size
  | [] => .done
  | b :: bs => .bread b fun _ => .logWrite b (fun _ => 1) (.brelse b (setOnes bs))

/-- Block `100 + i`, behind a log in blocks 2 to 61. -/
def farBlock (i : Fin 200) : HomeBlock 2 60 := ⟨100 + i.val, by unfold Home; omega, by omega⟩

/-- The operation is on the disk when the run ends, whatever it is that crashes. -/
theorem crash_shows_prefix_setOne : ∃ s₀ t,
    recoverFromLog (reboot 2 60 fun _ => Block.zero) = .ok () s₀ ∧
    recoverFromLog (reboot 2 60 (applyWrites s₀.disk
      ((issued (runCalls [.op (setOnes [farBlock 0]), .sync]) s₀).take 2))) = .ok () t ∧
    ∃ j, j ≤ 2 ∧ ∀ x, Home 2 59 x →
      t.disk x = blocksAfter (List.take j [.op (setOnes [farBlock 0]), .sync]) s₀.view x := by
  cases h0 : recoverFromLog (reboot 2 60 fun _ => Block.zero) with
  | error e s₀ =>
    have hw : wp recoverFromLog _ _ (reboot 2 60 fun _ => Block.zero) :=
      wp_recoverFromLog 60 (by decide) (by decide)
    exact (hw.error h0).elim
  | ok a s₀ =>
    have hflushes : FlushesApart [.op (setOnes [farBlock 0]), .sync] s₀ := by
      refine ⟨fun s _ => ⟨fun _ hlogged => (nomatch hlogged), ?_⟩,
        fun s _ => ⟨trivial, fun _ _ => trivial⟩⟩
      intro d s₁ _ s₂ _ s₃ _
      trivial
    obtain ⟨t, ht, hj⟩ := crash_shows_prefix 2 60 (fun _ => Block.zero) s₀ (by decide) (by decide) h0
      [.op (setOnes [farBlock 0]), .sync] hflushes 2 _ .refl
    exact ⟨s₀, t, rfl, ht, hj⟩

/-- Forty-seven operations log a block each, and the last one two. Before it reads the
second of them, two buffers are left. -/
def fullCache : List (FsCall 2 60) :=
  (List.finRange 47).map (fun i => .op (setOnes [farBlock (i.castLE (by decide))])) ++
    [.op (setOnes [farBlock 100, farBlock 101])]

/-- The disk behind the flush in the last operation. -/
def fullCacheDisk (s₀ : Store) : Nat → Block :=
  applyWrites s₀.disk ((issued (runCalls fullCache) s₀).take 98)

/-- The flush in the last operation commits its first block. A crash behind it shows
that block with its new contents and the other one with its old ones. -/
theorem half_operation_shown : ∃ s₀ t,
    recoverFromLog (reboot 2 60 fun _ => Block.zero) = .ok () s₀ ∧
    recoverFromLog (reboot 2 60 (fullCacheDisk s₀)) = .ok () t ∧
    t.disk 200 0 = 1 ∧ t.disk 201 0 = 0 ∧
    ∀ j, j ≤ fullCache.length →
      ¬ ∀ x, Home 2 59 x → t.disk x = blocksAfter (fullCache.take j) s₀.view x := by
  have hrun : (match recoverFromLog (reboot 2 60 fun _ => Block.zero) with
      | .ok _ s₀ =>
        decide ((fullCacheDisk s₀ 2).header = [] ∧ fullCacheDisk s₀ 200 0 = 1 ∧
          fullCacheDisk s₀ 201 0 = 0) &&
        decide ((∀ j : Fin 48, blocksAfter (fullCache.take j.val) s₀.view 200 0 = 0) ∧
          blocksAfter fullCache s₀.view 201 0 = 1)
      | .error _ _ => false) = true := by
    decide +kernel
  cases h0 : recoverFromLog (reboot 2 60 fun _ => Block.zero) with
  | error e s₀ => rw [h0] at hrun; cases hrun
  | ok a s₀ =>
    rw [h0] at hrun
    obtain ⟨hshown, hblocks⟩ := Bool.and_eq_true_iff.mp hrun
    obtain ⟨hhead, h200, h201⟩ := of_decide_eq_true hshown
    obtain ⟨hbefore, hafter⟩ := of_decide_eq_true hblocks
    have hrec : Recoverable 2 59 Block.header (fullCacheDisk s₀) (fullCacheDisk s₀) :=
      recoverable_of_empty hhead (fun _ _ => rfl)
    obtain ⟨t, ht, -, hdisk⟩ := recoverFromLog_ok (hrec : Recoverable 2 (60 - 1) _ _ _)
      (.refl : Crashes 2 60 (fullCacheDisk s₀) _)
    have ht200 : t.disk 200 0 = 1 := by rw [hdisk 200 (by decide)]; exact h200
    have ht201 : t.disk 201 0 = 0 := by rw [hdisk 201 (by decide)]; exact h201
    refine ⟨s₀, t, rfl, ht, ht200, ht201, fun j hj hall => ?_⟩
    rcases Nat.lt_or_ge j 48 with hlt | hge
    · -- without the last operation, the first of its blocks is as it was
      have hold := hbefore ⟨j, hlt⟩
      change blocksAfter (fullCache.take j) s₀.view 200 0 = 0 at hold
      rw [← hall 200 (by decide), ht200] at hold
      exact absurd hold (by decide)
    · have hlen : fullCache.length ≤ j := hge
      rw [List.take_of_length_le hlen] at hall
      rw [← hall 201 (by decide), ht201] at hafter
      exact absurd hafter (by decide)

end Xv6.Fs
