import Xv6.Fs.Commit

/- Crashes of a commit, and of the recovery after it. A crash leaves the disk after
   some of the writes; the next boot runs `recover_from_log`, and may crash as well
   (`Crashes`). Whatever happens, the first recovery that completes leaves the home
   blocks as they were before the commit, or as the cache had them, and the write of
   the header decides which. -/
namespace Xv6.Fs

open Lib (wp)
open Lib.RedoLog

/-- The state a call ends in, whether it returns or not. -/
def after {α : Type} (x : M α) (s : Store) : Store :=
  match x s with
  | .ok _ s' => s'
  | .error _ s' => s'

/-- The writes a call issues. -/
def issued {α : Type} (x : M α) (s : Store) : List (Nat × Block) :=
  (after x s).writes.drop s.writes.length

/-- The disks that any number of crashed recoveries can leave. -/
inductive Crashes (start size : Nat) (d : Nat → Block) : (Nat → Block) → Prop where
  | refl : Crashes start size d d
  | crash {d' : Nat → Block} (k : Nat) : Crashes start size d d' →
    Crashes start size d
      (applyWrites d' ((issued recoverFromLog (reboot start size d')).take k))

/-! ## Recovery -/

section Recover

variable {start size : Nat} {d : Nat → Block}

theorem reboot_find (b : Nat) : (reboot start size d).find b = none := by
  refine List.find?_eq_none.mpr (fun x hx => ?_)
  rw [List.eq_of_mem_replicate hx]
  simp

theorem reboot_coherent : Coherent (reboot start size d) := by
  refine ⟨?_, ?_, ?_, ?_, ?_, ?_⟩
  · have hnone : (reboot start size d).bufs.filterMap (·.blockno) = [] := by
      refine List.filterMap_eq_nil_iff.mpr (fun x hx => ?_)
      rw [List.eq_of_mem_replicate hx]
    rw [hnone]
    exact List.nodup_nil
  · exact List.length_replicate
  · intro b x hx
    rw [reboot_find] at hx
    cases hx
  · intro x hx
    rw [List.eq_of_mem_replicate hx]
    rfl
  · intro x hx _
    rw [List.eq_of_mem_replicate hx]
    exact ⟨rfl, rfl⟩
  · intro b x hx
    rw [reboot_find] at hx
    cases hx

theorem reboot_locked : (reboot start size d).lockedSet = ∅ := by
  refine Set.eq_empty_of_forall_notMem (fun b hb => ?_)
  obtain ⟨x, hx, -⟩ := hb
  rw [reboot_find] at hx
  cases hx

theorem reboot_dirty : (reboot start size d).dirtySet = ∅ := by
  refine Set.eq_empty_of_forall_notMem (fun b hb => ?_)
  obtain ⟨x, hx, -⟩ := hb
  rw [reboot_find] at hx
  cases hx

theorem reboot_view : (reboot start size d).view = d := by
  funext b
  exact Store.view_of_none (reboot_find b)

/-- With nothing held and nothing dirty, no call faults. -/
theorem Broke.absurd {s s' : Store} {B : Set Nat} {ws : List (Nat × Block)} {e : Fault}
    (h : Broke s B ws e s') (hl : s.lockedSet = ∅) (hd : s.dirtySet = ∅) : False := by
  rcases h.cause with ⟨b, -, -, hb⟩ | ⟨-, hn⟩
  · rw [hl] at hb
    exact hb
  · refine hn ⟨[], by decide, ?_, ?_⟩
    · rw [hl]; simp
    · rw [hd]; simp

/-- `read_head`. -/
theorem wp_readHead {s : Store} (h : Coherent s) (hl : s.lockedSet = ∅) (hd : s.dirtySet = ∅) :
    wp (readHead bread)
      (fun _ s' => ∃ s₁, Ran s [] s₁ ∧ s' = { s₁ with lh := (s.view s.start).header })
      (fun _ _ => False) s := by
  have hcalm : Calm s := .inr ⟨hl, hd⟩
  refine Lib.wp_get ?_
  refine (wp_breadWith h (hcalm.needsFlush h)).bind
    (fun e s' hs => (hs.broke h).absurd hl hd) (fun x s₁ h1 => ?_)
  refine Lib.wp_modify ?_
  obtain ⟨e, he⟩ : ∃ e, e = { s₁ with lh := x.header } := ⟨_, rfl⟩
  have hlocked : e.lockedSet = {s.start} := by
    rw [he]
    exact h1.locked.trans (by rw [hl]; simp)
  rw [← he]
  have hcoh : Coherent e := h1.coh.congr (by rw [he]) (by rw [he])
  refine (wp_brelse hcoh (by rw [hlocked]; rfl)).mono (fun _ s₂ h2 => ?_) (fun _ _ hF => hF)
  refine ⟨{ s₂ with lh := s.lh }, ⟨h2.coh.congr rfl rfl, ?_, ?_, ?_, ?_⟩, ?_⟩
  · refine h2.view.trans ?_
    rw [he]
    exact h1.view
  · refine h2.locked.trans ?_
    rw [hlocked, hl]
    simp
  · refine h2.dirty.trans ?_
    rw [he]
    exact h1.dirty.trans (by simp)
  · rw [h2.rest, he, h1.rest]
    simp [applyWrites]
  · rw [h2.rest, he, h1.data]

/-- `recover_from_log` completes, and its writes are those of the redo log. -/
theorem wp_recoverFromLog (size : Nat) (hhome : ∀ b ∈ (d start).header, Home start (size - 1) b)
    (hroom : (d start).header.length ≤ size - 1) :
    wp recoverFromLog
      (fun _ s' => s'.writes = recoverWrites start Block.header Block.setHeader d ∧
        s'.disk = recovered start Block.header Block.setHeader d ∧
        Quiet s' ∧ s'.start = start ∧ s'.size = size ∧ s'.lh = [] ∧
        s'.lockedSet = ∅)
      (fun _ _ => False) (reboot start size d) := by
  unfold recoverFromLog
  refine (wp_readHead reboot_coherent reboot_locked reboot_dirty).bind (fun _ _ hF => hF) ?_
  rintro - s₁ ⟨s₀, h0, rfl⟩
  rw [reboot_view]
  obtain ⟨e, he⟩ : ∃ e, e = { s₀ with lh := (d (reboot start size d).start).header } := ⟨_, rfl⟩
  have hst : e.start = start := by rw [he]; exact h0.start_eq
  have hview : e.view = d := by
    rw [he]
    exact h0.view.trans reboot_view
  have hl : e.lockedSet = ∅ := by
    rw [he]
    exact h0.locked.trans reboot_locked
  have hd : e.dirtySet = ∅ := by
    rw [he]
    have := h0.dirty
    rw [reboot_dirty, Set.empty_sdiff] at this
    exact this
  have hdisk : e.disk = d := by rw [he, h0.rest]; rfl
  have hwr : e.writes = [] := by rw [he, h0.rest]; rfl
  rw [← he]
  have hi := wp_installFrom (B := Set.univ) (f := flush)
    (fun c (_ : ¬ Home start (size - 1) c) => Set.mem_univ c) (d start).header 0 e (h0.coh.congr (by rw [he]) (by rw [he]))
    (.inr ⟨hl, hd⟩) hst (by omega) (fun b hb => ⟨hhome b hb, Set.mem_univ b⟩)
  have hit : wp (installTrans bread)
      (fun _ s' => Ran e (installWrites start e.view 0 (d start).header) s')
      (Broke e Set.univ (installWrites start e.view 0 (d start).header)) e := by
    have hlh : e.lh = (d start).header := by rw [he]; rfl
    unfold installTrans
    refine Lib.wp_get ?_
    rw [hlh]
    exact hi
  refine hit.bind (fun f s' hb => hb.absurd hl hd) (fun _ s₂ h2 => ?_)
  refine Lib.wp_modify ?_
  obtain ⟨g, hg⟩ : ∃ g, g = { s₂ with lh := [] } := ⟨_, rfl⟩
  have hgl : g.lockedSet = ∅ := by rw [hg]; exact h2.locked.trans hl
  have hgd : g.dirtySet = ∅ := by
    rw [hg]
    have := h2.dirty
    rw [hd, Set.empty_sdiff] at this
    exact this
  have hgst : g.start = start := by rw [hg]; exact h2.start_eq.trans hst
  have hgv : g.view start = d start := by
    have hv : g.view = s₂.view := by rw [hg]; rfl
    rw [hv, h2.view, applyWrites_other _ _ (fun w hw => ?_), hview]
    obtain ⟨j, hj, -⟩ := mem_installWrites _ 0 hw
    exact (hhome _ (List.mem_of_getElem? hj)).ne_start
  rw [← hg]
  have hgc : Coherent g := h2.coh.congr (by rw [hg]) (by rw [hg])
  have hw := wp_writeHead (f := flush) hgc (.inr ⟨hgl, hgd⟩)
  rw [hgst, hgv, show g.lh = [] by rw [hg]] at hw
  refine hw.mono (fun _ s₃ h3 => ?_) (fun f s' hb => hb.absurd hgl hgd)
  rw [hview] at h2
  have hlh : s₃.lh = [] := by rw [h3.rest, hg]
  have hst3 : s₃.start = start := by rw [h3.rest]; exact hgst
  refine ⟨?_, ?_, ⟨⟨h3.coh, ?_, ?_, ?_, ?_, ?_, ?_⟩, ?_, ?_⟩, hst3, ?_, hlh, h3.locked.trans hgl⟩
  · rw [h3.rest, hg, h2.rest, hwr]
    rfl
  · rw [h3.rest, hg, h2.rest, hdisk, recovered, recoverWrites, applyWrites_append]
  · rw [hlh]; exact List.nodup_nil
  · intro b
    rw [hlh, h3.dirty, hgd]
    simp
  · rw [hlh]; simp
  · rw [hlh]; simp
  · rw [hlh]; simp
  · -- the last write is that of the empty header
    rw [hst3, h3.rest]
    simp [applyWrites, upd, Block.header_setHeader_nil]
  · rw [h3.rest, hg, h2.rest, he, h0.rest]
    rfl
  · rw [h3.rest, hg, h2.rest, he, h0.rest]
    rfl
  · rw [h3.rest, hg, h2.rest, he, h0.rest]
    rfl

theorem after_of_wp {α : Type} {x : M α} {s : Store} {P : Store → Prop}
    (h : wp x (fun _ s' => P s') (fun _ s' => P s') s) : P (after x s) := by
  unfold after
  unfold wp at h
  cases hx : x s with
  | ok a s' => simpa only [hx] using h
  | error e s' => simpa only [hx] using h

theorem issued_recoverFromLog {t : Nat → Block}
    (h : Recoverable start (size - 1) Block.header d t) :
    issued recoverFromLog (reboot start size d) =
      recoverWrites start Block.header Block.setHeader d := by
  have hw := wp_recoverFromLog size h.home h.room
  have hwr := after_of_wp (P := fun s' => s'.writes =
    recoverWrites start Block.header Block.setHeader d)
      (hw.mono (fun _ _ h => h.1) (fun _ _ hF => hF.elim))
  unfold issued
  rw [hwr]
  rfl

/-- The crashes of `recover_from_log` are those of the redo log. -/
theorem Crashes.reboots {t d' : Nat → Block} (h : Recoverable start (size - 1) Block.header d t)
    (hc : Crashes start size d d') : Reboots start Block.header Block.setHeader d d' := by
  induction hc with
  | refl => exact .refl
  | crash k _ ih =>
    rw [issued_recoverFromLog (h.reboots Block.header_setHeader_nil ih)]
    exact .crash k ih

/-- The first recovery that completes, after any number of crashes, yields the
contents `t`. -/
theorem recoverFromLog_ok {t d' : Nat → Block} (h : Recoverable start (size - 1) Block.header d t)
    (hc : Crashes start size d d') :
    ∃ s', recoverFromLog (reboot start size d') = .ok () s' ∧ (s'.disk start).header = [] ∧
      ∀ x, Home start (size - 1) x → s'.disk x = t x := by
  have h' := h.reboots Block.header_setHeader_nil (hc.reboots h)
  have hw := wp_recoverFromLog size h'.home h'.room
  obtain ⟨hempty, hhome⟩ := h'.recovered (e := Block.setHeader) Block.header_setHeader_nil
  cases hr : recoverFromLog (reboot start size d') with
  | ok u s' =>
    obtain ⟨-, hd, -⟩ := hw.ok hr
    refine ⟨s', rfl, ?_, fun x hx => ?_⟩
    · rw [hd]; exact hempty
    · rw [hd]; exact hhome x hx
  | error e s' => exact (hw.error hr).elim

end Recover

/-! ## A crash of a commit -/

/-- The state in which `sync1` calls `commit` for `sys_sync`. -/
def Store.inCommit (s : Store) : Store := { s with committing := true, synchronizing := 1 }

/-- Among the first `k` of the writes is one of a header that is not empty. -/
def HeaderWritten (start : Nat) (ws : List (Nat × Block)) (k : Nat) : Prop :=
  ∃ w ∈ ws.take k, w.1 = start ∧ w.2.header ≠ []

/-- `log_write` of the blocks `bs`, in this order, from `s` to `s'`, between calls of
`bread` and `brelse` and no commit. -/
inductive Logs (s : Store) : List Nat → Store → Prop where
  | refl : Logs s [] s
  | bread {bs : List Nat} {s₁ s₂ : Store} {b : Nat} {d : Block} : Logs s bs s₁ →
    s₁.needsFlush = false → bread b s₁ = .ok d s₂ → Logs s bs s₂
  | brelse {bs : List Nat} {s₁ s₂ : Store} {b : Nat} : Logs s bs s₁ →
    brelse b s₁ = .ok () s₂ → Logs s bs s₂
  | logWrite {bs : List Nat} {s₁ s₂ : Store} {b : Nat} {d : Block} : Logs s bs s₁ →
    logWrite b d s₁ = .ok () s₂ → Logs s (bs ++ [b]) s₂

section CommitCrash

variable {s s' : Store}

theorem Logged.header_written (h : Logged s) (hne : s.lh ≠ []) (j : Nat) :
    HeaderWritten s.start (commitWrites s.start Block.setHeader s.disk s.view s.lh) j ↔
      s.lh.length < j := by
  have hlen : (copyWrites s.start s.view 0 s.lh).length = s.lh.length := length_copyWrites _ _ _
  constructor
  · rintro ⟨w, hw, hst, -⟩
    by_contra hj
    rw [commitWrites, List.take_append_of_le_length (by omega)] at hw
    have := mem_copyWrites s.lh 0 (List.mem_of_mem_take hw)
    omega
  · intro hj
    refine ⟨(s.start, (s.disk s.start).setHeader s.lh), ?_, rfl, ?_⟩
    · obtain ⟨i, hi⟩ : ∃ i, j = (copyWrites s.start s.view 0 s.lh).length + (i + 1) :=
        ⟨j - s.lh.length - 1, by omega⟩
      rw [commitWrites, hi, List.take_length_add_append, List.take_succ_cons]
      simp
    · rw [h.header_lh]
      exact hne

/-- A part of the writes of a commit. -/
theorem Logged.recoverable (h : Logged s) {ws : List (Nat × Block)} (hws : ws <+: s.commitTrace)
    (k : Nat) :
    (HeaderWritten s.start ws k →
      Recoverable s.start (s.size - 1) Block.header (applyWrites s.disk (ws.take k)) s.view) ∧
    (¬ HeaderWritten s.start ws k →
      Recoverable s.start (s.size - 1) Block.header (applyWrites s.disk (ws.take k)) s.disk) := by
  by_cases hlh : s.lh = []
  · rw [Store.commitTrace, if_pos hlh, List.prefix_nil] at hws
    subst hws
    refine ⟨fun hh => ?_, fun _ => ?_⟩
    · obtain ⟨w, hw, -⟩ := hh
      simp at hw
    · rw [List.take_nil]
      exact recoverable_of_empty h.head (fun _ _ => rfl)
  · rw [Store.commitTrace, if_neg hlh] at hws
    have htake : ws.take k =
        (commitWrites s.start Block.setHeader s.disk s.view s.lh).take (min k ws.length) := by
      obtain ⟨us, hus⟩ := hws
      rw [← hus, List.take_append_of_le_length (Nat.min_le_right _ _)]
      rcases Nat.le_total k ws.length with hk | hk
      · rw [Nat.min_eq_left hk]
      · rw [Nat.min_eq_right hk, List.take_of_length_le hk, List.take_length]
    have hiff : HeaderWritten s.start ws k ↔ s.lh.length < min k ws.length := by
      rw [← h.header_written hlh]
      unfold HeaderWritten
      rw [htake]
    have hclean : ∀ x, Home s.start (s.size - 1) x → x ∉ s.lh → s.disk x = s.view x := by
      intro x _ hx
      rw [← h.dirty] at hx
      exact (h.coh.view_clean hx).symm
    rw [hiff, htake]
    refine ⟨fun hk => ?_, fun hk => ?_⟩
    · exact recoverable_after h.home h.small.2 Block.header_setHeader_nil (h.header_lh _) hclean hk
    · exact recoverable_before h.small.2 h.head (by omega)

theorem Broke.drop_writes {B : Set Nat} {ws : List (Nat × Block)} {e : Fault}
    (h : Broke s B ws e s') : s'.writes.drop s.writes.length <+: ws := by
  obtain ⟨vs, hvs, -, hw, -⟩ := h.cut
  rw [hw, List.drop_left]
  exact hvs

theorem Logged.issued_commit (h : Logged s) (hc : s.committing = true) (hs : s.synchronizing ≠ 0) :
    issued commit s <+: s.commitTrace := by
  refine after_of_wp (P := fun s' => s'.writes.drop s.writes.length <+: s.commitTrace)
    ((wp_commit h hc hs).mono (fun _ s' hk => ?_) (fun _ s' hb => hb.drop_writes))
  rw [hk.rest, List.drop_left]

theorem breadWith_lh {f : M Unit} {b : Nat} {d : Block} (hn : s.needsFlush = false)
    (h : breadWith f b s = .ok d s') : s'.lh = s.lh := by
  have hbr : breadWith f b s = (bgetFind b >>= fun _ => iderwRead b) s := by
    simp only [breadWith, bgetWith, bind, EStateM.bind, get, getThe, MonadStateOf.get, EStateM.get,
      hn, Bool.false_eq_true, if_false]
  rw [hbr] at h
  simp only [bind, EStateM.bind, bgetFind, iderwRead] at h
  grind [Store.modBuf]

theorem brelse_lh {b : Nat} (h : brelse b s = .ok () s') : s'.lh = s.lh := by
  simp only [brelse] at h
  grind [Store.modBuf]

/-- `log_write` absorbs a block that is recorded already. -/
theorem Logs.lh_toFinset {bs : List Nat} (h : Logs s bs s') :
    s'.lh.toFinset = s.lh.toFinset ∪ bs.toFinset := by
  induction h with
  | refl => simp
  | bread _ hn hb ih => rw [breadWith_lh hn hb, ih]
  | brelse _ hb ih => rw [brelse_lh hb, ih]
  | @logWrite bs s₁ s₂ b d _ hb ih =>
    have hlh : s₂.lh = if b ∈ s₁.lh then s₁.lh else s₁.lh ++ [b] := by
      simp only [Fs.logWrite] at hb
      grind [Store.modBuf]
    rw [hlh, List.toFinset_append, ← Finset.union_assoc, ← ih]
    split
    · rename_i hm
      ext c
      simp only [List.mem_toFinset, Finset.mem_union, List.mem_singleton]
      grind
    · rw [List.toFinset_append]

theorem Quiet.inCommit (h : Quiet s) : Logged s.inCommit := h.toLogged.congr rfl rfl rfl rfl rfl

theorem reboot_quiet {start size : Nat} {d : Nat → Block} (h : (d start).header = []) :
    Quiet (reboot start size d) := by
  refine ⟨⟨reboot_coherent, List.nodup_nil, ?_, ?_, ?_, ⟨Nat.zero_le _, Nat.zero_le _⟩, h⟩, rfl, rfl⟩
  · intro b
    rw [reboot_dirty]
    simp [reboot]
  · simp [reboot]
  · simp [reboot]

/-- A commit is atomic, however often it and the recoveries after it crash; and when
`sys_sync` returns, everything logged since the last commit is on the disk. -/
theorem commit_crash_atomic (h : Quiet s) :
    (∀ k d, Crashes s.start s.size
        (applyWrites s.disk ((issued commit s.inCommit).take k)) d →
      ∃ t, recoverFromLog (reboot s.start s.size d) = .ok () t ∧
        (t.disk s.start).header = [] ∧
        (∀ x, Home s.start (s.size - 1) x → x ∉ s.lh → t.disk x = s.disk x) ∧
        (HeaderWritten s.start (issued commit s.inCommit) k →
          ∀ b ∈ s.lh, t.disk b = s.view b) ∧
        (¬ HeaderWritten s.start (issued commit s.inCommit) k →
          ∀ b ∈ s.lh, t.disk b = s.disk b)) ∧
    (∀ s₀ bs, s₀.lh = [] → Logs s₀ bs s → ∀ n t, sysSync s = .ok n t →
      n = bs.toFinset.card ∧ t.lh = [] ∧
        ∀ x, Home s.start (s.size - 1) x → t.disk x = t.view x ∧ t.view x = s.view x) ∧
    (s.lockedSet = ∅ → s.lh.length + 2 ≤ NBUF → ∃ n t, sysSync s = .ok n t) := by
  refine ⟨fun k d hcr => ?_, fun s₀ bs hlh0 hlog n t hs => ?_, fun hl hn => ?_⟩
  · have hL := h.inCommit
    obtain ⟨hnew, hold⟩ := hL.recoverable (hL.issued_commit rfl (Nat.succ_ne_zero 0)) k
    by_cases hw : HeaderWritten s.start (issued commit s.inCommit) k
    · obtain ⟨t, ht, hhead, hhome⟩ := recoverFromLog_ok (hnew hw) hcr
      refine ⟨t, ht, hhead, fun x hx hnot => ?_, fun _ b hb => ?_, fun hw' => absurd hw hw'⟩
      · rw [hhome x hx]
        rw [← h.dirty] at hnot
        exact h.coh.view_clean hnot
      · exact hhome b (h.home b hb)
    · obtain ⟨t, ht, hhead, hhome⟩ := recoverFromLog_ok (hold hw) hcr
      exact ⟨t, ht, hhead, fun x hx _ => hhome x hx, fun hw' => absurd hw' hw,
        fun _ b hb => hhome b (h.home b hb)⟩
  · obtain ⟨hn, hc⟩ := (wp_sysSync h).ok hs
    refine ⟨?_, by rw [hc.rest], fun x hx => ⟨hc.disk_view x, hc.view x hx⟩⟩
    have hset := hlog.lh_toFinset
    rw [hlh0, List.toFinset_nil, Finset.empty_union] at hset
    rw [hn, ← hset, List.toFinset_card_of_nodup h.nodup]
  · cases hs : sysSync s with
    | ok n t => exact ⟨n, t, rfl⟩
    | error e t =>
      -- nothing is held, and two buffers are left for the commit
      rcases ((wp_sysSync h).error hs).cause with ⟨b, -, -, hb⟩ | ⟨-, hroom⟩
      · rw [hl] at hb
        exact hb.elim
      · refine absurd ⟨s.lh, hn, ?_, fun b hb => (h.dirty b).mp hb⟩ hroom
        rw [hl]
        simp

end CommitCrash

/-- A disk with an empty log in blocks 2 to 11. -/
def emptyDisk : Store := reboot 2 10 (fun _ => Block.zero)

/-- Block 20 is written and logged; nothing is committed yet. -/
theorem loggedOnce : ∃ d s₁ s₂ s₃, bread 20 emptyDisk = .ok d s₁ ∧
    logWrite 20 (Block.zero.setWord 0 7) s₁ = .ok () s₂ ∧ brelse 20 s₂ = .ok () s₃ :=
  ⟨_, _, _, _, rfl, rfl, rfl⟩

theorem commit_crash_atomic_loggedOnce :
    ∃ s n t, Quiet s ∧ s.lh = [20] ∧ s.view 20 ≠ s.disk 20 ∧ sysSync s = .ok n t ∧ n = 1 ∧
      t.disk 20 = s.view 20 := by
  obtain ⟨d, s₁, s₂, s₃, h1, h2, h3⟩ := loggedOnce
  have hq : Quiet emptyDisk := reboot_quiet (by decide)
  have hn : emptyDisk.needsFlush = false :=
    reboot_coherent.needsFlush_false (L := []) (by decide) (by rw [reboot_locked]; simp)
      (by rw [reboot_dirty]; simp)
  have hg := (wp_breadWith hq.coh hn).ok h1
  have hl1 : s₁.lockedSet = {20} := by
    rw [hg.locked, emptyDisk, reboot_locked]
    simp
  have hw := (wp_logWrite hg.coh (by rw [hl1]; rfl)).ok h2
  have hst : s₁.start = 2 := by rw [hg.rest]; rfl
  have hsz : s₁.size = 10 := by rw [hg.rest]; rfl
  have hq2 : Quiet s₂ := by
    refine hw.quiet (hg.quiet hq) ?_ (by decide)
    rw [hst, hsz]
    decide
  have hr := (wp_brelse (E := fun _ _ => True) hq2.coh (by rw [hw.locked, hl1]; rfl)).ok h3
  have hlh : s₃.lh = [20] := by
    rw [hr.rest, hw.rest, hg.rest]
    rfl
  have hlocked : s₃.lockedSet = ∅ := by
    rw [hr.locked, hw.locked, hl1]
    simp
  obtain ⟨-, hret, hcomplete⟩ := commit_crash_atomic (hr.quiet hq2)
  obtain ⟨n, t, ht⟩ := hcomplete hlocked (by rw [hlh]; decide)
  have hlogs : Logs emptyDisk [20] s₃ := ((Logs.refl.bread hn h1).logWrite h2).brelse h3
  obtain ⟨hcard, -, hview⟩ := hret emptyDisk [20] rfl hlogs n t ht
  have hhome : Home s₃.start (s₃.size - 1) 20 := by
    rw [hr.rest, hw.rest]
    simp only [hst, hsz]
    decide
  have hv3 : s₃.view 20 = Block.zero.setWord 0 7 := by
    rw [hr.view, hw.view]
    simp [upd]
  have hd3 : s₃.disk 20 = Block.zero := by
    rw [hr.rest, hw.rest, hg.rest]
    rfl
  refine ⟨s₃, n, t, hr.quiet hq2, hlh, ?_, ht, by simpa using hcard, ?_⟩
  · rw [hv3, hd3]
    exact fun he => absurd (congrArg (fun x => x.word 0) he) (by decide)
  · exact (hview 20 hhome).1.trans (hview 20 hhome).2

end Xv6.Fs
