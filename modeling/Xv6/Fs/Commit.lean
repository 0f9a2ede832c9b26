import Xv6.Fs.Cache

/- What `commit` writes to the disk, and what `recover_from_log` writes.

   Both are loops over pairs of buffers: two blocks are read, one of them is written
   and both are released. `Ran s ws s'` says that the writes `ws` lead from `s` to
   `s'` with the same buffers held; `Broke` says how far a call came that did not
   return, and why. A commit's writes are those of `Lib.RedoLog.commitWrites`, from
   the disk and the cached contents, and a recovery's are
   `Lib.RedoLog.recoverWrites`. -/
namespace Xv6.Fs

open Lib (wp)
open Lib.RedoLog

/-- The writes `ws` lead from `s` to `s'`. -/
structure Ran (s : Store) (ws : List (Nat × Block)) (s' : Store) : Prop where
  coh : Coherent s'
  view : s'.view = applyWrites s.view ws
  locked : s'.lockedSet = s.lockedSet
  dirty : s'.dirtySet = s.dirtySet \ { b | ∃ w ∈ ws, w.1 = b }
  rest : s' = { s with
    bufs := s'.bufs, disk := applyWrites s.disk ws, writes := s.writes ++ ws }

/-- Of the writes `ws` a part has been done. -/
def Cut (s : Store) (ws : List (Nat × Block)) (s' : Store) : Prop :=
  ∃ vs, vs <+: ws ∧ s'.disk = applyWrites s.disk vs ∧ s'.writes = s.writes ++ vs ∧
    s'.start = s.start ∧ s'.size = s.size ∧ s'.flushes = s.flushes

/-- There are two buffers that can be recycled, however the clean ones are used. -/
def Room (s : Store) : Prop :=
  ∃ L : List Nat, L.length + 2 ≤ NBUF ∧ (∀ b ∈ s.lockedSet, b ∈ L) ∧ (∀ b ∈ s.dirtySet, b ∈ L)

/-- A call that would have made the writes `ws` has not returned: it waits for the
buffer of a block of `B` that is held, or found no buffer. -/
structure Broke (s : Store) (B : Set Nat) (ws : List (Nat × Block)) (e : Fault) (s' : Store) :
    Prop where
  cause : (∃ b ∈ B, e = .deadlock b ∧ b ∈ s.lockedSet) ∨
    (e = .panic "bget: no buffers" ∧ ¬ Room s)
  cut : Cut s ws s'

section Ran

variable {s s' t : Store} {ws vs : List (Nat × Block)} {B C : Set Nat} {e : Fault}

theorem Ran.refl (h : Coherent s) : Ran s [] s :=
  ⟨h, rfl, rfl, by simp, by simp [applyWrites]⟩

theorem Ran.trans (h : Ran s ws s') (h' : Ran s' vs t) : Ran s (ws ++ vs) t := by
  refine ⟨h'.coh, ?_, ?_, ?_, ?_⟩
  · rw [h'.view, h.view, applyWrites_append]
  · rw [h'.locked, h.locked]
  · rw [h'.dirty, h.dirty]
    ext c
    simp only [Set.mem_sdiff, Set.mem_ofPred_eq, List.mem_append, or_and_right, exists_or, not_or,
      and_assoc]
  · have h1 := h'.rest
    rw [h.rest] at h1
    rw [h1]
    simp [applyWrites_append]

theorem Ran.start_eq (h : Ran s ws s') : s'.start = s.start := by
  rw [h.rest]

theorem Ran.lh_eq (h : Ran s ws s') : s'.lh = s.lh := by
  rw [h.rest]

theorem Ran.room (h : Ran s ws s') (hr : Room s) : Room s' := by
  obtain ⟨L, hn, hl, hd⟩ := hr
  refine ⟨L, hn, ?_, ?_⟩
  · rw [h.locked]; exact hl
  · rw [h.dirty]; exact fun b hb => hd b hb.1

theorem Cut.mono (h : Cut s ws s') (hp : ws <+: vs) : Cut s vs s' := by
  obtain ⟨us, hus, hrest⟩ := h
  exact ⟨us, hus.trans hp, hrest⟩

theorem Ran.cut (h : Ran s ws s') (hc : Cut s' vs t) : Cut s (ws ++ vs) t := by
  obtain ⟨us, hus, hd, hw, hst, hsz, hf⟩ := hc
  have hr := h.rest
  refine ⟨ws ++ us, (List.prefix_append_right_inj ws).mpr hus, ?_, ?_, ?_, ?_, ?_⟩
  · rw [hd, hr, applyWrites_append]
  · rw [hw, hr, List.append_assoc]
  · rw [hst, hr]
  · rw [hsz, hr]
  · rw [hf, hr]

theorem Broke.mono (h : Broke s B ws e s') (hB : B ⊆ C) (hp : ws <+: vs) : Broke s C vs e s' := by
  refine ⟨?_, h.cut.mono hp⟩
  rcases h.cause with ⟨b, hb, he⟩ | hn
  · exact .inl ⟨b, hB hb, he⟩
  · exact .inr hn

/-- The part of a call before the fault. -/
theorem Ran.broke (h : Ran s ws s') (hb : Broke s' B vs e t) : Broke s B (ws ++ vs) e t := by
  refine ⟨?_, h.cut hb.cut⟩
  rcases hb.cause with ⟨b, hB, he, hl⟩ | ⟨he, hn⟩
  · rw [h.locked] at hl
    exact .inl ⟨b, hB, he, hl⟩
  · exact .inr ⟨he, fun hr => hn (h.room hr)⟩

end Ran

/-! ## One pass through a loop -/

/-- `bget` starts no flush: either one is in progress, or nothing is held or
dirty. -/
def Calm (s : Store) : Prop := s.synchronizing ≠ 0 ∨ s.lockedSet = ∅ ∧ s.dirtySet = ∅

section Pass

variable {s s' : Store} {a b c p q : Nat} {x y d : Block} {f : M Unit}

theorem Coherent.needsFlush_false (h : Coherent s) {L : List Nat} (hn : L.length + NRESBUF < NBUF)
    (hl : ∀ b ∈ s.lockedSet, b ∈ L) (hd : ∀ b ∈ s.dirtySet, b ∈ L) : s.needsFlush = false := by
  have := h.le_avail hl hd
  have hlt : ¬ s.avail ≤ NRESBUF := by omega
  simp [Store.needsFlush, hlt]

theorem Calm.needsFlush (hc : Calm s) (h : Coherent s) : s.needsFlush = false := by
  rcases hc with hc | ⟨hl, hd⟩
  · simp [Store.needsFlush, hc]
  · refine h.needsFlush_false (L := []) (by decide) ?_ ?_
    · simp [hl]
    · simp [hd]

/-- The flush of the second `bread` of a pass. -/
theorem Calm.needsFlush_got (hc : Calm s) (hg : Got s a x s') : s'.needsFlush = false := by
  rcases hc with hc | ⟨hl, hd⟩
  · have hs : s'.synchronizing = s.synchronizing := by rw [hg.rest]
    simp [Store.needsFlush, hs, hc]
  · refine hg.coh.needsFlush_false (L := [a]) (show 1 + NRESBUF < NBUF by decide) ?_ ?_
    · simp [hg.locked, hl]
    · simp [hg.dirty, hd]

theorem Calm.ran {ws : List (Nat × Block)} (hc : Calm s) (hr : Ran s ws s') : Calm s' := by
  rcases hc with hc | ⟨hl, hd⟩
  · exact .inl (by rw [hr.rest]; exact hc)
  · exact .inr ⟨hr.locked.trans hl, by rw [hr.dirty, hd, Set.empty_sdiff]⟩

theorem Stuck.cut {e : Fault} (h : Stuck s b e s') : Cut s [] s' := by
  refine ⟨[], List.prefix_refl _, ?_, ?_, ?_, ?_, ?_⟩ <;> rw [h.rest] <;> simp [applyWrites]

/-- `bread`, and nothing is free. -/
theorem Stuck.broke {e : Fault} (hc : Coherent s) (h : Stuck s b e s') : Broke s {b} [] e s' := by
  refine ⟨?_, h.cut⟩
  rcases h.cause with ⟨he, hb⟩ | ⟨he, ha⟩
  · exact .inl ⟨b, rfl, he, hb⟩
  · refine .inr ⟨he, ?_⟩
    rintro ⟨L, hn, hl, hd⟩
    have := hc.le_avail hl hd
    omega

/-- The second `bread` of a pass. -/
theorem Stuck.broke_got {e : Fault} {t : Store} (hne : b ≠ a) (hg : Got s a x s')
    (h : Stuck s' b e t) : Broke s {b} [] e t := by
  have hcut : Cut s [] t := by
    obtain ⟨vs, hvs, h1, h2, h3, h4, h5⟩ := h.cut
    have hr := hg.rest
    refine ⟨vs, hvs, ?_, ?_, ?_, ?_, ?_⟩
    · rw [h1, hr]
    · rw [h2, hr]
    · rw [h3, hr]
    · rw [h4, hr]
    · rw [h5, hr]
  refine ⟨?_, hcut⟩
  rcases h.cause with ⟨he, hb⟩ | ⟨he, ha⟩
  · rw [hg.locked] at hb
    rcases hb with hb | hb
    · exact absurd hb hne
    · exact .inl ⟨b, rfl, he, hb⟩
  · refine .inr ⟨he, ?_⟩
    rintro ⟨L, hn, hl, hd⟩
    have := hg.coh.le_avail (L := a :: L) (fun c hc => ?_) (fun c hc => ?_)
    · simp only [List.length_cons] at this
      omega
    · rw [hg.locked] at hc
      rcases hc with rfl | hc
      · exact List.mem_cons_self
      · exact List.mem_cons_of_mem a (hl c hc)
    · rw [hg.dirty] at hc
      exact List.mem_cons_of_mem a (hd c hc)

/-- A pass leads from `s` to the state after its one write. -/
theorem Got.pass {s₁ s₂ s₃ s₄ s₅ : Store} (h1 : Got s a x s₁) (h2 : Got s₁ b y s₂)
    (h3 : Wrote s₂ c d s₃) (h4 : Released s₃ p s₄) (h5 : Released s₄ q s₅)
    (hpq : p = a ∧ q = b ∨ p = b ∧ q = a) : Ran s [(c, d)] s₅ := by
  have ha : a ∉ s.lockedSet := h1.unlocked
  have hb : b ∉ s.lockedSet := fun hb => h2.unlocked (by rw [h1.locked]; exact .inr hb)
  refine ⟨h5.coh, ?_, ?_, ?_, ?_⟩
  · rw [h5.view, h4.view, h3.view, h2.view, h1.view]
    rfl
  · rw [h5.locked, h4.locked, h3.locked, h2.locked, h1.locked]
    ext e
    simp only [Set.mem_sdiff, Set.mem_insert_iff, Set.mem_singleton_iff]
    grind
  · rw [h5.dirty, h4.dirty, h3.dirty, h2.dirty, h1.dirty]
    ext e
    simp [eq_comm]
  · rw [h5.rest, h4.rest, h3.rest, h2.rest, h1.rest]
    rfl

/-- A pass: two blocks are read, one of them is written, both are released. -/
theorem wp_pass {α : Type} {k : M α} {Q : α → Store → Prop} {E : Fault → Store → Prop}
    {g : Block → Block → Block} (h : Coherent s) (hc : Calm s) (hab : b ≠ a)
    (hw : c = a ∨ c = b) (hpq : p = a ∧ q = b ∨ p = b ∧ q = a)
    (hk : ∀ s', Ran s [(c, g (s.view a) (s.view b))] s' → wp k Q E s')
    (he : ∀ e s', Broke s {a, b} [] e s' → E e s') :
    wp (do
      let x ← breadWith f a
      let y ← breadWith f b
      bwrite c (g x y)
      brelse p
      brelse q
      k) Q E s := by
  refine (wp_breadWith h (hc.needsFlush h)).bind (fun e s' hs => ?_) (fun x s₁ h1 => ?_)
  · exact he e s' ((hs.broke h).mono (by simp) (List.prefix_refl _))
  refine (wp_breadWith h1.coh (hc.needsFlush_got h1)).bind (fun e s' hs => ?_) (fun y s₂ h2 => ?_)
  · exact he e s' ((hs.broke_got hab h1).mono (by simp) (List.prefix_refl _))
  have hl2 : s₂.lockedSet = insert b (insert a s.lockedSet) := by rw [h2.locked, h1.locked]
  have hmem : ∀ {e : Nat}, e = a ∨ e = b → e ∈ s₂.lockedSet := by
    rintro e (rfl | rfl) <;> simp [hl2]
  refine (wp_bwrite h2.coh (hmem hw)).bind (fun _ _ hF => hF) (fun _ s₃ h3 => ?_)
  have hp : p ∈ s₃.lockedSet := by
    rw [h3.locked]
    exact hmem (hpq.imp (·.1) (·.1))
  refine (wp_brelse h3.coh hp).bind (fun _ _ hF => hF) (fun _ s₄ h4 => ?_)
  have hq : q ∈ s₄.lockedSet := by
    rw [h4.locked, h3.locked]
    refine ⟨hmem (hpq.elim (fun h => .inr h.2) (fun h => .inl h.2)), ?_⟩
    simp only [Set.mem_singleton_iff]
    grind
  refine (wp_brelse h4.coh hq).bind (fun _ _ hF => hF) (fun _ s₅ h5 => ?_)
  refine hk s₅ ?_
  rw [h2.data, h1.data] at h3
  rw [show s₁.view b = s.view b by rw [h1.view]] at h3
  exact h1.pass h2 h3 h4 h5 hpq

/-- `write_head`. -/
theorem wp_writeHead (h : Coherent s) (hc : Calm s) :
    wp (writeHead (breadWith f))
      (fun _ s' => Ran s [(s.start, (s.view s.start).setHeader s.lh)] s')
      (Broke s {s.start} []) s := by
  refine Lib.wp_get ?_
  refine (wp_breadWith h (hc.needsFlush h)).bind (fun e s' hs => hs.broke h) (fun x s₁ h1 => ?_)
  have hl : s.start ∈ s₁.lockedSet := by rw [h1.locked]; exact .inl rfl
  refine (wp_bwrite h1.coh hl).bind (fun _ _ hF => hF) (fun _ s₂ h2 => ?_)
  refine (wp_brelse h2.coh (h2.locked ▸ hl)).mono (fun _ s₃ h3 => ?_) (fun _ _ hF => hF)
  rw [h1.data] at h2
  refine ⟨h3.coh, ?_, ?_, ?_, ?_⟩
  · rw [h3.view, h2.view, h1.view]
    rfl
  · rw [h3.locked, h2.locked, h1.locked]
    ext e
    have := h1.unlocked
    simp only [Set.mem_sdiff, Set.mem_insert_iff, Set.mem_singleton_iff]
    grind
  · rw [h3.dirty, h2.dirty, h1.dirty]
    ext e
    simp [eq_comm]
  · rw [h3.rest, h2.rest, h1.rest]
    rfl

end Pass

/-! ## The loops -/

section Loops

variable {start size : Nat} {B : Set Nat} {f : M Unit}

theorem not_home_copy {i : Nat} (hi : i < size) : ¬ Home start size (start + 1 + i) := by
  unfold Home
  omega

/-- The loop of `write_log`. The copies go to the log area, so that the blocks still
to be copied keep their contents. -/
theorem wp_writeLogFrom (hlog : ∀ c, ¬ Home start size c → c ∈ B) : ∀ (bs : List Nat) (i : Nat)
    (s : Store), Coherent s → Calm s → s.start = start → i + bs.length ≤ size →
    (∀ b ∈ bs, Home start size b ∧ b ∈ B) →
    wp (writeLogFrom (breadWith f) i bs) (fun _ s' => Ran s (copyWrites start s.view i bs) s')
      (Broke s B (copyWrites start s.view i bs)) s := by
  intro bs
  induction bs with
  | nil =>
    intro i s h _ _ _ _
    exact Lib.wp_pure (Ran.refl h)
  | cons b bs ih =>
    intro i s h hc hst hroom hbs
    simp only [List.length_cons] at hroom
    obtain ⟨hb, hbB⟩ := hbs b (by simp)
    have hne : b ≠ start + 1 + i := hb.ne_copy (by omega)
    refine Lib.wp_get ?_
    rw [hst]
    refine wp_pass (g := fun _ y => y) h hc hne (.inl rfl) (.inr ⟨rfl, rfl⟩)
      (fun s' hr => ?_) (fun e s' hb => ?_)
    · have hview : copyWrites start s'.view (i + 1) bs = copyWrites start s.view (i + 1) bs := by
        refine copyWrites_congr bs (i + 1) (fun c hcb => ?_)
        rw [hr.view]
        refine applyWrites_other _ _ (fun w hw => ?_)
        rw [List.mem_singleton.mp hw]
        exact ((hbs c (by simp [hcb])).1.ne_copy (by omega)).symm
      have := ih (i + 1) s' hr.coh (hc.ran hr) (hr.start_eq.trans hst) (by omega)
        (fun c hcb => hbs c (by simp [hcb]))
      rw [hview] at this
      exact this.mono (fun _ _ h' => hr.trans h') (fun _ _ h' => hr.broke h')
    · refine hb.mono ?_ (List.nil_prefix)
      rintro c (rfl | hcb)
      · exact hlog _ (not_home_copy (by omega))
      · rw [Set.mem_singleton_iff.mp hcb]
        exact hbB

/-- The loop of `install_trans`. It writes home blocks, so that the copies still to
be installed keep their contents. -/
theorem wp_installFrom (hlog : ∀ c, ¬ Home start size c → c ∈ B) : ∀ (bs : List Nat) (i : Nat)
    (s : Store), Coherent s → Calm s → s.start = start → i + bs.length ≤ size →
    (∀ b ∈ bs, Home start size b ∧ b ∈ B) →
    wp (installFrom (breadWith f) i bs) (fun _ s' => Ran s (installWrites start s.view i bs) s')
      (Broke s B (installWrites start s.view i bs)) s := by
  intro bs
  induction bs with
  | nil =>
    intro i s h _ _ _ _
    exact Lib.wp_pure (Ran.refl h)
  | cons b bs ih =>
    intro i s h hc hst hroom hbs
    simp only [List.length_cons] at hroom
    obtain ⟨hb, hbB⟩ := hbs b (by simp)
    have hne : b ≠ start + 1 + i := hb.ne_copy (by omega)
    refine Lib.wp_get ?_
    rw [hst]
    refine wp_pass (g := fun x _ => x) h hc hne (.inr rfl) (.inl ⟨rfl, rfl⟩)
      (fun s' hr => ?_) (fun e s' hb => ?_)
    · have hview : installWrites start s'.view (i + 1) bs =
          installWrites start s.view (i + 1) bs := by
        refine installWrites_congr bs (i + 1) (fun j _ hj => ?_)
        rw [hr.view]
        refine applyWrites_other _ _ (fun w hw => ?_)
        rw [List.mem_singleton.mp hw]
        exact hb.ne_copy (by omega)
      have := ih (i + 1) s' hr.coh (hc.ran hr) (hr.start_eq.trans hst) (by omega)
        (fun c hcb => hbs c (by simp [hcb]))
      rw [hview] at this
      exact this.mono (fun _ _ h' => hr.trans h') (fun _ _ h' => hr.broke h')
    · refine hb.mono ?_ (List.nil_prefix)
      rintro c (rfl | hcb)
      · exact hlog _ (not_home_copy (by omega))
      · rw [Set.mem_singleton_iff.mp hcb]
        exact hbB

end Loops

/-! ## commit -/

/-- The log as `log_write` keeps it between two commits: the recorded blocks are the
dirty ones, they lie outside the log area and fit into it, and the header on the disk
is empty. -/
structure Logged (s : Store) : Prop where
  coh : Coherent s
  nodup : s.lh.Nodup
  dirty : ∀ b, b ∈ s.dirtySet ↔ b ∈ s.lh
  home : ∀ b ∈ s.lh, Home s.start (s.size - 1) b
  word : ∀ b ∈ s.lh, b < 2 ^ 32
  small : s.lh.length ≤ LOGSIZE ∧ s.lh.length ≤ s.size - 1
  head : (s.disk s.start).header = []

/-- What a commit writes. -/
def Store.commitTrace (s : Store) : List (Nat × Block) :=
  if s.lh = [] then [] else commitWrites s.start Block.setHeader s.disk s.view s.lh

/-- What a commit has done when it returns. -/
structure Committed (s s' : Store) : Prop where
  coh : Coherent s'
  view : ∀ x, Home s.start (s.size - 1) x → s'.view x = s.view x
  locked : s'.lockedSet = s.lockedSet
  dirty : s'.dirtySet = ∅
  rest : s' = { s with
    bufs := s'.bufs, disk := applyWrites s.disk s.commitTrace,
    writes := s.writes ++ s.commitTrace, lh := [] }

/-- The blocks a commit works on. -/
def Store.touched (s : Store) : Set Nat := { b | b ∈ s.lh ∨ ¬ Home s.start (s.size - 1) b }

section Commit

variable {s s' : Store}

/-- The flags, and what has happened before, do not matter. -/
theorem Logged.congr (h : Logged s) (hb : s'.bufs = s.bufs) (hd : s'.disk = s.disk)
    (hlh : s'.lh = s.lh) (hst : s'.start = s.start) (hsz : s'.size = s.size) : Logged s' := by
  have hds : s'.dirtySet = s.dirtySet := by simp only [Store.dirtySet, Store.find, hb]
  refine ⟨h.coh.congr hb hd, ?_, ?_, ?_, ?_, ?_, ?_⟩
  · rw [hlh]; exact h.nodup
  · rw [hds, hlh]; exact h.dirty
  · rw [hlh, hst, hsz]; exact h.home
  · rw [hlh]; exact h.word
  · rw [hlh, hsz]; exact h.small
  · rw [hd, hst]; exact h.head

theorem not_home_start {start size : Nat} : ¬ Home start size start := by
  unfold Home
  omega

theorem Logged.start_clean (h : Logged s) : s.start ∉ s.dirtySet := by
  rw [h.dirty]
  exact fun hm => not_home_start (h.home _ hm)

theorem Logged.header_lh (h : Logged s) (b : Block) : (b.setHeader s.lh).header = s.lh := by
  refine Block.header_setHeader b ?_ h.word
  have := h.small.1
  have : LOGSIZE < 128 := by decide
  omega

/-- The contents of the home blocks after the writes of a commit. -/
theorem applyWrites_home {start size : Nat} {enc : Block → List Nat → Block} {d t e : Nat → Block}
    {bs : List Nat} (hroom : bs.length ≤ size) {x : Nat} (hx : Home start size x)
    (he : e x = t x ∨ x ∈ bs) : applyWrites e (commitWrites start enc d t bs) x = t x := by
  refine applyWrites_same _ _ (fun w hw hwx => ?_) ?_
  · subst hwx
    simp only [commitWrites, List.mem_append, List.mem_cons, List.not_mem_nil, or_false] at hw
    rcases hw with hw | rfl | hw | rfl
    · have := mem_copyWrites bs 0 hw
      unfold Home at hx
      omega
    · exact absurd rfl hx.ne_start
    · simp only [homeWrites, List.mem_map] at hw
      obtain ⟨b, -, rfl⟩ := hw
      rfl
    · exact absurd rfl hx.ne_start
  · refine he.imp id (fun hb => ⟨(x, t x), ?_, rfl⟩)
    simp only [commitWrites, List.mem_append, List.mem_cons, homeWrites, List.mem_map]
    exact .inr (.inr (.inl ⟨x, hb, rfl⟩))

/-- `write_log`, `write_head` and `install_trans` of a log that is not empty. -/
theorem wp_install {α : Type} {k : M α} {Q : α → Store → Prop} {E : Fault → Store → Prop}
    (h : Logged s) (hs : s.synchronizing ≠ 0)
    (hk : ∀ s', Ran s (copyWrites s.start s.view 0 s.lh ++
      ((s.start, (s.disk s.start).setHeader s.lh) :: homeWrites s.view s.lh)) s' → wp k Q E s')
    (he : ∀ e s', Broke s s.touched (copyWrites s.start s.view 0 s.lh ++
      ((s.start, (s.disk s.start).setHeader s.lh) :: homeWrites s.view s.lh)) e s' → E e s') :
    wp (do writeLog breadIn; writeHead breadIn; installTrans breadIn; k) Q E s := by
  have hcalm : Calm s := .inl hs
  have hlog : ∀ c, ¬ Home s.start (s.size - 1) c → c ∈ s.touched := fun c hc => .inr hc
  have hlh : ∀ b ∈ s.lh, Home s.start (s.size - 1) b ∧ b ∈ s.touched :=
    fun b hb => ⟨h.home b hb, .inl hb⟩
  have hroom : 0 + s.lh.length ≤ s.size - 1 := by rw [Nat.zero_add]; exact h.small.2
  refine Lib.wp.bind (Lib.wp_get (wp_writeLogFrom hlog s.lh 0 s h.coh hcalm rfl hroom hlh))
    (fun e s' hb => he e s' (hb.mono (fun _ hx => hx) (List.prefix_append _ _)))
    (fun _ s₁ h1 => ?_)
  have hv1 : s₁.view s.start = s.disk s.start := by
    rw [h1.view, applyWrites_other _ _ (fun w hw => by have := mem_copyWrites s.lh 0 hw; omega)]
    exact h.coh.view_clean h.start_clean
  have hw := wp_writeHead (f := throw .asleep) h1.coh (hcalm.ran h1)
  rw [h1.start_eq, h1.lh_eq, hv1] at hw
  refine hw.bind (fun e s' hb => he e s' ((h1.broke hb).mono ?_ ?_)) (fun _ s₂ h2 => ?_)
  · rintro c rfl
    exact .inr not_home_start
  · rw [List.append_nil]
    exact List.prefix_append _ _
  have h12 := h1.trans h2
  have hcopy : installWrites s.start s₂.view 0 s.lh = homeWrites s.view s.lh := by
    refine installWrites_copies s.lh 0 (fun j b hj => ?_)
    rw [h12.view, applyWrites_append, applyWrites_other _ _ (fun w hw => ?_)]
    · exact applyWrites_copyWrites s.lh 0 j b _ hj
    · rw [List.mem_singleton.mp hw]
      simp only
      omega
  have hi := wp_installFrom (f := throw .asleep) hlog s.lh 0 s₂ h2.coh (hcalm.ran h12)
    h12.start_eq hroom hlh
  rw [hcopy] at hi
  refine Lib.wp.bind (Lib.wp_get (by rw [h12.lh_eq]; exact hi)) (fun e s' hb => ?_)
    (fun _ s₃ h3 => ?_)
  · have := h12.broke hb
    rw [List.append_assoc] at this
    exact he e s' this
  · have := h12.trans h3
    rw [List.append_assoc] at this
    exact hk s₃ this

/-- `commit`, with `log.committing` and `synchronizing` set. -/
theorem wp_commit (h : Logged s) (hc : s.committing = true) (hs : s.synchronizing ≠ 0) :
    wp commit (fun _ s' => Committed s s') (Broke s s.touched s.commitTrace) s := by
  unfold commit
  refine Lib.wp_get ?_
  simp only [hc, Bool.true_eq_false, if_false]
  refine Lib.wp_get ?_
  cases hlh : s.lh with
  | nil =>
    have htr : s.commitTrace = [] := if_pos hlh
    have hd : s.dirtySet = ∅ := Set.eq_empty_of_forall_notMem (fun b hb => by
      rw [h.dirty, hlh] at hb
      simp at hb)
    refine Lib.wp_pure ⟨h.coh, fun _ _ => rfl, rfl, hd, ?_⟩
    simp only [htr, applyWrites, List.append_nil]
    rw [← hlh]
  | cons b bs =>
    rw [← hlh]
    have hne : s.lh ≠ [] := by rw [hlh]; simp
    have htr : s.commitTrace = commitWrites s.start Block.setHeader s.disk s.view s.lh :=
      if_neg hne
    have hsplit : commitWrites s.start Block.setHeader s.disk s.view s.lh =
        (copyWrites s.start s.view 0 s.lh ++
          ((s.start, (s.disk s.start).setHeader s.lh) :: homeWrites s.view s.lh)) ++
        [(s.start, ((s.disk s.start).setHeader s.lh).setHeader [])] := by
      simp [commitWrites]
    rw [if_pos (by rw [hlh]; simp)]
    refine wp_install h hs (fun s₃ h3 => ?_) (fun e s' hb => ?_)
    · refine Lib.wp_modify ?_
      obtain ⟨e, he⟩ : ∃ e, e = { s₃ with lh := [] } := ⟨_, rfl⟩
      have hstart : e.start = s.start := by rw [he]; exact h3.start_eq
      have hlh0 : e.lh = [] := by rw [he]
      have hview : e.view = s₃.view := by rw [he]; rfl
      have hve : e.view s.start = (s.disk s.start).setHeader s.lh := by
        rw [hview, h3.view]
        refine applyWrites_same _ _ (fun w hw hws => ?_) (.inr ⟨_, List.mem_append_right _
          List.mem_cons_self, rfl⟩)
        simp only [List.mem_append, List.mem_cons, homeWrites, List.mem_map] at hw
        rcases hw with hw | rfl | ⟨c, hc, rfl⟩
        · have := mem_copyWrites s.lh 0 hw
          omega
        · rfl
        · exact absurd hws (h.home c hc).ne_start
      have hcoh : Coherent e := h3.coh.congr (by rw [he]) (by rw [he])
      have hcalm : Calm e := by
        have hc3 : Calm s₃ := Calm.ran (.inl hs) h3
        rw [he]
        exact hc3
      have hw := wp_writeHead (f := throw .asleep) hcoh hcalm
      rw [hstart, hlh0, hve] at hw
      rw [← he]
      refine hw.mono (fun _ s₄ h4 => ?_) (fun f s' hb => ?_)
      · have hv4 : s₄.view = applyWrites s.view s.commitTrace := by
          rw [h4.view, htr, hsplit, applyWrites_append, ← h3.view, hview]
        refine ⟨h4.coh, fun x hx => ?_, ?_, ?_, ?_⟩
        · rw [hv4, htr]
          exact applyWrites_home h.small.2 hx (.inl rfl)
        · rw [h4.locked, he]
          exact h3.locked
        · refine Set.eq_empty_of_forall_notMem (fun c hc => ?_)
          rw [h4.dirty, he] at hc
          have hc3 : c ∈ s₃.dirtySet := hc.1
          rw [h3.dirty] at hc3
          refine hc3.2 ⟨(c, s.view c), ?_, rfl⟩
          have hmem := (h.dirty c).mp hc3.1
          simp only [List.mem_append, List.mem_cons, homeWrites, List.mem_map]
          exact .inr (.inr ⟨c, hmem, rfl⟩)
        · rw [h4.rest, he, h3.rest, htr, hsplit]
          simp only [applyWrites_append, List.append_assoc]
      · rw [htr, hsplit]
        rw [he] at hb
        refine h3.broke (Broke.mono ⟨hb.cause, hb.cut⟩ ?_ List.nil_prefix)
        rintro c rfl
        exact .inr not_home_start
    · rw [htr, hsplit]
      exact hb.mono (fun _ hx => hx) (List.prefix_append _ _)

end Commit

/-! ## sync -/

/-- No commit is in progress. -/
structure Quiet (s : Store) : Prop extends Logged s where
  committing : s.committing = false
  synchronizing : s.synchronizing = 0

/-- `bget` has flushed. -/
def Flushed (s s' : Store) : Prop :=
  Committed { s with flushes := s.flushes ++ [{ held := s.held, lh := s.lh }] } s'

section Sync

variable {s s' : Store}

/-- The header on the disk after a commit. -/
theorem Committed.head (hl : Logged s) (h : Committed s s') : (s'.disk s.start).header = [] := by
  have hd : s'.disk = applyWrites s.disk s.commitTrace := by rw [h.rest]
  rw [hd]
  unfold Store.commitTrace
  split
  · exact hl.head
  · rw [commitWrites, ← List.cons_append, ← List.append_assoc, applyWrites_append]
    simp [applyWrites, upd, Block.header_setHeader_nil]

theorem Committed.quiet (hq : Quiet s) (h : Committed s s') : Quiet s' := by
  have hlh : s'.lh = [] := by rw [h.rest]
  have hst : s'.start = s.start := by rw [h.rest]
  refine ⟨⟨h.coh, ?_, ?_, ?_, ?_, ?_, ?_⟩, ?_, ?_⟩
  · rw [hlh]; exact List.nodup_nil
  · intro b; rw [h.dirty, hlh]; simp
  · rw [hlh]; simp
  · rw [hlh]; simp
  · rw [hlh]; simp
  · rw [hst]; exact h.head hq.toLogged
  · rw [h.rest]; exact hq.committing
  · rw [h.rest]; exact hq.synchronizing

/-- Only the buffers have changed, and none of them its flag `B_DIRTY`. -/
theorem Quiet.rebuf (hq : Quiet s) (hc : Coherent s') (hd : s'.dirtySet = s.dirtySet)
    (hr : s' = { s with bufs := s'.bufs }) : Quiet s' := by
  refine ⟨⟨hc, ?_, ?_, ?_, ?_, ?_, ?_⟩, ?_, ?_⟩
  · rw [hr]; exact hq.nodup
  · rw [hd, hr]; exact hq.dirty
  · rw [hr]; exact hq.home
  · rw [hr]; exact hq.word
  · rw [hr]; exact hq.small
  · rw [hr]; exact hq.head
  · rw [hr]; exact hq.committing
  · rw [hr]; exact hq.synchronizing

theorem Got.quiet {b : Nat} {d : Block} (hq : Quiet s) (h : Got s b d s') : Quiet s' :=
  hq.rebuf h.coh h.dirty h.rest

theorem Released.quiet {b : Nat} (hq : Quiet s) (h : Released s b s') : Quiet s' :=
  hq.rebuf h.coh h.dirty h.rest

/-- `log_write` of a block outside the log area. -/
theorem LogWrote.quiet {b : Nat} {d : Block} (hq : Quiet s) (h : LogWrote s b d s')
    (hhome : Home s.start (s.size - 1) b) (hword : b < 2 ^ 32) : Quiet s' := by
  have hr := h.rest
  have hlh : s'.lh = if b ∈ s.lh then s.lh else s.lh ++ [b] := by rw [hr]
  have hst : s'.start = s.start := by rw [hr]
  have hsz : s'.size = s.size := by rw [hr]
  have hmem : ∀ c, c ∈ s'.lh ↔ c = b ∨ c ∈ s.lh := by
    intro c
    rw [hlh]
    split
    · rename_i hb
      exact ⟨.inr, fun hc => hc.elim (fun he => he ▸ hb) id⟩
    · simp [or_comm]
  refine ⟨⟨h.coh, ?_, ?_, ?_, ?_, ?_, ?_⟩, ?_, ?_⟩
  · rw [hlh]
    split
    · exact hq.nodup
    · rename_i hb
      rw [← List.concat_eq_append]
      exact hq.nodup.concat hb
  · intro c
    rw [h.dirty, hmem, Set.mem_insert_iff, hq.dirty]
  · intro c hc
    rw [hst, hsz]
    rcases (hmem c).mp hc with rfl | hc
    · exact hhome
    · exact hq.home c hc
  · intro c hc
    rcases (hmem c).mp hc with rfl | hc
    · exact hword
    · exact hq.word c hc
  · have hlen : s'.lh.length ≤ s.lh.length + 1 := by
      rw [hlh]
      split <;> simp
    have := h.small
    rw [hsz]
    omega
  · rw [hr]; exact hq.head
  · rw [hr]; exact hq.committing
  · rw [hr]; exact hq.synchronizing

/-- After a commit the disk has the contents of every home block. -/
theorem Committed.disk_view (h : Committed s s') (x : Nat) : s'.disk x = s'.view x := by
  refine (h.coh.view_clean ?_).symm
  rw [h.dirty]
  exact Set.notMem_empty x

/-- `sync1`, with `synchronizing` set. -/
theorem wp_sync1 {k : Bool} (h : Logged s) (hc : s.committing = false) (hs : s.synchronizing ≠ 0) :
    wp (sync1 k) (fun n s' => n = s.lh.length ∧ Committed s s')
      (Broke s s.touched s.commitTrace) s := by
  unfold sync1
  refine Lib.wp_get ?_
  simp only [hc, Bool.and_false, Bool.false_eq_true, if_false]
  refine Lib.wp_modify ?_
  refine Lib.wp_get ?_
  obtain ⟨e, he⟩ : ∃ e, e = { s with committing := true } := ⟨_, rfl⟩
  have hle : Logged e := by
    refine h.congr ?_ ?_ ?_ ?_ ?_ <;> rw [he]
  rw [← he]
  refine (wp_commit hle (by rw [he]) (by rw [he]; exact hs)).bind (fun f s' hb => ?_)
    (fun _ s₁ h1 => ?_)
  · rw [he] at hb
    exact ⟨hb.cause, hb.cut⟩
  · refine Lib.wp_modify (Lib.wp_get ?_)
    have hlh : s₁.lh = [] := by rw [h1.rest]
    simp only [hlh, List.length_nil, ne_eq, not_true_eq_false, if_false]
    refine Lib.wp_pure ⟨by rw [he], ?_⟩
    have hrest := h1.rest
    rw [he] at h1 hrest
    refine ⟨h1.coh.congr rfl rfl, h1.view, h1.locked, h1.dirty, ?_⟩
    rw [hrest, ← hc]
    rfl

/-- `sys_sync`. -/
theorem wp_sysSync (h : Quiet s) :
    wp sysSync (fun n s' => n = s.lh.length ∧ Committed s s') (Broke s s.touched s.commitTrace) s := by
  unfold sysSync
  refine Lib.wp_modify ?_
  obtain ⟨e, he⟩ : ∃ e, e = { s with synchronizing := 1 } := ⟨_, rfl⟩
  have hle : Logged e := by
    refine h.toLogged.congr ?_ ?_ ?_ ?_ ?_ <;> rw [he]
  rw [← he]
  refine (wp_sync1 hle (by rw [he]; exact h.committing) (by rw [he]; simp)).bind
    (fun f s' hb => ?_) ?_
  · rw [he] at hb
    exact ⟨hb.cause, hb.cut⟩
  · rintro n s₁ ⟨hn, h1⟩
    refine Lib.wp_modify (Lib.wp_pure ⟨by rw [hn, he], ?_⟩)
    have hrest := h1.rest
    rw [he] at h1 hrest
    refine ⟨h1.coh.congr rfl rfl, h1.view, h1.locked, h1.dirty, ?_⟩
    rw [hrest, ← h.synchronizing]
    rfl

/-- The flush that `bget` starts. -/
def bgetFlush : M Unit := do
  modify (fun s => { s with
    synchronizing := s.synchronizing + 1
    flushes := s.flushes ++ [{ held := s.held, lh := s.lh }] })
  flush
  modify (fun s => { s with synchronizing := 0 })

theorem bgetWith_flush {b : Nat} (hn : s.needsFlush = true) :
    bgetWith flush b s = (bgetFlush >>= fun _ => bgetFind b) s := by
  simp only [bgetWith, bgetFlush, bind, EStateM.bind, get, getThe, MonadStateOf.get,
    EStateM.get, hn, if_true, modify, modifyGet, MonadStateOf.modifyGet, EStateM.modifyGet]
  cases flush _ <;> rfl

theorem wp_bgetFlush (h : Quiet s) :
    wp bgetFlush (fun _ s' => Flushed s s')
      (Broke { s with flushes := s.flushes ++ [{ held := s.held, lh := s.lh }] }
        s.touched s.commitTrace) s := by
  unfold bgetFlush
  refine Lib.wp_modify ?_
  obtain ⟨e, he⟩ : ∃ e : Store, e = { s with
      synchronizing := s.synchronizing + 1
      flushes := s.flushes ++ [{ held := s.held, lh := s.lh }] } := ⟨_, rfl⟩
  have hle : Logged e := by
    refine h.toLogged.congr ?_ ?_ ?_ ?_ ?_ <;> rw [he]
  rw [← he]
  have hsync : wp flush (fun _ s' => Committed e s') (Broke e e.touched e.commitTrace) e := by
    unfold flush
    refine (wp_sync1 (k := false) hle ?_ ?_).bind (fun _ _ hb => hb)
      (fun _ _ hc => Lib.wp_pure hc.2)
    · rw [he]; exact h.committing
    · rw [he]; simp
  refine hsync.bind (fun f s' hb => ?_) (fun _ s₁ h1 => ?_)
  · rw [he] at hb
    exact ⟨hb.cause, hb.cut⟩
  · show Flushed s { s₁ with synchronizing := 0 }
    have hrest := h1.rest
    rw [he] at h1 hrest
    refine ⟨h1.coh.congr rfl rfl, h1.view, h1.locked, h1.dirty, ?_⟩
    rw [hrest, ← h.synchronizing]
    rfl

/-- `bget` starts a flush, or not; what the read finds is as without one. -/
theorem wp_bread {b : Nat} (h : Quiet s) :
    wp (bread b)
      (fun d s' => (s.needsFlush = false ∧ Got s b d s') ∨
        (s.needsFlush = true ∧ ∃ s₁, Flushed s s₁ ∧ Got s₁ b d s'))
      (fun e s' => (s.needsFlush = false ∧ Stuck s b e s') ∨
        (s.needsFlush = true ∧
          (Broke { s with flushes := s.flushes ++ [{ held := s.held, lh := s.lh }] }
            s.touched s.commitTrace e s' ∨
          ∃ s₁, Flushed s s₁ ∧ Stuck s₁ b e s'))) s := by
  cases hn : s.needsFlush with
  | false =>
    refine (wp_breadWith h.coh hn).mono (fun d s' hg => .inl ⟨rfl, hg⟩) (fun e s' hb => .inl ⟨rfl, hb⟩)
  | true =>
    have hbr : bread b s =
        (bgetFlush >>= fun _ => (bgetFind b >>= fun _ => iderwRead b)) s := by
      have hbg := bgetWith_flush (b := b) hn
      simp only [bread, breadWith, bind, EStateM.bind] at hbg ⊢
      rw [hbg]
      cases bgetFlush s <;> rfl
    unfold wp
    rw [hbr]
    refine (wp_bgetFlush h).bind (fun f s' hb => .inr ⟨rfl, .inl hb⟩) (fun _ s₁ hfl => ?_)
    exact (wp_fetch hfl.coh).mono (fun d s' hg => .inr ⟨rfl, _, hfl, hg⟩)
      (fun f s' hb => .inr ⟨rfl, .inr ⟨_, hfl, hb⟩⟩)

end Sync

end Xv6.Fs
