import Xv6.Fs.Bio
import Xv6.Lib.Run

/- The buffer cache with any number of processes (`project3_filesystem/bio.c`,
   `ide.c`, `log.c`).

   The actors are calls of `bget` (`H`): each waits for the lock of the buffer it was
   given, holds it, works on it and gives it back. A process has as many of them as it
   holds buffers. A flush is made of such calls too, of the process in `sys_sync` or of
   one in `bget`, which begins its search only when the flush is over and it has taken
   `bcache.lock` again. An action is what a call does between two points at which it can
   sleep or another can take `bcache.lock`.

   Every function that writes to `b->data` calls `log_write` or `bwrite` before `brelse`;
   `changed` says that the holder has yet to do so, and no code reads it. -/
namespace Xv6.Fs

/-- `struct buf`, with its lock. -/
structure SharedBuf where
  dev : Nat := 0
  blockno : Nat := 0
  valid : Bool := false
  dirty : Bool := false
  locked : Bool := false
  changed : Bool := false
  refcnt : Nat := 0
  data : Block := Block.zero

abbrev BufIdx := Fin NBUF

/-- Where a call of `bget` is: at `acquiresleep`, back with the locked buffer, or in
`brelse` behind `releasesleep`. -/
inductive Phase where
  | idle
  | waits (i : BufIdx)
  | holds (i : BufIdx)
  | leaves (i : BufIdx)
  deriving DecidableEq, Repr

structure Shared (H : Type) where
  disk : Nat → Nat → Block
  buf : BufIdx → SharedBuf
  phase : H → Phase

inductive BufAct (H : Type) where
  | bget (h : H) (dev blockno : Nat) (i : BufIdx)
  | acquiresleep (h : H)
  | iderw (h : H)
  | write (h : H) (data : Block)
  | bwrite (h : H)
  | log_write (h : H)
  | releasesleep (h : H)
  | brelse (h : H)

namespace SharedBuf

def isBlock (x : SharedBuf) (dev blockno : Nat) : Prop := x.dev = dev ∧ x.blockno = blockno

instance isBlock.decidable (x : SharedBuf) (dev blockno : Nat) : Decidable (x.isBlock dev blockno) :=
  inferInstanceAs (Decidable (_ ∧ _))

/-- The buffer as `bget` takes it for another block. -/
def recycled (x : SharedBuf) (dev blockno : Nat) : SharedBuf :=
  { x with dev := dev, blockno := blockno, valid := false, dirty := false, refcnt := 1 }

end SharedBuf

section Machine

variable {H : Type} [DecidableEq H]

/-- After `binit`. -/
def Shared.boot (disk : Nat → Nat → Block) : Shared H := ⟨disk, fun _ => {}, fun _ => .idle⟩

def Shared.updBuf (c : Shared H) (i : BufIdx) (f : SharedBuf → SharedBuf) : Shared H :=
  { c with buf := Function.update c.buf i (f (c.buf i)) }

def Shared.goto (c : Shared H) (h : H) (p : Phase) : Shared H :=
  { c with phase := Function.update c.phase h p }

/-- The buffer that a call holds. -/
def Shared.held (c : Shared H) (h : H) : Option BufIdx :=
  match c.phase h with
  | .idle => none
  | .waits _ => none
  | .holds i => some i
  | .leaves _ => none

/-- Work on the buffer `h` holds, if it is in a state for it. -/
def onHeld (c : Shared H) (h : H) (ok : SharedBuf → Bool) (f : BufIdx → Shared H) :
    Option (Shared H) :=
  match c.held h with
  | none => none
  | some i => if ok (c.buf i) then some (f i) else none

/-- One action. The search of `bget` ends at a buffer `i` with the block, or else at one
that can be recycled; the block of the callers is on a device other than 0. -/
def bufStep (c : Shared H) : BufAct H → Option (Shared H)
  | .bget h dev blockno i =>
    if c.phase h = .idle ∧ dev ≠ 0 then
      if (c.buf i).isBlock dev blockno then
        some ((c.updBuf i (fun x => { x with refcnt := x.refcnt + 1 })).goto h (.waits i))
      else if (∀ j, ¬ (c.buf j).isBlock dev blockno) ∧ (c.buf i).refcnt = 0 ∧ (c.buf i).dirty = false then
        some ((c.updBuf i (fun x => x.recycled dev blockno)).goto h (.waits i))
      else none
    else none
  | .acquiresleep h =>
    match c.phase h with
    | .idle => none
    | .waits i =>
      if (c.buf i).locked then none
      else some ((c.updBuf i (fun x => { x with locked := true })).goto h (.holds i))
    | .holds _ => none
    | .leaves _ => none
  | .iderw h =>
    -- otherwise the panic "iderw: nothing to do"
    onHeld c h (fun x => x.dirty || !x.valid) fun i =>
      if (c.buf i).dirty then
        { c.updBuf i (fun x => { x with valid := true, dirty := false, changed := false }) with
          disk := Function.update c.disk (c.buf i).dev
            (Function.update (c.disk (c.buf i).dev) (c.buf i).blockno (c.buf i).data) }
      else c.updBuf i (fun x =>
        { x with valid := true, changed := false, data := c.disk x.dev x.blockno })
  | .write h data =>
    onHeld c h (fun x => x.valid) fun i =>
      c.updBuf i (fun x => { x with data := data, changed := true })
  | .bwrite h =>
    onHeld c h (fun x => x.valid) fun i =>
      c.updBuf i (fun x => { x with dirty := true, changed := false })
  | .log_write h =>
    onHeld c h (fun x => x.valid) fun i =>
      c.updBuf i (fun x => { x with dirty := true, changed := false })
  | .releasesleep h =>
    onHeld c h (fun x => !x.changed) fun i =>
      (c.updBuf i (fun x => { x with locked := false })).goto h (.leaves i)
  | .brelse h =>
    match c.phase h with
    | .idle => none
    | .waits _ => none
    | .holds _ => none
    | .leaves i => some ((c.updBuf i (fun x => { x with refcnt := x.refcnt - 1 })).goto h .idle)

/-! ## The invariant -/

variable {c c' : Shared H} {h : H} {i : BufIdx} {a : BufAct H}

/-- The buffer of a call. -/
def Phase.buf : Phase → Option BufIdx
  | .idle => none
  | .waits i => some i
  | .holds i => some i
  | .leaves i => some i

/-- A clean copy is what the disk holds. -/
def SharedBuf.Clean (x : SharedBuf) (d : Block) : Prop :=
  x.valid = true → x.dirty = false → x.changed = false → x.data = d

/-- No two buffers have one block, clean copies are what the disk holds, and the locks
are as the calls are: each is held by one call at most, and only under the lock is data
changed that is not yet in the log. -/
structure Shared.Coherent (c : Shared H) : Prop where
  unique : ∀ i j, (c.buf i).dev ≠ 0 → (c.buf i).isBlock (c.buf j).dev (c.buf j).blockno → i = j
  clean : ∀ i, (c.buf i).Clean (c.disk (c.buf i).dev (c.buf i).blockno)
  assigned : ∀ h i, (c.phase h).buf = some i → (c.buf i).dev ≠ 0
  held : ∀ h i, c.phase h = .holds i → (c.buf i).locked = true
  alone : ∀ g h i, c.phase g = .holds i → c.phase h = .holds i → g = h
  changed : ∀ i, (c.buf i).changed = true → (c.buf i).locked = true

/-- How a call goes on, and what it does to the lock of its buffer. -/
inductive Move (x x' : SharedBuf) (i : BufIdx) : Phase → Phase → Prop
  | bget (hd : x.dev ≠ 0) (hl : x'.locked = x.locked) (hc : x'.changed = x.changed) :
      Move x x' i .idle (.waits i)
  | acquiresleep (h0 : x.locked = false) (hl : x'.locked = true) : Move x x' i (.waits i) (.holds i)
  | work (hl : x'.locked = x.locked) : Move x x' i (.holds i) (.holds i)
  | releasesleep (hc : x'.changed = false) : Move x x' i (.holds i) (.leaves i)
  | brelse (hl : x'.locked = x.locked) (hc : x'.changed = x.changed) : Move x x' i (.leaves i) .idle

/-- A step of `h` on buffer `i` that leaves it its block. If it writes to the disk, then
to that block. -/
structure Works (c c' : Shared H) (h : H) (i : BufIdx) : Prop where
  move : Move (c.buf i) (c'.buf i) i (c.phase h) (c'.phase h)
  phases : ∀ g, g ≠ h → c'.phase g = c.phase g
  block : (c'.buf i).dev = (c.buf i).dev ∧ (c'.buf i).blockno = (c.buf i).blockno
  others : ∀ j, j ≠ i → c'.buf j = c.buf j
  disk : ∀ dev blockno, ¬ (c.buf i).isBlock dev blockno → c'.disk dev blockno = c.disk dev blockno
  clean : (c.buf i).Clean (c.disk (c.buf i).dev (c.buf i).blockno) →
    (c'.buf i).Clean (c'.disk (c.buf i).dev (c.buf i).blockno)

/-- A step of `h` that gives an unused buffer to a block that has none. -/
structure Recycles (c c' : Shared H) (h : H) (i : BufIdx) (dev blockno : Nat) : Prop where
  device : dev ≠ 0
  absent : ∀ j, ¬ (c.buf j).isBlock dev blockno
  free : (c.buf i).refcnt = 0 ∧ (c.buf i).dirty = false
  idle : c.phase h = .idle
  result : c' = (c.updBuf i (fun x => x.recycled dev blockno)).goto h (.waits i)

omit [DecidableEq H] in
theorem Works.same_block (hw : Works c c' h i) (j : BufIdx) :
    (c'.buf j).dev = (c.buf j).dev ∧ (c'.buf j).blockno = (c.buf j).blockno := by
  by_cases hj : j = i
  · rw [hj]
    exact hw.block
  · rw [hw.others j hj]
    exact ⟨rfl, rfl⟩

omit [DecidableEq H] in
/-- The locks after a step. -/
theorem Works.held (hw : Works c c' h i) (hc : c.Coherent) (g : H) (j : BufIdx)
    (hg : c'.phase g = .holds j) : (c'.buf j).locked = true := by
  have hm := hw.move
  by_cases hgh : g = h
  · rw [← hgh, hg] at hm
    generalize hp : c.phase g = p at hm
    cases hm with
    | acquiresleep _ hl => exact hl
    | work hl =>
      rw [hl]
      exact hc.held g _ hp
  · rw [hw.phases g hgh] at hg
    have hold := hc.held g j hg
    by_cases hj : j = i
    · subst hj
      generalize hp : c.phase h = p at hm
      generalize c'.phase h = p' at hm
      cases hm with
      | bget _ hl _ => rwa [hl]
      | acquiresleep _ hl => exact hl
      | work hl => rwa [hl]
      | releasesleep _ => exact absurd (hc.alone g h j hg hp) hgh
      | brelse hl _ => rwa [hl]
    · rwa [hw.others j hj]

omit [DecidableEq H] in
theorem Works.alone (hw : Works c c' h i) (hc : c.Coherent) (f g : H) (j : BufIdx)
    (hf : c'.phase f = .holds j) (hg : c'.phase g = .holds j) : f = g := by
  -- a call that takes the lock takes it while nobody holds it
  have hown : ∀ f g : H, c'.phase f = .holds j → c'.phase g = .holds j → f = h → g ≠ h → False := by
    intro f g hf hg hfh hgh
    rw [hw.phases g hgh] at hg
    have hm := hw.move
    rw [← hfh, hf] at hm
    generalize hp : c.phase f = p at hm
    cases hm with
    | acquiresleep h0 _ =>
      have := hc.held g _ hg
      rw [h0] at this
      cases this
    | work _ => exact hgh ((hc.alone g f _ hg hp).trans hfh)
  by_cases hfh : f = h
  · by_cases hgh : g = h
    · exact hfh.trans hgh.symm
    · exact (hown f g hf hg hfh hgh).elim
  · by_cases hgh : g = h
    · exact (hown g f hg hf hgh hfh).elim
    · rw [hw.phases f hfh] at hf
      rw [hw.phases g hgh] at hg
      exact hc.alone f g j hf hg

omit [DecidableEq H] in
theorem Works.changed (hw : Works c c' h i) (hc : c.Coherent) (j : BufIdx)
    (hj : (c'.buf j).changed = true) : (c'.buf j).locked = true := by
  by_cases hji : j = i
  · subst hji
    have hm := hw.move
    generalize hp : c.phase h = p at hm
    generalize c'.phase h = p' at hm
    cases hm with
    | bget _ hl hch =>
      rw [hl]
      exact hc.changed j (hch.symm.trans hj)
    | acquiresleep _ hl => exact hl
    | work hl =>
      rw [hl]
      exact hc.held h j hp
    | releasesleep hch =>
      rw [hch] at hj
      cases hj
    | brelse hl hch =>
      rw [hl]
      exact hc.changed j (hch.symm.trans hj)
  · rw [hw.others j hji] at hj ⊢
    exact hc.changed j hj

omit [DecidableEq H] in
theorem Works.assigned (hw : Works c c' h i) (hc : c.Coherent) : (c.buf i).dev ≠ 0 := by
  have hm := hw.move
  generalize hp : c.phase h = p at hm
  generalize c'.phase h = p' at hm
  cases hm with
  | bget hd _ _ => exact hd
  | acquiresleep _ _ => exact hc.assigned h i (by rw [hp]; rfl)
  | work _ => exact hc.assigned h i (by rw [hp]; rfl)
  | releasesleep _ => exact hc.assigned h i (by rw [hp]; rfl)
  | brelse _ _ => exact hc.assigned h i (by rw [hp]; rfl)

omit [DecidableEq H] in
theorem Works.coherent (hw : Works c c' h i) (hc : c.Coherent) : c'.Coherent := by
  have hi := hw.assigned hc
  refine ⟨fun j k hj hjk => ?_, fun j => ?_, fun g j hg => ?_, hw.held hc, hw.alone hc, hw.changed hc⟩
  · rw [(hw.same_block j).1] at hj
    refine hc.unique j k hj ⟨?_, ?_⟩
    · rw [← (hw.same_block j).1, ← (hw.same_block k).1]
      exact hjk.1
    · rw [← (hw.same_block j).2, ← (hw.same_block k).2]
      exact hjk.2
  · rw [(hw.same_block j).1, (hw.same_block j).2]
    by_cases hj : j = i
    · rw [hj]
      exact hw.clean (hc.clean i)
    · have hne : ¬ (c.buf i).isBlock (c.buf j).dev (c.buf j).blockno := fun he =>
        hj (hc.unique i j hi he).symm
      rw [hw.others j hj, hw.disk _ _ hne]
      exact hc.clean j
  · rw [(hw.same_block j).1]
    by_cases hgh : g = h
    · have hm := hw.move
      rw [← hgh] at hm
      have hj : j = i := by
        generalize c.phase g = p at hm
        generalize c'.phase g = p' at hm hg
        cases hm <;> cases hg <;> rfl
      rw [hj]
      exact hi
    · rw [hw.phases g hgh] at hg
      exact hc.assigned g j hg

theorem Recycles.coherent {dev blockno : Nat} (hr : Recycles c c' h i dev blockno)
    (hc : c.Coherent) : c'.Coherent := by
  rw [hr.result]
  have hbuf : ∀ j, j ≠ i →
      ((c.updBuf i (fun x => x.recycled dev blockno)).goto h (.waits i)).buf j = c.buf j :=
    fun j hj => Function.update_of_ne hj _ _
  have hself : ((c.updBuf i (fun x => x.recycled dev blockno)).goto h (.waits i)).buf i =
      (c.buf i).recycled dev blockno := Function.update_self _ _ _
  have hphase : ∀ g, g ≠ h →
      ((c.updBuf i (fun x => x.recycled dev blockno)).goto h (.waits i)).phase g = c.phase g :=
    fun g hg => Function.update_of_ne hg _ _
  have hown : ((c.updBuf i (fun x => x.recycled dev blockno)).goto h (.waits i)).phase h = .waits i :=
    Function.update_self _ _ _
  have hkeep : ∀ g j, ((c.updBuf i (fun x => x.recycled dev blockno)).goto h (.waits i)).phase g =
      .holds j → c.phase g = .holds j := by
    intro g j hg
    by_cases hgh : g = h
    · rw [hgh, hown] at hg
      cases hg
    · rwa [hphase g hgh] at hg
  have hlock : ∀ j, (((c.updBuf i (fun x => x.recycled dev blockno)).goto h (.waits i)).buf j).locked =
      (c.buf j).locked ∧ (((c.updBuf i (fun x => x.recycled dev blockno)).goto h (.waits i)).buf j).changed =
      (c.buf j).changed := by
    intro j
    by_cases hj : j = i
    · rw [hj, hself]
      exact ⟨rfl, rfl⟩
    · rw [hbuf j hj]
      exact ⟨rfl, rfl⟩
  constructor
  · intro j k hj hjk
    by_cases hji : j = i
    · by_cases hki : k = i
      · exact hji.trans hki.symm
      · -- the block had no buffer before
        rw [hji, hself, hbuf k hki] at hjk
        exact absurd ⟨hjk.1.symm, hjk.2.symm⟩ (hr.absent k)
    · by_cases hki : k = i
      · rw [hki, hself, hbuf j hji] at hjk
        exact absurd hjk (hr.absent j)
      · rw [hbuf j hji, hbuf k hki] at hjk
        rw [hbuf j hji] at hj
        exact hc.unique j k hj hjk
  · intro j
    by_cases hj : j = i
    · rw [hj, hself]
      intro hv
      cases hv
    · rw [hbuf j hj]
      exact hc.clean j
  · intro g j hg
    by_cases hj : j = i
    · rw [hj, hself]
      exact hr.device
    · rw [hbuf j hj]
      by_cases hgh : g = h
      · rw [hgh, hown] at hg
        exact absurd (Option.some.inj hg).symm hj
      · rw [hphase g hgh] at hg
        exact hc.assigned g j hg
  · intro g j hg
    rw [(hlock j).1]
    exact hc.held g j (hkeep g j hg)
  · exact fun f g j hf hg => hc.alone f g j (hkeep f j hf) (hkeep g j hg)
  · intro j hj
    rw [(hlock j).2] at hj
    rw [(hlock j).1]
    exact hc.changed j hj

/-! ## The steps -/

omit [DecidableEq H] in
theorem held_phase (hh : c.held h = some i) : c.phase h = .holds i := by
  unfold Shared.held at hh
  cases hp : c.phase h with
  | idle => rw [hp] at hh; cases hh
  | waits j => rw [hp] at hh; cases hh
  | holds j => rw [hp] at hh; cases hh; rfl
  | leaves j => rw [hp] at hh; cases hh

omit [DecidableEq H] in
theorem onHeld_some {ok : SharedBuf → Bool} {f : BufIdx → Shared H} (hs : onHeld c h ok f = some c') :
    ∃ i, c.phase h = .holds i ∧ ok (c.buf i) = true ∧ c' = f i := by
  unfold onHeld at hs
  cases hh : c.held h with
  | none => rw [hh] at hs; cases hs
  | some i =>
    rw [hh] at hs
    obtain ⟨hok, he⟩ := Option.ite_none_right_eq_some.mp hs
    exact ⟨i, held_phase hh, hok, (Option.some.inj he).symm⟩

/-- A change of one buffer that leaves it its block, and of the phase of `h`. -/
theorem works_of {f : SharedBuf → SharedBuf} {p : Phase}
    (hm : Move (c.buf i) (f (c.buf i)) i (c.phase h) p)
    (hb : (f (c.buf i)).dev = (c.buf i).dev ∧ (f (c.buf i)).blockno = (c.buf i).blockno)
    (hc : ∀ d, (c.buf i).Clean d → (f (c.buf i)).Clean d) :
    Works c ((c.updBuf i f).goto h p) h i := by
  have hself : ((c.updBuf i f).goto h p).buf i = f (c.buf i) := Function.update_self _ _ _
  have hown : ((c.updBuf i f).goto h p).phase h = p := Function.update_self _ _ _
  refine ⟨?_, fun g hg => Function.update_of_ne hg _ _, ?_, fun j hj => Function.update_of_ne hj _ _,
    fun _ _ _ => rfl, ?_⟩
  · rw [hself, hown]
    exact hm
  · rw [hself]
    exact hb
  · rw [hself]
    exact hc _

omit [DecidableEq H] in
/-- Work of the holder that may write the block to the disk. -/
theorem works_held {x : SharedBuf} (hp : c.phase h = .holds i) (hphase : c'.phase = c.phase)
    (hbuf : c'.buf i = x) (hothers : ∀ j, j ≠ i → c'.buf j = c.buf j)
    (hl : x.locked = (c.buf i).locked)
    (hb : x.dev = (c.buf i).dev ∧ x.blockno = (c.buf i).blockno)
    (hd : ∀ dev blockno, ¬ (c.buf i).isBlock dev blockno → c'.disk dev blockno = c.disk dev blockno)
    (hc : x.Clean (c'.disk (c.buf i).dev (c.buf i).blockno)) : Works c c' h i := by
  refine ⟨?_, fun _ _ => by rw [hphase], ?_, hothers, hd, fun _ => ?_⟩
  · rw [hbuf, hphase, hp]
    exact .work hl
  · rw [hbuf]
    exact hb
  · rw [hbuf]
    exact hc

theorem step_works (hs : bufStep c a = some c') :
    (∃ h i, Works c c' h i) ∨ ∃ h i dev blockno, Recycles c c' h i dev blockno := by
  cases a with
  | bget h dev blockno i =>
    obtain ⟨⟨hidle, hdev⟩, hs⟩ := Option.ite_none_right_eq_some.mp hs
    by_cases hblock : (c.buf i).isBlock dev blockno
    · rw [if_pos hblock] at hs
      cases hs
      refine .inl ⟨h, i, works_of ?_ ⟨rfl, rfl⟩ (fun _ hc => hc)⟩
      rw [hidle]
      exact .bget (by rw [hblock.1]; exact hdev) rfl rfl
    · rw [if_neg hblock] at hs
      obtain ⟨⟨habsent, hfree⟩, hs⟩ := Option.ite_none_right_eq_some.mp hs
      exact .inr ⟨h, i, dev, blockno, hdev, habsent, hfree, hidle, (Option.some.inj hs).symm⟩
  | acquiresleep h =>
    cases hp : c.phase h with
    | idle => simp [bufStep, hp] at hs
    | waits i =>
      simp only [bufStep, hp] at hs
      obtain ⟨hl, hs⟩ := Option.ite_none_left_eq_some.mp hs
      cases hs
      refine .inl ⟨h, i, works_of ?_ ⟨rfl, rfl⟩ (fun _ hc => hc)⟩
      rw [hp]
      exact .acquiresleep (by simpa using hl) rfl
    | holds i => simp [bufStep, hp] at hs
    | leaves i => simp [bufStep, hp] at hs
  | iderw h =>
    simp only [bufStep] at hs
    obtain ⟨i, hp, -, rfl⟩ := onHeld_some hs
    by_cases hd : (c.buf i).dirty = true
    · -- the block is written
      rw [if_pos hd]
      refine .inl ⟨h, i, works_held hp rfl (Function.update_self _ _ _)
        (fun j hj => Function.update_of_ne hj _ _) rfl ⟨rfl, rfl⟩ (fun dev blockno hne => ?_)
        (fun _ _ _ => ?_)⟩
      · show Function.update c.disk _ _ dev blockno = _
        by_cases hdev : dev = (c.buf i).dev
        · subst hdev
          rw [Function.update_self, Function.update_of_ne (fun he => hne ⟨rfl, he.symm⟩)]
        · rw [Function.update_of_ne hdev]
      · show (c.buf i).data = Function.update c.disk _ _ _ _
        rw [Function.update_self, Function.update_self]
    · rw [if_neg hd]
      exact .inl ⟨h, i, works_held hp rfl (Function.update_self _ _ _)
        (fun j hj => Function.update_of_ne hj _ _) rfl ⟨rfl, rfl⟩ (fun _ _ _ => rfl)
        (fun _ _ _ => rfl)⟩
  | write h data =>
    obtain ⟨i, hp, -, rfl⟩ := onHeld_some hs
    refine .inl ⟨h, i, works_held hp rfl (Function.update_self _ _ _)
      (fun j hj => Function.update_of_ne hj _ _) rfl ⟨rfl, rfl⟩ (fun _ _ _ => rfl) ?_⟩
    intro _ _ hc
    cases hc
  | bwrite h =>
    obtain ⟨i, hp, -, rfl⟩ := onHeld_some hs
    refine .inl ⟨h, i, works_held hp rfl (Function.update_self _ _ _)
      (fun j hj => Function.update_of_ne hj _ _) rfl ⟨rfl, rfl⟩ (fun _ _ _ => rfl) ?_⟩
    intro _ hd _
    cases hd
  | log_write h =>
    obtain ⟨i, hp, -, rfl⟩ := onHeld_some hs
    refine .inl ⟨h, i, works_held hp rfl (Function.update_self _ _ _)
      (fun j hj => Function.update_of_ne hj _ _) rfl ⟨rfl, rfl⟩ (fun _ _ _ => rfl) ?_⟩
    intro _ hd _
    cases hd
  | releasesleep h =>
    simp only [bufStep] at hs
    obtain ⟨i, hp, hok, rfl⟩ := onHeld_some hs
    refine .inl ⟨h, i, works_of ?_ ⟨rfl, rfl⟩ (fun _ hc => hc)⟩
    rw [hp]
    exact .releasesleep (by simpa using hok)
  | brelse h =>
    cases hp : c.phase h with
    | idle => simp [bufStep, hp] at hs
    | waits i => simp [bufStep, hp] at hs
    | holds i => simp [bufStep, hp] at hs
    | leaves i =>
      simp only [bufStep, hp] at hs
      cases hs
      refine .inl ⟨h, i, works_of ?_ ⟨rfl, rfl⟩ (fun _ hc => hc)⟩
      rw [hp]
      exact .brelse rfl rfl

omit [DecidableEq H] in
theorem boot_coherent (disk : Nat → Nat → Block) : (Shared.boot disk : Shared H).Coherent := by
  constructor
  · exact fun i j hi => absurd rfl hi
  · exact fun i hv => by cases hv
  · exact fun h i hh => by cases hh
  · exact fun h i hh => by cases hh
  · exact fun f g i hf => by cases hf
  · exact fun i hi => by cases hi

theorem Shared.Coherent.step (hc : c.Coherent) (hs : bufStep c a = some c') : c'.Coherent := by
  rcases step_works hs with ⟨h, i, hw⟩ | ⟨h, i, dev, blockno, hr⟩
  · exact hw.coherent hc
  · exact hr.coherent hc

/-- A buffer that is referred to or dirty keeps its block. -/
theorem step_keeps_block (hs : bufStep c a = some c') (j : BufIdx)
    (hj : 0 < (c.buf j).refcnt ∨ (c.buf j).dirty = true) :
    (c'.buf j).dev = (c.buf j).dev ∧ (c'.buf j).blockno = (c.buf j).blockno := by
  rcases step_works hs with ⟨h, i, hw⟩ | ⟨h, i, dev, blockno, hr⟩
  · exact hw.same_block j
  · have hne : j ≠ i := by
      intro he
      rw [he, hr.free.1, hr.free.2] at hj
      simp at hj
    rw [hr.result]
    show (Function.update c.buf i _ j).dev = _ ∧ (Function.update c.buf i _ j).blockno = _
    rw [Function.update_of_ne hne]
    exact ⟨rfl, rfl⟩

/-- In every state of a run no two buffers that have been assigned have one block, an
unlocked buffer that is valid and not dirty holds what the disk holds, and no action takes
a buffer that is referred to or dirty for another block. -/
theorem buffers_coherent (disk : Nat → Nat → Block) (as : List (BufAct H)) (c : Shared H)
    (hr : Lib.run bufStep (Shared.boot disk) as = some c) :
    (∀ i j, (c.buf i).dev ≠ 0 → (c.buf i).dev = (c.buf j).dev →
      (c.buf i).blockno = (c.buf j).blockno → i = j) ∧
    (∀ i, (c.buf i).locked = false → (c.buf i).valid = true → (c.buf i).dirty = false →
      (c.buf i).data = c.disk (c.buf i).dev (c.buf i).blockno) ∧
    ∀ a c', bufStep c a = some c' → ∀ i, 0 < (c.buf i).refcnt ∨ (c.buf i).dirty = true →
      (c'.buf i).dev = (c.buf i).dev ∧ (c'.buf i).blockno = (c.buf i).blockno := by
  have hc : c.Coherent := Lib.run_inv_all (fun _ _ _ h hs => h.step hs) (boot_coherent disk) hr
  refine ⟨fun i j hi hdev hblock => hc.unique i j hi ⟨hdev, hblock⟩, fun i hl hv hd => ?_,
    fun a c' hs i hi => step_keeps_block hs i hi⟩
  apply hc.clean i hv hd
  cases hch : (c.buf i).changed with
  | false => rfl
  | true =>
    have := hc.changed i hch
    rw [hl] at this
    cases this

end Machine

/-- Two processes write to block 7 one after the other, a flush copies it to block 3 of the
log and to its place, and its buffer goes to block 9. -/
def flushAndRecycle : List (BufAct Nat) :=
  [.bget 0 1 7 0, .acquiresleep 0, .iderw 0, .write 0 Block.zero, .log_write 0, .bget 1 1 7 0,
    .releasesleep 0, .acquiresleep 1, .brelse 0, .write 1 (Block.zero.setWord 0 5), .log_write 1,
    .releasesleep 1, .brelse 1,
    .bget 2 1 3 1, .acquiresleep 2, .iderw 2, .bget 3 1 7 0, .acquiresleep 3,
    .write 2 (Block.zero.setWord 0 5), .bwrite 2, .iderw 2, .releasesleep 3, .brelse 3,
    .releasesleep 2, .brelse 2, .bget 3 1 7 0, .acquiresleep 3, .bwrite 3, .iderw 3,
    .releasesleep 3, .brelse 3, .bget 0 1 9 0, .acquiresleep 0, .iderw 0]

theorem buffers_coherent_flushAndRecycle : ∃ c : Shared Nat,
    Lib.run bufStep (Shared.boot fun _ _ => Block.zero) flushAndRecycle = some c ∧
    (c.buf 0).blockno = 9 ∧ (c.disk 1 7).word 0 = 5 ∧
    (∀ i j, (c.buf i).dev ≠ 0 → (c.buf i).dev = (c.buf j).dev →
      (c.buf i).blockno = (c.buf j).blockno → i = j) ∧
    (∀ i, (c.buf i).locked = false → (c.buf i).valid = true → (c.buf i).dirty = false →
      (c.buf i).data = c.disk (c.buf i).dev (c.buf i).blockno) ∧
    ∀ a c', bufStep c a = some c' → ∀ i, 0 < (c.buf i).refcnt ∨ (c.buf i).dirty = true →
      (c'.buf i).dev = (c.buf i).dev ∧ (c'.buf i).blockno = (c.buf i).blockno := by
  have hrun : (Lib.run bufStep (Shared.boot fun _ _ => Block.zero) flushAndRecycle).map
      (fun c => ((c.buf 0).blockno, (c.disk 1 7).word 0)) = some (9, 5) := by decide +kernel
  obtain ⟨c, hc, he⟩ := Option.map_eq_some_iff.mp hrun
  obtain ⟨hblock, hword⟩ := Prod.mk.inj he
  exact ⟨c, hc, hblock, hword, buffers_coherent (fun _ _ => Block.zero) flushAndRecycle c hc⟩

end Xv6.Fs
