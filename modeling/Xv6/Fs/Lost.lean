import Xv6.Fs.Bio
import Xv6.Lib.Run

/- What a commit does to the updates that operations log while it runs
   (`project3_filesystem/log.c`).

   `sync1` does not wait for the operations that are under way, so that `log_write` can
   come between any two steps of `write_log`, `write_head`, `install_trans` and the reset
   of `log.lh.n`. A step of a commit ends where it waits for a buffer. An operation writes
   to a buffer that it has locked and calls `log_write` before it gives it back, and the
   commit does not see the block in between.

   `log.lh.n` is read again in every round of the two loops. A block that is logged
   before `write_log` has come to it is copied with its new contents. One that is logged
   behind that is overwritten by `install_trans` with what the log has, or is forgotten
   when `log.lh.n` becomes 0; one that is logged after the reset stays in the log. So no
   update is lost in a run in which the blocks are logged in time
   (`no_update_lost`). -/
namespace Xv6.Fs

/-- Where a call of `commit` is: at the test of the loop of `write_log`, at its
`bread(to)`, at its `bread(from)` of a block; at `write_head`; the same in
`install_trans`; or at the second `write_head`. -/
inductive CommitPc where
  | idle
  | write_log (tail : Nat)
  | write_log_to (tail : Nat)
  | write_log_from (tail b : Nat)
  | write_head
  | install_trans (tail : Nat)
  | install_trans_lbuf (tail : Nat)
  | install_trans_dbuf (tail b : Nat)
  | erase
  deriving DecidableEq, Repr

/-- The blocks as the cache has them and as they are at home, with the dirty bit of their
buffers; `log.lh`; the blocks of the log and its header on the disk; and the calls of
`commit` (`C`). `wanted` has the contents that the updates make; no code reads it. -/
structure LogState (C : Type) where
  cache : Nat → Block
  dirty : Nat → Bool
  home : Nat → Block
  n : Nat
  block : Nat → Nat
  area : Nat → Block
  head : List Nat
  pc : C → CommitPc
  wanted : Nat → Block

/-- `evict` is a `bget` that takes the buffer of a block, and the next `bread` of it. -/
inductive LogAct (C : Type) where
  | log_write (b : Nat) (f : Block → Block)
  | evict (b : Nat)
  | commit (c : C)
  | step (c : C)

namespace LogState

/-- The index at which the loop of `log_write` stops. -/
def place {C : Type} (s : LogState C) (b : Nat) : Nat :=
  ((List.range s.n).find? (fun i => s.block i == b)).getD s.n

/-- The blocks in `log.lh`. -/
def logged {C : Type} (s : LogState C) : List Nat := (List.range s.n).map s.block

/-- After recovery: nothing is logged, and the cache shows what is at home. -/
def boot {C : Type} (disk area : Nat → Block) : LogState C :=
  { cache := disk, dirty := fun _ => false, home := disk, n := 0, block := fun _ => 0, area := area,
    head := [], pc := fun _ => .idle, wanted := disk }

/-- No update is lost: the cache has it, and it is recorded in the log or at home. -/
def Kept {C : Type} (s : LogState C) : Prop :=
  ∀ b, s.cache b = s.wanted b ∧ (b ∈ s.logged ∨ s.home b = s.wanted b)

end LogState

section Machine

variable {C : Type} [DecidableEq C]

/-- One step of `commit`. -/
def commitStep (s : LogState C) (c : C) : Option (LogState C) :=
  match s.pc c with
  | .idle => none
  | .write_log tail =>
    if tail < s.n then some { s with pc := Function.update s.pc c (.write_log_to tail) }
    else some { s with pc := Function.update s.pc c .write_head }
  | .write_log_to tail =>
    some { s with pc := Function.update s.pc c (.write_log_from tail (s.block tail)) }
  | .write_log_from tail b =>
    some { s with
      area := Function.update s.area tail (s.cache b)
      pc := Function.update s.pc c (.write_log (tail + 1)) }
  | .write_head =>
    some { s with head := s.logged, pc := Function.update s.pc c (.install_trans 0) }
  | .install_trans tail =>
    if tail < s.n then some { s with pc := Function.update s.pc c (.install_trans_lbuf tail) }
    else some { s with n := 0, pc := Function.update s.pc c .erase }
  | .install_trans_lbuf tail =>
    some { s with pc := Function.update s.pc c (.install_trans_dbuf tail (s.block tail)) }
  | .install_trans_dbuf tail b =>
    -- `bwrite` clears the dirty bit
    some { s with
      cache := Function.update s.cache b (s.area tail)
      dirty := Function.update s.dirty b false
      home := Function.update s.home b (s.area tail)
      pc := Function.update s.pc c (.install_trans (tail + 1)) }
  | .erase => some { s with head := s.logged, pc := Function.update s.pc c .idle }

/-- The log of a disk with `size` blocks for it. -/
def logStep (size : Nat) (s : LogState C) : LogAct C → Option (LogState C)
  | .log_write b f =>
    -- otherwise the panic "too big a transaction"
    if s.n < LOGSIZE ∧ s.n < size - 1 then
      some { s with
        cache := Function.update s.cache b (f (s.cache b))
        dirty := Function.update s.dirty b true
        n := if s.place b = s.n then s.n + 1 else s.n
        block := Function.update s.block (s.place b) b
        wanted := Function.update s.wanted b (f (s.wanted b)) }
    else none
  | .evict b =>
    if s.dirty b then none else some { s with cache := Function.update s.cache b (s.home b) }
  | .commit c =>
    if s.pc c = .idle then
      if 0 < s.n then some { s with pc := Function.update s.pc c (.write_log 0) } else some s
    else none
  | .step c => commitStep s c

/-- The block, at `place` in the log, comes in time for a commit: none runs, `write_log`
has not come to the block, or `log.lh.n` is 0 again. -/
def InTimeFor (place b : Nat) : CommitPc → Prop
  | .idle => True
  | .write_log tail => tail ≤ place
  | .write_log_to tail => tail ≤ place
  | .write_log_from tail x => tail < place ∨ tail = place ∧ b = x
  | .write_head => False
  | .install_trans _ => False
  | .install_trans_lbuf _ => False
  | .install_trans_dbuf _ _ => False
  | .erase => True

/-- A block that is logged comes in time for every commit. -/
def InTime (s : LogState C) : LogAct C → Prop
  | .log_write b _ => ∀ c, InTimeFor (s.place b) b (s.pc c)
  | .evict _ => True
  | .commit _ => True
  | .step _ => True

instance InTimeFor.decidable (place b : Nat) : ∀ pc, Decidable (InTimeFor place b pc)
  | .idle => inferInstanceAs (Decidable True)
  | .write_log tail => inferInstanceAs (Decidable (tail ≤ place))
  | .write_log_to tail => inferInstanceAs (Decidable (tail ≤ place))
  | .write_log_from tail x => inferInstanceAs (Decidable (tail < place ∨ tail = place ∧ b = x))
  | .write_head => inferInstanceAs (Decidable False)
  | .install_trans _ => inferInstanceAs (Decidable False)
  | .install_trans_lbuf _ => inferInstanceAs (Decidable False)
  | .install_trans_dbuf _ _ => inferInstanceAs (Decidable False)
  | .erase => inferInstanceAs (Decidable True)

omit [DecidableEq C] in
instance InTime.decidable [Fintype C] (s : LogState C) : ∀ a, Decidable (InTime s a)
  | .log_write b _ => inferInstanceAs (Decidable (∀ c, InTimeFor (s.place b) b (s.pc c)))
  | .evict _ => inferInstanceAs (Decidable True)
  | .commit _ => inferInstanceAs (Decidable True)
  | .step _ => inferInstanceAs (Decidable True)

/-! ## The place of a block -/

namespace LogState

variable {s s' : LogState C} {size : Nat} {a : LogAct C} {c : C}

omit [DecidableEq C] in
theorem place_le (s : LogState C) (b : Nat) : s.place b ≤ s.n := by
  unfold place
  cases h : (List.range s.n).find? (fun i => s.block i == b) with
  | none => exact Nat.le_refl _
  | some i =>
    have hi := List.mem_of_find?_eq_some h
    exact (List.mem_range.mp hi).le

omit [DecidableEq C] in
theorem block_place {b : Nat} (h : s.place b < s.n) : s.block (s.place b) = b := by
  unfold place at h ⊢
  cases hf : (List.range s.n).find? (fun i => s.block i == b) with
  | none =>
    rw [hf] at h
    exact absurd h (Nat.lt_irrefl _)
  | some i =>
    have hi := List.find?_some hf
    exact eq_of_beq hi

omit [DecidableEq C] in
/-- A block is not logged in front of its place. -/
theorem block_ne {b j : Nat} (hj : j < s.place b) : s.block j ≠ b := by
  intro he
  have hn : j < s.n := hj.trans_le (s.place_le b)
  unfold place at hj
  cases hf : (List.range s.n).find? (fun i => s.block i == b) with
  | none =>
    have := List.find?_eq_none.mp hf j (List.mem_range.mpr hn)
    exact this (beq_iff_eq.mpr he)
  | some i =>
    rw [hf] at hj
    have := List.find?_range_eq_some.mp hf
    exact absurd (this.2.2 j hj) (by simp [he])

/-! ## The invariant -/

/-- The first `m` blocks of the log have what the cache has. -/
def Copied (s : LogState C) (m : Nat) : Prop :=
  ∀ j, j < m → s.area j = s.cache (s.block j)

/-- The first `m` blocks that are logged are at home. -/
def Installed (s : LogState C) (m : Nat) : Prop :=
  ∀ j, j < m → j < s.n → s.home (s.block j) = s.cache (s.block j)

/-- What a commit has done so far. What it has read of `log.lh` stays as it was, also
when another has set `log.lh.n` to 0 meanwhile. -/
def Progress (s : LogState C) : CommitPc → Prop
  | .idle => True
  | .write_log tail => s.Copied tail
  | .write_log_to tail => s.Copied tail
  | .write_log_from tail b => s.Copied tail ∧ s.block tail = b
  | .write_head => s.Copied s.n
  | .install_trans tail => s.Copied s.n ∧ s.Installed tail
  | .install_trans_lbuf tail =>
    (s.Copied s.n ∧ s.Installed tail) ∧ s.area tail = s.cache (s.block tail)
  | .install_trans_dbuf tail b =>
    (s.Copied s.n ∧ s.Installed tail) ∧ s.area tail = s.cache (s.block tail) ∧ s.block tail = b
  | .erase => True

structure Sound (s : LogState C) : Prop where
  cached : ∀ b, s.cache b = s.wanted b
  home : ∀ b, (∀ j, j < s.n → s.block j ≠ b) → s.home b = s.cache b
  clean : ∀ b, s.dirty b = false → s.home b = s.cache b
  progress : ∀ c, s.Progress (s.pc c)

omit [DecidableEq C] in
theorem Sound.kept (h : s.Sound) : s.Kept := by
  intro b
  refine ⟨h.cached b, ?_⟩
  by_cases hb : b ∈ s.logged
  · exact .inl hb
  · right
    have hnot : ∀ j, j < s.n → s.block j ≠ b := by
      intro j hj he
      exact hb (List.mem_map.mpr ⟨j, List.mem_range.mpr hj, he⟩)
    exact (h.home b hnot).trans (h.cached b)

omit [DecidableEq C] in
/-- A commit keeps what it has done while others copy and install, and set `log.lh.n`
to 0. -/
theorem Progress.mono {pc : CommitPc} (hcache : s'.cache = s.cache) (hblock : s'.block = s.block)
    (hn : s'.n ≤ s.n)
    (harea : ∀ j, s.area j = s.cache (s.block j) → s'.area j = s.cache (s.block j))
    (hhome : ∀ b, s.home b = s.cache b → s'.home b = s.cache b) (h : s.Progress pc) :
    s'.Progress pc := by
  have hcopied : ∀ m, s.Copied m → s'.Copied m := by
    intro m hm j hj
    rw [hcache, hblock]
    exact harea j (hm j hj)
  have hcopied_n : s.Copied s.n → s'.Copied s'.n := by
    intro hm
    exact hcopied _ fun j hj => hm j (hj.trans_le hn)
  have hinstalled : ∀ m, s.Installed m → s'.Installed m := by
    intro m hm j hj hjn
    rw [hcache, hblock]
    exact hhome _ (hm j hj (hjn.trans_le hn))
  have harea' : ∀ j, s.area j = s.cache (s.block j) → s'.area j = s'.cache (s'.block j) := by
    intro j hj
    rw [hcache, hblock]
    exact harea j hj
  cases pc with
  | idle => trivial
  | write_log tail => exact hcopied tail h
  | write_log_to tail => exact hcopied tail h
  | write_log_from tail b => exact ⟨hcopied tail h.1, hblock ▸ h.2⟩
  | write_head => exact hcopied_n h
  | install_trans tail => exact ⟨hcopied_n h.1, hinstalled tail h.2⟩
  | install_trans_lbuf tail => exact ⟨⟨hcopied_n h.1.1, hinstalled tail h.1.2⟩, harea' tail h.2⟩
  | install_trans_dbuf tail b =>
    exact ⟨⟨hcopied_n h.1.1, hinstalled tail h.1.2⟩, harea' tail h.2.1, hblock ▸ h.2.2⟩
  | erase => trivial

/-- A step of a commit that changes its own place only. -/
theorem Sound.setPc (h : s.Sound) {pc : CommitPc} (hpc : s.Progress pc) :
    ({ s with pc := Function.update s.pc c pc } : LogState C).Sound := by
  refine ⟨h.cached, h.home, h.clean, fun d => ?_⟩
  show LogState.Progress _ (Function.update s.pc c pc d)
  by_cases hd : d = c
  · subst hd
    rw [Function.update_self]
    exact hpc.mono rfl rfl (Nat.le_refl _) (fun _ hj => hj) (fun _ hb => hb)
  · rw [Function.update_of_ne hd]
    exact (h.progress d).mono rfl rfl (Nat.le_refl _) (fun _ hj => hj) (fun _ hb => hb)

omit [DecidableEq C] in
/-- `write_log` copies a block. -/
theorem Sound.copy (h : s.Sound) {tail b : Nat} (hb : s.block tail = b) :
    ({ s with area := Function.update s.area tail (s.cache b) } : LogState C).Sound := by
  have harea : ∀ j, s.area j = s.cache (s.block j) →
      Function.update s.area tail (s.cache b) j = s.cache (s.block j) := by
    intro j hj
    by_cases hjt : j = tail
    · rw [hjt, Function.update_self, hb]
    · rw [Function.update_of_ne hjt]
      exact hj
  refine ⟨h.cached, h.home, h.clean, fun d => ?_⟩
  exact Progress.mono (s := s) rfl rfl (Nat.le_refl _) harea (fun _ hb => hb) (h.progress d)

omit [DecidableEq C] in
/-- `install_trans` copies to a block what it has already. -/
theorem Sound.install (h : s.Sound) {b : Nat} {data : Block} (hdata : data = s.cache b) :
    ({ s with
        cache := Function.update s.cache b data
        dirty := Function.update s.dirty b false
        home := Function.update s.home b data } : LogState C).Sound := by
  have hcache : Function.update s.cache b data = s.cache := by
    rw [hdata, Function.update_eq_self]
  have hhome : ∀ x, s.home x = s.cache x → Function.update s.home b data x = s.cache x := by
    intro x hx
    by_cases hxb : x = b
    · rw [hxb, Function.update_self, hdata]
    · rw [Function.update_of_ne hxb]
      exact hx
  refine ⟨fun x => ?_, fun x hx => ?_, fun x hx => ?_, fun d => ?_⟩
  · show Function.update s.cache b data x = s.wanted x
    rw [hcache]
    exact h.cached x
  · show Function.update s.home b data x = Function.update s.cache b data x
    rw [hcache]
    exact hhome x (h.home x hx)
  · show Function.update s.home b data x = Function.update s.cache b data x
    change Function.update s.dirty b false x = false at hx
    by_cases hxb : x = b
    · rw [hxb, Function.update_self, Function.update_self]
    · rw [hcache]
      rw [Function.update_of_ne hxb] at hx
      exact hhome x (h.clean x hx)
  · exact (h.progress d).mono hcache rfl (Nat.le_refl _) (fun _ hj => hj) hhome

omit [DecidableEq C] in
/-- `log.lh.n` becomes 0 when every block is at home. -/
theorem Sound.reset (h : s.Sound) (hhome : s.Installed s.n) :
    ({ s with n := 0 } : LogState C).Sound := by
  refine ⟨h.cached, fun x _ => ?_, h.clean, fun d => ?_⟩
  · show s.home x = s.cache x
    by_cases hx : ∃ j, j < s.n ∧ s.block j = x
    · obtain ⟨j, hj, he⟩ := hx
      rw [← he]
      exact hhome j hj hj
    · apply h.home
      intro j hj he
      exact hx ⟨j, hj, he⟩
  · exact Progress.mono (s := s) rfl rfl (Nat.zero_le _) (fun _ hj => hj) (fun _ hb => hb)
      (h.progress d)

/-- What a step of a commit preserves. -/
theorem Sound.step (h : s.Sound) (hs : commitStep s c = some s') : s'.Sound := by
  have hprogress := h.progress c
  unfold commitStep at hs
  cases hpc : s.pc c with
  | idle =>
    rw [hpc] at hs
    cases hs
  | write_log tail =>
    rw [hpc] at hs hprogress
    change (if tail < s.n then _ else _) = _ at hs
    split at hs
    · cases hs
      exact h.setPc hprogress
    · next hn =>
      cases hs
      apply h.setPc
      intro j hj
      exact hprogress j (by omega)
  | write_log_to tail =>
    rw [hpc] at hs hprogress
    cases hs
    exact h.setPc ⟨hprogress, rfl⟩
  | write_log_from tail b =>
    rw [hpc] at hs hprogress
    cases hs
    apply (h.copy hprogress.2).setPc
    intro j hj
    show Function.update s.area tail (s.cache b) j = s.cache (s.block j)
    by_cases hjt : j = tail
    · rw [hjt, Function.update_self, hprogress.2]
    · rw [Function.update_of_ne hjt]
      exact hprogress.1 j (by omega)
  | write_head =>
    rw [hpc] at hs hprogress
    cases hs
    have hhead : ({ s with head := s.logged } : LogState C).Sound := ⟨h.cached, h.home, h.clean, h.progress⟩
    apply hhead.setPc
    exact ⟨hprogress, fun j hj => absurd hj (Nat.not_lt_zero j)⟩
  | install_trans tail =>
    rw [hpc] at hs hprogress
    change (if tail < s.n then _ else _) = _ at hs
    split at hs
    · next hn =>
      cases hs
      exact h.setPc ⟨hprogress, hprogress.1 tail hn⟩
    · next hn =>
      cases hs
      have hreset := h.reset fun j hj hjn => hprogress.2 j (by omega) hjn
      exact hreset.setPc trivial
  | install_trans_lbuf tail =>
    rw [hpc] at hs hprogress
    cases hs
    exact h.setPc ⟨hprogress.1, hprogress.2, rfl⟩
  | install_trans_dbuf tail b =>
    rw [hpc] at hs hprogress
    cases hs
    obtain ⟨⟨hcopied, hinstalled⟩, harea, hb⟩ := hprogress
    rw [hb] at harea
    apply (h.install harea).setPc
    have hcache : Function.update s.cache b (s.area tail) = s.cache := by
      rw [harea, Function.update_eq_self]
    constructor
    · intro j hj
      show s.area j = Function.update s.cache b (s.area tail) (s.block j)
      rw [hcache]
      exact hcopied j hj
    · intro j hj hjn
      show Function.update s.home b (s.area tail) (s.block j) =
        Function.update s.cache b (s.area tail) (s.block j)
      by_cases hjb : s.block j = b
      · rw [hjb, Function.update_self, Function.update_self]
      · rw [hcache, Function.update_of_ne hjb]
        have hjt : j ≠ tail := fun he => hjb (he ▸ hb)
        exact hinstalled j (by omega) hjn
  | erase =>
    rw [hpc] at hs
    cases hs
    have hhead : ({ s with head := s.logged } : LogState C).Sound := ⟨h.cached, h.home, h.clean, h.progress⟩
    exact hhead.setPc trivial

omit [DecidableEq C] in
/-- A commit keeps what it has done when a block is logged in time for it. -/
theorem Progress.log_write {pc : CommitPc} {b : Nat} (ho : InTimeFor (s.place b) b pc)
    (hcache : ∀ x, x ≠ b → s'.cache x = s.cache x) (harea : s'.area = s.area)
    (hblock : s'.block = Function.update s.block (s.place b) b) (h : s.Progress pc) :
    s'.Progress pc := by
  -- the blocks of the log in front of the new one stay as they are
  have hcopied : ∀ m, m ≤ s.place b → s.Copied m → s'.Copied m := by
    intro m hm hc j hj
    have hjb : s.block j ≠ b := block_ne (hj.trans_le hm)
    rw [harea, hblock, Function.update_of_ne (by omega), hcache _ hjb]
    exact hc j hj
  cases pc with
  | idle => trivial
  | write_log tail => exact hcopied tail ho h
  | write_log_to tail => exact hcopied tail ho h
  | write_log_from tail x =>
    rcases ho with hlt | ⟨heq, hbx⟩
    · refine ⟨hcopied tail (by omega) h.1, ?_⟩
      rw [hblock, Function.update_of_ne (by omega)]
      exact h.2
    · refine ⟨hcopied tail (by omega) h.1, ?_⟩
      rw [hblock, heq, Function.update_self]
      exact hbx
  | write_head => exact ho.elim
  | install_trans tail => exact ho.elim
  | install_trans_lbuf tail => exact ho.elim
  | install_trans_dbuf tail x => exact ho.elim
  | erase => trivial

/-- What a `log_write` in time preserves. -/
theorem Sound.log_write {b : Nat} {f : Block → Block} (h : s.Sound)
    (ho : InTime s (.log_write b f)) (hs : logStep size s (.log_write b f) = some s') : s'.Sound := by
  obtain ⟨-, he⟩ := Option.ite_none_right_eq_some.mp hs
  cases he
  have hcache : ∀ x, x ≠ b → Function.update s.cache b (f (s.cache b)) x = s.cache x := by
    intro x hx
    exact Function.update_of_ne hx _ _
  have hle := s.place_le b
  refine ⟨fun x => ?_, fun x hx => ?_, fun x hx => ?_, fun d => ?_⟩
  · show Function.update s.cache b _ x = Function.update s.wanted b _ x
    by_cases hxb : x = b
    · rw [hxb, Function.update_self, Function.update_self, h.cached]
    · rw [hcache x hxb, Function.update_of_ne hxb, h.cached]
  · show s.home x = Function.update s.cache b _ x
    change ∀ j, j < (if s.place b = s.n then s.n + 1 else s.n) →
      Function.update s.block (s.place b) b j ≠ x at hx
    have hxb : x ≠ b := by
      intro he
      apply hx (s.place b) (by split <;> omega)
      rw [he, Function.update_self]
    rw [hcache x hxb]
    apply h.home
    intro j hj he
    by_cases hjp : j = s.place b
    · -- what the new block replaces is the block itself
      rw [hjp, block_place (hjp ▸ hj)] at he
      exact hxb he.symm
    · apply hx j (by split <;> omega)
      rw [Function.update_of_ne hjp]
      exact he
  · show s.home x = Function.update s.cache b _ x
    change Function.update s.dirty b true x = false at hx
    by_cases hxb : x = b
    · rw [hxb, Function.update_self] at hx
      cases hx
    · rw [Function.update_of_ne hxb] at hx
      rw [hcache x hxb]
      exact h.clean x hx
  · exact Progress.log_write (ho d) hcache rfl rfl (h.progress d)

/-- A buffer that is taken for another block shows what is at home when it is read
again. -/
theorem Sound.evict {b : Nat} (h : s.Sound) (hs : logStep size s (.evict b) = some s') : s'.Sound := by
  simp only [logStep] at hs
  split at hs
  · cases hs
  · next hd =>
    cases hs
    have hcache : Function.update s.cache b (s.home b) = s.cache := by
      rw [h.clean b (Bool.eq_false_iff.mpr hd), Function.update_eq_self]
    rw [hcache]
    exact ⟨h.cached, h.home, h.clean, h.progress⟩

/-- What a step preserves. -/
theorem Sound.next (h : s.Sound) (ho : InTime s a) (hs : logStep size s a = some s') : s'.Sound := by
  cases a with
  | log_write b f => exact h.log_write ho hs
  | evict b => exact h.evict hs
  | commit c =>
    simp only [logStep] at hs
    split at hs
    · split at hs
      · cases hs
        apply h.setPc
        exact fun j hj => absurd hj (Nat.not_lt_zero j)
      · cases hs
        exact h
    · cases hs
  | step c => exact h.step hs

omit [DecidableEq C] in
theorem boot_sound (disk area : Nat → Block) : (boot disk area : LogState C).Sound :=
  ⟨fun _ => rfl, fun _ _ => rfl, fun _ _ => rfl, fun _ => trivial⟩

end LogState

/-- In every state of a run in which the blocks are logged in time no update is lost,
whatever commits there are. -/
theorem no_update_lost (size : Nat) (disk area : Nat → Block) (as : List (LogAct C)) (s : LogState C)
    (hm : Lib.Meets (logStep size) InTime (LogState.boot disk area) as)
    (hr : Lib.run (logStep size) (LogState.boot disk area) as = some s) : s.Kept := by
  have hs : s.Sound := by
    apply Lib.run_inv (I := LogState.Sound) _ as _ s (LogState.boot_sound disk area) hm hr
    intro s a s' h ho hs
    exact h.next ho hs
  exact hs.kept

end Machine

/-- An operation logs a block and, while `write_log` is at it, another; then the commit
runs to its end. -/
def logAndCommit : List (LogAct (Fin 2)) :=
  [.log_write 20 (fun _ _ => 1), .commit 0, .step 0, .step 0, .log_write 21 (fun _ _ => 2)] ++
    List.replicate 14 (.step 0)

theorem no_update_lost_logAndCommit : ∃ s : LogState (Fin 2),
    Lib.run (logStep 52) (LogState.boot (fun _ => Block.zero) fun _ => Block.zero) logAndCommit = some s ∧
    s.Kept := by
  refine ⟨_, rfl, ?_⟩
  apply no_update_lost 52 (fun _ => Block.zero) (fun _ => Block.zero) logAndCommit _ _ rfl
  decide

/-- A block is logged again while `install_trans` is at it. -/
def logAgain : List (LogAct (Fin 2)) :=
  [.log_write 20 (fun _ _ => 1), .commit 0] ++ List.replicate 6 (.step 0) ++
    [.log_write 20 (fun _ _ => 2)] ++ List.replicate 4 (.step 0)

/-- It is logged again when `install_trans` has copied it. -/
def logLate : List (LogAct (Fin 2)) :=
  [.log_write 20 (fun _ _ => 1), .commit 0] ++ List.replicate 8 (.step 0) ++
    [.log_write 20 (fun _ _ => 2)] ++ List.replicate 2 (.step 0)

/-- In the first run the update is overwritten, in the second it is forgotten. -/
theorem updates_lost :
    (∃ s : LogState (Fin 2),
      Lib.run (logStep 52) (LogState.boot (fun _ => Block.zero) fun _ => Block.zero) logAgain = some s ∧
      (∀ c, s.pc c = .idle) ∧ s.cache 20 0 ≠ s.wanted 20 0 ∧ ¬ s.Kept) ∧
    ∃ s : LogState (Fin 2),
      Lib.run (logStep 52) (LogState.boot (fun _ => Block.zero) fun _ => Block.zero) logLate = some s ∧
      (∀ c, s.pc c = .idle) ∧ 20 ∉ s.logged ∧ s.home 20 0 ≠ s.wanted 20 0 ∧ ¬ s.Kept := by
  constructor
  · refine ⟨_, rfl, by decide, by decide, fun h => ?_⟩
    have hbyte := congrFun (h 20).1 0
    exact absurd hbyte (by decide)
  · refine ⟨_, rfl, by decide, by decide, by decide, fun h => ?_⟩
    rcases (h 20).2 with hlogged | hhome
    · exact absurd hlogged (by decide)
    · have hbyte := congrFun hhome 0
      exact absurd hbyte (by decide)

end Xv6.Fs
