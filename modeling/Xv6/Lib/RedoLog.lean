import Mathlib.Data.List.Basic

/- A physical redo log over blocks of an arbitrary type, as a list of single-block
   writes. The log area starts with a header block at `start`, which lists home
   blocks, followed by one copy for each of them. A commit writes the copies, the
   header, the home blocks, and the empty header; recovery copies what the header
   lists and writes the empty header.

   `Recoverable d t`: recovery from the disk `d` yields the contents `t` outside
   the log area. Every write of a recovery keeps it, so it does not matter how
   often recovery itself is interrupted (`Reboots`); and of every prefix of a
   commit's writes it holds for the old contents up to the header write and for the
   new ones from there on. -/
namespace Xv6.Lib.RedoLog

variable {β : Type}

def upd (d : Nat → β) (b : Nat) (v : β) : Nat → β := fun x => if x = b then v else d x

/-- The disk after a list of writes, in issue order. -/
def applyWrites (d : Nat → β) : List (Nat × β) → Nat → β
  | [] => d
  | w :: ws => applyWrites (upd d w.1 w.2) ws

theorem applyWrites_append (ws vs : List (Nat × β)) : ∀ d : Nat → β,
    applyWrites d (ws ++ vs) = applyWrites (applyWrites d ws) vs := by
  induction ws with
  | nil => intro d; rfl
  | cons w ws ih => intro d; exact ih _

theorem applyWrites_other {x : Nat} : ∀ (ws : List (Nat × β)) (d : Nat → β),
    (∀ w ∈ ws, w.1 ≠ x) → applyWrites d ws x = d x := by
  intro ws
  induction ws with
  | nil => intro d _; rfl
  | cons w ws ih =>
    intro d h
    have hw : x ≠ w.1 := (h w (by simp)).symm
    rw [applyWrites, ih _ (fun v hv => h v (by simp [hv]))]
    simp [upd, hw]

/-- If every write to `x` writes `v`, then `x` holds `v` afterwards, unless it was
not written and held something else. -/
theorem applyWrites_same {x : Nat} {v : β} : ∀ (ws : List (Nat × β)) (d : Nat → β),
    (∀ w ∈ ws, w.1 = x → w.2 = v) → (d x = v ∨ ∃ w ∈ ws, w.1 = x) →
      applyWrites d ws x = v := by
  intro ws
  induction ws with
  | nil =>
    intro d _ h
    rcases h with h | ⟨w, hw, -⟩
    · exact h
    · simp at hw
  | cons w ws ih =>
    intro d hv h
    refine ih _ (fun u hu => hv u (by simp [hu])) ?_
    by_cases hw : w.1 = x
    · exact .inl (by simp [upd, ← hw, hv w (by simp) hw])
    · rcases h with h | ⟨u, hu, hux⟩
      · exact .inl (by simp [upd, Ne.symm hw, h])
      · rcases List.mem_cons.mp hu with rfl | hu
        · exact absurd hux hw
        · exact .inr ⟨u, hu, hux⟩

section Log

/- The header block and the number of copies the log area has room for; how a
   header block is read, and how the list of home blocks is put into one. -/
variable (start size : Nat) (dec : β → List Nat) (enc : β → List Nat → β)

/-- Outside the log area. -/
def Home (x : Nat) : Prop := x < start ∨ start + size < x

instance (x : Nat) : Decidable (Home start size x) :=
  inferInstanceAs (Decidable (x < start ∨ start + size < x))

/-- The copies of the blocks `bs` with contents `t`, from position `i` on. -/
def copyWrites (t : Nat → β) : Nat → List Nat → List (Nat × β)
  | _, [] => []
  | i, b :: bs => (start + 1 + i, t b) :: copyWrites t (i + 1) bs

def homeWrites (t : Nat → β) (bs : List Nat) : List (Nat × β) := bs.map (fun b => (b, t b))

/-- The writes of a commit of the contents `t` of the blocks `bs` to the disk `d`. -/
def commitWrites (d t : Nat → β) (bs : List Nat) : List (Nat × β) :=
  copyWrites start t 0 bs ++ ((start, enc (d start) bs) :: (homeWrites t bs ++
    [(start, enc (enc (d start) bs) [])]))

/-- The writes that copy the listed blocks home, from position `i` of the log on. -/
def installWrites (d : Nat → β) : Nat → List Nat → List (Nat × β)
  | _, [] => []
  | i, b :: bs => (b, d (start + 1 + i)) :: installWrites d (i + 1) bs

/-- The writes of a recovery from the disk `d`. -/
def recoverWrites (d : Nat → β) : List (Nat × β) :=
  installWrites start d 0 (dec (d start)) ++ [(start, enc (d start) [])]

/-- The disk after a recovery that completes. -/
def recovered (d : Nat → β) : Nat → β := applyWrites d (recoverWrites start dec enc d)

/-- The disks that any number of interrupted recoveries can leave. -/
inductive Reboots (d : Nat → β) : (Nat → β) → Prop where
  | refl : Reboots d d
  | crash {d' : Nat → β} (k : Nat) : Reboots d d' →
    Reboots d (applyWrites d' ((recoverWrites start dec enc d').take k))

/-- Recovery from `d` yields the contents `t` outside the log area. -/
structure Recoverable (d t : Nat → β) : Prop where
  home : ∀ b ∈ dec (d start), Home start size b
  room : (dec (d start)).length ≤ size
  copy : ∀ i b, (dec (d start))[i]? = some b → d (start + 1 + i) = t b
  rest : ∀ x, Home start size x → x ∉ dec (d start) → d x = t x

variable {start size dec enc}

theorem Home.ne_start {x : Nat} (h : Home start size x) : x ≠ start := by
  unfold Home at h
  omega

theorem Home.ne_copy {x i : Nat} (h : Home start size x) (hi : i < size) : x ≠ start + 1 + i := by
  unfold Home at h
  omega

theorem mem_copyWrites {t : Nat → β} {w : Nat × β} : ∀ (bs : List Nat) (i : Nat),
    w ∈ copyWrites start t i bs → start + 1 + i ≤ w.1 ∧ w.1 < start + 1 + i + bs.length := by
  intro bs
  induction bs with
  | nil => intro i h; simp [copyWrites] at h
  | cons b bs ih =>
    intro i h
    simp only [copyWrites, List.mem_cons] at h
    simp only [List.length_cons]
    rcases h with rfl | h
    · simp only
      omega
    · have := ih (i + 1) h
      omega

theorem length_copyWrites (t : Nat → β) : ∀ (bs : List Nat) (i : Nat),
    (copyWrites start t i bs).length = bs.length := by
  intro bs
  induction bs with
  | nil => intro i; rfl
  | cons b bs ih => intro i; simp [copyWrites, ih]

/-- After all copies are written, position `i + j` holds the contents of the `j`-th
block. -/
theorem applyWrites_copyWrites {t : Nat → β} : ∀ (bs : List Nat) (i j : Nat) (b : Nat)
    (d : Nat → β), bs[j]? = some b →
      applyWrites d (copyWrites start t i bs) (start + 1 + (i + j)) = t b := by
  intro bs
  induction bs with
  | nil => intro i j b d h; simp at h
  | cons c bs ih =>
    intro i j b d h
    cases j with
    | zero =>
      simp only [List.getElem?_cons_zero, Option.some.injEq] at h
      subst h
      rw [copyWrites, applyWrites, applyWrites_other]
      · simp [upd]
      · intro w hw
        have := mem_copyWrites bs (i + 1) hw
        omega
    | succ j =>
      rw [copyWrites, applyWrites, show i + (j + 1) = i + 1 + j by omega]
      exact ih (i + 1) j b _ (by simpa using h)

theorem copyWrites_congr {t t' : Nat → β} : ∀ (bs : List Nat) (i : Nat),
    (∀ b ∈ bs, t b = t' b) → copyWrites start t i bs = copyWrites start t' i bs := by
  intro bs
  induction bs with
  | nil => intro i _; rfl
  | cons b bs ih =>
    intro i h
    rw [copyWrites, copyWrites, h b (by simp), ih (i + 1) (fun c hc => h c (by simp [hc]))]

theorem installWrites_congr {d d' : Nat → β} : ∀ (bs : List Nat) (i : Nat),
    (∀ j, i ≤ j → j < i + bs.length → d (start + 1 + j) = d' (start + 1 + j)) →
      installWrites start d i bs = installWrites start d' i bs := by
  intro bs
  induction bs with
  | nil => intro i _; rfl
  | cons b bs ih =>
    intro i h
    simp only [List.length_cons] at h
    rw [installWrites, installWrites, h i (by omega) (by omega),
      ih (i + 1) (fun j h1 h2 => h j (by omega) (by omega))]

/-- Installing the copies of `t` writes `t` home. -/
theorem installWrites_copies {d t : Nat → β} : ∀ (bs : List Nat) (i : Nat),
    (∀ j b, bs[j]? = some b → d (start + 1 + (i + j)) = t b) →
      installWrites start d i bs = homeWrites t bs := by
  intro bs
  induction bs with
  | nil => intro i _; rfl
  | cons b bs ih =>
    intro i h
    have hb : d (start + 1 + i) = t b := h 0 b rfl
    have hrest : installWrites start d (i + 1) bs = homeWrites t bs := by
      refine ih (i + 1) (fun j c hj => ?_)
      rw [show i + 1 + j = i + (j + 1) by omega]
      exact h (j + 1) c (by simpa using hj)
    rw [installWrites, hb, hrest]
    rfl

theorem mem_installWrites {d : Nat → β} {w : Nat × β} : ∀ (bs : List Nat) (i : Nat),
    w ∈ installWrites start d i bs →
      ∃ j, bs[j]? = some w.1 ∧ w.2 = d (start + 1 + (i + j)) := by
  intro bs
  induction bs with
  | nil => intro i h; simp [installWrites] at h
  | cons b bs ih =>
    intro i h
    simp only [installWrites, List.mem_cons] at h
    rcases h with rfl | h
    · exact ⟨0, rfl, rfl⟩
    · obtain ⟨j, hj, hv⟩ := ih (i + 1) h
      exact ⟨j + 1, by simpa using hj, by rw [hv]; congr 1; omega⟩

theorem exists_installWrites {d : Nat → β} {x : Nat} : ∀ (bs : List Nat) (i : Nat), x ∈ bs →
    ∃ w ∈ installWrites start d i bs, w.1 = x := by
  intro bs
  induction bs with
  | nil => intro i h; simp at h
  | cons b bs ih =>
    intro i h
    rcases List.mem_cons.mp h with rfl | h
    · exact ⟨_, List.mem_cons_self, rfl⟩
    · obtain ⟨w, hw, hx⟩ := ih (i + 1) h
      exact ⟨w, List.mem_cons_of_mem _ hw, hx⟩

theorem Recoverable.congr {d t t' : Nat → β} (h : Recoverable start size dec d t)
    (ht : ∀ x, Home start size x → t x = t' x) : Recoverable start size dec d t' := by
  refine ⟨h.home, h.room, fun i b hi => ?_, fun x hx hnot => ?_⟩
  · rw [← ht b (h.home b (List.mem_of_getElem? hi))]
    exact h.copy i b hi
  · rw [← ht x hx]
    exact h.rest x hx hnot

/-- Every write of a recovery but the last goes to a listed block and writes what
that block is to hold. -/
theorem Recoverable.install {d t : Nat → β} (h : Recoverable start size dec d t) {w : Nat × β}
    (hw : w ∈ installWrites start d 0 (dec (d start))) :
    w.1 ∈ dec (d start) ∧ w.2 = t w.1 := by
  obtain ⟨j, hj, hv⟩ := mem_installWrites _ 0 hw
  refine ⟨List.mem_of_getElem? hj, ?_⟩
  rw [hv, Nat.zero_add]
  exact h.copy j w.1 hj

/-- Some of the listed blocks have been written. -/
theorem Recoverable.writes {d t : Nat → β} (h : Recoverable start size dec d t)
    {ws : List (Nat × β)} (hws : ∀ w ∈ ws, w.1 ∈ dec (d start) ∧ w.2 = t w.1) :
    Recoverable start size dec (applyWrites d ws) t := by
  have hstart : applyWrites d ws start = d start :=
    applyWrites_other ws d (fun w hw => (h.home w.1 (hws w hw).1).ne_start)
  constructor
  · rw [hstart]; exact h.home
  · rw [hstart]; exact h.room
  · intro i b hi
    rw [hstart] at hi
    have hlt : i < size := by
      have := (List.getElem?_eq_some_iff.mp hi).1
      have := h.room
      omega
    rw [applyWrites_other ws d (fun w hw => (h.home w.1 (hws w hw).1).ne_copy hlt)]
    exact h.copy i b hi
  · intro x hx hnot
    rw [hstart] at hnot
    rw [applyWrites_other (x := x) ws d (fun w hw he => hnot (he ▸ (hws w hw).1))]
    exact h.rest x hx hnot

/-- A recovery that completes. -/
theorem Recoverable.recovered {d t : Nat → β} (h : Recoverable start size dec d t)
    {e : β → List Nat → β} (h0 : ∀ v, dec (e v []) = []) :
    dec (recovered start dec e d start) = [] ∧
      ∀ x, Home start size x → recovered start dec e d x = t x := by
  have hlast : ∀ f : Nat → β, applyWrites f [(start, e (d start) [])] =
      upd f start (e (d start) []) := fun _ => rfl
  constructor
  · simp [RedoLog.recovered, recoverWrites, applyWrites_append, hlast, upd, h0]
  · intro x hx
    rw [RedoLog.recovered, recoverWrites, applyWrites_append, hlast, upd, if_neg hx.ne_start]
    refine applyWrites_same _ d (fun w hw he => ?_) ?_
    · rw [← he]; exact (h.install hw).2
    · by_cases hl : x ∈ dec (d start)
      · exact .inr (exists_installWrites _ 0 hl)
      · exact .inl (h.rest x hx hl)

/-- An interrupted recovery can be repeated. -/
theorem Recoverable.crash {d t : Nat → β} (h : Recoverable start size dec d t)
    (h0 : ∀ v, dec (enc v []) = []) (k : Nat) :
    Recoverable start size dec (applyWrites d ((recoverWrites start dec enc d).take k)) t := by
  have hinst : ∀ j, Recoverable start size dec
      (applyWrites d ((installWrites start d 0 (dec (d start))).take j)) t := fun j =>
    h.writes (fun w hw => h.install (List.mem_of_mem_take hw))
  by_cases hk : k ≤ (installWrites start d 0 (dec (d start))).length
  · rw [recoverWrites, List.take_append_of_le_length hk]
    exact hinst k
  · -- the empty header has been written as well
    have htake : (recoverWrites start dec enc d).take k = recoverWrites start dec enc d := by
      refine List.take_of_length_le ?_
      simp only [recoverWrites, List.length_append, List.length_cons, List.length_nil]
      omega
    obtain ⟨hd, hx⟩ := h.recovered (e := enc) h0
    rw [htake]
    constructor
    · intro b hb
      simp only [RedoLog.recovered] at hd
      simp [hd] at hb
    · simp only [RedoLog.recovered] at hd
      simp [hd]
    · intro i b hi
      simp only [RedoLog.recovered] at hd
      simp [hd] at hi
    · exact fun x hx' _ => hx x hx'

theorem Recoverable.reboots {d d' t : Nat → β} (h : Recoverable start size dec d t)
    (h0 : ∀ v, dec (enc v []) = []) (hr : Reboots start dec enc d d') :
    Recoverable start size dec d' t := by
  induction hr with
  | refl => exact h
  | crash k _ ih => exact ih.crash h0 k

/-- A disk with an empty header. -/
theorem recoverable_of_empty {d t : Nat → β} (h0 : dec (d start) = [])
    (ht : ∀ x, Home start size x → d x = t x) : Recoverable start size dec d t := by
  refine ⟨?_, ?_, ?_, fun x hx _ => ht x hx⟩
  · intro b hb; simp [h0] at hb
  · simp [h0]
  · intro i b hi; simp [h0] at hi

section Commit

variable {d t : Nat → β} {bs : List Nat} (hbs : ∀ b ∈ bs, Home start size b)
  (hroom : bs.length ≤ size) (hd0 : dec (d start) = [])
  (h0 : ∀ v, dec (enc v []) = []) (henc : dec (enc (d start) bs) = bs)
include hbs hroom hd0 h0 henc

omit hbs h0 henc in
/-- Up to the header write, recovery yields the old contents. -/
theorem recoverable_before {k : Nat} (hk : k ≤ bs.length) :
    Recoverable start size dec
      (applyWrites d ((commitWrites start enc d t bs).take k)) d := by
  rw [commitWrites, List.take_append_of_le_length (by rw [length_copyWrites]; exact hk)]
  have hmem : ∀ w ∈ (copyWrites start t 0 bs).take k, start < w.1 ∧ w.1 ≤ start + size := by
    intro w hw
    have := mem_copyWrites bs 0 (List.mem_of_mem_take hw)
    omega
  refine recoverable_of_empty ?_ (fun x hx => ?_)
  · rw [applyWrites_other _ _ (fun w hw => by have := hmem w hw; omega)]
    exact hd0
  · refine applyWrites_other _ _ (fun w hw he => ?_)
    have := hmem w hw
    unfold Home at hx
    omega

omit hd0 in
/-- From the header write on, recovery yields the new contents. -/
theorem recoverable_after (ht : ∀ x, Home start size x → x ∉ bs → d x = t x) {k : Nat}
    (hk : bs.length < k) :
    Recoverable start size dec
      (applyWrites d ((commitWrites start enc d t bs).take k)) t := by
  -- the disk just after the header write
  obtain ⟨e, he⟩ : ∃ e, e = upd (applyWrites d (copyWrites start t 0 bs)) start
      (enc (d start) bs) := ⟨_, rfl⟩
  have hes : e start = enc (d start) bs := by simp [he, upd]
  have hrec : Recoverable start size dec e t := by
    constructor
    · rw [hes, henc]; exact hbs
    · rw [hes, henc]; exact hroom
    · intro i b hi
      rw [hes, henc] at hi
      have hne : start + 1 + i ≠ start := by omega
      rw [he, upd, if_neg hne]
      have hcopy : applyWrites d (copyWrites start t 0 bs) (start + 1 + (0 + i)) = t b :=
        applyWrites_copyWrites bs 0 i b d hi
      rwa [Nat.zero_add] at hcopy
    · intro x hx hnot
      rw [hes, henc] at hnot
      rw [he, upd, if_neg hx.ne_start, applyWrites_other]
      · exact ht x hx hnot
      · intro w hw heq
        have := mem_copyWrites bs 0 hw
        unfold Home at hx
        omega
  obtain ⟨j, hj⟩ : ∃ j, k = (copyWrites start t 0 bs).length + (j + 1) :=
    ⟨k - bs.length - 1, by rw [length_copyWrites]; omega⟩
  have hsplit : applyWrites d ((commitWrites start enc d t bs).take k) =
      applyWrites e ((homeWrites t bs ++ [(start, enc (enc (d start) bs) [])]).take j) := by
    rw [commitWrites, hj, List.take_length_add_append, List.take_succ_cons, applyWrites_append,
      applyWrites, ← he]
  rw [hsplit]
  have hhome : ∀ w ∈ homeWrites t bs, w.1 ∈ dec (e start) ∧ w.2 = t w.1 := by
    intro w hw
    simp only [homeWrites, List.mem_map] at hw
    obtain ⟨b, hb, rfl⟩ := hw
    rw [hes, henc]
    exact ⟨hb, rfl⟩
  by_cases hjl : j ≤ (homeWrites t bs).length
  · rw [List.take_append_of_le_length hjl]
    exact hrec.writes (fun w hw => hhome w (List.mem_of_mem_take hw))
  · -- all home blocks are written, and the header is empty again
    rw [List.take_of_length_le (by
      simp only [List.length_append, List.length_cons, List.length_nil]; omega),
      applyWrites_append]
    refine recoverable_of_empty ?_ (fun x hx => ?_)
    · simp [applyWrites, upd, h0]
    · rw [applyWrites, applyWrites, upd, if_neg hx.ne_start]
      refine applyWrites_same _ _ (fun w hw hwx => by rw [← hwx]; exact (hhome w hw).2) ?_
      by_cases hx' : x ∈ bs
      · exact .inr ⟨(x, t x), List.mem_map.mpr ⟨x, hx', rfl⟩, rfl⟩
      · exact .inl (hrec.rest x hx (by rw [hes, henc]; exact hx'))

end Commit

end Log

end Xv6.Lib.RedoLog
