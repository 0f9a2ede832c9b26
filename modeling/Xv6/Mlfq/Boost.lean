import Xv6.Mlfq.Membership

/- What `boostPriority` leaves behind. One turn of its inner loop takes a process
   out of its queue and appends it to L0 (`toBack`), so after the slots `as` the
   queues are what was there without `as`, with the used ones of `as` behind it
   on L0 (`rotated`). A whole pass has moved every slot, which leaves L1 and L2
   empty and L0 in table order.

   `boostPriority_result` reads the state reached off that list. That the other
   63 passes, and any later boost, change nothing at all needs the links and the
   `size` fields too: the lists determine the former (`Linked.same`), and erasing
   and pushing keep the distance between a `size` and the length of its list
   (`Clears.size`), which is all there is to say as `pushfrontqueue` does not
   count into an empty queue. -/
namespace Xv6.Mlfq

section Frames

variable {t t' : Ptable} {L : QIdx → List Slot} {q : QIdx} {p r : Slot}

/-- Unlinking `p` writes `p` and its neighbours, and no size. -/
theorem unlink_frame (h : unlink t q p = .ok t') :
    (∀ k, (t'.queue k).size = (t.queue k).size) ∧
      ∀ r, r ≠ p → t.next p ≠ some r → t.prev p ≠ some r → t'.proc r = t.proc r := by
  unfold unlink at h
  split at h
  · cases h
    refine ⟨fun k => by by_cases hk : k = q <;> simp [Ptable.clearLinks, hk], fun r hr _ _ => ?_⟩
    simp [Ptable.clearLinks, hr]
  · split at h
    · split at h <;> cases h
      refine ⟨fun k => by by_cases hk : k = q <;> simp [Ptable.clearLinks, hk], fun r hr hn _ => ?_⟩
      have hne : r ≠ _ := fun he => hn (he ▸ ‹_›)
      simp [Ptable.clearLinks, hr, hne]
    · split at h
      · split at h <;> cases h
        refine ⟨fun k => by by_cases hk : k = q <;> simp [Ptable.clearLinks, hk], fun r hr _ hp => ?_⟩
        have hne : r ≠ _ := fun he => hp (he ▸ ‹_›)
        simp [Ptable.clearLinks, hr, hne]
      · split at h <;> cases h
        rename_i pv nx hpv hnx
        refine ⟨fun _ => rfl, fun r hr hn hp => ?_⟩
        have h1 : r ≠ pv := fun he => hp (he ▸ hpv)
        have h2 : r ≠ nx := fun he => hn (he ▸ hnx)
        simp [Ptable.clearLinks, hr, h1, h2]

theorem erasequeue_frame (h : erasequeue t (some q) p = .ok t') :
    (∀ k, (t'.queue k).size = (t.queue k).size - if k = q then 1 else 0) ∧
      ∀ r, r ≠ p → t.next p ≠ some r → t.prev p ≠ some r → t'.proc r = t.proc r := by
  unfold erasequeue at h
  split at h
  · cases h
  · simp only at h
    split at h <;> try cases h
    obtain ⟨hsize, hframe⟩ := unlink_frame h
    refine ⟨fun k => ?_, fun r hr hn hp => ?_⟩
    · rw [hsize k]
      by_cases hk : k = q <;> simp [hk]
    · rw [hframe r hr (by simpa [Ptable.next] using hn) (by simpa [Ptable.prev] using hp)]
      simp [hr]

/-- Pushing `p` writes `p` and the old last process. -/
theorem pushqueue_frame (h : pushqueue t q p = .ok t') :
    (∀ k, (t'.queue k).size = (t.queue k).size + if k = q then 1 else 0) ∧
      ∀ r, r ≠ p → (t.queue q).back ≠ some r → t'.proc r = t.proc r := by
  unfold pushqueue at h
  split at h
  · cases h
  · simp only at h
    split at h <;> cases h
    · refine ⟨fun k => ?_, fun r hr _ => by simp [Ptable.clearLinks, hr]⟩
      by_cases hk : k = q <;> simp [Ptable.clearLinks, hk]
    · rename_i u hu
      refine ⟨fun k => ?_, fun r hr hb => ?_⟩
      · by_cases hk : k = q <;> simp [hk]
      · have hback : (t.queue q).back = some u := by simpa using hu
        have hru : r ≠ u := fun he => hb (he ▸ hback)
        simp [hr, hru]

/-- The neighbours of a process on a queue are on a queue. -/
theorem Linked.off_links (h : Linked t L) (hq : (t.proc p).queue = some q)
    (hr : (t.proc r).queue = none) : t.next p ≠ some r ∧ t.prev p ≠ some r := by
  have hp : p ∈ L q := (h.mem q p).mpr hq
  refine ⟨fun hn => ?_, fun hn => ?_⟩
  · exact h.not_mem hr q (Lib.seg_next_prev (h.seg q) hp hn).1
  · have := (Lib.seg_next_prev (Lib.seg_reverse (L q) none (h.seg q)) (by simpa using hp) hn).1
    exact h.not_mem hr q (by simpa using this)

/-- The lists, the sizes and the fields no queue operation writes determine the
table, up to the slots that are on no queue. -/
theorem Linked.same (h : Linked t L) (h' : Linked t' L) (hc : SameCore t t')
    (hsize : ∀ k, (t'.queue k).size = (t.queue k).size)
    (hoff : ∀ r, (t.proc r).queue = none → t'.proc r = t.proc r) : t' = t := by
  have hqueue : t'.queue = t.queue := by
    funext k
    have h1 : (t'.queue k).front = (t.queue k).front := (h'.front k).trans (h.front k).symm
    have h2 : (t'.queue k).back = (t.queue k).back := (h'.back k).trans (h.back k).symm
    have h3 : (t'.queue k).level = (t.queue k).level := (h'.qlevel k).trans (h.qlevel k).symm
    calc t'.queue k
        = ⟨(t'.queue k).front, (t'.queue k).back, (t'.queue k).level, (t'.queue k).size⟩ := rfl
      _ = t.queue k := by rw [h1, h2, h3, hsize k]
  have hproc : t'.proc = t.proc := by
    funext r
    cases hq : (t.proc r).queue with
    | none => exact hoff r hq
    | some q =>
      -- a member of a list has its neighbours there
      obtain ⟨a, b, hL⟩ := h.split hq
      have hq' : (t'.proc r).queue = some q := (h'.mem q r).mp ((h.mem q r).mpr hq)
      obtain ⟨hp1, hn1⟩ := Lib.seg_mid (hL ▸ h.seg q)
      obtain ⟨hp2, hn2⟩ := Lib.seg_mid (hL ▸ h'.seg q)
      have hlinks : (t'.proc r).links = (t.proc r).links := by
        have h1 : (t'.proc r).prev = (t.proc r).prev := hp2.trans hp1.symm
        have h2 : (t'.proc r).next = (t.proc r).next := hn2.trans hn1.symm
        have h3 : (t'.proc r).level = (t.proc r).level :=
          (h'.level q r hq').trans (h.level q r hq).symm
        simp [Proc.links, h1, h2, h3, hq, hq']
      have hcore := hc.core r
      generalize t'.proc r = x at hcore hlinks ⊢
      generalize t.proc r = y at hcore hlinks ⊢
      cases x
      cases y
      simp only [Proc.core, Proc.links, Prod.mk.injEq] at hcore hlinks
      obtain ⟨rfl, rfl, rfl, rfl, rfl, rfl, rfl⟩ := hcore
      obtain ⟨rfl, rfl, rfl, rfl⟩ := hlinks
      rfl
  calc t'
      = ⟨t'.proc, t'.queue, t'.lockpid, t'.nextpid, t'.ticks, t'.initproc⟩ := rfl
    _ = t := by rw [hproc, hqueue, hc.lockpid, hc.nextpid, hc.ticks, hc.initproc]

end Frames

/-! ## One turn of the inner loop -/

/-- Is the slot in use? -/
def inUse (t : Ptable) (p : Slot) : Bool := (t.proc p).state != .UNUSED

theorem inUse_iff {t : Ptable} {p : Slot} : inUse t p = true ↔ (t.proc p).state ≠ .UNUSED := by
  simp [inUse]

/-- What `clearProc` makes of the fields outside the queues. -/
def cleared (x : Proc) : Proc :=
  if x.state = .UNUSED then x else { x with priority := 3, tq := 0 }

theorem cleared_core {x y : Proc} (h : x.core = y.core) : (cleared x).core = (cleared y).core := by
  have hs : x.state = y.state := congrArg Prod.fst h
  unfold cleared
  rw [hs]
  split
  · exact h
  · simp only [Proc.core, Prod.mk.injEq] at h ⊢
    simp [h]

theorem cleared_twice (x : Proc) : cleared (cleared x) = cleared x := by
  by_cases hs : x.state = .UNUSED <;> simp [cleared, hs]

theorem cleared_state (x : Proc) : (cleared x).state = x.state := by
  unfold cleared
  split <;> rfl

/-- The queues after the turns for the slots `as`, from the queues `L`. -/
def rotated (used : Slot → Bool) (L : QIdx → List Slot) (as : List Slot) : QIdx → List Slot :=
  fun k => (L k).filter (fun r => !as.contains r) ++ if k.val = 0 then as.filter used else []

theorem rotated_apply (used : Slot → Bool) (L : QIdx → List Slot) (as : List Slot) (k : QIdx) :
    rotated used L as k =
      (L k).filter (fun r => decide (r ∉ as)) ++ if k = 0 then as.filter used else [] := by
  have hk : (k.val = 0) = (k = 0) := propext (Fin.ext_iff (b := 0)).symm
  simp only [rotated, hk, List.contains_eq_mem, decide_not]

/-- What the turns for the slots `as` do to the table besides moving processes. -/
structure Clears (as : List Slot) (L L' : QIdx → List Slot) (t t' : Ptable) : Prop where
  core : ∀ p, (t'.proc p).core = if p ∈ as then (cleared (t.proc p)).core else (t.proc p).core
  size : ∀ k, (t'.queue k).size - (L' k).length = (t.queue k).size - (L k).length
  off : ∀ r, (t.proc r).state = .UNUSED → t'.proc r = t.proc r
  lockpid : t'.lockpid = t.lockpid
  nextpid : t'.nextpid = t.nextpid
  ticks : t'.ticks = t.ticks
  initproc : t'.initproc = t.initproc

section Turns

variable {t t' u : Ptable} {L L' M : QIdx → List Slot} {p : Slot} {as bs : List Slot}

theorem Clears.state (h : Clears as L L' t t') (p : Slot) :
    (t'.proc p).state = (t.proc p).state := by
  have hcore : (t'.proc p).core.1 = (if p ∈ as then (cleared (t.proc p)).core else (t.proc p).core).1 :=
    congrArg Prod.fst (h.core p)
  calc (t'.proc p).state
      = (if p ∈ as then (cleared (t.proc p)).core else (t.proc p).core).1 := hcore
    _ = (t.proc p).state := by
      split
      · exact cleared_state (t.proc p)
      · rfl

theorem Clears.inUse (h : Clears as L L' t t') : inUse t' = inUse t := by
  funext p
  simp only [Mlfq.inUse, h.state p]

theorem Clears.trans (h : Clears as L M t u) (h' : Clears bs M L' u t') :
    Clears (as ++ bs) L L' t t' := by
  refine ⟨fun p => ?_, fun k => (h'.size k).trans (h.size k), fun r hr => ?_,
    h'.lockpid.trans h.lockpid, h'.nextpid.trans h.nextpid, h'.ticks.trans h.ticks,
    h'.initproc.trans h.initproc⟩
  · have hu := h.core p
    rw [h'.core p]
    by_cases ha : p ∈ as
    · rw [if_pos ha] at hu
      rw [if_pos (List.mem_append_left bs ha)]
      split
      · rw [cleared_core hu, cleared_twice]
      · exact hu
    · rw [if_neg ha] at hu
      by_cases hb : p ∈ bs
      · rw [if_pos hb, if_pos (List.mem_append_right as hb)]
        exact cleared_core hu
      · rw [if_neg hb, if_neg (by simp [ha, hb])]
        exact hu
  · rw [h'.off r ((h.state r).trans hr), h.off r hr]

/-- Erasing a process from its queue and pushing it on L0, in terms of all lists. -/
theorem rotated_one {used : Slot → Bool} {q : QIdx} (h : Linked t L)
    (hq : (t.proc p).queue = some q) (hu : used p = true) :
    Function.update (Function.update L q ((L q).erase p)) 0
      (Function.update L q ((L q).erase p) 0 ++ [p]) = rotated used L [p] := by
  have herase : Function.update L q ((L q).erase p) =
      fun k => (L k).filter (fun r => decide (r ∉ [p])) := by
    funext k
    by_cases hk : k = q
    · subst hk
      rw [Function.update_self, (h.nodup k).erase_eq_filter]
      refine List.filter_congr (fun r _ => ?_)
      rw [Bool.eq_iff_iff]
      simp
    · have hp : p ∉ L k := fun hm => hk (h.mem_unique hm ((h.mem q p).mpr hq))
      rw [Function.update_of_ne hk]
      refine (List.filter_eq_self.mpr (fun r hr => ?_)).symm
      have : r ≠ p := fun he => hp (he ▸ hr)
      simpa using this
  rw [herase]
  funext k
  by_cases hk : k = 0
  · subst hk
    simp [rotated, hu]
  · simp [rotated, hk]

/-- A slot that is not in use is on no list. -/
theorem rotated_unused {used : Slot → Bool} (h : Linked t L) (hq : (t.proc p).queue = none)
    (hu : used p = false) : rotated used L [p] = L := by
  funext k
  have hp : p ∉ L k := h.not_mem hq k
  have hkeep : (L k).filter (fun r => decide (r ∉ [p])) = L k := by
    refine List.filter_eq_self.mpr (fun r hr => ?_)
    have : r ≠ p := fun he => hp (he ▸ hr)
    simpa using this
  rw [rotated_apply, hkeep]
  simp [hu]

/-- One turn of the inner loop. -/
theorem clearProc_turn (h : Linked t L) (hm : Member t) (p : Slot) :
    ∃ t', clearProc t p = .ok t' ∧ Linked t' (rotated (inUse t) L [p]) ∧ Member t' ∧
      Clears [p] L (rotated (inUse t) L [p]) t t' := by
  by_cases hp : (t.proc p).state = .UNUSED
  · -- the turn is skipped
    rw [rotated_unused h ((hm p).mp hp) (by simp [inUse, hp])]
    refine ⟨t, by simp only [clearProc, hp, if_true], h, hm, fun r => ?_, fun _ => rfl,
      fun _ _ => rfl, rfl, rfl, rfl, rfl⟩
    by_cases hr : r = p
    · subst hr
      simp [cleared, hp]
    · simp [hr]
  · obtain ⟨q, hq⟩ := Option.ne_none_iff_exists'.mp (fun he => hp ((hm p).mpr he))
    let v := t.updProc p (fun x => { x with priority := 3, tq := 0 })
    have hv : Linked v L := h.congr rfl (fun r => by
      rw [Ptable.updProc_proc]
      split <;> rfl)
    have hvm : Member v := by
      intro r
      by_cases hr : r = p <;> simpa [v, hr] using hm r
    have hvq : (v.proc p).queue = some q := by simpa [v] using hq
    obtain ⟨t₁, he, h₁, hc₁, hn⟩ := erasequeue_linked hv hvq
    obtain ⟨t₂, hpush, h₂, hc₂⟩ := pushqueue_linked (q := 0) h₁ hn
    obtain ⟨hm₂, -⟩ := member_relinked hvm hv h₁ h₂ hvq (hc₁.trans hc₂) (fun r => by simp [or_comm])
    have hlists : _ = rotated (inUse t) L [p] := rotated_one h hq (by simpa [inUse] using hp)
    rw [hlists] at h₂
    have hcore := hc₁.trans hc₂
    obtain ⟨hs₁, hf₁⟩ := erasequeue_frame he
    obtain ⟨hs₂, hf₂⟩ := pushqueue_frame hpush
    refine ⟨t₂, ?_, h₂, hm₂, fun r => ?_, fun k => ?_, fun r hr => ?_, hcore.lockpid, hcore.nextpid,
      hcore.ticks, hcore.initproc⟩
    · have hrun : clearProc t p = erasequeue v (v.proc p).queue p >>= fun t => pushqueue t 0 p := by
        simp only [clearProc, hp, if_false]
        rfl
      rw [hrun, hvq, he]
      exact hpush
    · rw [hcore.core r]
      by_cases hr : r = p
      · subst hr
        simp [v, cleared, hp]
      · simp [v, hr]
    · rw [hs₂ k, hs₁ k, ← hlists]
      have hpos : 0 < (L q).length := List.length_pos_of_mem ((h.mem q p).mpr hq)
      have hlen := List.length_erase_of_mem ((h.mem q p).mpr hq)
      show (t.queue k).size - _ + _ - _ = _
      by_cases hk : k = 0
      · subst hk
        by_cases hq0 : q = 0
        · subst hq0
          simp [hlen]
          omega
        · simp [Ne.symm hq0]
      · by_cases hkq : k = q
        · subst hkq
          simp [hk, hlen]
          omega
        · simp [hk, hkq]
    · -- a free slot is neither moved nor next to one that is
      have hrp : r ≠ p := fun he => hp (he ▸ hr)
      have hrv : (v.proc r).queue = none := by simpa [v, hrp] using (hm r).mp hr
      obtain ⟨hn1, hp1⟩ := hv.off_links hvq hrv
      have hr1 := hf₁ r hrp hn1 hp1
      have hback : (t₁.queue 0).back ≠ some r := by
        intro hb
        rw [h₁.back] at hb
        refine h₁.not_mem (n := r) ?_ 0 (List.mem_of_getLast? hb)
        rw [hr1]
        exact hrv
      rw [hf₂ r hrp hback, hr1]
      simp [v, hrp]

/-- Turns one after the other. -/
theorem rotated_cons {used : Slot → Bool} (L : QIdx → List Slot) (ha : p ∉ as) :
    rotated used (rotated used L [p]) as = rotated used L (p :: as) := by
  funext k
  have hfilter : ((L k).filter (fun r => decide (r ∉ [p]))).filter (fun r => decide (r ∉ as)) =
      (L k).filter (fun r => decide (r ∉ p :: as)) := by
    rw [List.filter_filter]
    refine List.filter_congr (fun r _ => ?_)
    by_cases h1 : r = p <;> by_cases h2 : r ∈ as <;> simp [h1, h2]
  by_cases hk : k = 0
  · subst hk
    simp only [rotated_apply, if_true, List.filter_append, hfilter]
    by_cases hu : used p = true
    · simp [hu, ha]
    · simp [hu]
  · simp only [rotated_apply, hk, if_false, List.append_nil, hfilter]

theorem turns (h : Linked t L) (hm : Member t) (hnd : as.Nodup) :
    ∃ t', as.foldlM clearProc t = .ok t' ∧ Linked t' (rotated (inUse t) L as) ∧ Member t' ∧
      Clears as L (rotated (inUse t) L as) t t' := by
  induction as generalizing t L with
  | nil =>
    have hnil : rotated (inUse t) L [] = L := by
      funext k
      simp [rotated]
    rw [hnil]
    exact ⟨t, rfl, h, hm, fun r => by simp, fun _ => rfl, fun _ _ => rfl, rfl, rfl, rfl, rfl⟩
  | cons p as ih =>
    obtain ⟨hp, hnd⟩ := List.nodup_cons.mp hnd
    obtain ⟨u, hu, hLu, hmu, hcu⟩ := clearProc_turn h hm p
    obtain ⟨t', ht', hL', hm', hc'⟩ := ih hLu hmu hnd
    rw [hcu.inUse, rotated_cons L hp] at hL' hc'
    refine ⟨t', ?_, hL', hm', hcu.trans hc'⟩
    rw [List.foldlM_cons, hu]
    exact ht'

end Turns

/-! ## A pass, and the boost -/

/-- The queues after a boost: the slots in use on L0, in table order. -/
def boostedLists (t : Ptable) : QIdx → List Slot :=
  fun k => if k.val = 0 then (List.finRange NPROC).filter (inUse t) else []

section Boost

variable {t t' : Ptable} {L : QIdx → List Slot}

theorem boostedLists_apply (t : Ptable) (k : QIdx) :
    boostedLists t k = if k = 0 then (List.finRange NPROC).filter (inUse t) else [] := by
  have hk : (k.val = 0) = (k = 0) := propext (Fin.ext_iff (b := 0)).symm
  simp only [boostedLists, hk]

theorem rotated_all (t : Ptable) (L : QIdx → List Slot) :
    rotated (inUse t) L (List.finRange NPROC) = boostedLists t := by
  funext k
  have hnone : (L k).filter (fun r => decide (r ∉ List.finRange NPROC)) = [] := by
    refine List.filter_eq_nil_iff.mpr (fun r _ => ?_)
    simp
  rw [rotated_apply, hnone, List.nil_append, boostedLists_apply]

/-- One pass of the inner loop, from any distribution over the queues. -/
theorem boostPass_turns (h : Linked t L) (hm : Member t) :
    ∃ t', boostPass t = .ok t' ∧ Linked t' (boostedLists t) ∧ Member t' ∧
      Clears (List.finRange NPROC) L (boostedLists t) t t' := by
  have := turns h hm (List.nodup_finRange NPROC)
  rwa [rotated_all] at this

/-- The state after a pass: everything in use is on L0, in table order, as new. -/
structure IsBoosted (t : Ptable) : Prop where
  linked : Linked t (boostedLists t)
  member : Member t
  fresh : ∀ p, (cleared (t.proc p)).core = (t.proc p).core

theorem IsBoosted.of_pass (h : Linked t' (boostedLists t)) (hm : Member t')
    (hc : Clears (List.finRange NPROC) L (boostedLists t) t t') : IsBoosted t' := by
  have hsame : boostedLists t' = boostedLists t := by
    funext k
    simp only [boostedLists, hc.inUse]
  refine ⟨hsame ▸ h, hm, fun p => ?_⟩
  have hp : (t'.proc p).core = (cleared (t.proc p)).core := by
    rw [hc.core p, if_pos (List.mem_finRange p)]
  rw [cleared_core hp, cleared_twice, hp]

/-- A further pass writes every link again, and the same. -/
theorem IsBoosted.pass (h : IsBoosted t) : boostPass t = .ok t := by
  obtain ⟨t', hrun, hL, -, hc⟩ := boostPass_turns h.linked h.member
  have hcore : SameCore t t' := by
    refine ⟨fun p => ?_, hc.lockpid, hc.nextpid, hc.ticks, hc.initproc⟩
    rw [hc.core p, if_pos (List.mem_finRange p)]
    exact h.fresh p
  have hsize : ∀ k, (t'.queue k).size = (t.queue k).size := by
    intro k
    have := hc.size k
    omega
  have hsame : t' = t :=
    h.linked.same hL hcore hsize (fun r hr => hc.off r ((h.member r).mpr hr))
  rw [hrun, hsame]

theorem boostLoop_succ (n : Nat) {u : Ptable} (h : boostPass t = .ok u) :
    boostLoop (n + 1) t = boostLoop n u := by
  rw [boostLoop, h]
  rfl

theorem IsBoosted.loop (h : IsBoosted t) : ∀ n, boostLoop n t = .ok t := by
  intro n
  induction n with
  | zero => rfl
  | succ n ih => rw [boostLoop_succ n h.pass, ih]

/-- Without a current process the unlocking only frees the lock. -/
theorem boostUnlock_free (t : Ptable) :
    boostUnlock { t with ticks := 0 } = .ok { t with ticks := 0, lockpid := 0 } := by
  unfold boostUnlock schedulerUnlock
  split
  · next hl =>
    have hl : t.lockpid = 0 := hl
    rw [← hl]
  · simp

/-- The boost from the state with the lock free and the clock cleared. -/
theorem boostPriority_loop (t : Ptable) :
    boostPriority t = boostLoop NPROC { t with ticks := 0, lockpid := 0 } := by
  have hbind : ∀ (u : Ptable) (f : Ptable → Except Fault Ptable), (Except.ok u >>= f) = f u :=
    fun _ _ => rfl
  rw [boostPriority, boostUnlock_free, hbind]

/-- A free scheduler lock and a cleared clock are left so. -/
theorem IsBoosted.again (h : IsBoosted t) (hl : t.lockpid = 0) (ht : t.ticks = 0) :
    boostPriority t = .ok t := by
  have hclock : { t with ticks := 0, lockpid := 0 } = t := by
    rw [← hl, ← ht]
  rw [boostPriority_loop, hclock]
  exact h.loop NPROC

/-- From every state in which exactly the slots in use are on the queues, a boost
ends unlocked, at tick 0, with the processes in use on L0 in table order, each
with priority 3, no charge and level 0. One pass of the inner loop gets there,
and boosting again changes nothing. -/
theorem boostPriority_result (h : Inv t) :
    ∃ t', boostPriority t = .ok t' ∧ boostPass { t with ticks := 0, lockpid := 0 } = .ok t' ∧
      t'.lockpid = 0 ∧ t'.ticks = 0 ∧
      (∀ p, (t'.proc p).state = (t.proc p).state) ∧
      Linked t' (fun k => if k = 0 then (List.finRange NPROC).filter (inUse t) else []) ∧
      (∀ p, (t.proc p).state ≠ .UNUSED →
        (t'.proc p).priority = 3 ∧ (t'.proc p).tq = 0 ∧ (t'.proc p).level = 0) ∧
      boostPriority t' = .ok t' := by
  obtain ⟨⟨L, hL⟩, hm⟩ := h
  let u : Ptable := { t with ticks := 0, lockpid := 0 }
  have hLu : Linked u L := hL.congr rfl (fun _ => rfl)
  have hmu : Member u := hm
  obtain ⟨t', hpass, hL', hm', hc⟩ := boostPass_turns hLu hmu
  have hb : IsBoosted t' := .of_pass hL' hm' hc
  have hlists : boostedLists u =
      fun k => if k = 0 then (List.finRange NPROC).filter (inUse t) else [] :=
    funext (boostedLists_apply u)
  refine ⟨t', ?_, hpass, hc.lockpid, hc.ticks, hc.state, hlists ▸ hL', fun p hp => ?_,
    hb.again hc.lockpid hc.ticks⟩
  · rw [boostPriority_loop]
    -- the first of the 64 passes does the work
    exact (boostLoop_succ 63 hpass).trans (hb.loop 63)
  · have hcore : (t'.proc p).core = (cleared (t.proc p)).core := by
      rw [hc.core p, if_pos (List.mem_finRange p)]
    simp only [cleared, hp, if_false, Proc.core, Prod.mk.injEq] at hcore
    have hmem : p ∈ boostedLists u 0 := by
      have : inUse u p = true := inUse_iff.mpr hp
      simp [boostedLists, this]
    have hlevel := hL'.level 0 p ((hL'.mem 0 p).mp hmem)
    exact ⟨hcore.2.2.2.2.2.1, hcore.2.2.2.2.2.2, hlevel⟩

end Boost

/-- A boost of three processes on three queues, with the scheduler locked. -/
def lockedOnThree : List Act :=
  [.userinit, .dispatch, .allocproc 0, .forkFinish 0 1, .allocproc 0, .forkFinish 0 2,
    .setLevel 2 1, .setLevel 1 2, .schedulerLock 0 PASSWORD]

theorem boostPriority_result_lockedOnThree : ∃ t t', Lib.run step pinit lockedOnThree = some t ∧
    t.lockpid ≠ 0 ∧ boostPriority t = .ok t' ∧ t'.lockpid = 0 ∧
      (t'.proc 0).level = 0 ∧ boostPriority t' = .ok t' := by
  have hrun : (Lib.run step pinit lockedOnThree).any
      (fun t => t.lockpid ≠ 0 ∧ (t.proc 0).state = .RUNNING) := by decide +kernel
  obtain ⟨t, hr, ht⟩ := (Option.any_eq_true _ _).mp hrun
  obtain ⟨hl, hs⟩ := of_decide_eq_true ht
  have hi : Inv t := run_member (by simp [lockedOnThree, Act.Successful]) hr
  obtain ⟨t', h1, -, h2, -, -, -, h3, h4⟩ := boostPriority_result hi
  exact ⟨t, t', hr, hl, h1, h2, (h3 0 (by simp [hs])).2.2, h4⟩

end Xv6.Mlfq
