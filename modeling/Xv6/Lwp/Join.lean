import Xv6.Lwp.Threads

/- `thread_join` over whole runs. Every `thread_exit` and every `thread_join` that
   returns 0 leaves an event, and a join names the exit whose zombie it reaped.
   `JoinInv` says that a thread blocked in `thread_join(t)` on a slot finds there
   the thread `t` or nobody, that a zombie carries the value of its own exit, and
   that the exits consumed so far are distinct and gone from the table.

   `thread_join` looks the tid up once and then only tests the state of the slot.
   It is `thread_create` that can break the invariant, by reusing a slot on which
   a thread is still blocked; `NoJoiner` excludes that, and `stolenExit` is a run
   in which it happens. -/
namespace Xv6.Lwp

structure JoinInv (m : Machine) : Prop where
  tid : ∀ p k j t, (m.kth p k).resume = .join j t →
    ((m.proc p).thread j).tid = t ∨ ((m.proc p).thread j).state = .UNUSED
  busy : ∀ p k j t, (m.kth p k).resume = .join j t → ¬ ((m.proc p).thread k).Idle
  exit : ∀ p j, ((m.proc p).thread j).state = .ZOMBIE → ∃ e, (m.kth p j).exit = some e ∧
    m.exits[e]? = some
      { p := p, tid := ((m.proc p).thread j).tid, value := ((m.proc p).thread j).retval }
  bound : ∀ p j e, (m.kth p j).exit = some e → e < m.exits.length
  inj : ∀ p j q k e, (m.kth p j).exit = some e → (m.kth q k).exit = some e → p = q ∧ j = k
  fresh : ∀ p j e, (m.kth p j).exit = some e → some e ∉ m.joins.map (·.exit)
  done : ∀ r ∈ m.joins, ∃ e, r.exit = some e ∧
    m.exits[e]? = some { p := r.p, tid := r.tid, value := r.value }
  once : (m.joins.map (·.exit)).Nodup

section Rules

variable {m m' : Machine} {c : Nat} {p : Slot} {i j : ThIdx} {esp : Nat}

/-- No thread is blocked on another slot than before. -/
def NoNewJoin (m m' : Machine) : Prop :=
  ∀ q k, (m'.kth q k).resume = (m.kth q k).resume ∨ ∀ j t, (m'.kth q k).resume ≠ .join j t

theorem NoNewJoin.join (h : NoNewJoin m m') {q : Slot} {k : ThIdx} {t : Nat}
    (hk : (m'.kth q k).resume = .join j t) : (m.kth q k).resume = .join j t := by
  rcases h q k with he | he
  · rw [← he]; exact hk
  · exact absurd hk (he j t)

/-- The slot `(p, j)` has been rewritten: it holds no zombie, nobody is blocked
on it unless it is free, and its own thread, if any, is not in `thread_join`. -/
theorem JoinInv.slot (h : JoinInv m) (p : Slot) (j : ThIdx)
    (ht : ∀ q k, ¬ (q = p ∧ k = j) → ((m.proc q).thread k).Like ((m'.proc q).thread k))
    (hk : NoNewJoin m m')
    (he : ∀ q k, (m'.kth q k).exit = (m.kth q k).exit ∨ q = p ∧ k = j ∧ (m'.kth q k).exit = none)
    (hr : ∀ k t, (m'.kth p j).resume ≠ .join k t)
    (hz : ((m'.proc p).thread j).state ≠ .ZOMBIE)
    (hj : ((m'.proc p).thread j).state = .UNUSED ∨ ∀ k t, (m.kth p k).resume ≠ .join j t)
    (hex : m'.exits = m.exits) (hjo : m'.joins = m.joins) : JoinInv m' := by
  have hexit : ∀ q k e, (m'.kth q k).exit = some e → (m.kth q k).exit = some e := by
    intro q k e hq
    rcases he q k with heq | ⟨-, -, heq⟩
    · rw [← heq]; exact hq
    · simp [heq] at hq
  constructor
  · intro q k l t hq
    have hq' := hk.join hq
    by_cases hl : q = p ∧ l = j
    · obtain ⟨rfl, rfl⟩ := hl
      rcases hj with hu | hn
      · exact .inr hu
      · exact absurd hq' (hn k t)
    · rw [(ht q l hl).tid, (ht q l hl).unused]
      exact h.tid q k l t hq'
  · intro q k l t hq
    by_cases hl : q = p ∧ k = j
    · obtain ⟨rfl, rfl⟩ := hl
      exact absurd hq (hr l t)
    · rw [(ht q k hl).idle]
      exact h.busy q k l t (hk.join hq)
  · intro q k hq
    by_cases hl : q = p ∧ k = j
    · obtain ⟨rfl, rfl⟩ := hl
      exact absurd hq hz
    · obtain ⟨e, hqe, hev⟩ := h.exit q k ((ht q k hl).zombie.mp hq)
      refine ⟨e, ?_, ?_⟩
      · rcases he q k with heq | ⟨hqp, hkj, -⟩
        · rw [heq]; exact hqe
        · exact absurd ⟨hqp, hkj⟩ hl
      · rw [hex, (ht q k hl).tid, (ht q k hl).retval]
        exact hev
  · intro q k e hq
    rw [hex]
    exact h.bound q k e (hexit q k e hq)
  · intro q k r l e hq hr'
    exact h.inj q k r l e (hexit q k e hq) (hexit r l e hr')
  · intro q k e hq
    rw [hjo]
    exact h.fresh q k e (hexit q k e hq)
  · rw [hjo, hex]; exact h.done
  · rw [hjo]; exact h.once

/-- Nothing that `thread_join` reads has changed. -/
theorem JoinInv.frame (h : JoinInv m)
    (ht : ∀ q k, ((m.proc q).thread k).Like ((m'.proc q).thread k)) (hk : NoNewJoin m m')
    (he : ∀ q k, (m'.kth q k).exit = (m.kth q k).exit)
    (hex : m'.exits = m.exits) (hjo : m'.joins = m.joins) : JoinInv m' := by
  constructor
  · intro q k l t hq
    rw [(ht q l).tid, (ht q l).unused]
    exact h.tid q k l t (hk.join hq)
  · intro q k l t hq
    rw [(ht q k).idle]
    exact h.busy q k l t (hk.join hq)
  · intro q k hq
    obtain ⟨e, hqe, hev⟩ := h.exit q k ((ht q k).zombie.mp hq)
    refine ⟨e, by rw [he]; exact hqe, ?_⟩
    rw [hex, (ht q k).tid, (ht q k).retval]
    exact hev
  · intro q k e hq
    rw [hex]
    exact h.bound q k e (by rw [← he]; exact hq)
  · intro q k r l e hq hr
    exact h.inj q k r l e (by rw [← he]; exact hq) (by rw [← he]; exact hr)
  · intro q k e hq
    rw [hjo]
    exact h.fresh q k e (by rw [← he]; exact hq)
  · rw [hjo, hex]; exact h.done
  · rw [hjo]; exact h.once

/-- The thread `(p, i)` goes to sleep in `thread_join(t)` on slot `j`. -/
theorem JoinInv.block (h : JoinInv m) {t : Nat}
    (hj : ((m.proc p).thread j).tid = t ∨ ((m.proc p).thread j).state = .UNUSED)
    (hi : ¬ ((m.proc p).thread i).Idle) :
    JoinInv (m.setKth p i { m.kth p i with resume := .join j t }) := by
  have hexit : ∀ q k, ((m.setKth p i { m.kth p i with resume := .join j t }).kth q k).exit =
      (m.kth q k).exit := by
    intro q k
    by_cases hq : q = p ∧ k = i
    · obtain ⟨rfl, rfl⟩ := hq
      simp [Machine.setKth]
    · simp [Machine.setKth, hq]
  constructor
  · intro q k l t' hq
    by_cases hqk : q = p ∧ k = i
    · simp only [Machine.setKth, hqk, and_self, if_true, Resume.join.injEq] at hq
      obtain ⟨rfl, rfl⟩ := hq
      obtain ⟨rfl, -⟩ := hqk
      exact hj
    · simp only [Machine.setKth, hqk, if_false] at hq
      exact h.tid q k l t' hq
  · intro q k l t' hq
    by_cases hqk : q = p ∧ k = i
    · obtain ⟨rfl, rfl⟩ := hqk
      exact hi
    · simp only [Machine.setKth, hqk, if_false] at hq
      exact h.busy q k l t' hq
  · intro q k hq
    obtain ⟨e, hqe, hev⟩ := h.exit q k hq
    exact ⟨e, by rw [hexit]; exact hqe, hev⟩
  · intro q k e hq
    exact h.bound q k e (by rw [← hexit]; exact hq)
  · intro q k r l e hq hr
    exact h.inj q k r l e (by rw [← hexit]; exact hq) (by rw [← hexit]; exact hr)
  · intro q k e hq
    exact h.fresh q k e (by rw [← hexit]; exact hq)
  · exact h.done
  · exact h.once

/-- A thread has called `thread_exit(v)`. -/
theorem JoinInv.exitThread (h : JoinInv m) {v : Nat}
    (ht : ∀ q k, ¬ (q = p ∧ k = i) → ((m.proc q).thread k).Like ((m'.proc q).thread k))
    (hk : NoNewJoin m m') (hr : ∀ k t, (m'.kth p i).resume ≠ .join k t)
    (he : ∀ q k, ¬ (q = p ∧ k = i) → (m'.kth q k).exit = (m.kth q k).exit)
    (hei : (m'.kth p i).exit = some m.exits.length)
    (htid : ((m'.proc p).thread i).tid = ((m.proc p).thread i).tid)
    (hval : ((m'.proc p).thread i).retval = v) (hu : ((m.proc p).thread i).state ≠ .UNUSED)
    (hex : m'.exits = m.exits ++ [{ p := p, tid := ((m.proc p).thread i).tid, value := v }])
    (hjo : m'.joins = m.joins) : JoinInv m' := by
  have hold : ∀ (e : Nat) x, m.exits[e]? = some x → m'.exits[e]? = some x := by
    intro e x hx
    rw [hex, List.getElem?_append_left (List.getElem?_eq_some_iff.mp hx).1]
    exact hx
  -- an exit is an old one, or the one just made by `(p, i)`
  have hcases : ∀ q k e, (m'.kth q k).exit = some e →
      (q = p ∧ k = i ∧ e = m.exits.length) ∨ ¬ (q = p ∧ k = i) ∧ (m.kth q k).exit = some e := by
    intro q k e hq
    by_cases hqk : q = p ∧ k = i
    · obtain ⟨rfl, rfl⟩ := hqk
      rw [hei, Option.some.injEq] at hq
      exact .inl ⟨rfl, rfl, hq.symm⟩
    · exact .inr ⟨hqk, by rw [← he q k hqk]; exact hq⟩
  constructor
  · intro q k l t hq
    have hq' := hk.join hq
    by_cases hl : q = p ∧ l = i
    · obtain ⟨rfl, rfl⟩ := hl
      rcases h.tid q k l t hq' with ht' | ht'
      · exact .inl (htid.trans ht')
      · exact absurd ht' hu
    · rw [(ht q l hl).tid, (ht q l hl).unused]
      exact h.tid q k l t hq'
  · intro q k l t hq
    by_cases hl : q = p ∧ k = i
    · obtain ⟨rfl, rfl⟩ := hl
      exact absurd hq (hr l t)
    · rw [(ht q k hl).idle]
      exact h.busy q k l t (hk.join hq)
  · intro q k hq
    by_cases hl : q = p ∧ k = i
    · obtain ⟨rfl, rfl⟩ := hl
      refine ⟨m.exits.length, hei, ?_⟩
      rw [hex, htid, hval]
      simp
    · obtain ⟨e, hqe, hev⟩ := h.exit q k ((ht q k hl).zombie.mp hq)
      refine ⟨e, by rw [he q k hl]; exact hqe, ?_⟩
      rw [(ht q k hl).tid, (ht q k hl).retval]
      exact hold e _ hev
  · intro q k e hq
    rw [hex, List.length_append]
    rcases hcases q k e hq with ⟨-, -, rfl⟩ | ⟨-, hq'⟩
    · simp
    · have := h.bound q k e hq'
      simp; omega
  · intro q k r l e hq hq'
    rcases hcases q k e hq with ⟨rfl, rfl, he1⟩ | ⟨-, h1⟩ <;>
      rcases hcases r l e hq' with ⟨rfl, rfl, he2⟩ | ⟨-, h2⟩
    · exact ⟨rfl, rfl⟩
    · exact absurd (h.bound r l e h2) (by omega)
    · exact absurd (h.bound q k e h1) (by omega)
    · exact h.inj q k r l e h1 h2
  · intro q k e hq
    rw [hjo]
    rcases hcases q k e hq with ⟨-, -, rfl⟩ | ⟨-, hq'⟩
    · -- a consumed exit is in the list already
      intro hm
      obtain ⟨r, hr', hre⟩ := List.mem_map.mp hm
      obtain ⟨e', he', hev⟩ := h.done r hr'
      rw [hre, Option.some.injEq] at he'
      have := (List.getElem?_eq_some_iff.mp hev).1
      omega
    · exact h.fresh q k e hq'
  · rw [hjo]
    intro r hr'
    obtain ⟨e, hre, hev⟩ := h.done r hr'
    exact ⟨e, hre, hold e _ hev⟩
  · rw [hjo]; exact h.once

/-- A join for `t` has found the zombie `t` in slot `j` and consumes its exit. -/
theorem JoinInv.consume (h : JoinInv m) (hz : ((m.proc p).thread j).state = .ZOMBIE)
    {m'' : Machine} (h' : JoinInv m') (hk : (m'.kth p j).exit = none)
    (he : ∀ q k, (m'.kth q k).exit = (m.kth q k).exit ∨ (m'.kth q k).exit = none)
    (hex : m'.exits = m.exits) (hjo : m'.joins = m.joins)
    (hp : m''.proc = m'.proc) (hkth : m''.kth = m'.kth) (hex' : m''.exits = m'.exits)
    (hjo' : m''.joins = m.joins ++
      [{ p := p, tid := ((m.proc p).thread j).tid, value := ((m.proc p).thread j).retval
         exit := (m.kth p j).exit }]) : JoinInv m'' := by
  obtain ⟨e, hje, hev⟩ := h.exit p j hz
  constructor
  · rw [hkth, hp]; exact h'.tid
  · rw [hkth, hp]; exact h'.busy
  · rw [hkth, hp, hex']; exact h'.exit
  · rw [hkth, hex']; exact h'.bound
  · rw [hkth]; exact h'.inj
  · intro q k e' hq
    rw [hkth] at hq
    rw [hjo', List.map_append, List.mem_append, not_or]
    refine ⟨by rw [← hjo]; exact h'.fresh q k e' hq, ?_⟩
    simp only [List.map_cons, List.map_nil, List.mem_singleton]
    intro heq
    -- only `(p, j)` had this exit, and it has it no more
    rcases he q k with hqe | hqe
    · rw [hqe] at hq
      obtain ⟨rfl, rfl⟩ := h.inj q k p j e' hq heq.symm
      rw [hk] at hqe
      simp [← hqe] at hq
    · simp [hqe] at hq
  · intro r hr
    rw [hjo', List.mem_append, List.mem_singleton] at hr
    rw [hex', hex]
    rcases hr with hr | rfl
    · exact h.done r hr
    · exact ⟨e, hje, hev⟩
  · rw [hjo', List.map_append, List.nodup_append]
    refine ⟨h.once, by simp, ?_⟩
    intro a ha b hb
    simp only [List.map_cons, List.map_nil, List.mem_singleton] at hb
    rintro rfl
    rw [hb, hje] at ha
    exact h.fresh p j e hje ha

/-- The slot `p` has been reaped: none of its threads is in use, and their kernel
stacks are gone. -/
theorem JoinInv.reap (h : JoinInv m) (ht : ∀ q, q ≠ p → m'.proc q = m.proc q)
    (hidle : ∀ k, ((m'.proc p).thread k).Idle)
    (hk : ∀ q k, m'.kth q k = if q = p then {} else m.kth q k)
    (hex : m'.exits = m.exits) (hjo : m'.joins = m.joins) : JoinInv m' := by
  have hne : ∀ q k j t, (m'.kth q k).resume = .join j t →
      q ≠ p ∧ (m.kth q k).resume = .join j t := by
    intro q k j t hq
    rw [hk] at hq
    split_ifs at hq with hqp
    exact ⟨hqp, hq⟩
  have hexit : ∀ q k e, (m'.kth q k).exit = some e → (m.kth q k).exit = some e := by
    intro q k e hq
    rw [hk] at hq
    split_ifs at hq
    exact hq
  constructor
  · intro q k l t hq
    obtain ⟨hqp, hq'⟩ := hne q k l t hq
    rw [ht q hqp]
    exact h.tid q k l t hq'
  · intro q k l t hq
    obtain ⟨hqp, hq'⟩ := hne q k l t hq
    rw [ht q hqp]
    exact h.busy q k l t hq'
  · intro q k hq
    by_cases hqp : q = p
    · subst hqp
      simpa [Thread.Idle, hq] using hidle k
    · rw [ht q hqp] at hq ⊢
      rw [hk, if_neg hqp, hex]
      exact h.exit q k hq
  · intro q k e hq
    rw [hex]
    exact h.bound q k e (hexit q k e hq)
  · intro q k r l e hq hq'
    exact h.inj q k r l e (hexit q k e hq) (hexit r l e hq')
  · intro q k e hq
    rw [hjo]
    exact h.fresh q k e (hexit q k e hq)
  · rw [hjo, hex]; exact h.done
  · rw [hjo]; exact h.once

end Rules

/-! ## The calls -/

section Calls

variable {m m' : Machine} {c : Nat} {p np : Slot} {i : ThIdx} {esp : Nat}

theorem NoNewJoin.setKth {k : Kth} (h : k.resume = (m.kth p i).resume ∨ ∀ j t, k.resume ≠ .join j t) :
    NoNewJoin m (m.setKth p i k) := by
  intro q l
  by_cases hq : q = p ∧ l = i
  · obtain ⟨rfl, rfl⟩ := hq
    simpa [Machine.setKth] using h
  · simp [Machine.setKth, hq]

theorem Machine.setKth_exit {k : Kth} (hk : k.exit = (m.kth p i).exit) (q : Slot) (l : ThIdx) :
    ((m.setKth p i k).kth q l).exit = (m.kth q l).exit := by
  by_cases hq : q = p ∧ l = i
  · obtain ⟨rfl, rfl⟩ := hq
    simpa [Machine.setKth] using hk
  · simp [Machine.setKth, hq]

/-- A step that changes no slot, no exit and at most the position of `(p, i)`. -/
theorem JoinInv.quiet (h : JoinInv m) {k : Kth} (ht : LikeAll m m')
    (hk : m'.kth = (m.setKth p i k).kth)
    (hr : k.resume = (m.kth p i).resume ∨ ∀ j t, k.resume ≠ .join j t)
    (he : k.exit = (m.kth p i).exit) (hex : m'.exits = m.exits) (hjo : m'.joins = m.joins) :
    JoinInv m' := by
  refine h.frame ht ?_ ?_ hex hjo
  · intro q l
    rw [hk]
    exact NoNewJoin.setKth hr q l
  · intro q l
    rw [hk]
    exact Machine.setKth_exit he q l

/-- `sleep`, given the invariant with the new position. -/
theorem JoinInv.sleep {rs : Resume}
    (h : JoinInv (m.setKth p i { m.kth p i with resume := rs }))
    (hr : ((m.proc p).thread (m.proc p).thidx).state = .RUNNING) (ch : Chan) (esp : Nat) :
    JoinInv (m.sleep c p i ch rs esp) :=
  h.frame (LikeAll.sleep (c := c) (i := i) hr ch rs esp) (fun _ _ => .inl rfl) (fun _ _ => rfl)
    rfl rfl

theorem JoinInv.sleepOther (h : JoinInv m) {rs : Resume} (hrs : ∀ j t, rs ≠ .join j t)
    (hr : ((m.proc p).thread (m.proc p).thidx).state = .RUNNING) (ch : Chan) (esp : Nat) :
    JoinInv (m.sleep c p i ch rs esp) := by
  refine JoinInv.sleep ?_ hr ch esp
  exact h.quiet (LikeAll.refl m) rfl (.inr hrs) rfl rfl rfl

theorem JoinInv.waitLoop (h : JoinInv m)
    (hr : ((m.proc p).thread (m.proc p).thidx).state = .RUNNING) :
    JoinInv (m.waitLoop c p i esp) := by
  unfold Machine.waitLoop
  split
  · rename_i q _
    refine h.reap (p := q) ?_ ?_ (fun _ _ => rfl) rfl rfl
    · intro r hrq
      simp [Machine.setProc, Machine.release, hrq]
    · intro k
      simp only [Machine.setProc, Machine.release, if_true, Proc.reap, Proc.reapThread]
      split
      · rename_i hk; exact .inl hk
      · exact .inl rfl
  · split
    · exact h.frame (LikeAll.refl m) (fun _ _ => .inl rfl) (fun _ _ => rfl) rfl rfl
    · exact h.sleepOther (by simp) hr _ _

/-- The loop of `thread_join` for `tid`, while slot `j` holds that thread or is
free. -/
theorem JoinInv.joinLoop (h : JoinInv m) {j : ThIdx} {tid : Nat}
    (hj : ((m.proc p).thread j).tid = tid ∨ ((m.proc p).thread j).state = .UNUSED)
    (hi : ((m.proc p).thread i).state = .RUNNING)
    (hr : ((m.proc p).thread (m.proc p).thidx).state = .RUNNING) :
    JoinInv (m.joinLoop c p i j tid esp) := by
  unfold Machine.joinLoop
  split
  · rename_i hz
    have htid : ((m.proc p).thread j).tid = tid := by
      rcases hj with hj | hj
      · exact hj
      · simp [hj] at hz
    subst htid
    -- first the slot is given back, then the event is added
    have h' : JoinInv ((m.setProc p ((m.proc p).joinReap j)).setKth p j {}) := by
      refine h.slot p j ?_ (NoNewJoin.setKth (.inr (by simp))) ?_ ?_ ?_ ?_ rfl rfl
      · intro q k hqk
        by_cases hq : q = p
        · subst hq
          have hk : k ≠ j := fun hkj => hqk ⟨rfl, hkj⟩
          simpa [Machine.setKth, Machine.setProc, Proc.joinReap, Proc.freeustack, hk] using
            Thread.Like.refl _
        · simpa [Machine.setKth, Machine.setProc, hq] using Thread.Like.refl _
      · intro q k
        by_cases hqk : q = p ∧ k = j
        · exact .inr ⟨hqk.1, hqk.2, by simp [Machine.setKth, hqk]⟩
        · exact .inl (by simp [Machine.setKth, Machine.setProc, hqk])
      · simp [Machine.setKth]
      · simp [Machine.setKth, Machine.setProc, Proc.joinReap, Proc.freeustack]
      · exact .inl (by simp [Machine.setKth, Machine.setProc, Proc.joinReap, Proc.freeustack])
    refine h.consume hz h' (by simp [Machine.setKth]) ?_ rfl rfl rfl rfl rfl rfl
    intro q k
    by_cases hqk : q = p ∧ k = j
    · exact .inr (by simp [Machine.setKth, hqk])
    · exact .inl (by simp [Machine.setKth, Machine.setProc, hqk])
  · split
    · exact h.frame (LikeAll.refl m) (fun _ _ => .inl rfl) (fun _ _ => rfl) rfl rfl
    · exact JoinInv.sleep (h.block hj (by simp [Thread.Idle, hi])) hr _ _

theorem JoinInv.threadJoin (h : JoinInv m) (hI : Inv m) (hr : (m.cpu c).mode = .running p i)
    (tid : Nat) : JoinInv (m.threadJoin c p i tid esp) := by
  have hi := hI.thread_running hr
  have hon := hI.on c p i (.inr hr)
  unfold Machine.threadJoin
  split
  · exact h
  · rename_i j hj
    have hj' := List.find?_some hj
    simp only [decide_eq_true_eq] at hj'
    have h1 : JoinInv (m.acquire c) :=
      h.frame (LikeAll.refl m) (fun _ _ => .inl rfl) (fun _ _ => rfl) rfl rfl
    exact h1.joinLoop (.inl hj'.1) (hon.2.2 ▸ hi) hi

/-- In a slot that is not in use, nobody is blocked. -/
theorem JoinInv.unborn (h : JoinInv m) (hI : Inv m) (hu : (m.proc np).Unborn) (k j : ThIdx)
    (t : Nat) : (m.kth np k).resume ≠ .join j t :=
  fun hk => h.busy np k j t hk ((hI.ok np).unborn hu k)

/-- A thread slot of a process that is not in use is rewritten. -/
theorem JoinInv.unbornSlot (h : JoinInv m) (hI : Inv m) (hu : (m.proc np).Unborn) (j : ThIdx)
    (hp : ∀ q, q ≠ np → m'.proc q = m.proc q)
    (ht : ∀ k, k ≠ j → ((m.proc np).thread k).Like ((m'.proc np).thread k))
    (hz : ((m'.proc np).thread j).state ≠ .ZOMBIE)
    (hk : ∀ q k, (m'.kth q k).resume = (m.kth q k).resume ∧ (m'.kth q k).exit = (m.kth q k).exit)
    (hex : m'.exits = m.exits) (hjo : m'.joins = m.joins) : JoinInv m' := by
  refine h.slot np j ?_ (fun q k => .inl (hk q k).1) (fun q k => .inl (hk q k).2) ?_ hz
    (.inr fun k t => h.unborn hI hu k j t) hex hjo
  · intro q k hqk
    by_cases hq : q = np
    · subst hq
      exact ht k (fun hkj => hqk ⟨rfl, hkj⟩)
    · rw [hp q hq]
      exact Thread.Like.refl _
  · intro k t
    rw [(hk np j).1]
    exact h.unborn hI hu j k t

/-- `setPc` keeps what `thread_join` recorded. -/
theorem Machine.setPc_kth (m : Machine) (p : Slot) (i : ThIdx) (pc : Pc) (q : Slot) (k : ThIdx) :
    ((m.setPc p i pc).kth q k).resume = (m.kth q k).resume ∧
      ((m.setPc p i pc).kth q k).exit = (m.kth q k).exit := by
  by_cases hq : q = p ∧ k = i
  · obtain ⟨rfl, rfl⟩ := hq
    simp [Machine.setPc, Machine.setKth]
  · simp [Machine.setPc, Machine.setKth, hq]

theorem JoinInv.setPc (h : JoinInv m) (pc : Pc) : JoinInv (m.setPc p i pc) :=
  h.frame (LikeAll.refl m) (fun q k => .inl (m.setPc_kth p i pc q k).1)
    (fun q k => (m.setPc_kth p i pc q k).2) rfl rfl

theorem JoinInv.setProc (h : JoinInv m) {x : Proc}
    (hx : ∀ k, ((m.proc p).thread k).Like (x.thread k)) : JoinInv (m.setProc p x) :=
  h.frame (LikeAll.setProc hx) (fun _ _ => .inl rfl) (fun _ _ => rfl) rfl rfl

/-- A step of `fork` that leaves the child's threads alone. -/
theorem JoinInv.forkStep (h : JoinInv m) {x : Proc} (hx : x.thread = (m.proc np).thread) (pc : Pc) :
    JoinInv ((m.setProc np x).setPc p i pc) :=
  (h.setProc (fun k => by rw [hx]; exact Thread.Like.refl _)).setPc pc

theorem JoinInv.allocproc (h : JoinInv m) (hI : Inv m) : JoinInv (m.allocproc p i) := by
  unfold Machine.allocproc
  split
  · exact h
  · rename_i np hnp
    have hn : (m.proc np).state = .UNUSED := by simpa using List.find?_some hnp
    split
    · have h1 := h.forkStep (p := p) (i := i) (x := (m.proc np).embryo m.nextpid) rfl
        (.forkKalloc np none)
      exact h1.frame (LikeAll.refl _) (fun _ _ => .inl rfl) (fun _ _ => rfl) rfl rfl
    · rename_i j x hx
      obtain ⟨-, rfl⟩ := Proc.allocth_eq hx
      refine h.unbornSlot hI (.inl hn) j ?_ ?_ ?_ ?_ rfl rfl
      · intro q hq
        simp [Machine.setPc, Machine.setKth, Machine.setProc, hq]
      · intro k hk
        simpa [Machine.setPc, Machine.setKth, Machine.setProc, Proc.embryo, hk] using
          Thread.Like.refl _
      · simp [Machine.setPc, Machine.setKth, Machine.setProc, Proc.embryo]
      · exact fun q k => Machine.setPc_kth _ p i _ q k

theorem JoinInv.forkKalloc (h : JoinInv m) (th : Option ThIdx) (page : Option Nat) :
    JoinInv (m.forkKalloc p i np th page) := by
  cases page with
  | none => exact h.forkStep (by rfl) _
  | some a => exact h.forkStep (by rfl) _

theorem JoinInv.forkCopy (h : JoinInv m) (ok : Bool) : JoinInv (m.forkCopy p i np ok) := by
  cases ok with
  | false => exact h.forkStep (by rfl) _
  | true => exact h.forkStep (by rfl) _

theorem JoinInv.forkFields (h : JoinInv m) (hI : Inv m) (hpc : (m.kth p i).pc = .forkFields np) :
    JoinInv ((m.setProc np (Proc.forkFields (m.proc p) (m.proc np) p)).setPc p i
      (.forkFinish np)) := by
  have hu : (m.proc np).Unborn := .inr (hI.claim p i np _ (by rw [hpc]; rfl))
  refine h.unbornSlot hI hu (m.proc np).thidx ?_ ?_ ?_ ?_ rfl rfl
  · intro q hq
    simp [Machine.setPc, Machine.setKth, Machine.setProc, hq]
  · intro k hk
    simpa [Machine.setPc, Machine.setKth, Machine.setProc, Proc.forkFields, hk] using
      Thread.Like.refl _
  · rcases (hI.ok np).unborn hu (m.proc np).thidx with hs | hs <;>
      simp [Machine.setPc, Machine.setKth, Machine.setProc, Proc.forkFields, hs]
  · exact fun q k => Machine.setPc_kth _ p i _ q k

theorem JoinInv.undo (h : JoinInv m) (hI : Inv m)
    (hcl : (m.kth p i).pc.claim = some (np, .UNUSED)) (j : ThIdx) :
    JoinInv ((m.setThread np j { (m.proc np).thread j with state := .UNUSED }).setPc p i .user) := by
  refine h.unbornSlot hI (.inl (hI.claim p i np _ hcl)) j ?_ ?_ ?_ ?_ rfl rfl
  · intro q hq
    simp [Machine.setPc, Machine.setKth, Machine.setThread, Machine.setProc, hq]
  · intro k hk
    simpa [Machine.setPc, Machine.setKth, Machine.setThread, Machine.setProc, hk] using
      Thread.Like.refl _
  · simp [Machine.setPc, Machine.setKth, Machine.setThread, Machine.setProc]
  · exact fun q k => Machine.setPc_kth _ p i _ q k

theorem JoinInv.undoAlloc (h : JoinInv m) (hI : Inv m) {th : Option ThIdx}
    (hpc : (m.kth p i).pc = .undoAlloc np th) :
    JoinInv ((m.undoAlloc np th).setPc p i .user) := by
  cases th with
  | none => exact h.forkStep (by rfl) _
  | some j => exact h.undo hI (by rw [hpc]; rfl) j

/-- A thread slot of a process gets a new thread, or none; nobody is blocked on
it unless it ends up free. -/
theorem JoinInv.renew (h : JoinInv m) {j : ThIdx} {k : Kth}
    (hp : ∀ q, q ≠ p → m'.proc q = m.proc q)
    (ht : ∀ l, l ≠ j → ((m.proc p).thread l).Like ((m'.proc p).thread l))
    (hz : ((m'.proc p).thread j).state ≠ .ZOMBIE)
    (hj : ((m'.proc p).thread j).state = .UNUSED ∨ ∀ l t, (m.kth p l).resume ≠ .join j t)
    (hk : ∀ q l, (m'.kth q l).resume = ((m.setKth p j k).kth q l).resume ∧
      (m'.kth q l).exit = ((m.setKth p j k).kth q l).exit)
    (hr : ∀ l t, k.resume ≠ .join l t) (he : k.exit = none)
    (hex : m'.exits = m.exits) (hjo : m'.joins = m.joins) : JoinInv m' := by
  refine h.slot p j ?_ ?_ ?_ ?_ hz hj hex hjo
  · intro q l hql
    by_cases hq : q = p
    · subst hq
      exact ht l (fun hlj => hql ⟨rfl, hlj⟩)
    · rw [hp q hq]
      exact Thread.Like.refl _
  · intro q l
    rw [(hk q l).1]
    exact NoNewJoin.setKth (.inr hr) q l
  · intro q l
    rw [(hk q l).2]
    by_cases hq : q = p ∧ l = j
    · exact .inr ⟨hq.1, hq.2, by simp [Machine.setKth, hq, he]⟩
    · exact .inl (by simp [Machine.setKth, hq])
  · intro l t
    rw [(hk p j).1]
    simpa [Machine.setKth] using hr l t

theorem JoinInv.forkFinish (h : JoinInv m) (hI : Inv m) (hpc : (m.kth p i).pc = .forkFinish np) :
    JoinInv (m.forkFinish p i np) := by
  have hcl : (m.kth p i).pc.claim = some (np, .EMBRYO) := by rw [hpc]; rfl
  have hu : (m.proc np).Unborn := .inr (hI.claim p i np _ hcl)
  refine h.renew (p := np) (j := (m.proc np).thidx) (k := { pc := .user }) ?_ ?_ ?_ (.inr ?_)
    (fun q k => Machine.setPc_kth _ p i .user q k) (by simp) rfl rfl rfl
  · intro q hq
    simp [Machine.forkFinish, Machine.setPc, Machine.setKth, Machine.setProc, hq]
  · intro k hk
    simpa [Machine.forkFinish, Machine.setPc, Machine.setKth, Machine.setProc, Proc.forkFinish,
      Proc.copyprocth, hk] using Thread.Like.refl _
  · simp [Machine.forkFinish, Machine.setPc, Machine.setKth, Machine.setProc, Proc.forkFinish,
      Proc.copyprocth]
  · exact fun k t => h.unborn hI hu k _ t

theorem JoinInv.execKill (h : JoinInv m) (n pages : Nat) : JoinInv (m.execKill p i n pages) := by
  unfold Machine.execKill
  split
  · rename_i hn
    split
    · exact h.setPc _
    · rename_i hne
      refine h.renew (p := p) (j := ⟨n, hn⟩) (k := {}) ?_ ?_ ?_ (.inl ?_)
        (fun q k => Machine.setPc_kth _ p i _ q k) (by simp) rfl rfl rfl
      · intro q hq
        simp [Machine.setPc, Machine.setKth, Machine.setProc, hq]
      · intro k hk
        simpa [Machine.setPc, Machine.setKth, Machine.setProc, Proc.execKill, hne, hk] using
          Thread.Like.refl _
      · simp [Machine.setPc, Machine.setKth, Machine.setProc, Proc.execKill, hne]
      · simp [Machine.setPc, Machine.setKth, Machine.setProc, Proc.execKill, hne]
  · exact h.setPc _

theorem JoinInv.threadCreate (h : JoinInv m) (hn : ∀ j x, (m.proc p).allocth m.nexttid = some (j, x) →
      ∀ k t, (m.kth p k).resume ≠ .join j t)
    (page : Option Nat) (mapped copied : Bool) :
    JoinInv (m.threadCreate c p page mapped copied) := by
  unfold Machine.threadCreate
  split
  · exact h.frame (LikeAll.refl m) (fun _ _ => .inl rfl) (fun _ _ => rfl) rfl rfl
  · rename_i j x hx
    have hj := hn j x hx
    obtain ⟨hu, rfl⟩ := Proc.allocth_eq hx
    have hres : ∀ l t, (m.kth p j).resume ≠ .join l t := by
      intro l t hl
      exact h.busy p j l t hl (.inl hu)
    -- the errors leave the position of the slot as it was
    have herr : ∀ {y : Proc} {m'' : Machine}, (∀ l, l ≠ j → y.thread l = (m.proc p).thread l) →
        (y.thread j).state ≠ .ZOMBIE → m''.proc = (m.setProc p y).proc → m''.kth = m.kth →
        m''.exits = m.exits → m''.joins = m.joins → JoinInv m'' := by
      intro y m'' hl hz hp hk hex hjo
      refine h.slot p j ?_ (fun q l => .inl (by rw [hk])) (fun q l => .inl (by rw [hk])) ?_ ?_
        (.inr hj) hex hjo
      · intro q l hql
        rw [hp]
        by_cases hq : q = p
        · subst hq
          have hlj : l ≠ j := fun he => hql ⟨rfl, he⟩
          simpa [Machine.setProc, hl l hlj] using Thread.Like.refl _
        · simpa [Machine.setProc, hq] using Thread.Like.refl _
      · rw [hk]; exact hres
      · rw [hp]; simpa [Machine.setProc] using hz
    split
    · exact herr (fun l hl => by simp [hl]) (by simp) rfl rfl rfl rfl
    · rename_i a
      split
      · rename_i y hy
        have hsl := Proc.userStack_thread (.inl hy)
        refine h.renew (p := p) (j := j) (k := { pc := .user }) ?_ ?_ ?_ (.inr hj)
          (fun _ _ => ⟨rfl, rfl⟩) (by simp) rfl rfl rfl
        · intro q hq
          simp [Machine.setKth, Machine.setProc, hq]
        · intro l hl
          simpa [Machine.setKth, Machine.setProc, hsl.1 l hl, Proc.kernelStack, hl] using
            Thread.Like.refl _
        · simpa [Machine.setKth, Machine.setProc] using hsl.2 (by simp [Proc.kernelStack])
      · rename_i y hy
        have hsl := Proc.userStack_thread (.inr hy)
        exact herr (fun l hl => by simp [hsl.1 l hl, Proc.kernelStack, hl])
          (hsl.2 (by simp [Proc.kernelStack])) rfl rfl rfl rfl

theorem JoinInv.threadExit (h : JoinInv m) (hI : Inv m) (hr : (m.cpu c).mode = .running p i)
    (v : Nat) : JoinInv (m.threadExit c p i v esp) := by
  have hi := hI.thread_running hr
  have hon := hI.on c p i (.inr hr)
  have hlike := LikeAll.threadExit m c p i v esp
  have hself := (m.proc p).threadExit_self v
  have hli := hlike p i
  simp only [Machine.setProc, if_true] at hli
  rw [hon.2.2] at hself hi
  refine h.exitThread (p := p) (i := i) (v := v) ?_ ?_ ?_ ?_ ?_ ?_ ?_ (by simp [hi]) ?_ rfl
  · intro q k hqk
    refine Thread.Like.trans ?_ (hlike q k)
    by_cases hq : q = p
    · subst hq
      have hk : k ≠ (m.proc q).thidx := by
        rw [hon.2.2]
        exact fun he => hqk ⟨rfl, he⟩
      simpa [Machine.setProc, (m.proc q).threadExit_other v hk] using Thread.Like.refl _
    · simpa [Machine.setProc, hq] using Thread.Like.refl _
  · exact NoNewJoin.setKth (.inr (by simp))
  · simp [Machine.threadExit, Machine.sched, Machine.leaveThread, Machine.setCpu, Machine.setProc,
      Machine.wakeup1, Machine.setKth]
  · intro q k hqk
    simp [Machine.threadExit, Machine.sched, Machine.leaveThread, Machine.setCpu, Machine.setProc,
      Machine.wakeup1, Machine.setKth, Machine.acquire, hqk]
  · simp [Machine.threadExit, Machine.sched, Machine.leaveThread, Machine.setCpu, Machine.setProc,
      Machine.wakeup1, Machine.setKth, Machine.acquire]
  · exact hli.tid.trans hself.1
  · exact hli.retval.trans hself.2
  · simp [Machine.threadExit, hon.2.2]

theorem JoinInv.exitEnd (h : JoinInv m) : JoinInv (m.exitEnd c p i esp) := by
  have hk : ((m.acquire c).abandon p).kth = m.kth := Machine.abandon_kth _ p
  have hpc := fun q k => Machine.setPc_kth (((m.acquire c).abandon p).setProc p
    { ((m.acquire c).abandon p).proc p with state := .ZOMBIE }) p i .dead q k
  refine h.frame (LikeAll.exitEnd m c p i esp) ?_ ?_ ?_ ?_
  · exact fun q k => .inl ((hpc q k).1.trans (congrArg (fun f => (f q k).resume) hk))
  · exact fun q k => (hpc q k).2.trans (congrArg (fun f => (f q k).exit) hk)
  · simp only [Machine.exitEnd, Machine.sched, Machine.abandon]
    split <;> rfl
  · simp only [Machine.exitEnd, Machine.sched, Machine.abandon]
    split <;> rfl

theorem JoinInv.fsCall (h : JoinInv m) (hI : Inv m) (hr : (m.cpu c).mode = .running p i) {f : FsCall}
    (hs : m.fsCall c p i esp f = some m') : JoinInv m' := by
  have hi := hI.thread_running hr
  have hq : ∀ {k : Kth} {m'' : Machine}, LikeAll m m'' → m''.kth = (m.setKth p i k).kth →
      k.resume = (m.kth p i).resume → k.exit = (m.kth p i).exit → m''.exits = m.exits →
      m''.joins = m.joins → JoinInv m'' :=
    fun ht hk hr he hex hjo => h.quiet ht hk (.inl hr) he hex hjo
  have hsl : ∀ {k : Kth} (ch : Chan), k.resume = (m.kth p i).resume → k.exit = (m.kth p i).exit →
      JoinInv (((m.setKth p i k).acquire c).sleep c p i ch .sleep esp) := by
    intro k ch hr he
    have h1 : JoinInv ((m.setKth p i k).acquire c) :=
      hq (LikeAll.refl m) rfl hr he rfl rfl
    exact h1.sleepOther (by simp) hi ch esp
  cases f with
  | beginOp =>
    simp only [Machine.fsCall] at hs
    split_ifs at hs with h1 h2 h3 <;> cases hs
    · exact hsl _ (by rfl) (by rfl)
    · exact hq (LikeAll.refl m) (by rfl) (by rfl) (by rfl) rfl rfl
  | endOp =>
    simp only [Machine.fsCall] at hs
    split_ifs at hs with h1 h2 <;> cases hs
    · exact hq (LikeAll.refl m) (by rfl) (by rfl) (by rfl) rfl rfl
    · exact hq (LikeAll.wakeup1 m _) (by rfl) (by rfl) (by rfl) rfl rfl
  | commitDone =>
    simp only [Machine.fsCall] at hs
    split_ifs at hs with h1
    cases hs
    exact hq (LikeAll.wakeup1 m _) (by rfl) (by rfl) (by rfl) rfl rfl
  | logWrite new =>
    simp only [Machine.fsCall] at hs
    split_ifs at hs with h1 h2 <;> cases hs
    all_goals exact h.frame (LikeAll.refl m) (fun _ _ => .inl rfl) (fun _ _ => rfl) rfl rfl
  | acquiresleep l =>
    simp only [Machine.fsCall] at hs
    split_ifs at hs with h1 h2 <;> cases hs
    · exact hsl _ (by rfl) (by rfl)
    · exact hq (LikeAll.refl m) (by rfl) (by rfl) (by rfl) rfl rfl
  | releasesleep l =>
    simp only [Machine.fsCall] at hs
    split_ifs at hs with h1
    cases hs
    exact hq (LikeAll.wakeup1 m _) (by rfl) (by rfl) (by rfl) rfl rfl

end Calls

/-! ## Whole runs -/

/-- The slot a thread is blocked on in `thread_join`. -/
def Resume.joined : Resume → Option ThIdx
  | .join j _ => some j
  | _ => none

/-- Nobody is blocked in `thread_join` on the slot that `allocth` would give to a
new thread of `p`. -/
def Machine.NoJoiner (m : Machine) (p : Slot) : Prop :=
  match (m.proc p).allocth m.nexttid with
  | none => True
  | some (j, _) => ∀ k, (m.kth p k).resume.joined ≠ some j

instance Machine.NoJoiner.decidable (m : Machine) (p : Slot) : Decidable (m.NoJoiner p) :=
  match h : (m.proc p).allocth m.nexttid with
  | none => .isTrue (by simp [Machine.NoJoiner, h])
  | some (j, x) =>
    decidable_of_iff (∀ k, (m.kth p k).resume.joined ≠ some j) (by simp [Machine.NoJoiner, h])

def Call.isThreadCreate : Call → Bool
  | .threadCreate _ _ _ => true
  | _ => false

/-- The condition on a call: a `thread_create` reuses no slot on which a thread
is still blocked. -/
def NoStaleJoin (m : Machine) (p : Slot) (_ : ThIdx) (k : Call) : Prop :=
  k.isThreadCreate = true → m.NoJoiner p

instance NoStaleJoin.decidable (m : Machine) (p : Slot) (i : ThIdx) (k : Call) :
    Decidable (NoStaleJoin m p i k) :=
  inferInstanceAs (Decidable (_ → _))

/-- The two conditions together. -/
def FreeAndNoStaleJoin (m : Machine) (p : Slot) (i : ThIdx) (k : Call) : Prop :=
  FreeSlot m p i k ∧ NoStaleJoin m p i k

instance FreeAndNoStaleJoin.decidable (m : Machine) (p : Slot) (i : ThIdx) (k : Call) :
    Decidable (FreeAndNoStaleJoin m p i k) :=
  inferInstanceAs (Decidable (_ ∧ _))

section Runs

variable {m m' : Machine} {c : Nat} {p : Slot} {i : ThIdx} {esp : Nat}

theorem JoinInv.call (h : JoinInv m) (hI : Inv m) (hr : (m.cpu c).mode = .running p i) {k : Call}
    (hn : NoStaleJoin m p i k) (hs : CallStep m c p i esp k m') : JoinInv m' := by
  have hi := hI.thread_running hr
  have hon := hI.on c p i (.inr hr)
  cases hs with
  | yield hl =>
    exact h.quiet (LikeAll.yield hi c i esp) (by rfl) (.inr (by simp)) (by rfl) rfl rfl
  | sleep hl _ =>
    have h1 : JoinInv (m.acquire c) :=
      h.frame (LikeAll.refl m) (fun _ _ => .inl rfl) (fun _ _ => rfl) rfl rfl
    exact h1.sleepOther (by simp) hi _ _
  | kill =>
    refine h.frame (LikeAll.kill m _) ?_ ?_ ?_ ?_ <;> unfold Machine.kill <;> split
    · exact fun _ _ => .inl rfl
    · exact fun _ _ => .inl rfl
    · exact fun _ _ => rfl
    · exact fun _ _ => rfl
    all_goals rfl
  | fork => exact h.allocproc hI
  | forkKalloc => exact h.forkKalloc _ _
  | forkCopy => exact h.forkCopy _
  | forkFields hpc => exact h.forkFields hI hpc
  | forkFinish _ hpc => exact h.forkFinish hI hpc
  | undoAlloc hpc => exact h.undoAlloc hI hpc
  | undoFork hpc => exact h.undo hI (by rw [hpc]; rfl) _
  | exec => exact h.setPc _
  | execKill => exact h.execKill _ _
  | execCommit =>
    refine JoinInv.setPc ?_ _
    exact h.frame (LikeAll.execCommit hi _ _) (fun _ _ => .inl rfl) (fun _ _ => rfl) rfl rfl
  | execFail => exact h.setPc _
  | exit => exact h.setPc _
  | exitEnd => exact h.exitEnd
  | wait hl =>
    have h1 : JoinInv (m.acquire c) :=
      h.frame (LikeAll.refl m) (fun _ _ => .inl rfl) (fun _ _ => rfl) rfl rfl
    exact h1.waitLoop hi
  | threadCreate =>
    refine h.threadCreate ?_ _ _ _
    intro j x hx k t hk
    have hnj : m.NoJoiner p := hn rfl
    simp only [Machine.NoJoiner, hx] at hnj
    exact hnj k (by simp [hk, Resume.joined])
  | threadExit => exact h.threadExit hI hr _
  | threadJoin => exact h.threadJoin hI hr _
  | fsEnter => exact h.setPc _
  | fsReturn => exact h.setPc _
  | fs _ hf => exact h.fsCall hI hr hf

theorem JoinInv.schedule (h : JoinInv m) (hs : m.schedule c = some m') : JoinInv m' := by
  unfold Machine.schedule at hs
  split at hs
  · split_ifs at hs
    cases hs
    exact h.frame (LikeAll.refl m) (fun _ _ => .inl rfl) (fun _ _ => rfl) rfl rfl
  · split at hs <;> cases hs
    · rename_i p hp
      exact h.frame (LikeAll.dispatch hp c) (fun _ _ => .inl rfl) (fun _ _ => rfl) rfl rfl
    · exact h.frame (LikeAll.refl m) (fun _ _ => .inl rfl) (fun _ _ => rfl) rfl rfl
  · cases hs

theorem JoinInv.resume (h : JoinInv m) (hI : Inv m) (hs : m.resume c esp = some m') :
    JoinInv m' := by
  unfold Machine.resume at hs
  split at hs
  · rename_i p i hk
    have hon := hI.on c p i (.inl hk)
    have hi : ((m.proc p).thread i).state = .RUNNING :=
      ((hI.ok p).running hon.2.1 i).mpr hon.2.2.symm
    have h1 : JoinInv (m.enter c p i) :=
      h.quiet (LikeAll.refl m) (by rfl) (.inr (by simp)) (by rfl) rfl rfl
    have h2 : JoinInv ((m.enter c p i).schedTail p) :=
      h1.frame (LikeAll.schedTail _ p) (fun _ _ => .inl rfl) (fun _ _ => rfl) rfl rfl
    have h3 : JoinInv ((m.enter c p i).awake p i) :=
      h1.frame (LikeAll.awake _ p i) (fun _ _ => .inl rfl) (fun _ _ => rfl) rfl rfl
    have hrel : ∀ {m'' : Machine}, JoinInv m'' → JoinInv m''.release :=
      fun hm => hm.frame (LikeAll.refl _) (fun _ _ => .inl rfl) (fun _ _ => rfl) rfl rfl
    have hai : (((m.enter c p i).awake p i).proc p).thidx = i := by
      simpa [Machine.awake, Machine.schedTail, Machine.setThread, Machine.setProc, Machine.enter,
        Machine.setKth, Machine.setCpu, Proc.copyprocth] using hon.2.2
    have har : ((((m.enter c p i).awake p i).proc p).thread i).state = .RUNNING := by
      simpa [Machine.awake, Machine.schedTail, Machine.setThread, Machine.setProc, Machine.enter,
        Machine.setKth, Machine.setCpu, Proc.copyprocth, hon.2.2] using hi
    split at hs
    · cases hs
    · cases hs; exact hrel h1
    · cases hs; exact hrel h2
    · cases hs; exact hrel h3
    · cases hs; exact h3.waitLoop (by rw [hai]; exact har)
    · -- the slot was right when the thread went to sleep, and still is
      rename_i j tid hj
      cases hs
      refine h3.joinLoop ?_ har (by rw [hai]; exact har)
      have hl := LikeAll.awake (m.enter c p i) p i p j
      rw [hl.tid, hl.unused]
      exact h.tid p i j tid hj
    · split_ifs at hs
      cases hs
      exact h2
  · cases hs

theorem JoinInv.step (h : JoinInv m) (hI : Inv m) {a : Act} (hn : OnCall NoStaleJoin m a)
    (hs : step m a = some m') : JoinInv m' := by
  cases a with
  | schedule c => exact h.schedule hs
  | resume c esp => exact h.resume hI hs
  | wakeup n =>
    simp only [Lwp.step] at hs
    split_ifs at hs
    cases hs
    exact h.frame (LikeAll.wakeup1 m _) (fun _ _ => .inl rfl) (fun _ _ => rfl) rfl rfl
  | call c esp k =>
    simp only [Lwp.step] at hs
    split at hs
    · rename_i p i hr
      exact h.call hI hr (hn.of_running hr) (Machine.call_step hs)
    · cases hs

theorem JoinInv.boot (page : Nat) : JoinInv (boot page) := by
  have hk : ∀ p k, ((Lwp.boot page).kth p k).resume = .forkret ∧
      ((Lwp.boot page).kth p k).exit = none := by
    intro p k
    simp only [Lwp.boot]
    split <;> simp
  have hz : ∀ p j, (((Lwp.boot page).proc p).thread j).state ≠ .ZOMBIE := by
    intro p j
    by_cases hp : p = 0 <;> by_cases hj : j = 0 <;> simp [Lwp.boot, hp, hj]
  constructor
  · intro p k j t h
    simp [(hk p k).1] at h
  · intro p k j t h
    simp [(hk p k).1] at h
  · exact fun p j h => absurd h (hz p j)
  · intro p j e h
    simp [(hk p j).2] at h
  · intro p j q k e h
    simp [(hk p j).2] at h
  · intro p j e h
    simp [(hk p j).2] at h
  · simp [Lwp.boot]
  · simp [Lwp.boot]

end Runs

/-- What every successful `thread_join` must satisfy: the value it returned was
passed to `thread_exit` by the thread with the tid it asked for, and no other
join has consumed that exit. -/
structure JoinsExact (m : Machine) : Prop where
  value : ∀ r ∈ m.joins, ∃ e x, r.exit = some e ∧ m.exits[e]? = some x ∧
    x.p = r.p ∧ x.tid = r.tid ∧ x.value = r.value
  once : (m.joins.map (·.exit)).Nodup

/-- In every run in which `thread_create` reuses no slot on which a thread is
still blocked in `thread_join` (and `fork` no slot that is being given back),
every join is exact. -/
theorem joins_exact_of_no_stale_join (page : Nat) (as : List Act) (m : Machine)
    (hok : Lib.Meets step (OnCall FreeAndNoStaleJoin) (boot page) as)
    (hr : Lib.run step (boot page) as = some m) : JoinsExact m := by
  have h : Inv m ∧ JoinInv m := Lib.run_inv (I := fun s => Inv s ∧ JoinInv s)
    (fun _ _ _ h hok hs => ⟨h.1.step (hok.mono fun _ _ _ _ hc => hc.1) hs,
      h.2.step h.1 (hok.mono fun _ _ _ _ hc => hc.2) hs⟩)
    as _ m ⟨Inv.boot page, JoinInv.boot page⟩ hok hr
  refine ⟨fun r hr => ?_, h.2.once⟩
  obtain ⟨e, hre, hev⟩ := h.2.done r hr
  exact ⟨e, _, hre, hev, rfl, rfl, rfl⟩

/-- `init` creates a thread (tid 2, slot 1) and joins it; the thread exits with 7. -/
def joinOne : List Act :=
  [.call 0 0 (.threadCreate (some 8192) true true), .call 0 0 (.threadJoin 2),
   .schedule 0, .schedule 0, .schedule 0, .resume 0 0, .call 0 0 (.threadExit 7),
   .schedule 0, .schedule 0, .schedule 0, .resume 0 0]

theorem joins_exact_joinOne : ∃ m, Lib.run step (boot 4096) (startInit ++ joinOne) = some m ∧
    m.joins = [{ p := 0, tid := 2, value := 7, exit := some 0 }] ∧ JoinsExact m := by
  have hrun : (Lib.run step (initReady 4096) joinOne).any (fun m =>
      m.joins = [{ p := 0, tid := 2, value := 7, exit := some 0 }]) := by
    decide +kernel
  obtain ⟨m, hr, hm⟩ := (Option.any_eq_true _ _).mp hrun
  rw [← run_init] at hr
  exact ⟨m, hr, by simpa using hm,
    joins_exact_of_no_stale_join 4096 _ m (meets_init (by decide +kernel) (by decide +kernel)) hr⟩

/-- CPU 0 ends its round over the table, starts another and enters the next
thread. -/
def nextThread : List Act := [.schedule 0, .schedule 0, .schedule 0, .resume 0 0]

/-- `init` creates the threads with tids 2, 3 and 4 in slots 1, 2 and 3. The last
two join tid 2, which exits with 7. Thread 3 reaps it and creates thread 5, which
gets slot 1 and exits with 9; only then thread 4 comes out of its join. -/
def stolenExit : List Act :=
  [.call 0 0 (.threadCreate (some 8192) true true), .call 0 0 (.threadCreate (some 12288) true true),
   .call 0 0 (.threadCreate (some 16384) true true), .call 0 0 .yield] ++ nextThread ++
  [.call 0 0 .yield] ++ nextThread ++
  [.call 0 0 (.threadJoin 2)] ++ nextThread ++ [.call 0 0 (.threadJoin 2)] ++ nextThread ++
  [.call 0 0 .yield] ++ nextThread ++ [.call 0 0 (.threadExit 7)] ++ nextThread ++
  [.call 0 0 (.threadCreate (some 8192) true true), .call 0 0 .yield] ++ nextThread ++ nextThread ++
  [.call 0 0 .yield] ++ nextThread ++ [.call 0 0 (.threadExit 9)] ++ nextThread ++
  [.call 0 0 .yield] ++ nextThread

theorem stolenExit_not_exact : ∃ m, Lib.run step (boot 4096) (startInit ++ stolenExit) = some m ∧
    ¬ JoinsExact m := by
  have hrun : (Lib.run step (initReady 4096) stolenExit).any (fun m =>
      m.joins = [{ p := 0, tid := 2, value := 7, exit := some 0 },
        { p := 0, tid := 2, value := 9, exit := some 1 }] ∧
      m.exits = [{ p := 0, tid := 2, value := 7 }, { p := 0, tid := 5, value := 9 }]) := by
    decide +kernel
  obtain ⟨m, hr, hm⟩ := (Option.any_eq_true _ _).mp hrun
  rw [← run_init] at hr
  simp only [decide_eq_true_eq] at hm
  refine ⟨m, hr, fun h => ?_⟩
  obtain ⟨e, x, he, hx, -, ht, -⟩ :=
    h.value { p := 0, tid := 2, value := 9, exit := some 1 } (by simp [hm.1])
  -- the exit it consumed is the one of thread 5
  simp only [Option.some.injEq] at he
  subst he
  simp only [hm.2, List.getElem?_cons_succ, List.getElem?_cons_zero, Option.some.injEq] at hx
  subst hx
  simp at ht

end Xv6.Lwp
