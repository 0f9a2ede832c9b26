import Mathlib.Data.Option.Basic

/- Runs of a labelled step function. A machine is a type of states `σ`, a type
   of actions `α` and a partial step function: `none` says that the action is
   not possible in that state. `run` takes a list of actions in order, and
   `Meets` says that every step of a run is taken in a state that satisfies a
   side condition. The two invariant rules are all a safety proof over whole
   runs needs: what one step preserves, every run preserves. -/
namespace Xv6.Lib

variable {σ α : Type}

/-- Take the actions in order; `none` when one of them is not possible. -/
def run (step : σ → α → Option σ) : σ → List α → Option σ
  | s, [] => some s
  | s, a :: as => (step s a).bind (fun s' => run step s' as)

/-- Every action of the list is taken in a state that satisfies `ok`. -/
def Meets (step : σ → α → Option σ) (ok : σ → α → Prop) : σ → List α → Prop
  | _, [] => True
  | s, a :: as => ok s a ∧ ∀ s', step s a = some s' → Meets step ok s' as

theorem run_cons {step : σ → α → Option σ} {s s' : σ} {a : α} {as : List α}
    (h : run step s (a :: as) = some s') :
    ∃ m, step s a = some m ∧ run step m as = some s' := by
  simpa [run, Option.bind_eq_some_iff] using h

theorem run_append (step : σ → α → Option σ) (bs : List α) : ∀ (as : List α) (s : σ),
    run step s (as ++ bs) = (run step s as).bind (fun s' => run step s' bs) := by
  intro as
  induction as with
  | nil => intro s; rfl
  | cons a as ih =>
    intro s
    simp only [List.cons_append, run, Option.bind_assoc, ih]

theorem meets_append {step : σ → α → Option σ} {ok : σ → α → Prop} (bs : List α) :
    ∀ (as : List α) (s : σ), Meets step ok s as →
      (∀ s', run step s as = some s' → Meets step ok s' bs) → Meets step ok s (as ++ bs) := by
  intro as
  induction as with
  | nil => exact fun s _ h => h s rfl
  | cons a as ih =>
    intro s hm h
    refine ⟨hm.1, fun s' hs => ih s' (hm.2 s' hs) (fun t ht => h t ?_)⟩
    simpa [run, hs] using ht

/-- What every step that satisfies `ok` preserves, every run of such steps
preserves. -/
theorem run_inv {step : σ → α → Option σ} {ok : σ → α → Prop} {I : σ → Prop}
    (hstep : ∀ s a s', I s → ok s a → step s a = some s' → I s') :
    ∀ (as : List α) (s s' : σ), I s → Meets step ok s as → run step s as = some s' → I s' := by
  intro as
  induction as with
  | nil =>
    intro s s' hi _ hr
    simp only [run, Option.some.injEq] at hr
    subst hr
    exact hi
  | cons a as ih =>
    intro s s' hi hm hr
    obtain ⟨m, hs, hr⟩ := run_cons hr
    exact ih m s' (hstep s a m hi hm.1 hs) (hm.2 m hs) hr

/-- Whether a run meets a decidable condition can be computed along the run. -/
instance Meets.decidable (step : σ → α → Option σ) (ok : σ → α → Prop)
    [∀ s a, Decidable (ok s a)] : ∀ (s : σ) (as : List α), Decidable (Meets step ok s as)
  | _, [] => .isTrue trivial
  | s, a :: as =>
    match h : step s a with
    | none =>
      decidable_of_iff (ok s a) ⟨fun ho => ⟨ho, fun s' hs => by simp [h] at hs⟩, fun hm => hm.1⟩
    | some s' =>
      have := Meets.decidable step ok s' as
      decidable_of_iff (ok s a ∧ Meets step ok s' as)
        ⟨fun hm => ⟨hm.1, fun t ht => by rw [h] at ht; cases ht; exact hm.2⟩,
          fun hm => ⟨hm.1, hm.2 s' h⟩⟩

/-- A condition on the actions alone is met when every action satisfies it. -/
theorem meets_of_forall {step : σ → α → Option σ} {ok : α → Prop} : ∀ (as : List α) (s : σ),
    (∀ a ∈ as, ok a) → Meets step (fun _ a => ok a) s as := by
  intro as
  induction as with
  | nil => intro s _; trivial
  | cons a as ih =>
    intro s h
    exact ⟨h a (by simp), fun s' _ => ih s' (fun b hb => h b (by simp [hb]))⟩

theorem Meets.mono {step : σ → α → Option σ} {ok ok' : σ → α → Prop} (h : ∀ s a, ok s a → ok' s a) :
    ∀ (as : List α) (s : σ), Meets step ok s as → Meets step ok' s as := by
  intro as
  induction as with
  | nil => intro s _; trivial
  | cons a as ih =>
    intro s hm
    exact ⟨h s a hm.1, fun s' hs => ih s' (hm.2 s' hs)⟩

theorem meets_true (step : σ → α → Option σ) : ∀ (as : List α) (s : σ),
    Meets step (fun _ _ => True) s as := by
  intro as
  induction as with
  | nil => intro s; trivial
  | cons a as ih => intro s; exact ⟨trivial, fun s' _ => ih s'⟩

/-- What every step preserves, every run preserves. -/
theorem run_inv_all {step : σ → α → Option σ} {I : σ → Prop}
    (hstep : ∀ s a s', I s → step s a = some s' → I s')
    {as : List α} {s s' : σ} (hi : I s) (hr : run step s as = some s') : I s' := by
  refine run_inv ?_ as s s' hi (meets_true step as s) hr
  intro t a t' ht _ hs
  exact hstep t a t' ht hs

/-- Forward simulation: what one step of the first machine does, a step of the second one
does as well, and so for whole runs. -/
theorem run_sim {τ : Type} {step : σ → α → Option σ} {step' : τ → α → Option τ} {R : σ → τ → Prop}
    (hstep : ∀ s a s' u, R s u → step s a = some s' → ∃ u', step' u a = some u' ∧ R s' u') :
    ∀ (as : List α) (s t : σ) (u : τ), R s u → run step s as = some t →
      ∃ v, run step' u as = some v ∧ R t v := by
  intro as
  induction as with
  | nil =>
    intro s t u h hr
    cases hr
    exact ⟨u, rfl, h⟩
  | cons a as ih =>
    intro s t u h hr
    obtain ⟨m, hs, hr⟩ := run_cons hr
    obtain ⟨u', hu, h'⟩ := hstep s a m u h hs
    obtain ⟨v, hv, ht⟩ := ih m t u' h' hr
    refine ⟨v, ?_, ht⟩
    rw [run, hu, Option.bind_some]
    exact hv

/-- A condition whose violation leaves a mark that stays is met by every run that
ends without the mark. -/
theorem meets_of_unmarked {step : σ → α → Option σ} {ok : σ → α → Prop} {I Mark : σ → Prop}
    (hstep : ∀ s a s', I s → ok s a → step s a = some s' → I s')
    (hmark : ∀ s a s', I s → ¬ ok s a → step s a = some s' → Mark s')
    (hstay : ∀ s a s', Mark s → step s a = some s' → Mark s') :
    ∀ (as : List α) (s s' : σ), I s → run step s as = some s' → ¬ Mark s' → Meets step ok s as := by
  have hrun : ∀ (as : List α) (s s' : σ), Mark s → run step s as = some s' → Mark s' :=
    fun as s s' hm hr => run_inv_all hstay hm hr
  intro as
  induction as with
  | nil => intro s s' _ _ _; trivial
  | cons a as ih =>
    intro s s' hi hr hn
    obtain ⟨t, hs, hr⟩ := run_cons hr
    have hok : ok s a := by
      by_contra hok
      exact hn (hrun as t s' (hmark s a t hi hok hs) hr)
    refine ⟨hok, fun t' ht => ?_⟩
    rw [hs] at ht
    cases ht
    exact ih t s' (hstep s a t hi hok hs) hr hn

/-- Where a step that violates the condition shows in the next state, all states of a run are
good exactly when the run meets the condition. -/
theorem good_iff_meets {step : σ → α → Option σ} {ok : σ → α → Prop} {I Good : σ → Prop}
    (hgood : ∀ s, I s → Good s)
    (hstep : ∀ s a s', I s → ok s a → step s a = some s' → I s')
    (hback : ∀ s a s', I s → step s a = some s' → Good s' → ok s a) :
    ∀ (as : List α) (s : σ), I s → (∃ t, run step s as = some t) →
      ((∀ n u, run step s (as.take n) = some u → Good u) ↔ Meets step ok s as) := by
  intro as
  induction as with
  | nil =>
    intro s hi _
    refine iff_of_true (fun n u hu => ?_) trivial
    rw [List.take_nil] at hu
    cases hu
    exact hgood s hi
  | cons a as ih =>
    intro s hi hr
    obtain ⟨t, hr⟩ := hr
    obtain ⟨m, hs, hr⟩ := run_cons hr
    have htail : ∀ n, run step s ((a :: as).take (n + 1)) = run step m (as.take n) := by
      intro n
      rw [List.take_succ_cons, run, hs, Option.bind_some]
    constructor
    · intro hall
      have hok := hback s a m hi hs (hall 1 m (htail 0))
      refine ⟨hok, fun m' hm' => ?_⟩
      obtain rfl : m = m' := Option.some.inj (hs.symm.trans hm')
      apply (ih m (hstep s a m hi hok hs) ⟨t, hr⟩).mp
      intro n u hu
      exact hall (n + 1) u ((htail n).trans hu)
    · intro hmeets n u hu
      cases n with
      | zero =>
        cases hu
        exact hgood s hi
      | succ n =>
        apply (ih m (hstep s a m hi hmeets.1 hs) ⟨t, hr⟩).mpr (hmeets.2 m hs) n u
        exact (htail n).symm.trans hu

end Xv6.Lib
