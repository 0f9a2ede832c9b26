import Mathlib.Logic.Basic

/- Weakest preconditions for `EStateM`, with a postcondition for the result and
   one for the state at an exception. The rules follow the structure of a program:
   `wp_bind`, `wp_pure`, `wp_get`, `wp_modify`, and `wp.mono` to use what is known
   of a call at the place where it is made. The last part is on `Except`, where a program
   that has returned is taken apart call by call. -/
namespace Xv6.Lib

variable {ε σ α β : Type}

/-- `x`, started in `s`, ends in a state that satisfies `Q` if it returns and `E`
if it throws. -/
def wp (x : EStateM ε σ α) (Q : α → σ → Prop) (E : ε → σ → Prop) (s : σ) : Prop :=
  match x s with
  | .ok a s' => Q a s'
  | .error e s' => E e s'

variable {x : EStateM ε σ α} {Q Q' : α → σ → Prop} {E E' : ε → σ → Prop} {s : σ}

theorem wp.mono (h : wp x Q E s) (hq : ∀ a s', Q a s' → Q' a s') (he : ∀ e s', E e s' → E' e s') :
    wp x Q' E' s := by
  unfold wp at h ⊢
  split
  · rename_i a s' heq
    rw [heq] at h
    exact hq a s' h
  · rename_i e s' heq
    rw [heq] at h
    exact he e s' h

theorem wp_bind {f : α → EStateM ε σ β} {R : β → σ → Prop}
    (h : wp x (fun a s' => wp (f a) R E s') E s) : wp (x >>= f) R E s := by
  unfold wp at h
  unfold wp
  simp only [bind, EStateM.bind]
  cases hx : x s with
  | ok a s' => simpa only [hx, wp] using h
  | error e s' => simpa only [hx] using h

/-- A call of which `wp x P F` is known, followed by `f`. -/
theorem wp.bind {f : α → EStateM ε σ β} {R : β → σ → Prop} {P : α → σ → Prop} {F : ε → σ → Prop}
    (h : wp x P F s) (he : ∀ e s', F e s' → E e s')
    (hf : ∀ a s', P a s' → wp (f a) R E s') : wp (x >>= f) R E s :=
  wp_bind (h.mono hf he)

theorem wp_pure {a : α} (h : Q a s) : wp (pure a) Q E s := h

theorem wp_get {f : σ → EStateM ε σ β} {R : β → σ → Prop} (h : wp (f s) R E s) :
    wp (get >>= f) R E s := h

theorem wp_modify {g : σ → σ} {f : PUnit → EStateM ε σ β} {R : β → σ → Prop}
    (h : wp (f ⟨⟩) R E (g s)) : wp (modify g >>= f) R E s := h

theorem wp_throw {e : ε} (h : E e s) : wp (throw e : EStateM ε σ α) Q E s := h

/-- What is known of a call that has returned. -/
theorem wp.ok (h : wp x Q E s) {a : α} {s' : σ} (hx : x s = .ok a s') : Q a s' := by
  simpa only [wp, hx] using h

theorem wp.error (h : wp x Q E s) {e : ε} {s' : σ} (hx : x s = .error e s') : E e s' := by
  simpa only [wp, hx] using h

/-! ## Runs -/

theorem run_bind {f : α → EStateM ε σ β} {a : α} {s' : σ} (h : x s = .ok a s') :
    (x >>= f) s = f a s' := by
  simp only [bind, EStateM.bind, h]

theorem bind_ok {f : α → EStateM ε σ β} {b : β} {s' : σ} (h : (x >>= f) s = .ok b s') :
    ∃ a t, x s = .ok a t ∧ f a t = .ok b s' := by
  simp only [bind, EStateM.bind] at h
  cases hx : x s with
  | ok a t =>
    rw [hx] at h
    exact ⟨a, t, rfl, h⟩
  | error e t =>
    rw [hx] at h
    cases h

/-! ## Except -/

section Except

variable {γ : Type}

theorem except_bind_ok {x : Except ε α} {f : α → Except ε β} {b : β} (h : x >>= f = .ok b) :
    ∃ a, x = .ok a ∧ f a = .ok b := by
  cases x with
  | error e => cases h
  | ok a => exact ⟨a, rfl, h⟩

/-- What every pass keeps, a loop over a list keeps. -/
theorem foldlM_inv {P : γ → Prop} {f : γ → α → Except ε γ}
    (hstep : ∀ b a b', P b → f b a = .ok b' → P b') :
    ∀ (l : List α) (b b' : γ), P b → l.foldlM f b = .ok b' → P b' := by
  intro l
  induction l with
  | nil =>
    intro b b' hb h
    cases h
    exact hb
  | cons a l ih =>
    intro b b' hb h
    rw [List.foldlM_cons] at h
    obtain ⟨b₁, ha, h⟩ := except_bind_ok h
    exact ih b₁ b' (hstep b a b₁ hb ha) h

end Except

end Xv6.Lib
