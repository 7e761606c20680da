import MongrelDB.Lib.Prog

/-!
# Two programs side by side

Two programs, each from a state of its own, end alike (`pairs`): both with values and
states that are related, or both with one returned code and states that are related, or
both with one fault. So what is told of a program and of another is told of two runs at
once: that a run does not depend on a part of its state, or on how its surroundings do
what they do.

The rules take both programs apart in step, one rule for each construct; `pairs_and` adds what
is known of each of them alone.
-/

namespace MongrelDB

namespace Prog

variable {φ σ τ ε α β α' β' : Type}

/-- Two ends that are alike: with values and states of `Q`, with one code and states of `E`,
    or with one fault. -/
inductive EndAlike (Q : α → σ → β → τ → Prop) (E : σ → τ → Prop) :
    Outcome φ σ ε α → Outcome φ τ ε β → Prop
  | val {a : α} {s : σ} {b : β} {t : τ} (h : Q a s b t) : EndAlike Q E (.val a s) (.val b t)
  | ret {e : ε} {s : σ} {t : τ} (h : E s t) : EndAlike Q E (.ret e s) (.ret e t)
  | fault {f : φ} : EndAlike Q E (.fault f) (.fault f)

/-- From `s` and `t`, the programs end alike. -/
def pairs (x : Prog φ σ ε α) (y : Prog φ τ ε β) (Q : α → σ → β → τ → Prop) (E : σ → τ → Prop)
    (s : σ) (t : τ) : Prop :=
  EndAlike Q E (x s) (y t)

variable {x : Prog φ σ ε α} {y : Prog φ τ ε β} {Q : α → σ → β → τ → Prop} {E : σ → τ → Prop}
  {s : σ} {t : τ}

theorem pairs_pure {a : α} {b : β} (h : Q a s b t) :
    pairs (pure a : Prog φ σ ε α) (pure b : Prog φ τ ε β) Q E s t := .val h

theorem pairs_ret {e : ε} (h : E s t) :
    pairs (ret e : Prog φ σ ε α) (ret e : Prog φ τ ε β) Q E s t := .ret h

theorem pairs_fault {f : φ} :
    pairs (fault f : Prog φ σ ε α) (fault f : Prog φ τ ε β) Q E s t := .fault

/-- Consequence. -/
theorem pairs_mono {Q' : α → σ → β → τ → Prop} {E' : σ → τ → Prop} (h : pairs x y Q E s t)
    (hQ : ∀ a s b t, Q a s b t → Q' a s b t) (hE : ∀ s t, E s t → E' s t) :
    pairs x y Q' E' s t := by
  unfold pairs at h ⊢
  generalize x s = o, y t = o' at h ⊢
  cases h with
  | val h => exact .val (hQ _ _ _ _ h)
  | ret h => exact .ret (hE _ _ h)
  | fault => exact .fault

/-- Two programs that end alike, and then two that go on alike from there. -/
theorem pairs_bind {f : α → Prog φ σ ε α'} {g : β → Prog φ τ ε β'}
    {Q' : α' → σ → β' → τ → Prop} (h : pairs x y Q E s t)
    (hf : ∀ a s b t, Q a s b t → pairs (f a) (g b) Q' E s t) :
    pairs (x >>= f) (y >>= g) Q' E s t := by
  change EndAlike Q' E (bind x f s) (bind y g t)
  unfold pairs at h
  rw [bind, bind]
  generalize x s = o, y t = o' at h ⊢
  cases h with
  | val h => exact hf _ _ _ _ h
  | ret h => exact .ret h
  | fault => exact .fault

/-- Both states are read. -/
theorem pairs_get {f : σ → Prog φ σ ε α} {g : τ → Prog φ τ ε β}
    (h : pairs (f s) (g t) Q E s t) : pairs (get >>= f) (get >>= g) Q E s t := h

/-- Both states are changed. -/
theorem pairs_modify {f : σ → σ} {g : τ → τ} {Q : Unit → σ → Unit → τ → Prop}
    (h : Q () (f s) () (g t)) :
    pairs (modify f : Prog φ σ ε Unit) (modify g : Prog φ τ ε Unit) Q E s t := .val h

/-- A computation without state is done twice. -/
theorem pairs_lift {z : Except φ α} {Q : α → σ → α → τ → Prop} (h : ∀ a, z = .ok a → Q a s a t) :
    pairs (lift z : Prog φ σ ε α) (lift z : Prog φ τ ε α) Q E s t := by
  cases z with
  | ok a => exact .val (h a rfl)
  | error f => exact pairs_fault

/-- A test that turns out the same way. -/
theorem pairs_ite {c c' : Prop} [Decidable c] [Decidable c'] {x' : Prog φ σ ε α}
    {y' : Prog φ τ ε β} (hc : c ↔ c') (hx : c → pairs x y Q E s t)
    (hx' : ¬c → pairs x' y' Q E s t) :
    pairs (if c then x else x') (if c' then y else y') Q E s t := by
  by_cases h : c
  · rw [if_pos h, if_pos (hc.1 h)]
    exact hx h
  · rw [if_neg h, if_neg fun h' => h (hc.2 h')]
    exact hx' h

/-- What each of the programs does for itself. -/
theorem pairs_and {P : α → σ → Prop} {R : ε → σ → Prop} {P' : β → τ → Prop} {R' : ε → τ → Prop}
    (h : pairs x y Q E s t) (hx : wp x P R s) (hy : wp y P' R' t) :
    pairs x y (fun a s b t => Q a s b t ∧ P a s ∧ P' b t) E s t := by
  unfold pairs at h ⊢
  unfold wp at hx hy
  generalize x s = o, y t = o' at h hx hy ⊢
  cases h with
  | val h => exact .val ⟨h, hx, hy⟩
  | ret h => exact .ret h
  | fault => exact .fault

end Prog

end MongrelDB
