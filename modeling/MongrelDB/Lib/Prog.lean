import Mathlib.Init

/-!
# Programs with early returns

A program on states `σ` that may return early, as a function of C does, or
fault: it ends with a value, with a returned code, or with a fault
(`Outcome`). In each case but the last there is a state: what a function has
written before it returned is there.

`wp x Q R s` says that `x`, started in `s`, does not fault, ends normally only as
`Q` says, and returns early only as `R` says. The rules below are equivalences,
one for each way to build a program, so that a program is taken apart by
rewriting with them.
-/

namespace MongrelDB

/-- How a program ends. -/
inductive Outcome (φ σ ε α : Type) where
  | val (a : α) (s : σ)
  | ret (e : ε) (s : σ)
  | fault (f : φ)

/-- A program on states `σ` that may return a code `ε` early. -/
def Prog (φ σ ε α : Type) : Type := σ → Outcome φ σ ε α

namespace Prog

variable {φ σ ε α β : Type}

/-- One program after another. -/
def bind (x : Prog φ σ ε α) (f : α → Prog φ σ ε β) : Prog φ σ ε β := fun s =>
  match x s with
  | .val a s => f a s
  | .ret e s => .ret e s
  | .fault f => .fault f

instance : Monad (Prog φ σ ε) where
  pure a := fun s => .val a s
  bind := bind

/-- The state. -/
def get : Prog φ σ ε σ := fun s => .val s s

/-- A change of the state. -/
def modify (f : σ → σ) : Prog φ σ ε Unit := fun s => .val () (f s)

/-- An early return. -/
def ret (e : ε) : Prog φ σ ε α := fun s => .ret e s

/-- A fault. -/
def fault (f : φ) : Prog φ σ ε α := fun _ => .fault f

/-- A computation without state. -/
def lift (x : Except φ α) : Prog φ σ ε α := fun s =>
  match x with
  | .ok a => .val a s
  | .error f => .fault f

/-- The code a program ends with, which is `ok` if it does not return one, and the
    state it leaves. -/
def ends (ok : ε) (x : Prog φ σ ε α) (s : σ) : Option (ε × σ) :=
  match x s with
  | .val _ s => some (ok, s)
  | .ret e s => some (e, s)
  | .fault _ => none

/-! ## Weakest preconditions -/

/-- From `s`, the program does not fault; it ends with `Q`, or returns with `R`. -/
def wp (x : Prog φ σ ε α) (Q : α → σ → Prop) (R : ε → σ → Prop) (s : σ) : Prop :=
  match x s with
  | .val a s => Q a s
  | .ret e s => R e s
  | .fault _ => False

variable {Q : α → σ → Prop} {R : ε → σ → Prop} {s : σ}

@[simp] theorem wp_pure {a : α} : wp (pure a : Prog φ σ ε α) Q R s ↔ Q a s := Iff.rfl

@[simp] theorem wp_bind {x : Prog φ σ ε β} {f : β → Prog φ σ ε α} :
    wp (x >>= f) Q R s ↔ wp x (fun b s => wp (f b) Q R s) R s := by
  change wp (bind x f) Q R s ↔ _
  unfold wp bind
  cases x s <;> rfl

@[simp] theorem wp_get {Q : σ → σ → Prop} : wp (get : Prog φ σ ε σ) Q R s ↔ Q s s := Iff.rfl

@[simp] theorem wp_modify {f : σ → σ} {Q : Unit → σ → Prop} :
    wp (modify f : Prog φ σ ε Unit) Q R s ↔ Q () (f s) := Iff.rfl

@[simp] theorem wp_ret {e : ε} : wp (ret e : Prog φ σ ε α) Q R s ↔ R e s := Iff.rfl

@[simp] theorem wp_lift_ok {a : α} : wp (lift (.ok a) : Prog φ σ ε α) Q R s ↔ Q a s := Iff.rfl

theorem wp_ite {c : Prop} [Decidable c] {x y : Prog φ σ ε α} :
    wp (if c then x else y) Q R s ↔ (c → wp x Q R s) ∧ (¬c → wp y Q R s) := by
  by_cases h : c <;> simp [h]

/-- A computation without state, by its result. -/
theorem wp_lift {x : Except φ α} {a : α} (hx : x = .ok a) (h : Q a s) :
    wp (lift x : Prog φ σ ε α) Q R s :=
  hx ▸ h

/-- Consequence. -/
theorem wp_mono {x : Prog φ σ ε α} {Q' : α → σ → Prop} {R' : ε → σ → Prop} (h : wp x Q R s)
    (hQ : ∀ a s, Q a s → Q' a s) (hR : ∀ e s, R e s → R' e s) : wp x Q' R' s := by
  rw [wp] at h ⊢
  cases hx : x s with
  | val a s' => rw [hx] at h; exact hQ a s' h
  | ret e s' => rw [hx] at h; exact hR e s' h
  | fault f => rw [hx] at h; exact h.elim

/-- A program that ends with `Q₁`, and then one that goes on from there. -/
theorem wp_seq {x : Prog φ σ ε β} {f : β → Prog φ σ ε α} {Q₁ : β → σ → Prop} (h : wp x Q₁ R s)
    (hf : ∀ b s', Q₁ b s' → wp (f b) Q R s') : wp (x >>= f) Q R s :=
  wp_bind.2 (wp_mono h hf fun _ _ h => h)

/-- A program without early returns, and then one that goes on. -/
theorem wp_step {x : Prog φ σ ε β} {f : β → Prog φ σ ε α} {Q₁ : β → σ → Prop}
    (h : wp x Q₁ (fun _ _ => False) s) (hf : ∀ b s', Q₁ b s' → wp (f b) Q R s') :
    wp (x >>= f) Q R s :=
  wp_bind.2 (wp_mono h hf fun _ _ h => h.elim)

/-- A program without early returns that does not fault has a result. -/
theorem exists_val_of_wp {x : Prog φ σ ε α} (h : wp x Q (fun _ _ => False) s) :
    ∃ a s', x s = .val a s' ∧ Q a s' := by
  rw [wp] at h
  cases hx : x s with
  | val a s' => exact ⟨a, s', rfl, by rwa [hx] at h⟩
  | ret e s' => rw [hx] at h; exact h.elim
  | fault f => rw [hx] at h; exact h.elim

/-- How a program ends, from what is known of both ways. -/
theorem ends_of_wp {x : Prog φ σ ε α} {ok : ε} {P : ε → σ → Prop}
    (h : wp x (fun _ => P ok) P s) : ∃ e s', ends ok x s = some (e, s') ∧ P e s' := by
  rw [wp] at h
  cases hx : x s with
  | val a s' => exact ⟨ok, s', by rw [ends, hx], by rwa [hx] at h⟩
  | ret e s' => exact ⟨e, s', by rw [ends, hx], by rwa [hx] at h⟩
  | fault f => rw [hx] at h; exact h.elim

/-- What holds in both ways holds of the end. -/
theorem of_ends {x : Prog φ σ ε α} {ok e : ε} {s' : σ} {P : ε → σ → Prop}
    (hx : ends ok x s = some (e, s')) (h : wp x (fun _ => P ok) P s) : P e s' := by
  obtain ⟨e', s'', hx', hP⟩ := ends_of_wp h
  obtain ⟨rfl, rfl⟩ := Prod.mk.inj (Option.some.inj (hx.symm.trans hx'))
  exact hP

/-- Two facts about one run. -/
theorem wp_and {x : Prog φ σ ε α} {Q' : α → σ → Prop} {R' : ε → σ → Prop} (h : wp x Q R s)
    (h' : wp x Q' R' s) : wp x (fun a s => Q a s ∧ Q' a s) (fun e s => R e s ∧ R' e s) s := by
  rw [wp] at h h' ⊢
  cases hx : x s with
  | val a s' => rw [hx] at h h'; exact ⟨h, h'⟩
  | ret e s' => rw [hx] at h h'; exact ⟨h, h'⟩
  | fault f => rw [hx] at h; exact h.elim

/-- A program ends in some way. -/
theorem not_wp_false {x : Prog φ σ ε α} : ¬wp x (fun _ _ => False) (fun _ _ => False) s := by
  rw [wp]
  cases x s <;> exact id

/-- An early return is one of the first program, or comes after it. -/
theorem wp_bind_ret {x : Prog φ σ ε β} {f : β → Prog φ σ ε α} {Q₁ : β → σ → Prop}
    {R₁ : ε → σ → Prop} (h₁ : wp x Q₁ R₁ s) (h : wp (x >>= f) Q R s) :
    wp (x >>= f) Q (fun e s' => R₁ e s' ∨ ∃ b s₁, Q₁ b s₁) s := by
  rw [wp_bind] at h ⊢
  refine wp_mono (wp_and h₁ h) (fun b s₁ hpost => ?_) fun e s' h' => .inl h'.1
  obtain ⟨hb, hf⟩ := hpost
  exact wp_mono hf (fun _ _ h => h) fun _ _ _ => .inr ⟨b, s₁, hb⟩

end Prog

end MongrelDB
