import MongrelDB.Lib.Prog

/-!
# Programs, point by point

What holds whenever a loop begins an iteration, or before a write inside it, is
not seen in how a program ends. For this a program is cut at points of its
control: from a point, a run takes a *step* to the next one, or to its end.

* `Follows`: what is left of the program at a point is what the step does, and
  then what is left at the next point. So the points *reached* from one on are
  those the run of the program passes (`Reaches.left_eq`).
* `post`: what a program does if it does not fault. The rules are those of `wp`.
* `Reaches.keeps`: what every step keeps holds at every point that is reached.
-/

namespace MongrelDB

namespace Prog

variable {φ σ ε α β γ : Type}

/-! ## Laws -/

theorem then_assoc (x : Prog φ σ ε α) (f : α → Prog φ σ ε β) (g : β → Prog φ σ ε γ) :
    x >>= f >>= g = x >>= fun a => f a >>= g := by
  funext s
  change bind (bind x f) g s = bind x (fun a => bind (f a) g) s
  unfold bind
  cases x s <;> rfl

theorem pure_then (a : α) (f : α → Prog φ σ ε β) : pure a >>= f = f a := rfl

theorem then_pure (x : Prog φ σ ε α) : x >>= pure = x := by
  funext s
  change bind x pure s = x s
  rw [bind]
  cases x s <;> rfl

theorem ret_then (e : ε) (f : α → Prog φ σ ε β) : ret e >>= f = ret e := rfl

theorem ite_then {c : Prop} [Decidable c] (x y : Prog φ σ ε α) (f : α → Prog φ σ ε β) :
    (if c then x else y) >>= f = if c then x >>= f else y >>= f := by
  by_cases h : c
  · rw [if_pos h, if_pos h]
  · rw [if_neg h, if_neg h]

/-! ## Partial correctness -/

/-- From `s`, the program ends with `Q`, or returns with `R`, or faults. -/
def post (x : Prog φ σ ε α) (Q : α → σ → Prop) (R : ε → σ → Prop) (s : σ) : Prop :=
  match x s with
  | .val a s => Q a s
  | .ret e s => R e s
  | .fault _ => True

variable {Q : α → σ → Prop} {R : ε → σ → Prop} {s : σ}

@[simp] theorem post_pure {a : α} : post (pure a : Prog φ σ ε α) Q R s ↔ Q a s := Iff.rfl

@[simp] theorem post_bind {x : Prog φ σ ε β} {f : β → Prog φ σ ε α} :
    post (x >>= f) Q R s ↔ post x (fun b s => post (f b) Q R s) R s := by
  change post (bind x f) Q R s ↔ _
  unfold post bind
  cases x s <;> rfl

@[simp] theorem post_get {Q : σ → σ → Prop} : post (get : Prog φ σ ε σ) Q R s ↔ Q s s := Iff.rfl

@[simp] theorem post_modify {f : σ → σ} {Q : Unit → σ → Prop} :
    post (modify f : Prog φ σ ε Unit) Q R s ↔ Q () (f s) := Iff.rfl

@[simp] theorem post_ret {e : ε} : post (ret e : Prog φ σ ε α) Q R s ↔ R e s := Iff.rfl

@[simp] theorem post_fault {e : φ} : post (fault e : Prog φ σ ε α) Q R s ↔ True := Iff.rfl

theorem post_lift {x : Except φ α} :
    post (lift x : Prog φ σ ε α) Q R s ↔ ∀ a, x = .ok a → Q a s := by
  cases x with
  | ok a => exact ⟨fun h _ ha => Except.ok.inj ha ▸ h, fun h => h a rfl⟩
  | error e => exact ⟨fun _ _ ha => (by cases ha), fun _ => trivial⟩

theorem post_ite {c : Prop} [Decidable c] {x y : Prog φ σ ε α} :
    post (if c then x else y) Q R s ↔ (c → post x Q R s) ∧ (¬c → post y Q R s) := by
  by_cases h : c <;> simp [h]

theorem post_true {x : Prog φ σ ε α} : post x (fun _ _ => True) (fun _ _ => True) s := by
  rw [post]
  cases x s <;> trivial

/-- Consequence. -/
theorem post_mono {x : Prog φ σ ε α} {Q' : α → σ → Prop} {R' : ε → σ → Prop} (h : post x Q R s)
    (hQ : ∀ a s, Q a s → Q' a s) (hR : ∀ e s, R e s → R' e s) : post x Q' R' s := by
  rw [post] at h ⊢
  cases hx : x s with
  | val a s' => rw [hx] at h; exact hQ a s' h
  | ret e s' => rw [hx] at h; exact hR e s' h
  | fault f => trivial

/-- What a program does is what it does if it does not fault. -/
theorem post_of_wp {x : Prog φ σ ε α} (h : wp x Q R s) : post x Q R s := by
  rw [wp] at h
  rw [post]
  cases hx : x s with
  | val a s' => rwa [hx] at h
  | ret e s' => rwa [hx] at h
  | fault f => trivial

/-- What programs do that end in the same way. -/
theorem post_congr {x y : Prog φ σ ε α} {t : σ} (h : x s = y t) : post x Q R s ↔ post y Q R t := by
  rw [post, post, h]

/-- A program that does not fault does what it does if it does not fault. -/
theorem wp_of_post {x : Prog φ σ ε α} (h : post x Q R s) (hx : ∀ f, x s ≠ .fault f) :
    wp x Q R s := by
  rw [post] at h
  rw [wp]
  cases hrun : x s with
  | val a s' => rwa [hrun] at h
  | ret e s' => rwa [hrun] at h
  | fault f => exact hx f hrun

/-- If a fact decides what holds at the end, in each way, it decides what holds there. -/
theorem post_iff_of_wp {x : Prog φ σ ε α} {p : Prop}
    (h : wp x (fun a s' => Q a s' ↔ p) (fun e s' => R e s' ↔ p) s) : post x Q R s ↔ p := by
  rw [wp] at h
  rw [post]
  cases hx : x s with
  | val a s' => rwa [hx] at h
  | ret e s' => rwa [hx] at h
  | fault f => rw [hx] at h; exact h.elim

/-- What holds in both ways, by how a program ends. -/
theorem post_ends {x : Prog φ σ ε α} {ok : ε} {P : ε → σ → Prop} :
    post x (fun _ => P ok) P s ↔ ∀ e s', ends ok x s = some (e, s') → P e s' := by
  have hsome : ∀ e s', (∀ e' s'', some (e, s') = some (e', s'') → P e' s'') ↔ P e s' := fun e s' =>
    ⟨fun h => h e s' rfl, fun h e' s'' he => by
      obtain ⟨rfl, rfl⟩ := Prod.mk.inj (Option.some.inj he)
      exact h⟩
  rw [post, ends]
  cases x s with
  | val a s' => exact (hsome ok s').symm
  | ret e s' => exact (hsome e s').symm
  | fault f => exact ⟨fun _ _ _ he => absurd he.symm (Option.some_ne_none _), fun _ => trivial⟩

/-- A program whose first part faults, faults. -/
theorem fault_of_bind {x : Prog φ σ ε α} {f : α → Prog φ σ ε β} {e : φ} (h : x s = .fault e) :
    (x >>= f) s = .fault e := by
  change bind x f s = _
  rw [bind, h]

theorem bind_of_val {x : Prog φ σ ε α} {f : α → Prog φ σ ε β} {a : α} {s' : σ}
    (h : x s = .val a s') : (x >>= f) s = f a s' := by
  change bind x f s = _
  rw [bind, h]

/-! ## Points -/

section Points

variable {π ω : Type} {step : π → Prog φ σ ε (π ⊕ ω)} {left : π → Prog φ σ ε ω} {p q : π} {t : σ}

/-- The points a run passes, and the states it passes them in. -/
inductive Reaches (step : π → Prog φ σ ε (π ⊕ ω)) (p : π) (s : σ) : π → σ → Prop
  | here : Reaches step p s p s
  | next {q q' : π} {t t' : σ} : Reaches step p s q t → step q t = .val (.inl q') t' →
      Reaches step p s q' t'

/-- The point a run passes after `n` steps, and the state it passes it in. -/
def passes (step : π → Prog φ σ ε (π ⊕ ω)) : Nat → π → σ → Option (π × σ)
  | 0, p, s => some (p, s)
  | n + 1, p, s =>
    match step p s with
    | .val (.inl q) t => passes step n q t
    | _ => none

/-- What is left of a program at a point is a step, and what is left behind it. -/
def Follows (step : π → Prog φ σ ε (π ⊕ ω)) (left : π → Prog φ σ ε ω) : Prop :=
  ∀ p, left p = step p >>= Sum.elim left pure

theorem Reaches.trans {r : π} {u : σ} (h : Reaches step p s q t) (h' : Reaches step q t r u) :
    Reaches step p s r u := by
  induction h' with
  | here => exact h
  | next _ hstep ih => exact ih.next hstep

theorem reaches_of_passes {n : Nat} (h : passes step n p s = some (q, t)) :
    Reaches step p s q t := by
  induction n generalizing p s with
  | zero =>
    obtain ⟨rfl, rfl⟩ := Prod.mk.inj (Option.some.inj h)
    exact .here
  | succ n ih =>
    rw [passes] at h
    split at h
    · exact (Reaches.here.next ‹_›).trans (ih h)
    · cases h

/-- A run goes on at every point that is reached. -/
theorem Reaches.left_eq (hf : Follows step left) (h : Reaches step p s q t) :
    left p s = left q t := by
  induction h with
  | here => rfl
  | next _ hstep ih => rw [ih, hf, bind_of_val hstep, Sum.elim_inl]

/-- What every step keeps, given what holds at every point that is reached, holds at
    every point that is reached. -/
theorem Reaches.keeps_with {J I : π → σ → Prop} {D : ω → σ → Prop}
    (hJ : ∀ q t, Reaches step p s q t → J q t)
    (hstep : ∀ q t, J q t → I q t → post (step q) (Sum.elim I D) R t) (hp : I p s)
    (h : Reaches step p s q t) : I q t := by
  induction h with
  | here => exact hp
  | next h hrun ih =>
    have hpost := hstep _ _ (hJ _ _ h) ih
    rw [post] at hpost
    rwa [hrun] at hpost

/-- What every step keeps holds at every point that is reached. -/
theorem Reaches.keeps {I : π → σ → Prop} {D : ω → σ → Prop}
    (hstep : ∀ p s, I p s → post (step p) (Sum.elim I D) R s) (hp : I p s)
    (h : Reaches step p s q t) : I q t :=
  h.keeps_with (J := fun _ _ => True) (fun _ _ _ => trivial) (fun q t _ => hstep q t) hp

end Points

end Prog

end MongrelDB
