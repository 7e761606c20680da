import Mathlib.Init

/-!
# Runs of a machine

A machine takes a step for each label of a program, or stops at one (`run`). What a
run keeps, and what it is an image of, follows from its steps:

* `run_keeps`: what every step keeps holds at the end;
* `run_simulates`: if every step is one of an abstract machine, which never stops, the
  run is the one of the abstract machine;
* `run_refines`: moreover, the run does not stop, if no step does.

The steps are those of the labels of the program only, so that a hypothesis on the
program may be used.
-/

namespace MongrelDB

variable {σ τ ι : Type}

/-- The state a program ends in, if no step stops. -/
def run (next : ι → σ → Option σ) : List ι → σ → Option σ
  | [], s => some s
  | a :: as, s => (next a s).bind (run next as)

/-- The state an abstract machine ends in. -/
def runAll (next : ι → τ → τ) : List ι → τ → τ
  | [], t => t
  | a :: as, t => runAll next as (next a t)

variable {next : ι → σ → Option σ} {as : List ι} {s s' : σ}

theorem run_cons {a : ι} (h : run next (a :: as) s = some s') :
    ∃ s₁, next a s = some s₁ ∧ run next as s₁ = some s' :=
  Option.bind_eq_some_iff.1 h

section

variable {R : σ → τ → Prop} {f : ι → τ → τ} {t : τ}

/-- A run whose steps are those of an abstract machine is the one of that machine. -/
theorem run_simulates
    (hstep : ∀ a ∈ as, ∀ s t s', R s t → next a s = some s' → R s' (f a t)) (hs : R s t)
    (hrun : run next as s = some s') : R s' (runAll f as t) := by
  induction as generalizing s t with
  | nil => exact Option.some.inj hrun ▸ hs
  | cons a as ih =>
    obtain ⟨s₁, hnext, hrest⟩ := run_cons hrun
    have h₁ := hstep a List.mem_cons_self s t s₁ hs hnext
    exact ih (fun b hb => hstep b (List.mem_cons_of_mem a hb)) h₁ hrest

/-- A run goes through, as the one of an abstract machine, if every step does. -/
theorem run_refines
    (hstep : ∀ a ∈ as, ∀ s t, R s t → ∃ s', next a s = some s' ∧ R s' (f a t)) (hs : R s t) :
    ∃ s', run next as s = some s' ∧ R s' (runAll f as t) := by
  induction as generalizing s t with
  | nil => exact ⟨s, rfl, hs⟩
  | cons a as ih =>
    obtain ⟨s₁, hnext, h₁⟩ := hstep a List.mem_cons_self s t hs
    obtain ⟨s', hrest, h'⟩ := ih (fun b hb => hstep b (List.mem_cons_of_mem a hb)) h₁
    exact ⟨s', by rw [run, hnext, Option.bind_some, hrest], h'⟩

end

/-- What every step keeps holds at the end of a run. -/
theorem run_keeps {I : σ → Prop} (hstep : ∀ a ∈ as, ∀ s s', I s → next a s = some s' → I s')
    (hs : I s) (hrun : run next as s = some s') : I s' :=
  run_simulates (R := fun s (_ : Unit) => I s) (f := fun _ t => t) (t := ())
    (fun a ha s _ s' => hstep a ha s s') hs hrun

end MongrelDB
