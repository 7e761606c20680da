import Mathlib.Tactic.Linarith

/-!
# Doubling

A capacity that grows, from request to request, to at least twice what it was, and to at
least a least size (`Doubling`). The requests of any such history are few and small: twice
the last capacity bounds the sum of them all (`Doubling.sum_le`), and their number is at
most logarithmic in it (`Doubling.pow_le`).
-/

namespace MongrelDB

/-- From the capacity `c`, these requests, the last one first, have led to the capacity `d`. -/
inductive Doubling (least c : Nat) : List Nat → Nat → Prop
  | nil : Doubling least c [] c
  | cons {ns : List Nat} {d e : Nat} : Doubling least c ns d → least ≤ e → 2 * d ≤ e →
      Doubling least c (e :: ns) e

namespace Doubling

variable {least c d e : Nat} {ns ms : List Nat}

theorem trans (h : Doubling least c ns d) (h' : Doubling least d ms e) :
    Doubling least c (ms ++ ns) e := by
  induction h' with
  | nil => exact h
  | cons _ hleast hdouble ih => exact ih.cons hleast hdouble

/-- Behind a request, there is at least the least size. -/
theorem least_le (h : Doubling least c ns d) (hne : ns ≠ []) : least ≤ d := by
  cases h with
  | nil => exact absurd rfl hne
  | cons _ hleast _ => exact hleast

/-- The requests together are at most twice the last capacity, less twice the first one. -/
theorem sum_le (h : Doubling least c ns d) : ns.sum + 2 * c ≤ 2 * d := by
  induction h with
  | nil => rw [List.sum_nil, Nat.zero_add]
  | cons _ _ hdouble ih =>
    rw [List.sum_cons]
    omega

/-- The number of requests is at most logarithmic in the last capacity. -/
theorem pow_le (h : Doubling least c ns d) : least * 2 ^ ns.length ≤ 2 * max least d := by
  induction h with
  | nil => exact (Nat.mul_one _).le.trans (by omega)
  | @cons ns d e h hleast hdouble ih =>
    rw [List.length_cons, pow_succ, ← Nat.mul_assoc, max_eq_right hleast]
    rcases ns with _ | ⟨n, ns⟩
    · rw [List.length_nil, pow_zero]
      omega
    · rw [max_eq_right (h.least_le (List.cons_ne_nil _ _))] at ih
      omega

end Doubling

end MongrelDB
