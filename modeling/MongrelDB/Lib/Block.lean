import Mathlib.Data.List.Forall2

/-!
# Allocations

An allocation of an array (`Block`): its slots, of which those that were never
written hold nothing. A slot that does not exist, or holds nothing, cannot be
read, and one that does not exist cannot be written. Growing an allocation keeps
what its slots hold.

An array is used from its beginning on: `Holds` says what its first slots hold.
What it holds is read back slot by slot (`read?`).
-/

namespace MongrelDB

/-- The slots of an allocation. -/
abbrev Block (α : Type) := List (Option α)

namespace Block

variable {α : Type}

/-- What a slot holds. -/
def get? (b : Block α) (i : Nat) : Option α := b[i]?.join

/-- A slot is written. -/
def set? (b : Block α) (i : Nat) (a : α) : Option (Block α) :=
  if i < b.length then some (b.set i (some a)) else none

/-- The allocation is moved to one of `n` slots. -/
def realloc (b : Block α) (n : Nat) : Block α := b.take n ++ List.replicate (n - b.length) none

/-- The first slots hold `xs`. -/
def Holds (b : Block α) (xs : List α) : Prop := xs.map some <+: b

variable {b : Block α} {xs : List α}

theorem holds_nil (b : Block α) : b.Holds [] := List.nil_prefix

theorem Holds.length_le (h : b.Holds xs) : xs.length ≤ b.length := by
  simpa using List.IsPrefix.length_le h

theorem Holds.get? (h : b.Holds xs) {i : Nat} (hi : i < xs.length) : b.get? i = some xs[i] := by
  obtain ⟨r, rfl⟩ := h
  simp [Block.get?, List.getElem?_append_left, hi]

/-- The slot behind what an allocation holds is written. -/
theorem Holds.push (h : b.Holds xs) (hlt : xs.length < b.length) (a : α) :
    ∃ b', b.set? xs.length a = some b' ∧ b'.Holds (xs ++ [a]) ∧ b'.length = b.length := by
  refine ⟨b.set xs.length (some a), by rw [set?, if_pos hlt], ?_, List.length_set⟩
  obtain ⟨r, rfl⟩ := h
  cases r with
  | nil => simp at hlt
  | cons o r =>
    refine ⟨r, ?_⟩
    rw [List.set_append_right _ _ (by simp)]
    simp

/-- The last slot of what an allocation holds is written again. -/
theorem Holds.overwrite {a : α} (h : b.Holds (xs ++ [a])) (a' : α) :
    ∃ b', b.set? xs.length a' = some b' ∧ b'.Holds (xs ++ [a']) ∧ b'.length = b.length := by
  have hlt : xs.length < b.length := by
    have hle := h.length_le
    rw [List.length_append, List.length_singleton] at hle
    exact hle
  refine ⟨b.set xs.length (some a'), by rw [set?, if_pos hlt], ?_, List.length_set⟩
  obtain ⟨r, rfl⟩ := h
  refine ⟨r, ?_⟩
  rw [List.map_append, List.map_append, List.append_assoc, List.append_assoc,
    List.set_append_right _ _ (by simp)]
  simp

/-- A slot of what an allocation holds is written again. -/
theorem Holds.set (h : b.Holds xs) {i : Nat} (hi : i < xs.length) (a : α) :
    ∃ b', b.set? i a = some b' ∧ b'.Holds (xs.set i a) ∧ b'.length = b.length := by
  have hlt := Nat.lt_of_lt_of_le hi h.length_le
  refine ⟨b.set i (some a), by rw [set?, if_pos hlt], ?_, List.length_set⟩
  obtain ⟨r, rfl⟩ := h
  exact ⟨r, by rw [List.set_append_left _ _ (by simpa using hi), List.map_set]⟩

theorem length_realloc (b : Block α) (n : Nat) : (b.realloc n).length = n := by
  simp only [realloc, List.length_append, List.length_take, List.length_replicate]
  omega

/-- Growing an allocation keeps what it holds. -/
theorem Holds.realloc (h : b.Holds xs) {n : Nat} (hn : b.length ≤ n) :
    (b.realloc n).Holds xs := by
  rw [Block.realloc, List.take_of_length_le hn]
  exact List.IsPrefix.trans h (List.prefix_append _ _)

/-- What `n` slots from `start` on hold. -/
def read? (b : Block α) (start n : Nat) : Option (List α) := (List.range' start n).mapM b.get?

/-- A part of what an allocation holds is read back. -/
theorem Holds.read? {as bs : List α} (h : b.Holds (as ++ (xs ++ bs))) :
    b.read? as.length xs.length = some xs := by
  induction xs generalizing as with
  | nil => rfl
  | cons x xs ih =>
    have hx : b.get? as.length = some x := by
      rw [h.get? (by simp)]
      simp
    have hxs : b.read? (as ++ [x]).length xs.length = some xs := ih (by simpa using h)
    rw [Block.read?, List.length_cons, List.range'_succ, List.mapM_cons, hx, ← Block.read?]
    rw [List.length_append, List.length_singleton] at hxs
    rw [hxs]
    rfl

end Block

/-- A list is mapped if each of its elements is. -/
theorem mapM_eq_some_iff {α β : Type} {f : α → Option β} {xs : List α} {ys : List β} :
    xs.mapM f = some ys ↔ List.Forall₂ (fun x y => f x = some y) xs ys := by
  induction xs generalizing ys with
  | nil => simp [eq_comm]
  | cons x xs ih => cases ys with
    | nil => simp [List.mapM_cons, Option.bind_eq_some_iff]
    | cons y ys => simp [List.mapM_cons, ← ih, Option.bind_eq_some_iff]

end MongrelDB
