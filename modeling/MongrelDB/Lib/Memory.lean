import Mathlib.Data.Finset.Basic
import Mathlib.Data.Finset.Lattice.Lemmas
import Mathlib.Data.List.ReduceOption
import MongrelDB.Lib.Prog

/-!
# Blocks of memory

Programs that allocate and free. A block has a name of its own, and is live until it is
freed; a pointer is the name of a block, or NULL. To free a block that is not live is a
fault, so that a program that ends has freed nothing twice.

`Memory.Holds` says which blocks a program has allocated, and not freed. The rules for it
are those of a program that owns these blocks: what it allocates is another one
(`wp_malloc`), and it may free each of them once (`wp_freeAll`).
-/

namespace MongrelDB

open Prog

/-- The memory: which allocations are granted, how many were asked for, and the blocks that
    are live. A block has the number of its allocation. -/
structure Memory where
  grants : Nat → Bool
  asked : Nat
  live : Finset Nat
  lt_asked : ∀ p ∈ live, p < asked

/-- A block is freed that is not live. -/
inductive BadFree where
  | dead

/-- A program that allocates and frees. -/
abbrev OnMemory (α : Type) := Prog BadFree Memory Empty α

namespace Memory

/-- The memory behind a refused allocation. -/
def refuse (m : Memory) : Memory where
  grants := m.grants
  asked := m.asked + 1
  live := m.live
  lt_asked p hp := Nat.lt_succ_of_lt (m.lt_asked p hp)

/-- The memory behind a granted allocation. -/
def alloc (m : Memory) : Memory where
  grants := m.grants
  asked := m.asked + 1
  live := insert m.asked m.live
  lt_asked p hp := by
    rcases Finset.mem_insert.1 hp with rfl | hp
    · exact Nat.lt_succ_self _
    · exact Nat.lt_succ_of_lt (m.lt_asked p hp)

/-- The memory without a block. -/
def drop (m : Memory) (p : Nat) : Memory where
  grants := m.grants
  asked := m.asked
  live := m.live.erase p
  lt_asked q hq := m.lt_asked q (Finset.mem_of_mem_erase hq)

end Memory

/-- `malloc` -/
def malloc : OnMemory (Option Nat) := fun m =>
  if m.grants m.asked then .val (some m.asked) m.alloc else .val none m.refuse

/-- `free` -/
def free : Option Nat → OnMemory Unit
  | none => pure ()
  | some p => fun m => if p ∈ m.live then .val () (m.drop p) else .fault .dead

/-- These pointers are freed, one after the other. -/
def freeAll : List (Option Nat) → OnMemory Unit
  | [] => pure ()
  | p :: ps => do
    free p
    freeAll ps

/-- From `m₀` to `m`, this many allocations were asked for, and these are the blocks that are
    allocated, and not freed. -/
structure Memory.Holds (m₀ m : Memory) (k : Nat) (ps : List Nat) : Prop where
  grants : m.grants = m₀.grants
  asked : m.asked = m₀.asked + k
  live : m.live = m₀.live ∪ ps.toFinset
  nodup : ps.Nodup
  fresh : ∀ p ∈ ps, m₀.asked ≤ p

namespace Memory.Holds

variable {m₀ m : Memory} {k : Nat} {ps qs : List Nat}

theorem refl (m : Memory) : m.Holds m 0 [] :=
  ⟨rfl, rfl, (Finset.union_empty _).symm, List.nodup_nil, fun _ h => absurd h List.not_mem_nil⟩

theorem perm (h : m₀.Holds m k ps) (hperm : ps.Perm qs) : m₀.Holds m k qs :=
  ⟨h.grants, h.asked, by rw [h.live, List.toFinset_eq_of_perm _ _ hperm], hperm.nodup h.nodup,
    fun p hp => h.fresh p (hperm.mem_iff.2 hp)⟩

/-- A block that is held is one that was not live before. -/
theorem notMem (h : m₀.Holds m k ps) {p : Nat} (hp : p ∈ ps) : p ∉ m₀.live := fun hlive =>
  absurd (m₀.lt_asked p hlive) (Nat.not_lt.2 (h.fresh p hp))

theorem refuse (h : m₀.Holds m k ps) : m₀.Holds m.refuse (k + 1) ps :=
  ⟨h.grants, congrArg (· + 1) h.asked, h.live, h.nodup, h.fresh⟩

theorem alloc (h : m₀.Holds m k ps) : m₀.Holds m.alloc (k + 1) (m.asked :: ps) where
  grants := h.grants
  asked := congrArg (· + 1) h.asked
  live := by
    rw [List.toFinset_cons, Finset.union_insert, ← h.live]
    rfl
  nodup := by
    refine List.nodup_cons.2 ⟨fun hp => ?_, h.nodup⟩
    have hlive : m.asked ∈ m.live := by
      rw [h.live]
      exact Finset.mem_union_right _ (List.mem_toFinset.2 hp)
    exact absurd (m.lt_asked _ hlive) (Nat.lt_irrefl _)
  fresh p hp := by
    rcases List.mem_cons.1 hp with rfl | hp
    · rw [h.asked]
      exact Nat.le_add_right _ _
    · exact h.fresh p hp

theorem drop {p : Nat} (h : m₀.Holds m k (p :: ps)) : m₀.Holds (m.drop p) k ps where
  grants := h.grants
  asked := h.asked
  live := by
    have hp : p ∉ m₀.live ∪ ps.toFinset := by
      rw [Finset.mem_union, List.mem_toFinset]
      exact not_or.2 ⟨h.notMem List.mem_cons_self, (List.nodup_cons.1 h.nodup).1⟩
    change m.live.erase p = _
    rw [h.live, List.toFinset_cons, Finset.union_insert, Finset.erase_insert hp]
  nodup := (List.nodup_cons.1 h.nodup).2
  fresh q hq := h.fresh q (List.mem_cons_of_mem p hq)

/-- If no block is held, the live ones are those of before, and conversely. -/
theorem live_eq_iff (h : m₀.Holds m k ps) : m.live = m₀.live ↔ ps = [] := by
  refine ⟨fun heq => List.eq_nil_iff_forall_not_mem.2 fun p hp => h.notMem hp ?_, ?_⟩
  · rw [← heq, h.live]
    exact Finset.mem_union_right _ (List.mem_toFinset.2 hp)
  · rintro rfl
    exact h.live.trans (Finset.union_empty _)

end Memory.Holds

section

variable {m₀ m : Memory} {k : Nat} {ps : List Nat}

/-- An allocation is granted, and its block is held, or it is refused. -/
theorem wp_malloc {Q : Option Nat → Memory → Prop} {R : Empty → Memory → Prop}
    (h : m₀.Holds m k ps)
    (hgranted : m₀.grants (m₀.asked + k) = true →
      ∀ m', m₀.Holds m' (k + 1) ((m₀.asked + k) :: ps) → Q (some (m₀.asked + k)) m')
    (hrefused : m₀.grants (m₀.asked + k) = false → ∀ m', m₀.Holds m' (k + 1) ps → Q none m') :
    wp malloc Q R m := by
  have hgrants : m.grants m.asked = m₀.grants (m₀.asked + k) := by rw [h.grants, h.asked]
  have halloc := h.alloc
  rw [h.asked] at halloc
  rw [wp, malloc, hgrants, h.asked]
  cases hg : m₀.grants (m₀.asked + k) with
  | true => exact hgranted hg _ halloc
  | false => exact hrefused hg _ h.refuse

/-- Blocks that are held are freed. -/
theorem wp_freeAll {pointers : List (Option Nat)} {Q : Unit → Memory → Prop}
    {R : Empty → Memory → Prop} (h : m₀.Holds m k (pointers.reduceOption ++ ps))
    (hfreed : ∀ m', m₀.Holds m' k ps → Q () m') : wp (freeAll pointers) Q R m := by
  induction pointers generalizing m with
  | nil => exact hfreed m h
  | cons p pointers ih =>
    refine wp_bind.2 ?_
    cases p with
    | none => exact ih h
    | some p =>
      have hlive : p ∈ m.live := by
        rw [h.live]
        exact Finset.mem_union_right _ (List.mem_toFinset.2 List.mem_cons_self)
      have hfree : free (some p) m = .val () (m.drop p) := if_pos hlive
      rw [wp, hfree]
      exact ih h.drop

end

end MongrelDB
