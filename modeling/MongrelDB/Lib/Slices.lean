import Mathlib.Algebra.BigOperators.Group.List.Basic
import Mathlib.Algebra.GroupWithZero.Nat
import MongrelDB.Lib.Bytes

/-!
# Slices and strings

An array cut into slices, one behind the other (`Slices`), and a buffer of
strings, each with its NUL and behind the one before it (`Strung`). Both are
filled from the front: a slice, or a string, is added at the end, and those that
are there stay as they are.
-/

namespace MongrelDB

/-! ## Slices -/

/-- The first `n` elements of an array are cut into slices, by where each starts
    and the number of its elements. -/
structure Slices (starts counts : List Nat) (n : Nat) : Prop where
  length : starts.length = counts.length
  /-- Each starts behind the elements of those before it. -/
  sums : ∀ (r : Nat) (hr : r < starts.length), starts[r] = (counts.take r).sum
  total : counts.sum = n
  inside : ∀ x ∈ starts.zip counts, x.1 + x.2 ≤ n
  /-- They are disjoint, and in order. -/
  inOrder : (starts.zip counts).Pairwise fun x y => x.1 + x.2 ≤ y.1
  /-- Each of the elements is in one. -/
  cover : ∀ i, i < n ↔ ∃ x ∈ starts.zip counts, x.1 ≤ i ∧ i < x.1 + x.2

theorem Slices.nil : Slices [] [] 0 where
  length := rfl
  sums := fun _ hr => absurd hr (Nat.not_lt_zero _)
  total := rfl
  inside := fun _ hx => absurd hx List.not_mem_nil
  inOrder := .nil
  cover := fun i => by simp

/-- A slice of `m` elements is added. -/
theorem Slices.push {starts counts : List Nat} {n : Nat} (h : Slices starts counts n) (m : Nat) :
    Slices (starts ++ [n]) (counts ++ [m]) (n + m) := by
  have hzip : (starts ++ [n]).zip (counts ++ [m]) = starts.zip counts ++ [(n, m)] :=
    List.zip_append h.length
  constructor
  · rw [List.length_append, List.length_append, h.length]
    rfl
  · intro r hr
    rw [List.length_append, List.length_singleton] at hr
    rcases Nat.lt_succ_iff_lt_or_eq.1 hr with hlt | rfl
    · rw [List.getElem_append_left hlt, h.sums r hlt,
        List.take_append_of_le_length (h.length ▸ hlt.le)]
    · have htake : (counts ++ [m]).take starts.length = counts := List.take_left' h.length.symm
      simp [htake, h.total]
  · rw [List.sum_append, h.total, List.sum_singleton]
  · intro x hx
    rw [hzip, List.mem_append, List.mem_singleton] at hx
    rcases hx with hx | rfl
    · exact (h.inside x hx).trans (Nat.le_add_right _ _)
    · exact Nat.le_refl _
  · rw [hzip, List.pairwise_append]
    refine ⟨h.inOrder, List.pairwise_singleton _ _, fun x hx y hy => ?_⟩
    rw [List.mem_singleton] at hy
    exact hy ▸ h.inside x hx
  · intro i
    rw [hzip]
    constructor
    · intro hi
      -- An element is one of the old ones, or of the new slice.
      by_cases hold : i < n
      · obtain ⟨x, hx, hin⟩ := (h.cover i).1 hold
        exact ⟨x, List.mem_append_left _ hx, hin⟩
      · exact ⟨(n, m), List.mem_append_right _ (List.mem_singleton_self _),
          Nat.le_of_not_lt hold, hi⟩
    · rintro ⟨x, hx, hle, hlt⟩
      rw [List.mem_append, List.mem_singleton] at hx
      rcases hx with hx | rfl
      · exact Nat.lt_of_lt_of_le hlt ((h.inside x hx).trans (Nat.le_add_right _ _))
      · exact hlt

/-! ## Strings -/

/-- Where the string at an offset of a buffer ends: at its NUL, if there is one. -/
def strEnd (data : Bytes) (off : Nat) : Nat := off + (CStr.at (data.drop off)).bytes.length

/-- At the offsets stand strings, each behind the one before it. -/
structure Strung (data : Bytes) (offs : List Nat) : Prop where
  /-- Each ends with a NUL, inside the buffer. -/
  terminated : ∀ off ∈ offs, data[strEnd data off]? = some 0
  apart : offs.Pairwise fun off off' => strEnd data off < off'

/-- A string that ends inside a buffer stays as it is if the buffer grows. -/
theorem strEnd_append {data : Bytes} {off : Nat} (h : strEnd data off < data.length) (r : Bytes) :
    strEnd (data ++ r) off = strEnd data off := by
  have hoff : off ≤ data.length := (Nat.le_add_right _ _).trans h.le
  rw [strEnd, strEnd, List.drop_append_of_le_length hoff]
  have hlt : (CStr.at (data.drop off)).bytes.length < (data.drop off).length := by
    rw [strEnd] at h
    rw [List.length_drop]
    omega
  simp only [CStr.at, List.takeWhile_append] at hlt ⊢
  rw [if_neg hlt.ne]

variable {data : Bytes} {offs : List Nat}

theorem Strung.nil (data : Bytes) : Strung data [] :=
  ⟨fun _ h => absurd h List.not_mem_nil, .nil⟩

theorem Strung.lt (h : Strung data offs) {off : Nat} (hoff : off ∈ offs) :
    strEnd data off < data.length :=
  (List.getElem?_eq_some_iff.1 (h.terminated off hoff)).1

/-- The buffer grows. -/
theorem Strung.append (h : Strung data offs) (r : Bytes) : Strung (data ++ r) offs where
  terminated := fun off hoff => by
    rw [strEnd_append (h.lt hoff), List.getElem?_append_left (h.lt hoff), h.terminated off hoff]
  apart := h.apart.imp_of_mem fun hoff _ hlt => by rwa [strEnd_append (h.lt hoff)]

/-- A string is added, whatever its bytes are. -/
theorem Strung.push (h : Strung data offs) (bytes : Bytes) :
    Strung (data ++ (bytes ++ [0])) (offs ++ [data.length]) := by
  have hold := h.append (bytes ++ [0])
  constructor
  · intro off hoff
    rw [List.mem_append, List.mem_singleton] at hoff
    rcases hoff with hoff | rfl
    · exact hold.terminated off hoff
    · -- The bytes up to the first NUL, which is the last byte at the latest.
      rw [strEnd, List.drop_left, List.getElem?_append_right (Nat.le_add_right _ _),
        Nat.add_sub_cancel_left]
      clear hold
      induction bytes with
      | nil => rfl
      | cons c bytes ih =>
        by_cases hc : c = 0
        · simp [CStr.at, hc]
        · simpa [CStr.at, hc] using ih
  · rw [List.pairwise_append]
    refine ⟨hold.apart, List.pairwise_singleton _ _, fun off hoff off' hoff' => ?_⟩
    rw [List.mem_singleton] at hoff'
    rw [hoff', strEnd_append (h.lt hoff)]
    exact h.lt hoff

end MongrelDB
