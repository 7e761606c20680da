import Mathlib.Tactic.Linarith
import MongrelDB.Lib.Bytes

/-!
# Allocation and string buffers

The allocator (`Heap`) grants or refuses every request; which ones it refuses is
a parameter of a run, so that a theorem for all heaps is one for every pattern
of failures. The sizes requested are recorded.

A string buffer (`Sbuf`) grows by doubling its capacity. It has no allocation
exactly if its capacity is zero. A failed append leaves the buffer as it was:
what was to be appended is lost, and later appends may succeed.
-/

namespace MongrelDB

/-- `SIZE_MAX` -/
def SIZE_MAX : Nat := 2 ^ 64 - 1

/-! ## The allocator -/

/-- The allocator: the outcome of every request, and the sizes requested so far,
    the last one first. -/
structure Heap where
  grants : Nat → Bool
  asked : List Nat

namespace Heap

/-- A call of `malloc` or `realloc` for `n` bytes: whether it succeeds. -/
def request (h : Heap) (n : Nat) : Bool × Heap :=
  (h.grants h.asked.length, { h with asked := n :: h.asked })

/-- Every request succeeds. -/
def Succeeds (h : Heap) : Prop := ∀ n, h.grants n = true

/-- The heap that grants everything. -/
def unlimited : Heap := ⟨fun _ => true, []⟩

theorem unlimited_succeeds : unlimited.Succeeds := fun _ => rfl

theorem request_of_succeeds {h : Heap} (hs : h.Succeeds) (n : Nat) :
    h.request n = (true, { h with asked := n :: h.asked }) := by
  rw [request, hs]

@[simp] theorem request_grants (h : Heap) (n : Nat) : (h.request n).2.grants = h.grants := rfl

end Heap

/-! ## String buffers -/

/-- `sbuf`: the first `len` bytes, and the capacity. -/
structure Sbuf where
  data : Bytes
  cap : Nat
  deriving DecidableEq

namespace Sbuf

/-- `sbuf_init`, and what `sbuf_free` leaves. -/
def empty : Sbuf := ⟨[], 0⟩

/-- `len` -/
abbrev len (s : Sbuf) : Nat := s.data.length

/-- The doubling loop of `sbuf_reserve`, with fuel. -/
def growCap (need : Nat) : Nat → Nat → Nat
  | 0, ncap => ncap
  | n + 1, ncap =>
    if need > ncap then
      if ncap > SIZE_MAX / 2 then need else growCap need n (ncap * 2)
    else ncap

/-- `sbuf_reserve`: whether it succeeds. -/
def reserve (s : Sbuf) (extra : Nat) (h : Heap) : Bool × Sbuf × Heap :=
  if extra > SIZE_MAX - 1 - s.len then
    (false, s, h)
  else
    let need := s.len + extra + 1
    if need ≤ s.cap then
      (true, s, h)
    else
      let ncap := growCap need need (if s.cap ≠ 0 then s.cap else 64)
      let (granted, h) := h.request ncap
      if granted then (true, { s with cap := ncap }, h) else (false, s, h)

/-- `sbuf_append` of the bytes `p`: whether it succeeds. -/
def append (s : Sbuf) (p : Bytes) (h : Heap) : Bool × Sbuf × Heap :=
  let (ok, s, h) := s.reserve p.length h
  if ok then (true, { s with data := s.data ++ p }, h) else (false, s, h)

theorem le_growCap {need : Nat} : ∀ {n c : Nat}, need ≤ c * 2 ^ n → need ≤ growCap need n c
  | 0, c, h => by simpa [growCap] using h
  | n + 1, c, h => by
    rw [growCap]
    split_ifs with h₁ h₂
    · exact le_rfl
    · exact le_growCap (by rw [pow_succ] at h; linarith)
    · exact Nat.le_of_not_lt h₁

/-- The loop of `sbuf_reserve` ends with what is needed. -/
theorem need_le_growCap {need c : Nat} (hc : c ≠ 0) : need ≤ growCap need need c :=
  le_growCap <| calc
    need ≤ 2 ^ need := Nat.lt_two_pow_self.le
    _ ≤ c * 2 ^ need := Nat.le_mul_of_pos_left _ (Nat.pos_of_ne_zero hc)

/-- What `sbuf_reserve` can do: succeed, with room for `extra` bytes and a NUL,
    or fail, and leave the buffer as it was. -/
theorem reserve_cases (s : Sbuf) (extra : Nat) (h : Heap) :
    (∃ cap h', s.reserve extra h = (true, ⟨s.data, cap⟩, h') ∧ s.len + extra + 1 ≤ cap ∧
        h'.grants = h.grants) ∨
      ∃ h', s.reserve extra h = (false, s, h') ∧ h'.grants = h.grants := by
  by_cases hwrap : extra > SIZE_MAX - 1 - s.len
  · exact .inr ⟨h, by rw [reserve, if_pos hwrap], rfl⟩
  by_cases hfits : s.len + extra + 1 ≤ s.cap
  · exact .inl ⟨s.cap, h, by simp only [reserve, if_neg hwrap, if_pos hfits], hfits, rfl⟩
  have hstart : (if s.cap ≠ 0 then s.cap else 64) ≠ 0 := by split_ifs with hc <;> [exact hc; decide]
  simp only [reserve, if_neg hwrap, if_neg hfits, Heap.request]
  by_cases hgrant : h.grants h.asked.length = true
  · exact .inl ⟨_, _, if_pos hgrant, need_le_growCap hstart, rfl⟩
  · exact .inr ⟨_, if_neg hgrant, rfl⟩

/-- A granted request of a size that fits in `size_t` succeeds. -/
theorem reserve_of_succeeds (s : Sbuf) {extra : Nat} {h : Heap} (hs : h.Succeeds)
    (hfit : s.len + extra < SIZE_MAX) :
    ∃ cap h', s.reserve extra h = (true, ⟨s.data, cap⟩, h') ∧ s.len + extra + 1 ≤ cap ∧
      h'.Succeeds := by
  rcases s.reserve_cases extra h with ⟨cap, h', he, hcap, hg⟩ | ⟨h', he, _⟩
  · exact ⟨cap, h', he, hcap, fun n => by rw [hg, hs n]⟩
  · have hwrap : ¬extra > SIZE_MAX - 1 - s.len := by omega
    by_cases hfits : s.len + extra + 1 ≤ s.cap
    · simp [reserve, if_neg hwrap, hfits] at he
    · simp [reserve, if_neg hwrap, hfits, Heap.request_of_succeeds hs] at he

/-- An append within `size_t` succeeds if allocation does. -/
theorem append_of_succeeds (s : Sbuf) {p : Bytes} {h : Heap} (hs : h.Succeeds)
    (hfit : s.len + p.length < SIZE_MAX) :
    ∃ cap h', s.append p h = (true, ⟨s.data ++ p, cap⟩, h') ∧ h'.Succeeds := by
  obtain ⟨cap, h', he, _, hs'⟩ := s.reserve_of_succeeds hs hfit
  exact ⟨cap, h', by simp [append, he], hs'⟩

end Sbuf

end MongrelDB
