import MongrelDB.Alloc
import MongrelDB.Serialize

/-!
# Appends that may fail

What a serializer leaves in its buffer. If allocations succeed, these are all of its
pieces (`Sbuf.appendAll_granted`); if one of them is refused, a piece is missing for
good, as the appends behind it go on, and what is left is shorter
(`AppendsFit.of_complete`).
-/

namespace MongrelDB

open Ascii

namespace Sbuf

variable {H h : Heap} {k : Nat} {s : Sbuf} {ps : Appends}

/-- One append, and the ones behind it. -/
theorem appendAll_cons (s : Sbuf) (h : Heap) (p : Bytes) (ps : Appends) :
    s.appendAll h (p :: ps) = (s.append p h).2.1.appendAll (s.append p h).2.2 ps := rfl

/-- The buffer behind all of these appends. -/
def pushAll (s : Sbuf) : Appends → Sbuf
  | [] => s
  | p :: ps => (s.push p).pushAll ps

/-- The number of requests it takes to append all of these pieces. -/
def asksAll (s : Sbuf) : Appends → Nat
  | [] => 0
  | p :: ps => s.asks p.length + (s.push p).asksAll ps

theorem pushAll_data (s : Sbuf) (ps : Appends) : (s.pushAll ps).data = s.data ++ ps.flatten := by
  induction ps generalizing s with
  | nil => rw [pushAll, List.flatten_nil, List.append_nil]
  | cons p ps ih => rw [pushAll, ih, push, List.flatten_cons, List.append_assoc]

/-- Behind an append, there is room for a NUL. -/
theorem push_cap (s : Sbuf) (p : Bytes) : (s.push p).len + 1 ≤ (s.push p).cap := by
  have hstart : (if s.cap ≠ 0 then s.cap else 64) ≠ 0 := by split_ifs with hc <;> [exact hc; decide]
  have hroom : s.len + p.length + 1 ≤ s.room p.length := by
    rw [room]
    generalize (if s.cap ≠ 0 then s.cap else 64) = start at hstart ⊢
    split_ifs with hle
    · exact hle
    · exact need_le_growCap hstart
  simpa only [push, len, List.length_append] using hroom

theorem pushAll_cap (hne : ps ≠ []) (s : Sbuf) : (s.pushAll ps).cap ≠ 0 := by
  cases ps with
  | nil => exact absurd rfl hne
  | cons p ps =>
    rw [pushAll]
    have hcap := push_cap s p
    clear hne
    -- A capacity is never taken back.
    induction ps generalizing s p with
    | nil =>
      rw [pushAll]
      omega
    | cons q ps ih => exact ih (s.push p) q (push_cap (s.push p) q)

@[simp] theorem append_grants (s : Sbuf) (p : Bytes) (h : Heap) :
    (s.append p h).2.2.grants = h.grants := by
  rcases s.reserve_cases p.length h with ⟨cap, h', he, -, hg⟩ | ⟨h', he, hg⟩ <;>
    simp [append, he, hg]

@[simp] theorem appendAll_grants (s : Sbuf) (h : Heap) (ps : Appends) :
    (s.appendAll h ps).2.grants = h.grants := by
  induction ps generalizing s h with
  | nil => rfl
  | cons p ps ih => rw [appendAll_cons, ih, append_grants]

/-- An append leaves the buffer with the piece behind it, or as it is. -/
theorem append_data_cases (s : Sbuf) (h : Heap) (p : Bytes) :
    (s.append p h).2.1.data = s.data ++ p ∨ (s.append p h).2.1.data = s.data := by
  rcases s.reserve_cases p.length h with ⟨cap, h', he, -, -⟩ | ⟨h', he, -⟩
  · exact .inl (by simp [append, he])
  · exact .inr (by simp [append, he])

/-- What is appended are some of the pieces, in their order. -/
theorem exists_sublist_appendAll (s : Sbuf) (h : Heap) (ps : Appends) :
    ∃ qs : Appends, qs.Sublist ps ∧ (s.appendAll h ps).1.data = s.data ++ qs.flatten := by
  induction ps generalizing s h with
  | nil => exact ⟨[], List.Sublist.refl _, by rw [List.flatten_nil, List.append_nil]; rfl⟩
  | cons p ps ih =>
    obtain ⟨qs, hqs, hdata⟩ := ih (s.append p h).2.1 (s.append p h).2.2
    rw [appendAll_cons, hdata]
    rcases append_data_cases s h p with hp | hp
    · exact ⟨p :: qs, hqs.cons_cons p, by rw [hp, List.flatten_cons, List.append_assoc]⟩
    · exact ⟨qs, hqs.cons p, by rw [hp]⟩

/-- There is never more in the buffer than what was to be appended. -/
theorem appendAll_length_le (s : Sbuf) (h : Heap) (ps : Appends) :
    (s.appendAll h ps).1.len ≤ s.len + ps.flatten.length := by
  obtain ⟨qs, hqs, hdata⟩ := exists_sublist_appendAll s h ps
  rw [len, len, hdata, List.length_append]
  exact Nat.add_le_add_left hqs.flatten.length_le _

/-- There is nothing else in the buffer than what was to be appended. -/
theorem mem_appendAll {s : Sbuf} {h : Heap} {ps : Appends} {c : UInt8}
    (hc : c ∈ (s.appendAll h ps).1.data) : c ∈ s.data ++ ps.flatten := by
  obtain ⟨qs, hqs, hdata⟩ := exists_sublist_appendAll s h ps
  rw [hdata] at hc
  exact ((List.Sublist.refl _).append hqs.flatten).subset hc

/-- If no request is refused, all the pieces are appended. -/
theorem appendAll_granted (ha : After H k h)
    (hg : Granted H (k + s.asksAll ps)) (hfit : s.len + ps.flatten.length < SIZE_MAX) :
    ∃ h', s.appendAll h ps = (s.pushAll ps, h') ∧ After H (k + s.asksAll ps) h' := by
  induction ps generalizing s h k with
  | nil => exact ⟨h, rfl, ha⟩
  | cons p ps ih =>
    rw [List.flatten_cons, List.length_append] at hfit
    rw [asksAll, ← Nat.add_assoc] at hg ⊢
    rcases append_spec ha p with ⟨h₁, he, ha₁⟩ | ⟨h₁, he, href⟩
    · obtain ⟨h', he', ha'⟩ := ih ha₁ hg (by
        simp only [len, push, List.length_append] at hfit ⊢
        omega)
      exact ⟨h', by rw [appendAll_cons, he, he', pushAll], ha'⟩
    · exact absurd (href (by omega)) (hg.mono (Nat.le_add_right _ _)).not_refused

/-- A piece that is appended fits in `size_t`. -/
theorem length_of_append {p : Bytes} (hlen : s.len < SIZE_MAX) (hok : (s.append p h).1 = true) :
    s.len + p.length < SIZE_MAX := by
  by_contra hwrap
  have hrefused : s.reserve p.length h = (false, s, h) := if_pos (by omega)
  simp [append, hrefused] at hok

/-- A piece that is not appended is missing in the end. -/
theorem appendAll_of_failed {p : Bytes} (hp : p ≠ []) {ps : Appends}
    (hfailed : (s.append p h).2.1 = s) :
    (s.appendAll h (p :: ps)).1.data ≠ s.data ++ (p :: ps).flatten := fun heq => by
  have hle := appendAll_length_le s (s.append p h).2.2 ps
  rw [appendAll_cons, hfailed] at heq
  have hlen := congrArg List.length heq
  have hpos := List.length_pos_iff.2 hp
  simp only [len, List.length_append, List.flatten_cons] at hle hlen
  omega

/-- Behind a first append, an empty piece takes no request. -/
theorem append_nil (hs : s.len + 1 ≤ s.cap) (h : Heap) : s.append [] h = (true, s, h) := by
  have hres : s.reserve 0 h = (true, s, h) := by
    rw [reserve, if_neg (by omega)]
    exact if_pos hs
  simp [append, hres]

/-- If all the pieces are in the buffer, no request was refused. -/
theorem granted_of_appendAll (ha : After H k h)
    (hs : s.len + 1 ≤ s.cap ∨ s.cap = 0 ∧ ps.head? ≠ some [])
    (hlen : s.len < SIZE_MAX) (hcomplete : (s.appendAll h ps).1.data = s.data ++ ps.flatten) :
    Granted H (k + s.asksAll ps) ∧ s.len + ps.flatten.length < SIZE_MAX := by
  induction ps generalizing s h k with
  | nil => exact ⟨ha.granted, hlen⟩
  | cons p ps ih =>
    rw [asksAll, ← Nat.add_assoc, List.flatten_cons, List.length_append, ← Nat.add_assoc]
    rcases append_spec ha p with ⟨h₁, he, ha₁⟩ | ⟨h₁, he, -⟩
    · have hfit := length_of_append hlen (by rw [he])
      have hpush : (s.push p).len = s.len + p.length := by simp [push, len]
      have hrest := ih ha₁ (.inl (push_cap s p)) (hpush ▸ hfit) (by
        rw [appendAll_cons, he] at hcomplete
        rw [hcomplete, push, List.flatten_cons, List.append_assoc])
      rwa [hpush] at hrest
    · refine absurd hcomplete (appendAll_of_failed ?_ (by rw [he]))
      rintro rfl
      rcases hs with hs | ⟨-, hne⟩
      · rw [append_nil hs] at he
        exact absurd (congrArg Prod.fst he).symm Bool.false_ne_true
      · exact hne rfl

end Sbuf

/-- No append of these pieces fails, from an empty buffer on. -/
def AppendsFit (H : Heap) (ps : Appends) : Prop :=
  Granted H (Sbuf.empty.asksAll ps) ∧ ps.flatten.length < SIZE_MAX

/-- If no append fails, all the pieces are there. -/
theorem AppendsFit.appendAll {H : Heap} {ps : Appends} (hfit : AppendsFit H ps) :
    (Sbuf.empty.appendAll H ps).1 = Sbuf.empty.pushAll ps := by
  obtain ⟨hg, hlen⟩ := hfit
  rw [← Nat.zero_add ps.flatten.length] at hlen
  rw [← Nat.zero_add (Sbuf.asksAll _ _)] at hg
  obtain ⟨h', happ, -⟩ := Sbuf.appendAll_granted (After.zero H) hg hlen
  rw [happ]

theorem AppendsFit.data {H : Heap} {ps : Appends} (hfit : AppendsFit H ps) :
    (Sbuf.empty.appendAll H ps).1.data = ps.flatten := by
  rw [hfit.appendAll, Sbuf.pushAll_data]
  rfl

/-- If all the pieces are there, no append has failed. -/
theorem AppendsFit.of_complete {H : Heap} {ps : Appends} (hfirst : ps.head? ≠ some [])
    (hcomplete : (Sbuf.empty.appendAll H ps).1.data = ps.flatten) : AppendsFit H ps := by
  have h := Sbuf.granted_of_appendAll (After.zero H) (.inr ⟨rfl, hfirst⟩) (by decide) hcomplete
  have hlen : Sbuf.empty.len = 0 := rfl
  rwa [hlen, Nat.zero_add, Nat.zero_add] at h

end MongrelDB
