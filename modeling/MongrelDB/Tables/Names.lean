import MongrelDB.Parser.Sound
import MongrelDB.Lookup.Find
import MongrelDB.Tables

/-!
# Recording the names

What the names read so far leave in the buffers is a function of them
(`NameList.addName`), as is the number of requests it takes. A name on its text is
recorded, or a request for it is refused (`readName_text`); on an arbitrary
buffer, a name is recorded only if one stands there (`readName_ends`).
-/

namespace MongrelDB

open Ascii Prog

/-! ## Layouts -/

/-- A name: a string, and the whitespace in front of it. -/
structure NameText where
  pre : Ws
  tok : StrTok

def NameText.text (x : NameText) : Bytes := x.pre.bytes ++ quote :: (x.tok.raw ++ [quote])

/-! ## Contents -/

/-- What the buffers hold: the offsets of the names, the capacity of their array,
    the names, and the number of requests it took. -/
structure NameList where
  offs : List Nat
  cap : Nat
  blob : Sbuf
  asks : Nat

namespace NameList

/-- The contents of freed buffers. -/
def empty : NameList := ⟨[], 0, Sbuf.empty, 0⟩

/-- Bytes are appended. -/
def append (p : Bytes) (L : NameList) : NameList :=
  { L with blob := L.blob.push p, asks := L.asks + L.blob.asks p.length }

/-- The array has room for one more name. -/
def grow (L : NameList) : NameList :=
  if L.cap = 0 then { L with cap := 8, asks := L.asks + 1 }
  else if L.offs.length = L.cap then { L with cap := L.cap * 2, asks := L.asks + 1 }
  else L

/-- A name is recorded. -/
def addName (L : NameList) (x : NameText) : NameList :=
  let base := L.blob.len
  let L := ((L.append x.tok.raw).append [0]).grow
  { L with offs := L.offs ++ [base] }

/-- The array has room for the slot behind the names. -/
def finish (L : NameList) : NameList :=
  if L.offs.length = L.cap then { L with cap := L.offs.length + 1, asks := L.asks + 1 } else L

/-- Names are recorded. -/
abbrev addNames (L : NameList) (xs : List (NameText × Ws)) : NameList :=
  (xs.map Prod.fst).foldl addName L

variable {L : NameList}

@[simp] theorem grow_offs : L.grow.offs = L.offs := by
  rw [grow]
  split_ifs <;> rfl

@[simp] theorem grow_blob : L.grow.blob = L.blob := by
  rw [grow]
  split_ifs <;> rfl

theorem asks_le_grow : L.asks ≤ L.grow.asks := by
  rw [grow]
  split_ifs <;> simp

theorem asks_le_append (p : Bytes) : L.asks ≤ (L.append p).asks := Nat.le_add_right _ _

/-- There is room for one more name. -/
theorem lt_grow_cap (h : L.offs.length ≤ L.cap) : L.offs.length < L.grow.cap := by
  rw [grow]
  split_ifs with hzero hfull
  · simp only
    omega
  · simp only
    omega
  · omega

@[simp] theorem length_addName (x : NameText) :
    (L.addName x).offs.length = L.offs.length + 1 := by
  simp [addName, append]

theorem asks_le_addName (x : NameText) : L.asks ≤ (L.addName x).asks :=
  (asks_le_append x.tok.raw).trans ((asks_le_append [0]).trans asks_le_grow)

theorem asks_le_addNames (xs : List (NameText × Ws)) : L.asks ≤ (L.addNames xs).asks := by
  induction xs generalizing L with
  | nil => exact Nat.le_refl _
  | cons x xs ih => exact (asks_le_addName x.1).trans ih

theorem asks_le_finish : L.asks ≤ L.finish.asks := by
  rw [finish]
  split_ifs <;> simp

theorem length_addNames (xs : List (NameText × Ws)) :
    (L.addNames xs).offs.length = L.offs.length + xs.length := by
  induction xs generalizing L with
  | nil => rfl
  | cons x xs ih =>
    have hrest := ih (L := L.addName x.1)
    rw [length_addName] at hrest
    rw [List.length_cons, ← Nat.add_assoc, Nat.add_right_comm]
    exact hrest

theorem length_addNames_pos (x : NameText × Ws) (xs : List (NameText × Ws)) :
    0 < (L.addNames (x :: xs)).offs.length := by
  rw [length_addNames, List.length_cons]
  omega

theorem blob_addName (x : NameText) :
    (L.addName x).blob.data = L.blob.data ++ (x.tok.raw ++ [0]) := by
  simp [addName, append, Sbuf.push]

end NameList

/-! ## The invariant -/

/-- The buffers hold the names `L`, which took requests from the heap `H`, and
    they are not shown yet. -/
structure Named (H : Heap) (L : NameList) (s : NamesState) : Prop where
  arr : IsArray s.c.namesArr (L.offs.map .offset) L.cap
  cap : s.c.namesCap = L.cap
  blob : s.c.namesBlob = L.blob
  heap : After H L.asks s.heap
  out : s.out = ⟨.null, L.offs.length⟩

variable {H : Heap} {L : NameList} {s : NamesState}

/-- The size of the buffer of names stays within `size_t`, with `r` yet to be read. -/
def RoomFor (L : NameList) (r : Bytes) : Prop := L.blob.len + r.length + 1 < SIZE_MAX

theorem appendName_spec (h : Named H L s) (p : Bytes) :
    wp (appendName p) (fun _ s' => Named H (L.append p) s')
      (fun e s' => e = .nomem ∧ s'.out = s.out ∧
        (L.blob.len + p.length < SIZE_MAX → Refused H (L.append p).asks)) s := by
  simp only [appendName, wp_bind, wp_get, wp_modify, wp_ite, wp_ret, wp_pure, h.blob]
  rcases Sbuf.append_spec h.heap p with ⟨h', he, ha⟩ | ⟨h', he, href⟩
  · rw [he]
    exact ⟨fun hn => absurd hn Bool.false_ne_true, fun _ => { h with blob := rfl, heap := ha }⟩
  · rw [he]
    exact ⟨fun _ => ⟨trivial, trivial, href⟩, fun hn => absurd rfl hn⟩

/-- The array is moved, or the request for it is refused. -/
theorem reallocNames_spec (h : Named H L s) {ncap : Nat} (hcap : L.cap ≤ ncap) :
    wp (reallocNames ncap)
      (fun _ s' => Named H { L with cap := ncap, asks := L.asks + 1 } s')
      (fun e s' => e = .nomem ∧ s'.out = s.out ∧ Refused H (L.asks + 1)) s := by
  simp only [reallocNames, wp_bind, wp_get, wp_modify, wp_ite, wp_ret]
  rcases h.heap.request (ncap * 8) with ⟨hg, ha⟩ | ⟨hg, href⟩
  · refine ⟨fun hn => absurd hg (by simpa using hn), fun _ => ?_⟩
    exact { h with arr := h.arr.realloc hcap, cap := rfl, heap := ha }
  · exact ⟨fun _ => ⟨trivial, trivial, href⟩, fun hn => absurd hg (by simpa using hn)⟩

theorem growNames_spec (h : Named H L s) :
    wp growNames (fun _ s' => Named H L.grow s')
      (fun e s' => e = .nomem ∧ s'.out = s.out ∧ Refused H L.grow.asks) s := by
  have hcount : s.out.count = L.offs.length := by rw [h.out]
  simp only [growNames, wp_bind, wp_get, wp_ite, wp_pure, h.cap, hcount, NameList.grow]
  refine ⟨fun hzero => ?_, fun hpos => ⟨fun hfull => ?_, fun hfree => ?_⟩⟩
  · rw [if_pos hzero]
    exact reallocNames_spec h (by omega)
  · rw [if_neg hpos, if_pos hfull]
    exact reallocNames_spec h (by omega)
  · rw [if_neg hpos, if_neg hfree]
    exact h

/-- A name is recorded, or a request for it is refused. -/
theorem recordName_spec (h : Named H L s) (x : NameText) :
    wp (recordName x.tok.raw) (fun _ s' => Named H (L.addName x) s')
      (fun e s' => e = .nomem ∧ s'.out = s.out ∧
        (L.blob.len + x.tok.raw.length + 1 < SIZE_MAX → Refused H (L.addName x).asks)) s := by
  simp only [recordName, wp_bind, wp_get, h.blob]
  -- The name, and its terminating NUL.
  refine wp_mono (appendName_spec h x.tok.raw) (fun _ s₁ h₁ => ?_) fun e s' hends =>
    ⟨hends.1, hends.2.1, fun hfit => (hends.2.2 (by omega)).mono
      ((NameList.asks_le_append [0]).trans NameList.asks_le_grow)⟩
  have hout₁ : s₁.out = s.out := h₁.out.trans h.out.symm
  refine wp_mono (appendName_spec h₁ [0]) (fun _ s₂ h₂ => ?_) fun e s' hends =>
    ⟨hends.1, hends.2.1.trans hout₁, fun hfit => (hends.2.2 ?_).mono NameList.asks_le_grow⟩
  swap
  · simp only [NameList.append, Sbuf.push, Sbuf.len, List.length_append, List.length_singleton]
    exact hfit
  have hout₂ : s₂.out = s.out := h₂.out.trans h.out.symm
  refine wp_mono (growNames_spec h₂) (fun _ s₃ h₃ => ?_) fun e s' hends =>
    ⟨hends.1, hends.2.1.trans hout₂, fun _ => hends.2.2⟩
  -- The slot behind the names recorded so far.
  have hoffs : (NameList.grow ((L.append x.tok.raw).append [0])).offs = L.offs := NameList.grow_offs
  have hroom : L.offs.length < (NameList.grow ((L.append x.tok.raw).append [0])).cap :=
    NameList.lt_grow_cap (L := (L.append x.tok.raw).append [0]) (by simpa using h₂.arr.length_le)
  have harr := h₃.arr
  rw [hoffs] at harr
  obtain ⟨b, hb, hpush⟩ := harr.push (by simpa using hroom) (.offset L.blob.len)
  rw [List.length_map] at hb
  have hcount : s₃.out.count = L.offs.length := by rw [h₃.out, hoffs]
  simp only [hcount, storeName, wp_bind, wp_get, hb, wp_lift_ok, wp_modify]
  refine { h₃ with arr := ?_, out := ?_ }
  · simpa [NameList.addName, NameList.append] using hpush
  · simp [h₃.out]

/-! ## Reading -/

/-- A name is read from its text. -/
theorem readName_text (h : Named H L s) (x : NameText) {r : Bytes}
    (hroom : RoomFor L (x.text ++ r)) :
    wp (readName ⟨x.text ++ r, true⟩)
      (fun j s' => j = ⟨r, true⟩ ∧ Named H (L.addName x) s' ∧ RoomFor (L.addName x) r)
      (fun e s' => e ≠ .ok ∧ s'.out = s.out ∧ Refused H (L.addName x).asks) s := by
  have htext : x.text ++ r = x.pre.bytes ++ quote :: (x.tok.raw ++ quote :: r) := by
    simp [NameText.text]
  have hlen := congrArg List.length htext
  simp only [List.length_append, List.length_cons] at hlen
  rw [RoomFor] at hroom
  simp only [readName, htext, jpPeek_ws x.pre not_isWs_quote, ne_eq, not_true_eq_false, if_false,
    wp_bind, ptrSucc_cons, wp_lift_ok, jpString_closed, Bool.not_true, Bool.false_eq_true,
    toSize_closed, slice_append, wp_pure]
  refine wp_mono (recordName_spec h x) (fun _ s' h' => ⟨trivial, h', ?_⟩) fun e s' hends =>
    ⟨hends.1 ▸ by decide, hends.2.1, hends.2.2 ?_⟩
  · rw [RoomFor, Sbuf.len, NameList.blob_addName]
    simp only [Sbuf.len, List.length_append, List.length_singleton] at hroom ⊢
    omega
  · rw [List.length_append] at hroom
    omega

/-- On an arbitrary buffer, a name is recorded only if one stands there. -/
theorem readName_ends (h : Named H L s) (j : JsonParser) :
    wp (readName j)
      (fun j' s' => j'.ok = true ∧ ∃ x : NameText, j.p = x.text ++ j'.p ∧ Named H (L.addName x) s')
      (fun e s' => e ≠ .ok ∧ s'.out = s.out) s := by
  obtain ⟨pre, r, hs, hpeek⟩ := jpPeek_spec j
  simp only [readName, hpeek, wp_bind, wp_ite, wp_ret]
  refine ⟨fun _ => ⟨by decide, trivial⟩, fun hq => ?_⟩
  obtain ⟨r, rfl⟩ := List.head?_eq_some_iff.1 (not_not.1 hq)
  simp only [wp_pure, ptrSucc_cons, wp_lift_ok]
  obtain ⟨j', hj', hparse⟩ := jpString_spec r j.ok
  rw [hj', wp_lift_ok]
  cases hok' : j'.ok with
  | false => exact ⟨fun _ => ⟨by decide, rfl⟩, fun hn => absurd rfl hn⟩
  | true =>
    refine ⟨fun hn => absurd hn (by decide), fun _ => ?_⟩
    obtain ⟨-, t, ht⟩ := hparse.sound hok'
    obtain rfl : r = t.raw ++ quote :: j'.p := (List.cons.inj ht).2
    rw [toSize_closed, wp_lift_ok, slice_append, wp_lift_ok]
    refine wp_mono (recordName_spec h ⟨pre, t⟩) (fun _ s' h' => ⟨rfl, ⟨pre, t⟩, ?_, h'⟩)
      fun e s' hends => ⟨hends.1 ▸ by decide, hends.2.1⟩
    simp [hs, NameText.text]

end MongrelDB
