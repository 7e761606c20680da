import MongrelDB.Growth
import MongrelDB.Page.Slots

/-!
# Counting bytes

What the walk over the rows has counted, against the bytes it has read: every row
has taken a byte at least, and every cell three, one of its column id, one of its
value and the comma or the bracket behind it. The comma between a column id and its
value is optional, so that a cell need not take more (`Point.Counted`).

Whatever the response is, a call of the parser that succeeds takes a byte at least
(`jpValue_takes`, `parseScalarInto_takes`).
-/

namespace MongrelDB

open Ascii Prog

/-! ## The parser -/

/-- What moves the cursor on behind a byte takes a byte at least. -/
theorem bump_takes {f : JsonParser → Run JsonParser} (hf : MovesOn f) (j : JsonParser) :
    Leaves (j.bump >>= f) fun j' => j'.p.length < j.p.length := by
  rcases j with ⟨_ | ⟨c, r⟩, ok⟩
  · exact .error
  · exact (hf ⟨r, ok⟩).mono fun _ h => Nat.lt_succ_of_le h.length_le

theorem jpString_takes (j : JsonParser) : Leaves (jpString j) fun j' => j'.p.length < j.p.length :=
  bump_takes (fun j' => .ok (jpStringLoop_spec j'.ok j'.p).suffix) j

theorem jpObject_takes (n : Nat) (j : JsonParser) :
    Leaves (jpObject n j) fun j' => j'.p.length < j.p.length := by
  cases n with
  | zero => exact .error
  | succ n =>
    rw [jpObject]
    refine bump_takes (fun j₁ => ?_) j
    have h₁ := (jpPeek_suffix (jpSkipWs j₁)).trans (List.dropWhile_suffix _)
    exact .ite (bump_movesOn.after h₁) ((parser_movesOn n).2.2.1.after h₁)

theorem jpArray_takes (n : Nat) (j : JsonParser) :
    Leaves (jpArray n j) fun j' => j'.p.length < j.p.length := by
  cases n with
  | zero => exact .error
  | succ n =>
    rw [jpArray]
    refine bump_takes (fun j₁ => ?_) j
    have h₁ := (jpPeek_suffix (jpSkipWs j₁)).trans (List.dropWhile_suffix _)
    exact .ite (bump_movesOn.after h₁) ((parser_movesOn n).2.1.after h₁)

/-- A token takes the character it starts with. -/
theorem dropWhile_takes {j : JsonParser} {p : UInt8 → Bool} {c : UInt8}
    (hc : (jpPeek j).1 = some c) (hp : p c = true) :
    ((jpPeek j).2.p.dropWhile p).length < j.p.length := by
  have hle := (jpPeek_suffix j).length_le
  obtain ⟨r, hr⟩ := List.head?_eq_some_iff.1 hc
  change (jpPeek j).2.p = c :: r at hr
  have hdrop := (List.dropWhile_suffix (l := r) p).length_le
  rw [hr, List.length_cons] at hle
  rw [hr, List.dropWhile_cons_of_pos hp]
  exact Nat.lt_of_le_of_lt hdrop hle

/-- `jp_value` takes a byte at least, if it succeeds. -/
theorem jpValue_takes (n : Nat) (j : JsonParser) :
    Leaves (jpValue n j) fun j' => j'.ok = true → j'.p.length < j.p.length := by
  cases n with
  | zero => exact .error
  | succ n =>
    have hle := (jpPeek_suffix j).length_le
    have hpeek : ∀ {c p}, (jpPeek j).1 = some c → p c = true →
        ((jpPeek j).2.p.dropWhile p).length < j.p.length := dropWhile_takes
    rw [jpValue]
    cases hp : jpPeek j with
    | mk ch j₁ =>
      rw [hp] at hle hpeek
      change j₁.p.length ≤ _ at hle
      cases ch with
      | none => exact .ok fun h => absurd h Bool.false_ne_true
      | some c =>
        refine .ite ((jpString_takes j₁).mono fun _ h _ => h.trans_le hle)
          (.ite ((jpObject_takes n j₁).mono fun _ h _ => h.trans_le hle)
            (.ite ((jpArray_takes n j₁).mono fun _ h _ => h.trans_le hle) ?_))
        split_ifs with hl hn
        · exact .ok fun _ => hpeek rfl (isLiteralChar_of_startsLiteral c hl)
        · exact .ok fun _ => hpeek rfl (isNumberChar_of_startsNumber c hn)
        · exact .ok fun h => absurd h Bool.false_ne_true

theorem parseScalarInto_takes (lib : Libc) (n : Nat) (j : JsonParser) (blob : Sbuf) (h : Heap) :
    Leaves (parseScalarInto lib n j blob h) fun r => r.j.ok = true → r.j.p.length < j.p.length := by
  have hkeep : ∀ {j' : JsonParser} {tag : BlobPtr → Value} {len : Nat} {bytes : Bytes},
      j'.p.length < j.p.length → Leaves (keepText j' tag len bytes blob h)
        fun r => r.j.ok = true → r.j.p.length < j.p.length := fun hj => by
    rw [keepText]
    exact .ite (.ok fun h => absurd h Bool.false_ne_true)
      (.bind_any fun _ => .ok fun _ => hj)
  have hle := (jpPeek_suffix j).length_le
  have hpeek : ∀ {c p}, (jpPeek j).1 = some c → p c = true →
      ((jpPeek j).2.p.dropWhile p).length < j.p.length := dropWhile_takes
  rw [parseScalarInto]
  cases hp : jpPeek j with
  | mk ch j₁ =>
    rw [hp] at hle hpeek
    change j₁.p.length ≤ _ at hle
    cases ch with
    | none => exact .ok fun h => absurd h Bool.false_ne_true
    | some c =>
      simp only
      split_ifs with hq ht hn hb hnull
      · -- A string.
        exact .bind_any fun _ => (jpString_takes j₁).bind fun j₂ h₂ =>
          .ite (.ok fun _ => h₂.trans_le hle)
          (.bind_any fun _ => .bind_any fun _ => hkeep (h₂.trans_le hle))
      · refine .bind_any fun _ => .bind_any fun _ => .ok fun _ => hpeek rfl ?_
        rcases ht with rfl | rfl <;> rfl
      · have hlt := hpeek rfl (isNumberChar_of_startsNumber c hn)
        exact .bind_any fun _ => .bind_any fun _ => .ite (.ok fun _ => hlt) (.ok fun _ => hlt)
      · -- An array or an object.
        exact (jpValue_takes n j₁).bind fun j₂ h₂ => by
          split_ifs with hok
          · exact .ok fun h => absurd h (by simpa using hok)
          · have hlt := (h₂ (by simpa using hok)).trans_le hle
            exact .bind_any fun _ => .bind_any fun _ => hkeep hlt
      · exact .ok fun _ => hpeek rfl (by rw [hnull]; rfl)
      · exact .ok fun h => absurd h Bool.false_ne_true

/-! ## Parts of the walk -/

/-- At least `d` bytes are read, and no row is recorded. -/
structure HasRead (d : Nat) (s s' : PageState) : Prop where
  out : s'.out = s.out
  le : s'.w.p.length + d ≤ s.w.p.length

/-- A part of the walk that reads at least `d` bytes, if it goes on, and records no row. -/
def Reads {α : Type} (d : Nat) (x : Decode α) : Prop := ∀ s,
  post x (fun _ s' => HasRead d s s') (fun _ _ => True) s

theorem HasRead.trans {d e : Nat} {s s₁ s' : PageState} (h : HasRead d s s₁)
    (h' : HasRead e s₁ s') :
    HasRead (d + e) s s' := by
  have hle := h.le
  have hle' := h'.le
  exact ⟨h'.out.trans h.out, by omega⟩

theorem MovedOn.hasRead {s s' : PageState} (h : MovedOn s s') : HasRead 0 s s' := by
  obtain ⟨w, hw, rfl⟩ := h
  exact ⟨rfl, hw.length_le⟩

namespace Reads

variable {α β : Type} {d e : Nat}

theorem of_cursorOnly {x : Decode α} (hx : CursorOnly x) : Reads 0 x := fun s =>
  post_mono (hx s) (fun _ _ h => h.hasRead) fun _ _ _ => trivial

theorem then_post {x : Decode α} {f : α → Decode β} {Q : β → PageState → Prop} {s : PageState}
    (hx : Reads d x) (hf : ∀ a s', HasRead d s s' → post (f a) Q (fun _ _ => True) s') :
    post (x >>= f) Q (fun _ _ => True) s :=
  post_bind.2 (post_mono (hx s) hf fun _ _ h => h)

theorem advance : Reads 1 MongrelDB.advance := fun s => by
  simp only [MongrelDB.advance, post_bind, post_get, post_lift, post_modify]
  intro w hw
  have hlt := bump_takes (fun j => .ok (List.suffix_refl j.p)) s.w w (by rw [hw]; rfl)
  exact ⟨rfl, hlt⟩

theorem readId : Reads 1 MongrelDB.readId := fun _ =>
  readId_post (fun _ _ h hlt => ⟨h.hasRead.out, hlt⟩) fun _ _ _ => trivial

/-- What grows an array moves no cursor. -/
theorem growing (growth : Scratch → Option Nat) (size : Nat) (move : Nat → Scratch → Scratch) :
    Reads 0 (MongrelDB.growing growth size move) := fun s => by
  refine post_bind.2 (post_get.2 ?_)
  split
  · exact post_bind.2 (reallocate_post (fun _ => ⟨rfl, Nat.le_refl _⟩) fun _ => trivial)
  · exact ⟨rfl, Nat.le_refl _⟩

theorem growCells (total : Nat) : Reads 0 (MongrelDB.growCells total) :=
  growCells_eq total ▸ growing _ _ _

theorem growStrOffs (total : Nat) : Reads 0 (MongrelDB.growStrOffs total) :=
  growStrOffs_eq total ▸ growing _ _ _

theorem growRows (count : Nat) : Reads 0 (MongrelDB.growRows count) :=
  growRows_eq count ▸ growing _ _ _

theorem growStarts (count : Nat) : Reads 0 (MongrelDB.growStarts count) :=
  growStarts_eq count ▸ growing _ _ _

theorem storeCell (i : Nat) (cell : Cell) : Reads 0 (MongrelDB.storeCell i cell) := fun _ => by
  simp only [MongrelDB.storeCell, post_bind, post_get, post_lift, post_modify]
  exact fun _ _ => ⟨rfl, Nat.le_refl _⟩

theorem storeStrOff (i off : Nat) : Reads 0 (MongrelDB.storeStrOff i off) := fun s => by
  simp only [MongrelDB.storeStrOff, post_bind, post_get, post_lift, post_modify]
  exact fun _ _ => ⟨rfl, Nat.le_refl _⟩

/-- The value of a cell takes a byte at least. -/
theorem readValue (lib : Libc) (n i : Nat) (colid : Int64) :
    Reads 1 (MongrelDB.readValue lib n i colid) := fun s => by
  refine post_bind.2 (post_get.2 (post_bind.2 (post_lift.2 fun r hr =>
    post_bind.2 (post_modify.2 ?_))))
  refine (storeCell i _).then_post fun _ s₁ h₁ => (storeStrOff i _).then_post fun _ s₂ h₂ =>
    post_ite.2 ⟨fun _ => trivial, fun hok => ?_⟩
  have hlt := parseScalarInto_takes lib n s.w s.c.valuesBlob s.heap r hr (by simpa using hok)
  obtain ⟨hout, hle⟩ := h₁.trans h₂
  exact ⟨hout, Nat.le_trans (Nat.succ_le_succ hle) hlt⟩

end Reads

/-- Behind a cell, the comma or the bracket is read. -/
theorem commaNext_reads {β : Type} {close : UInt8} {again done : β} {Q : β → PageState → Prop}
    {s : PageState} (hagain : ∀ s', HasRead 1 s s' → Q again s')
    (hdone : ∀ s', HasRead 1 s s' → Q done s') :
    post (commaNext close true again done) Q (fun _ _ => True) s := by
  have hread : ∀ {b : β} {s₁ : PageState}, HasRead 0 s s₁ → (∀ s', HasRead 1 s s' → Q b s') →
      post (advance >>= fun _ => pure b) Q (fun _ _ => True) s₁ := fun h₁ hb =>
    Reads.advance.then_post fun _ s' h' => hb s' (h₁.trans h')
  exact (Reads.of_cursorOnly .peek).then_post fun ch s₁ h₁ =>
    post_ite.2 ⟨fun _ => hread h₁ hagain, fun _ => post_ite.2 ⟨fun _ => hread h₁ hdone,
      fun _ => trivial⟩⟩

/-! ## Steps -/

/-- The cells that are decoded at a point. -/
def Point.cells : Point → Nat
  | .row _ global => global
  | .member _ _ _ k => k.global
  | .pair _ _ _ _ k => k.global
  | .cell _ _ _ _ k _ => k.global
  | .value _ _ _ _ k _ => k.global
  | .behind _ _ _ k => k.global
  | .record _ _ k => k.global
  | .store _ _ k _ => k.global

/-- The bracket of the row a point is in, which is a byte that was read. -/
def Point.bracket : Point → Nat
  | .row .. => 0
  | _ => 1

/-- At a point in a response of `N` bytes, the cells decoded so far have taken three
    bytes each, and the rows recorded so far a byte each. -/
structure Point.Counted (N : Nat) (p : Point) (s : PageState) : Prop where
  cells : 3 * p.cells + s.w.p.length + p.bracket + p.ahead ≤ N
  rows : s.out.count + s.w.p.length + p.bracket ≤ N

/-- What a step from a point counts. -/
abbrev Point.Counts (lib : Libc) (N : Nat) (p : Point) (s : PageState) : Prop :=
  post (p.step lib) (Sum.elim (Point.Counted N) fun _ _ => True) (fun _ _ => True) s

section

variable (lib : Libc) {N : Nat} {n m l start global : Nat} {k : Counters} {colid : Int64}
  {s : PageState}

/-- What reads enough keeps what is counted. -/
theorem Point.Counted.read {p q : Point} {d : Nat} {s' : PageState} (h : p.Counted N s)
    (hr : HasRead d s s') (hcells : 3 * q.cells + q.bracket + q.ahead ≤
      3 * p.cells + p.bracket + p.ahead + d) (hrows : q.bracket ≤ p.bracket + d) :
    q.Counted N s' := by
  obtain ⟨hc, hw⟩ := h
  obtain ⟨hout, hle⟩ := hr
  exact ⟨by omega, by rw [hout]; omega⟩

theorem row_counts (h : Point.Counted N (.row n global) s) :
    Point.Counts lib N (.row n global) s := by
  cases n with
  | zero => trivial
  | succ n =>
  refine (Reads.of_cursorOnly .peek).then_post fun ch s₁ h₁ =>
    post_ite.2 ⟨fun _ => trivial, fun _ => ?_⟩
  -- The bracket of the row.
  refine Reads.advance.then_post fun _ s₂ h₂ => ?_
  replace h₂ := h₁.trans h₂
  refine (Reads.of_cursorOnly .skipWs).then_post fun _ s₃ h₃ => ?_
  refine post_bind.2 (post_get.2 (post_bind.2 (post_lift.2 fun total _ => ?_)))
  refine (Reads.of_cursorOnly .peek).then_post fun ch s₄ h₄ => ?_
  replace h₄ := (h₂.trans h₃).trans h₄
  refine post_ite.2 ⟨fun _ => h.read h₄ (Nat.le_refl _) (Nat.le_refl _), fun _ => ?_⟩
  exact Reads.advance.then_post fun _ s₅ h₅ =>
    h.read (h₄.trans h₅) (Nat.le_succ _) (Nat.le_succ _)

theorem member_counts (h : Point.Counted N (.member n start m k) s) :
    Point.Counts lib N (.member n start m k) s := by
  cases m with
  | zero => trivial
  | succ m =>
  have hpair : ∀ {s'}, HasRead 0 s s' → Point.Counted N (.pair n start m m k) s' := fun hr =>
    h.read hr (Nat.le_refl _) (Nat.le_refl _)
  have hbehind : ∀ {s'}, HasRead 0 s s' → Point.Counted N (.behind n start m k) s' := fun hr =>
    h.read hr (Nat.le_refl _) (Nat.le_refl _)
  refine CursorOnly.readKey.then_post (fun key s₁ h₁ => ?_) fun _ _ _ => trivial
  refine (CursorOnly.isArrayOf _ _ _).then_post (fun isCells s₂ h₂ => ?_) fun _ _ _ => trivial
  replace h₂ := h₁.trans h₂
  refine post_ite.2 ⟨fun _ => ?_, fun _ => ?_⟩
  · refine CursorOnly.advance.then_post (fun _ s₃ h₃ => ?_) fun _ _ _ => trivial
    refine CursorOnly.skipWs.then_post (fun _ s₄ h₄ => ?_) fun _ _ _ => trivial
    refine CursorOnly.peek.then_post (fun ch s₅ h₅ => ?_) fun _ _ _ => trivial
    replace h₅ := ((h₂.trans h₃).trans h₄).trans h₅
    refine post_ite.2 ⟨fun _ => ?_, fun _ => hpair h₅.hasRead⟩
    exact CursorOnly.advance.then_post (fun _ _ h' => hbehind (h₅.trans h').hasRead) fun _ _ _ =>
      trivial
  · exact (CursorOnly.parse (jpValue_movesOn m)).then_post
      (fun _ _ h' => hbehind (h₂.trans h').hasRead) fun _ _ _ => trivial

theorem pair_counts (h : Point.Counted N (.pair n start m l k) s) :
    Point.Counts lib N (.pair n start m l k) s := by
  cases l with
  | zero => trivial
  | succ l =>
  exact Reads.readId.then_post fun _ _ h₁ => (Reads.growCells _).then_post fun _ _ h₂ =>
    h.read (h₁.trans h₂) (Nat.le_refl _) (Nat.le_succ _)

theorem cell_counts (h : Point.Counted N (.cell n start m l k colid) s) :
    Point.Counts lib N (.cell n start m l k colid) s :=
  (Reads.storeCell _ _).then_post fun _ _ h₁ => (Reads.growStrOffs _).then_post fun _ _ h₂ =>
    h.read (h₁.trans h₂) (Nat.le_refl _) (Nat.le_refl _)

theorem value_counts (hs : Point.Sound (.value n start m l k colid) s)
    (h : Point.Counted N (.value n start m l k colid) s) :
    Point.Counts lib N (.value n start m l k colid) s := by
  have hnext : k.next.global = k.global + 1 := by rw [hs.1.global, Counters.next]
  have hcells : 3 * k.next.global + 1 + 0 ≤ 3 * k.global + 1 + 1 + (1 + 1) := by omega
  exact (Reads.readValue lib l k.total colid).then_post fun _ s₁ h₁ =>
    commaNext_reads (fun _ h' => h.read (h₁.trans h') hcells (Nat.le_add_right _ _))
      fun _ h' => h.read (h₁.trans h') hcells (Nat.le_add_right _ _)

theorem behind_counts (h : Point.Counted N (.behind n start m k) s) :
    Point.Counts lib N (.behind n start m k) s :=
  commaNext_post (fun _ h' => h.read h'.hasRead (Nat.le_refl _) (Nat.le_refl _))
    (fun _ h' => h.read h'.hasRead (Nat.le_refl _) (Nat.le_refl _)) fun _ _ _ => trivial

theorem record_counts (h : Point.Counted N (.record n start k) s) :
    Point.Counts lib N (.record n start k) s :=
  post_bind.2 (post_get.2 ((Reads.growRows _).then_post fun _ _ h₁ =>
    (Reads.growStarts _).then_post fun _ _ h₂ =>
      h.read (h₁.trans h₂) (Nat.le_refl _) (Nat.le_refl _)))

theorem store_counts {count : Nat} (hs : Point.Sound (.store n start k count) s)
    (h : Point.Counted N (.store n start k count) s) :
    Point.Counts lib N (.store n start k count) s := by
  obtain ⟨hc, hw⟩ := h
  have hcount := hs.2.1
  simp only [Point.cells, Point.bracket, Point.ahead] at hc hw
  refine post_bind.2 ?_
  simp only [storeRow, post_bind, post_get, post_lift, post_modify]
  intro starts _ rows _
  refine commaNext_post (fun s' h' => ?_) (fun _ _ => trivial) fun _ _ _ => trivial
  -- The row has taken its bracket.
  obtain ⟨w, hsuf, rfl⟩ := h'
  have hle := hsuf.length_le
  simp only at hle
  exact ⟨by simp only [Point.cells, Point.bracket, Point.ahead]; omega,
    by simp only [Point.bracket]; omega⟩

/-- Every step counts the bytes it reads. -/
theorem step_counts (p : Point) (s : PageState) (hs : p.Sound s) (h : p.Counted N s) :
    p.Counts lib N s := by
  cases p with
  | row => exact row_counts lib h
  | member => exact member_counts lib h
  | pair => exact pair_counts lib h
  | cell => exact cell_counts lib h
  | value => exact value_counts lib hs h
  | behind => exact behind_counts lib h
  | record => exact record_counts lib h
  | store => exact store_counts lib hs h

end

/-! ## The response -/

/-- At every point the decoding of a response passes, the cells and the rows so far are
    counted by the bytes they have taken. -/
theorem PagePasses.counted {lib : Libc} {recv : Bytes} {c : Scratch} {h : Heap} {p : Point}
    {s : PageState} (hsize : recv.length < SIZE_MAX) (hp : PagePasses lib recv c h p s) :
    p.Counted recv.length s := by
  obtain ⟨s₀, hopen, hreach⟩ := hp
  have hpost := openRows_post recv c h
  rw [post] at hpost
  rw [hopen] at hpost
  obtain ⟨hold, hle⟩ := hpost
  have hopened : Point.Counted recv.length (.row (fuelFor recv) 0) s₀ := by
    constructor
    · simp only [Point.cells, Point.bracket, Point.ahead]
      omega
    · rw [hold.count]
      simp only [Point.bracket, List.length_nil]
      omega
  exact hreach.keeps_with (fun q t hq => (PagePasses.sound hsize ⟨s₀, hopen, hq⟩).1)
    (step_counts lib) hopened

end MongrelDB
