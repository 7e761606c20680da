import MongrelDB.Lib.Slices
import MongrelDB.Page.Points
import MongrelDB.Safety

/-!
# The arrays of the walk over the rows

What the arrays of the client hold at each point of the walk over the rows: every
index about to be written is below the capacity of its array, the rows are slices
of the cells, and the offsets are those of strings that stand in the buffer of
strings, one behind the other (`Point.Sound`). Every step keeps this, whatever the
response is and whatever allocations are refused, and where it returns early, the
arrays are left so (`step_kept`).
-/

namespace MongrelDB

open Ascii Prog

/-! ## The cursor -/

/-- Only the cursor has moved, forward. -/
def MovedOn (s s' : PageState) : Prop := ∃ w : JsonParser, w.p <:+ s.w.p ∧ s' = { s with w := w }

/-- A part of the walk that only moves the cursor. -/
def CursorOnly {α : Type} (x : Decode α) : Prop := ∀ s,
  post x (fun _ s' => MovedOn s s') (fun _ s' => MovedOn s s') s

theorem MovedOn.refl (s : PageState) : MovedOn s s := ⟨s.w, List.suffix_rfl, rfl⟩

theorem MovedOn.trans {s s₁ s' : PageState} (h : MovedOn s s₁) (h' : MovedOn s₁ s') :
    MovedOn s s' := by
  obtain ⟨w, hw, rfl⟩ := h
  obtain ⟨w', hw', rfl⟩ := h'
  exact ⟨w', hw'.trans hw, rfl⟩

namespace CursorOnly

variable {α β : Type}

theorem pure (a : α) : CursorOnly (Pure.pure a : Decode α) := .refl

theorem ret (e : Code) : CursorOnly (Prog.ret e : Decode α) := .refl

theorem fault (f : Fault) : CursorOnly (Prog.fault f : Decode α) := fun _ => trivial

theorem lift (x : Run α) : CursorOnly (Prog.lift x : Decode α) := fun s =>
  post_lift.2 fun _ _ => .refl s

theorem move {f : JsonParser → JsonParser} (hf : ∀ j, (f j).p <:+ j.p) :
    CursorOnly (modify fun s => { s with w := f s.w } : Decode Unit) :=
      fun s => ⟨f s.w, hf s.w, rfl⟩

theorem bind {x : Decode α} {f : α → Decode β} (hx : CursorOnly x) (hf : ∀ a, CursorOnly (f a)) :
    CursorOnly (x >>= f) := fun s =>
  post_bind.2 (post_mono (hx s) (fun a s₁ h₁ => post_mono (hf a s₁) (fun _ _ h => h₁.trans h)
    fun _ _ h => h₁.trans h) fun _ _ h => h)

theorem get {f : PageState → Decode β} (hf : ∀ s, CursorOnly (f s)) :
    CursorOnly (Prog.get >>= f) := fun s => hf s s

theorem ite {c : Prop} [Decidable c] {x y : Decode α} (hx : CursorOnly x) (hy : CursorOnly y) :
    CursorOnly (if c then x else y) := by
  split_ifs
  · exact hx
  · exact hy

theorem peek : CursorOnly MongrelDB.peek := fun s => ⟨(jpPeek s.w).2, jpPeek_suffix s.w, rfl⟩

theorem skipWs : CursorOnly MongrelDB.skipWs := move fun _ => List.dropWhile_suffix _

theorem advance : CursorOnly MongrelDB.advance := fun s => by
  simp only [MongrelDB.advance, post_bind, post_get, post_lift, post_modify]
  exact fun w hw => ⟨w, bump_movesOn s.w w hw, rfl⟩

theorem parse {f : JsonParser → Run JsonParser} (hf : MovesOn f) :
    CursorOnly (MongrelDB.parse f) := fun s => by
  simp only [MongrelDB.parse, post_bind, post_get, post_lift, post_modify]
  exact fun w hw => post_ite.2 ⟨fun _ => ⟨w, hf s.w w hw, rfl⟩, fun _ => ⟨w, hf s.w w hw, rfl⟩⟩

theorem readKey : CursorOnly MongrelDB.readKey :=
  peek.bind fun _ => ite (ret _) (get fun _ => (lift _).bind fun _ =>
    (parse jpString_movesOn).bind fun _ => get fun _ => (lift _).bind fun _ => peek.bind fun _ =>
      ite (ret _) (advance.bind fun _ => pure _))

theorem isArrayOf (key kstart : Bytes) (klen : Nat) :
    CursorOnly (MongrelDB.isArrayOf key kstart klen) :=
  (lift _).bind fun _ => ite (peek.bind fun _ => pure _) (pure _)

theorem keyLoop (n : Nat) : CursorOnly (MongrelDB.keyLoop n) := by
  induction n with
  | zero => exact fault _
  | succ n ih =>
    exact skipWs.bind fun _ => readKey.bind fun _ => (isArrayOf _ _ _).bind fun _ => ite (pure _)
      ((parse (jpValue_movesOn n)).bind fun _ => peek.bind fun _ =>
        ite (advance.bind fun _ => ih) (ite (pure _) (ret _)))

/-- A part that only moves the cursor, and then one that goes on. -/
theorem then_post {x : Decode α} {f : α → Decode β} {Q : β → PageState → Prop}
    {R : Code → PageState → Prop} {s : PageState} (hx : CursorOnly x)
    (hf : ∀ a s', MovedOn s s' → post (f a) Q R s') (hR : ∀ e s', MovedOn s s' → R e s') :
    post (x >>= f) Q R s :=
  post_bind.2 (post_mono (hx s) hf hR)

end CursorOnly

/-- Behind a step, a loop goes on or ends, or the walk returns. -/
theorem commaNext_post {β : Type} {close : UInt8} {behind : Bool} {again done : β}
    {Q : β → PageState → Prop} {R : Code → PageState → Prop} {s : PageState}
    (hagain : ∀ s', MovedOn s s' → Q again s') (hdone : ∀ s', MovedOn s s' → Q done s')
    (hR : ∀ e s', MovedOn s s' → R e s') : post (commaNext close behind again done) Q R s := by
  refine CursorOnly.peek.then_post (fun ch s₁ h₁ => ?_) hR
  simp only [post_ite, post_bind, post_pure, post_ret]
  refine ⟨fun _ => post_mono (CursorOnly.advance s₁) (fun _ s' h' => hagain s' (h₁.trans h'))
    fun e s' h' => hR e s' (h₁.trans h'), fun _ => ⟨fun _ => ⟨fun _ => ?_, fun _ => hdone s₁ h₁⟩,
    fun _ => hR _ s₁ h₁⟩⟩
  exact post_mono (CursorOnly.advance s₁) (fun _ s' h' => hdone s' (h₁.trans h'))
    fun e s' h' => hR e s' (h₁.trans h')

/-- The column id of a pair takes a byte at least. -/
theorem readId_post {Q : Int64 → PageState → Prop} {R : Code → PageState → Prop} {s : PageState}
    (hQ : ∀ colid s', MovedOn s s' → s'.w.p.length < s.w.p.length → Q colid s')
    (hR : ∀ e s', MovedOn s s' → R e s') : post readId Q R s := by
  have h₁ : MovedOn s { s with w := (jpPeek s.w).2 } := ⟨_, jpPeek_suffix s.w, rfl⟩
  refine post_bind.2 (post_ite.2 ⟨fun _ => hR _ _ h₁, fun hnum => ?_⟩)
  -- The first character belongs to the number.
  obtain ⟨c, r, hc, hr⟩ : ∃ c r, startsNumber c = true ∧ (jpPeek s.w).2.p = c :: r := by
    cases hp : (jpPeek s.w).2.p with
    | nil => simp [jpPeek, show (jpSkipWs s.w).p = [] from hp] at hnum
    | cons c r =>
      exact ⟨c, r, by simpa [jpPeek, show (jpSkipWs s.w).p = c :: r from hp] using hnum, rfl⟩
  have hlt : (jpNumber (jpPeek s.w).2).p.length < s.w.p.length := by
    have hle := (jpPeek_suffix s.w).length_le
    have hdrop := (List.dropWhile_suffix (l := r) isNumberChar).length_le
    rw [hr, List.length_cons] at hle
    rw [jpNumber, hr, List.dropWhile_cons_of_pos (isNumberChar_of_startsNumber c hc)]
    exact Nat.lt_of_le_of_lt hdrop hle
  have h₂ : MovedOn s { s with w := jpNumber (jpPeek s.w).2 } :=
    h₁.trans ⟨_, List.dropWhile_suffix _, rfl⟩
  -- What follows the number only moves the cursor on.
  have hrest : ∀ x : Decode Int64, CursorOnly x →
      post x Q R { s with w := jpNumber (jpPeek s.w).2 } := fun x hx => by
    refine post_mono (hx _) (fun colid s' h' => hQ colid s' (h₂.trans h') ?_)
      fun e s' h' => hR e s' (h₂.trans h')
    obtain ⟨w, hw, rfl⟩ := h'
    exact Nat.lt_of_le_of_lt hw.length_le hlt
  refine post_bind.2 (post_get.2 (post_bind.2 ?_))
  simp only [parse, post_bind, post_get, post_lift, post_modify]
  rintro j ⟨⟩
  exact post_ite.2 ⟨fun _ => hR _ _ h₂, fun _ => post_pure.2 fun _ _ idbuf _ =>
    post_bind.1 (hrest _ (CursorOnly.peek.bind fun _ =>
      CursorOnly.ite (CursorOnly.advance.bind fun _ => CursorOnly.pure (strtoll idbuf))
        (CursorOnly.pure (strtoll idbuf))))⟩

/-! ## Values -/

/-- A value that points to a string: a string, or a text of JSON. -/
def Value.isText : Value → Bool
  | .str _ => true
  | .json _ => true
  | _ => false

/-- What reading a value at `j` leaves: a string behind those in the buffer, and its
    offset, or a value without one. The buffer grows by a byte more than is read, at most. -/
structure Scalar.Kept (j : JsonParser) (blob : Sbuf) (r : Scalar) : Prop where
  text : r.v.isText = false ∧ r.strOff = NO_OFFSET ∧ r.blob = blob ∨
    r.v.isText = true ∧ r.strOff = blob.len ∧
      ∃ bytes, r.blob.data = blob.data ++ (bytes ++ [0]) ∧ r.blob.len ≤ r.blob.cap
  size : r.blob.len + r.j.p.length ≤ blob.len + j.p.length + 1

theorem Scalar.Kept.plain {j j' : JsonParser} {blob : Sbuf} {v : Value} {h : Heap}
    (hv : v.isText = false) (hj : j'.p <:+ j.p) : Scalar.Kept j blob ⟨j', v, blob, NO_OFFSET, h⟩ :=
  ⟨.inl ⟨hv, rfl, rfl⟩, (Nat.add_le_add_left hj.length_le _).trans (Nat.le_succ _)⟩

theorem keepText_kept {j j' : JsonParser} {tag : BlobPtr → Value} {len : Nat} {bytes : Bytes}
    {blob : Sbuf} {h : Heap} (htag : ∀ p, (tag p).isText = true) (hj : j'.p <:+ j.p)
    (hsize : bytes.length + j'.p.length ≤ j.p.length) :
    Leaves (keepText j' tag len bytes blob h) (Scalar.Kept j blob) := by
  rw [keepText]
  rcases blob.reserve_cases len h with ⟨cap, h', he, hcap, -⟩ | ⟨h', he, -⟩
  · simp only [he, Bool.not_true, Bool.false_eq_true, if_false, Sbuf.fill]
    split_ifs with hfill
    · refine .ok ⟨.inr ⟨htag _, rfl, bytes, rfl, ?_⟩, ?_⟩
      · simpa [Sbuf.len] using hfill
      · simp only [Sbuf.len, List.length_append, List.length_singleton]
        omega
    · exact .error
  · simp only [he, Bool.not_false, if_true]
    exact .ok (.plain rfl hj)

theorem toSize_leaves {n : Int} : Leaves (toSize n) fun k => (k : Int) = n := by
  rw [toSize]
  split_ifs with hn
  · exact .ok (Int.toNat_of_nonneg hn)
  · exact .error

theorem slice_leaves {p : Bytes} {n : Nat} : Leaves (slice p n) fun b => b.length = n := by
  rw [slice]
  split_ifs with hn
  · exact .ok (List.length_take_of_le hn)
  · exact .error

theorem ptrSucc_leaves {p : Bytes} : Leaves (ptrSucc p) fun q => p.length = q.length + 1 := by
  cases p with
  | nil => exact .error
  | cons c p => exact .ok rfl

theorem parseScalarInto_kept (lib : Libc) (n : Nat) (j : JsonParser) (blob : Sbuf) (h : Heap) :
    Leaves (parseScalarInto lib n j blob h) (Scalar.Kept j blob) := by
  have h₁ := jpPeek_suffix j
  have hdrop : ∀ {p : UInt8 → Bool}, (jpPeek j).2.p.dropWhile p <:+ j.p :=
    (List.dropWhile_suffix _).trans h₁
  rw [parseScalarInto]
  cases hp : jpPeek j with
  | mk ch j₁ =>
    rw [hp] at h₁ hdrop
    cases ch with
    | none => exact .ok (.plain rfl h₁)
    | some c =>
      change j₁.p <:+ j.p at h₁
      have hle := h₁.length_le
      simp only
      refine .ite ?_ (.ite ?_
        (.ite ?_ (.ite ?_ (.ite (.ok (.plain rfl hdrop)) (.ok (.plain rfl h₁))))))
      · -- The quotes around a string make up for its NUL.
        refine ptrSucc_leaves.bind fun start hstart => (jpString_movesOn.after h₁).bind fun j₂ h₂ =>
          .ite (.ok (.plain rfl h₂)) (toSize_leaves.bind fun len hlen =>
            slice_leaves.bind fun b hb => keepText_kept (fun _ => rfl) h₂ ?_)
        have hun := unescape_length_le b
        rw [ptrDiff] at hlen
        omega
      · exact .bind_any fun _ => .bind_any fun _ => .ok (.plain rfl hdrop)
      · exact .bind_any fun _ => .bind_any fun _ => .ite (.ok (.plain rfl hdrop))
          (.ok (.plain rfl hdrop))
      · refine ((jpValue_movesOn n).after h₁).bind fun j₂ h₂ =>
          .ite (.ok (.plain rfl h₂)) (toSize_leaves.bind fun len hlen =>
            slice_leaves.bind fun b hb => keepText_kept (fun _ => rfl) h₂ ?_)
        rw [ptrDiff] at hlen
        omega

/-! ## The arrays -/

/-- What the arrays of the walk hold, each in an allocation of its capacity: cells
    and the offsets of their strings, and rows and their first cells, which make up
    the first `recorded` cells. -/
structure RowsHolding (s : PageState) (cells : List Cell) (offs : List Nat) (rows : List Row)
    (starts : List Nat) (recorded : Nat) : Prop where
  cellsArr : IsArray s.c.cellsArr cells s.c.cellsCap
  strOffs : IsArray s.c.cellStrOffs offs s.c.cellStrOffsCap
  rowsArr : IsArray s.c.rowsArr rows s.c.rowsCap
  rowStarts : IsArray s.c.rowCellStarts starts s.c.rowCellStartsCap
  count : s.out.count = rows.length
  slices : Slices starts (rows.map Row.count) recorded
  /-- An offset is set exactly for a string and for a text of JSON. -/
  marked : List.Forall₂ (fun (cell : Cell) off => cell.value.isText = true ↔
    off ≠ NO_OFFSET) cells offs
  strung : Strung s.c.valuesBlob.data (offs.filter (· ≠ NO_OFFSET))
  blob : s.c.valuesBlob.len ≤ s.c.valuesBlob.cap

/-- The arrays hold `decoded` cells, the first `recorded` of them in the rows. -/
def Laid (recorded decoded : Nat) (s : PageState) : Prop :=
  ∃ cells offs rows starts, RowsHolding s cells offs rows starts recorded ∧ cells.length = decoded

/-- The state in a row, of which the cells from `start` on are decoded. -/
structure InRowAt (start : Nat) (k : Counters) (s : PageState) : Prop where
  laid : Laid start k.total s
  inRow : start + k.inRow = k.total
  global : k.global = k.total

/-- What holds at a point: the arrays hold what is counted, and there is room for
    what is about to be written. -/
def Point.Sound : Point → PageState → Prop
  | .row _ global, s => Laid global global s
  | .member _ start _ k, s => InRowAt start k s
  | .pair _ start _ _ k, s => InRowAt start k s
  | .cell _ start _ _ k _, s => InRowAt start k s ∧ k.total < s.c.cellsCap
  | .value _ start _ _ k _, s =>
    InRowAt start k s ∧ k.total < s.c.cellsCap ∧ k.total < s.c.cellStrOffsCap
  | .behind _ start _ k, s => InRowAt start k s
  | .record _ start k, s => InRowAt start k s
  | .store _ start k count, s => InRowAt start k s ∧ count = s.out.count ∧
    count < s.c.rowCellStartsCap ∧ count < s.c.rowsCap

/-- What a return in the middle of the walk leaves: cells behind those of the rows
    recorded so far, if any. -/
def LeftLaid (s : PageState) : Prop :=
  ∃ recorded decoded, recorded ≤ decoded ∧ Laid recorded decoded s

variable {s : PageState} {cells : List Cell} {offs : List Nat} {rows : List Row}
  {starts : List Nat} {recorded : Nat}

theorem RowsHolding.move (h : RowsHolding s cells offs rows starts recorded) (w : JsonParser) :
    RowsHolding { s with w := w } cells offs rows starts recorded :=
  { h with }

theorem Laid.move {decoded : Nat} (h : Laid recorded decoded s) (w : JsonParser) :
    Laid recorded decoded { s with w := w } := by
  obtain ⟨cells, offs, rows, starts, hold, hlen⟩ := h
  exact ⟨cells, offs, rows, starts, hold.move w, hlen⟩

theorem InRowAt.move {start : Nat} {k : Counters} (h : InRowAt start k s) (w : JsonParser) :
    InRowAt start k { s with w := w } :=
  ⟨h.laid.move w, h.inRow, h.global⟩

theorem InRowAt.left {start : Nat} {k : Counters} (h : InRowAt start k s) : LeftLaid s :=
  ⟨start, k.total, h.inRow ▸ Nat.le_add_right _ _, h.laid⟩

/-- Neither the cursor nor the buffer of strings has changed. -/
structure SameText (s s' : PageState) : Prop where
  w : s'.w = s.w
  blob : s'.c.valuesBlob = s.c.valuesBlob

/-! ## Growing -/

theorem reallocate_post {ncap size : Nat} {Q : Unit → PageState → Prop}
    {R : Code → PageState → Prop} (hQ : ∀ h', Q () { s with heap := h' })
    (hR : ∀ h', R .nomem { s with heap := h' }) : post (reallocate ncap size) Q R s := by
  simp only [reallocate, post_bind, post_get, post_modify, post_ite, post_ret, post_pure]
  exact ⟨fun _ => hR _, fun _ => hQ _⟩

variable (h : RowsHolding s cells offs rows starts recorded)
include h

theorem growCells_post : post (growCells cells.length)
    (fun _ s' => RowsHolding s' cells offs rows starts recorded ∧ SameText s s' ∧
      cells.length < s'.c.cellsCap)
    (fun _ s' => RowsHolding s' cells offs rows starts recorded) s := by
  have hle := h.cellsArr.length_le
  simp only [growCells, post_bind, post_get, post_ite, post_pure]
  refine ⟨fun hfull => ?_, fun hfree => ⟨h, ⟨rfl, rfl⟩, by omega⟩⟩
  have hneed : cells.length + 1 ≤ growTo 16 (cells.length + 1) s.c.cellsCap :=
    need_le_growTo (by decide)
  exact reallocate_post
    (fun h' => ⟨{ h with cellsArr := h.cellsArr.realloc (by omega) }, ⟨rfl, rfl⟩, hneed⟩) fun h' =>
    { h with }

theorem growStrOffs_post {i : Nat} (hi : i < s.c.cellsCap) : post (growStrOffs offs.length)
    (fun _ s' => RowsHolding s' cells offs rows starts recorded ∧ SameText s s' ∧
      i < s'.c.cellsCap ∧
      offs.length < s'.c.cellStrOffsCap)
    (fun _ s' => RowsHolding s' cells offs rows starts recorded) s := by
  have hle := h.strOffs.length_le
  simp only [growStrOffs, post_bind, post_get, post_ite, post_pure]
  refine ⟨fun hfull => ?_, fun hfree => ⟨h, ⟨rfl, rfl⟩, hi, by omega⟩⟩
  have hneed : offs.length + 1 ≤ growTo 16 (offs.length + 1) s.c.cellStrOffsCap :=
    need_le_growTo (by decide)
  exact reallocate_post
    (fun h' => ⟨{ h with strOffs := h.strOffs.realloc (by omega) }, ⟨rfl, rfl⟩, hi, hneed⟩)
    fun h' => { h with }

theorem growRows_post : post (growRows rows.length)
    (fun _ s' => RowsHolding s' cells offs rows starts recorded ∧ SameText s s' ∧ s'.out = s.out ∧
      rows.length < s'.c.rowsCap)
    (fun _ s' => RowsHolding s' cells offs rows starts recorded) s := by
  have hle := h.rowsArr.length_le
  simp only [growRows, post_bind, post_get, post_ite, post_pure]
  refine ⟨fun hfull => ?_, fun hfree => ⟨h, ⟨rfl, rfl⟩, trivial, by omega⟩⟩
  have hneed : rows.length < if s.c.rowsCap ≠ 0 then s.c.rowsCap * 2 else 8 := by
    split_ifs <;> omega
  exact reallocate_post
    (fun h' => ⟨{ h with rowsArr := h.rowsArr.realloc (by omega) }, ⟨rfl, rfl⟩, rfl, hneed⟩)
    fun h' => { h with }

theorem growStarts_post {i : Nat} (hi : i < s.c.rowsCap) : post (growStarts starts.length)
    (fun _ s' => RowsHolding s' cells offs rows starts recorded ∧ SameText s s' ∧ s'.out = s.out ∧
      i < s'.c.rowsCap ∧ starts.length < s'.c.rowCellStartsCap)
    (fun _ s' => RowsHolding s' cells offs rows starts recorded) s := by
  have hle := h.rowStarts.length_le
  simp only [growStarts, post_bind, post_get, post_ite, post_pure]
  refine ⟨fun hfull => ?_, fun hfree => ⟨h, ⟨rfl, rfl⟩, trivial, hi, by omega⟩⟩
  have hneed : starts.length + 1 ≤ growTo 8 (starts.length + 1) s.c.rowCellStartsCap :=
    need_le_growTo (by decide)
  exact reallocate_post
    (fun h' => ⟨{ h with rowStarts := h.rowStarts.realloc (by omega) }, ⟨rfl, rfl⟩, rfl, hi, hneed⟩)
    fun h' => { h with }

/-! ## Writing -/

/-- A row is recorded behind the others. -/
theorem storeRow_post {start : Nat} (inRow : Nat) (hrows : rows.length < s.c.rowsCap)
    (hstarts : rows.length < s.c.rowCellStartsCap) (hstart : start = recorded) :
    post (storeRow rows.length start inRow)
      (fun _ s' => RowsHolding s' cells offs (rows ++ [⟨.unset, inRow⟩]) (starts ++ [start])
        (recorded + inRow) ∧ SameText s s')
      (fun _ _ => False) s := by
  have hlen : starts.length = rows.length := by rw [h.slices.length, List.length_map]
  obtain ⟨b₁, hb₁, h₁⟩ := h.rowStarts.push (hlen ▸ hstarts) start
  obtain ⟨b₂, hb₂, h₂⟩ := h.rowsArr.push hrows ⟨.unset, inRow⟩
  rw [hlen] at hb₁
  simp only [storeRow, post_bind, post_get, post_lift, post_modify, hb₁, hb₂, Except.ok.injEq,
    forall_eq']
  refine ⟨{ h with rowStarts := h₁, rowsArr := h₂, count := ?_, slices := ?_ }, rfl, rfl⟩
  · rw [List.length_append, List.length_singleton]
  · rw [List.map_append, hstart]
    exact h.slices.push inRow

/-- A cell is written behind the others, a null value at first. -/
theorem storeCell_post (cell : Cell) (hlt : cells.length < s.c.cellsCap) :
    post (storeCell cells.length cell)
      (fun _ s' => RowsHolding s' cells offs rows starts recorded ∧ SameText s s' ∧
        s'.c.cellsCap = s.c.cellsCap)
      (fun _ _ => False) s := by
  obtain ⟨b, hb, hcells⟩ := h.cellsArr.push hlt cell
  simp only [storeCell, post_bind, post_get, post_lift, post_modify, hb, Except.ok.injEq,
    forall_eq']
  exact ⟨{ h with cellsArr := hcells.init }, ⟨rfl, rfl⟩, trivial⟩

/-- A value is read into the cell behind the others. Where this fails, they are
    left as they are. -/
theorem readValue_post (lib : Libc) (l : Nat) (colid : Int64) (hcell : cells.length < s.c.cellsCap)
    (hoff : cells.length < s.c.cellStrOffsCap) (hsize : s.c.valuesBlob.len < SIZE_MAX) :
    post (readValue lib l cells.length colid)
      (fun _ s' => (∃ cell off,
        RowsHolding s' (cells ++ [cell]) (offs ++ [off]) rows starts recorded) ∧
        s'.c.valuesBlob.len + s'.w.p.length ≤ s.c.valuesBlob.len + s.w.p.length + 1)
      (fun _ s' => RowsHolding s' cells offs rows starts recorded) s := by
  have hlen : offs.length = cells.length := h.marked.length_eq.symm
  simp only [readValue, storeCell, storeStrOff, post_bind, post_get, post_lift, post_modify,
    post_ite,
    post_ret, post_pure]
  intro r hr
  have hkept := parseScalarInto_kept lib l s.w s.c.valuesBlob s.heap r hr
  obtain ⟨b₁, hb₁, h₁⟩ := h.cellsArr.push hcell ⟨colid, r.v⟩
  obtain ⟨b₂, hb₂, h₂⟩ := h.strOffs.push (hlen ▸ hoff) r.strOff
  rw [hlen] at hb₂
  simp only [hb₁, hb₂, Except.ok.injEq, forall_eq']
  -- The strings in the buffer stay where they are, and the new one stands behind them.
  rcases hkept.text with ⟨hv, hoff, hblob⟩ | ⟨hv, hoff, bytes, hdata, hcap⟩
  · refine ⟨fun _ => { h with cellsArr := h₁.init, strOffs := h₂.init, strung := ?_, blob := ?_ },
      fun _ => ⟨⟨⟨colid, r.v⟩, r.strOff,
      { h with cellsArr := h₁, strOffs := h₂, marked := ?_, strung := ?_, blob := ?_ }⟩,
        hkept.size⟩⟩
    · exact hblob ▸ h.strung
    · exact hblob ▸ h.blob
    · exact List.rel_append h.marked (.cons (by simp [hv, hoff]) .nil)
    · simpa [hoff, hblob] using h.strung
    · exact hblob ▸ h.blob
  · refine ⟨fun _ => { h with cellsArr := h₁.init, strOffs := h₂.init, strung := ?_, blob := hcap },
      fun _ => ⟨⟨⟨colid, r.v⟩, r.strOff,
      { h with cellsArr := h₁, strOffs := h₂, marked := ?_, strung := ?_, blob := hcap }⟩,
        hkept.size⟩⟩
    · rw [hdata]
      exact h.strung.append _
    · refine List.rel_append h.marked (.cons ⟨fun _ => ?_, fun _ => hv⟩ .nil)
      rw [hoff]
      exact hsize.ne
    · have hne : s.c.valuesBlob.len ≠ NO_OFFSET := hsize.ne
      simpa [hoff, hdata, hne] using h.strung.push bytes

omit h

/-! ## Steps -/

/-- What is kept of the response while the buffer of strings grows: a point between
    a column id and its value is a byte ahead. -/
def Point.ahead : Point → Nat
  | .cell .. => 1
  | .value .. => 1
  | _ => 0

/-- What every step keeps, in a response of `N` bytes. -/
structure Point.Kept (N : Nat) (p : Point) (s : PageState) : Prop where
  sound : p.Sound s
  fits : s.c.valuesBlob.len + s.w.p.length + p.ahead ≤ N

/-- What a step from a point keeps, on to the next point, to the end of the loop,
    or to a return. -/
abbrev Point.Steps (lib : Libc) (N : Nat) (p : Point) (s : PageState) : Prop :=
  post (p.step lib) (Sum.elim (Point.Kept N) fun global s' => Laid global global s')
    (fun _ => LeftLaid) s

namespace MovedOn

variable {s' : PageState} {N start : Nat} {k : Counters}

theorem laid {decoded : Nat} (hm : MovedOn s s') (hl : Laid recorded decoded s) :
    Laid recorded decoded s' := by
  obtain ⟨w, -, rfl⟩ := hm
  exact hl.move w

theorem inRowAt (hm : MovedOn s s') (hin : InRowAt start k s) : InRowAt start k s' := by
  obtain ⟨w, -, rfl⟩ := hm
  exact hin.move w

theorem fits {d : Nat} (hm : MovedOn s s') (hfits : s.c.valuesBlob.len + s.w.p.length + d ≤ N) :
    s'.c.valuesBlob.len + s'.w.p.length + d ≤ N := by
  obtain ⟨w, hw, rfl⟩ := hm
  have := hw.length_le
  simp only
  omega

end MovedOn

section

variable (lib : Libc) {N : Nat} {n m l start global : Nat} {k : Counters} {colid : Int64}

theorem row_steps (hk : Point.Kept N (.row n global) s) : Point.Steps lib N (.row n global) s := by
  cases n with
  | zero => trivial
  | succ n =>
  obtain ⟨hsound, hfits⟩ := hk
  have hleft : ∀ {s'}, MovedOn s s' → LeftLaid s' := fun h' =>
    ⟨global, global, Nat.le_refl _, h'.laid hsound⟩
  have hrow : ∀ {s'}, MovedOn s s' → InRowAt global ⟨global, 0, global⟩ s' := fun h' =>
    ⟨h'.laid hsound, rfl, rfl⟩
  refine CursorOnly.peek.then_post (fun ch s₁ h₁ => ?_) fun _ _ h' => hleft h'
  refine post_ite.2 ⟨fun _ => hleft h₁, fun _ => ?_⟩
  refine CursorOnly.advance.then_post (fun _ s₂ h₂ => ?_) fun _ _ h' => hleft (h₁.trans h')
  replace h₂ := h₁.trans h₂
  refine CursorOnly.skipWs.then_post (fun _ s₃ h₃ => ?_) fun _ _ h' => hleft (h₂.trans h')
  replace h₃ := h₂.trans h₃
  -- The cells of the rows so far are all there are.
  obtain ⟨cells, offs, rows, starts, hold, -⟩ := h₃.laid hsound
  have hsum : sumCounts s₃.c.rowsArr s₃.out.count = .ok global := by
    rw [hold.count, sumCounts_rows hold.rowsArr, hold.slices.total]
  refine post_bind.2 (post_get.2 (post_bind.2 (post_lift.2 fun total htotal => ?_)))
  obtain rfl := Except.ok.inj (hsum.symm.trans htotal)
  refine CursorOnly.peek.then_post (fun ch' s₄ h₄ => ?_) fun _ _ h' => hleft (h₃.trans h')
  replace h₄ := h₃.trans h₄
  refine post_ite.2 ⟨fun _ => ⟨hrow h₄, h₄.fits hfits⟩, fun _ => ?_⟩
  exact CursorOnly.advance.then_post (fun _ s₅ h₅ => ⟨hrow (h₄.trans h₅), (h₄.trans h₅).fits hfits⟩)
    fun _ _ h' => hleft (h₄.trans h')

theorem SameText.fits {s' : PageState} {d : Nat} (ht : SameText s s')
    (hfits : s.c.valuesBlob.len + s.w.p.length + d ≤ N) :
    s'.c.valuesBlob.len + s'.w.p.length + d ≤ N := by
  rwa [ht.blob, ht.w]

/-- In a row, a step that leaves the cells as they are. -/
theorem InRowAt.of_holding {s' : PageState} (hin : InRowAt start k s)
    (hold : RowsHolding s' cells offs rows starts start) (hlen : cells.length = k.total) :
    InRowAt start k s' :=
  ⟨⟨cells, offs, rows, starts, hold, hlen⟩, hin.inRow, hin.global⟩

theorem member_steps (hk : Point.Kept N (.member n start m k) s) :
    Point.Steps lib N (.member n start m k) s := by
  cases m with
  | zero => trivial
  | succ m =>
  obtain ⟨hsound, hfits⟩ := hk
  have hleft : ∀ {s'}, MovedOn s s' → LeftLaid s' := fun h' => (h'.inRowAt hsound).left
  have hbehind : ∀ {s'}, MovedOn s s' → Point.Kept N (.behind n start m k) s' := fun h' =>
    ⟨h'.inRowAt hsound, h'.fits hfits⟩
  refine CursorOnly.readKey.then_post (fun key s₁ h₁ => ?_) fun _ _ h' => hleft h'
  refine (CursorOnly.isArrayOf _ _ _).then_post (fun isCells s₂ h₂ => ?_) fun _ _ h' =>
    hleft (h₁.trans h')
  replace h₂ := h₁.trans h₂
  refine post_ite.2 ⟨fun _ => ?_, fun _ => ?_⟩
  · refine CursorOnly.advance.then_post (fun _ s₃ h₃ => ?_) fun _ _ h' => hleft (h₂.trans h')
    replace h₃ := h₂.trans h₃
    refine CursorOnly.skipWs.then_post (fun _ s₄ h₄ => ?_) fun _ _ h' => hleft (h₃.trans h')
    replace h₄ := h₃.trans h₄
    refine CursorOnly.peek.then_post (fun ch s₅ h₅ => ?_) fun _ _ h' => hleft (h₄.trans h')
    replace h₅ := h₄.trans h₅
    refine post_ite.2 ⟨fun _ => ?_, fun _ => ⟨h₅.inRowAt hsound, h₅.fits hfits⟩⟩
    exact CursorOnly.advance.then_post (fun _ _ h' => hbehind (h₅.trans h')) fun _ _ h' =>
      hleft (h₅.trans h')
  · exact (CursorOnly.parse (jpValue_movesOn m)).then_post (fun _ _ h' => hbehind (h₂.trans h'))
      fun _ _ h' => hleft (h₂.trans h')

theorem pair_steps (hk : Point.Kept N (.pair n start m l k) s) :
    Point.Steps lib N (.pair n start m l k) s := by
  cases l with
  | zero => trivial
  | succ l =>
  obtain ⟨hsound, hfits⟩ := hk
  refine post_bind.2 (readId_post (fun colid s₁ h₁ hlt => ?_) fun _ _ h' =>
    (h'.inRowAt hsound).left)
  have hin := h₁.inRowAt hsound
  obtain ⟨cells, offs, rows, starts, hold, hlen⟩ := hin.laid
  have hgrow := growCells_post hold
  rw [hlen] at hgrow
  refine post_bind.2 (post_mono hgrow (fun _ s₂ hpost => ?_) fun _ s₂ hold₂ =>
    (hin.of_holding hold₂ hlen).left)
  obtain ⟨hold₂, ht, hroom⟩ := hpost
  refine ⟨⟨hin.of_holding hold₂ hlen, hroom⟩, ht.fits ?_⟩
  -- The column id has taken a byte.
  obtain ⟨w, -, rfl⟩ := h₁
  simp only [Point.ahead] at hfits hlt ⊢
  omega

theorem cell_steps (hk : Point.Kept N (.cell n start m l k colid) s) :
    Point.Steps lib N (.cell n start m l k colid) s := by
  obtain ⟨⟨hin, hroom⟩, hfits⟩ := hk
  obtain ⟨cells, offs, rows, starts, hold, hlen⟩ := hin.laid
  have hstore := storeCell_post hold ⟨colid, .null⟩ (hlen ▸ hroom)
  rw [hlen] at hstore
  refine post_bind.2 (post_mono hstore (fun _ s₁ hpost => ?_) fun _ _ h' => h'.elim)
  obtain ⟨hold₁, ht₁, hcap⟩ := hpost
  have hgrow := growStrOffs_post hold₁ (hcap ▸ hroom)
  rw [← hold₁.marked.length_eq, hlen] at hgrow
  refine post_bind.2 (post_mono hgrow (fun _ s₂ hpost => ?_) fun _ s₂ hold₂ =>
    (hin.of_holding hold₂ hlen).left)
  obtain ⟨hold₂, ht₂, hcell, hoff⟩ := hpost
  exact ⟨⟨hin.of_holding hold₂ hlen, hcell, hoff⟩, ht₂.fits (ht₁.fits hfits)⟩

theorem value_steps (hN : N < SIZE_MAX) (hk : Point.Kept N (.value n start m l k colid) s) :
    Point.Steps lib N (.value n start m l k colid) s := by
  obtain ⟨⟨hin, hcell, hoff⟩, hfits⟩ := hk
  obtain ⟨cells, offs, rows, starts, hold, hlen⟩ := hin.laid
  simp only [Point.ahead] at hfits
  have hread := readValue_post hold lib l colid (hlen ▸ hcell) (hlen ▸ hoff) (by omega)
  rw [hlen] at hread
  refine post_bind.2 (post_mono hread (fun _ s₁ hpost => ?_) fun _ s₁ hold₁ =>
    (hin.of_holding hold₁ hlen).left)
  obtain ⟨⟨cell, off, hold₁⟩, hsize⟩ := hpost
  -- The counters count the cell.
  have hin₁ : InRowAt start k.next s₁ := by
    refine ⟨⟨_, _, rows, starts, hold₁, ?_⟩, ?_, rfl⟩
    · rw [List.length_append, hlen]
      rfl
    · rw [Counters.next, ← Nat.add_assoc, hin.inRow]
  have hfits₁ : s₁.c.valuesBlob.len + s₁.w.p.length + 0 ≤ N := by omega
  exact commaNext_post (fun _ h' => ⟨h'.inRowAt hin₁, h'.fits hfits₁⟩)
    (fun _ h' => ⟨h'.inRowAt hin₁, h'.fits hfits₁⟩) fun _ _ h' => (h'.inRowAt hin₁).left

theorem behind_steps (hk : Point.Kept N (.behind n start m k) s) :
    Point.Steps lib N (.behind n start m k) s :=
  commaNext_post (fun _ h' => ⟨h'.inRowAt hk.sound, h'.fits hk.fits⟩)
    (fun _ h' => ⟨h'.inRowAt hk.sound, h'.fits hk.fits⟩) fun _ _ h' => (h'.inRowAt hk.sound).left

theorem record_steps (hk : Point.Kept N (.record n start k) s) :
    Point.Steps lib N (.record n start k) s := by
  obtain ⟨hin, hfits⟩ := hk
  change InRowAt start k s at hin
  obtain ⟨cells, offs, rows, starts, hold, hlen⟩ := hin.laid
  have hgrow := growRows_post hold
  rw [← hold.count] at hgrow
  refine post_bind.2 (post_get.2 (post_bind.2 (post_mono hgrow
    (fun _ s₁ hpost => ?_) fun _ s₁ hold₁ =>
    (hin.of_holding hold₁ hlen).left)))
  obtain ⟨hold₁, ht₁, hout₁, hroom⟩ := hpost
  have hgrow' := growStarts_post hold₁ hroom
  rw [hold₁.slices.length, List.length_map, ← hold₁.count, hout₁] at hgrow'
  refine post_bind.2 (post_mono hgrow' (fun _ s₂ hpost => ?_)
    fun _ s₂ hold₂ => (hin.of_holding hold₂ hlen).left)
  obtain ⟨hold₂, ht₂, hout₂, hrow, hstart⟩ := hpost
  exact ⟨⟨hin.of_holding hold₂ hlen, by rw [hout₂], hstart, hrow⟩,
    ht₂.fits (ht₁.fits hfits)⟩

theorem store_steps {count : Nat} (hk : Point.Kept N (.store n start k count) s) :
    Point.Steps lib N (.store n start k count) s := by
  obtain ⟨⟨hin, hcount, hstart, hrow⟩, hfits⟩ := hk
  obtain ⟨cells, offs, rows, starts, hold, hlen⟩ := hin.laid
  rw [hcount, hold.count] at hstart hrow
  have hstore := storeRow_post hold k.inRow hrow hstart rfl
  rw [← hold.count, ← hcount] at hstore
  refine post_bind.2 (post_mono hstore (fun _ s₁ hpost => ?_) fun _ _ h' => h'.elim)
  obtain ⟨hold₁, ht⟩ := hpost
  -- All cells are those of recorded rows again.
  rw [hin.inRow] at hold₁
  have hlaid : Laid k.global k.global s₁ := by
    rw [hin.global]
    exact ⟨cells, offs, _, _, hold₁, hlen⟩
  exact commaNext_post (fun _ h' => ⟨h'.laid hlaid, h'.fits (ht.fits hfits)⟩)
    (fun _ h' => h'.laid hlaid) fun _ _ h' => ⟨_, _, Nat.le_refl _, h'.laid hlaid⟩

/-- Every step keeps what holds at a point. -/
theorem step_kept (hN : N < SIZE_MAX) (p : Point) (s : PageState) (hk : p.Kept N s) :
    p.Steps lib N s := by
  cases p with
  | row => exact row_steps lib hk
  | member => exact member_steps lib hk
  | pair => exact pair_steps lib hk
  | cell => exact cell_steps lib hk
  | value => exact value_steps lib hN hk
  | behind => exact behind_steps lib hk
  | record => exact record_steps lib hk
  | store => exact store_steps lib hk

end

/-! ## The response -/

/-- In front of the loop over the rows, the arrays are empty. -/
theorem openRows_post (recv : Bytes) (c : Scratch) (h : Heap) :
    post (openRows recv)
      (fun _ s => RowsHolding s [] [] [] [] 0 ∧
        s.c.valuesBlob.len + s.w.p.length + 0 ≤ recv.length)
      (fun _ _ => True) ⟨jpParseValue recv, c, ⟨.null, 0, false⟩, h⟩ := by
  refine post_bind.2 (post_modify.2 (post_bind.2 (post_lift.2 fun r _ =>
    post_bind.2 (post_modify.2 ?_))))
  -- From here on, only the cursor moves.
  have hstill : ∀ x : Decode Unit, CursorOnly x →
      post x (fun _ s => RowsHolding s [] [] [] [] 0 ∧
          s.c.valuesBlob.len + s.w.p.length + 0 ≤ recv.length)
        (fun _ _ => True) ⟨jpParseValue recv, Scratch.freed, ⟨.null, 0, r.2⟩, h⟩ := fun x hx => by
    refine post_mono (hx _) (fun _ s hpost => ?_) fun _ _ _ => trivial
    obtain ⟨w, hw, hs⟩ := hpost
    subst hs
    refine ⟨⟨isArray_nil, isArray_nil, isArray_nil, isArray_nil, rfl, .nil, .nil, .nil _,
      Nat.le_refl _⟩, ?_⟩
    simpa [Scratch.freed, Sbuf.empty, Sbuf.len, jpParseValue] using hw.length_le
  exact hstill _ (CursorOnly.peek.bind fun _ => .ite (.ret _) (CursorOnly.advance.bind fun _ =>
    CursorOnly.skipWs.bind fun _ => CursorOnly.peek.bind fun _ => .ite (.ret _)
      ((CursorOnly.keyLoop _).bind fun _ => .ite (.ret _) (CursorOnly.advance.bind fun _ =>
        (CursorOnly.move (f := fun j => { j with ok := true }) fun _ =>
          List.suffix_rfl).bind fun _ => CursorOnly.skipWs.bind fun _ =>
          CursorOnly.peek.bind fun _ => .ite (.ret _) (.pure _)))))

/-- At every point the decoding of a response passes, what is about to be written is
    within its array, and the arrays hold what is counted. From there, the decoding
    goes on to such a point, or leaves the arrays so. -/
theorem PagePasses.sound {lib : Libc} {recv : Bytes} {c : Scratch} {h : Heap} {p : Point}
    {s : PageState} (hsize : recv.length < SIZE_MAX) (hp : PagePasses lib recv c h p s) :
    p.Sound s ∧ wp (p.step lib) (Sum.elim Point.Sound fun global s' => Laid global global s')
      (fun _ => LeftLaid) s := by
  have hleft := hp.left_eq
  obtain ⟨s₀, hopen, hreach⟩ := hp
  have hpost := openRows_post recv c h
  rw [post] at hpost
  rw [hopen] at hpost
  have hopened : Point.Kept recv.length (.row (fuelFor recv) 0) s₀ :=
    ⟨⟨[], [], [], [], hpost.1, rfl⟩, hpost.2⟩
  have hkept : p.Kept recv.length s := hreach.keeps (step_kept lib hsize) hopened
  refine ⟨hkept.sound, wp_of_post (post_mono (step_kept lib hsize p s hkept) (fun x s' hx => ?_)
    fun _ _ h => h) fun f hf => ?_⟩
  · cases x with
    | inl q => exact hx.sound
    | inr global => exact hx
  · -- The decoding as a whole does not fault.
    obtain ⟨e, s', hd, -⟩ := decodePage_ends lib recv c h
    have hfault : (p.left lib >>= resolve) s = .fault f :=
      fault_of_bind (by rw [follows_left lib p, fault_of_bind hf])
    rw [decodePage, hleft, hfault] at hd
    cases hd

end MongrelDB
