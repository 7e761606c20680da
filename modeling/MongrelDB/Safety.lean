import MongrelDB.Page.Body
import MongrelDB.Tables.Body

/-!
# Safety of the walks

On an arbitrary buffer, no entry point of the parser faults: none reads at or
past the end of the buffer, moves its cursor past it, computes a negative length
or runs out of fuel. A cursor is only ever moved forward (`MovesOn`), and
`jp_value` moves it by a byte at least if it succeeds (`parsers_safe`).
-/

namespace MongrelDB

open Ascii Prog

/-! ## The parser -/

/-- What a computation leaves, if it does not fault. -/
def Leaves {α : Type} (x : Run α) (Q : α → Prop) : Prop := ∀ a, x = .ok a → Q a

namespace Leaves

variable {α β : Type} {x : Run α} {Q : α → Prop}

theorem ok {a : α} (h : Q a) : Leaves (.ok a) Q := fun _ ha => Except.ok.inj ha ▸ h

theorem error {f : Fault} : Leaves (.error f : Run α) Q := fun _ ha => by cases ha

theorem bind {f : α → Run β} {R : β → Prop} (hx : Leaves x Q) (hf : ∀ a, Q a → Leaves (f a) R) :
    Leaves (x >>= f) R := by
  cases x with
  | error e => exact error
  | ok a => exact hf a (hx a rfl)

/-- What the first part leaves does not matter. -/
theorem bind_any {f : α → Run β} {R : β → Prop} (hf : ∀ a, Leaves (f a) R) :
    Leaves (x >>= f) R := bind (Q := fun _ => True) (fun _ _ => trivial) fun a _ => hf a

theorem ite {c : Prop} [Decidable c] {y : Run α} (hx : Leaves x Q) (hy : Leaves y Q) :
    Leaves (if c then x else y) Q := by
  split_ifs
  · exact hx
  · exact hy

theorem mono {R : α → Prop} (hx : Leaves x Q) (h : ∀ a, Q a → R a) : Leaves x R :=
  fun a ha => h a (hx a ha)

end Leaves

/-- A call that moves the cursor forward only. -/
def MovesOn (f : JsonParser → Run JsonParser) : Prop := ∀ j, Leaves (f j) fun j' => j'.p <:+ j.p

/-- Calls one after the other. -/
theorem MovesOn.after {f : JsonParser → Run JsonParser} (hf : MovesOn f) {j : JsonParser}
    {p : Bytes} (h : j.p <:+ p) : Leaves (f j) fun j' => j'.p <:+ p :=
  (hf j).mono fun _ h' => h'.trans h

theorem bump_movesOn : MovesOn JsonParser.bump := by
  rintro ⟨_ | ⟨c, r⟩, ok⟩
  · exact .error
  · exact .ok (List.suffix_cons c r)

theorem jpString_movesOn : MovesOn jpString := fun j =>
  (bump_movesOn j).bind fun j' h => .ok ((jpStringLoop_spec j'.ok j'.p).suffix.trans h)

/-- The loop of an array, if `jp_value` moves on. -/
theorem jpArrayLoop_movesOn {n : Nat} (hv : MovesOn (jpValue n)) (hl : MovesOn (jpArrayLoop n)) :
    MovesOn (jpArrayLoop (n + 1)) := by
  intro j
  rw [jpArrayLoop]
  refine (hv j).bind fun j₁ h₁ => .ite (.ok h₁) ?_
  have h₂ := (jpPeek_suffix j₁).trans h₁
  exact .ite ((bump_movesOn.after h₂).bind fun _ h₃ => hl.after h₃)
    (.ite (bump_movesOn.after h₂) (.ok h₂))

/-- The loop of an object, if `jp_value` moves on. -/
theorem jpObjectLoop_movesOn {n : Nat} (hv : MovesOn (jpValue n)) (hl : MovesOn (jpObjectLoop n)) :
    MovesOn (jpObjectLoop (n + 1)) := by
  intro j
  rw [jpObjectLoop, jpPeek_skipWs]
  have h₁ := jpPeek_suffix j
  refine .ite (.ok h₁) ((jpString_movesOn.after h₁).bind fun j₂ h₂ => .ite (.ok h₂) ?_)
  have h₃ := (jpPeek_suffix j₂).trans h₂
  refine .ite (.ok h₃) ((bump_movesOn.after h₃).bind fun _ h₄ => (hv.after h₄).bind fun j₅ h₅ =>
    .ite (.ok h₅) ?_)
  have h₆ := (jpPeek_suffix j₅).trans h₅
  exact .ite ((bump_movesOn.after h₆).bind fun _ h₇ => hl.after h₇)
    (.ite (bump_movesOn.after h₆) (.ok h₆))

theorem jpArray_movesOn {n : Nat} (hl : MovesOn (jpArrayLoop n)) : MovesOn (jpArray (n + 1)) := by
  intro j
  rw [jpArray]
  refine (bump_movesOn j).bind fun j₁ h₁ => ?_
  have h₂ := (jpPeek_suffix (jpSkipWs j₁)).trans ((List.dropWhile_suffix _).trans h₁)
  exact .ite (bump_movesOn.after h₂) (hl.after h₂)

theorem jpObject_movesOn {n : Nat} (hl : MovesOn (jpObjectLoop n)) :
    MovesOn (jpObject (n + 1)) := by
  intro j
  rw [jpObject]
  refine (bump_movesOn j).bind fun j₁ h₁ => ?_
  have h₂ := (jpPeek_suffix (jpSkipWs j₁)).trans ((List.dropWhile_suffix _).trans h₁)
  exact .ite (bump_movesOn.after h₂) (hl.after h₂)

theorem parser_movesOn (n : Nat) :
    MovesOn (jpValue n) ∧ MovesOn (jpArrayLoop n) ∧ MovesOn (jpObjectLoop n) ∧
      MovesOn (jpArray n) ∧ MovesOn (jpObject n) := by
  induction n with
  | zero =>
    exact ⟨fun _ => .error, fun _ => .error, fun _ => .error, fun _ => .error, fun _ => .error⟩
  | succ n ih =>
    obtain ⟨hv, hal, hol, ha, ho⟩ := ih
    refine ⟨fun j => ?_, jpArrayLoop_movesOn hv hal, jpObjectLoop_movesOn hv hol,
      jpArray_movesOn hal, jpObject_movesOn hol⟩
    have h₁ := jpPeek_suffix j
    rw [jpValue]
    split
    rename_i ch j₁ hp
    rw [hp] at h₁
    cases ch with
    | none => exact .ok h₁
    | some c =>
      -- Whatever stands at the cursor is walked over from there.
      exact .ite (jpString_movesOn.after h₁) (.ite (ho.after h₁) (.ite (ha.after h₁)
        (.ite (.ok ((List.dropWhile_suffix _).trans h₁))
          (.ite (.ok ((List.dropWhile_suffix _).trans h₁)) (.ok h₁)))))

theorem jpValue_movesOn (n : Nat) : MovesOn (jpValue n) := (parser_movesOn n).1

theorem parseScalarInto_suffix (lib : Libc) (n : Nat) (j : JsonParser) (blob : Sbuf) (h : Heap) :
    Leaves (parseScalarInto lib n j blob h) fun r => r.j.p <:+ j.p := by
  have hkeep : ∀ {j' : JsonParser} {tag : BlobPtr → Value} {len : Nat} {bytes : Bytes},
      j'.p <:+ j.p → Leaves (keepText j' tag len bytes blob h) fun r => r.j.p <:+ j.p :=
      fun hj => by
    rw [keepText]
    exact .ite (.ok hj) (.bind_any fun _ => .ok hj)
  have h₁ := jpPeek_suffix j
  have hdrop : ∀ {p : UInt8 → Bool}, (jpPeek j).2.p.dropWhile p <:+ j.p :=
    (List.dropWhile_suffix _).trans h₁
  rw [parseScalarInto]
  cases hp : jpPeek j with
  | mk ch j₁ =>
    rw [hp] at h₁ hdrop
    cases ch with
    | none => exact .ok h₁
    | some c =>
      simp only
      refine .ite ?_ (.ite ?_ (.ite ?_ (.ite ?_ (.ite (.ok hdrop) (.ok h₁)))))
      · -- A string.
        exact .bind_any fun _ => (jpString_movesOn.after h₁).bind fun j₂ h₂ =>
          .ite (.ok h₂) (.bind_any fun _ => .bind_any fun _ => hkeep h₂)
      · exact .bind_any fun _ => .bind_any fun _ => .ok hdrop
      · exact .bind_any fun _ => .bind_any fun _ => .ite (.ok hdrop) (.ok hdrop)
      · -- An array or an object.
        exact ((jpValue_movesOn n).after h₁).bind fun j₂ h₂ =>
          .ite (.ok h₂) (.bind_any fun _ => .bind_any fun _ => hkeep h₂)

/-! ## The page -/

/-- The cursor stays within the buffer, also if there is an early return. -/
def Within {α : Type} (buf : Bytes) (x : Decode α) : Prop := ∀ s, s.w.p <:+ buf →
  match x s with
  | .val _ s' => s'.w.p <:+ buf
  | .ret _ s' => s'.w.p <:+ buf
  | .fault _ => True

namespace Within

variable {α β : Type} {buf : Bytes}

theorem pure {a : α} : Within buf (Pure.pure a : Decode α) := fun _ h => h

theorem ret {e : Code} : Within buf (Prog.ret e : Decode α) := fun _ h => h

theorem fault {f : Fault} : Within buf (Prog.fault f : Decode α) := fun _ _ => trivial

theorem modify {f : PageState → PageState} (hf : ∀ s, s.w.p <:+ buf → (f s).w.p <:+ buf) :
    Within buf (Prog.modify f : Decode Unit) := hf

theorem bind {x : Decode α} {f : α → Decode β} (hx : Within buf x) (hf : ∀ a, Within buf (f a)) :
    Within buf (x >>= f) := fun s hs => by
  have h := hx s hs
  change match Prog.bind x f s with
    | .val _ s' => s'.w.p <:+ buf
    | .ret _ s' => s'.w.p <:+ buf
    | .fault _ => True
  rw [Prog.bind]
  cases hrun : x s with
  | val a s' => rw [hrun] at h; exact hf a s' h
  | ret e s' => rw [hrun] at h; exact h
  | fault f => trivial

/-- The state that is got has its cursor within the buffer. -/
theorem get {f : PageState → Decode β} (hf : ∀ s, s.w.p <:+ buf → Within buf (f s)) :
    Within buf (Prog.get >>= f) := fun s hs => hf s hs s hs

theorem lift {x : Run α} {Q : α → Prop} (hx : Leaves x Q) {f : α → Decode β}
    (hf : ∀ a, Q a → Within buf (f a)) : Within buf (Prog.lift x >>= f) := by
  cases x with
  | error e => exact fun _ _ => trivial
  | ok a => exact fun s hs => hf a (hx a rfl) s hs

/-- A computation of which only the end matters. -/
theorem lift' {x : Run α} {f : α → Decode β} (hf : ∀ a, Within buf (f a)) :
    Within buf (Prog.lift x >>= f) := lift (Q := fun _ => True) (fun _ _ => trivial) fun a _ => hf a

theorem ite {c : Prop} [Decidable c] {x y : Decode α} (hx : Within buf x) (hy : Within buf y) :
    Within buf (if c then x else y) := by
  split_ifs
  · exact hx
  · exact hy

theorem peek : Within buf MongrelDB.peek := fun s hs => (jpPeek_suffix s.w).trans hs

theorem skipWs : Within buf MongrelDB.skipWs := modify fun _ h => (List.dropWhile_suffix _).trans h

theorem advance : Within buf MongrelDB.advance :=
  get fun _ hs => lift (bump_movesOn.after hs) fun _ h => modify fun _ _ => h

theorem parse {f : JsonParser → Run JsonParser} (hf : MovesOn f) :
    Within buf (MongrelDB.parse f) :=
  get fun _ hs => lift (hf.after hs) fun _ h => (modify fun _ _ => h).bind fun _ => ite ret pure

theorem commaLoop {step : Nat → α → Decode α} (hstep : ∀ n a, Within buf (step n a))
    (close : UInt8) (behind : Bool) (n : Nat) (a : α) :
    Within buf (commaLoop step close behind n a) := by
  induction n generalizing a with
  | zero => exact fault
  | succ n ih =>
    rw [MongrelDB.commaLoop]
    exact (hstep n a).bind fun a => peek.bind fun _ => ite (advance.bind fun _ => ih a)
      (ite (ite (advance.bind fun _ => pure) pure) ret)

theorem readKey : Within buf MongrelDB.readKey :=
  peek.bind fun _ => ite ret (get fun _ _ => lift' fun _ => (parse jpString_movesOn).bind fun _ =>
    get fun _ _ => lift' fun _ => peek.bind fun _ => ite ret (advance.bind fun _ => pure))

theorem isArrayOf (key kstart : Bytes) (klen : Nat) :
    Within buf (MongrelDB.isArrayOf key kstart klen) :=
  lift' fun _ => ite (peek.bind fun _ => pure) pure

/-- A part that moves no cursor. -/
theorem still {f : PageState → PageState} (hf : ∀ s, (f s).w = s.w) :
    Within buf (Prog.modify f : Decode Unit) := modify fun s hs => by rwa [hf s]

theorem reallocate (ncap size : Nat) : Within buf (MongrelDB.reallocate ncap size) :=
  get fun s _ => by
    rcases s.heap.request (ncap * size) with ⟨granted, h⟩
    refine bind (still fun _ => rfl) fun _ => ?_
    exact ite ret pure

theorem growCells (total : Nat) : Within buf (MongrelDB.growCells total) :=
  get fun _ _ => ite ((reallocate _ _).bind fun _ => still fun _ => rfl) pure

theorem growStrOffs (total : Nat) : Within buf (MongrelDB.growStrOffs total) :=
  get fun _ _ => ite ((reallocate _ _).bind fun _ => still fun _ => rfl) pure

theorem growRows (count : Nat) : Within buf (MongrelDB.growRows count) :=
  get fun _ _ => ite ((reallocate _ _).bind fun _ => still fun _ => rfl) pure

theorem growStarts (count : Nat) : Within buf (MongrelDB.growStarts count) :=
  get fun _ _ => ite ((reallocate _ _).bind fun _ => still fun _ => rfl) pure

theorem storeCell (i : Nat) (cell : Cell) : Within buf (MongrelDB.storeCell i cell) :=
  get fun _ _ => lift' fun _ => still fun _ => rfl

theorem storeStrOff (i off : Nat) : Within buf (MongrelDB.storeStrOff i off) :=
  get fun _ _ => lift' fun _ => still fun _ => rfl

theorem readValue (lib : Libc) (n i : Nat) (colid : Int64) :
    Within buf (MongrelDB.readValue lib n i colid) :=
  get fun s hs => lift ((parseScalarInto_suffix lib n s.w s.c.valuesBlob s.heap).mono
      fun _ h => h.trans hs) fun _ h => (modify fun _ _ => h).bind fun _ =>
    (storeCell _ _).bind fun _ => (storeStrOff _ _).bind fun _ => ite ret pure

theorem readPair (lib : Libc) (n total : Nat) : Within buf (MongrelDB.readPair lib n total) := by
  have hcell : ∀ colid, Within buf (readCell lib n total colid) := fun colid =>
    (growCells total).bind fun _ => (storeCell _ _).bind fun _ => (growStrOffs total).bind fun _ =>
      readValue lib n total colid
  have hnumber : MovesOn fun j => .ok (jpNumber j) := fun _ => .ok (List.dropWhile_suffix _)
  exact peek.bind fun _ => ite ret (get fun _ _ => (parse hnumber).bind fun _ => get fun _ _ =>
    lift' fun _ => lift' fun _ => peek.bind fun _ => ite (advance.bind fun _ => hcell _) (hcell _))

theorem readMember (lib : Libc) (n : Nat) (k : Counters) :
    Within buf (MongrelDB.readMember lib n k) := by
  have hpair : ∀ n k, Within buf (countPair lib n k) := fun n k =>
    (readPair lib n k.total).bind fun _ => pure
  have hloop : Within buf (cellsLoop lib n k) := commaLoop hpair _ _ _ _
  have hcells : Within buf (readCells lib n k) :=
    advance.bind fun _ => skipWs.bind fun _ => peek.bind fun _ =>
      ite (advance.bind fun _ => pure) hloop
  exact readKey.bind fun _ => (isArrayOf _ _ _).bind fun _ =>
    ite hcells ((parse (jpValue_movesOn n)).bind fun _ => pure)

theorem readRow (lib : Libc) (n global : Nat) : Within buf (MongrelDB.readRow lib n global) := by
  have hrecord : ∀ start inRow, Within buf (recordRow start inRow) := fun start inRow =>
    get fun _ _ => (growRows _).bind fun _ => (growStarts _).bind fun _ => get fun _ _ =>
      lift' fun _ => get fun _ _ => lift' fun _ => still fun _ => rfl
  have hloop : ∀ k, Within buf (rowLoop lib n k) := fun k => commaLoop (readMember lib) _ _ _ _
  exact peek.bind fun _ => ite ret (advance.bind fun _ => skipWs.bind fun _ => get fun _ _ =>
    lift' fun _ => peek.bind fun _ => ite
      ((hloop _).bind fun _ => (hrecord _ _).bind fun _ => pure)
      (advance.bind fun _ => pure.bind fun _ => (hrecord _ _).bind fun _ => pure))

theorem keyLoop (n : Nat) : Within buf (MongrelDB.keyLoop n) := by
  induction n with
  | zero => exact fault
  | succ n ih =>
    rw [MongrelDB.keyLoop]
    exact skipWs.bind fun _ => readKey.bind fun _ => (isArrayOf _ _ _).bind fun _ => ite pure
      ((parse (jpValue_movesOn n)).bind fun _ => peek.bind fun _ =>
        ite (advance.bind fun _ => ih) (ite pure ret))

theorem decodeRows (lib : Libc) (recv : Bytes) : Within buf (MongrelDB.decodeRows lib recv) := by
  have hresolve : ∀ global, Within buf (resolve global) := fun global =>
    get fun _ _ => lift' fun _ => lift' fun _ => still fun _ => rfl
  have hrows : ∀ n, Within buf (rowsLoop lib n 0) := fun n => commaLoop (readRow lib) _ _ _ _
  refine advance.bind fun _ => (modify ?_).bind fun _ => skipWs.bind fun _ =>
    peek.bind fun _ => ite ret ((hrows _).bind fun _ => hresolve _)
  exact fun _ h => h

/-- The whole decoding keeps its cursor within the response. -/
theorem pageBody (lib : Libc) (recv : Bytes) : Within recv (MongrelDB.pageBody lib recv) := by
  have hobject : Within recv (decodeObject lib recv) :=
    skipWs.bind fun _ => peek.bind fun _ => ite ret ((keyLoop _).bind fun _ =>
      ite ret (decodeRows lib recv))
  refine bind (still fun _ => rfl) fun _ => lift' fun _ => bind (modify ?_) fun _ =>
    bind peek fun _ => ?_
  · exact fun _ _ => List.suffix_refl recv
  · exact ite ret (advance.bind fun _ => hobject)

end Within

/-! ## The entry points -/

/-- No entry point faults on the buffer `src`: each ends, with its cursor within
    the buffer. -/
structure SafeOn (lib : Libc) (src : Bytes) : Prop where
  /-- `jp_value`, from any cursor into the buffer; it advances if it succeeds. -/
  value : ∀ j : JsonParser, j.p <:+ src → Ends (jpValue (fuelFor src) j) fun j' =>
    j'.p <:+ j.p ∧ (j'.ok = true → j'.p.length < j.p.length)
  /-- The walk the lookups share. -/
  find : ∀ starts key, Ends (jsonFind starts src key) fun f => ∀ j, f = .at j → j.p <:+ src
  string : ∀ key h, Ends (jsonGetString src key h) fun _ => True
  number : ∀ key, Ends (jsonGetNumber lib src key) fun _ => True
  bool : ∀ key, Ends (jsonGetBool src key) fun _ => True
  object : ∀ key, Ends (jsonGetObjectRaw src key) fun _ => True
  /-- The walk of `mongreldb_query_page`, whatever the allocator does. -/
  page : ∀ c h, wp (pageBody lib src) (fun _ s => s.w.p <:+ src) (fun _ s => s.w.p <:+ src)
    (atCall src c h)
  /-- The loop of `mongreldb_table_names`, behind the opening bracket. -/
  namesLoop : ∀ t h, t <:+ src → wp (namesLoop (fuelFor src) ⟨t, true⟩) (fun j _ => j.p <:+ t)
    (fun _ _ => True) ⟨.freed, ⟨.null, 0⟩, h⟩
  names : ∀ c h, Ends (decodeNames src c h) fun _ => True

theorem parsers_safe (lib : Libc) (src : Bytes) : SafeOn lib src where
  value j hj := by
    have hlen := hj.length_le
    refine (jpValue_spec (n := fuelFor src) (by unfold fuelFor; omega)).mono fun j' h' =>
      ⟨h'.suffix, ?_⟩
    exact fun hok => (h'.sound hok).2.length_lt
  find starts key := (jsonFind_spec starts src key).mono fun f hf j hj => by
    subst hj
    exact hf.2.1
  string key h := by
    obtain ⟨r, hr, -⟩ := jsonGetString_ends src key h
    exact ⟨r, hr, trivial⟩
  number key := jsonGetNumber_ends lib src key
  bool key := jsonGetBool_ends src key
  object key := jsonGetObjectRaw_ends src key
  page c h := by
    have hwithin := Within.pageBody lib src (atCall src c h) (List.suffix_refl src)
    obtain ⟨e, s, hs, -⟩ := decodePage_ends lib src c h
    rw [decodePage] at hs
    rw [wp]
    -- A fault of the walk would be one of the decoding.
    cases hrun : pageBody lib src (atCall src c h) with
    | val a s' => rw [hrun] at hwithin; exact hwithin
    | ret e s' => rw [hrun] at hwithin; exact hwithin
    | fault f => rw [hrun] at hs; cases hs
  namesLoop t h ht := by
    have hlen := ht.length_le
    refine wp_mono (namesLoop_ends (named_empty h) rfl (by simp only [fuelFor]; omega))
      (fun j s' hread => ?_) fun _ _ _ => trivial
    obtain ⟨x, xs, hr, -⟩ := hread
    change t = _ at hr
    exact ⟨spacedText NameText.text (x :: xs) ++ [rbrack], by simp [hr]⟩
  names c h := by
    obtain ⟨e, s, hs, -⟩ := decodeNames_ends src c h
    exact ⟨_, hs, trivial⟩

end MongrelDB
