import MongrelDB.Api
import MongrelDB.Client.Delivery
import MongrelDB.Serialize.Text
import MongrelDB.Tables.Body

/-!
# Listing the names

What a caller of `mongreldb_table_names` reads. A name is appended to the buffer as it
stands between its quotes, so that the escapes of it are still there: the caller
reads the names of the server exactly if none of them has a character that is escaped
(`mongreldbTableNames_lists_iff`).
-/

namespace MongrelDB

open Ascii Prog

/-! ## Escapes -/

/-- A character that `json_escape` leaves as it is. -/
def isPlainChar (c : UInt8) : Bool := 32 ≤ c && c != quote && c != backslash

theorem escapeChar_plain : ∀ c, isPlainChar c = true → escapeChar c = [c] := forall_byte (by decide)

theorem two_le_escapeChar : ∀ c, isPlainChar c = false → 2 ≤ (escapeChar c).length :=
  forall_byte (by decide)

theorem length_le_escaped (s : Bytes) : s.length ≤ (s.flatMap escapeChar).length := by
  have hpos : ∀ c : UInt8, 1 ≤ (escapeChar c).length := forall_byte (by decide)
  induction s with
  | nil => exact Nat.le_refl _
  | cons c s ih =>
    have hc := hpos c
    rw [List.flatMap_cons, List.length_append, List.length_cons]
    omega

/-- A string is written as itself exactly if it has no character that is escaped. -/
theorem escape_eq_iff (s : Bytes) : s.flatMap escapeChar = s ↔ ∀ c ∈ s, isPlainChar c = true := by
  induction s with
  | nil => simp
  | cons c s ih =>
    rw [List.flatMap_cons, List.forall_mem_cons, ← ih]
    cases hc : isPlainChar c with
    | true => rw [escapeChar_plain c hc, List.singleton_append, List.cons_inj_right]; simp
    | false =>
      -- An escape is longer than its character, and what is behind it is not shorter.
      refine iff_of_false (fun h => ?_) fun h => absurd h.1 Bool.false_ne_true
      have hlen := congrArg List.length h
      have htwo := two_le_escapeChar c hc
      have hle := length_le_escaped s
      rw [List.length_append, List.length_cons] at hlen
      omega

/-- A string as it is written, between its quotes. -/
def escaped (s : CStr) : CStr :=
  ⟨s.bytes.flatMap escapeChar, zero_notMem_stringBody (escape_spec s.noNul).1⟩

theorem escaped_eq_iff (s : CStr) : escaped s = s ↔ ∀ c ∈ s.bytes, isPlainChar c = true := by
  rw [CStr.ext_iff]
  exact escape_eq_iff s.bytes

/-! ## The strings in the buffer -/

namespace NameList

variable {L : NameList}

/-- The strings at the offsets. -/
def reads (L : NameList) : List CStr := L.offs.map fun off => CStr.at (L.blob.data.drop off)

/-- There is a NUL behind each offset. -/
def Terminated (L : NameList) : Prop := ∀ off ∈ L.offs, (0 : UInt8) ∈ L.blob.data.drop off

/-- What is appended behind a string leaves it as it is. -/
theorem drop_append {b : Bytes} {off : Nat} (hb : (0 : UInt8) ∈ b.drop off) (r : Bytes) :
    (b ++ r).drop off = b.drop off ++ r := by
  refine List.drop_append_of_le_length ?_
  by_contra hlt
  rw [List.drop_eq_nil_of_le (by omega)] at hb
  exact List.not_mem_nil hb

theorem addName_offs (x : NameText) : (L.addName x).offs = L.offs ++ [L.blob.len] := by
  simp [addName, append]

theorem Terminated.addName (hL : L.Terminated) (x : NameText) : (L.addName x).Terminated := by
  intro off hoff
  rw [addName_offs] at hoff
  rw [blob_addName]
  rcases List.mem_append.1 hoff with hoff | hoff
  · rw [drop_append (hL off hoff)]
    exact List.mem_append_left _ (hL off hoff)
  · obtain rfl := List.mem_singleton.1 hoff
    rw [List.drop_left]
    simp

/-- A name is read as it stands between its quotes, and the others are still read. -/
theorem reads_addName (hL : L.Terminated) (x : NameText) :
    (L.addName x).reads = L.reads ++ [CStr.at (x.tok.raw ++ [0])] := by
  rw [reads, addName_offs, List.map_append, blob_addName, List.map_singleton, List.drop_left, reads]
  congr 1
  refine List.map_congr_left fun off hoff => ?_
  rw [drop_append (hL off hoff), CStr.at_append (hL off hoff)]

theorem reads_addNames (hL : L.Terminated) (xs : List (NameText × Ws)) :
    (L.addNames xs).reads = L.reads ++ xs.map fun x => CStr.at (x.1.tok.raw ++ [0]) := by
  induction xs generalizing L with
  | nil => rw [List.map_nil, List.append_nil]; rfl
  | cons x xs ih =>
    have h := ih (hL.addName x.1)
    rw [reads_addName hL, List.append_assoc] at h
    exact h

end NameList

/-! ## The caller -/

/-- The string at a slot of the array of names. -/
def NamesScratch.nameAt (c : NamesScratch) (i : Nat) : Option CStr :=
  match c.namesArr.get? i with
  | some (.ptr off) => some (CStr.at (c.namesBlob.data.drop off))
  | _ => none

/-- The caller reads these names, and `NULL` behind the last one. -/
structure NamesShown (names : List CStr) (out : NamesResult) (c : NamesScratch) : Prop where
  array : out.names = .array
  count : out.count = names.length
  name : ∀ i (hi : i < names.length), c.nameAt i = some names[i]
  last : c.namesArr.get? names.length = some .null

/-- What is delivered is shown. -/
theorem Delivered.shown {L : NameList} {s : NamesState} (h : Delivered L s) :
    NamesShown L.reads s.out s.c := by
  have hlen : L.reads.length = L.offs.length := List.length_map _
  refine ⟨by rw [h.out], by rw [h.out, hlen], fun i hi => ?_, ?_⟩
  · rw [hlen] at hi
    have hget := h.arr.get? (i := i) (by simp; omega)
    rw [List.getElem_append_left (by simpa using hi), List.getElem_map] at hget
    rw [NamesScratch.nameAt, hget, h.blob]
    simp [NameList.reads]
  · have hget := h.arr.get? (i := L.offs.length) (by simp)
    rw [hlen, hget]
    simp

theorem NamesShown.unique {xs ys : List CStr} {out : NamesResult} {c : NamesScratch}
    (hxs : NamesShown xs out c) (hys : NamesShown ys out c) : xs = ys := by
  refine List.ext_getElem (hxs.count.symm.trans hys.count) fun i hi hi' => ?_
  exact Option.some.inj ((hxs.name i hi).symm.trans (hys.name i hi'))

/-! ## The response -/

/-- The array of these names, each as it is escaped by `json_escape`. -/
def namesJson (names : List CStr) : Bytes :=
  lbrack :: ((separated jsonEscape names).flatten ++ [rbrack])

/-- The names as they stand in the response. -/
def nameTexts (names : List CStr) : List (NameText × Ws) :=
  names.map fun name => (⟨Ws.none, strTok name⟩, Ws.none)

theorem namesJson_opens (names : List CStr) : OpensArray (namesJson names)
    (spacedText NameText.text (nameTexts names) ++ (Ws.none.bytes ++ rbrack :: [])) := by
  refine ⟨Ws.none, ?_⟩
  have htexts : ∀ name : CStr, NameText.text ⟨Ws.none, strTok name⟩ ++ Ws.none.bytes =
      (jsonEscape name).flatten := fun name => by
    rw [flatten_jsonEscape]
    simp [NameText.text, Json.text, Ws.none]
  rw [namesJson, flatten_separated, spacedText, nameTexts, List.map_map]
  simp only [Function.comp_def, htexts]
  simp [Ws.none]

/-- The names are read as they stand in the response. -/
theorem reads_nameTexts (names : List CStr) :
    (NameList.empty.addNames (nameTexts names)).reads = names.map escaped := by
  rw [NameList.reads_addNames fun _ h => absurd h List.not_mem_nil, nameTexts, List.map_map]
  refine List.map_congr_left fun name _ => ?_
  exact CStr.at_self (escaped name) []

variable {names : List CStr} {s : Session}

/-- The names are listed as they stand in the response. -/
theorem mongreldbTableNames_delivers (hs : s.Answered (.lit "/tables") (namesJson names))
    (hheap : s.heaps.decode.Succeeds) :
    wp (mongreldbTableNames true true)
      (fun out s' => names = [] ∧ out = ⟨.null, 0⟩ ∨
        names ≠ [] ∧ NamesShown (names.map escaped) out s'.c.names) (fun _ _ => False) s := by
  have hsize : (namesJson names).length < SIZE_MAX :=
    lt_of_le_of_lt hs.delivers.short (by decide)
  refine wp_seq (doRequest_answered hs _ _) fun _ s₁ h₁ => ?_
  obtain ⟨e, st, hnames, hend⟩ := decodeNames_text (c := s₁.c.names) (h := s₁.heaps.decode)
    (namesJson_opens names) rfl hsize
  rw [takeNames]
  simp only [wp_bind, wp_get, h₁.recv]
  refine wp_lift hnames ?_
  dsimp only
  rcases hend with ⟨rfl, ⟨hnil, hout⟩ | ⟨hne, hdelivered⟩⟩ | hrefused
  · rw [if_neg (by decide)]
    exact .inl ⟨List.map_eq_nil_iff.1 hnil, hout⟩
  · rw [if_neg (by decide)]
    have hshown := hdelivered.shown
    rw [reads_nameTexts] at hshown
    exact .inr ⟨fun hnil => hne (List.map_eq_nil_iff.2 hnil), hshown⟩
  · exact absurd hheap (h₁.decode ▸ hrefused).not_succeeds

/-- The caller reads the names of the server exactly if there are any, and none of their
    characters is escaped. -/
theorem mongreldbTableNames_lists_iff (hs : s.Answered (.lit "/tables") (namesJson names))
    (hheap : s.heaps.decode.Succeeds) :
    wp (mongreldbTableNames true true) (fun out s' => NamesShown names out s'.c.names)
        (fun _ _ => False) s ↔
      names ≠ [] ∧ ∀ name ∈ names, ∀ c ∈ name.bytes, isPlainChar c = true := by
  have hplain : names.map escaped = names ↔
    ∀ name ∈ names, ∀ c ∈ name.bytes, isPlainChar c = true := by
    conv_lhs => rw [← List.map_id names, List.map_map]
    rw [List.map_inj_left]
    exact forall₂_congr fun name _ => escaped_eq_iff name
  have hdone := mongreldbTableNames_delivers hs hheap
  rw [← hplain]
  -- The two runs are one run, so the names shown are the same.
  refine ⟨fun h => ?_, fun hpost => wp_mono hdone (fun out s' h => ?_) fun _ _ h => h⟩
  · obtain ⟨out, s', -, hshown, hend⟩ := exists_val_of_wp (wp_mono (wp_and h hdone) (fun _ _ h => h)
      fun _ _ h => h.1)
    rcases hend with ⟨-, hout⟩ | ⟨hne, hshown'⟩
    · exact absurd (hshown.array.symm.trans (by rw [hout])) (by decide : ¬NamesPtr.array = .null)
    · exact ⟨hne, hshown'.unique hshown⟩
  · obtain ⟨hne, hsame⟩ := hpost
    rcases h with ⟨hnil, -⟩ | ⟨-, h⟩
    · exact absurd hnil hne
    · exact hsame ▸ h

/-- Two plain names are listed. -/
theorem plainNames_listed : wp (mongreldbTableNames true true)
    (fun out s' => NamesShown [.lit "users", .lit "orders_2024"] out s'.c.names) (fun _ _ => False)
    (Session.connected fun _ => .of 200 (namesJson [.lit "users", .lit "orders_2024"])) := by
  have hanswered := Session.connected_answered (.lit "/tables")
    (namesJson [.lit "users", .lit "orders_2024"]) (by decide) (by decide)
  rw [mongreldbTableNames_lists_iff hanswered Heap.unlimited_succeeds]
  exact ⟨List.cons_ne_nil _ _, by decide +kernel⟩

/-- A name with a quote is listed with the backslash in front of it. -/
theorem quotedName_notListed : ¬wp (mongreldbTableNames true true)
    (fun out s' => NamesShown [.lit "a\"b"] out s'.c.names) (fun _ _ => False)
    (Session.connected fun _ => .of 200 (namesJson [.lit "a\"b"])) := fun h => by
  have hanswered := Session.connected_answered (.lit "/tables")
    (namesJson [.lit "a\"b"]) (by decide) (by decide)
  have hdone := mongreldbTableNames_delivers hanswered Heap.unlimited_succeeds
  obtain ⟨out, s', -, hshown, hend⟩ := exists_val_of_wp (wp_mono (wp_and h hdone) (fun _ _ h => h)
    fun _ _ h => h.1)
  rcases hend with ⟨hnil, -⟩ | ⟨-, hshown'⟩
  · exact List.cons_ne_nil _ _ hnil
  · exact absurd (hshown'.unique hshown) (by decide)

end MongrelDB
