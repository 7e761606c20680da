import MongrelDB.Serialize.Members

/-!
# Members that may be missing

An object is described by its keys, in order, each with what its member is to say, if
there is one (`Said`). Written behind a first member, each one that is present behind
a comma, the description makes an object that says exactly that (`says_of_written`).
-/

namespace MongrelDB

open Ascii

/-! ## What is said -/

/-- What a member is to say, and the text it is written as. -/
structure Said where
  text : Bytes
  Is : Item Json → Prop

/-- The text is that of a value, which says it. -/
def Said.Written (x : Said) : Prop := ∃ e : Item Json, x.text = itemText e ∧ e.val.Valid ∧ x.Is e

namespace Said

/-- An integer. -/
def int (i : Int64) : Said := ⟨int64Text i, fun e => e.val.datum? = some (.int i.toInt)⟩

/-- A flag. -/
def bool (b : Bool) : Said :=
  ⟨if b then ascii "true" else ascii "false", fun e => e.val.datum? = some (.bool b)⟩

/-- A string. -/
def str (s : CStr) : Said := ⟨(jsonEscape s).flatten, fun e => e.val.datum? = some (.str s.bytes)⟩

/-- A text, as it is. -/
def raw (t : CStr) : Said := ⟨t.bytes, fun e => itemText e = t.bytes⟩

/-- A list, element by element. -/
def list {α : Type} (f : α → Appends) (Is : α → Item Json → Prop) (xs : List α) : Said :=
  ⟨lbrack :: ((separated f xs).flatten ++ [rbrack]),
    fun e => ∃ es w, e.val = .arr es w ∧ List.Forall₂ Is xs es⟩

theorem int_written (i : Int64) : (int i).Written :=
  ⟨plainItem (.ofInt64 i), by rw [itemText_plainItem, Json.ofInt64_text]; rfl, Json.ofInt64_valid i,
    Json.ofInt64_datum i⟩

theorem bool_written (b : Bool) : (bool b).Written :=
  ⟨plainItem (.ofBool b), by rw [itemText_plainItem, Json.ofBool_text]; rfl, Json.ofBool_valid b,
    Json.ofBool_datum b⟩

theorem str_written (s : CStr) : (str s).Written :=
  ⟨plainItem (.ofStr s), by rw [itemText_plainItem, ← flatten_jsonEscape]; rfl, Json.ofStr_valid s,
    Json.ofStr_datum s⟩

theorem raw_written {t : CStr} (ht : IsJsonText t.bytes) : (raw t).Written := by
  obtain ⟨e, he, htext⟩ := ht
  exact ⟨e, htext, he, htext.symm⟩

/-- A list is written if each of its elements is. -/
theorem list_written {α : Type} {f : α → Appends} {Is : α → Item Json → Prop} {xs : List α}
    (hxs : ∀ x ∈ xs, (Said.mk (f x).flatten (Is x)).Written) : (list f Is xs).Written := by
  obtain ⟨es, htext, hvalid, his⟩ := separated_written hxs
  refine ⟨plainItem (.arr es Ws.none), ?_, .arr hvalid, es, Ws.none, rfl, his⟩
  rw [itemText_plainItem, Json.text, ← htext]
  rfl

end Said

/-- The keys that are present. -/
def presentKeys {α : Type} (xs : List (CStr × Option α)) : List CStr :=
  (xs.filter fun x => x.2.isSome).map Prod.fst

/-- These members are those that are present, in order and without repetition, and
    they say what they are to say. -/
structure Says (xs : List (CStr × Option Said)) (ms : List (Member Json)) : Prop where
  keys : keysOf ms = (presentKeys xs).map fun key => some key.bytes
  nodup : (keysOf ms).Nodup
  item : ∀ x ∈ xs, Option.Rel Said.Is x.2 (itemAt x.1 ms)

/-! ## What is written -/

/-- The members that are present, each with the comma in front of it. -/
def moreSaid (xs : List (CStr × Option Said)) : Bytes :=
  xs.flatMap fun x => match x.2 with
    | none => []
    | some s => comma :: (keyText x.1 ++ s.text)

@[simp] theorem moreSaid_nil : moreSaid [] = [] := rfl

@[simp] theorem moreSaid_none (key : CStr) (xs : List (CStr × Option Said)) :
    moreSaid ((key, none) :: xs) = moreSaid xs := rfl

@[simp] theorem moreSaid_some (key : CStr) (s : Said) (xs : List (CStr × Option Said)) :
    moreSaid ((key, some s) :: xs) = comma :: (keyText key ++ (s.text ++ moreSaid xs)) := by
  simp [moreSaid]

/-- The items that are present, with their keys. -/
def presentItems (ms : List (CStr × Option (Item Json))) : List (CStr × Item Json) :=
  ms.filterMap fun m => m.2.map fun e => (m.1, e)

theorem presentItems_keys (ms : List (CStr × Option (Item Json))) :
    (presentItems ms).map Prod.fst = presentKeys ms := by
  induction ms with
  | nil => rfl
  | cons m ms ih =>
    obtain ⟨key, e⟩ := m
    cases e with
    | none => exact ih
    | some e => exact congrArg (key :: ·) ih

theorem presentKeys_sublist {α : Type} (xs : List (CStr × Option α)) :
    (presentKeys xs).Sublist (xs.map Prod.fst) := List.filter_sublist.map _

/-- What stands behind a key is its item, if there is one. -/
theorem itemAt_presentItems {ms : List (CStr × Option (Item Json))}
    (hkeys : (ms.map Prod.fst).Nodup) {m : CStr × Option (Item Json)} (hm : m ∈ ms) :
    itemAt m.1 (writtenMembers (presentItems ms)) = m.2 := by
  have hpresent : ((presentItems ms).map Prod.fst).Nodup := by
    rw [presentItems_keys]
    exact (presentKeys_sublist ms).nodup hkeys
  obtain ⟨key, e⟩ := m
  cases e with
  | some e => exact itemAt_written hpresent (List.mem_filterMap.2 ⟨_, hm, rfl⟩)
  | none =>
    rw [itemAt, Option.map_eq_none_iff, List.find?_eq_none]
    rintro m' hm' heq
    obtain ⟨⟨key', e'⟩, hmem, rfl⟩ := List.mem_map.1 hm'
    obtain ⟨⟨key'', e''⟩, hin, hsome⟩ := List.mem_filterMap.1 hmem
    obtain ⟨e₁, rfl, heq'⟩ := Option.map_eq_some_iff.1 hsome
    obtain ⟨rfl, rfl⟩ := Prod.mk.inj heq'
    rw [beq_iff_eq, show strVal? (writtenMember key'' e₁).key.raw = some key''.bytes from
      (escape_spec key''.noNul).2] at heq
    obtain rfl := CStr.ext (Option.some.inj heq)
    exact absurd (List.inj_on_of_nodup_map hkeys hin hm rfl) (by simp)

/-- An item for each member, with the same key, that says what it is to say. -/
def Agree (xs : List (CStr × Option Said)) (ms : List (CStr × Option (Item Json))) : Prop :=
  List.Forall₂ (fun x m => x.1 = m.1 ∧ Option.Rel Said.Is x.2 m.2) xs ms

theorem Agree.keys {xs : List (CStr × Option Said)} {ms : List (CStr × Option (Item Json))}
    (h : Agree xs ms) : xs.map Prod.fst = ms.map Prod.fst ∧ presentKeys xs = presentKeys ms := by
  induction h with
  | nil => exact ⟨rfl, rfl⟩
  | @cons x m xs ms hxm _ ih =>
    obtain ⟨key, s⟩ := x
    obtain ⟨key', e⟩ := m
    obtain ⟨rfl, hrel⟩ : key = key' ∧ Option.Rel Said.Is s e := hxm
    refine ⟨congrArg (key :: ·) ih.1, ?_⟩
    cases hrel with
    | none => exact ih.2
    | some _ => exact congrArg (key :: ·) ih.2

theorem Agree.exists_mem {xs : List (CStr × Option Said)} {ms : List (CStr × Option (Item Json))}
    (h : Agree xs ms) {x : CStr × Option Said} (hx : x ∈ xs) :
    ∃ m ∈ ms, x.1 = m.1 ∧ Option.Rel Said.Is x.2 m.2 := by
  induction h with
  | nil => exact absurd hx List.not_mem_nil
  | @cons y m xs ms hym _ ih =>
    rcases List.mem_cons.1 hx with rfl | hx
    · exact ⟨m, List.mem_cons_self, hym⟩
    · obtain ⟨m', hm', hrel⟩ := ih hx
      exact ⟨m', List.mem_cons_of_mem _ hm', hrel⟩

/-- What is to be said has items that say it, with the same keys. -/
theorem items_of_written {xs : List (CStr × Option Said)}
    (hxs : ∀ x ∈ xs, ∀ s ∈ x.2, s.Written) :
    ∃ ms : List (CStr × Option (Item Json)), moreSaid xs = moreMembers (presentItems ms) ∧
      AllValid (presentItems ms) ∧ Agree xs ms := by
  induction xs with
  | nil => exact ⟨[], rfl, .nil, .nil⟩
  | cons x xs ih =>
    obtain ⟨ms, htext, hvalid, hrel⟩ := ih fun y hy => hxs y (List.mem_cons_of_mem _ hy)
    obtain ⟨key, s⟩ := x
    cases s with
    | none => exact ⟨(key, none) :: ms, htext, hvalid, .cons ⟨rfl, .none⟩ hrel⟩
    | some s =>
      obtain ⟨e, he, hev, his⟩ := hxs _ List.mem_cons_self s rfl
      refine ⟨(key, some e) :: ms, ?_, hvalid.item key hev, .cons ⟨rfl, .some his⟩ hrel⟩
      rw [moreSaid_some, htext, he]
      exact (moreMembers_cons key e _).symm

/-- The object that is written says what is to be said. -/
theorem says_of_written {key : CStr} {s : Said} {xs : List (CStr × Option Said)}
    (hs : s.Written) (hxs : ∀ x ∈ xs, ∀ s ∈ x.2, s.Written)
    (hkeys : (key :: xs.map Prod.fst).Nodup) :
    ∃ ms : List (CStr × Item Json),
      lbrace :: (keyText key ++ (s.text ++ (moreSaid xs ++ [rbrace]))) = (Json.ofMembers ms).text ∧
        (Json.ofMembers ms).Valid ∧ Says ((key, some s) :: xs) (writtenMembers ms) := by
  obtain ⟨e, he, hev, his⟩ := hs
  obtain ⟨ms, htext, hvalid, hrel⟩ := items_of_written hxs
  -- The members written agree with what was said, one by one.
  have hagree : Agree ((key, some s) :: xs) ((key, some e) :: ms) := .cons ⟨rfl, .some his⟩ hrel
  obtain ⟨hfst, hpresent⟩ := hagree.keys
  have hnodup : (((key, some e) :: ms).map Prod.fst).Nodup := by rwa [← hfst]
  have hkeysOf : keysOf (writtenMembers (presentItems ((key, some e) :: ms))) =
      (presentKeys ((key, some s) :: xs)).map fun key => some key.bytes := by
    rw [keysOf_written, hpresent, ← presentItems_keys, List.map_map]
    rfl
  refine ⟨presentItems ((key, some e) :: ms), ?_, Json.valid_ofMembers (hvalid.item key hev),
    hkeysOf, ?_, fun x hx => ?_⟩
  · rw [he, htext]
    exact (Json.text_ofMembers key e _).symm
  · rw [hkeysOf]
    refine List.Nodup.map (fun k k' hk => CStr.ext (Option.some.inj hk)) ?_
    exact (presentKeys_sublist _).nodup hkeys
  · obtain ⟨m, hm, hkey, hsays⟩ := hagree.exists_mem hx
    rwa [hkey, itemAt_presentItems hnodup hm]

/-! ## Objects -/

namespace Said

/-- An object, by its first member and those behind it. -/
def obj (key : CStr) (s : Said) (xs : List (CStr × Option Said)) : Said :=
  ⟨lbrace :: (keyText key ++ (s.text ++ (moreSaid xs ++ [rbrace]))),
    fun e => ∃ ms w, e.val = .obj ms w ∧ Says ((key, some s) :: xs) ms⟩

variable {key : CStr} {s : Said} {xs : List (CStr × Option Said)}

/-- An object is written if all that it says is. -/
theorem obj_written (hs : s.Written) (hxs : ∀ x ∈ xs, ∀ s ∈ x.2, s.Written)
    (hkeys : (key :: xs.map Prod.fst).Nodup) : (obj key s xs).Written := by
  obtain ⟨ms, htext, hvalid, hsays⟩ := says_of_written hs hxs hkeys
  exact ⟨plainItem (.ofMembers ms), htext.trans (itemText_plainItem _).symm, hvalid, _, _, rfl,
    hsays⟩

variable (xs) in
/-- The text of an object says what it is to say. -/
theorem obj_says {t : Bytes} (ht : t = (obj key s xs).text) (hs : s.Written)
    (hxs : ∀ x ∈ xs, ∀ s ∈ x.2, s.Written) (hkeys : (key :: xs.map Prod.fst).Nodup) :
    ∃ ms w, TextOf (.obj ms w) t ∧ Says ((key, some s) :: xs) ms := by
  obtain ⟨ms, htext, hvalid, hsays⟩ := says_of_written hs hxs hkeys
  exact ⟨_, _, ⟨hvalid, Ws.none, Ws.none, (ht.trans htext).trans (List.append_nil _).symm⟩, hsays⟩

end Said

end MongrelDB
