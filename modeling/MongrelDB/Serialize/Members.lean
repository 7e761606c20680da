import MongrelDB.Lib.Scan
import MongrelDB.Serialize.Text

/-!
# Written members

The members of a written object, with the text each of them makes, and how they are
read back: the keys in order (`keysOf`), and what stands behind a key (`itemAt`).
-/

namespace MongrelDB

open Ascii

/-- A number as a member. -/
def numberMember (key : CStr) (n : Nat) : CStr × Item Json := (key, plainItem (.ofNat n))

/-- A string as a member. -/
def strMember (key s : CStr) : CStr × Item Json := (key, plainItem (.ofStr s))

/-- An object as a member. -/
def objMember (key : CStr) (ms : List (CStr × Item Json)) : CStr × Item Json :=
  (key, plainItem (.ofMembers ms))

/-- An array as a member. -/
def arrMember (key : CStr) (es : List (Item Json)) : CStr × Item Json :=
  (key, plainItem (.arr es Ws.none))

/-! ## Their text -/

@[simp] theorem Json.text_ofNat (n : Nat) : (Json.ofNat n).text = natText n := rfl

@[simp] theorem moreMembers_number (key : CStr) (n : Nat) (ms : List (CStr × Item Json)) :
    moreMembers (numberMember key n :: ms) = comma ::
      (keyText key ++ (natText n ++ moreMembers ms)) := by
  rw [numberMember, moreMembers_cons, itemText_plainItem, Json.text_ofNat]

@[simp] theorem moreMembers_str (key s : CStr) (ms : List (CStr × Item Json)) :
    moreMembers (strMember key s :: ms) =
      comma :: (keyText key ++ ((Json.ofStr s).text ++ moreMembers ms)) := by
  rw [strMember, moreMembers_cons, itemText_plainItem]

theorem moreMembers_obj (key : CStr) (m : CStr × Item Json) (ms ms' : List (CStr × Item Json)) :
    moreMembers (objMember key (m :: ms) :: ms') =
      comma :: (keyText key ++ lbrace :: (keyText m.1 ++ (itemText m.2 ++ (moreMembers ms ++
        rbrace :: moreMembers ms')))) := by
  obtain ⟨key', e⟩ := m
  rw [objMember, moreMembers_cons, itemText_plainItem, Json.text_ofMembers]
  simp

@[simp] theorem moreMembers_arr (key : CStr) (es : List (Item Json))
    (ms : List (CStr × Item Json)) :
    moreMembers (arrMember key es :: ms) =
      comma :: (keyText key ++ lbrack :: (itemsText es ++ rbrack :: moreMembers ms)) := by
  rw [arrMember, moreMembers_cons, itemText_plainItem, Json.text]
  simp [Ws.none]

theorem scan_ofStr (st : List Bool) (s : CStr) :
    scan ⟨.value, st⟩ (Json.ofStr s).text = some ⟨.done, st⟩ := scan_str st (strTok s).wf

/-! ## Their validity -/

/-- All of these values are valid. -/
def AllValid (ms : List (CStr × Item Json)) : Prop := ∀ m ∈ ms, m.2.val.Valid

theorem AllValid.nil : AllValid [] := fun _ h => absurd h List.not_mem_nil

theorem AllValid.append {ms ms' : List (CStr × Item Json)} (h : AllValid ms) (h' : AllValid ms') :
    AllValid (ms ++ ms') := fun _ hm => (List.mem_append.1 hm).elim (h _) (h' _)

theorem AllValid.number {ms : List (CStr × Item Json)} (h : AllValid ms) (key : CStr) (n : Nat) :
    AllValid (numberMember key n :: ms) := List.forall_mem_cons.2 ⟨Json.ofNat_valid n, h⟩

theorem AllValid.str {ms : List (CStr × Item Json)} (h : AllValid ms) (key s : CStr) :
    AllValid (strMember key s :: ms) := List.forall_mem_cons.2 ⟨Json.ofStr_valid s, h⟩

theorem AllValid.obj {ms ms' : List (CStr × Item Json)} (h : AllValid ms) (key : CStr)
    (h' : AllValid ms') : AllValid (objMember key ms' :: ms) :=
  List.forall_mem_cons.2 ⟨Json.valid_ofMembers h', h⟩

theorem AllValid.item {ms : List (CStr × Item Json)} (h : AllValid ms) (key : CStr) {e : Item Json}
    (he : e.val.Valid) : AllValid ((key, e) :: ms) := List.forall_mem_cons.2 ⟨he, h⟩

theorem AllValid.arr {ms : List (CStr × Item Json)} (h : AllValid ms) (key : CStr)
    {es : List (Item Json)} (hes : ∀ e ∈ es, e.val.Valid) : AllValid (arrMember key es :: ms) :=
  h.item key (.arr hes)

/-- Elements that are each written as an item, which `Is` relates to them, are written
    as an array of such items. -/
theorem separated_written {α : Type} {f : α → Appends} {Is : α → Item Json → Prop} {xs : List α}
    (hxs : ∀ x ∈ xs, ∃ e : Item Json, (f x).flatten = itemText e ∧ e.val.Valid ∧ Is x e) :
    ∃ es : List (Item Json), (separated f xs).flatten = itemsText es ∧
      (∀ e ∈ es, e.val.Valid) ∧ List.Forall₂ Is xs es := by
  obtain ⟨es, hes, hvalid, his⟩ : ∃ es : List (Item Json),
      (xs.map fun x => (f x).flatten) = es.map itemText ∧ (∀ e ∈ es, e.val.Valid) ∧
        List.Forall₂ Is xs es := by
    induction xs with
    | nil => exact ⟨[], rfl, fun _ h => absurd h List.not_mem_nil, .nil⟩
    | cons x xs ih =>
      obtain ⟨es, hes, hvalids, hiss⟩ := ih fun y hy => hxs y (List.mem_cons_of_mem _ hy)
      obtain ⟨e, he, hvalid, his⟩ := hxs x List.mem_cons_self
      exact ⟨e :: es, congrArg₂ List.cons he hes, List.forall_mem_cons.2 ⟨hvalid, hvalids⟩,
        .cons his hiss⟩
  exact ⟨es, by rw [flatten_separated, hes, itemsText_eq], hvalid, his⟩

/-! ## Reading -/

/-- The keys of an object, in order. -/
def keysOf (ms : List (Member Json)) : List (Option Bytes) := ms.map fun m => strVal? m.key.raw

/-- What stands behind the first key of this name. -/
def itemAt (key : CStr) (ms : List (Member Json)) : Option (Item Json) :=
  (ms.find? fun m => strVal? m.key.raw == some key.bytes).map Member.item

/-- Written members, as those of an object. -/
def writtenMembers (ms : List (CStr × Item Json)) : List (Member Json) :=
  ms.map fun m => writtenMember m.1 m.2

theorem keysOf_written (ms : List (CStr × Item Json)) :
    keysOf (writtenMembers ms) = ms.map fun m => some m.1.bytes := by
  rw [keysOf, writtenMembers, List.map_map]
  exact List.map_congr_left fun m _ => (escape_spec m.1.noNul).2

/-- A written item is read back behind its key, if no other one has it. -/
theorem itemAt_written {ms : List (CStr × Item Json)} (hkeys : (ms.map Prod.fst).Nodup) {key : CStr}
    {e : Item Json} (hm : (key, e) ∈ ms) : itemAt key (writtenMembers ms) = some e := by
  induction ms with
  | nil => exact absurd hm List.not_mem_nil
  | cons m ms ih =>
    rw [List.map_cons, List.nodup_cons] at hkeys
    have hname : strVal? (writtenMember m.1 m.2).key.raw = some m.1.bytes :=
      (escape_spec m.1.noNul).2
    rw [itemAt, writtenMembers, List.map_cons, List.find?_cons, hname]
    rcases List.mem_cons.1 hm with rfl | hm'
    · rw [beq_self_eq_true]
      rfl
    · have hne : (some m.1.bytes == some key.bytes) = false := by
        rw [beq_eq_false_iff_ne]
        exact fun h => hkeys.1
          (CStr.ext (Option.some.inj h) ▸ List.mem_map_of_mem (f := Prod.fst) hm')
      rw [hne]
      exact ih hkeys.2 hm'

end MongrelDB
