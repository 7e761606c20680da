import MongrelDB.Api.Results
import MongrelDB.Client.Delivery
import MongrelDB.Lookup.Fields

/-!
# Counts

What `mongreldb_count` makes of a response. It returns `MDB_OK` for any of them, with
what the lookup has left in its variable, which is zero if there is no number
(`mongreldbCount_reads`). So the count is that of the response exactly if the
response has one (`mongreldbCount_exact_iff`).
-/

namespace MongrelDB

open Ascii Prog

/-- The response is an object with a member `count` that is this integer. -/
def SaysCount (recv : Bytes) (n : Int) : Prop :=
  ∃ ms w, TextOf (.obj ms w) recv ∧
    ∃ m ∈ ms, strVal? m.key.raw = some (ascii "count") ∧ m.val.datum? = some (.int n)

/-- The first number at a key that is spelled `count`. -/
def countNumber (ms : List (Member Json)) : Option Json := rawField? Json.isNum (ascii "count") ms

/-- It is an integer of 64 bits. -/
def CountGiven (ms : List (Member Json)) : Prop :=
  ∃ v i, countNumber ms = some v ∧ intVal? v.text = some i ∧ -2 ^ 63 ≤ i ∧ i < 2 ^ 63

/-- What is read if it is no such integer. -/
def countRead (ms : List (Member Json)) : Int64 :=
  match countNumber ms with
  | some v => strtoll (clipTok 64 v.text)
  | none => 0

/-- It is no such integer, but by chance another member with the name `count`, a later
    one or one that is spelled with an escape, is the integer that is read. -/
def CountByChance (ms : List (Member Json)) : Prop :=
  ¬CountGiven ms ∧ ∃ m ∈ ms, strVal? m.key.raw = some (ascii "count") ∧
    m.val.datum? = some (.int (countRead ms).toInt)

variable {table path : CStr} {recv : Bytes} {s : Session}

/-- The count is what the lookup leaves in its variable, whatever it returns. -/
theorem mongreldbCount_reads (lib : Libc)
    (hpath : (Sbuf.empty.appendAll s.heaps.body (countPath table)).1.cstr? = some path)
    (hs : s.Answered path recv) :
      ∃ found d n, jsonGetNumber lib recv (.lit "count") = .ok (found, d, n) ∧
      wp (mongreldbCount lib (some table) true) (fun n' _ => n' = n) (fun _ _ => False) s := by
  obtain ⟨⟨found, d, n⟩, hnumber, -⟩ := jsonGetNumber_ends lib recv (.lit "count")
  refine ⟨found, d, n, hnumber, wp_step (bodyAppends_spec _) fun text s₁ hpost => ?_⟩
  obtain ⟨htext, hs₁⟩ := hpost
  rw [hpath] at htext
  subst htext hs₁
  have hanswered : Session.Answered { s with heaps := { s.heaps with
      body := (Sbuf.empty.appendAll s.heaps.body (countPath table)).2 } } path recv :=
    ⟨hs.ready.withBody _, hs.delivers, hs.success⟩
  refine wp_seq (doRequest_answered hanswered _ _) fun _ s₂ h₂ => ?_
  simp only [wp_bind, wp_get, h₂.recv]
  exact wp_lift hnumber rfl

theorem countRead_of_given {ms : List (Member Json)} {v : Json} {i : Int}
    (hv : countNumber ms = some v)
    (hi : intVal? v.text = some i) (hlo : -2 ^ 63 ≤ i) (hhi : i < 2 ^ 63) :
    (countRead ms).toInt = i := by
  rw [countRead, hv]
  exact strtoll_clipTok (by decide) hi hlo hhi

/-- The number that is read from an object. -/
theorem jsonGetNumber_count (lib : Libc) {ms : List (Member Json)} {w : Ws}
    (hrecv : TextOf (.obj ms w) recv) :
    ∃ found d, jsonGetNumber lib recv (.lit "count") = .ok (found, d, countRead ms) := by
  obtain ⟨-, pre, post, rfl⟩ := hrecv
  have hget := jsonGetNumber_obj ms (.lit "count") lib pre w post.bytes
  rw [objText] at hget
  rw [countRead, countNumber]
  have hkey : (CStr.lit "count").bytes = ascii "count" := rfl
  rw [hkey] at hget
  cases hf : rawField? Json.isNum (ascii "count") ms with
  | none => exact ⟨_, _, by rw [hget, hf]⟩
  | some v =>
    obtain ⟨m, -, -, -, hnum⟩ := member_of_rawField? hf
    obtain ⟨t, rfl⟩ := text_of_isNum hnum
    exact ⟨_, _, by rw [hget, hf]; rfl⟩

/-- The count is that of the response exactly if the first number at `count` is an
    integer of 64 bits, or the number that is read is right by chance. -/
theorem mongreldbCount_exact_iff {lib : Libc}
    (hpath : (Sbuf.empty.appendAll s.heaps.body (countPath table)).1.cstr? = some path)
    (hs : s.Answered path recv) :
    wp (mongreldbCount lib (some table) true) (fun n _ => SaysCount recv n.toInt)
      (fun rc _ => rc ≠ .ok) s ↔
      ∃ ms w, TextOf (.obj ms w) recv ∧ (CountGiven ms ∨ CountByChance ms) := by
  obtain ⟨found, d, n, hnumber, hrun⟩ := mongreldbCount_reads lib hpath hs
  have hread : ∀ {ms w}, TextOf (.obj ms w) recv → n = countRead ms := fun htext => by
    obtain ⟨found', d', hget⟩ := jsonGetNumber_count lib htext
    exact congrArg (·.2.2) (Except.ok.inj (hnumber.symm.trans hget))
  refine ⟨fun h => ?_, fun ⟨ms, w, htext, hcount⟩ => wp_mono hrun (fun n' _ hn' => ?_)
    fun _ _ h => h.elim⟩
  · obtain ⟨n', s', -, ⟨ms, w, htext, hsays⟩, hn'⟩ := exists_val_of_wp (wp_mono (wp_and h hrun)
      (fun _ _ h => h) fun _ _ h => h.2)
    refine ⟨ms, w, htext, ?_⟩
    by_cases hgiven : CountGiven ms
    · exact .inl hgiven
    · rw [hn', hread htext] at hsays
      exact .inr ⟨hgiven, hsays⟩
  · rw [hn', hread htext]
    refine ⟨ms, w, htext, ?_⟩
    rcases hcount with ⟨v, i, hv, hi, hlo, hhi⟩ | ⟨-, hsays⟩
    · obtain ⟨m, hm, hkey, rfl, hnum⟩ := member_of_rawField? hv
      obtain ⟨t, ht⟩ := text_of_isNum hnum
      refine ⟨m, hm, by rw [hkey]; decide, ?_⟩
      rw [countRead_of_given hv hi hlo hhi, ht, Json.datum?]
      rw [ht, Json.text] at hi
      rw [hi]
    · exact hsays

/-! ## Two responses -/

/-- A response that says three. -/
def threeRows : Bytes := ascii "\x7b\"count\":3\x7d"

def threeMember : Member Json :=
  ⟨Ws.none, ⟨ascii "count", by decide⟩, Ws.none, Ws.none, .num ⟨ascii "3", by decide⟩, Ws.none⟩

/-- A count of three is reported. -/
theorem threeRows_counted : wp (mongreldbCount .zero (some (.lit "t")) true)
    (fun n _ => SaysCount threeRows n.toInt) (fun rc _ => rc ≠ .ok)
    (Session.connected fun _ => .of 200 threeRows) := by
  have hpath : (Sbuf.empty.appendAll Heap.unlimited (countPath (.lit "t"))).1.cstr? =
      some (.lit "/tables/t/count") := by decide
  have hanswered := Session.connected_answered (.lit "/tables/t/count") threeRows
    (by decide) (by decide)
  have htext : TextOf (.obj [threeMember] Ws.none) threeRows := by
    refine ⟨.obj (fun m hm => ?_) fun m hm => ?_, Ws.none, Ws.none, by decide⟩
    · obtain rfl := List.mem_singleton.1 hm
      exact (by decide : isStringBody (ascii "count") = true)
    · obtain rfl := List.mem_singleton.1 hm
      exact .num (by decide : isNumber (ascii "3") = true)
  rw [mongreldbCount_exact_iff hpath hanswered]
  exact ⟨_, _, htext, .inl ⟨.num ⟨ascii "3", by decide⟩, 3, rfl, by decide, by decide, by decide⟩⟩

/-- The empty object says nothing. -/
theorem not_saysCount_empty (n : Int) : ¬SaysCount (ascii "\x7b\x7d") n := by
  rintro ⟨ms, w, ⟨-, pre, post, hrecv⟩, m, hm, -⟩
  have hlen := congrArg List.length hrecv
  have hle := length_le_commaSep (List.mem_map_of_mem (f := memberText) hm)
  have htwo : (ascii "\x7b\x7d").length = 2 := rfl
  rw [← membersText_eq] at hle
  obtain ⟨mpre, key, mid, it⟩ := m
  simp only [Json.text, memberText, List.length_append, List.length_cons, htwo] at hlen hle
  omega

/-- It is reported as an empty table. -/
theorem noCount_reported : ¬wp (mongreldbCount .zero (some (.lit "t")) true)
    (fun n _ => SaysCount (ascii "\x7b\x7d") n.toInt) (fun rc _ => rc ≠ .ok)
    (Session.connected fun _ => .of 200 (ascii "\x7b\x7d")) := fun h => by
  have hpath : (Sbuf.empty.appendAll Heap.unlimited (countPath (.lit "t"))).1.cstr? =
      some (.lit "/tables/t/count") := by decide
  have hanswered := Session.connected_answered (.lit "/tables/t/count")
    (ascii "\x7b\x7d") (by decide) (by decide)
  obtain ⟨-, -, n, -, hrun⟩ := mongreldbCount_reads .zero hpath hanswered
  obtain ⟨n', -, -, hsays, -⟩ := exists_val_of_wp (wp_mono (wp_and h hrun) (fun _ _ h => h)
    fun _ _ h => h.2)
  exact not_saysCount_empty _ hsays

end MongrelDB
