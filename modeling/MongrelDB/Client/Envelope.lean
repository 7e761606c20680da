import MongrelDB.Client.Errors
import MongrelDB.Lookup.Fields
import MongrelDB.Lookup.Strings
import MongrelDB.Serialize.Members

/-!
# Error envelopes

A server says what is wrong with a message and a code, as members of the response
(`FlatEnvelope`), or of an object in it (`NestedEnvelope`). Only the first ones are
looked for, so the caller reads the message and the code of a response exactly if
they are at the top level (`doRequest_reports_iff`).
-/

namespace MongrelDB

open Ascii Prog

/-! ## Envelopes -/

/-- The member `key` is this string, and no other member has its name. -/
def SaysString (key v : CStr) (ms : List (Member Json)) : Prop :=
  (∃ m ∈ ms, m.key.raw = key.bytes) ∧
    ∀ m ∈ ms, m.key.raw = key.bytes → ∃ t, m.val = .str t ∧ strVal? t.raw = some v.bytes

/-- The message and the code are members, among others. -/
def FlatEnvelope (msg code : CStr) (ms : List (Member Json)) : Prop :=
  SaysString (.lit "message") msg ms ∧ SaysString (.lit "code") code ms

/-- The message and the code are members of the object `error`, which is a member, among
    others, such as the status. -/
def NestedEnvelope (msg code : CStr) (ms : List (Member Json)) : Prop :=
  (∃ m ∈ ms, m.key.raw = (CStr.lit "error").bytes) ∧
    ∀ m ∈ ms, m.key.raw = (CStr.lit "error").bytes → ∃ es w, m.val = .obj es w ∧
    FlatEnvelope msg code es

/-- The first string at a key, unescaped. -/
def firstString (key : CStr) (ms : List (Member Json)) : Option CStr :=
  match rawField? Json.isStr key.bytes ms with
  | some (.str t) => some (CStr.at (unescape t.raw ++ [0]))
  | _ => none

variable {msg code : CStr} {ms : List (Member Json)} {w : Ws} {recv : Bytes}

/-- It is what `json_get_string` delivers. -/
theorem stringField_eq (hrecv : TextOf (.obj ms w) recv) (key : CStr) :
    stringField recv key = firstString key ms := by
  obtain ⟨-, pre, post, rfl⟩ := hrecv
  have hget := jsonGetString_obj ms key pre w post.bytes .unlimited
  rw [objText] at hget
  rw [stringField, hget, firstString]
  cases hf : rawField? Json.isStr key.bytes ms with
  | none => rfl
  | some v =>
    obtain ⟨m, -, -, -, hstr⟩ := member_of_rawField? hf
    obtain ⟨t, rfl⟩ := text_of_isStr hstr
    simp only [Heap.request_of_succeeds Heap.unlimited_succeeds, if_true]

theorem SaysString.firstString {key v : CStr} (h : SaysString key v ms) :
    firstString key ms = some v := by
  obtain ⟨⟨m, hm, hkey⟩, hall⟩ := h
  rw [MongrelDB.firstString]
  cases hf : rawField? Json.isStr key.bytes ms with
  | none =>
    -- The member that is there is a string.
    obtain ⟨t, ht, -⟩ := hall m hm hkey
    rw [rawField?, Option.map_eq_none_iff, List.find?_eq_none] at hf
    exact absurd (by simp [hkey, ht, Json.isStr]) (hf m hm)
  | some v' =>
    obtain ⟨m', hm', hkey', rfl, -⟩ := member_of_rawField? hf
    obtain ⟨t, ht, hv⟩ := hall m' hm' hkey'
    rw [ht]
    dsimp only
    rw [unescape_of_strVal? hv]
    exact congrArg some (CStr.at_self v [])

/-- A string is not longer than its text. -/
theorem SaysString.length_lt {key v : CStr} (h : SaysString key v ms) :
    ∃ m ∈ ms, m.key.raw = key.bytes ∧ key.bytes.length + v.bytes.length <
      (memberText m).length := by
  obtain ⟨⟨m, hm, hkey⟩, hall⟩ := h
  obtain ⟨t, ht, hv⟩ := hall m hm hkey
  have hlt := length_lt_memberText m
  have hunescape := unescape_length_le t.raw
  rw [unescape_of_strVal? hv] at hunescape
  refine ⟨m, hm, hkey, ?_⟩
  rw [hkey, ht] at hlt
  simp only [Json.text, List.length_append, List.length_cons] at hlt
  omega

/-- A text with the message and the code among its members is longer than both. -/
theorem FlatEnvelope.length_lt (h : FlatEnvelope msg code ms) :
    (detailText msg code).bytes.length < (Json.obj ms w).text.length := by
  obtain ⟨m, hm, hkey, hmsg⟩ := h.1.length_lt
  obtain ⟨c, hc, hkey', hcode⟩ := h.2.length_lt
  have hne : m ≠ c := fun heq => by
    rw [heq, hkey'] at hkey
    exact absurd hkey (by decide)
  have hsum := length_add_le_commaSep (f := memberText) hm hc hne
  have hdetail : (detailText msg code).bytes.length = msg.bytes.length + code.bytes.length + 3 := by
    have htwo : (ascii " (").length = 2 := rfl
    have hone : (ascii ")").length = 1 := rfl
    rw [detailText, List.length_append, List.length_append, List.length_append, htwo, hone]
    omega
  rw [← membersText_eq] at hsum
  have hkeys : (CStr.lit "message").bytes.length = 7 ∧ (CStr.lit "code").bytes.length = 4 :=
    ⟨rfl, rfl⟩
  rw [Json.text, List.length_cons, List.length_append, hdetail]
  omega

theorem NestedEnvelope.length_lt (h : NestedEnvelope msg code ms)
    (hrecv : TextOf (.obj ms w) recv) :
    (detailText msg code).bytes.length < recv.length := by
  obtain ⟨⟨m, hm, hkey⟩, hall⟩ := h
  obtain ⟨es, w', hval, hflat⟩ := hall m hm hkey
  obtain ⟨-, pre, post, rfl⟩ := hrecv
  have hes := hflat.length_lt (w := w')
  have hlt := length_lt_memberText m
  have hle := length_le_commaSep (List.mem_map_of_mem (f := memberText) hm)
  rw [hval] at hlt
  rw [← membersText_eq] at hle
  rw [List.length_append, List.length_append, Json.text, List.length_cons, List.length_append]
  omega

/-! ## The report -/

variable {s : Session} {path : CStr}

/-- The request ends with the code for the status and this message, and the caller reads
    this message and this code. -/
def Session.Reports (s : Session) (method path : CStr) (body : Option CStr)
    (msg code : CStr) : Prop :=
  wp (doRequest method (some path) body) (fun _ _ => False) (fun rc s' =>
    rc = classifyHttpError s.answer.status (some msg) ∧ s'.c.lastCode = rc ∧
      s'.c.lastError = clipText (detailText msg code)) s

/-- How a request ends that is answered with an HTTP error. -/
theorem doRequest_refused (hs : s.Ready path) (hd : s.answer.Delivers recv)
    (hstatus : s.answer.status < 200 ∨ s.answer.status ≥ 300) (herror : s.heaps.error.Succeeds)
    (method : CStr) (body : Option CStr) :
    wp (doRequest method (some path) body) (fun _ _ => False) (fun rc s' =>
      rc = classifyHttpError s.answer.status (envelope recv).1 ∧ s'.c.lastCode = rc ∧
        s'.c.lastError = errorMessage s.answer.status recv) s := by
  refine wp_doRequest_delivers hs hd fun s' h' => ?_
  rw [if_pos hstatus]
  refine httpError_reports (fun n => (congrFun h'.error n).trans (herror n)) h'.recv ?_ _
  exact lt_of_le_of_lt hd.short (by decide)

/-- What is to be reported is reported exactly if it is what is taken of the response. -/
theorem reports_iff_errorMessage (hs : s.Ready path) (hd : s.answer.Delivers recv)
    (hstatus : s.answer.status < 200 ∨ s.answer.status ≥ 300) (herror : s.heaps.error.Succeeds)
    (method : CStr) (body : Option CStr) :
    s.Reports method path body msg code ↔
      classifyHttpError s.answer.status (envelope recv).1 =
          classifyHttpError s.answer.status (some msg) ∧
        errorMessage s.answer.status recv = clipText (detailText msg code) := by
  have hrun := doRequest_refused hs hd hstatus herror method body
  refine ⟨fun h => ?_, fun hpost => ?_⟩
  · by_contra hne
    refine not_wp_false (wp_mono (wp_and hrun h) (fun _ _ h => h.1) fun rc s' h => hne ?_)
    obtain ⟨h₁, h₂⟩ := h
    exact ⟨h₁.1.symm.trans h₂.1, h₁.2.2.symm.trans h₂.2.2⟩
  · obtain ⟨hcode, htext⟩ := hpost
    exact wp_mono hrun (fun _ _ h => h) fun rc s' h => ⟨h.1.trans hcode, h.2.1, h.2.2.trans htext⟩

/-- There are a message and perhaps a code at the top level, which are not these, but by
    chance are reported with the same text and the same code. -/
def ReportedByChance (httpCode : Int) (msg code : CStr) (ms : List (Member Json)) : Prop :=
  ¬FlatEnvelope msg code ms ∧ ∃ msg', firstString (.lit "message") ms = some msg' ∧
    classifyHttpError httpCode (some msg') = classifyHttpError httpCode (some msg) ∧
    reportedText msg' (firstString (.lit "code") ms) = clipText (detailText msg code)

/-- The message and the code of an error envelope are reported exactly if they are at the
    top level of the response, or others there read the same by chance. -/
theorem doRequest_reports_iff (hs : s.Ready path) (hd : s.answer.Delivers recv)
    (hstatus : s.answer.status < 200 ∨ s.answer.status ≥ 300) (herror : s.heaps.error.Succeeds)
    (hrecv : TextOf (.obj ms w) recv) (henv : FlatEnvelope msg code ms ∨ NestedEnvelope msg code ms)
    (method : CStr) (body : Option CStr) :
    s.Reports method path body msg code ↔
      FlatEnvelope msg code ms ∨ ReportedByChance s.answer.status msg code ms := by
  rw [reports_iff_errorMessage hs hd hstatus herror, errorMessage, envelope, stringField_eq hrecv,
    stringField_eq hrecv]
  cases hmsg : firstString (.lit "message") ms with
  | some msg' =>
    dsimp only
    rw [Option.getD_some]
    refine ⟨fun h => ?_, fun h => ?_⟩
    · by_cases hflat : FlatEnvelope msg code ms
      · exact .inl hflat
      · exact .inr ⟨hflat, msg', hmsg, h⟩
    · rcases h with hflat | ⟨-, msg'', hmsg', h⟩
      · obtain rfl := Option.some.inj (hmsg.symm.trans hflat.1.firstString)
        exact ⟨rfl, by rw [hflat.2.firstString, reportedText]⟩
      · obtain rfl := Option.some.inj (hmsg.symm.trans hmsg')
        exact h
  | none =>
    -- The whole response is reported, which is longer than the message and the code.
    have hsome : ∀ {t}, firstString (.lit "message") ms ≠ some t := fun h =>
      Option.some_ne_none _ (h.symm.trans hmsg)
    have hnested : NestedEnvelope msg code ms := henv.resolve_left fun hflat =>
      hsome hflat.1.firstString
    have hlong := hnested.length_lt hrecv
    have hne : recv ≠ [] := fun h => absurd hlong (by rw [h]; exact Nat.not_lt_zero _)
    dsimp only
    rw [if_neg hne, Option.getD_some, reportedText]
    refine iff_of_false (fun h => ?_) fun h => ?_
    · have hbytes := congrArg (fun t : CStr => t.bytes.length) h.2
      have hclip : (clipText (detailText msg code)).bytes.length ≤
        (detailText msg code).bytes.length :=
        List.length_take_le' _ _
      rw [CStr.at_append_nul hrecv.zero_notMem] at hbytes
      omega
    · rcases h with hflat | ⟨-, msg'', hmsg', -⟩
      · exact hsome hflat.1.firstString
      · exact hsome hmsg'

/-! ## Written envelopes -/

/-- A written member with a plain key is found under it, and no other one is. -/
theorem member_written (key : CStr) {e : Item Json} {ms : List (CStr × Item Json)}
    (hkey : key.bytes.flatMap escapeChar = key.bytes) (hnodup : (ms.map Prod.fst).Nodup)
    (hm : (key, e) ∈ ms) : (∃ m ∈ writtenMembers ms, m.key.raw = key.bytes) ∧
      ∀ m ∈ writtenMembers ms, m.key.raw = key.bytes → m.item = e := by
  refine ⟨⟨writtenMember key e, List.mem_map.2 ⟨(key, e), hm, rfl⟩, hkey⟩, fun m' hm' hraw => ?_⟩
  obtain ⟨⟨key', e'⟩, hmem, rfl⟩ := List.mem_map.1 hm'
  have hname : strVal? (key'.bytes.flatMap escapeChar) = some key.bytes := by
    rw [show key'.bytes.flatMap escapeChar = key.bytes from hraw, ← (escape_spec key.noNul).2, hkey]
  obtain rfl : key' = key :=
    CStr.ext (Option.some.inj ((escape_spec key'.noNul).2.symm.trans hname))
  exact congrArg Prod.snd (List.inj_on_of_nodup_map hnodup hmem hm rfl)

/-- A written string says its value. -/
theorem saysString_written {key v : CStr} {ms : List (CStr × Item Json)}
    (hkey : key.bytes.flatMap escapeChar = key.bytes) (hnodup : (ms.map Prod.fst).Nodup)
    (hm : strMember key v ∈ ms) : SaysString key v (writtenMembers ms) := by
  obtain ⟨hthere, honly⟩ := member_written key hkey hnodup hm
  refine ⟨hthere, fun m hmem hraw => ⟨strTok v, ?_, (escape_spec v.noNul).2⟩⟩
  rw [Member.val, honly m hmem hraw]
  rfl

/-- The members of a flat envelope. -/
def flatMembers (msg code : CStr) : List (CStr × Item Json) :=
  [strMember (.lit "message") msg, strMember (.lit "code") code]

/-- The members of a nested envelope. -/
def nestedMembers (msg code : CStr) : List (CStr × Item Json) :=
  [strMember (.lit "status") (.lit "aborted"), objMember (.lit "error") (flatMembers msg code)]

theorem flatMembers_flat (msg code : CStr) :
    FlatEnvelope msg code (writtenMembers (flatMembers msg code)) := by
  have hnodup : ((flatMembers msg code).map Prod.fst).Nodup :=
    (by decide : [CStr.lit "message", CStr.lit "code"].Nodup)
  exact ⟨saysString_written (by decide) hnodup List.mem_cons_self,
    saysString_written (by decide) hnodup (List.mem_cons_of_mem _ List.mem_cons_self)⟩

theorem nestedMembers_nested (msg code : CStr) :
    NestedEnvelope msg code (writtenMembers (nestedMembers msg code)) := by
  have hnodup : ((nestedMembers msg code).map Prod.fst).Nodup :=
    (by decide : [CStr.lit "status", CStr.lit "error"].Nodup)
  obtain ⟨hthere, honly⟩ := member_written (.lit "error") (by decide) hnodup
    (List.mem_cons_of_mem _ List.mem_cons_self)
  refine ⟨hthere, fun m hm hraw =>
    ⟨writtenMembers (flatMembers msg code), Ws.none, ?_, flatMembers_flat msg code⟩⟩
  rw [Member.val, honly m hm hraw]
  rfl

theorem textOf_ofMembers {ms : List (CStr × Item Json)} (h : AllValid ms) :
    TextOf (.obj (writtenMembers ms) Ws.none) (Json.ofMembers ms).text :=
  ⟨Json.valid_ofMembers h, Ws.none, Ws.none, by simp [Ws.none, Json.ofMembers, writtenMembers]⟩

theorem flatMembers_valid (msg code : CStr) : AllValid (flatMembers msg code) :=
  (AllValid.nil.str _ code).str _ msg

/-- A client that has just connected, whose first request is answered with this envelope. -/
def Session.erring (ms : List (CStr × Item Json)) : Session :=
  .connected fun _ => .of 500 (Json.ofMembers ms).text

theorem Session.erring_ready (ms : List (CStr × Item Json)) :
    (Session.erring ms).Ready (.lit "/tables") :=
  Session.connected_ready rfl _ (by decide)

theorem Session.erring_delivers {ms : List (CStr × Item Json)}
    (hshort : (Json.ofMembers ms).text.length ≤ MONGRELDB_MAX_RESPONSE_BYTES) :
    (Session.erring ms).answer.Delivers (Json.ofMembers ms).text :=
  ⟨List.flatten_singleton, rfl, hshort⟩

theorem Session.erring_status (ms : List (CStr × Item Json)) :
    (Session.erring ms).answer.status < 200 ∨ (Session.erring ms).answer.status ≥ 300 := by
  have hstatus : (Session.erring ms).answer.status = 500 := rfl
  omega

/-- A flat envelope is reported. -/
theorem flatEnvelope_reported :
    (Session.erring (flatMembers (.lit "not found: t") (.lit "NO_TABLE"))).Reports (.lit "GET")
      (.lit "/tables") none (.lit "not found: t") (.lit "NO_TABLE") := by
  rw [doRequest_reports_iff (Session.erring_ready _) (Session.erring_delivers (by decide))
    (Session.erring_status _) Heap.unlimited_succeeds
    (textOf_ofMembers (flatMembers_valid _ _)) (.inl (flatMembers_flat _ _))]
  exact .inl (flatMembers_flat _ _)

/-- A nested one is reported as it stands in the response, with another code. -/
theorem nestedEnvelope_notReported :
    NestedEnvelope (.lit "not found: t") (.lit "NO_TABLE")
        (writtenMembers (nestedMembers (.lit "not found: t") (.lit "NO_TABLE"))) ∧
      ¬(Session.erring (nestedMembers (.lit "not found: t") (.lit "NO_TABLE"))).Reports (.lit "GET")
        (.lit "/tables") none (.lit "not found: t") (.lit "NO_TABLE") := by
  refine ⟨nestedMembers_nested _ _, ?_⟩
  rw [reports_iff_errorMessage (Session.erring_ready _) (Session.erring_delivers (by decide))
    (Session.erring_status _) Heap.unlimited_succeeds]
  exact fun h => absurd h.1 (by decide)

end MongrelDB
