import Mathlib.Data.List.DropRight
import MongrelDB.Api.Log
import MongrelDB.Lib.Memory

/-!
# Connecting and closing

The functions that make a client, and the one that frees it. A client is a block with
pointers to others (`Connection`); which of its strings are there, and what they say, is
told by what it was connected with (`Connect.settings`).

* `Connect.opens_spec`: a client has all of its credentials, or there is none;
* `mongreldbClose_frees`: a client is freed with all that it owns, and nothing is freed twice;
* `connect_close_restores_iff`: to connect and to close leaves no block behind, except in one
  case: the block for the error string is there, and the one for the base URL is not.
-/

namespace MongrelDB

open Ascii Prog

/-! ## The functions -/

/-- `MONGRELDB_DEFAULT_URL` -/
def MONGRELDB_DEFAULT_URL : CStr := .lit "http://127.0.0.1:8453"

/-- A string in a block of its own. -/
structure Copy where
  block : Nat
  text : CStr

/-- `mongreldb_client`, by the blocks it points to. -/
structure Connection where
  self : Nat
  timeoutSeconds : Int
  baseUrl : Option Copy
  token : Option Copy
  username : Option Copy
  password : Option Copy
  recv : Option Nat
  send : Option Nat
  errorMsg : Option Nat
  namesArr : Option Nat
  namesBlob : Option Nat
  rowsArr : Option Nat
  cellsArr : Option Nat
  valuesBlob : Option Nat
  cellStrOffs : Option Nat
  rowCellStarts : Option Nat

namespace Connection

/-- What `calloc` and `sbuf_init` leave. -/
def zero (self : Nat) : Connection :=
  ⟨self, 0, none, none, none, none, none, none, none, none, none, none, none, none, none, none⟩

/-- The pointers of a client, as they are freed, and the client itself. -/
def pointers (c : Connection) : List (Option Nat) :=
  [c.baseUrl.map Copy.block, c.token.map Copy.block, c.username.map Copy.block,
    c.password.map Copy.block, c.recv, c.send, c.errorMsg, c.namesArr, c.namesBlob, c.rowsArr,
    c.cellsArr, c.valuesBlob, c.cellStrOffs, c.rowCellStarts, some c.self]

/-- The blocks of a client. -/
def owned (c : Connection) : List Nat := c.pointers.reduceOption

end Connection

/-- `dup_str`, of a string that is not NULL. -/
def duplicate (s : CStr) : OnMemory (Option Copy) := do
  let p ← malloc
  return p.map (⟨·, s⟩)

/-- The loop that trims a base URL. -/
def trimSlashes (u : CStr) : CStr where
  bytes := u.bytes.rdropWhile (· == slash)
  noNul h := u.noNul ((List.rdropWhile_prefix _ u.bytes).subset h)

/-- `mongreldb_close` -/
def mongreldbClose : Option Connection → OnMemory Unit
  | none => pure ()
  | some c => freeAll c.pointers

/-- The end of `mongreldb_connect_with_token`: the strings are copied. -/
def connectStrings (c : Connection) (url token : Option CStr) : OnMemory (Option Connection) := do
  let some u ← duplicate (if isGiven url then orEmpty url else MONGRELDB_DEFAULT_URL) | do
    -- The client alone, and not its error string.
    free (some c.self)
    return none
  let c := { c with baseUrl := some { u with text := trimSlashes u.text } }
  if isGiven token then
    let some t ← duplicate (orEmpty token) | do
      mongreldbClose (some c)
      return none
    return some { c with token := some t }
  return some c

/-- `mongreldb_connect_with_token` -/
def mongreldbConnectWithToken (url token : Option CStr) : OnMemory (Option Connection) := do
  let some self ← malloc | return none
  -- The empty string is appended to the error string, which takes an allocation.
  let errorMsg ← malloc
  connectStrings { Connection.zero self with timeoutSeconds := 30, errorMsg } url token

/-- `mongreldb_connect` -/
def mongreldbConnect (url : Option CStr) : OnMemory (Option Connection) :=
  mongreldbConnectWithToken url none

/-- `mongreldb_connect_with_basic_auth` -/
def mongreldbConnectWithBasicAuth (url username password : Option CStr) :
    OnMemory (Option Connection) := do
  let some c ← mongreldbConnectWithToken url none | return none
  if isGiven username then
    let user ← duplicate (orEmpty username)
    let pass ← duplicate (orEmpty password)
    let c := { c with username := user, password := pass }
    if user.isNone || pass.isNone then
      mongreldbClose (some c)
      return none
    return some c
  return some c

/-- How to connect. -/
inductive Connect where
  | plain (url : Option CStr)
  | token (url token : Option CStr)
  | basicAuth (url username password : Option CStr)

namespace Connect

/-- The function that makes the client. -/
def opens : Connect → OnMemory (Option Connection)
  | plain url => mongreldbConnect url
  | token url given => mongreldbConnectWithToken url given
  | basicAuth url username password => mongreldbConnectWithBasicAuth url username password

/-- The URL that is given. -/
def url : Connect → Option CStr
  | plain url => url
  | token url _ => url
  | basicAuth url _ _ => url

/-- The settings of the client. -/
def settings (how : Connect) : Settings where
  baseUrl := trimSlashes (if isGiven how.url then orEmpty how.url else MONGRELDB_DEFAULT_URL)
  token := match how with
    | token _ given => if isGiven given then given else none
    | _ => none
  username := match how with
    | basicAuth _ username _ => if isGiven username then username else none
    | _ => none
  password := match how with
    | basicAuth _ username password => if isGiven username then some (orEmpty password) else none
    | _ => none
  timeoutSeconds := 30

end Connect

/-- The settings of a connection. -/
def Connection.settings (c : Connection) : Settings where
  baseUrl := orEmpty (c.baseUrl.map Copy.text)
  token := c.token.map Copy.text
  username := c.username.map Copy.text
  password := c.password.map Copy.text
  timeoutSeconds := c.timeoutSeconds

/-- The client, as it has been connected. -/
def Connection.client (c : Connection) : Client where
  baseUrl := orEmpty (c.baseUrl.map Copy.text)
  token := c.token.map Copy.text
  username := c.username.map Copy.text
  password := c.password.map Copy.text
  timeoutSeconds := c.timeoutSeconds
  recv := Sbuf.empty
  errorMsg := if c.errorMsg.isSome then ⟨[], 64⟩ else Sbuf.empty
  names := .freed
  scratch := .freed
  lastCode := .ok

/-! ## Blocks -/

section

variable {c : Connection} {m : Memory}

/-- A client is freed with all that it owns. -/
theorem mongreldbClose_frees {m₀ : Memory} {k : Nat} {ps : List Nat}
    (h : m₀.Holds m k (c.owned ++ ps)) :
    wp (mongreldbClose (some c)) (fun _ m' => m₀.Holds m' k ps) (fun _ _ => False) m :=
  wp_freeAll h fun _ h => h

theorem mongreldbClose_frees_all {m₀ : Memory} {k : Nat} (h : m₀.Holds m k c.owned) :
    wp (mongreldbClose (some c)) (fun _ m' => m₀.Holds m' k []) (fun _ _ => False) m :=
  mongreldbClose_frees (by rw [List.append_nil]; exact h)

/-- The block for the error string is there, and the one for the base URL is not. -/
def Memory.Leaks (m : Memory) : Prop :=
  m.grants m.asked = true ∧ m.grants (m.asked + 1) = true ∧ m.grants (m.asked + 2) = false

instance : Decidable m.Leaks := inferInstanceAs (Decidable (_ ∧ _ ∧ _))

/-- The block of the error string, which is the second one that is asked for. -/
def Memory.errorBlock? (m : Memory) : Option Nat :=
  if m.grants (m.asked + 1) then some (m.asked + 1) else none

/-- What is left behind if there is no client: the error string, if the memory leaks. -/
def Memory.left (m : Memory) : List Nat := if m.Leaks then m.errorBlock?.toList else []

/-- How it ends to connect: with a client that owns what was allocated, its error string in the
    block of that name, or without one, and then the error string is left if the memory leaks,
    and nothing else. -/
def Connect.Opens (how : Connect) (m : Memory) : Option Connection → Memory → Prop
  | some c, m' => c.settings = how.settings ∧ c.errorMsg = m.errorBlock? ∧ ¬m.Leaks ∧
      ∃ k, m.Holds m' k c.owned
  | none, m' => ∃ k, m.Holds m' k m.left

theorem Memory.left_of_not_leaks (h : ¬m.Leaks) : m.left = [] := if_neg h

/-- All that was allocated is freed, and nothing is to be left. -/
theorem Memory.Holds.only_left {m' : Memory} {k : Nat} (h : m.Holds m' k []) (hleaks : ¬m.Leaks) :
    ∃ k, m.Holds m' k m.left :=
  ⟨k, (left_of_not_leaks hleaks).symm ▸ h⟩

theorem Memory.left_eq_nil_iff : m.left = [] ↔ ¬m.Leaks := by
  refine ⟨fun h hleaks => ?_, left_of_not_leaks⟩
  rw [left, if_pos hleaks, errorBlock?, if_pos hleaks.2.1] at h
  cases h

/-- A copy of a string is made, or there is no memory for it. -/
theorem wp_duplicate {m₀ : Memory} {k : Nat} {ps : List Nat} {s : CStr}
    {Q : Option Copy → Memory → Prop} {R : Empty → Memory → Prop} (h : m₀.Holds m k ps)
    (hgranted : m₀.grants (m₀.asked + k) = true →
      ∀ p m', m₀.Holds m' (k + 1) (p :: ps) → Q (some ⟨p, s⟩) m')
    (hrefused : m₀.grants (m₀.asked + k) = false → ∀ m', m₀.Holds m' (k + 1) ps → Q none m') :
    wp (duplicate s) Q R m :=
  wp_bind.2 (wp_malloc h (fun hg => hgranted hg _) hrefused)

theorem eq_orEmpty_of_given {t : Option CStr} (h : isGiven t = true) : t = some (orEmpty t) := by
  cases t with
  | none => cases h
  | some t => rfl

/-- A single block is freed. -/
theorem wp_free {m₀ : Memory} {k p : Nat} {ps : List Nat} {Q : Unit → Memory → Prop}
    {R : Empty → Memory → Prop} (h : m₀.Holds m k (p :: ps))
    (hfreed : ∀ m', m₀.Holds m' k ps → Q () m') : wp (free (some p)) Q R m := by
  have hall : wp (freeAll [some p]) Q R m := wp_freeAll h hfreed
  exact wp_mono (wp_bind.1 hall) (fun _ _ h => h) fun _ _ h => h

/-- Behind the allocation for the error string. -/
theorem connectStrings_opens {self : Nat} {m₀ : Memory} (errorMsg : Option Nat)
    (url token : Option CStr) (h : m₀.Holds m 2 (errorMsg.toList ++ [self]))
    (hself : m₀.grants m₀.asked = true) (herror : errorMsg = m₀.errorBlock?) :
    wp (connectStrings { Connection.zero self with timeoutSeconds := 30, errorMsg } url token)
      ((Connect.token url token).Opens m₀) (fun _ _ => False) m := by
  have howned : ∀ (u : Copy) (t : Option Copy), Connection.owned { Connection.zero self with
      timeoutSeconds := 30, errorMsg, baseUrl := some u, token := t } =
      u.block :: ((t.map Copy.block).toList ++ (errorMsg.toList ++ [self])) := by
    intro u t
    cases t <;> cases errorMsg <;> rfl
  refine wp_bind.2 (wp_duplicate h (fun hurl p m₁ hm₁ => ?_) fun hurl m₁ hm₁ => ?_)
  · have hleaks : ¬m₀.Leaks := fun hleaks => by cases hurl.symm.trans hleaks.2.2
    refine wp_ite.2 ⟨fun hgiven => ?_, fun hgiven => ?_⟩
    · refine wp_bind.2 (wp_duplicate hm₁ (fun _ q m₂ hm₂ => ?_) fun _ m₂ hm₂ => ?_)
      · refine ⟨?_, herror, hleaks, _, hm₂.perm ?_⟩
        · have htoken : some (orEmpty token) = if isGiven token then token else none := by
            rw [if_pos hgiven, ← eq_orEmpty_of_given hgiven]
          exact congrArg (fun t => (⟨_, t, none, none, 30⟩ : Settings)) htoken
        · rw [howned]
          exact .swap p q _
      · -- All that was allocated is freed.
        refine wp_bind.2 (wp_mono (mongreldbClose_frees_all (by rw [howned]; exact hm₂))
          (fun _ m' hm' => ?_) fun _ _ h => h)
        exact hm'.only_left hleaks
    · refine ⟨?_, herror, hleaks, 3, ?_⟩
      · have htoken : none = if isGiven token then token else none := (if_neg hgiven).symm
        exact congrArg (fun t => (⟨_, t, none, none, 30⟩ : Settings)) htoken
      · rw [howned]
        exact hm₁
  · -- The client is freed, and the error string is not.
    refine wp_bind.2 (wp_free (hm₁.perm (List.perm_append_singleton self _)) fun m' hm' => ⟨3, ?_⟩)
    have hleft : m₀.left = errorMsg.toList := by
      rw [Memory.left, ← herror]
      split_ifs with hleaks
      · rfl
      · have hnone : m₀.errorBlock? = none := if_neg fun hgrants => hleaks ⟨hself, hgrants, hurl⟩
        rw [herror, hnone]
        rfl
    rw [hleft]
    exact hm'

theorem connectWithToken_opens (url token : Option CStr) :
    wp (mongreldbConnectWithToken url token) ((Connect.token url token).Opens m)
      (fun _ _ => False) m := by
  refine wp_bind.2 (wp_malloc (.refl m) (fun hself m₁ hm₁ => ?_) fun hself m₁ hm₁ => ?_)
  · refine wp_bind.2 (wp_malloc hm₁ (fun herror m₂ hm₂ => ?_) fun herror m₂ hm₂ => ?_)
    · exact connectStrings_opens _ url token hm₂ hself (if_pos herror).symm
    · have hnone : m.errorBlock? = none := if_neg (Bool.eq_false_iff.1 herror)
      exact connectStrings_opens none url token hm₂ hself hnone.symm
  · exact hm₁.only_left fun hleaks => by cases hself.symm.trans hleaks.1

/-- The blocks of a client with copies of a name and a password. -/
theorem Connection.owned_withUser {user pass : Option Copy} (huser : c.username = none)
    (hpass : c.password = none) :
    ((pass.map Copy.block).toList ++ ((user.map Copy.block).toList ++ c.owned)).Perm
      (Connection.owned { c with username := user, password := pass }) := by
  -- The blocks in front of these two, and behind them.
  obtain ⟨front, back, hfront⟩ : ∃ front back : List (Option Nat), ∀ user pass : Option Copy,
      Connection.pointers { c with username := user, password := pass } =
        front ++ ([user.map Copy.block] ++ ([pass.map Copy.block] ++ back)) :=
    ⟨[c.baseUrl.map Copy.block, c.token.map Copy.block], [c.recv, c.send, c.errorMsg, c.namesArr,
      c.namesBlob, c.rowsArr, c.cellsArr, c.valuesBlob, c.cellStrOffs, c.rowCellStarts,
      some c.self], fun _ _ => rfl⟩
  have howned : ∀ user pass : Option Copy,
      Connection.owned { c with username := user, password := pass } = front.reduceOption ++
        ((user.map Copy.block).toList ++ ((pass.map Copy.block).toList ++ back.reduceOption)) := by
    intro user pass
    rw [owned, hfront, List.reduceOption_append, List.reduceOption_append,
      List.reduceOption_append, List.reduceOption_singleton, List.reduceOption_singleton]
  have hc : c = { c with username := none, password := none } := by
    obtain ⟨self, timeoutSeconds, baseUrl, token, username, password⟩ := c
    cases huser
    cases hpass
    rfl
  have hnone : c.owned = front.reduceOption ++ back.reduceOption := by
    rw [hc]
    exact howned none none
  rw [hnone, howned user pass]
  exact (List.perm_append_comm_assoc _ _ _).trans
    (((List.perm_append_comm_assoc _ _ _).append_left _).trans (List.perm_append_comm_assoc _ _ _))

theorem connectWithBasicAuth_opens (url username password : Option CStr) :
    wp (mongreldbConnectWithBasicAuth url username password)
      ((Connect.basicAuth url username password).Opens m) (fun _ _ => False) m := by
  refine wp_bind.2 (wp_mono (connectWithToken_opens url none) (fun r m₁ hm₁ => ?_) fun _ _ h => h)
  cases r with
  | none => exact hm₁
  | some c =>
    obtain ⟨hsettings, herror, hleaks, k, hm₁⟩ := hm₁
    have huser : c.username = none :=
      Option.map_eq_none_iff.1 (congrArg Settings.username hsettings)
    have hpass : c.password = none :=
      Option.map_eq_none_iff.1 (congrArg Settings.password hsettings)
    -- However the two copies come out: if either is missing, the client is closed again.
    have hend : ∀ (user pass : Option Copy) (m' : Memory), m.Holds m' (k + 2)
        ((pass.map Copy.block).toList ++ ((user.map Copy.block).toList ++ c.owned)) →
        (∀ u ∈ user, u.text = orEmpty username) → (∀ p ∈ pass, p.text = orEmpty password) →
        isGiven username = true →
        wp (if (user.isNone || pass.isNone) = true then
            mongreldbClose (some { c with username := user, password := pass }) >>= fun _ =>
              pure none
          else pure (some { c with username := user, password := pass }))
          ((Connect.basicAuth url username password).Opens m) (fun _ _ => False) m' := by
      intro user pass m' hm' hu hp hgiven
      refine wp_ite.2 ⟨fun _ => ?_, fun hsome => ?_⟩
      · refine wp_bind.2 (wp_mono (mongreldbClose_frees_all
          (hm'.perm (Connection.owned_withUser huser hpass))) (fun _ m'' hm'' => ?_) fun _ _ h => h)
        exact hm''.only_left hleaks
      · refine ⟨?_, herror, hleaks, _, hm'.perm (Connection.owned_withUser huser hpass)⟩
        have husername : some (orEmpty username) = if isGiven username then username else none := by
          rw [if_pos hgiven, ← eq_orEmpty_of_given hgiven]
        rcases user with _ | user
        · exact absurd rfl hsome
        · rcases pass with _ | pass
          · exact absurd rfl hsome
          · have hname : (some user.text, some pass.text) = ((if isGiven username then username
                else none), if isGiven username then some (orEmpty password) else none) := by
              rw [hu user rfl, hp pass rfl, husername, if_pos hgiven, if_pos hgiven]
            exact congrArg₂ (fun (t : Settings) (n : Option CStr × Option CStr) =>
              ({ t with username := n.1, password := n.2 } : Settings)) hsettings hname
    refine wp_ite.2 ⟨fun hgiven => ?_, fun hgiven => ?_⟩
    · refine wp_bind.2 (wp_duplicate hm₁ (fun _ p m₂ hm₂ => ?_) fun _ m₂ hm₂ => ?_) <;>
        refine wp_bind.2 (wp_duplicate hm₂ (fun _ q m₃ hm₃ => ?_) fun _ m₃ hm₃ => ?_)
      · exact hend (some ⟨p, _⟩) (some ⟨q, _⟩) m₃ hm₃ (fun u hu => Option.some.inj hu ▸ rfl)
          (fun u hu => Option.some.inj hu ▸ rfl) hgiven
      · exact hend (some ⟨p, _⟩) none m₃ hm₃ (fun u hu => Option.some.inj hu ▸ rfl)
          (fun u hu => (by cases hu)) hgiven
      · exact hend none (some ⟨q, _⟩) m₃ hm₃ (fun u hu => (by cases hu))
          (fun u hu => Option.some.inj hu ▸ rfl) hgiven
      · exact hend none none m₃ hm₃ (fun u hu => (by cases hu)) (fun u hu => (by cases hu)) hgiven
    · refine ⟨?_, herror, hleaks, k, hm₁⟩
      have husername : none = if isGiven username then username else none := (if_neg hgiven).symm
      have hpassword : none = if isGiven username then some (orEmpty password) else none :=
        (if_neg hgiven).symm
      rw [hsettings]
      exact congrArg₂ (fun t u => (⟨_, none, t, u, 30⟩ : Settings)) husername hpassword

/-- However it ends to connect, what was allocated is the client, with all of its settings, or it
    is freed but for the error string, which is left exactly if the memory leaks. -/
theorem Connect.opens_spec (how : Connect) (m : Memory) :
    wp how.opens (how.Opens m) (fun _ _ => False) m := by
  cases how with
  | plain url =>
    refine wp_mono (connectWithToken_opens url none) (fun r m' h => ?_) fun _ _ h => h
    cases r with
    | none => exact h
    | some c => exact ⟨h.1, h.2⟩
  | token url given => exact connectWithToken_opens url given
  | basicAuth url username password => exact connectWithBasicAuth_opens url username password

/-- To connect and to close leaves no block behind, and frees none twice, except that the error
    string is left behind if there is no memory for the base URL. -/
theorem connect_close_restores_iff (how : Connect) (m : Memory) :
    wp (how.opens >>= mongreldbClose) (fun _ m' => m'.live = m.live ↔ ¬m.Leaks)
      (fun _ _ => False) m := by
  refine wp_bind.2 (wp_mono (how.opens_spec m) (fun r m₁ h => ?_) fun _ _ h => h)
  cases r with
  | none =>
    obtain ⟨k, hm₁⟩ := h
    exact hm₁.live_eq_iff.trans Memory.left_eq_nil_iff
  | some c =>
    obtain ⟨-, -, hleaks, k, hm₁⟩ := h
    exact wp_mono (mongreldbClose_frees_all hm₁)
      (fun _ m' hm' => iff_of_true (hm'.live_eq_iff.2 rfl) hleaks) fun _ _ h => h

end

/-! ## Settings -/

/-- The settings of a client that is connected. -/
structure Settings.Sound (settings : Settings) : Prop where
  baseUrl : settings.baseUrl.bytes.getLast? ≠ some slash
  token : ∀ token ∈ settings.token, token.bytes ≠ []
  username : ∀ username ∈ settings.username, username.bytes ≠ []
  single : settings.token = none ∨ settings.username = none
  timeout : 0 < settings.timeoutSeconds

theorem Settings.Sound.setTimeout {settings : Settings} (h : settings.Sound)
    (timeoutSeconds : Int) :
    (settings.setTimeout timeoutSeconds).Sound where
  baseUrl := h.baseUrl
  token := h.token
  username := h.username
  single := h.single
  timeout := by
    rw [Settings.setTimeout]
    split_ifs with hpos
    · exact hpos
    · exact (by decide : (0 : Int) < 30)

theorem trimSlashes_getLast? (u : CStr) : (trimSlashes u).bytes.getLast? ≠ some slash := by
  intro h
  rw [trimSlashes] at h
  obtain ⟨hne, hlast⟩ := List.mem_getLast?_eq_getLast h
  have hno := List.rdropWhile_last_not (· == slash) u.bytes hne
  exact hno (beq_iff_eq.2 hlast.symm)

theorem ne_nil_of_given {t : Option CStr} {x : CStr}
    (h : (if isGiven t then t else none) = some x) : x.bytes ≠ [] := by
  split_ifs at h with hgiven
  rw [h] at hgiven
  rintro hnil
  rw [isGiven, Option.any_some, hnil] at hgiven
  cases hgiven

theorem Connect.settings_sound (how : Connect) : how.settings.Sound := by
  refine ⟨trimSlashes_getLast? _, ?_, ?_, ?_, (by decide : (0 : Int) < 30)⟩
  · intro x hx
    cases how with
    | token url given => exact ne_nil_of_given hx
    | plain url => cases hx
    | basicAuth url username password => cases hx
  · intro x hx
    cases how with
    | basicAuth url username password => exact ne_nil_of_given hx
    | plain url => cases hx
    | token url given => cases hx
  · cases how with
    | plain url => exact .inl rfl
    | token url given => exact .inr rfl
    | basicAuth url username password => exact .inl rfl

/-- A request with a timeout, and one authorization at most. -/
def Request.Sound (req : Request) : Prop :=
  0 < req.timeout ∧ ((∃ token, bearerHeader token ∈ req.headers) → req.userpwd = none)

theorem Settings.Asks.sound {settings : Settings} {o : Outline} {req : Request}
    (hsettings : settings.Sound) (h : settings.Asks o req) : req.Sound := by
  refine ⟨h.timeout ▸ hsettings.timeout, ?_⟩
  rintro ⟨token, hheader⟩
  rw [Option.eq_none_iff_forall_not_mem]
  intro userpwd huserpwd
  have htoken := (h.userpwd userpwd huserpwd).1
  have hheader' := h.headers.subset hheader
  rw [htoken, headersOf, Option.map_none, Option.toList_none, List.append_nil] at hheader'
  exact bearerHeader_notMem_plainHeaders
    ((plainHeaders_eq_iff (.of 200 []) req.body).2 ⟨rfl, fun _ => rfl⟩) token hheader'

theorem Settings.Log.sound {lib : Libc} {settings : Settings} {steps : List Step}
    {codes : List Code} {reqs : List Request} (hsettings : settings.Sound)
    (h : settings.Log lib steps codes reqs) : ∀ req ∈ reqs, req.Sound := by
  induction steps generalizing settings codes reqs with
  | nil =>
    obtain ⟨-, rfl⟩ := h
    exact fun _ h => absurd h List.not_mem_nil
  | cons step steps ih =>
    cases step with
    | setTimeout timeoutSeconds => exact ih (hsettings.setTimeout timeoutSeconds) h
    | call call =>
      obtain ⟨rc, req?, codes', reqs', rfl, rfl, hallows, hrest⟩ := h
      intro req hreq
      rcases List.mem_append.1 hreq with hreq | hreq
      · obtain ⟨o, -, hasks⟩ := hallows.asks req (Option.mem_toList.1 hreq)
        exact hasks.sound hsettings
      · exact ih hsettings hrest req hreq

/-- A client that has been connected, with its surroundings. -/
def Connection.session (c : Connection) (heaps : Heaps) (answers : Nat → Answer) : Session :=
  ⟨c.client, heaps, ⟨answers, 0, []⟩⟩

/-- A client that is connected has its settings. -/
theorem Connect.settings_of_opens {how : Connect} {c : Connection} {m m' : Memory}
    (h : how.opens m = .val (some c) m') : c.settings = how.settings := by
  have hopens := how.opens_spec m
  rw [wp, h] at hopens
  exact hopens.1

/-- However a client was connected, and whatever the server and the allocator do, a program never
    makes a request without a timeout, or with two authorizations. -/
theorem connected_requests_sound {lib : Libc} {how : Connect} {c : Connection} {m m' : Memory}
    {heaps : Heaps} {answers : Nat → Answer} {steps : List Step} {s' : Session}
    (hopen : how.opens m = .val (some c) m')
    (hrun : run (Session.next lib) steps (c.session heaps answers) = some s') :
    ∀ req ∈ s'.curl.sent, req.Sound := by
  obtain ⟨reqs, hlog, hsent⟩ := run_log hrun
  have hsettings : (c.session heaps answers).c.settings.Sound := by
    have hclient : (c.session heaps answers).c.settings = c.settings := rfl
    rw [hclient, Connect.settings_of_opens hopen]
    exact how.settings_sound
  intro req hreq
  rw [hsent, List.mem_append] at hreq
  rcases hreq with hreq | hreq
  · exact Settings.Log.sound hsettings hlog req (List.mem_reverse.1 hreq)
  · exact absurd hreq List.not_mem_nil

/-- A memory that grants everything. -/
def Memory.unlimited : Memory := ⟨fun _ => true, 0, ∅, fun _ h => absurd h (Finset.notMem_empty _)⟩

/-- A client with this token, as it is connected where memory grants everything. -/
def Connection.withToken (token : CStr) : Connection :=
  { Connection.zero 0 with
    timeoutSeconds := 30
    errorMsg := some 1
    baseUrl := some ⟨2, trimSlashes MONGRELDB_DEFAULT_URL⟩
    token := some ⟨3, token⟩ }

theorem connected_health_sound : ∃ s', run (Session.next Libc.zero) [.setTimeout 0, .call .health]
      ((Connection.withToken (.lit "t")).session ⟨.unlimited, .unlimited, .unlimited, .unlimited⟩
        fun _ => .of 200 []) = some s' ∧
    ∀ req ∈ s'.curl.sent, req.Sound := by
  have hopen : (Connect.token none (some (.lit "t"))).opens .unlimited =
      .val (some (Connection.withToken (.lit "t"))) Memory.unlimited.alloc.alloc.alloc.alloc := rfl
  have hrun : (run (Session.next Libc.zero) [.setTimeout 0, .call .health]
      ((Connection.withToken (.lit "t")).session ⟨.unlimited, .unlimited, .unlimited, .unlimited⟩
        fun _ => .of 200 [])).isSome = true := by decide
  obtain ⟨s', hs'⟩ := Option.isSome_iff_exists.1 hrun
  exact ⟨s', hs', connected_requests_sound hopen hs'⟩

end MongrelDB
