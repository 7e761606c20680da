import MongrelDB.Page
import MongrelDB.Serialize
import MongrelDB.Tables

/-!
# The client

The state of a client, and `do_request`, the one function that talks to the server.

A session is a client with its surroundings. What libcurl does with a request, and
what the server answers, is a parameter (`Curl.answers`), as are the outcomes of
allocations: each purpose has a heap of its own (`Heaps`), which admits the same
patterns of failures as a single one, and lets a theorem say which of them it is
about. The requests made are recorded.

Where `do_request` returns another code than `MDB_OK`, so does the function that
has called it: it is a program with an early return, and ends normally with `MDB_OK`.
-/

namespace MongrelDB

open Ascii Prog

/-! ## The state -/

/-- `mongreldb_client`: the strings it was connected with, the last response, the
    error slot, and the buffers of the results. -/
structure Client where
  baseUrl : CStr
  token : Option CStr
  username : Option CStr
  password : Option CStr
  timeoutSeconds : Int
  recv : Sbuf
  errorMsg : Sbuf
  names : NamesScratch
  scratch : Scratch
  lastCode : Code

/-- The allocator, by what an allocation is for. -/
structure Heaps where
  /-- The path and the body of a request. -/
  body : Heap
  /-- The URL, the headers, and the response. -/
  transfer : Heap
  /-- The results. -/
  decode : Heap
  /-- The error string. -/
  error : Heap

/-- What `curl_easy_perform` returns. -/
inductive CurlCode where
  | ok
  | filesizeExceeded
  | writeError
  /-- Another code, with the text of `curl_easy_strerror`. -/
  | other (strerror : CStr)
  deriving DecidableEq

/-- What libcurl does with a request. -/
structure Answer where
  /-- Whether `curl_easy_init` succeeds. -/
  init : Bool
  /-- Whether `curl_slist_append` succeeds, for each of the headers. -/
  accept : Bool
  contentType : Bool
  authorization : Bool
  /-- The parts of the response, as they are handed to the write callback. -/
  chunks : List Bytes
  /-- What `curl_easy_perform` returns, if the callback accepts them all. -/
  result : CurlCode
  /-- `CURLINFO_RESPONSE_CODE` -/
  status : Int

/-- A request, as it is handed to libcurl, by the options that differ from one to another. Each
    `curl_easy_setopt` is taken to succeed: `do_request` does not look at what it returns, and
    libcurl may refuse an option, such as a timeout that is too large for it. -/
structure Request where
  method : CStr
  url : Option CStr
  headers : List CStr
  userpwd : Option CStr
  timeout : Int
  body : Option CStr
  deriving DecidableEq

/-- libcurl: the answers to all requests, the number of those begun, and those
    made, the last one first. -/
structure Curl where
  answers : Nat → Answer
  begun : Nat
  sent : List Request

/-- A client with its surroundings. -/
structure Session where
  c : Client
  heaps : Heaps
  curl : Curl

/-- A function of the client, which may return a code. -/
abbrev Api := Prog Fault Session Code

/-- The bytes at `s->data`, with the NUL behind them, as a string. It is NULL as
    long as nothing is allocated. -/
def Sbuf.cstr? (s : Sbuf) : Option CStr :=
  if s.cap = 0 then none else some (CStr.at (s.data ++ [0]))

/-! ## Errors -/

/-- `set_error` -/
def setError (code : Code) (msg : Option Bytes) : Api Unit := modify fun s =>
  match msg with
  | none => { s with c := { s.c with lastCode := code, errorMsg := Sbuf.empty } }
  | some msg =>
    let (_, errorMsg, error) := Sbuf.empty.append msg s.heaps.error
    { s with c := { s.c with lastCode := code, errorMsg := errorMsg },
             heaps := { s.heaps with error := error } }

/-- `set_error_fmt`, with the formatted text. -/
def setErrorFmt (code : Code) (text : Bytes) : Api Unit := setError code (some (snprintf 512 text))

/-- An error, and the return of its code. -/
def fail {α : Type} (code : Code) (msg : String) : Api α := do
  setError code (some (ascii msg))
  ret code

/-- `dup_str`, of a string for the error slot. -/
def dupStr (s : CStr) : Api (Option CStr) := do
  let (granted, error) := (← get).heaps.error.request (s.bytes.length + 1)
  modify fun st => { st with heaps := { st.heaps with error := error } }
  return if granted then some s else none

/-- `mongreldb_last_error` -/
def Client.lastError (c : Client) : CStr := c.errorMsg.cstr?.getD (.lit "")

/-! ## Responses -/

/-- `write_cb`: what it returns. -/
def writeCb (p : Bytes) (out : Sbuf) (h : Heap) : Nat × Sbuf × Heap :=
  if out.len > MONGRELDB_MAX_RESPONSE_BYTES ||
      p.length > MONGRELDB_MAX_RESPONSE_BYTES - out.len then
    (0, out, h)
  else
    let (ok, out, h) := out.append p h
    if ok then (p.length, out, h) else (0, out, h)

/-- `curl_easy_perform`: the parts of the response are handed to `write_cb`, up to
    the first one it does not take all of. -/
def perform (ans : Answer) : List Bytes → Sbuf → Heap → CurlCode × Sbuf × Heap
  | [], out, h => (ans.result, out, h)
  | p :: ps, out, h =>
    let (n, out, h) := writeCb p out h
    if n ≠ p.length then (.writeError, out, h) else perform ans ps out h

/-- `classify_http_error` -/
def classifyHttpError (httpCode : Int) (msg : Option CStr) : Code :=
  if httpCode = 401 || httpCode = 403 then .auth
  else if httpCode = 404 then .notFound
  else if httpCode = 409 then .conflict
  else if msg.any (fun m => m.bytes.take 10 == ascii "not found:") then .notFound
  else .query

/-- The text for a response without a message. -/
def sentinel : Code → CStr
  | .auth => .lit "authentication failed"
  | .notFound => .lit "resource not found"
  | .conflict => .lit "constraint violation"
  | _ => .lit "server error"

/-- `json_get_string`, of a string for the error slot. -/
def errorField (json : Bytes) (key : CStr) : Api (Option CStr) := do
  let (_, s, error) ← lift (jsonGetString json key (← get).heaps.error)
  modify fun st => { st with heaps := { st.heaps with error := error } }
  return s

/-- The end of `do_request` for an HTTP error: the error envelope is decoded. -/
def httpError {α : Type} (httpCode : Int) : Api α := do
  let recv := (← get).c.recv
  let (msg, code) ← do
    match ← errorField recv.data (.lit "message") with
    | some msg => pure (some msg, ← errorField recv.data (.lit "code"))
    | none =>
      -- Fall back to the raw body.
      if recv.len > 0 then pure (← dupStr (CStr.at (recv.data ++ [0])), none) else pure (none, none)
  let mapped := classifyHttpError httpCode msg
  let msg ← match msg with
    | some msg => pure (some msg)
    | none => dupStr (sentinel mapped)
  match msg, code with
  | some msg, some code =>
    setErrorFmt mapped (msg.bytes ++ (ascii " (" ++ (code.bytes ++ ascii ")")))
  | _, _ => setError mapped (msg.map CStr.bytes)
  ret mapped

/-! ## Requests -/

/-- `curl_slist_append` -/
def slistAppend (ok : Bool) (list : Option (List CStr)) (s : CStr) : Option (List CStr) :=
  if ok then some (list.getD [] ++ [s]) else none

/-- Pieces appended to a buffer that is freed at the end of `do_request`. -/
def transferAppends (ps : Appends) : Api Sbuf := do
  let (buf, transfer) := Sbuf.empty.appendAll (← get).heaps.transfer ps
  modify fun s => { s with heaps := { s.heaps with transfer := transfer } }
  return buf

/-- The URL of a path, which must not be NULL. -/
def buildUrl (path : Option CStr) : Api (Option CStr) := do
  let some path := path | fault .null
  let baseUrl := (← get).c.baseUrl
  let buf ← transferAppends (if path.bytes.head? = some slash then [baseUrl.bytes, path.bytes]
    else [baseUrl.bytes, [slash], path.bytes])
  return buf.cstr?

/-- The `Authorization` header, for a token. -/
def authHeader (token : CStr) : Api CStr := do
  let s ← get
  let (ok, auth, h) := Sbuf.empty.append (ascii "Authorization: Bearer ") s.heaps.transfer
  let (ok, auth, h) := if ok then auth.append token.bytes h else (false, auth, h)
  modify fun s => { s with heaps := { s.heaps with transfer := h } }
  if !ok then fail .nomem "out of memory building auth header"
  return CStr.at (auth.data ++ [0])

/-- The headers and the credentials of a request. -/
def authorize (ans : Answer) (headers : Option (List CStr)) :
    Api (Option (List CStr) × Option CStr) := do
  let c := (← get).c
  match c.token, c.username with
  | some token, _ =>
    let auth ← authHeader token
    match slistAppend ans.authorization headers auth with
    | none => fail .nomem "out of memory appending auth header"
    | some appended => return (some appended, none)
  | none, some username =>
    let creds ← transferAppends [username.bytes, [colon], (orEmpty c.password).bytes]
    return (headers, creds.cstr?)
  | none, none => return (headers, none)

/-- `curl_easy_perform`, and the request that is made: what libcurl is handed, whichever of the
    options it has taken. -/
def send (req : Request) (ans : Answer) : Api CurlCode := do
  let s ← get
  let (rc, recv, transfer) := perform ans ans.chunks s.c.recv s.heaps.transfer
  modify fun s => { s with c := { s.c with recv := recv },
                           heaps := { s.heaps with transfer := transfer },
                           curl := { s.curl with sent := req :: s.curl.sent } }
  return rc

/-- The end of `do_request`, behind the transfer. -/
def receive (rc : CurlCode) (httpCode : Int) : Api Unit := do
  let s ← get
  if rc = .filesizeExceeded || rc = .writeError || s.c.recv.len > MONGRELDB_MAX_RESPONSE_BYTES then
    setErrorFmt .query (ascii "response body exceeds " ++
      (intText MONGRELDB_MAX_RESPONSE_BYTES ++ ascii " bytes"))
    ret .query
  if let .other strerror := rc then
    setErrorFmt .network (ascii "network error: " ++ strerror.bytes)
    ret .network
  -- A NUL behind the body.
  let (reserved, recv, transfer) := s.c.recv.reserve 1 s.heaps.transfer
  modify fun s => { s with c := { s.c with recv := recv },
                           heaps := { s.heaps with transfer := transfer } }
  if !reserved then fail .nomem "out of memory reading response"
  if httpCode < 200 || httpCode ≥ 300 then httpError httpCode

/-- `do_request` -/
def doRequest (method : CStr) (path requestBody : Option CStr) : Api Unit := do
  modify fun s =>
    { s with c := { s.c with lastCode := .ok, errorMsg := Sbuf.empty, recv := Sbuf.empty } }
  let url ← buildUrl path
  let s ← get
  let ans := s.curl.answers s.curl.begun
  modify fun s => { s with curl := { s.curl with begun := s.curl.begun + 1 } }
  if !ans.init then fail .network "curl_easy_init failed"
  let headers := slistAppend ans.accept none (.lit "Accept: application/json")
  let headers :=
    if requestBody.isSome then
      slistAppend ans.contentType headers (.lit "Content-Type: application/json")
    else headers
  let (all, userpwd) ← authorize ans headers
  let rc ← send { method, url, userpwd, timeout := s.c.timeoutSeconds, body := requestBody,
                  -- A header is appended in place to the list given to libcurl, if there is one.
                  headers := if headers.isSome then all.getD [] else [] } ans
  receive rc ans.status

/-- `c_get` -/
def cGet (path : Option CStr) : Api Unit := doRequest (.lit "GET") path none

/-- `c_post` -/
def cPost (path body : Option CStr) : Api Unit := doRequest (.lit "POST") path body

/-- `c_put` -/
def cPut (path body : Option CStr) : Api Unit := doRequest (.lit "PUT") path body

/-- `c_delete` -/
def cDelete (path : Option CStr) : Api Unit := doRequest (.lit "DELETE") path none

/-- Pieces appended to a buffer for the path or the body of a request. -/
def bodyAppends (ps : Appends) : Api (Option CStr) := do
  let (buf, body) := Sbuf.empty.appendAll (← get).heaps.body ps
  modify fun s => { s with heaps := { s.heaps with body := body } }
  return buf.cstr?

end MongrelDB
