import MongrelDB.Api
import MongrelDB.Page.Body
import MongrelDB.Tables.Body

/-!
# Results

What the functions of the client do with a response once it is received. Its decoding
does not fault, whatever the server has sent, and changes nothing of the session but
the buffers of the results (`Session.Decoded`). So whatever a decoding returns, the
error slot is as the request has left it.
-/

namespace MongrelDB

open Prog

/-! ## Programs that go through -/

/-- From any state, the program neither faults nor returns early. -/
def Total {σ ε α : Type} (x : Prog Fault σ ε α) : Prop :=
  ∀ s, wp x (fun _ _ => True) (fun _ _ => False) s

namespace Total

variable {σ ε α β : Type} {x : Prog Fault σ ε α}

theorem pure {a : α} : Total (Pure.pure a : Prog Fault σ ε α) := fun _ => trivial

theorem modify {f : σ → σ} : Total (Prog.modify f : Prog Fault σ ε Unit) := fun _ => trivial

theorem get : Total (Prog.get : Prog Fault σ ε σ) := fun _ => trivial

theorem lift {y : Run α} {Q : α → Prop} (h : Ends y Q) :
    Total (Prog.lift y : Prog Fault σ ε α) := by
  obtain ⟨a, rfl, -⟩ := h
  exact fun _ => trivial

theorem bind {f : α → Prog Fault σ ε β} (hx : Total x) (hf : ∀ a, Total (f a)) : Total (x >>= f) :=
  fun s => wp_step (hx s) fun a s' _ => hf a s'

theorem ite {c : Prop} [Decidable c] {y : Prog Fault σ ε α} (hx : Total x) (hy : Total y) :
    Total (if c then x else y) := by
  split_ifs
  · exact hx
  · exact hy

end Total

/-! ## The status of a query -/

section

variable (lib : Libc) (json : Bytes) (key : CStr)

theorem appendBlob_total (p : Bytes) : Total (appendBlob p) := fun _ => trivial

theorem jsonCopyStringFieldOff_total : Total (jsonCopyStringFieldOff json key) := by
  refine Total.get.bind fun s => (Total.lift (jsonGetString_ends json key s.heap)).bind fun x => ?_
  obtain ⟨_ | _, _ | _, h⟩ := x
  case true.some =>
    exact Total.modify.bind fun _ => (appendBlob_total _).bind fun _ =>
      Total.ite Total.pure ((appendBlob_total _).bind fun _ => Total.ite Total.pure Total.pure)
  all_goals exact Total.modify.bind fun _ => Total.pure

theorem flagBool_total : Total (flagBool json key) :=
  (Total.lift (jsonGetBool_ends json key)).bind fun _ => Total.pure

theorem flagNumber_total {α : Type} [OfNat α 0] (conv : Int64 → α) :
    Total (flagNumber lib conv json key) :=
  (Total.lift (jsonGetNumber_ends lib json key)).bind fun _ => Total.pure

theorem parseCommitHlc_total : Total (parseCommitHlc lib json) :=
  (Total.lift (jsonGetNumber_ends lib json _)).bind fun _ => Total.ite Total.pure
    ((Total.lift (jsonGetNumber_ends lib json _)).bind fun _ =>
      (Total.lift (jsonGetNumber_ends lib json _)).bind fun _ => Total.pure)

theorem parseLastCommitHlc_total : Total (parseLastCommitHlc lib json) :=
  (Total.lift (jsonGetObjectRaw_ends json _)).bind fun _ =>
    Total.ite (parseCommitHlc_total lib _) Total.pure

theorem parseCommitFields_total : Total (parseCommitFields lib json) :=
  (flagBool_total json _).bind fun _ => (flagNumber_total lib json _ _).bind fun _ =>
    (flagNumber_total lib json _ _).bind fun _ =>
      (jsonCopyStringFieldOff_total json _).bind fun _ =>
    (parseLastCommitHlc_total lib json).bind fun _ => (flagNumber_total lib json _ _).bind fun _ =>
    (flagNumber_total lib json _ _).bind fun _ => (flagNumber_total lib json _ _).bind fun _ =>
    (flagNumber_total lib json _ _).bind fun _ => Total.pure

theorem parseDurableOutcomeOffs_total (json : Option Bytes) :
    Total (parseDurableOutcomeOffs lib json) := by
  rcases json with _ | _ | ⟨c, s⟩
  · exact Total.pure
  · exact Total.pure
  · exact (parseCommitFields_total lib (c :: s)).bind fun _ =>
      (jsonCopyStringFieldOff_total _ _).bind fun _ =>
      (jsonCopyStringFieldOff_total _ _).bind fun _ =>
      (jsonCopyStringFieldOff_total _ _).bind fun _ => Total.pure

theorem parseNested_total : Total (parseNested lib json key) :=
  (Total.lift (jsonGetObjectRaw_ends json key)).bind fun _ =>
    Total.ite ((parseDurableOutcomeOffs_total lib _).bind fun _ => Total.pure) Total.pure

theorem queryStatusBody_total : Total (queryStatusBody lib json) :=
  have hcopy := fun {key} => jsonCopyStringFieldOff_total json key
  Total.modify.bind fun _ => hcopy.bind fun _ => hcopy.bind fun _ => hcopy.bind fun _ =>
    hcopy.bind fun _ => hcopy.bind fun _ => (parseCommitFields_total lib json).bind fun _ =>
    hcopy.bind fun _ => hcopy.bind fun _ => (flagBool_total json _).bind fun _ =>
    (parseNested_total lib json _).bind fun _ => (parseNested_total lib json _).bind fun _ =>
    Total.get.bind fun _ => Total.pure

/-- On an arbitrary buffer, the decoding of a status does not fault, and returns `MDB_OK`. -/
theorem queryStatusDecodeJson_ends (blob : Sbuf) (h : Heap) :
    ∃ out blob' h', queryStatusDecodeJson lib (some json) blob h = .ok (.ok, out, blob', h') := by
  obtain ⟨out, s, hs, -⟩ := exists_val_of_wp (queryStatusBody_total lib json ⟨blob, h⟩)
  exact ⟨out, s.blob, s.heap, by simp only [queryStatusDecodeJson, hs]⟩

end

/-! ## Sessions -/

/-- Nothing but the results has changed. -/
def Session.Decoded (s s' : Session) : Prop :=
  ∃ names scratch decode, s' = { s with
    c := { s.c with names := names, scratch := scratch },
    heaps := { s.heaps with decode := decode } }

theorem Session.Decoded.curl {s s' : Session} (h : s.Decoded s') : s'.curl = s.curl := by
  obtain ⟨names, scratch, decode, rfl⟩ := h
  rfl

variable {s : Session}

/-- The result of a query is handed over, if `decodePage` returns `MDB_OK`. -/
theorem takePage_decoded {lib : Libc} {rc : Code} {out : PageResult} {scratch : Scratch}
    {decode : Heap}
    (h : decodePage lib s.c.recv.data s.c.scratch s.heaps.decode = .ok (rc, out, scratch, decode)) :
    wp (takePage lib) (fun out' s' => rc = .ok ∧ out' = out ∧ s.Decoded s')
      (fun rc' s' => rc ≠ .ok ∧ rc' = rc ∧ s.Decoded s') s := by
  rw [takePage]
  simp only [wp_bind, wp_get]
  refine wp_lift h ?_
  dsimp only
  split_ifs with hrc
  · exact ⟨hrc, rfl, s.c.names, scratch, decode, rfl⟩
  · exact ⟨not_not.1 hrc, rfl, s.c.names, scratch, decode, rfl⟩

/-- The status of a query is always handed over. -/
theorem takeStatus_decoded (lib : Libc) :
    wp (takeStatus lib) (fun _ s' => s.Decoded s') (fun _ _ => False) s := by
  obtain ⟨out, blob, decode, h⟩ :=
    queryStatusDecodeJson_ends lib s.c.recv.data s.c.scratch.valuesBlob s.heaps.decode
  rw [takeStatus]
  simp only [wp_bind, wp_get]
  refine wp_lift h ?_
  exact ⟨s.c.names, { s.c.scratch with valuesBlob := blob }, decode, rfl⟩

/-- The retention is handed over, if both of its members are found. -/
theorem takeRetention_decoded {lib : Libc} {rc : Code} {out : Option HistoryRetention}
    (h : historyRetentionDecodeJson lib s.c.recv.data = .ok (rc, out)) :
    wp (takeRetention lib) (fun out' s' => some out' = out ∧ s' = s)
      (fun rc' s' => out = none ∧ rc' = rc ∧ s' = s) s := by
  rw [takeRetention]
  simp only [wp_bind, wp_get]
  refine wp_lift h ?_
  cases out with
  | some out => exact ⟨rfl, rfl⟩
  | none => exact ⟨rfl, rfl, rfl⟩

end MongrelDB
