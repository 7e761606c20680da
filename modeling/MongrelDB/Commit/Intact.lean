import MongrelDB.Commit.Body

/-!
# Commits without memory

`mongreldb_commit` does not look at the results of the appends to its body, and sends
what is there in the end. What it should send is said by `commitUnfailing`, where no
append fails. It does send that, for every session, exactly if no request for memory
is refused, or nothing is to be sent at all (`mongreldbCommit_intact_iff`).
-/

namespace MongrelDB

open Ascii Prog

variable {lib : Libc}

/-! ## Text without NUL -/

theorem zero_notMem_jsonSerializeValue (v : InputValue) :
    (0 : UInt8) ∉ (jsonSerializeValue lib v).flatten := by
  cases v with
  | null | other =>
    rw [jsonSerializeValue]
    decide
  | bool b => rw [jsonSerializeValue]; split_ifs <;> decide
  | int64 i => simpa [jsonSerializeValue] using zero_notMem_int64Text i
  | double d =>
    rw [jsonSerializeValue]
    split_ifs
    · rw [List.flatten_singleton]
      exact fun h => (lib.printG d).noNul (List.mem_of_mem_take h)
    · decide
  | str s => exact zero_notMem_jsonEscape _
  | json s => simpa [jsonSerializeValue] using (s.getD (.lit "null")).noNul

theorem zero_notMem_jsonSerializeCells (cells : List InputCell) :
    (0 : UInt8) ∉ (jsonSerializeCells lib cells).flatten := by
  have hcell : ∀ cell : InputCell, (0 : UInt8) ∉ (jsonSerializeCell lib cell).flatten :=
    fun cell => by
    rw [jsonSerializeCell, List.flatten_cons, List.flatten_cons]
    simp only [List.mem_append, not_or]
    exact ⟨zero_notMem_int64Text _, by decide, zero_notMem_jsonSerializeValue _⟩
  have hmore : ∀ cells : List InputCell,
      (0 : UInt8) ∉ (cells.flatMap fun cell => [comma] :: jsonSerializeCell lib cell).flatten := by
    intro cells
    induction cells with
    | nil => exact List.not_mem_nil
    | cons cell cells ih =>
      rw [List.flatMap_cons, List.cons_append, List.flatten_cons, List.flatten_append,
        List.mem_append,
        List.mem_append, not_or, not_or]
      exact ⟨by decide, hcell cell, ih⟩
  simp only [jsonSerializeCells, List.flatten_cons, List.flatten_append, List.flatten_nil,
    List.append_nil, List.mem_append, not_or]
  refine ⟨by decide, ?_, by decide⟩
  cases cells with
  | nil => exact List.not_mem_nil
  | cons cell cells =>
    rw [separated, List.flatten_append, List.mem_append, not_or]
    exact ⟨hcell cell, hmore cells⟩

theorem zero_notMem_opAppends {op : Op} {ps : Appends} (hps : opAppends lib op = some ps) :
    (0 : UInt8) ∉ ps.flatten := by
  have hupdates : (0 : UInt8) ∉ (updateCellsAppends lib op.updateCells).flatten := by
    rcases op.updateCells with _ | _ | ⟨cell, cells⟩
    · exact List.not_mem_nil
    · exact List.not_mem_nil
    · rw [updateCellsAppends, List.flatten_append, List.mem_append, not_or]
      exact ⟨by decide, zero_notMem_jsonSerializeCells _⟩
  rw [opAppends] at hps
  cases htype : op.type <;> rw [htype] at hps <;> simp only [Option.some.injEq,
    reduceCtorEq] at hps <;>
    subst hps <;>
    simp only [opHead, List.flatten_append, List.flatten_cons, List.flatten_nil, List.append_nil,
      List.mem_append, not_or, zero_notMem_jsonEscape, zero_notMem_jsonSerializeCells,
      zero_notMem_jsonSerializeValue, zero_notMem_int64Text, hupdates, not_false_eq_true,
      and_true] <;>
    decide

theorem zero_notMem_opsAppends {sep : Appends} (hsep : (0 : UInt8) ∉ sep.flatten) (ops : List Op) :
    (0 : UInt8) ∉ (opsAppends lib sep ops).1.flatten := by
  induction ops generalizing sep with
  | nil => exact List.not_mem_nil
  | cons op ops ih =>
    rw [opsAppends]
    cases hps : opAppends lib op with
    | none =>
      simp only [List.flatten_append, List.mem_append, not_or]
      exact ⟨hsep, by decide⟩
    | some ps =>
      simp only [List.flatten_append, List.mem_append, not_or]
      exact ⟨⟨⟨⟨hsep, by decide⟩, zero_notMem_opAppends hps⟩, by decide⟩, ih (by decide)⟩

theorem zero_notMem_commitAppends (ops : List Op) (idempotencyKey : Option CStr) :
    (0 : UInt8) ∉ (commitAppends lib ops idempotencyKey).flatten := by
  have hkey : (0 : UInt8) ∉ (idempotencyAppends idempotencyKey).flatten := by
    cases idempotencyKey with
    | none => exact List.not_mem_nil
    | some key =>
      rw [idempotencyAppends]
      split_ifs
      · exact List.not_mem_nil
      · rw [List.flatten_append, List.mem_append, not_or]
        exact ⟨by decide, zero_notMem_jsonEscape key⟩
  simp only [commitAppends, List.flatten_append, List.mem_append, not_or]
  exact ⟨⟨⟨⟨by decide, zero_notMem_opsAppends (by decide) ops⟩, by decide⟩, hkey⟩, by decide⟩

/-! ## What is to be sent -/

/-- The body of a commit. -/
def commitBody (lib : Libc) (ops : List Op) (idempotencyKey : Option CStr) : CStr :=
  ⟨(commitAppends lib ops idempotencyKey).flatten, zero_notMem_commitAppends ops idempotencyKey⟩

/-- `mongreldb_commit`, if all the appends to the body have succeeded. -/
def commitUnfailing (lib : Libc) (ops : List Op) (idempotencyKey : Option CStr) : Api Unit := do
  if !ops.isEmpty then
    if (opsAppends lib [] ops).2 then
      let _ ← bodyAppends (commitAppends lib ops idempotencyKey)
      cPost (some (.lit "/kit/txn")) (some (commitBody lib ops idempotencyKey))
    else
      let _ ← bodyAppends ([ascii "\x7b\"ops\":["] ++ (opsAppends lib [] ops).1)
      fail .invalidArg "unknown op type"

/-- A commit sends what it would send if no append failed, or it sends nothing, and
    reports that there is no memory. -/
def CommitIntact (lib : Libc) (ops : List Op) (idempotencyKey : Option CStr) (s : Session) : Prop :=
  ∃ rc s' rc₀ s₀, ends .ok (mongreldbCommit lib (some ops) idempotencyKey) s = some (rc, s') ∧
    ends .ok (commitUnfailing lib ops idempotencyKey) s = some (rc₀, s₀) ∧
    (s'.curl.sent = s₀.curl.sent ∨ rc = .nomem ∧ s'.curl.sent = s.curl.sent)

variable {ops : List Op} {idempotencyKey : Option CStr} {s : Session}

/-- A commit that does what it would do if no append failed. -/
theorem commitIntact_of_eq
    (h : mongreldbCommit lib (some ops) idempotencyKey s =
    commitUnfailing lib ops idempotencyKey s) :
    CommitIntact lib ops idempotencyKey s := by
  have hends : wp (commitUnfailing lib ops idempotencyKey) (fun _ _ => True)
    (fun _ _ => True) s := by
    rw [commitUnfailing]
    split_ifs
    · refine wp_step (bodyAppends_spec _) fun _ _ _ => ?_
      exact wp_mono (doRequest_ends _ _ _) (fun _ _ _ => trivial) fun _ _ _ => trivial
    · refine wp_step (bodyAppends_spec _) fun _ _ _ => ?_
      exact wp_mono (fail_spec _ _) (fun _ _ _ => trivial) fun _ _ _ => trivial
    · exact trivial
  obtain ⟨rc, s', hrun, -⟩ := ends_of_wp (P := fun _ _ => True) hends
  exact ⟨rc, s', rc, s', by rw [ends, h]; exact hrun, hrun, .inl rfl⟩

/-- If no append fails, the body is complete. -/
theorem mongreldbCommit_of_fits
    (hfits : AppendsFit s.heaps.body (commitAppends lib ops idempotencyKey)) :
    mongreldbCommit lib (some ops) idempotencyKey s = commitUnfailing lib ops idempotencyKey s := by
  have hbody := Sbuf.cstr?_appendAll hfits (by simp [commitAppends])
    (zero_notMem_commitAppends ops idempotencyKey)
  rw [mongreldbCommit, commitUnfailing]
  split_ifs
  · have hrun : ∀ f : Option CStr → Api Unit,
        (bodyAppends (commitAppends lib ops idempotencyKey) >>= f) s =
          f (Sbuf.empty.appendAll s.heaps.body (commitAppends lib ops idempotencyKey)).1.cstr?
            { s with heaps := { s.heaps with body :=
              (Sbuf.empty.appendAll s.heaps.body (commitAppends lib ops idempotencyKey)).2 } } :=
      fun f => rfl
    rw [hrun, hrun, hbody]
    rfl
  · rfl
  · rfl

/-- Where a request is made, an append that fails is sent. -/
theorem not_commitIntact (hne : ops ≠ []) (hknown : ∀ op ∈ ops, op.type ≠ .other)
    (hfits : ¬AppendsFit s.heaps.body (commitAppends lib ops idempotencyKey))
    (hs : s.Ready (.lit "/kit/txn")) :
    ¬CommitIntact lib ops idempotencyKey s := by
  have hops : (!ops.isEmpty) = true := by simpa using hne
  have hall : (opsAppends lib [] ops).2 = true := (opsAppends_known []).2 hknown
  -- Each of the two programs makes one request, with a body of its own.
  have hsends : ∀ f : Option CStr → Option CStr, wp (do
      let text ← bodyAppends (commitAppends lib ops idempotencyKey)
      cPost (some (.lit "/kit/txn")) (f text))
      (fun _ s' => s.Sends s' (.lit "POST") (.lit "/kit/txn")
        (f (Sbuf.empty.appendAll s.heaps.body (commitAppends lib ops idempotencyKey)).1.cstr?))
      (fun _ s' => s.Sends s' (.lit "POST") (.lit "/kit/txn")
        (f (Sbuf.empty.appendAll s.heaps.body (commitAppends lib ops idempotencyKey)).1.cstr?))
        s := by
    intro f
    refine wp_step (bodyAppends_spec _) fun text s₁ hpost => ?_
    obtain ⟨htext, hs₁⟩ := hpost
    subst htext hs₁
    exact wp_mono (doRequest_ready (hs.withBody _) _ _) (fun _ _ h => h.sent) fun _ _ h => h.2.sent
  have hcommit := hsends id
  have hunfailing := hsends fun _ => some (commitBody lib ops idempotencyKey)
  rintro ⟨rc, s', rc₀, s₀, hrun, hrun₀, hsame⟩
  rw [mongreldbCommit, if_pos hops, if_pos hall] at hrun
  rw [commitUnfailing, if_pos hops, if_pos hall] at hrun₀
  obtain ⟨headers, userpwd, hsent⟩ := of_ends (P := fun _ s' => s.Sends s' _ _ _) hrun hcommit
  obtain ⟨headers₀, userpwd₀, hsent₀⟩ :=
    of_ends (P := fun _ s' => s.Sends s' _ _ _) hrun₀ hunfailing
  rcases hsame with hsame | ⟨-, hsame⟩
  · rw [hsent, hsent₀, List.cons.injEq, Request.mk.injEq] at hsame
    exact Sbuf.cstr?_ne hfits (by simp [commitAppends]; decide) (zero_notMem_commitAppends _ _)
      hsame.1.2.2.2.2.2
  · rw [hsent] at hsame
    exact List.cons_ne_self _ _ hsame

/-- A commit is intact, whatever else happens, exactly if its body is. -/
theorem mongreldbCommit_intact_iff (lib : Libc) (ops : List Op) (idempotencyKey : Option CStr)
    (H : Heap) :
    (∀ s : Session, s.heaps.body = H → CommitIntact lib ops idempotencyKey s) ↔
      ops = [] ∨ (∃ op ∈ ops, op.type = .other) ∨
        AppendsFit H (commitAppends lib ops idempotencyKey) := by
  have hready : (Session.refusing H).Ready (.lit "/kit/txn") :=
    (Session.connected_ready rfl _ (by decide)).withBody H
  refine ⟨fun h => ?_, fun h s hs => ?_⟩
  · by_contra! hnot
    exact not_commitIntact hnot.1 hnot.2.1 hnot.2.2 hready (h _ rfl)
  · subst hs
    refine commitIntact_of_eq ?_
    rcases h with hnil | hother | hfits
    · subst hnil
      rw [mongreldbCommit, commitUnfailing, if_neg (by decide), if_neg (by decide)]
    · obtain ⟨op, hop, hother⟩ := hother
      have hunknown : ¬(opsAppends lib [] ops).2 = true := fun h =>
        (opsAppends_known []).1 h op hop hother
      rw [mongreldbCommit, commitUnfailing, if_neg hunknown, if_neg hunknown]
    · exact mongreldbCommit_of_fits hfits

/-- A deletion, from a table with a name of 37 bytes. -/
def longDelete : List Op := [Op.on .delete (.lit "inventory_of_the_warehouse_number_012")]

/-- The same deletion, from another table. -/
def otherDelete : List Op := [Op.on .delete (.lit "inventory_of_the_warehouse_number_02")]

/-- The second request for memory is refused, and no other one. -/
def secondRefused : Heap := ⟨fun n => n != 1, []⟩

/-- A byte of a table name is dropped, and the row is deleted from another table. -/
theorem longDelete_shortened :
    ¬CommitIntact .zero longDelete none (Session.refusing secondRefused) ∧
    (Sbuf.empty.appendAll secondRefused (commitAppends .zero longDelete none)).1.cstr? =
      some (commitBody .zero otherDelete none) := by
  have hready : (Session.refusing secondRefused).Ready (.lit "/kit/txn") :=
    (Session.connected_ready rfl _ (by decide)).withBody secondRefused
  refine ⟨not_commitIntact (List.cons_ne_nil _ _) ?_ (fun h => ?_) hready, by decide⟩
  · intro op hop
    obtain rfl := List.mem_singleton.1 hop
    decide
  · exact absurd (h.1 1 (by decide)) (by decide)

end MongrelDB
