import MongrelDB.Client.Delivery
import MongrelDB.Commit
import MongrelDB.Serialize.Members

/-!
# The body of a commit

The body of a commit is an object, from which the operations are read back in their
order, each with its table and its values, and the idempotency key
(`commitAppends_read`). A commit of operations of known types sends it, in exactly one
request, and one with another type sends nothing (`mongreldbCommit_sends`).
-/

namespace MongrelDB

open Ascii Prog

variable {lib : Libc}

/-! ## Reading -/

/-- The key an operation is sent with. -/
def OpType.name : OpType → CStr
  | .put => .lit "put"
  | .upsert => .lit "upsert"
  | .delete => .lit "delete"
  | .deleteByPk => .lit "delete_by_pk"
  | .other => .lit ""

/-- An array that is neither NULL nor empty. -/
def hasUpdates (updateCells : Option (List InputCell)) : Bool :=
  updateCells.any fun cells => !cells.isEmpty

/-- The keys of an operation. -/
def Op.keys (op : Op) : List CStr :=
  match op.type with
  | .put => [.lit "table", .lit "cells", .lit "returning"]
  | .upsert =>
    if hasUpdates op.updateCells then
      [.lit "table", .lit "cells", .lit "update_cells", .lit "returning"]
    else [.lit "table", .lit "cells", .lit "returning"]
  | .delete => [.lit "table", .lit "row_id"]
  | .deleteByPk => [.lit "table", .lit "pk"]
  | .other => []

/-- A value is the array of these cells. -/
def ReadCells (lib : Libc) (cells : List InputCell) (v : Json) : Prop :=
  ∃ es w, v = .arr es w ∧ CellsWritten (fun x e => x.WrittenAs lib e) cells es

/-- These members are those of an operation. -/
structure Op.Read (lib : Libc) (op : Op) (ms : List (Member Json)) : Prop where
  keys : keysOf ms = op.keys.map fun key => some key.bytes
  table : ∃ e, itemAt (.lit "table") ms = some e ∧
    e.val.datum? = some (.str (orEmpty op.table).bytes)
  cells : op.type = .put ∨ op.type = .upsert →
    ∃ e, itemAt (.lit "cells") ms = some e ∧ ReadCells lib op.cells e.val
  updateCells : op.type = .upsert → ∀ cells, op.updateCells = some cells → cells ≠ [] →
    ∃ e, itemAt (.lit "update_cells") ms = some e ∧ ReadCells lib cells e.val
  rowId : op.type = .delete →
    ∃ e, itemAt (.lit "row_id") ms = some e ∧ e.val.datum? = some (.int op.rowId.toInt)
  pk : op.type = .deleteByPk → ∃ e, itemAt (.lit "pk") ms = some e ∧ op.pkValue.WrittenAs lib e

/-- An object with the type of an operation as its only key, and its members behind it. -/
def OpObject (lib : Libc) (op : Op) (e : Item Json) : Prop :=
  ∃ m ms w w', e.val = .obj [m] w ∧ keysOf [m] = [some op.type.name.bytes] ∧ m.val = .obj ms w' ∧
    op.Read lib ms

/-- These members are those of the body of a commit. -/
structure CommitRead (lib : Libc) (ops : List Op) (idempotencyKey : Option CStr)
    (ms : List (Member Json)) : Prop where
  keys : keysOf ms = if isGiven idempotencyKey then
    [some (ascii "ops"), some (ascii "idempotency_key")]
    else [some (ascii "ops")]
  ops : ∃ e es w, itemAt (.lit "ops") ms = some e ∧ e.val = .arr es w ∧
    List.Forall₂ (OpObject lib) ops es
  idempotencyKey : ∀ key, idempotencyKey = some key → key.bytes ≠ [] →
    ∃ e, itemAt (.lit "idempotency_key") ms = some e ∧ e.val.datum? = some (.str key.bytes)

/-- The values of an operation are well-formed. -/
def Op.WellFormed (lib : Libc) (op : Op) : Prop :=
  (∀ cell ∈ op.cells, cell.value.WellFormed lib) ∧
  (∀ cells, op.updateCells = some cells → ∀ cell ∈ cells, cell.value.WellFormed lib) ∧
  op.pkValue.WellFormed lib

/-! ## Operations -/

/-- Serialized cells, as a member. -/
theorem cells_written {cells : List InputCell}
    (hcells : ∀ cell ∈ cells, cell.value.WellFormed lib) :
    ∃ es, (jsonSerializeCells lib cells).flatten = lbrack :: (itemsText es ++ [rbrack]) ∧
      (∀ e ∈ es, e.val.Valid) ∧ ReadCells lib cells (.arr es Ws.none) := by
  obtain ⟨es, htext, hvalid, hwritten⟩ := @jsonSerializeCells_written lib
    (fun x e => x.WrittenAs lib e) cells fun cell hc => jsonSerializeValue_written (hcells cell hc)
  refine ⟨es, ?_, ?_, es, Ws.none, rfl, hwritten⟩
  · rw [htext, Json.text]
    simp [Ws.none]
  · cases hvalid with
    | arr h => exact h

/-- The beginning of an operation, and the members behind its table. -/
theorem opHead_text (name : String) {key : CStr} (hname : ascii name = keyText key ++ [lbrace])
    (op : Op) (ms : List (CStr × Item Json)) :
    lbrace :: ((opHead name op).flatten ++ (moreMembers ms ++ [rbrace, rbrace])) =
      (Json.ofMembers [objMember key
      (strMember (.lit "table") (orEmpty op.table) :: ms)]).text := by
  have htable : ascii "\"table\":" = keyText (.lit "table") := by decide
  rw [objMember, Json.text_ofMembers, itemText_plainItem, strMember, Json.text_ofMembers,
    itemText_plainItem, moreMembers_nil]
  simp [opHead, hname, htable, flatten_jsonEscape]

/-- An operation is written with these members, and read back from them. -/
structure Op.WrittenWith (lib : Libc) (op : Op) (ps : Appends)
  (ms : List (CStr × Item Json)) : Prop where
  text : lbrace :: (ps.flatten ++ [rbrace]) = (Json.ofMembers [objMember op.type.name ms]).text
  valid : AllValid ms
  read : op.Read lib (writtenMembers ms)

/-- The flag behind the cells of an operation. -/
def returningMember : CStr × Item Json := (.lit "returning", plainItem (.ofBool false))

theorem ascii_cells : ascii ",\"cells\":" = comma :: keyText (.lit "cells") := by decide

theorem ascii_returning :
    ascii ",\"returning\":false\x7d" = moreMembers [returningMember] ++ [rbrace] := by decide

theorem put_written {op : Op} (htype : op.type = .put) (hop : op.WellFormed lib) :
    ∃ ms, op.WrittenWith lib (opHead "\"put\":\x7b" op ++ [ascii ",\"cells\":"] ++
      jsonSerializeCells lib op.cells ++ [ascii ",\"returning\":false\x7d"]) ms := by
  obtain ⟨es, hes, hvalid, hread⟩ := cells_written hop.1
  have hkeys : [CStr.lit "table", .lit "cells", .lit "returning"].Nodup := by decide
  refine ⟨[strMember (.lit "table") (orEmpty op.table), arrMember (.lit "cells") es,
    returningMember],
    ?_, ((AllValid.nil.item _ (Json.ofBool_valid false)).arr _ hvalid).str _ _, ?_⟩
  · rw [htype]
    refine Eq.trans ?_ (opHead_text "\"put\":\x7b" (by decide) op _)
    simp [hes, ascii_cells, ascii_returning]
  · refine ⟨?_, ?_, fun _ => ?_, fun h => ?_, fun h => ?_, fun h => ?_⟩
    · rw [keysOf_written, Op.keys, htype]
      rfl
    · exact ⟨_, itemAt_written (by exact hkeys) List.mem_cons_self, Json.ofStr_datum _⟩
    · exact ⟨_, itemAt_written (by exact hkeys) (.tail _ (.head _)), hread⟩
    · exact absurd (htype.symm.trans h) (by decide)
    · exact absurd (htype.symm.trans h) (by decide)
    · exact absurd (htype.symm.trans h) (by decide)

/-- The values applied on a conflict, as a member. -/
theorem updateCells_written {updateCells : Option (List InputCell)}
    (hupdates : ∀ cells, updateCells = some cells → ∀ cell ∈ cells, cell.value.WellFormed lib) :
    updateCellsAppends lib updateCells = [] ∧ hasUpdates updateCells = false ∨
      ∃ cells es, updateCells = some cells ∧ hasUpdates updateCells = true ∧
        (updateCellsAppends lib updateCells).flatten = moreMembers
          [arrMember (.lit "update_cells") es] ∧
        (∀ e ∈ es, e.val.Valid) ∧ ReadCells lib cells (.arr es Ws.none) := by
  have h : ascii ",\"update_cells\":" = comma :: keyText (.lit "update_cells") := by decide
  cases updateCells with
  | none => exact .inl ⟨rfl, rfl⟩
  | some cells =>
    cases cells with
    | nil => exact .inl ⟨rfl, rfl⟩
    | cons cell cells =>
      obtain ⟨es, hes, hvalid, hread⟩ := cells_written (hupdates _ rfl)
      exact .inr ⟨_, es, rfl, rfl, by simp [updateCellsAppends, h, hes], hvalid, hread⟩

theorem upsert_written {op : Op} (htype : op.type = .upsert) (hop : op.WellFormed lib) :
    ∃ ms, op.WrittenWith lib (opHead "\"upsert\":\x7b" op ++ [ascii ",\"cells\":"] ++
      jsonSerializeCells lib op.cells ++ updateCellsAppends lib op.updateCells ++
      [ascii ",\"returning\":false\x7d"]) ms := by
  obtain ⟨es, hes, hvalid, hread⟩ := cells_written hop.1
  rcases updateCells_written hop.2.1 with ⟨hnone, hno⟩ | ⟨cells, us, hsome, hyes, hus,
    hvalidus, hreadus⟩
  · have hkeys : [CStr.lit "table", .lit "cells", .lit "returning"].Nodup := by decide
    refine ⟨[strMember (.lit "table") (orEmpty op.table), arrMember (.lit "cells") es,
      returningMember],
      ?_, ((AllValid.nil.item _ (Json.ofBool_valid false)).arr _ hvalid).str _ _, ?_⟩
    · rw [htype, hnone]
      refine Eq.trans ?_ (opHead_text "\"upsert\":\x7b" (by decide) op _)
      simp [hes, ascii_cells, ascii_returning]
    · refine ⟨?_, ?_, fun _ => ?_, fun _ cells hcells hne => ?_, fun h => ?_, fun h => ?_⟩
      · rw [keysOf_written, Op.keys, htype]
        simp only [hno]
        rfl
      · exact ⟨_, itemAt_written (by exact hkeys) List.mem_cons_self, Json.ofStr_datum _⟩
      · exact ⟨_, itemAt_written (by exact hkeys) (.tail _ (.head _)), hread⟩
      · rw [hcells, hasUpdates, Option.any_some, Bool.not_eq_false'] at hno
        exact absurd (List.isEmpty_iff.1 hno) hne
      · exact absurd (htype.symm.trans h) (by decide)
      · exact absurd (htype.symm.trans h) (by decide)
  · have hkeys : [CStr.lit "table", .lit "cells", .lit "update_cells", .lit "returning"].Nodup := by
      decide
    refine ⟨[strMember (.lit "table") (orEmpty op.table), arrMember (.lit "cells") es,
      arrMember (.lit "update_cells") us, returningMember], ?_,
      (((AllValid.nil.item _ (Json.ofBool_valid false)).arr _ hvalidus).arr _ hvalid).str _ _, ?_⟩
    · rw [htype]
      refine Eq.trans ?_ (opHead_text "\"upsert\":\x7b" (by decide) op _)
      simp [hes, hus, ascii_cells, ascii_returning]
    · refine ⟨?_, ?_, fun _ => ?_, fun _ cells' hcells hne => ?_, fun h => ?_, fun h => ?_⟩
      · rw [keysOf_written, Op.keys, htype]
        simp only [hyes]
        rfl
      · exact ⟨_, itemAt_written (by exact hkeys) List.mem_cons_self, Json.ofStr_datum _⟩
      · exact ⟨_, itemAt_written (by exact hkeys) (.tail _ (.head _)), hread⟩
      · obtain rfl := Option.some.inj (hsome.symm.trans hcells)
        exact ⟨_, itemAt_written (by exact hkeys) (.tail _ (.tail _ (.head _))), hreadus⟩
      · exact absurd (htype.symm.trans h) (by decide)
      · exact absurd (htype.symm.trans h) (by decide)

theorem delete_written {op : Op} (htype : op.type = .delete) :
    ∃ ms, op.WrittenWith lib
      (opHead "\"delete\":\x7b" op ++ [ascii ",\"row_id\":", int64Text op.rowId, [rbrace]]) ms := by
  have h : ascii ",\"row_id\":" = comma :: keyText (.lit "row_id") := by decide
  have hkeys : [CStr.lit "table", .lit "row_id"].Nodup := by decide
  refine ⟨[strMember (.lit "table") (orEmpty op.table),
    (.lit "row_id", plainItem (.ofInt64 op.rowId))],
    ?_, (AllValid.nil.item _ (Json.ofInt64_valid op.rowId)).str _ _, ?_⟩
  · rw [htype]
    refine Eq.trans ?_ (opHead_text "\"delete\":\x7b" (by decide) op _)
    simp [h, Json.ofInt64_text]
  · refine ⟨?_, ?_, fun h => ?_, fun h => ?_, fun _ => ?_, fun h => ?_⟩
    · rw [keysOf_written, Op.keys, htype]
      rfl
    · exact ⟨_, itemAt_written (by exact hkeys) List.mem_cons_self, Json.ofStr_datum _⟩
    · exact absurd h (by rw [htype]; decide)
    · exact absurd (htype.symm.trans h) (by decide)
    · exact ⟨_, itemAt_written (by exact hkeys) (.tail _ (.head _)), Json.ofInt64_datum _⟩
    · exact absurd (htype.symm.trans h) (by decide)

theorem deleteByPk_written {op : Op} (htype : op.type = .deleteByPk) (hop : op.WellFormed lib) :
    ∃ ms, op.WrittenWith lib (opHead "\"delete_by_pk\":\x7b" op ++ [ascii ",\"pk\":"] ++
      jsonSerializeValue lib op.pkValue ++ [[rbrace]]) ms := by
  obtain ⟨e, he, hvalid, hwritten⟩ := jsonSerializeValue_written hop.2.2
  have h : ascii ",\"pk\":" = comma :: keyText (.lit "pk") := by decide
  have hkeys : [CStr.lit "table", .lit "pk"].Nodup := by decide
  refine ⟨[strMember (.lit "table") (orEmpty op.table), (.lit "pk", e)], ?_,
    (AllValid.nil.item _ hvalid).str _ _, ?_⟩
  · rw [htype]
    refine Eq.trans ?_ (opHead_text "\"delete_by_pk\":\x7b" (by decide) op _)
    simp [h, he]
  · refine ⟨?_, ?_, fun h => ?_, fun h => ?_, fun h => ?_, fun _ => ?_⟩
    · rw [keysOf_written, Op.keys, htype]
      rfl
    · exact ⟨_, itemAt_written (by exact hkeys) List.mem_cons_self, Json.ofStr_datum _⟩
    · exact absurd h (by rw [htype]; decide)
    · exact absurd (htype.symm.trans h) (by decide)
    · exact absurd (htype.symm.trans h) (by decide)
    · exact ⟨_, itemAt_written (by exact hkeys) (.tail _ (.head _)), hwritten⟩

/-- An operation is written as an object from which it is read back. -/
theorem opAppends_read {op : Op} (hop : op.WellFormed lib) {ps : Appends}
    (hps : opAppends lib op = some ps) :
    ∃ e, lbrace :: (ps.flatten ++ [rbrace]) = itemText e ∧ e.val.Valid ∧ OpObject lib op e := by
  obtain ⟨ms, htext, hvalid, hread⟩ : ∃ ms, op.WrittenWith lib ps ms := by
    rw [opAppends] at hps
    cases htype : op.type with
    | put =>
      rw [htype] at hps
      exact Option.some.inj hps ▸ put_written htype hop
    | upsert =>
      rw [htype] at hps
      exact Option.some.inj hps ▸ upsert_written htype hop
    | delete =>
      rw [htype] at hps
      exact Option.some.inj hps ▸ delete_written htype
    | deleteByPk =>
      rw [htype] at hps
      exact Option.some.inj hps ▸ deleteByPk_written htype hop
    | other =>
      rw [htype] at hps
      cases hps
  refine ⟨plainItem _, htext.trans (itemText_plainItem _).symm,
    Json.valid_ofMembers (AllValid.nil.obj _ hvalid), _, _, _, _, rfl, ?_, rfl, hread⟩
  exact keysOf_written [objMember op.type.name ms]

/-! ## The body -/

theorem opAppends_isSome (lib : Libc) {op : Op} : (opAppends lib op).isSome = true ↔
    op.type ≠ .other := by
  rw [opAppends]
  cases op.type <;> simp

/-- The operations are all of known types, or one of them is not. -/
theorem opsAppends_known (sep : Appends) {ops : List Op} :
    (opsAppends lib sep ops).2 = true ↔ ∀ op ∈ ops, op.type ≠ .other := by
  induction ops generalizing sep with
  | nil => simp [opsAppends]
  | cons op ops ih =>
    rw [List.forall_mem_cons, ← ih [[comma]], ← opAppends_isSome lib, opsAppends]
    cases opAppends lib op with
    | none => simp
    | some ps => simp

/-- The operations are written as objects, each behind these pieces. -/
theorem opsAppends_read {ops : List Op} (hops : ∀ op ∈ ops, op.type ≠ .other ∧ op.WellFormed lib)
    (sep : Appends) :
    ∃ es, List.Forall₂ (OpObject lib) ops es ∧ (∀ e ∈ es, e.val.Valid) ∧
      (opsAppends lib sep ops).1.flatten = (match es with
        | [] => []
        | e :: es => sep.flatten ++ (itemText e ++ es.flatMap fun e => comma :: itemText e)) := by
  induction ops generalizing sep with
  | nil => exact ⟨[], .nil, fun _ h => absurd h List.not_mem_nil, rfl⟩
  | cons op ops ih =>
    obtain ⟨hknown, hwf⟩ := hops op List.mem_cons_self
    obtain ⟨ps, hps⟩ := Option.isSome_iff_exists.1 ((opAppends_isSome lib).2 hknown)
    obtain ⟨e, he, hvalid, hread⟩ := opAppends_read hwf hps
    obtain ⟨es, hes, hvalids, hrest⟩ :=
      ih (fun op hop => hops op (List.mem_cons_of_mem _ hop)) [[comma]]
    refine ⟨e :: es, .cons hread hes, List.forall_mem_cons.2 ⟨hvalid, hvalids⟩, ?_⟩
    have hmore : (opsAppends lib [[comma]] ops).1.flatten =
      es.flatMap fun e => comma :: itemText e := by
      rw [hrest]
      cases es <;> simp
    rw [opsAppends, hps]
    simp only [List.flatten_append, List.flatten_singleton, hmore, ← he]
    simp

/-- The idempotency key as a member, if there is one. -/
def idempotencyMembers (idempotencyKey : Option CStr) : List (CStr × Item Json) :=
  if isGiven idempotencyKey then
    [strMember (.lit "idempotency_key") (orEmpty idempotencyKey)] else []

theorem flatten_idempotencyAppends (idempotencyKey : Option CStr) :
    (idempotencyAppends idempotencyKey).flatten = moreMembers
    (idempotencyMembers idempotencyKey) := by
  have hkey : ascii ",\"idempotency_key\":" = comma :: keyText (.lit "idempotency_key") := by
    decide
  cases idempotencyKey with
  | none => rfl
  | some key =>
    rw [idempotencyAppends, idempotencyMembers, isGiven, Option.any_some]
    cases key.bytes.isEmpty with
    | true => rfl
    | false => simp [hkey, flatten_jsonEscape, orEmpty]

/-- The body of a commit is an object from which it is read back. -/
theorem commitAppends_read {ops : List Op}
    (hops : ∀ op ∈ ops, op.type ≠ .other ∧ op.WellFormed lib) (idempotencyKey : Option CStr) :
    ∃ ms w, TextOf (.obj ms w) (commitAppends lib ops idempotencyKey).flatten ∧
      CommitRead lib ops idempotencyKey ms := by
  obtain ⟨es, hes, hvalid, htext⟩ := opsAppends_read hops []
  have hhead : ascii "\x7b\"ops\":[" = lbrace :: (keyText (.lit "ops") ++ [lbrack]) := by decide
  -- The commas are written in front of all items but the first.
  have hitems : (opsAppends lib [] ops).1.flatten = itemsText es := by
    rw [htext, itemsText_eq]
    cases es with
    | nil => rfl
    | cons e es => rw [List.map_cons, commaSep_cons, List.flatMap_map]; rfl
  have hkeys : ((arrMember (.lit "ops") es :: idempotencyMembers idempotencyKey).map
    Prod.fst).Nodup := by
    rw [idempotencyMembers]
    split_ifs
    · exact (by decide : [CStr.lit "ops", .lit "idempotency_key"].Nodup)
    · exact (by decide : [CStr.lit "ops"].Nodup)
  refine ⟨writtenMembers (arrMember (.lit "ops") es :: idempotencyMembers idempotencyKey), Ws.none,
    ⟨?_, Ws.none, Ws.none, ?_⟩, ?_, ?_, fun key hsome hempty => ?_⟩
  · refine Json.valid_ofMembers (AllValid.arr ?_ _ hvalid)
    rw [idempotencyMembers]
    split_ifs
    · exact AllValid.nil.str _ _
    · exact .nil
  · change _ = [] ++ ((Json.ofMembers
      (arrMember _ es :: idempotencyMembers idempotencyKey)).text ++ [])
    rw [arrMember, Json.text_ofMembers, itemText_plainItem, Json.text]
    simp [commitAppends, hhead, hitems, flatten_idempotencyAppends, Ws.none]
  · rw [keysOf_written, idempotencyMembers]
    split_ifs <;> rfl
  · exact ⟨_, es, Ws.none, itemAt_written hkeys List.mem_cons_self, rfl, hes⟩
  · refine ⟨_, itemAt_written (e := plainItem (.ofStr key)) hkeys (List.mem_cons_of_mem _ ?_),
      Json.ofStr_datum key⟩
    rw [idempotencyMembers, hsome, if_pos (by simpa [isGiven] using hempty)]
    exact List.mem_cons_self

/-! ## The request -/

variable {s : Session}

/-- From `s` to `s'`, exactly one request is made, to commit these operations. -/
def CommitSent (lib : Libc) (ops : List Op) (idempotencyKey : Option CStr)
    (s s' : Session) : Prop :=
  ∃ text ms w, s.Sends s' (.lit "POST") (.lit "/kit/txn") (some text) ∧
    TextOf (.obj ms w) text.bytes ∧ CommitRead lib ops idempotencyKey ms

/-- A commit of operations of known types makes exactly one request, with a body from
    which the operations are read back in order; a commit with an operation of
    another type makes none. -/
theorem mongreldbCommit_sends (lib : Libc) (ops : List Op) (idempotencyKey : Option CStr)
    (s : Session) :
    (ops ≠ [] → (∀ op ∈ ops, op.type ≠ .other ∧ op.WellFormed lib) → s.Ready (.lit "/kit/txn") →
      s.heaps.body.Succeeds →
      (commitAppends lib ops idempotencyKey).flatten.length < SIZE_MAX →
      wp (mongreldbCommit lib (some ops) idempotencyKey)
        (fun _ s' => CommitSent lib ops idempotencyKey s s')
        (fun rc s' => rc ≠ .ok ∧ CommitSent lib ops idempotencyKey s s') s) ∧
    ((∃ op ∈ ops, op.type = .other) →
      wp (mongreldbCommit lib (some ops) idempotencyKey) (fun _ _ => False)
        (fun rc s' => rc = .invalidArg ∧ s'.curl.sent = s.curl.sent) s) := by
  have hempty : ∀ {ops : List Op}, ops ≠ [] → (!ops.isEmpty) = true := fun hne => by simpa using hne
  refine ⟨fun hne hops hs hheap hfit => ?_, fun hpost => ?_⟩
  · obtain ⟨ms, w, htext, hread⟩ := commitAppends_read hops idempotencyKey
    have hnul := htext.zero_notMem
    have hknown : (opsAppends lib [] ops).2 = true :=
      (opsAppends_known []).2 fun op hop => (hops op hop).1
    rw [mongreldbCommit, if_pos (hempty hne), if_pos hknown]
    refine wp_step (bodyAppends_spec _) fun body s₁ hpost => ?_
    obtain ⟨hbody, hs₁⟩ := hpost
    rw [Sbuf.cstr?_appendAll ⟨hheap.granted _, hfit⟩ (by simp [commitAppends]) hnul] at hbody
    have hready : s₁.Ready (.lit "/kit/txn") := hs₁ ▸ hs.withBody _
    subst hbody
    have hsent : ∀ {s' : Session}, s₁.Requested s' (.lit "POST") (.lit "/kit/txn")
        (some ⟨_, hnul⟩) → CommitSent lib ops idempotencyKey s s' := fun h => by
      subst hs₁
      exact ⟨_, ms, w, h.sent, htext, hread⟩
    exact wp_mono (doRequest_ready hready _ _) (fun _ s' h => hsent h) fun rc s' h =>
      ⟨h.1, hsent h.2⟩
  · obtain ⟨op, hop, hother⟩ := hpost
    have hne : ops ≠ [] := List.ne_nil_of_mem hop
    have hknown : ¬(opsAppends lib [] ops).2 = true :=
      fun h => (opsAppends_known []).1 h op hop hother
    rw [mongreldbCommit, if_pos (hempty hne), if_neg hknown]
    refine wp_step (bodyAppends_spec _) fun body s₁ hpost => ?_
    obtain ⟨-, hs₁⟩ := hpost
    exact wp_mono (fail_spec .invalidArg _) (fun _ _ h => h) fun rc s' ⟨hrc, hq, _⟩ =>
      ⟨hrc, by rw [hq.sent, hs₁]⟩

/-- A row with a string that is to be escaped, and with a text of JSON. -/
def notedPut : Op :=
  { Op.on .put (.lit "t") with
    cells := [⟨1, .str (some (.lit "a\"b"))⟩, ⟨2, .json (some (.lit "[1,null]"))⟩] }

/-- A row that replaces two of the values of another one. -/
def notedUpsert : Op :=
  { Op.on .upsert (.lit "t") with
    cells := [⟨1, .str (some (.lit "a\"b"))⟩]
    updateCells := some [⟨3, .int64 (-7)⟩, ⟨2, .json (some (.lit "[1,null]"))⟩] }

theorem isJsonText_noted : IsJsonText (CStr.lit "[1,null]").bytes := by
  refine ⟨plainItem (.arr [plainItem (.ofInt64 1), plainItem .null] Ws.none), ?_, by decide⟩
  refine .arr fun e he => ?_
  rcases List.mem_cons.1 he with rfl | he
  · exact Json.ofInt64_valid 1
  · exact List.mem_singleton.1 he ▸ Json.null_valid

theorem noted_wellFormed : ∀ op ∈ [notedPut, notedUpsert], op.type ≠ .other ∧ op.WellFormed .zero := by
  simp only [List.forall_mem_cons]
  refine ⟨⟨by decide, ?_, fun _ h => (by cases h), trivial⟩, ⟨by decide, ?_, ?_, trivial⟩,
    fun _ h => absurd h List.not_mem_nil⟩
  · simp only [notedPut, List.forall_mem_cons]
    exact ⟨trivial, isJsonText_noted, fun _ h => absurd h List.not_mem_nil⟩
  · simp only [notedUpsert, List.forall_mem_cons]
    exact ⟨trivial, fun _ h => absurd h List.not_mem_nil⟩
  · intro cells hcells
    rw [← Option.some.inj hcells]
    simp only [List.forall_mem_cons]
    exact ⟨trivial, isJsonText_noted, fun _ h => absurd h List.not_mem_nil⟩

/-- Two operations are sent with their key, and with one of an unknown type behind them, nothing
    is. -/
theorem mongreldbCommit_noted :
    wp (mongreldbCommit .zero (some [notedPut, notedUpsert]) (some (.lit "k1")))
      (fun _ s' => CommitSent .zero [notedPut, notedUpsert] (some (.lit "k1"))
        (.connected fun _ => .of 200 []) s')
      (fun rc s' => rc ≠ .ok ∧ CommitSent .zero [notedPut, notedUpsert] (some (.lit "k1"))
        (.connected fun _ => .of 200 []) s') (.connected fun _ => .of 200 []) ∧
    wp (mongreldbCommit .zero (some [notedPut, notedUpsert, Op.on .other (.lit "t")])
      (some (.lit "k1"))) (fun _ _ => False)
      (fun rc s' => rc = .invalidArg ∧
        s'.curl.sent = (Session.connected fun _ => .of 200 []).curl.sent)
      (.connected fun _ => .of 200 []) := by
  have hready : (Session.connected fun _ => .of 200 []).Ready (.lit "/kit/txn") :=
    Session.connected_ready rfl _ (by decide)
  have hheap : (Session.connected fun _ => .of 200 []).heaps.body.Succeeds := Heap.unlimited_succeeds
  have hshort : (commitAppends .zero [notedPut, notedUpsert] (some (.lit "k1"))).flatten.length <
      SIZE_MAX := by
    set_option maxRecDepth 4000 in decide
  have hops := noted_wellFormed
  have hne : [notedPut, notedUpsert] ≠ [] := List.cons_ne_nil _ _
  have hother : ∃ op ∈ [notedPut, notedUpsert, Op.on .other (.lit "t")], op.type = .other :=
    ⟨_, .tail _ (.tail _ (.head _)), rfl⟩
  generalize (Session.connected fun _ => Answer.of 200 []) = s at hready hheap ⊢
  generalize [notedPut, notedUpsert, Op.on .other (.lit "t")] = others at hother ⊢
  generalize [notedPut, notedUpsert] = ops at hshort hops hne ⊢
  exact ⟨(mongreldbCommit_sends .zero ops _ s).1 hne hops hready hheap hshort,
    (mongreldbCommit_sends .zero others _ s).2 hother⟩

end MongrelDB
