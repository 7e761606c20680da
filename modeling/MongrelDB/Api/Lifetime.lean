import MongrelDB.Api.Log
import MongrelDB.Page.Numbers
import MongrelDB.Tables.Listed

/-!
# How long a result can be read

The rows of a query, and the names of the tables, are kept on the client, and are handed out
by pointers. Whatever the server has sent, a result that is handed out with `MDB_OK` can be
read in full, through all of its pointers, and it stays as it is through every program that
does not decode another one in its place:

* `mongreldbQueryPage_stays`: the rows of a query, up to the next query or the next status;
* `mongreldbTableNames_stays`: the names of the tables, up to the next ones.
-/

namespace MongrelDB

open Ascii Prog

variable {lib : Libc} {s s' s₁ : Session}

/-! ## What is handed out -/

/-- A response that is received is not longer than the cap. -/
theorem Session.response?_short {path : CStr} {recv : Bytes} (h : s.response? path = some recv) :
    recv.length ≤ MONGRELDB_MAX_RESPONSE_BYTES := by
  rw [response?] at h
  split_ifs at h
  obtain ⟨H, -, h⟩ := Option.bind_eq_some_iff.1 h
  rw [Answer.received] at h
  dsimp only at h
  split_ifs at h with htaken
  exact Option.some.inj h ▸ htaken.2.1

/-- What a program hands out is what it hands out behind its request. -/
theorem val_of_request {α : Type} {method : CStr} {path body : Option CStr} {k : Unit → Api α}
    {a : α} (h : (doRequest method path body >>= k) s = .val a s₁) :
    ∃ s', s'.c.recv.data.length ≤ MONGRELDB_MAX_RESPONSE_BYTES ∧ k () s' = .val a s₁ := by
  change Prog.bind _ _ s = _ at h
  rw [Prog.bind] at h
  cases path with
  | none => cases h
  | some path =>
    have htells := doRequest_tells method path body (s := s)
    cases hrun : doRequest method (some path) body s with
    | val u s' =>
      rw [wp, hrun] at htells
      rw [hrun] at h
      exact ⟨s', Session.response?_short htells.1, h⟩
    | ret rc s' => rw [hrun] at h; cases h
    | fault f => rw [hrun] at h; cases h

/-- The rows of a page are all there, whatever the server has sent. -/
theorem decodePage_readable {recv : Bytes} {c c' : Scratch} {h h' : Heap} {out : PageResult}
    (hsize : recv.length ≤ MONGRELDB_MAX_RESPONSE_BYTES)
    (hok : decodePage lib recv c h = .ok (.ok, out, c', h')) :
    ∃ rows, out.seen? c' = some rows := by
  have hlt : recv.length < SIZE_MAX := lt_of_le_of_lt hsize (by decide)
  obtain ⟨⟨found, trunc⟩, htrunc, -⟩ := jsonGetBool_ends recv (.lit "truncated")
  have hempty : ∀ {s : PageState}, decodePage lib recv c h = .ok (.ok, s.out, s.c, s.heap) →
      s.out = ⟨.null, 0, trunc⟩ → ∃ rows, out.seen? c' = some rows := by
    intro s hs hout
    obtain ⟨-, rfl, rfl, -⟩ : (Code.ok, out, c', h') = (Code.ok, s.out, s.c, s.heap) :=
      Except.ok.inj (hok.symm.trans hs)
    exact ⟨[], by rw [hout]; rfl⟩
  cases Returns.accepted ⟨_, _, _, hok⟩ with
  | other hrecv =>
    obtain ⟨s, hs, hout⟩ := decodePage_other lib c h htrunc hrecv
    exact hempty hs hout
  | members pre ms w r hms hrecv =>
    obtain ⟨s, hs, hout⟩ := decodePage_members lib c h htrunc hms hrecv
    exact hempty hs hout
  | rows l rs w r hrecv => exact ⟨_, seen?_of_ok hrecv hlt hok⟩

/-- The names are all there, whatever the server has sent, or there is none. -/
theorem decodeNames_readable {recv : Bytes} {c c' : NamesScratch} {h h' : Heap} {out : NamesResult}
    (hok : decodeNames recv c h = .ok (.ok, out, c', h')) :
    out.Hidden ∨ ∃ names, NamesShown names out c' := by
  have hbody : wp (namesBody recv)
      (fun _ s => Code.ok = .ok → s.out.Hidden ∨ ∃ names, NamesShown names s.out s.c)
      (fun e s => e = .ok → s.out.Hidden ∨ ∃ names, NamesShown names s.out s.c)
      ⟨c, ⟨.null, 0⟩, h⟩ := by
    refine namesBody_spec (fun _ _ => .inl ⟨rfl, rfl⟩) (fun _ _ _ _ _ _ => .inl ⟨rfl, rfl⟩)
      fun t hopen _ => ?_
    have hlen := hopen.length_lt
    refine wp_bind.2 (wp_mono (namesLoop_ends (named_empty h) rfl (by simp only [fuelFor]; omega))
      (fun j s' hpost => ?_) fun e s' hpost he => absurd he hpost.1)
    obtain ⟨x, xs, -, h'⟩ := hpost
    exact wp_mono (finishNames_spec h') (fun _ s'' hd _ => .inr ⟨_, hd.1.shown⟩)
      fun e s'' hends he => absurd he hends.1
  obtain ⟨e, s, hs, hshown⟩ := decodeNames_of_wp (P := fun e s => e = .ok → s.out.Hidden ∨
    ∃ names, NamesShown names s.out s.c) hbody
  obtain ⟨rfl, rfl, rfl, -⟩ : (Code.ok, out, c', h') = (e, s.out, s.c, s.heap) :=
    Except.ok.inj (hok.symm.trans hs)
  exact hshown rfl

theorem takePage_hands (lib : Libc) : post (takePage lib)
    (fun out s₁ => decodePage lib s.c.recv.data s.c.scratch s.heaps.decode =
      .ok (.ok, out, s₁.c.scratch, s₁.heaps.decode)) (fun _ _ => True) s := by
  simp only [takePage, post_bind, post_get, post_lift, post_modify]
  rintro ⟨rc, out, scratch, decode⟩ hdecode
  dsimp only
  split_ifs with hrc
  · trivial
  · rw [hdecode, not_not.1 hrc]
    rfl

theorem takeNames_hands : post takeNames
    (fun out s₁ => decodeNames s.c.recv.data s.c.names s.heaps.decode =
      .ok (.ok, out, s₁.c.names, s₁.heaps.decode)) (fun _ _ => True) s := by
  simp only [takeNames, post_bind, post_get, post_lift, post_modify]
  rintro ⟨rc, out, names, decode⟩ hdecode
  dsimp only
  split_ifs with hrc
  · trivial
  · rw [hdecode, not_not.1 hrc]
    rfl

/-- What holds of every value of a program holds of this one. -/
theorem of_val {φ σ ε α : Type} {x : Prog φ σ ε α} {Q : α → σ → Prop} {R : ε → σ → Prop} {t t' : σ}
    {a : α} (h : post x Q R t) (hx : x t = .val a t') : Q a t' := by
  rw [post, hx] at h
  exact h

/-! ## How long it stays -/

/-- The rows stay where they are. -/
theorem run_scratch {steps : List Step} (hsteps : ∀ call, .call call ∈ steps →
      call.showsRows = false ∧ call.showsStatus = false)
    (hrun : run (Session.next lib) steps s = some s') : s'.c.scratch = s.c.scratch := by
  refine run_keeps (I := fun t => Client.scratch t.c = s.c.scratch) ?_ rfl hrun
  intro step hstep t t' ht hnext
  cases step with
  | setTimeout timeoutSeconds =>
    obtain rfl := Option.some.inj hnext
    exact ht
  | call call =>
    obtain ⟨r, hreturns, rfl⟩ := Option.map_eq_some_iff.1 hnext
    obtain ⟨hrows, hstatus⟩ := hsteps call hstep
    have heffect : call.Effect lib t r.1 r.2 := Call.effect hreturns
    exact (heffect.strings hrows hstatus).trans ht

/-- The names stay where they are. -/
theorem run_names {steps : List Step}
    (hsteps : ∀ call, .call call ∈ steps → call.showsNames = false)
    (hrun : run (Session.next lib) steps s = some s') : s'.c.names = s.c.names := by
  refine run_keeps (I := fun t => Client.names t.c = s.c.names) ?_ rfl hrun
  intro step hstep t t' ht hnext
  cases step with
  | setTimeout timeoutSeconds =>
    obtain rfl := Option.some.inj hnext
    exact ht
  | call call =>
    obtain ⟨r, hreturns, rfl⟩ := Option.map_eq_some_iff.1 hnext
    have heffect : call.Effect lib t r.1 r.2 := Call.effect hreturns
    exact (heffect.names (hsteps call hstep)).trans ht

/-- Whatever the server has sent, the rows of a query that succeeds can be read in full, and they
    stay as they are through every program without a query and without a status. -/
theorem mongreldbQueryPage_stays {table : Option CStr} {conditions : List Condition}
    {projection : List Int64} {limit offset : Int64} {outResult : Bool} {out : PageResult}
    (h : mongreldbQueryPage lib table conditions projection limit offset outResult s =
    .val out s₁) :
    ∃ rows, out.seen? s₁.c.scratch = some rows ∧ ∀ steps s', (∀ call, .call call ∈ steps →
      call.showsRows = false ∧ call.showsStatus = false) →
      run (Session.next lib) steps s₁ = some s' → out.seen? s'.c.scratch = some rows := by
  cases table with
  | none => cases h
  | some table =>
    cases outResult with
    | false => cases h
    | true =>
      obtain ⟨t, hshort, htake⟩ := val_of_request h
      have hdecode := of_val (takePage_hands lib) htake
      obtain ⟨rows, hrows⟩ := decodePage_readable hshort hdecode
      exact ⟨rows, hrows, fun steps s' hsteps hrun => run_scratch hsteps hrun ▸ hrows⟩

/-- Whatever the server has sent, the names of the tables can be read in full, and they stay as
    they are through every program that does not ask for them again. -/
theorem mongreldbTableNames_stays {outNames outCount : Bool} {out : NamesResult}
    (h : mongreldbTableNames outNames outCount s = .val out s₁) :
    out.Hidden ∨ ∃ names, NamesShown names out s₁.c.names ∧ ∀ lib steps s',
      (∀ call, .call call ∈ steps → call.showsNames = false) →
      run (Session.next lib) steps s₁ = some s' → NamesShown names out s'.c.names := by
  cases outNames with
  | false => cases h
  | true =>
    cases outCount with
    | false => cases h
    | true =>
      obtain ⟨t, -, htake⟩ := val_of_request h
      have hdecode := of_val takeNames_hands htake
      refine (decodeNames_readable hdecode).imp_right ?_
      rintro ⟨names, hnames⟩
      exact ⟨names, hnames, fun lib steps s' hsteps hrun => run_names hsteps hrun ▸ hnames⟩

/-- A response that is taken for complete is handed out. -/
theorem mongreldbQueryPage_answered {recv : Bytes} (h : s.Answered (.lit "/kit/query") recv)
    (hacc : Accepted recv) (hs : s.heaps.decode.Succeeds) (table : CStr)
    (conditions : List Condition)
    (projection : List Int64) (limit offset : Int64) : ∃ out s₁,
    mongreldbQueryPage lib (some table) conditions projection limit offset true s =
      .val out s₁ := by
  have hwp : wp (mongreldbQueryPage lib (some table) conditions projection limit offset true)
      (fun _ _ => True) (fun _ _ => False) s := by
    refine wp_step (bodyAppends_spec _) fun body s₁ h₁ => ?_
    obtain ⟨-, rfl⟩ := h₁
    have hanswered : Session.Answered { s with heaps := { s.heaps with body :=
        (Sbuf.empty.appendAll s.heaps.body (queryAppends lib table conditions projection limit
          offset)).2 } } (.lit "/kit/query") recv := ⟨h.ready.withBody _, h.delivers, h.success⟩
    refine wp_step (doRequest_answered hanswered (.lit "POST") body) fun _ s₂ h₂ => ?_
    have hdecode : s₂.heaps.decode.Succeeds := fun n => by
      rw [h₂.decode]
      exact hs n
    obtain ⟨out, c', h', hok⟩ : Returns lib recv s₂.c.scratch s₂.heaps.decode .ok :=
      hacc.returns_ok (lt_of_le_of_lt h.delivers.short (by decide)) hdecode
    rw [← h₂.recv] at hok
    exact wp_mono (takePage_decoded hok) (fun _ _ _ => trivial) fun _ _ h => h.1 rfl
  obtain ⟨out, s₁, hval, -⟩ := exists_val_of_wp hwp
  exact ⟨out, s₁, hval⟩

/-- A row of one cell. -/
def oneCellPage : Bytes :=
  rowsFirst.text ++ (rowsText
    [oneCell ⟨ascii "1", Eq.refl true⟩ ⟨ascii "5", Eq.refl true⟩] Ws.none ++
    [rbrace])

theorem oneCell_stays : ∃ (out : PageResult) (s₁ : Session) (rows : List (List (Int64 × Seen))),
    mongreldbQueryPage Libc.zero (some (.lit "t")) [] [] 0 0 true
      (.connected fun _ => .of 200 oneCellPage) = .val out s₁ ∧
    out.seen? s₁.c.scratch = some rows ∧ ∀ steps s', (∀ call, .call call ∈ steps →
      call.showsRows = false ∧ call.showsStatus = false) →
      run (Session.next Libc.zero) steps s₁ = some s' → out.seen? s'.c.scratch = some rows := by
  have hanswered := Session.connected_answered (.lit "/kit/query") oneCellPage (by decide)
    (by decide)
  have hheap : (Session.connected fun _ => .of 200 oneCellPage).heaps.decode.Succeeds :=
    Heap.unlimited_succeeds
  have hacc : Accepted oneCellPage := .rows _ _ _ _ rfl
  obtain ⟨out, s₁, hval⟩ : ∃ out s₁, mongreldbQueryPage Libc.zero (some (.lit "t")) [] [] 0 0 true
      (.connected fun _ => .of 200 oneCellPage) = .val out s₁ :=
    mongreldbQueryPage_answered hanswered hacc hheap (.lit "t") [] [] 0 0
  obtain ⟨rows, hrows⟩ := mongreldbQueryPage_stays hval
  exact ⟨out, s₁, rows, hval, hrows⟩

/-- A single name. -/
theorem oneName_stays : ∃ (out : NamesResult) (s₁ : Session),
    mongreldbTableNames true true (.connected fun _ => .of 200 (namesJson [.lit "a"])) =
      .val out s₁ ∧
    (out.Hidden ∨ ∃ names, NamesShown names out s₁.c.names ∧ ∀ lib steps s',
      (∀ call, .call call ∈ steps → call.showsNames = false) →
      run (Session.next lib) steps s₁ = some s' → NamesShown names out s'.c.names) := by
  have hanswered := Session.connected_answered (.lit "/tables") (namesJson [.lit "a"]) (by decide)
    (by decide)
  have hheap : (Session.connected fun _ => .of 200 (namesJson [.lit "a"])).heaps.decode.Succeeds :=
    Heap.unlimited_succeeds
  generalize (Session.connected fun _ => .of 200 (namesJson [.lit "a"])) = s at hanswered hheap ⊢
  obtain ⟨out, s₁, hval, -⟩ := exists_val_of_wp (mongreldbTableNames_delivers hanswered hheap)
  exact ⟨out, s₁, hval, mongreldbTableNames_stays hval⟩

end MongrelDB
