import MongrelDB.Page.Slots
import MongrelDB.Tables.Points

/-!
# The array of names

What the array of names holds at each point of the loop over the names: there is
room for the offset about to be written, the offsets stored are those of names that
stand in their buffer, one behind the other, and behind the loop there is room for
the terminating `NULL` (`NamePoint.Sound`).
-/

namespace MongrelDB

open Ascii Prog

/-! ## The array -/

/-- The array of names holds offsets, in an allocation of its capacity: those of the
    names in their buffer. -/
structure NamesHolding (s : NamesState) (offs : List Nat) : Prop where
  arr : IsArray s.c.namesArr (offs.map .offset) s.c.namesCap
  count : s.out.count = offs.length
  strung : Strung s.c.namesBlob.data offs
  /-- With room for the NUL every append writes behind the buffer. -/
  blob : s.c.namesBlob.data ≠ [] → s.c.namesBlob.len < s.c.namesBlob.cap

/-- What holds at a point: the names so far are stored, and there is room for what is
    about to be written. -/
def NamePoint.Sound : NamePoint → NamesState → Prop
  | .name _ _, s => ∃ offs, NamesHolding s offs
  | .store _ _ base, s => ∃ offs, NamesHolding s offs ∧ Strung s.c.namesBlob.data (offs ++ [base]) ∧
    s.out.count < s.c.namesCap
  | .behind, s => ∃ offs, NamesHolding s offs
  | .slot count, s => ∃ offs, NamesHolding s offs ∧ count = s.out.count ∧ count < s.c.namesCap

/-- The names are stored, as pointers, and `NULL` behind them. -/
def NamesShownIn (s : NamesState) : Prop := ∃ offs,
  IsArray s.c.namesArr (offs.map .ptr ++ [.null]) s.c.namesCap ∧ s.out.count = offs.length ∧
    Strung s.c.namesBlob.data offs

/-- What a return in the middle leaves: the names so far. -/
def NamesLeft (s : NamesState) : Prop := ∃ offs,
  s.c.namesArr.Holds (offs.map .offset) ∧ s.out.count = offs.length ∧ Strung s.c.namesBlob.data offs

variable {s : NamesState} {offs : List Nat}

theorem NamesHolding.left (h : NamesHolding s offs) : NamesLeft s :=
  ⟨offs, h.arr.holds, h.count, h.strung⟩

/-! ## Steps -/

/-- Bytes are appended to the buffer of names. -/
theorem appendName_post (h : NamesHolding s offs) (p : Bytes) :
    post (appendName p) (fun _ s' => NamesHolding s' offs ∧ s'.out = s.out ∧
        s'.c.namesBlob.data = s.c.namesBlob.data ++ p)
      (fun _ => NamesLeft) s := by
  simp only [appendName, Sbuf.append, post_bind, post_get, post_modify]
  rcases s.c.namesBlob.reserve_cases p.length s.heap with ⟨cap, h', he, hcap, -⟩ | ⟨h', he, -⟩
  · simp only [he, if_true, Bool.not_true, Bool.false_eq_true, if_false, post_pure]
    refine ⟨{ h with strung := h.strung.append p, blob := fun _ => ?_ }, trivial, trivial⟩
    simp only [Sbuf.len, List.length_append] at hcap ⊢
    omega
  · simp only [he, Bool.false_eq_true, if_false, Bool.not_false, if_true, post_ret]
    exact ⟨offs, h.arr.holds, h.count, h.strung⟩

/-- The array of names is moved. -/
theorem reallocNames_post (h : NamesHolding s offs) {ncap : Nat} (hcap : s.c.namesCap ≤ ncap) :
    post (reallocNames ncap) (fun _ s' => NamesHolding s' offs ∧ s'.out = s.out ∧
        s'.c.namesBlob = s.c.namesBlob ∧ s'.c.namesCap = ncap)
      (fun _ => NamesLeft) s := by
  simp only [reallocNames, post_bind, post_get, post_modify, post_ite, post_ret]
  exact ⟨fun _ => h.left,
    fun _ => ⟨{ h with arr := h.arr.realloc hcap }, trivial, trivial, trivial⟩⟩

theorem growNames_post (h : NamesHolding s offs) :
    post growNames (fun _ s' => NamesHolding s' offs ∧ s'.out = s.out ∧
        s'.c.namesBlob = s.c.namesBlob ∧ s'.out.count < s'.c.namesCap)
      (fun _ => NamesLeft) s := by
  have hle := h.arr.length_le
  rw [List.length_map, ← h.count] at hle
  simp only [growNames, post_bind, post_get, post_ite, post_pure]
  refine ⟨fun hzero => ?_, fun hpos => ⟨fun hfull => ?_, fun hfree => ?_⟩⟩
  · refine post_mono (reallocNames_post h (by omega)) (fun _ s' hgrown => ?_) fun _ _ h => h
    obtain ⟨h', ho, hb, hc⟩ := hgrown
    exact ⟨h', ho, hb, by rw [ho, hc]; omega⟩
  · refine post_mono (reallocNames_post h (by omega)) (fun _ s' hgrown => ?_) fun _ _ h => h
    obtain ⟨h', ho, hb, hc⟩ := hgrown
    exact ⟨h', ho, hb, by rw [ho, hc]; omega⟩
  · exact ⟨h, trivial, trivial, by omega⟩

/-- What a step from a point keeps. -/
abbrev NamePoint.Steps (p : NamePoint) (s : NamesState) : Prop :=
  post p.step (Sum.elim NamePoint.Sound fun _ => NamesShownIn) (fun _ => NamesLeft) s

theorem name_steps {n : Nat} {j : JsonParser} (hs : NamePoint.Sound (.name n j) s) :
    NamePoint.Steps (.name n j) s := by
  cases n with
  | zero => trivial
  | succ n =>
  obtain ⟨offs, h⟩ := hs
  refine post_ite.2 ⟨fun _ => h.left, fun _ => ?_⟩
  refine post_bind.2 (post_lift.2 fun start _ => post_bind.2 (post_lift.2 fun j' _ => ?_))
  refine post_ite.2 ⟨fun _ => h.left, fun _ => ?_⟩
  refine post_bind.2 (post_lift.2 fun len _ => post_bind.2 (post_lift.2 fun raw _ =>
    post_bind.2 (post_get.2 (post_bind.2 ?_))))
  -- The name, its NUL, and room for its offset.
  refine post_mono (appendName_post h raw) (fun _ s₁ hpost => post_bind.2 ?_) fun _ _ h => h
  obtain ⟨h₁, ho₁, hd₁⟩ := hpost
  refine post_mono (appendName_post h₁ [0]) (fun _ s₂ hpost => post_bind.2 ?_) fun _ _ h => h
  obtain ⟨h₂, ho₂, hd₂⟩ := hpost
  refine post_mono (growNames_post h₂) (fun _ s₃ hpost => ?_) fun _ _ h => h
  obtain ⟨h₃, ho₃, hb₃, hroom⟩ := hpost
  refine ⟨offs, h₃, ?_, hroom⟩
  rw [hb₃, hd₂, hd₁, List.append_assoc]
  exact h.strung.push raw

theorem store_names_steps {n base : Nat} {j : JsonParser}
    (hs : NamePoint.Sound (.store n j base) s) :
    NamePoint.Steps (.store n j base) s := by
  obtain ⟨offs, h, hstrung, hroom⟩ := hs
  obtain ⟨b, hb, harr⟩ := h.arr.push (by rwa [List.length_map, ← h.count]) (.offset base)
  rw [List.length_map, ← h.count] at hb
  have hstored : NamesHolding ⟨{ s.c with namesArr := b }, { s.out with count := s.out.count + 1 },
      s.heap⟩ (offs ++ [base]) := by
    refine { h with arr := ?_, count := ?_, strung := hstrung }
    · rwa [List.map_append]
    · rw [List.length_append, h.count, List.length_singleton]
  simp only [NamePoint.Steps, NamePoint.step, storeBase, storeName, post_bind, post_get, post_lift,
    post_modify, hb, Except.ok.injEq, forall_eq']
  refine post_ite.2 ⟨fun _ => ?_, fun _ => post_ite.2 ⟨fun _ => ?_, fun _ => hstored.left⟩⟩
  · exact post_bind.2 (post_lift.2 fun _ _ => ⟨_, hstored⟩)
  · exact post_bind.2 (post_lift.2 fun _ _ => ⟨_, hstored⟩)

theorem behind_names_steps (hs : NamePoint.Sound .behind s) : NamePoint.Steps .behind s := by
  obtain ⟨offs, h⟩ := hs
  have hle := h.arr.length_le
  rw [List.length_map, ← h.count] at hle
  refine post_bind.2 (post_get.2 (post_ite.2 ⟨fun hfull => ?_, fun hfree => ?_⟩))
  · refine post_bind.2 (post_mono (reallocNames_post h (by omega)) (fun _ s' hpost => ?_)
      fun _ _ h => h)
    obtain ⟨h', ho, -, hc⟩ := hpost
    refine ⟨offs, h', by rw [ho], ?_⟩
    rw [hc]
    exact Nat.lt_succ_self _
  · exact ⟨offs, h, rfl, by omega⟩

theorem slot_steps {count : Nat} (hs : NamePoint.Sound (.slot count) s) :
    NamePoint.Steps (.slot count) s := by
  obtain ⟨offs, h, rfl, hroom⟩ := hs
  obtain ⟨b, hb, hnull⟩ := h.arr.push (by rwa [List.length_map, ← h.count]) .null
  obtain ⟨b', hb', hptrs⟩ := resolveNames_spec hnull
  rw [List.length_map, ← h.count] at hb
  rw [← h.count] at hb'
  simp only [NamePoint.Steps, NamePoint.step, showNames, storeName, post_bind, post_get, post_lift,
    post_modify, hb, hb', Except.ok.injEq, forall_eq']
  exact ⟨offs, hptrs, h.count, h.strung⟩

/-- Every step keeps what holds at a point. -/
theorem step_names (p : NamePoint) (s : NamesState) (hs : p.Sound s) : p.Steps s := by
  cases p with
  | name => exact name_steps hs
  | store => exact store_names_steps hs
  | behind => exact behind_names_steps hs
  | slot => exact slot_steps hs

/-! ## The response -/

/-- In front of the loop over the names, the array is empty. -/
theorem openNames_post (recv : Bytes) (c : NamesScratch) (h : Heap) :
    post (openNames recv) (fun _ s => NamesHolding s []) (fun _ _ => True) ⟨c, ⟨.null, 0⟩, h⟩ := by
  have hempty : NamesHolding ⟨NamesScratch.freed, ⟨.null, 0⟩, h⟩ [] :=
    ⟨isArray_nil, rfl, .nil _, fun hne => absurd rfl hne⟩
  refine post_bind.2 (post_modify.2 (post_ite.2 ⟨fun _ => trivial, fun _ => ?_⟩))
  refine post_bind.2 (post_lift.2 fun _ _ => post_ite.2 ⟨fun _ => ?_, fun _ => hempty⟩)
  exact post_bind.2 (post_lift.2 fun _ _ => trivial)

/-- At every point the decoding of the names passes, there is room for what is about to
    be written, and the names are stored. From there, it goes on to such a point, or
    leaves the array so. -/
theorem NamesPasses.sound {recv : Bytes} {c : NamesScratch} {h : Heap} {p : NamePoint}
    {s : NamesState} (hp : NamesPasses recv c h p s) :
    p.Sound s ∧ wp p.step (Sum.elim NamePoint.Sound fun _ => NamesShownIn)
      (fun _ => NamesLeft) s := by
  have hleft := hp.left_eq
  obtain ⟨j, s₀, hopen, hreach⟩ := hp
  have hpost := openNames_post recv c h
  rw [post] at hpost
  rw [hopen] at hpost
  have hopened : NamePoint.Sound (.name (fuelFor recv) j) s₀ := ⟨[], hpost⟩
  have hs : p.Sound s := hreach.keeps step_names hopened
  refine ⟨hs, wp_of_post (step_names p s hs) fun f hf => ?_⟩
  -- The decoding as a whole does not fault.
  obtain ⟨e, s', hd, -⟩ := decodeNames_ends recv c h
  rw [decodeNames, hleft, follows_leftNames p, fault_of_bind hf] at hd
  cases hd

end MongrelDB
