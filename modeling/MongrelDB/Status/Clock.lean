import MongrelDB.Unsigned

/-!
# The clock of a status

`mongreldb_query_status_commit_hlc` prefers the clock of the durable outcome to
that of the outcome, and this one to that at the top level. A clock is said to be
present as soon as its object has a member, whatever its name, so that the answer
is right only if each of the three objects is empty or has a time
(`queryStatusCommitHlc_iff`).
-/

namespace MongrelDB

open Ascii

/-! ## Places -/

/-- The members of the clock at a place. -/
def HlcPlace.members (ms : List (Member Json)) : HlcPlace → List (Member Json)
  | .durable => hlcMembers (nested (.lit "durable") ms)
  | .outcome => hlcMembers (nested (.lit "outcome") ms)
  | .top => hlcMembers ms

/-- The object has a time. -/
def HasClock (ms : List (Member Json)) : Prop := HasMember Json.isNum (ascii "physical_micros") ms

/-- The places, the preferred one first. -/
def hlcPlaces : List HlcPlace := [.durable, .outcome, .top]

/-- The first place with a time. -/
def firstClock (ms : List (Member Json)) : Option HlcPlace :=
  hlcPlaces.find? fun p => (field? Json.isNum (ascii "physical_micros") (p.members ms)).isSome

/-- The numbers of a clock are in the ranges of their types. -/
structure ClockInRange (ms : List (Member Json)) : Prop where
  physicalMicros : HasClock ms → ∃ n : UInt64, CarriesNat (.lit "physical_micros") n.toNat ms
  logical : HasMember Json.isNum (ascii "logical") ms →
    ∃ n : UInt32, CarriesNat (.lit "logical") n.toNat ms
  nodeTiebreaker : HasMember Json.isNum (ascii "node_tiebreaker") ms →
    ∃ n : UInt32, CarriesNat (.lit "node_tiebreaker") n.toNat ms

/-- The number `key` of an object is `n`; a missing one is zero. -/
def CarriesOrZero (key : CStr) (n : Nat) (ms : List (Member Json)) : Prop :=
  CarriesNat key n ms ∨ ¬HasMember Json.isNum key.bytes ms ∧ n = 0

/-- A clock has the values of its object. -/
structure CommitHlc.Carried (hlc : CommitHlc) (ms : List (Member Json)) : Prop where
  physicalMicros : CarriesNat (.lit "physical_micros") hlc.physicalMicros.toNat ms
  logical : CarriesOrZero (.lit "logical") hlc.logical.toNat ms
  nodeTiebreaker : CarriesOrZero (.lit "node_tiebreaker") hlc.nodeTiebreaker.toNat ms

/-- The clock of a status is that of the first place with a time, and the other
    ones are not said to be there. -/
structure QueryStatus.ClockRight (out : QueryStatus) (ms : List (Member Json)) : Prop where
  place : queryStatusCommitHlc (some out) = firstClock ms
  values : ∀ p, firstClock ms = some p → (out.hlcAt p).Carried (p.members ms)
  present : ∀ p, (out.hlcAt p).present = true ↔ HasClock (p.members ms)

/-! ## Clocks -/

variable {ms : List (Member Json)} {key : CStr}

theorem CarriesNat.unique {n n' : Nat} (h : CarriesNat key n ms) (h' : CarriesNat key n' ms) :
    n = n' := by
  obtain ⟨t, hf, ht⟩ := h
  obtain ⟨t', hf', ht'⟩ := h'
  obtain rfl : t = t' := Json.num.inj (Option.some.inj (hf.symm.trans hf'))
  exact Int.ofNat_inj.1 (Option.some.inj (ht.symm.trans ht'))

theorem CarriesNat.hasMember {n : Nat} (h : CarriesNat key n ms) :
    HasMember Json.isNum key.bytes ms := by
  obtain ⟨t, hf, -⟩ := h
  exact field?_isSome_iff.1 (by rw [hf]; rfl)

/-- A clock is present as soon as its object has a member. -/
theorem hlcOf_present (ms : List (Member Json)) : (hlcOf ms).present = !ms.isEmpty := by
  have hset : (numField id (.lit "physical_micros") ms).set = !ms.isEmpty := by
    rw [numField]
    cases ms with
    | nil => rfl
    | cons m ms => cases field? Json.isNum _ (m :: ms) <;> rfl
  rw [hlcOf, hset]
  cases ms <;> rfl

theorem HasClock.ne_nil (h : HasClock ms) : ms ≠ [] := by
  obtain ⟨m, hm, -⟩ := h
  exact List.ne_nil_of_mem hm

/-- What is read for a number of 32 bits, or zero. -/
theorem carriesOrZero_numField (h : HasMember Json.isNum key.bytes ms →
    ∃ n : UInt32, CarriesNat key n.toNat ms) :
    CarriesOrZero key (numField id key ms).value.toUInt64.toUInt32.toNat ms := by
  by_cases hmem : HasMember Json.isNum key.bytes ms
  · obtain ⟨n, hn⟩ := h hmem
    rw [hn.numField_toUInt32]
    exact .inl hn
  · refine .inr ⟨hmem, ?_⟩
    rw [numField, field?_eq_none_iff.2 hmem]
    cases ms <;> rfl

/-- The clock of an object with a time has its values, if the time fits in 63 bits. -/
theorem hlcOf_carried_iff (hrange : ClockInRange ms) (hclock : HasClock ms) :
    (hlcOf ms).Carried ms ↔ ∀ n, CarriesNat (.lit "physical_micros") n ms → n < 2 ^ 63 := by
  obtain ⟨n, hn⟩ := hrange.physicalMicros hclock
  obtain ⟨t, ht, hread⟩ := hn.numField n.toNat_lt
  have hhlc : hlcOf ms = ⟨(strtoll t).toUInt64,
      (numField id (.lit "logical") ms).value.toUInt64.toUInt32,
      (numField id (.lit "node_tiebreaker") ms).value.toUInt64.toUInt32, true⟩ := by
    rw [hlcOf, hread]
    rfl
  rw [hhlc]
  refine ⟨fun h n' hn' => ?_, fun h => ⟨?_, ?_, ?_⟩⟩
  · rw [hn'.unique hn]
    exact (toNat_strtoll_iff ht).1 (UInt64.toNat_inj.1 (h.physicalMicros.unique hn))
  · rw [(toNat_strtoll_iff ht).2 (h _ hn)]
    exact hn
  · exact carriesOrZero_numField hrange.logical
  · exact carriesOrZero_numField hrange.nodeTiebreaker

/-! ## The preference -/

/-- The clocks of a status are those of the objects. -/
theorem QueryStatus.Read.hlcAt {out : QueryStatus} (h : out.Read ms)
    (hplain : ∀ p : HlcPlace, PlainKeys (p.members ms)) (p : HlcPlace) :
    out.hlcAt p = hlcOf (p.members ms) := by
  cases p with
  | durable => exact h.durable.lastCommitHlc (hplain .durable)
  | outcome => exact h.outcome.lastCommitHlc (hplain .outcome)
  | top => exact h.fields.lastCommitHlc (hplain .top)

/-- The first place with a clock that is said to be there. -/
theorem QueryStatus.Read.commitHlc {out : QueryStatus} (h : out.Read ms)
    (hplain : ∀ p : HlcPlace, PlainKeys (p.members ms)) :
    queryStatusCommitHlc (some out) = hlcPlaces.find? fun p => !(p.members ms).isEmpty := by
  have hpresent : ∀ p, (out.hlcAt p).present = !(p.members ms).isEmpty := fun p => by
    rw [h.hlcAt hplain p, hlcOf_present]
  -- An empty status has no durable outcome.
  have hset : (out.durableSet && out.durable.lastCommitHlc.present) =
      !(HlcPlace.durable.members ms).isEmpty := by
    rw [h.durableSet, show out.durable.lastCommitHlc.present = _ from hpresent .durable]
    cases ms <;> rfl
  simp only [queryStatusCommitHlc, hset, show out.outcome.lastCommitHlc.present = _ from
    hpresent .outcome, show out.lastCommitHlc.present = _ from hpresent .top, hlcPlaces,
    List.find?_cons]
  cases (HlcPlace.durable.members ms).isEmpty <;> cases (HlcPlace.outcome.members ms).isEmpty <;>
    cases (HlcPlace.top.members ms).isEmpty <;> rfl

/-- When the clock of a status is the right one: each of the three objects is
    empty or has a time, and the first time fits in 63 bits. -/
theorem queryStatusCommitHlc_iff (lib : Libc) {ms : List (Member Json)} {w : Ws} {src : Bytes}
    (hsrc : TextOf (.obj ms w) src) (hplain : PlainKeys ms)
    (hnested : ∀ key ∈ nestedKeys, PlainKeys (nested key ms))
    (hclock : ∀ p : HlcPlace, PlainKeys (p.members ms) ∧ ClockInRange (p.members ms))
    (blob : Sbuf) (h : Heap) :
    ∃ out blob' h', queryStatusDecodeJson lib (some src) blob h = .ok (.ok, out, blob', h') ∧
      (out.ClockRight ms ↔ (∀ p : HlcPlace, p.members ms = [] ∨ HasClock (p.members ms)) ∧
        ∀ p, firstClock ms = some p →
          ∀ n, CarriesNat (.lit "physical_micros") n (p.members ms) → n < 2 ^ 63) := by
  obtain ⟨out, blob', h', hrun, hread⟩ := queryStatusDecodeJson_read lib hsrc hplain hnested blob h
  refine ⟨out, blob', h', hrun, ?_⟩
  have hhlc := hread.hlcAt fun p => (hclock p).1
  -- `present` tells apart empty objects only.
  have hpresent : ∀ p, (out.hlcAt p).present = true ↔ p.members ms ≠ [] := fun p => by
    rw [hhlc, hlcOf_present, Bool.not_eq_true', List.isEmpty_eq_false_iff]
  have hfirst : ∀ p, firstClock ms = some p → HasClock (p.members ms) := fun p hp => by
    rw [firstClock] at hp
    have hsome := List.find?_some hp
    exact field?_isSome_iff.1 hsome
  constructor
  · intro hright
    refine ⟨fun p => ?_, fun p hp => ?_⟩
    · by_cases hempty : p.members ms = []
      · exact .inl hempty
      · exact .inr ((hright.present p).1 ((hpresent p).2 hempty))
    · have hcarried := hright.values p hp
      rw [hhlc] at hcarried
      exact (hlcOf_carried_iff (hclock p).2 (hfirst p hp)).1 hcarried
  · rintro ⟨hcomplete, htime⟩
    refine ⟨?_, fun p hp => ?_, fun p => ?_⟩
    · rw [hread.commitHlc fun p => (hclock p).1, firstClock]
      congr 1
      funext p
      -- The accessor takes the first clock that is present.
      rcases hcomplete p with hempty | hhas
      · rw [hempty]
        rfl
      · rw [field?_isSome_iff.2 hhas, List.isEmpty_eq_false_iff.2 hhas.ne_nil]
        rfl
    · rw [hhlc]
      exact (hlcOf_carried_iff (hclock p).2 (hfirst p hp)).2 (htime p hp)
    · rw [hpresent]
      exact ⟨fun hne => (hcomplete p).resolve_left hne, fun hhas => hhas.ne_nil⟩

/-! ## Two statuses -/

/-- An object for a clock with these numbers. -/
def clockMember (ns : List (CStr × Nat)) : Member Json :=
  writtenMember (.lit "last_commit_hlc") (plainItem (.obj (natMembers ns) Ws.none))

/-- The numbers of the clock at the top level. -/
def topClock : List (CStr × Nat) :=
  [(.lit "physical_micros", 5), (.lit "logical", 1), (.lit "node_tiebreaker", 7)]

/-- A status with a complete clock at the top level, and these numbers for the
    clock of the durable outcome. -/
def clockStatus (durable : List (CStr × Nat)) : List (Member Json) :=
  [clockMember topClock,
    writtenMember (.lit "durable") (plainItem (.obj [clockMember durable] Ws.none))]

theorem clockStatus_members (durable : List (CStr × Nat)) :
    HlcPlace.durable.members (clockStatus durable) = natMembers durable ∧
      HlcPlace.outcome.members (clockStatus durable) = [] ∧
      HlcPlace.top.members (clockStatus durable) = natMembers topClock := by
  have hnil : ∀ key, nested key [] = [] := fun _ => rfl
  refine ⟨?_, ?_, ?_⟩ <;>
    simp +decide [HlcPlace.members, clockStatus, clockMember, nested_writtenMember, hnil]

theorem clockStatus_text (durable : List (CStr × Nat)) :
    TextOf (.obj (clockStatus durable) Ws.none) (Json.obj (clockStatus durable) Ws.none).text := by
  have hclock : ∀ ns, (Json.ofMembers
      [(.lit "last_commit_hlc", plainItem (.obj (natMembers ns) Ws.none))]).Valid := fun ns =>
    Json.valid_ofMembers fun m hm => by
      obtain rfl := List.mem_singleton.1 hm
      exact natMembers_valid ns
  have hstatus : (Json.ofMembers
      [(.lit "last_commit_hlc", plainItem (.obj (natMembers topClock) Ws.none)),
        (.lit "durable", plainItem (.obj [clockMember durable] Ws.none))]).Valid := by
    refine Json.valid_ofMembers ?_
    simp only [List.forall_mem_cons]
    exact ⟨natMembers_valid _, hclock durable, fun _ hm => absurd hm List.not_mem_nil⟩
  exact ⟨hstatus, Ws.none, Ws.none, (List.append_nil _).symm⟩

theorem clockInRange_natMembers {ns : List (CStr × Nat)} (p : UInt64) (l t : UInt32)
    (hp : ns.lookup (.lit "physical_micros") = some p.toNat)
    (hl : ns.lookup (.lit "logical") = some l.toNat)
    (ht : ns.lookup (.lit "node_tiebreaker") = some t.toNat) : ClockInRange (natMembers ns) :=
  ⟨fun _ => ⟨p, carriesNat_natMembers hp⟩, fun _ => ⟨l, carriesNat_natMembers hl⟩,
    fun _ => ⟨t, carriesNat_natMembers ht⟩⟩

/-- The numbers of a complete clock of the durable outcome. -/
def durableClock : List (CStr × Nat) :=
  [(.lit "physical_micros", 3), (.lit "logical", 2), (.lit "node_tiebreaker", 4)]

/-- A status with two complete clocks: that of the durable outcome is returned. -/
theorem clockStatus_durable : ∃ out blob h,
    queryStatusDecodeJson Libc.zero (some (Json.obj (clockStatus durableClock) Ws.none).text)
        Sbuf.empty Heap.unlimited = .ok (.ok, out, blob, h) ∧
      queryStatusCommitHlc (some out) = some .durable ∧
      out.durable.lastCommitHlc.physicalMicros = 3 := by
  obtain ⟨hdurable, houtcome, htop⟩ := clockStatus_members durableClock
  have hdurablePlain : PlainKeys (natMembers durableClock) := natMembers_plain (by decide)
  have htopPlain : PlainKeys (natMembers topClock) := natMembers_plain (by decide)
  have hnil : PlainKeys [] := fun _ hm => absurd hm List.not_mem_nil
  have hclock : ∀ p : HlcPlace, PlainKeys (p.members (clockStatus durableClock)) ∧
      ClockInRange (p.members (clockStatus durableClock)) := by
    rintro (_ | _ | _)
    · rw [hdurable]
      exact ⟨hdurablePlain, clockInRange_natMembers 3 2 4 (by decide) (by decide) (by decide)⟩
    · rw [houtcome]
      have hmiss : ∀ {p key}, ¬HasMember p key [] := fun h => List.not_mem_nil h.choose_spec.1
      exact ⟨hnil, fun h => absurd h hmiss, fun h => absurd h hmiss, fun h => absurd h hmiss⟩
    · rw [htop]
      exact ⟨htopPlain, clockInRange_natMembers 5 1 7 (by decide) (by decide) (by decide)⟩
  have hfirst : firstClock (clockStatus durableClock) = some .durable := by decide +kernel
  have htime : CarriesNat (.lit "physical_micros") 3 (natMembers durableClock) :=
    carriesNat_natMembers (by decide)
  have htopTime : CarriesNat (.lit "physical_micros") 5 (natMembers topClock) :=
    carriesNat_natMembers (by decide)
  obtain ⟨out, blob, h, hrun, hiff⟩ := queryStatusCommitHlc_iff Libc.zero
    (clockStatus_text durableClock) (by unfold PlainKeys; decide +kernel)
    (by simp only [PlainKeys, nestedKeys]; decide +kernel) hclock Sbuf.empty Heap.unlimited
  have hright := hiff.2 ⟨?_, ?_⟩
  · refine ⟨out, blob, h, hrun, hright.place.trans hfirst, UInt64.toNat_inj.1 ?_⟩
    have hphys := (hright.values .durable hfirst).physicalMicros
    rw [hdurable] at hphys
    exact hphys.unique htime
  · rintro (_ | _ | _)
    · exact .inr (hdurable ▸ htime.hasMember)
    · exact .inl houtcome
    · exact .inr (htop ▸ htopTime.hasMember)
  · intro p hp n hn
    obtain rfl := Option.some.inj (hfirst.symm.trans hp)
    rw [hdurable] at hn
    rw [hn.unique htime]
    decide

/-- A status whose durable outcome has a clock without a time. -/
def shadowedText : Bytes :=
  ascii "\x7b\"last_commit_hlc\":\x7b\"physical_micros\":5,\"logical\":1,\"node_tiebreaker\":7\x7d," ++
    ascii "\"durable\":\x7b\"last_commit_hlc\":\x7b\"logical\":2\x7d\x7d\x7d"

/-- Its time is said to be zero, and the clock at the top level is not returned. -/
theorem clockStatus_shadowed :
    TextOf (.obj (clockStatus [(.lit "logical", 2)]) Ws.none) shadowedText ∧
      firstClock (clockStatus [(.lit "logical", 2)]) = some .top ∧
      (queryStatusDecodeJson Libc.zero (some shadowedText) Sbuf.empty Heap.unlimited).map
        (fun (e, out, _) => (e, queryStatusCommitHlc (some out), out.durable.lastCommitHlc)) =
        .ok (.ok, some .durable, ⟨0, 2, 0, true⟩) := by
  have htext : (Json.obj (clockStatus [(.lit "logical", 2)]) Ws.none).text = shadowedText := by
    decide +kernel
  exact ⟨htext ▸ clockStatus_text _, by decide +kernel, by decide +kernel⟩

end MongrelDB
