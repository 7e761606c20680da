import MongrelDB.Page.Counts
import MongrelDB.Tables.Slots

/-!
# Counting names

What the loop over the names has counted, against the bytes it has read: every name
has taken a byte at least (`NamePoint.Counted`).
-/

namespace MongrelDB

open Ascii Prog

/-- A part of the decoding that stores no name. -/
def StoresNone (x : Naming Unit) : Prop :=
  ∀ s, post x (fun _ s' => s'.out = s.out) (fun _ _ => True) s

namespace StoresNone

theorem then_post {β : Type} {x : Naming Unit} {f : Naming β} {Q : β → NamesState → Prop}
    {s : NamesState} (hx : StoresNone x)
    (hf : ∀ s', s'.out = s.out → post f Q (fun _ _ => True) s') :
    post (x >>= fun _ => f) Q (fun _ _ => True) s :=
  post_bind.2 (post_mono (hx s) (fun _ => hf) fun _ _ h => h)

theorem appendName (bytes : Bytes) : StoresNone (MongrelDB.appendName bytes) := fun _ => by
  simp only [MongrelDB.appendName, post_bind, post_get, post_modify, post_ite, post_ret, post_pure]
  exact ⟨fun _ => trivial, fun _ => trivial⟩

theorem reallocNames (ncap : Nat) : StoresNone (MongrelDB.reallocNames ncap) := fun _ => by
  simp only [MongrelDB.reallocNames, post_bind, post_get, post_modify, post_ite, post_ret]
  exact ⟨fun _ => trivial, fun _ => trivial⟩

theorem growingNames (growth : NamesState → Option Nat) :
    StoresNone (MongrelDB.growingNames growth) := fun s => by
  refine post_bind.2 (post_get.2 ?_)
  split
  · exact reallocNames _ s
  · exact rfl

end StoresNone

/-- At a point in a response of `N` bytes, the names stored so far have taken a byte
    each, and so has the one about to be stored. -/
def NamePoint.Counted (N : Nat) : NamePoint → NamesState → Prop
  | .name _ j, s => s.out.count + j.p.length ≤ N
  | .store _ j _, s => s.out.count + j.p.length + 1 ≤ N
  | .behind, s => s.out.count ≤ N
  | .slot _, _ => True

/-- A name takes its quote. -/
theorem name_counts {N n : Nat} {j : JsonParser} {s : NamesState}
    (h : NamePoint.Counted N (.name n j) s) :
    post (NamePoint.step (.name n j)) (Sum.elim (NamePoint.Counted N) fun _ _ => True)
      (fun _ _ => True) s := by
  cases n with
  | zero => trivial
  | succ n =>
  change s.out.count + j.p.length ≤ N at h
  refine post_ite.2 ⟨fun _ => trivial, fun _ => ?_⟩
  refine post_bind.2 (post_lift.2 fun start _ => post_bind.2 (post_lift.2 fun j' hj => ?_))
  have hlt : j'.p.length < j.p.length :=
    (jpString_takes _ j' hj).trans_le (jpPeek_suffix j).length_le
  refine post_ite.2 ⟨fun _ => trivial, fun _ => ?_⟩
  refine post_bind.2 (post_lift.2 fun len _ => post_bind.2 (post_lift.2 fun raw _ =>
    post_bind.2 (post_get.2 ?_)))
  refine (StoresNone.appendName raw).then_post fun s₁ h₁ =>
    (StoresNone.appendName [0]).then_post fun s₂ h₂ => ?_
  rw [growNames_eq]
  refine (StoresNone.growingNames _).then_post fun s₃ h₃ => ?_
  change s₃.out.count + j'.p.length + 1 ≤ N
  rw [h₃, h₂, h₁]
  omega

/-- Every step counts the bytes it reads. -/
theorem step_names_counts {N : Nat} (p : NamePoint) (s : NamesState) (h : p.Counted N s) :
    post p.step (Sum.elim (NamePoint.Counted N) fun _ _ => True) (fun _ _ => True) s := by
  cases p with
  | name n j => exact name_counts h
  | store n j base =>
    change s.out.count + j.p.length + 1 ≤ N at h
    simp only [NamePoint.step, storeBase, storeName, post_bind, post_get, post_lift, post_modify]
    intro b _
    have hle := (jpPeek_suffix j).length_le
    refine post_ite.2 ⟨fun _ => post_bind.2 (post_lift.2 fun j' hj => ?_), fun _ =>
      post_ite.2 ⟨fun _ => post_bind.2 (post_lift.2 fun j' _ => ?_), fun _ => trivial⟩⟩
    · have hle' := (bump_movesOn _ j' hj).length_le
      change s.out.count + 1 + j'.p.length ≤ N
      omega
    · change s.out.count + 1 ≤ N
      omega
  | behind =>
    exact post_bind.2 (post_get.2 (post_ite.2 ⟨fun _ => post_bind.2 post_true, fun _ => trivial⟩))
  | slot count => exact post_bind.2 post_true

/-- In front of the loop over the names, none is stored. -/
theorem openNames_counts (recv : Bytes) (c : NamesScratch) (h : Heap) :
    post (openNames recv) (fun j s => s.out.count + j.p.length ≤ recv.length) (fun _ _ => True)
      ⟨c, ⟨.null, 0⟩, h⟩ := by
  refine post_bind.2 (post_modify.2 (post_ite.2 ⟨fun _ => trivial, fun _ => ?_⟩))
  refine post_bind.2 (post_lift.2 fun j hj => post_ite.2 ⟨fun _ => ?_, fun _ => ?_⟩)
  · exact post_bind.2 post_true
  · have hsuf : (jpPeek (jpSkipWs j)).2.p <:+ recv :=
      (jpPeek_suffix _).trans ((List.dropWhile_suffix _).trans
        ((bump_movesOn _ j hj).trans (jpPeek_suffix (jpParseValue recv))))
    exact (Nat.zero_add _).trans_le hsuf.length_le

/-- At every point the decoding of the names passes, the names so far are counted by the
    bytes they have taken. -/
theorem NamesPasses.counted {recv : Bytes} {c : NamesScratch} {h : Heap} {p : NamePoint}
    {s : NamesState} (hp : NamesPasses recv c h p s) : p.Counted recv.length s := by
  obtain ⟨j, s₀, hopen, hreach⟩ := hp
  have hpost := openNames_counts recv c h
  rw [post] at hpost
  rw [hopen] at hpost
  have hopened : NamePoint.Counted recv.length (.name (fuelFor recv) j) s₀ := hpost
  exact hreach.keeps step_names_counts hopened

end MongrelDB
