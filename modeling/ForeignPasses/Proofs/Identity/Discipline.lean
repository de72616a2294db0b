import ForeignPasses.Proofs.Identity.Passing
import ForeignPasses.Proofs.Manager.Request

/-!
# The discipline of the slots

What calls do under the key that was passed to them, whatever calls are made inside of them.
-/

namespace ForeignPasses.Calls

open Exec

variable (analyses : Analyses)

/-! ## Handing down -/

theorem performWith_follows {nested : Performer} {nested' : Identities → Performer}
    (h : ∀ ids c, Follows ids (nested c) (nested' ids c)) (ids : Identities) (c : Call) :
    Follows ids (performWith analyses nested c) (passWith analyses nested' ids c) := by
  cases c with
  | say text => exact blind_emitAll _ ids
  | identities => exact fun _ ↦ rfl
  | register kind place key entry context =>
    exact (blind_adopt context ids).bind fun context ↦
      follows_registerForeign kind place key entry context
  | result kind place key u => exact follows_foreignResult h kind place u key
  | cached kind place key u => exact follows_foreignCached kind place u key
  | boundaryRegister kind place key entry context =>
    apply (blind_adopt context ids).bind
    intro context
    cases key with
    | none => exact blind_throw _ ids
    | some key => exact (follows_registerForeign kind place key entry context).boundary
  | boundaryResult kind place key u =>
    cases key with
    | none => exact blind_throw _ ids
    | some key =>
      apply Follows.boundary
      apply (blind_held _ ids).bind
      intro m
      cases m.isRegistered key with
      | true => exact follows_foreignResult h kind place u key
      | false => exact (blind_throw _ ids).bind fun _ ↦ follows_foreignResult h kind place u key
  | boundaryCached kind place key u =>
    cases key with
    | none => exact blind_throw _ ids
    | some key => exact (follows_foreignCached kind place u key).boundary
  | native kind place index u => exact .requestAt _ (h ids) (.native index) (.numbered index) u

theorem passWith_blind {nested : Identities → Performer} (h : ∀ ids c, Blind (nested ids c))
    (ids : Identities) (c : Call) : Blind (passWith analyses nested ids c) := by
  intro ids'
  cases c with
  | say text => exact blind_emitAll _ ids'
  | identities => exact blind_pure _ ids'
  | register kind place key entry context =>
    exact (blind_adopt context ids').bind fun context ↦
      blind_registerPassed kind place key entry context ids'
  | result kind place key u => exact blind_resultPassed h ids kind place u key ids'
  | cached kind place key u => exact blind_cachedPassed kind place u key ids'
  | boundaryRegister kind place key entry context =>
    apply (blind_adopt context ids').bind
    intro context
    cases key with
    | none => exact blind_throw _ ids'
    | some key => exact (blind_registerPassed kind place key entry context ids').boundary
  | boundaryResult kind place key u =>
    cases key with
    | none => exact blind_throw _ ids'
    | some key =>
      have hresult : Blind (resultPassed analyses ids nested kind place u key) :=
        blind_resultPassed h ids kind place u key
      apply Follows.boundary
      apply (blind_held _ ids').bind
      intro m
      cases m.isRegistered key with
      | true => exact hresult ids'
      | false => exact (blind_throw _ ids').bind fun _ ↦ hresult ids'
  | boundaryCached kind place key u =>
    cases key with
    | none => exact blind_throw _ ids'
    | some key => exact (blind_cachedPassed kind place u key ids').boundary
  | native kind place index u =>
    exact .requestAt _ (fun c ↦ h ids c ids') (.native index) (.numbered index) u

theorem perform_follows (depth : Nat) (ids : Identities) (c : Call) :
    Follows ids (perform analyses depth c) (pass analyses depth ids c) := by
  induction depth generalizing ids c with
  | zero => exact blind_throw _ ids
  | succ depth ih => exact performWith_follows analyses ih ids c

theorem pass_blind (depth : Nat) (ids : Identities) (c : Call) :
    Blind (pass analyses depth ids c) := by
  induction depth generalizing ids c with
  | zero => exact blind_throw _
  | succ depth ih => exact passWith_blind analyses ih ids c

/-! ## What calls leave behind -/

/-- What a call that returns has done under the key that was passed to it, and nothing is said
about the calls without one; `nested` performs the calls that are made in the course of it. -/
def Settles (nested : Performer) (w : World Heap) : (c : Call) → c.Answer → World Heap → Prop
  | .register kind place key entry context, registered, w' =>
    (access analyses kind place).Entered key
      (.foreign entry (.ofRaw (context.toRaw w.shared.nextAddress))) registered w.focus w'.focus
  | .result kind place key u, value, w' =>
    (access analyses kind place).Obtained nested key u (.foreign value)
      (Access.inScope kind key w) w'.focus
  | .cached kind place key u, value, w' =>
    w' = Access.closed kind w (Access.inScope kind key w) ∧
      (access analyses kind place).CachedForeign key u value w.focus
  | .boundaryRegister kind place key entry context, registered, w' =>
    ∃ k, key = some k ∧ (access analyses kind place).Entered k
      (.foreign entry (.ofRaw (context.toRaw w.shared.nextAddress))) registered w.focus w'.focus
  | .boundaryResult kind place key u, value, w' =>
    ∃ k, key = some k ∧ (access analyses kind place).Obtained nested k u (.foreign value)
      (Access.inScope kind k w) w'.focus
  | .boundaryCached kind place key u, value, w' =>
    ∃ k, key = some k ∧ w' = Access.closed kind w (Access.inScope kind k w) ∧
      (access analyses kind place).CachedForeign k u value w.focus
  | _, _, _ => True

theorem performWith_settles (nested : Performer) (c : Call) (w : World Heap) :
    (performWith analyses nested c).Ensures w (Settles analyses nested w c) fun _ _ ↦ True := by
  cases c with
  | say text => trivial
  | identities => trivial
  | register kind place key entry context =>
    exact (Access.ensures_registerHanded key entry context).mono (fun _ _ h ↦ h.1)
      fun _ _ h ↦ h
  | result kind place key u => exact Access.ensures_foreignResult nested u key
  | cached kind place key u =>
    exact (Access.ensures_foreignCached u key).mono (fun _ _ h ↦ h) fun _ _ _ ↦ trivial
  | boundaryRegister kind place key entry context =>
    exact (Access.ensures_boundaryRegister key entry context).mono
      (fun _ _ ⟨k, hk, hentered, _⟩ ↦ ⟨k, hk, hentered⟩) fun _ _ h ↦ h
  | boundaryResult kind place key u => exact Access.ensures_boundaryResult nested u key
  | boundaryCached kind place key u => exact Access.ensures_boundaryCached u key
  | native kind place index u =>
    exact (Ensures.trivial _ _).mono (fun _ _ _ ↦ trivial) (fun _ _ _ ↦ trivial)

/-- A world at the end of an action. -/
def Ends {α : Type} (r : EStateM.Result Halt (World Heap) α) (w : World Heap) : Prop :=
  match r with
  | .ok _ w' => w' = w
  | .error _ w' => w' = w

/-- Performing a call with slots is handing down its identities, starting from those in the slots,
which no call inside of it looks at. However the call ends, both slots hold what they held before;
and if it returns, what it did was done under its own key. -/
theorem perform_disciplined (depth : Nat) (c : Call) (w : World Heap) :
    perform analyses depth c w = pass analyses depth w.shared.identities c w ∧
      (∀ ids, pass analyses depth w.shared.identities c (withIdentities ids w) =
        endIn (withIdentities ids) (pass analyses depth w.shared.identities c w)) ∧
      (∀ w', Ends (perform analyses depth c w) w' → ∀ kind,
        w'.shared.slot kind = w.shared.slot kind) ∧
      ∀ below answer w', depth = below + 1 → perform analyses depth c w = .ok answer w' →
        Settles analyses (perform analyses below) w c answer w' := by
  have hfollows := perform_follows analyses depth w.shared.identities c w
  have hblind := pass_blind analyses depth w.shared.identities c w.shared.identities w
  have hself : withIdentities w.shared.identities w = w := rfl
  rw [hself] at hfollows hblind
  refine ⟨hfollows.trans hblind.symm, fun ids ↦ pass_blind analyses depth _ c ids w, ?_, ?_⟩
  · intro w' hends kind
    rw [hfollows] at hends
    cases hpass : pass analyses depth w.shared.identities c w with
    | ok answer v =>
      rw [hpass] at hends
      obtain rfl : withIdentities w.shared.identities v = w' := hends
      cases kind <;> rfl
    | error e v =>
      rw [hpass] at hends
      obtain rfl : withIdentities w.shared.identities v = w' := hends
      cases kind <;> rfl
  · rintro below answer w' rfl hok
    exact (performWith_settles analyses (perform analyses below) c w).of_ok hok

end ForeignPasses.Calls
