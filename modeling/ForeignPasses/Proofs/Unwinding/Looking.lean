import ForeignPasses.Proofs.Identity.Calls
import ForeignPasses.Proofs.Manager.Abiding

/-!
# Calls that look

Calls that register nothing come to requests, and to reading what is cached. What a request keeps if
the calls of its analysis keep it, such calls keep, however deep they nest.
-/

namespace ForeignPasses

open Exec

namespace Calls

/-! ## Many managers -/

theorem Heap.managers_set_of_ne (h : Heap) {kind kind' : Kind} {place place' : Nat}
    (hne : ¬(kind' = kind ∧ place' = place)) (m : Manager (Inner kind)) :
    (h.set kind place m).managers kind' place' = h.managers kind' place' := by
  unfold set
  by_cases hkind : kind' = kind
  · subst hkind
    have hplace : place' ≠ place := fun hplace ↦ hne ⟨rfl, hplace⟩
    simp only [Function.update_self, Function.update_of_ne hplace]
  · simp only [Function.update_of_ne hkind]

theorem Heap.set_set (h : Heap) (kind : Kind) (place : Nat) (m m' : Manager (Inner kind)) :
    (h.set kind place m).set kind place m' = h.set kind place m' := by
  simp [set]

theorem Heap.set_managers (h : Heap) (kind : Kind) (place : Nat) :
    h.set kind place (h.managers kind place) = h := by
  simp [set]

/-- What is there when a result is kept, in terms of all managers. -/
theorem kept_eq {analyses : Analyses} {kind : Kind} {place : Nat} (u : CodeUnit (Content kind))
    (key : Key) (r : Result) (h : Heap) :
    (access analyses kind place).kept u key r h =
      let m := (h.managers kind place).setRunning key false
      h.set kind place { m with results := m.results.insert (u.id, key) r } := by
  simp only [Access.kept, access, Heap.set_set, Heap.managers_set]

theorem results_stopped {analyses : Analyses} {kind : Kind} {place : Nat} (key : Key) (h : Heap)
    (kind' : Kind) (place' : Nat) :
    (((access analyses kind place).stopped key h).managers kind' place').results =
      (h.managers kind' place').results := by
  change ((h.set kind place _).managers kind' place').results = _
  by_cases hsame : kind' = kind ∧ place' = place
  · obtain ⟨rfl, rfl⟩ := hsame
    rw [Heap.managers_set]
    rfl
  · rw [Heap.managers_set_of_ne _ hsame]

/-- Worlds of which the second has other events. -/
def SameButEvents (w w' : World Heap) : Prop :=
  ∃ events, w' = { w with shared := { w.shared with events } }

namespace SameButEvents

variable {w w' w'' : World Heap}

theorem refl (w : World Heap) : SameButEvents w w := ⟨_, rfl⟩

theorem symm (h : SameButEvents w w') : SameButEvents w' w := by
  obtain ⟨events, rfl⟩ := h
  exact ⟨_, rfl⟩

theorem trans (h : SameButEvents w w') (h' : SameButEvents w' w'') : SameButEvents w w'' := by
  obtain ⟨events, rfl⟩ := h
  obtain ⟨events', rfl⟩ := h'
  exact ⟨_, rfl⟩

theorem of_managers (hmanagers : ∀ kind place, w'.focus.managers kind place =
    w.focus.managers kind place) (hshared : ∃ events, w'.shared = { w.shared with events }) :
    SameButEvents w w' := by
  obtain ⟨events, hevents⟩ := hshared
  have hfocus : w'.focus = w.focus :=
    congrArg Heap.mk (funext fun kind ↦ funext fun place ↦ hmanagers kind place)
  exact ⟨events, by rw [← hfocus, ← hevents]⟩

end SameButEvents

/-! ## Looking -/

/-- A call that registers nothing. -/
def Call.Looks : Call → Prop
  | .register .. => False
  | .boundaryRegister .. => False
  | _ => True

/-- The code of the analyses of both kinds only looks. -/
structure Looking (analyses : Analyses) : Prop where
  foreign : ∀ kind entry context u, ((analyses kind).analysis entry context u).AsksOnly Call.Looks
  native : ∀ kind entry u, ((analyses kind).native entry u).AsksOnly Call.Looks

section Respects

variable {R : World Heap → World Heap → Prop} (hR : Onward R) {analyses : Analyses}

include hR

theorem respects_requestAt {kind : Kind} {place : Nat} {nested : Performer} {key : Key}
    {u : CodeUnit (Content kind)}
    (h : ((access analyses kind place).resultAt nested key u).Respects R) (f : Flavour) :
    ((access analyses kind place).requestAt nested f key u).Respects R := by
  rw [Access.requestAt_eq]
  exact h.bind hR f.respects_expect

/-- What requests keep if the calls of their analyses do, calls keep that only look. -/
theorem respects_pass (hevents : ∀ w w', SameButEvents w w' → R w w')
    (hresult : ∀ (kind : Kind) (place depth : Nat) (ids : Identities) (key : Key)
      (u : CodeUnit (Content kind)),
      (∀ c, c.Looks → (pass analyses depth ids c).Respects R) →
        ((access analyses kind place).resultAt (pass analyses depth ids) key u).Respects R)
    (depth : Nat) (ids : Identities) (c : Call) (hc : c.Looks) :
    (pass analyses depth ids c).Respects R := by
  have hemitAll (events : List Event) : (emitAll events : Exec Heap Unit).Respects R :=
    fun _ _ ↦ hevents _ _ ⟨_, rfl⟩
  have hannounced {α : Type} {act : Exec Heap α} (h : act.Respects R) (key : Key) :
      (announced key act).Respects R :=
    (hemitAll _).bind hR fun _ ↦ h
  have hcached (kind : Kind) (place : Nat) (u : CodeUnit (Content kind)) (key : Key) :
      (cachedPassed analyses kind place u key).Respects R :=
    hannounced (Access.respects_cachedAt .foreign key u) key
  induction depth generalizing ids c with
  | zero => exact .throw _
  | succ depth ih =>
    have hpassed (kind : Kind) (place : Nat) (u : CodeUnit (Content kind)) (key : Key) :
        (resultPassed analyses ids (pass analyses depth) kind place u key).Respects R :=
      hannounced (respects_requestAt hR (hresult kind place depth _ key u (ih (ids.enter kind key)))
        .foreign) key
    cases c with
    | say text => exact hemitAll _
    | identities => exact .pure _
    | register => exact hc.elim
    | result kind place key u => exact hpassed kind place u key
    | cached kind place key u => exact hcached kind place u key
    | boundaryRegister => exact hc.elim
    | boundaryResult kind place key u =>
      cases key with
      | none => exact .throw _
      | some key =>
        exact (Access.respects_registered key _ (hpassed kind place u key)).boundary
    | boundaryCached kind place key u =>
      cases key with
      | none => exact .throw _
      | some key => exact (hcached kind place u key).boundary
    | native kind place index u =>
      exact respects_requestAt hR (hresult kind place depth ids _ u (ih ids)) (.native index)

end Respects

end Calls

end ForeignPasses
