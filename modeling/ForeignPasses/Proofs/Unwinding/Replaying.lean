import ForeignPasses.Proofs.Identity.Discipline
import ForeignPasses.Proofs.Unwinding.Gaining
import ForeignPasses.Proofs.Unwinding.Repeating

/-!
# After a panic

A lookup that panics leaves everything usable. Slots, registrations and the marks of running
analyses are as before the call, nothing that was cached is lost, and what came in is what there
would be if only the computations that were completed had been requested: no later call can tell the
difference.
-/

namespace ForeignPasses

open Exec

/-- Whatever a result is, there is a type to ask for it as. -/
theorem Flavour.exists_receive (r : Result) :
    ∃ (f : Flavour) (a : f.Answer), f.receive r = some a := by
  cases r with
  | foreign value => exact ⟨.foreign, value, rfl⟩
  | native value => exact ⟨.native 0, value, rfl⟩
  | attached => exact ⟨.attached, (), rfl⟩

theorem Manager.eq_of {S : Type} {m m' : Manager S} (hanalyses : m'.analyses = m.analyses)
    (hresults : m'.results = m.results) : m' = m := by
  cases m
  cases m'
  rw [Manager.mk.injEq]
  exact ⟨hanalyses, hresults⟩

namespace Calls

/-! ## Requests that complete -/

/-- A request that is made where some identities are current, and of which the calls nest less than
so many times. -/
structure Request where
  depth : Nat
  ids : Identities
  kind : Kind
  place : Nat
  flavour : Flavour
  key : Key
  unit : CodeUnit (Content kind)

variable (analyses : Analyses)

def Request.make (request : Request) : Exec Heap request.flavour.Answer :=
  (access analyses request.kind request.place).requestAt (pass analyses request.depth request.ids)
    request.flavour request.key request.unit

/-- Requests are made one after the other, each for what is not there, and all of them return. -/
inductive Completes : World Heap → List Request → World Heap → Prop
  | nil {w : World Heap} : Completes w [] w
  | cons {request : Request} {rest : List Request} {w w₁ w' : World Heap}
    {a : request.flavour.Answer}
    (hnew : (w.focus.managers request.kind request.place).results.find?
      (request.unit.id, request.key) = none)
    (hmake : request.make analyses w = .ok a w₁) (hrest : Completes w₁ rest w') :
    Completes w (request :: rest) w'

/-- Some requests complete, and leave what is there but for the events. -/
def Replays (w w' : World Heap) : Prop :=
  ∃ requests v, Completes analyses w requests v ∧ SameButEvents v w'

variable {analyses}

theorem Request.repeatable_make {strict : Prop} (request : Request) :
    Repeatable strict (request.make analyses) :=
  repeatable_requestAt (repeatable_pass analyses request.depth request.ids) request.flavour
    request.key request.unit

theorem Request.gains_make (hlooks : Looking analyses) (request : Request) :
    (request.make analyses).Respects (Gains analyses) := by
  have hpass := gains_pass hlooks request.depth request.ids
  have hresult := gains_resultAt request.place hlooks hpass request.key request.unit
  exact respects_requestAt Gains.onward hresult request.flavour

namespace Completes

variable {w w' v : World Heap} {requests requests' : List Request}

theorem append (h : Completes analyses w requests w') (h' : Completes analyses w' requests' v) :
    Completes analyses w (requests ++ requests') v := by
  induction h with
  | nil => exact h'
  | cons hnew hmake _ ih => exact .cons hnew hmake (ih h')

theorem gains (hlooks : Looking analyses) (h : Completes analyses w requests w') :
    Gains analyses w w' := by
  induction h with
  | nil => exact .refl _
  | cons _ hmake _ ih => exact ((Request.gains_make hlooks _ _ (.refl _)).of_ok hmake).trans ih

/-- Requests that completed complete also where fewer analyses are running. -/
theorem exists_calmer {strict : Prop} (h : Completes analyses w requests w')
    (hv : Calmer strict w v) : ∃ v', Completes analyses v requests v' ∧ Calmer strict w' v' := by
  induction h generalizing v with
  | nil => exact ⟨v, .nil, hv⟩
  | @cons request _ _ _ _ _ hnew hmake _ ih =>
    obtain ⟨v₁, hmake', hv₁⟩ := Ensures.of_ok (request.repeatable_make _ v hv) hmake
    obtain ⟨v', hrest', hv'⟩ := ih hv₁
    rw [← (hv.manager request.kind request.place).results_eq] at hnew
    exact ⟨v', .cons hnew hmake' hrest', hv'⟩

end Completes

namespace Replays

variable {w w' w'' : World Heap}

theorem of_sameButEvents (h : SameButEvents w w') : Replays analyses w w' := ⟨[], w, .nil, h⟩

theorem trans (h : Replays analyses w w') (h' : Replays analyses w' w'') :
    Replays analyses w w'' := by
  obtain ⟨requests, v, hcompletes, hv⟩ := h
  obtain ⟨requests', v', hcompletes', hv'⟩ := h'
  obtain ⟨v'', hagain, hsame⟩ := hcompletes'.exists_calmer (.of_sameButEvents hv.symm)
  exact ⟨requests ++ requests', v'', hcompletes.append hagain, hsame.sameButEvents.symm.trans hv'⟩

theorem onward : Onward (Replays analyses) where
  right _ := of_sameButEvents (.refl _)
  trans := trans

/-- What completed while an analysis ran completes without it, and when it is stopped the same is
there. -/
theorem stopped (hlooks : Looking analyses) {kind : Kind} {place : Nat} {key : Key}
    {w₁ : World Heap} {message : String} {analysis : Analysis (Inner kind)}
    (hanalysis : (w.focus.managers kind place).analyses.find? key = some ⟨analysis, false⟩)
    (hgains : Gains analyses
      ⟨(Access.traced w message).shared, (access analyses kind place).started key w.focus⟩ w₁)
    (h : Replays analyses
      ⟨(Access.traced w message).shared, (access analyses kind place).started key w.focus⟩ w₁) :
    Replays analyses w ⟨w₁.shared, (access analyses kind place).stopped key w₁.focus⟩ := by
  obtain ⟨requests, v, hcompletes, events, rfl⟩ := h
  obtain ⟨v', hagain, hv'⟩ := hcompletes.exists_calmer (.of_started key w message)
  refine ⟨requests, v', hagain, .of_managers ?_ ?_⟩
  · intro kind' place'
    -- the analyses are those of the start on both sides, the results those of the first run
    have hstopped := (Gains.stopped hanalysis hgains).gained kind' place'
    have hagain' := (hagain.gains hlooks).gained kind' place'
    refine Manager.eq_of (hstopped.analyses_eq.trans hagain'.analyses_eq.symm) ?_
    rw [results_stopped, (hv'.manager kind' place').results_eq]
  · obtain ⟨events', hevents'⟩ := hv'.exists_events
    exact ⟨events, by rw [hevents']⟩

end Replays

/-! ## Lookups -/

section Lookups

variable {kind : Kind} (place : Nat) (hlooks : Looking analyses) {depth : Nat} {ids : Identities}
  (hpass : ∀ c, c.Looks → (pass analyses depth ids c).Respects (Replays analyses))

include hlooks hpass

/-- An analysis that halts has left what the calls that returned have left. -/
theorem replays_compute (u : CodeUnit (Content kind)) (analysis : Analysis (Inner kind))
    (w : World Heap) :
    ((access analyses kind place).compute (pass analyses depth ids) u analysis).Ensures w
      (fun _ _ ↦ True) fun _ ↦ Replays analyses w := by
  have hw : Replays analyses w w := .of_sameButEvents (.refl w)
  cases analysis with
  | foreign entry context =>
    have hrun := Respects.run Replays.onward hpass (hlooks.foreign kind entry context.content? u)
    simp only [Access.compute, ensures_bind, ensures_boundary, ensures_adopt, ensures_pure]
    exact (hrun w hw).mono (fun _ _ _ ↦ trivial) fun _ _ h ↦ h
  | native entry =>
    have hrun := Respects.run Replays.onward hpass (hlooks.native kind entry u)
    simp only [Access.compute, ensures_bind, ensures_pure]
    exact (hrun w hw).mono (fun _ _ _ ↦ trivial) fun _ _ h ↦ h
  | attached inner => trivial

theorem replays_resultAt (key : Key) (u : CodeUnit (Content kind)) :
    ((access analyses kind place).resultAt (pass analyses depth ids) key u).Respects
      (Replays analyses) := by
  intro w hw
  have hhalted : ((access analyses kind place).resultAt (pass analyses depth ids) key u).Ensures w
      (fun _ w' ↦ (w.focus.managers kind place).results.find? (u.id, key) = none ∨
        SameButEvents w w')
      fun _ ↦ Replays analyses w := by
    apply Access.ensures_resultAt_of
    case hfound => exact fun _ _ _ ↦ .inr ⟨_, rfl⟩
    case hunregistered => exact fun _ _ ↦ hw
    case hrunning => exact fun _ _ _ _ ↦ .of_sameButEvents ⟨_, rfl⟩
    case hresting =>
      intro analysis message hfind hanalysis
      let started : World Heap :=
        ⟨(Access.traced w message).shared, (access analyses kind place).started key w.focus⟩
      have hreplays := replays_compute place hlooks hpass u analysis started
      have hgains := gains_compute place hlooks (gains_pass hlooks depth ids) u analysis started
        (.refl _)
      refine Ensures.mono (hreplays.and hgains) (fun _ _ _ ↦ .inl hfind) ?_
      rintro e w₁ ⟨hreplays, hgains⟩
      exact .stopped hlooks hanalysis hgains hreplays
  refine (hhalted.and (Ensures.trivial _ _)).mono ?_ fun _ _ h ↦ h.1
  rintro r w' ⟨hfind | hsame, hok⟩
  · -- what was computed completes as a request of its own, for the type that it has
    obtain ⟨f, a, ha⟩ := Flavour.exists_receive r
    let request : Request := ⟨depth, ids, kind, place, f, key, u⟩
    have hmake : request.make analyses w = .ok a w' := by
      rw [Request.make, Access.requestAt_eq, bind_ok hok, Flavour.expect, ha]
      rfl
    exact ⟨[request], w', .cons hfind hmake .nil, .refl w'⟩
  · exact .of_sameButEvents hsame

end Lookups

/-- However a lookup ends, the requests that completed leave what it left. -/
theorem replays_pass (hlooks : Looking analyses) (depth : Nat) (ids : Identities) (c : Call)
    (hc : c.Looks) : (pass analyses depth ids c).Respects (Replays analyses) :=
  respects_pass Replays.onward (fun _ _ ↦ .of_sameButEvents) (fun _ place _ _ key u hpass ↦
    replays_resultAt place hlooks hpass key u) depth ids c hc

/-! ## Panics -/

/-- What a lookup leaves that everything is usable after: every manager has its analyses as before,
running or at rest, and behind its results those of analyses that ran to their end; slots and
registries are as before; and if certain requests had been made instead, which all return, then
every later call would go the same way. -/
structure Unwound (analyses : Analyses) (w w' : World Heap) : Prop where
  gains : Gains analyses w w'
  replayed : ∃ requests v, Completes analyses w requests v ∧ SameButEvents v w' ∧
    ∀ depth c, Agree (perform analyses depth c) (perform analyses depth c) v w'
      (fun a u b u' ↦ b = a ∧ SameButEvents u u') SameButEvents

/-- A lookup that panics, however deep the panic starts, leaves everything usable. -/
theorem perform_unwound (hlooks : Looking analyses) {depth : Nat} {c : Call} (hc : c.Looks)
    {w w' : World Heap} {p : Panic} (h : perform analyses depth c w = .error (.panicked p) w') :
    Unwound analyses w w' := by
  rw [perform_eq_pass] at h
  have hgains := (gains_pass hlooks depth _ c hc w (.refl w)).of_error h
  have hreplays := (replays_pass hlooks depth _ c hc w (.of_sameButEvents (.refl w))).of_error h
  obtain ⟨requests, v, hcompletes, hsame⟩ := hreplays
  exact ⟨hgains, requests, v, hcompletes, hsame, fun depth c ↦
    (repeatable_perform analyses depth c).agree hsame⟩

/-- The first analysis of functions asks for the second one, which returns, and then for a native
analysis of modules as if it were foreign, which is found out when the result has been cached. -/
def comparing : Analyses
  | .module =>
    { analysis _ _ _ := .done .null
      native _ m := .done (m.content : Functions).length }
  | .function =>
    { analysis _ _ _ := .done .null
      native entry f := if entry = 0 then
          .ask (.native .function 0 1 f) fun length ↦
            .ask (.result .module 0 (.numbered 0) ⟨1, "sample", [f]⟩) fun _ ↦ .done length
        else .done (f.content : Body).length }

theorem looking_comparing : Looking comparing where
  foreign kind entry context u := by cases kind <;> trivial
  native kind entry u := by
    cases kind with
    | module => trivial
    | function =>
      change Program.AsksOnly _ (if entry = 0 then _ else _)
      split
      · exact ⟨trivial, fun _ ↦ ⟨trivial, fun _ ↦ trivial⟩⟩
      · trivial

/-- Two native analyses in every manager. -/
def comparingStart : World Heap :=
  ⟨{}, ⟨fun _ _ ↦
    { analyses := Table.insert (Table.insert ∅ (.numbered 0) ⟨.native 0, false⟩) (.numbered 1)
        ⟨.native 1, false⟩ }⟩⟩

def comparison : Call := .native .function 0 0 ⟨2, "main", ["nop", "ret"]⟩

theorem perform_unwound_comparing : Looking comparing ∧ comparison.Looks ∧
    ∃ w', perform comparing 3 comparison comparingStart = .error (.panicked .typeMismatch) w' ∧
      (w'.focus.managers .function 0).results.entries = [((2, .numbered 1), .native 2)] ∧
      (w'.focus.managers .module 0).results.entries = [((1, .numbered 0), .native 1)] ∧
      Unwound comparing comparingStart w' := by
  have hends : (perform comparing 3 comparison).Ensures comparingStart (fun _ _ ↦ False)
      fun e w' ↦ e = .panicked .typeMismatch ∧
        (w'.focus.managers .function 0).results.entries = [((2, .numbered 1), .native 2)] ∧
        (w'.focus.managers .module 0).results.entries = [((1, .numbered 0), .native 1)] := by
    decide +kernel
  have hlooks : comparison.Looks := trivial
  refine ⟨looking_comparing, hlooks, ?_⟩
  cases h : perform comparing 3 comparison comparingStart with
  | ok a w' => exact (hends.of_ok h).elim
  | error e w' =>
    obtain ⟨rfl, hfunction, hmodule⟩ := hends.of_error h
    exact ⟨w', rfl, hfunction, hmodule, perform_unwound looking_comparing hlooks h⟩

end Calls

end ForeignPasses
