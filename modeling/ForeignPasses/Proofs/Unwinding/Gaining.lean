import ForeignPasses.Proofs.Manager.Computed
import ForeignPasses.Proofs.Separation.Alike
import ForeignPasses.Proofs.Unwinding.Looking

/-!
# Lookups gain results and nothing else

However a lookup ends, also by a panic that started deep inside of it, the analyses are as they were
before, running or at rest, and results of analyses that ran to their end have come in behind those
that were there. Slots and registries are left alone.
-/

namespace ForeignPasses.Calls

open Exec

variable (analyses : Analyses)

/-- A result of the analysis under its key in a manager, which ran to its end on its unit. -/
def Ran (kind : Kind) (place : Nat) (m : Manager (Inner kind)) (e : (UnitId × Key) × Result) :
    Prop :=
  ∃ analysis, m.analysisAt e.1.2 = some analysis ∧
    ∃ (depth : Nat) (ids : Identities) (u : CodeUnit (Content kind)) (w w' : World Heap),
      u.id = e.1.1 ∧
        (access analyses kind place).compute (pass analyses depth ids) u analysis w = .ok e.2 w'

/-- The analyses of a manager are as before, and results came in of analyses that ran to their
end. -/
structure Gained (kind : Kind) (place : Nat) (m m' : Manager (Inner kind)) : Prop where
  analyses_eq : m'.analyses = m.analyses
  exists_new : ∃ new, m.Grown new m' ∧ ∀ e ∈ new, Ran analyses kind place m e

variable {analyses}

namespace Gained

variable {kind : Kind} {place : Nat} {m m' m'' : Manager (Inner kind)}

theorem refl : Gained analyses kind place m m := ⟨rfl, Manager.GrownBy.refl⟩

theorem trans (h : Gained analyses kind place m m') (h' : Gained analyses kind place m' m'') :
    Gained analyses kind place m m'' where
  analyses_eq := h'.analyses_eq.trans h.analyses_eq
  exists_new := by
    refine Manager.GrownBy.trans h.exists_new (Manager.GrownBy.mono h'.exists_new ?_)
    intro e hran
    have hsame : m'.analysisAt e.1.2 = m.analysisAt e.1.2 := by
      rw [Manager.analysisAt, Manager.analysisAt, h.analyses_eq]
    rwa [Ran, hsame] at hran

section Running

variable {key : Key} {analysis : Analysis (Inner kind)}
  (hanalysis : m.analyses.find? key = some ⟨analysis, false⟩)
  (h : Gained analyses kind place (m.setRunning key true) m')

include hanalysis h

/-- An analysis that was started is at rest again. -/
theorem analyses_stopped : (m'.setRunning key false).analyses = m.analyses := by
  have hundo := congrArg Manager.analyses (Manager.setRunning_undo hanalysis)
  rwa [Manager.setRunning, ← h.analyses_eq] at hundo

omit hanalysis in
/-- What came in while an analysis ran, told from before it was started. -/
theorem grownBy_started :
    (m.setRunning key true).GrownBy (Ran analyses kind place m) m' := by
  refine Manager.GrownBy.mono h.exists_new ?_
  intro e hran
  rwa [Ran, Manager.analysisAt_setRunning] at hran

theorem stopped : Gained analyses kind place m (m'.setRunning key false) where
  analyses_eq := h.analyses_stopped hanalysis
  exists_new := h.grownBy_started.stop (Manager.profile_of_find? hanalysis)

/-- A result that an analysis ends with is kept behind what came in while it ran. -/
theorem keep {id : UnitId} {r : Result} (hfind : m.results.find? (id, key) = none)
    (hr : Ran analyses kind place m ((id, key), r)) :
    Gained analyses kind place m
      { m'.setRunning key false with
        results := (m'.setRunning key false).results.insert (id, key) r } where
  analyses_eq := h.analyses_stopped hanalysis
  exists_new := h.grownBy_started.keep (Manager.profile_of_find? hanalysis) hfind hr

end Running

end Gained

/-! ## All managers -/

/-- Every manager gained results and nothing else, and slots and registries are as before. -/
structure Gains (analyses : Analyses) (w w' : World Heap) : Prop where
  gained : ∀ kind place,
    Gained analyses kind place (w.focus.managers kind place) (w'.focus.managers kind place)
  slot_eq : ∀ kind, w'.shared.slot kind = w.shared.slot kind
  registry_eq : ∀ kind, w'.shared.registry kind = w.shared.registry kind

namespace Gains

variable {w w' : World Heap}

/-- Something was said, or an address was given away. -/
theorem aside (w : World Heap) (nextAddress : Nat) (events : List Event) :
    Gains analyses w { w with shared := { w.shared with nextAddress, events } } where
  gained _ _ := .refl
  slot_eq kind := by cases kind <;> rfl
  registry_eq kind := by cases kind <;> rfl

theorem refl (w : World Heap) : Gains analyses w w := aside w _ _

theorem onward : Onward (Gains analyses) where
  right _ := refl _
  trans h h' :=
    { gained := fun kind place ↦ (h.gained kind place).trans (h'.gained kind place)
      slot_eq := fun kind ↦ (h'.slot_eq kind).trans (h.slot_eq kind)
      registry_eq := fun kind ↦ (h'.registry_eq kind).trans (h.registry_eq kind) }

theorem trans {w'' : World Heap} (h : Gains analyses w w') (h' : Gains analyses w' w'') :
    Gains analyses w w'' :=
  onward.trans h h'

end Gains

/-! ## Requests -/

section Requests

variable {kind : Kind} {place : Nat}

/-- Between the start and the end of an analysis other managers gained, and so did its own; `m` is
what its own manager is in the end. -/
theorem Gains.of_started {key : Key} {w w₁ : World Heap} {message : String}
    {m : Manager (Inner kind)}
    (h : Gains analyses
      ⟨(Access.traced w message).shared, (access analyses kind place).started key w.focus⟩ w₁)
    (hm : Gained analyses kind place ((w.focus.managers kind place).setRunning key true)
        (w₁.focus.managers kind place) →
      Gained analyses kind place (w.focus.managers kind place) m) :
    Gains analyses w ⟨w₁.shared, w₁.focus.set kind place m⟩ where
  slot_eq k := (h.slot_eq k).trans (by cases k <;> rfl)
  registry_eq k := (h.registry_eq k).trans (by cases k <;> rfl)
  gained kind' place' := by
    have hgained := h.gained kind' place'
    change Gained _ _ _ ((w.focus.set kind place _).managers kind' place') _ at hgained
    change Gained _ _ _ _ ((w₁.focus.set kind place m).managers kind' place')
    by_cases hsame : kind' = kind ∧ place' = place
    · obtain ⟨rfl, rfl⟩ := hsame
      rw [Heap.managers_set] at hgained ⊢
      exact hm hgained
    · rwa [Heap.managers_set_of_ne _ hsame] at hgained ⊢

theorem Gains.stopped {key : Key} {w w₁ : World Heap} {message : String}
    {analysis : Analysis (Inner kind)}
    (hanalysis : (w.focus.managers kind place).analyses.find? key = some ⟨analysis, false⟩)
    (h : Gains analyses
      ⟨(Access.traced w message).shared, (access analyses kind place).started key w.focus⟩ w₁) :
    Gains analyses w ⟨w₁.shared, (access analyses kind place).stopped key w₁.focus⟩ :=
  .of_started h fun hm ↦ hm.stopped hanalysis

variable (place) (hlooks : Looking analyses)

include hlooks

section Computing

variable {depth : Nat} {ids : Identities}
  (hpass : ∀ c, c.Looks → (pass analyses depth ids c).Respects (Gains analyses))

include hpass

theorem gains_compute (u : CodeUnit (Content kind)) (analysis : Analysis (Inner kind)) :
    ((access analyses kind place).compute (pass analyses depth ids) u analysis).Respects
      (Gains analyses) := by
  have hadopt {α : Type} (value : Handed α) :
      (adopt value : Exec Heap (Opaque α)).Respects (Gains analyses) := fun w _ ↦ .aside w _ _
  cases analysis with
  | foreign entry context =>
    have hrun := Respects.run Gains.onward hpass (hlooks.foreign kind entry context.content? u)
    refine hrun.boundary.bind Gains.onward fun value ↦ ?_
    exact (hadopt value).bind Gains.onward fun _ ↦ .pure _
  | native entry =>
    have hrun := Respects.run Gains.onward hpass (hlooks.native kind entry u)
    exact hrun.bind Gains.onward fun _ ↦ .pure _
  | attached inner => exact .pure _

theorem gains_resultAt (key : Key) (u : CodeUnit (Content kind)) :
    ((access analyses kind place).resultAt (pass analyses depth ids) key u).Respects
      (Gains analyses) := by
  intro w _
  apply Access.ensures_resultAt_of
  case hfound => exact fun _ _ _ ↦ .aside w _ _
  case hunregistered => exact fun _ _ ↦ .refl w
  case hrunning => exact fun _ _ _ _ ↦ .aside w _ _
  case hresting =>
    intro analysis message hfind hanalysis
    let started : World Heap :=
      ⟨(Access.traced w message).shared, (access analyses kind place).started key w.focus⟩
    have hcompute := gains_compute place hlooks hpass u analysis started (.refl _)
    refine Ensures.mono (hcompute.and (Ensures.trivial _ _)) ?_ ?_
    · rintro r w₁ ⟨h, hok⟩
      have hran : Ran analyses kind place (w.focus.managers kind place) ((u.id, key), r) :=
        ⟨analysis, congrArg (Option.map _) hanalysis, depth, ids, u, started, w₁, rfl, hok⟩
      have hkept : Gains analyses w
          ⟨w₁.shared, (access analyses kind place).kept u key r w₁.focus⟩ := by
        rw [kept_eq]
        exact .of_started h fun hm ↦ hm.keep hanalysis hfind hran
      rw [Access.ensures_keep]
      exact hkept.trans (.aside _ _ _)
    · rintro e w₁ ⟨h, -⟩
      exact .stopped hanalysis h

end Computing

omit place in
/-- However a lookup ends, results were gained and nothing else changed. -/
theorem gains_pass (depth : Nat) (ids : Identities) (c : Call) (hc : c.Looks) :
    (pass analyses depth ids c).Respects (Gains analyses) := by
  refine respects_pass Gains.onward ?_ (fun _ place _ _ key u hpass ↦
    gains_resultAt place hlooks hpass key u) depth ids c hc
  rintro w _ ⟨events, rfl⟩
  exact .aside w _ events

end Requests

end ForeignPasses.Calls
