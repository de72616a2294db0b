import ForeignPasses.Proofs.Coherence.Lookups
import ForeignPasses.Proofs.Manager.Reached

/-!
# Outstanding computations

An analysis asks for results while it is computed, and these are computed in turn, so computations
nest. What is remembered of those that are outstanding is which analyses they are of, and not which
units they are for. Therefore a request is refused if the analysis is being computed for any unit.
-/

namespace ForeignPasses

open Exec

/-- Where a program asks a question, all is kept that the answers to its questions keep. -/
theorem Program.Asks.keeps {Q σ α : Type} {A : Q → Type} {answer : (q : Q) → Exec σ (A q)}
    {R : World σ → World σ → Prop} (hR : Onward R) (hanswer : ∀ q, (answer q).Respects R)
    {p : Program Q A α} {q : Q} {w₀ w w' : World σ} (h : p.Asks answer w q w') (hw : R w₀ w) :
    R w₀ w' := by
  induction h with
  | now => exact hw
  | later hok _ ih => exact ih (hR.trans hw ((hanswer _ _ (hR.right hw)).of_ok hok))

namespace Tier

variable {β I S : Type} (tier : Tier β I S)

/-- The code of an analysis asks a question about a unit, with some way of getting results. -/
inductive CodeAsks (fetch : Fetch (Manager S) β) (u : CodeUnit β) :
    Analysis S → World (Manager S) → World (Manager S) → Prop
  | foreign {entry : Entry} {context : Opaque String} {q : Inquiry β I} {w w' : World (Manager S)}
      (h : (tier.behaviour.analysis entry context.content? u).Asks (tier.answer fetch) w q w') :
      CodeAsks fetch u (.foreign entry context) w w'
  | native {entry : Entry} {q : Inquiry β I} {w w' : World (Manager S)}
      (h : (tier.behaviour.native entry u).Asks (tier.answer fetch) w q w') :
      CodeAsks fetch u (.native entry) w w'

/-- A manager while some computations are outstanding, the innermost one first. -/
inductive Nests (atRest : Manager S → Prop) : List (UnitId × Key) → Manager S → Prop
  | rest {m : Manager S} (h : atRest m) : Nests atRest [] m
  | computing {outstanding : List (UnitId × Key)} {m : Manager S}
      (h : Nests atRest outstanding m) {u : CodeUnit β} {key : Key} {analysis : Analysis S}
      (hmissing : m.results.find? (u.id, key) = none)
      (hresting : m.analyses.find? key = some ⟨analysis, false⟩) {depth : Nat} {s : Shared}
      {w : World (Manager S)}
      (hasks : tier.CodeAsks (tier.fetchWithin depth) u analysis ⟨s, m.setRunning key true⟩ w) :
      Nests atRest ((u.id, key) :: outstanding) w.focus

variable {tier} {good : S → Prop}

/-- Where the code of an analysis asks, all is as requests conserve it. -/
theorem CodeAsks.conserves {like : Manager S → Manager S → Prop} (h : tier.Conserves like)
    {depth : Nat} {u : CodeUnit β} {analysis : Analysis S} {w w' : World (Manager S)}
    (hasks : tier.CodeAsks (tier.fetchWithin depth) u analysis w w')
    (hw : like w.focus w.focus) : like w.focus w'.focus := by
  have hstart : Focused like w w := hw
  cases hasks with
  | foreign hasks => exact hasks.keeps h.onward (h.answersWithin (depth + 1)) hstart
  | native hasks => exact hasks.keeps h.onward (h.answersWithin (depth + 1)) hstart

variable {atRest : Manager S → Prop} {outstanding : List (UnitId × Key)} {m : Manager S}

/-- The analyses that are running are those of the outstanding computations. -/
theorem Nests.tidy_and_running (h : tier.Maintained good)
    (hrest : ∀ m, atRest m → m.Tidy good ∧ m.Rests) (hnests : tier.Nests atRest outstanding m) :
    m.Tidy good ∧
      ∀ key, m.profile.find? key = some true ↔ ∃ id, (id, key) ∈ outstanding := by
  induction hnests with
  | rest hm =>
    obtain ⟨htidy, hrests⟩ := hrest _ hm
    exact ⟨htidy, fun key ↦ ⟨fun hrunning ↦ absurd hrunning (hrests key), by simp⟩⟩
  | @computing outstanding m _ u key analysis hmissing hresting depth s w hasks ih =>
    obtain ⟨htidy, hrunning⟩ := ih
    have hupkeep := hasks.conserves h.conserves (.refl (htidy.setRunning key true))
    refine ⟨hupkeep.tidy, fun other ↦ ?_⟩
    rw [hupkeep.running_iff, Manager.profile_setRunning, Table.find?_modify]
    by_cases hsame : other = key
    · subst hsame
      rw [if_pos rfl, Manager.profile_of_find? hresting]
      exact ⟨fun _ ↦ ⟨u.id, List.mem_cons_self⟩, fun _ ↦ rfl⟩
    · rw [if_neg hsame, hrunning other]
      simp [hsame]

/-! ## Refusals -/

section Refusals

/-- A request is refused as it stands, however the questions of analyses are answered. -/
def Refuses (tier : Tier β I S) (f : Flavour) (key : Key) (u : CodeUnit β)
    (w : World (Manager S)) : Prop :=
  ∀ answer, (tier.access.requestAt answer f key u).Ensures w (fun _ _ ↦ False)
    fun e _ ↦ e = .panicked .selfRequest

variable {f : Flavour} {key : Key} {u : CodeUnit β} {w : World (Manager S)}

/-- If no question is answered, an analysis that is at rest halts for that reason only. -/
theorem ensures_compute_unanswered (analysis : Analysis S) (w : World (Manager S)) :
    (tier.access.compute (fun _ ↦ throw .exhausted) u analysis).Ensures w (fun _ _ ↦ True)
      fun e _ ↦ e = .exhausted := by
  have hrun {α : Type} (p : Inquest β I α) (w : World (Manager S)) :
      Ensures (p.run fun _ ↦ throw .exhausted) w (fun _ _ ↦ True) fun e _ ↦ e = .exhausted := by
    cases p with
    | done a => trivial
    | ask q next => rfl
  cases analysis with
  | foreign entry context =>
    simp only [Access.compute, ensures_bind, ensures_boundary, ensures_adopt, ensures_pure]
    exact (hrun _ w).mono (fun _ _ _ ↦ trivial) fun _ _ he ↦ by rw [he]; rfl
  | native entry =>
    simp only [Access.compute, ensures_bind, ensures_pure]
    exact hrun _ w
  | attached inner => trivial

theorem ensures_requestAt_unanswered
    (h : ¬(w.focus.results.find? (u.id, key) = none ∧ w.focus.profile.find? key = some true)) :
    (tier.access.requestAt (fun _ ↦ throw .exhausted) f key u).Ensures w (fun _ _ ↦ True)
      fun e _ ↦ e ≠ .panicked .selfRequest := by
  have hexpect (r : Result) (w : World (Manager S)) :
      (f.expect r : Exec (Manager S) f.Answer).Ensures w (fun _ _ ↦ True)
        fun e _ ↦ e ≠ .panicked .selfRequest := by
    rw [Flavour.expect]
    cases f.receive r with
    | some a => trivial
    | none => exact (by decide : Halt.panicked .typeMismatch ≠ .panicked .selfRequest)
  apply Access.ensures_requestAt_of
  case hfound => exact fun r message _ ↦ hexpect r _
  case hunregistered => exact fun _ _ ↦ by decide
  case hrunning =>
    intro analysis _ hmissing (hanalysis : w.focus.analyses.find? key = some ⟨analysis, true⟩)
    exact absurd ⟨hmissing, Manager.profile_of_find? hanalysis⟩ h
  case hresting =>
    intro analysis _ _ _
    apply (ensures_compute_unanswered analysis _).mono
    · intro r w₁ _
      simp only [ensures_bind, Access.ensures_keep]
      exact hexpect r _
    · intro e _ he
      rw [he]
      decide

theorem refuses_iff :
    tier.Refuses f key u w ↔
      w.focus.results.find? (u.id, key) = none ∧ w.focus.profile.find? key = some true := by
  constructor
  · intro hrefuses
    by_contra hfree
    have hnever : (tier.access.requestAt (fun _ ↦ throw .exhausted) f key u).Ensures w
        (fun _ _ ↦ False) fun _ _ ↦ False :=
      ((hrefuses _).and (ensures_requestAt_unanswered hfree)).mono (fun _ _ h ↦ h.1)
        fun _ _ h ↦ h.2 h.1
    exact Ensures.ending (p := fun _ ↦ False) hnever
  · rintro ⟨hmissing, hrunning⟩ answer
    rw [Manager.find?_profile, Option.map_eq_some_iff] at hrunning
    obtain ⟨⟨analysis, running⟩, hanalysis, hrunning⟩ := hrunning
    obtain rfl : running = true := hrunning
    apply Access.ensures_requestAt_of
    case hfound =>
      intro r _ (hfound : w.focus.results.find? (u.id, key) = some r)
      rw [hmissing] at hfound
      cases hfound
    case hunregistered =>
      intro _ (hnone : w.focus.analyses.find? key = none)
      rw [hanalysis] at hnone
      cases hnone
    case hrunning => exact fun _ _ _ _ ↦ rfl
    case hresting =>
      intro other _ _ (hresting : w.focus.analyses.find? key = some ⟨other, false⟩)
      rw [hanalysis] at hresting
      cases hresting

/-- A request is refused if nothing is cached for it and a computation of the same analysis is
outstanding, for whatever unit. -/
theorem Nests.refuses_iff (h : tier.Maintained good) (hrest : ∀ m, atRest m → m.Tidy good ∧ m.Rests)
    (hnests : tier.Nests atRest outstanding w.focus) :
    tier.Refuses f key u w ↔
      w.focus.results.find? (u.id, key) = none ∧ ∃ id, (id, key) ∈ outstanding := by
  rw [Tier.refuses_iff, (hnests.tidy_and_running h hrest).2 key]

end Refusals

end Tier

namespace Code

/-- While computations are outstanding in a manager that calls lead to, a request is refused if
nothing is cached for it and one of them is of the same analysis, for whatever unit. -/
theorem refuses_iff_outstanding (code : Code) :
    (∀ (f : Flavour) (key : Key) (u : Function) (w : World FunctionManager) outstanding,
      code.functionTier.Nests code.ReachesFunctions outstanding w.focus →
        (code.functionTier.Refuses f key u w ↔
          w.focus.results.find? (u.id, key) = none ∧ ∃ id, (id, key) ∈ outstanding)) ∧
    ∀ (f : Flavour) (key : Key) (u : Module) (w : World ModuleManager) outstanding,
      code.moduleTier.Nests code.ReachesModules outstanding w.focus →
        (code.moduleTier.Refuses f key u w ↔
          w.focus.results.find? (u.id, key) = none ∧ ∃ id, (id, key) ∈ outstanding) :=
  ⟨fun _ _ _ _ _ hnests ↦ hnests.refuses_iff code.functionTier_maintained
      fun _ ↦ ReachesFunctions.tidy_and_rests,
    fun _ _ _ _ _ hnests ↦ hnests.refuses_iff code.moduleTier_maintained
      fun _ ↦ ReachesModules.tidy_and_rests⟩

end Code

namespace Demo

/-! ## Two functions -/

def callee : Function := ⟨3, "callee", ["ret"]⟩

def caller : Function := ⟨2, "caller", ["call callee", "ret"]⟩

/-- The depth of calls: that of the one function asks for that of the other, which is known. -/
def callDepth (f : Function) : Inquest Body Empty Int :=
  if f.id = caller.id then do return (← Inquest.native callee 0) + 1 else return 0

def calling : Code := { code with
  functions := { functionBehaviour with native := fun _ f ↦ callDepth f } }

def callingManager : FunctionManager :=
  ((calling.functionTier.registerNative 0 0).ending ⟨{}, {}⟩).focus

/-- The computation for the one function is outstanding. -/
def callingStart : World FunctionManager := ⟨{}, callingManager.setRunning (.numbered 0) true⟩

theorem nests_callingStart : calling.functionTier.Nests calling.ReachesFunctions
    [(caller.id, .numbered 0)] callingStart.focus := by
  have hreached : calling.ReachesFunctions callingManager :=
    Tier.Reached.empty.call (.registerNative 0 0) {}
  have hasks : calling.functionTier.CodeAsks (calling.functionTier.fetchWithin 0) caller (.native 0)
      callingStart callingStart :=
    .native .now
  exact .computing (.rest hreached) rfl rfl hasks

/-- What the one function asks of the other is refused, though no result for the other one is being
computed. Asked from outside, it is there. -/
theorem refuses_other_unit :
    callee.id ≠ caller.id ∧
      calling.functionTier.Refuses (.native 0) (.numbered 0) callee callingStart ∧
      (calling.functionTier.fetch (.native 0) caller).Ensures ⟨{}, callingManager⟩
        (fun _ _ ↦ False) (fun e _ ↦ e = .panicked .selfRequest) ∧
      (calling.functionTier.fetch (.native 0) callee).Ensures ⟨{}, callingManager⟩
        (fun depth _ ↦ depth = (0 : Int)) fun _ _ ↦ False := by
  have hrefuses : calling.functionTier.Refuses (.native 0) (.numbered 0) callee callingStart :=
    ((Code.refuses_iff_outstanding calling).1 _ _ _ _ _ nests_callingStart).2
      ⟨rfl, caller.id, List.mem_singleton.2 rfl⟩
  exact ⟨by decide, hrefuses, by decide +kernel, rfl⟩

end Demo

end ForeignPasses
