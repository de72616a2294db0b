import ForeignPasses.Proofs.Coherence.Lookup

/-!
# The attached manager

A manager of modules is coherent together with the manager of functions that is attached to it, and
working on the attached one keeps it so.
-/

namespace ForeignPasses

open Exec

namespace Manager

variable {S : Type} {m : Manager S} {inner : S}

namespace Coherent

variable {β I : Type} {theory : Theory β I S}
  {computations : Computations β (Inquiry β I) Inquiry.Answer}
  {meaning : Key → CodeUnit β → Finding}
  {known : UnitId → Prop} {valid : CodeUnit β → Key → Prop} {units : List (CodeUnit β)}

theorem inner_of_attached?
    (h : m.Coherent (theory.Lawful computations) meaning known valid units)
    (hattached : m.attached? = some inner) : theory.inner inner := by
  obtain ⟨running, hfind⟩ := find?_of_attached? hattached
  exact (h.lawful _ _ hfind).2.2

/-- What is attached may be replaced by what may be attached. -/
theorem setAttached (h : m.Coherent (theory.Lawful computations) meaning known valid units)
    (hattached : m.attached? = some inner) {P : S → Prop} {inner' : S} (hinner : P inner') :
    (m.setAttached inner').Coherent ((theory.withInner P).Lawful computations) meaning known valid
      units where
  lawful key r hr := by
    rw [Manager.setAttached, Table.find?_modify] at hr
    split at hr
    · rename_i heq
      subst heq
      obtain ⟨r', hr', rfl⟩ := Option.map_eq_some_iff.1 hr
      obtain ⟨running, hfind⟩ := find?_of_attached? hattached
      exact ⟨rfl, (h.lawful _ _ hfind).2.1, hinner⟩
    · rename_i hne
      have hlawful := h.lawful key r hr
      cases hanalysis : r.analysis with
      | foreign entry context =>
        rw [hanalysis] at hlawful
        exact hlawful
      | native entry =>
        rw [hanalysis] at hlawful
        exact hlawful
      | attached other =>
        rw [hanalysis] at hlawful
        exact absurd hlawful.1 hne
  registered id key r hr := by
    rw [isRegistered_setAttached]
    exact h.registered id key r hr
  known := h.known
  right := h.right

/-- What holds of everything attached may be put in terms of the manager that is attached. -/
theorem withInner (h : m.Coherent (theory.Lawful computations) meaning known valid units)
    {P : S → Prop} (hinner : ∀ inner, m.attached? = some inner → P inner) :
    m.Coherent ((theory.withInner P).Lawful computations) meaning known valid units where
  lawful key r hr := by
    have hlawful := h.lawful key r hr
    cases hanalysis : r.analysis with
    | foreign entry context =>
      rw [hanalysis] at hlawful
      exact hlawful
    | native entry =>
      rw [hanalysis] at hlawful
      exact hlawful
    | attached inner =>
      rw [hanalysis] at hlawful
      obtain ⟨rfl, hmeaning, -⟩ := hlawful
      refine ⟨rfl, hmeaning, hinner inner ?_⟩
      obtain ⟨analysis, running⟩ := r
      obtain rfl : analysis = .attached inner := hanalysis
      rw [attached?, hr]
  registered := h.registered
  known := h.known
  right := h.right

end Coherent

end Manager

/-! ## Both tiers -/

namespace Code

variable (code : Code) (meaning : Meaning)

/-- A manager of functions whose results for some functions are right wherever `valid` says so. All
its results are for units that were made before `next`. -/
def FunctionsRight (valid : Function → Key → Prop) (functions : Functions) (next : UnitId)
    (m : FunctionManager) : Prop :=
  m.Coherent (meaning.functionTheory.Lawful code.functions.toComputations) meaning.onFunction
    (· < next) valid functions

/-- A manager of modules whose results for a module are right wherever `valid` says so, and what
must hold of the manager that is attached. -/
def ModuleRight (valid : Key → Prop) (inner : FunctionManager → Prop) (m : Module)
    (manager : ModuleManager) : Prop :=
  manager.Coherent ((meaning.moduleTheory inner).Lawful code.modules.toComputations)
    meaning.onModule (fun _ ↦ True) (fun _ key ↦ valid key) [m]

/-- Functions with identifiers of their own, made before `next`. -/
structure Distinct (functions : Functions) (next : UnitId) : Prop where
  nodup : (functions.map CodeUnit.id).Nodup
  before : ∀ f ∈ functions, f.id < next

theorem functionTier_withinRight (functions : Functions) (keys : List Key) (bound next : UnitId) :
    code.functionTier.WithinRight meaning.functionTheory (· < bound) functions keys next :=
  fun _ inner ↦ nomatch inner

/-- Every look-up for a function gets what its key means. -/
theorem functionTier_fetchesRight {functions : Functions} {bound : UnitId}
    (hdistinct : Distinct functions bound) (keys : List Key) (next : UnitId) :
    code.functionTier.FetchesRight meaning.functionTheory (· < bound) functions keys next
      code.functionTier.fetch :=
  Tier.fetch_fetchesRight hdistinct.nodup hdistinct.before
    (functionTier_withinRight code meaning functions keys bound next)

/-- Whatever code asks about functions is answered rightly. -/
theorem functionTier_answersRight {functions : Functions} {bound : UnitId}
    (hdistinct : Distinct functions bound) (keys : List Key) (next : UnitId)
    {allowed : Function → Prop} (hallowed : ∀ f, allowed f → f ∈ functions) :
    code.functionTier.AnswersRight meaning.functionTheory (· < bound) functions keys next allowed
      (code.functionTier.answer code.functionTier.fetch) :=
  Tier.answer_fetch_answersRight hdistinct.nodup hdistinct.before
    (functionTier_withinRight code meaning functions keys bound next) hallowed

/-- A program over the functions of a module gets right answers from the attached manager. -/
theorem moduleTier_withinRight {m : Module} {bound : UnitId} (hdistinct : Distinct m.content bound)
    (keys : List Key) (next : UnitId) :
    code.moduleTier.WithinRight
      (meaning.moduleTheory (code.FunctionsRight meaning (fun _ _ ↦ True) m.content bound))
      (fun _ ↦ True) [m] keys next := by
  intro u inner post w hu h hinner
  obtain rfl : u = m := List.mem_singleton.1 hu
  apply Tier.ensures_onAttached_of
  case hnone => exact fun _ ↦ trivial
  case hsome =>
    intro manager hattached
    have hright : code.FunctionsRight meaning (fun _ _ ↦ True) u.content bound manager :=
      h.coherent.inner_of_attached? hattached
    have hsound : code.functionTier.Sound meaning.functionTheory (· < bound) u.content manager.keys
        next ⟨w.shared, manager⟩ := ⟨hright, rfl, h.next_eq⟩
    have hanswers := functionTier_answersRight code meaning hdistinct manager.keys next fun _ h ↦ h
    refine (Program.ensures_run_of_fold' hanswers hsound hinner).mono ?_ fun _ _ _ ↦ trivial
    rintro value w' ⟨hsound', hpost⟩
    exact ⟨⟨h.coherent.setAttached hattached hsound'.coherent,
      (Manager.keys_setAttached _).trans h.keys_eq, hsound'.next_eq⟩, hpost⟩

/-- Every look-up for a module gets what its key means. -/
theorem moduleTier_fetchesRight {m : Module} {bound : UnitId}
    (hdistinct : Distinct m.content bound) (keys : List Key) (next : UnitId) :
    code.moduleTier.FetchesRight
      (meaning.moduleTheory (code.FunctionsRight meaning (fun _ _ ↦ True) m.content bound))
      (fun _ ↦ True) [m] keys next code.moduleTier.fetch :=
  Tier.fetch_fetchesRight (by simp) (fun _ _ ↦ trivial)
    (moduleTier_withinRight code meaning hdistinct keys next)

/-- Whatever code asks about a module is answered rightly. -/
theorem moduleTier_answersRight {m : Module} {bound : UnitId}
    (hdistinct : Distinct m.content bound) (keys : List Key) (next : UnitId) :
    code.moduleTier.AnswersRight
      (meaning.moduleTheory (code.FunctionsRight meaning (fun _ _ ↦ True) m.content bound))
      (fun _ ↦ True) [m] keys next (· = m) (code.moduleTier.answer code.moduleTier.fetch) :=
  Tier.answer_fetch_answersRight (by simp) (fun _ _ ↦ trivial)
    (moduleTier_withinRight code meaning hdistinct keys next) fun _ ↦ List.mem_singleton.2

end Code

end ForeignPasses
