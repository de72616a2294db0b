import ForeignPasses.Builder.Default
import ForeignPasses.Proofs.Exec.Agreement
import ForeignPasses.Proofs.Ownership.Guarding
import ForeignPasses.Proofs.Pipeline.Elaboration

/-!
# Default pipelines

A default pipeline is what the callbacks of its extension points add, point after point and at each
point in the order of registration. Every callback is called once, with the pipeline that those
before it have left, and always returns.
-/

namespace ForeignPasses

open Exec

/-! ## Registrations -/

namespace Slots

theorem map_register (slots : Slots) (r : Sigma Extension) (point : ExtensionPoint) :
    (slots.register r.1 r.2 point).map (Sigma.mk point) =
      (slots point).map (Sigma.mk point) ++ [r].filter (·.1 = point) := by
  obtain ⟨here, e⟩ := r
  by_cases h : here = point
  · subst h
    simp [register]
  · simp [register, h]

/-- A slot has the callbacks that were registered at its point, in order. -/
theorem map_registerAll (slots : Slots) (registrations : List (Sigma Extension))
    (point : ExtensionPoint) :
    (slots.registerAll registrations point).map (Sigma.mk point) =
      (slots point).map (Sigma.mk point) ++ registrations.filter (·.1 = point) := by
  induction registrations generalizing slots with
  | nil => exact (List.append_nil _).symm
  | cons r rest ih =>
    change ((slots.register r.1 r.2).registerAll rest point).map _ = _
    rw [ih, map_register, List.append_assoc, ← List.filter_append]
    rfl

end Slots

namespace Builder

variable (b : Builder) (point : ExtensionPoint)

theorem map_slots : (b.slots point).map (Sigma.mk point) =
    (b.extensionsAt point).map fun s ↦ ⟨point, .foreign s⟩ := by
  rw [slots, Slots.map_registerAll, extensionsAt]
  simp only [Slots.empty, List.map_nil, List.nil_append, List.filter_map, List.map_map]
  refine List.map_congr_left fun e he ↦ ?_
  have hpoint : e.1 = point := by simpa using (List.mem_filter.1 he).2
  subst hpoint
  rfl

theorem slots_eq : b.slots point = (b.extensionsAt point).map .foreign := by
  refine List.map_injective_iff.2 (sigma_mk_injective (i := point)) ?_
  rw [map_slots, List.map_map]
  rfl

end Builder

/-! ## Calls -/

section Calls

variable (code : Code) (effort : Effort) {point : ExtensionPoint}

/-- A callback is called with a pipeline, to which it adds passes. Foreign code gets its own context
and the level that the effort comes to. -/
inductive Invokes : Extension point → World (List (Pass point.kind.Inner)) →
    List (Pass point.kind.Inner) → Shared → Prop where
  | foreign {s : Subscription} {w : World (List (Pass point.kind.Inner))}
      {added : List (Pass point.kind.Inner)} {shared : Shared}
      (h : (code.extension s.callback s.context.content? effort.level).run
        (answerAssemble point.kind) w = .ok () ⟨shared, w.focus ++ added⟩) :
      Invokes (.foreign s) w added shared
  | native {contribute : Effort → List (Pass point.kind.Inner) → Shared →
        List (Pass point.kind.Inner) × Shared}
      {w : World (List (Pass point.kind.Inner))} {added : List (Pass point.kind.Inner)}
      {shared : Shared} (h : contribute effort w.focus w.shared = (added, shared)) :
      Invokes (.native contribute) w added shared

/-- Callbacks are called one after the other, each once; `lists` has what each of them adds. -/
inductive Calls : List (Extension point) → World (List (Pass point.kind.Inner)) →
    List (List (Pass point.kind.Inner)) → Shared → Prop where
  | nil (w : World (List (Pass point.kind.Inner))) : Calls [] w [] w.shared
  | cons {e : Extension point} {rest : List (Extension point)}
      {w : World (List (Pass point.kind.Inner))} {added : List (Pass point.kind.Inner)}
      {shared shared' : Shared} {lists : List (List (Pass point.kind.Inner))}
      (hfirst : Invokes code effort e w added shared)
      (hrest : Calls rest ⟨shared, w.focus ++ added⟩ lists shared') :
      Calls (e :: rest) w (added :: lists) shared'

theorem exists_invokes (e : Extension point) (w : World (List (Pass point.kind.Inner))) :
    ∃ added shared, Invokes code effort e w added shared ∧
      Slots.extend code effort e w = .ok () ⟨shared, w.focus ++ added⟩ := by
  cases e with
  | foreign s =>
    obtain ⟨_, ⟨shared, passes⟩, hrun, hgrows⟩ := (ensures_run_assembly point.kind
      (code.extension s.callback s.context.content? effort.level) w).exists_ok fun _ _ h ↦ h
    obtain ⟨added, rfl⟩ := hgrows.passes
    refine ⟨added, shared, .foreign hrun, ?_⟩
    change boundary _ w = _
    rw [boundary, hrun]
  | native contribute => exact ⟨_, _, .native rfl, rfl⟩

/-- The callbacks of a slot all return. -/
theorem exists_calls (callbacks : List (Extension point))
    (w : World (List (Pass point.kind.Inner))) :
    ∃ lists shared, Calls code effort callbacks w lists shared ∧
      callbacks.forM (Slots.extend code effort) w = .ok () ⟨shared, w.focus ++ lists.flatten⟩ := by
  induction callbacks generalizing w with
  | nil => exact ⟨[], w.shared, .nil w, by rw [List.flatten_nil, List.append_nil]; rfl⟩
  | cons e rest ih =>
    obtain ⟨added, shared, hinvokes, hfirst⟩ := exists_invokes code effort e w
    obtain ⟨lists, shared', hcalls, hrest⟩ := ih ⟨shared, w.focus ++ added⟩
    refine ⟨added :: lists, shared', .cons hinvokes hcalls, ?_⟩
    change (Slots.extend code effort e >>= fun _ ↦ rest.forM (Slots.extend code effort)) w = _
    rw [bind_ok hfirst, hrest, List.flatten_cons, List.append_assoc]

end Calls

/-! ## Whole pipelines -/

/-- What each callback adds to the pipeline for one module. -/
structure Additions where
  pipelineStart : List ModulePipeline
  earlySimplification : List ModulePipeline
  peephole : List FunctionPipeline
  scalarLate : List FunctionPipeline
  optimizerEarly : List ModulePipeline
  vectorizerStart : List FunctionPipeline
  optimizerLast : List ModulePipeline

namespace Additions

variable (added : Additions)

def beforeOptimizer : ModulePipeline :=
  added.pipelineStart.flatten ++ added.earlySimplification.flatten ++
    Pass.adapted? (added.peephole.flatten ++ added.scalarLate.flatten)

def beforeLast : ModulePipeline :=
  added.beforeOptimizer ++ added.optimizerEarly.flatten ++
    Pass.adapted? added.vectorizerStart.flatten

def passes : ModulePipeline := added.beforeLast ++ added.optimizerLast.flatten

end Additions

section Pipelines

variable (code : Code) (effort : Effort) (slots : Slots)

/-- The calls for the pipeline for one module: `before` is what is shared when the callbacks of a
point are called. -/
structure DefaultCalls (before : ExtensionPoint → Shared) (added : Additions)
    (after : Shared) : Prop where
  pipelineStart : Calls code effort (slots .pipelineStart) ⟨before .pipelineStart, []⟩
    added.pipelineStart (before .earlySimplification)
  earlySimplification : Calls code effort (slots .earlySimplification)
    ⟨before .earlySimplification, added.pipelineStart.flatten⟩ added.earlySimplification
    (before .peephole)
  peephole : Calls code effort (slots .peephole) ⟨before .peephole, []⟩ added.peephole
    (before .scalarLate)
  scalarLate : Calls code effort (slots .scalarLate)
    ⟨before .scalarLate, added.peephole.flatten⟩ added.scalarLate (before .optimizerEarly)
  optimizerEarly : Calls code effort (slots .optimizerEarly)
    ⟨before .optimizerEarly, added.beforeOptimizer⟩ added.optimizerEarly (before .vectorizerStart)
  vectorizerStart : Calls code effort (slots .vectorizerStart) ⟨before .vectorizerStart, []⟩
    added.vectorizerStart (before .optimizerLast)
  optimizerLast : Calls code effort (slots .optimizerLast)
    ⟨before .optimizerLast, added.beforeLast⟩ added.optimizerLast after

theorem building_ok {σ J : Type} {act : Exec (List (Pass J)) Unit} {passes : List (Pass J)}
    {w : World σ} {shared : Shared} (h : act ⟨w.shared, []⟩ = .ok () ⟨shared, passes⟩) :
    (building act : Exec σ (Unit × List (Pass J))) w = .ok ((), passes) ⟨shared, w.focus⟩ := by
  rw [building, zoom, bind_ok h]
  rfl

theorem exists_defaultCalls (shared : Shared) : ∃ before added after,
    before .pipelineStart = shared ∧ DefaultCalls code effort slots before added after ∧
      slots.buildDefault code effort ⟨shared, []⟩ = .ok () ⟨after, added.passes⟩ := by
  obtain ⟨(start : List ModulePipeline), s₁, hstart, hstart'⟩ :=
    exists_calls code effort (slots .pipelineStart) ⟨shared, []⟩
  obtain ⟨(early : List ModulePipeline), s₂, hearly, hearly'⟩ :=
    exists_calls code effort (slots .earlySimplification) ⟨s₁, start.flatten⟩
  obtain ⟨(peephole : List FunctionPipeline), s₃, hpeephole, hpeephole'⟩ :=
    exists_calls code effort (slots .peephole) ⟨s₂, []⟩
  obtain ⟨(scalar : List FunctionPipeline), s₄, hscalar, hscalar'⟩ :=
    exists_calls code effort (slots .scalarLate) ⟨s₃, peephole.flatten⟩
  let front : ModulePipeline :=
    start.flatten ++ early.flatten ++ Pass.adapted? (peephole.flatten ++ scalar.flatten)
  obtain ⟨(optimizer : List ModulePipeline), s₅, hoptimizer, hoptimizer'⟩ :=
    exists_calls code effort (slots .optimizerEarly) ⟨s₄, front⟩
  obtain ⟨(vectorizer : List FunctionPipeline), s₆, hvectorizer, hvectorizer'⟩ :=
    exists_calls code effort (slots .vectorizerStart) ⟨s₅, []⟩
  obtain ⟨(last : List ModulePipeline), s₇, hlast, hlast'⟩ :=
    exists_calls code effort (slots .optimizerLast)
      ⟨s₆, front ++ optimizer.flatten ++ Pass.adapted? vectorizer.flatten⟩
  let before : ExtensionPoint → Shared
    | .earlySimplification => s₁
    | .peephole => s₂
    | .scalarLate => s₃
    | .optimizerEarly => s₄
    | .vectorizerStart => s₅
    | .optimizerLast => s₆
    | _ => shared
  refine ⟨before, ⟨start, early, peephole, scalar, optimizer, vectorizer, last⟩, s₇, rfl,
    ⟨hstart, hearly, hpeephole, hscalar, hoptimizer, hvectorizer, hlast⟩, ?_⟩
  refine (bind_ok hstart').trans ?_
  refine (bind_ok hearly').trans ?_
  refine (bind_ok (building_ok ((bind_ok hpeephole').trans hscalar'))).trans ?_
  refine (bind_ok rfl).trans ?_
  refine (bind_ok hoptimizer').trans ?_
  refine (bind_ok (building_ok hvectorizer')).trans ?_
  exact (bind_ok rfl).trans hlast'

theorem exists_linkCalls (shared : Shared) :
    ∃ (early late : List ModulePipeline) (between after : Shared),
      Calls code effort (slots .linkEarly) ⟨shared, []⟩ early between ∧
      Calls code effort (slots .linkLast) ⟨between, early.flatten⟩ late after ∧
      slots.buildLink code effort ⟨shared, []⟩ = .ok () ⟨after, early.flatten ++ late.flatten⟩ := by
  obtain ⟨(early : List ModulePipeline), s₁, hearly, hearly'⟩ :=
    exists_calls code effort (slots .linkEarly) ⟨shared, []⟩
  obtain ⟨(late : List ModulePipeline), s₂, hlate, hlate'⟩ :=
    exists_calls code effort (slots .linkLast) ⟨s₁, early.flatten⟩
  exact ⟨early, late, s₁, s₂, hearly, hlate, (bind_ok hearly').trans hlate'⟩

end Pipelines

/-! ## Builders -/

namespace Builder

variable (b : Builder) (code : Code) (effort : Effort)

theorem extendAt_slots (point : ExtensionPoint) :
    b.slots.extendAt code effort point = b.extendAt code effort point := by
  rw [Slots.extendAt, extendAt, slots_eq]
  induction b.extensionsAt point with
  | nil => rfl
  | cons s rest ih => exact congrArg (s.extend code point.kind effort >>= fun _ ↦ ·) ih

theorem buildDefault_slots : b.slots.buildDefault code effort = b.buildDefault code effort :=
  congrArg assembleDefault (funext (b.extendAt_slots code effort))

theorem buildLink_slots : b.slots.buildLink code effort = b.buildLink code effort :=
  congrArg assembleLink (funext (b.extendAt_slots code effort))

end Builder

/-- A build leaves every builder as it is. -/
theorem Session.ensures_build (code : Code) (builder pipeline : String) (effort : Effort)
    (link : Bool) (w : World Objects) :
    Session.Ensures (Session.step code (.build builder pipeline effort link)) w
      (fun _ w' ↦ w'.focus.builders = w.focus.builders)
      fun _ w' ↦ w'.focus.builders = w.focus.builders := by
  simp only [Session.step, Session.store, Session.discardAll, Session.ensures_bind,
    Session.ensures_require, Session.ensures_lift, Session.ensures_objects,
    Session.ensures_modifyObjects, Session.ensures_pure, building, ensures_zoom, ensures_release]
  cases w.focus.builders.find? builder with
  | none => trivial
  | some b => exact (Ensures.trivial _ _).mono (fun _ _ _ ↦ rfl) fun _ _ _ ↦ trivial

theorem Effort.level_of_unnamed {effort : Effort} (h : ∀ level : Level, level.effort ≠ effort) :
    effort.level = .Oz := by
  have hnone : effort.named? = none := List.find?_eq_none.2 fun level _ ↦ by simpa using h level
  rw [level, hnone]
  rfl

theorem default_pipelines_are_exact (code : Code) (registrations : List (Sigma Extension))
    (effort : Effort) (shared : Shared) :
    (∀ point, (Slots.empty.registerAll registrations point).map (Sigma.mk point) =
        registrations.filter (·.1 = point)) ∧
      (∃ before added after, before .pipelineStart = shared ∧
        DefaultCalls code effort (Slots.empty.registerAll registrations) before added after ∧
        (Slots.empty.registerAll registrations).buildDefault code effort ⟨shared, []⟩ =
          .ok () ⟨after, added.passes⟩) ∧
      (∃ (early late : List ModulePipeline) (between after : Shared),
        Calls code effort (Slots.empty.registerAll registrations .linkEarly) ⟨shared, []⟩ early
          between ∧
        Calls code effort (Slots.empty.registerAll registrations .linkLast)
          ⟨between, early.flatten⟩ late after ∧
        (Slots.empty.registerAll registrations).buildLink code effort ⟨shared, []⟩ =
          .ok () ⟨after, early.flatten ++ late.flatten⟩) ∧
      (∀ level : Level, level.effort = effort → effort.level = level) ∧
      ((∀ level : Level, level.effort ≠ effort) → effort.level = .Oz) ∧
      (∀ b : Builder, b.buildDefault code effort = b.slots.buildDefault code effort ∧
        b.buildLink code effort = b.slots.buildLink code effort) ∧
      ∀ (builder pipeline : String) (link : Bool) (w : World Objects),
        Session.Ensures (Session.step code (.build builder pipeline effort link)) w
          (fun _ w' ↦ w'.focus.builders = w.focus.builders)
          fun _ w' ↦ w'.focus.builders = w.focus.builders := by
  refine ⟨fun point ↦ Slots.empty.map_registerAll registrations point,
    exists_defaultCalls code effort _ shared, exists_linkCalls code effort _ shared,
    fun level h ↦ ?named, Effort.level_of_unnamed, fun b ↦
      ⟨(b.buildDefault_slots code effort).symm, (b.buildLink_slots code effort).symm⟩,
    fun builder pipeline link w ↦ Session.ensures_build code builder pipeline effort link w⟩
  case named => rw [← h, Level.level_effort]

/-- The callbacks of the tool among others. -/
def Demo.callbacks : List (Sigma Extension) :=
  [⟨.optimizerLast, .native fun _ found shared ↦ ([.group found], shared)⟩,
    ⟨.peephole, .foreign ⟨addStripNops, .null⟩⟩, ⟨.pipelineStart, .foreign ⟨addHello, .null⟩⟩]

theorem Demo.default_pipeline_for_size :
    (∃ before added after, before .pipelineStart = {} ∧
      DefaultCalls code Level.Os.effort (Slots.empty.registerAll callbacks) before added after ∧
      (Slots.empty.registerAll callbacks).buildDefault code Level.Os.effort ⟨{}, []⟩ =
        .ok () ⟨after, added.passes⟩) ∧
      Level.Os.effort.level = .Os := by
  obtain ⟨_, hdefault, _, hnamed, _⟩ :=
    default_pipelines_are_exact code callbacks Level.Os.effort {}
  exact ⟨hdefault, hnamed .Os rfl⟩

end ForeignPasses
