import ForeignPasses.Builder.Analyses
import ForeignPasses.Builder.Default
import ForeignPasses.Builder.Elaborate
import ForeignPasses.Plugin
import ForeignPasses.Proofs.Ownership.Registrations

/-!
# Building pipelines and setting up managers keeps accounts

A pass that a callback adds is held by the pipeline it is added to. Passes that were built apart go
into an adapter or are dropped, and so are functions managers that nobody wants.
-/

namespace ForeignPasses

open Exec

variable {J : Type} [Owner J]

/-! ## What pipelines and builders hold -/

instance : Account (Pass J) := ⟨fun p ↦ contexts (tally (releases p))⟩

instance : Accounted (Pass J) := ⟨fun p ↦ (sum_contexts (tally (releases p))).symm⟩

instance : Account Builder := ⟨fun b ↦ contexts (tally (releases b))⟩

instance : Accounted Builder := ⟨fun b ↦ (sum_contexts (tally (releases b))).symm⟩

theorem holding_pipeline (passes : List (Pass J)) :
    holding passes = contexts (tally (releases passes)) := by
  induction passes with
  | nil => exact contexts_zero.symm
  | cons p rest ih =>
    rw [holding_cons, ih]
    exact (contexts_add _ _).symm.trans (congrArg contexts (tally_append _ _).symm)

theorem Pass.dropAll_eq (passes : List (Pass J)) : dropAll passes = releases passes := by
  induction passes with
  | nil => rfl
  | cons p rest ih => exact congrArg (p.drop ++ ·) ih

theorem holding_group (passes : List (Pass J)) : holding (Pass.group passes) = holding passes := by
  rw [holding_pipeline, ← Pass.dropAll_eq]
  rfl

theorem holding_perFunction (passes : FunctionPipeline) :
    holding (Pass.perFunction passes) = holding passes :=
  (holding_pipeline passes).symm

theorem holding_append_group (passes outer : List (Pass J)) :
    holding (outer ++ [.group passes]) = holding outer + holding passes := by
  rw [holding_append, holding_cons, holding_nil, add_zero, holding_group]

theorem holding_append_perFunction (passes : FunctionPipeline) (outer : ModulePipeline) :
    holding (outer ++ [.perFunction passes]) = holding outer + holding passes := by
  rw [holding_append, holding_cons, holding_nil, add_zero, holding_perFunction]

theorem holding_adapted? (passes : FunctionPipeline) :
    holding (Pass.adapted? passes) = holding passes := by
  unfold Pass.adapted?
  cases passes with
  | nil => rfl
  | cons p rest =>
    simp only [List.isEmpty_cons, Bool.false_eq_true, if_false, holding_cons, holding_nil, add_zero]
    exact holding_perFunction (p :: rest)

theorem Builder.releases_eq (b : Builder) : releases b = releases (b.extensions.map Prod.snd) ++
    releases (b.parsing.map Prod.snd) ++ releases (b.enrolment.map Prod.snd) :=
  rfl

theorem Builder.holding_add (b : Builder) (s : Subscription) (topic : Topic) :
    holding (b.add s topic) = holding b + contexts (tally s.context.drop) := by
  have hsubscription : releases [s] = s.context.drop := List.append_nil _
  have hhook : releases [Hook.foreign s] = s.context.drop := List.append_nil _
  have htally : tally (releases (b.add s topic)) = tally (releases b) + tally s.context.drop := by
    funext x
    cases topic <;>
      simp only [Builder.releases_eq, Builder.add, List.map_append, List.map_cons, List.map_nil,
        releases_append, tally_append, hsubscription, hhook, Pi.add_apply] <;>
      omega
  exact (congrArg contexts htally).trans (contexts_add _ _)

variable {kept : Role → Prop} {panics : Prop} {hand : Tally}

/-! ## Adding passes -/

theorem keeps_append (passes : List (Pass J)) :
    (append passes).Keeps kept panics (held passes + hand) fun _ ↦ hand := by
  intro w
  apply keepsAt_modifyFocus
  · intro x
    simp only [held, holding_append, Holding.sum_add, Pi.add_apply]
    omega
  · intro role _ x
    rw [holding_append]
    exact Nat.le_add_right _ _

theorem keeps_append_foreign (name : String) (entry : Entry) (context : Opaque String) :
    (append [Pass.foreign (J := J) name entry context]).Keeps kept panics
      (tally context.drop + hand) fun _ ↦ hand := by
  have hheld : held [Pass.foreign (J := J) name entry context] = tally context.drop := by
    rw [held, holding_cons, holding_nil, add_zero]
    exact sum_contexts _
  rw [← hheld]
  exact keeps_append _

theorem keeps_answerAssemble (kind : Kind) (q : Assemble) :
    (answerAssemble kind q : Exec (List (Pass J)) q.Answer).Keeps kept False hand
      fun _ ↦ hand := by
  cases q with
  | say text => exact keeps_note text
  | isEmpty => exact keeps_focus.bind fun _ ↦ .pure _ rfl
  | append name entry context =>
    exact (keeps_adopt context).bind fun context ↦ keeps_append_foreign _ entry context

theorem keeps_appendRegistered (kind : Kind) (name : String) :
    (appendRegistered kind name : Exec (List (Pass J)) Bool).Keeps kept panics hand
      fun _ ↦ hand := by
  refine keeps_shared.bind fun s ↦ ?_
  cases (s.registry kind).pass? name with
  | none => exact .pure _ rfl
  | some entry =>
    have happend : (append [Pass.foreign (J := J) name entry .null]).Keeps kept panics hand
        fun _ ↦ hand := by
      have hnull : (append [Pass.foreign (J := J) name entry .null]).Keeps kept panics
          (tally Opaque.null.drop + hand) fun _ ↦ hand := keeps_append_foreign name entry .null
      rwa [Opaque.drop_null, tally_nil, zero_add] at hnull
    exact (keeps_trace _).bind fun _ ↦ happend.bind fun _ ↦ .pure true rfl

/-- What was built apart is in hand. -/
theorem keeps_building {σ α : Type} [Account σ] {act : Exec (List (Pass J)) α}
    (h : act.Keeps kept False 0 fun _ ↦ 0) :
    (building act : Exec σ (α × List (Pass J))).Keeps kept panics hand
      fun r ↦ held r.2 + hand := by
  have hbuild : (do return (← act, ← focus) : Exec (List (Pass J)) (α × List (Pass J))).Keeps kept
      False 0 fun _ ↦ 0 := h.bind fun a ↦ keeps_focus.bind fun _ ↦ .pure _ rfl
  have hapart : (building act : Exec σ (α × List (Pass J))).Keeps kept panics
      (held ([] : List (Pass J)) + hand) fun r ↦ held r.2 + hand := by
    refine hbuild.apart Prod.snd (fun v ↦ ?_) []
    simp only [ensures_bind, ensures_focus, ensures_pure]
    exact (Ensures.trivial act v).mono (fun _ _ _ ↦ trivial) fun _ _ _ ↦ trivial
  have hempty : held ([] : List (Pass J)) = 0 := rfl
  rwa [hempty, zero_add] at hapart

/-! ## Default pipelines -/

section Default

variable (code : Code)

theorem keeps_extend (s : Subscription) (kind : Kind) (effort : Effort) :
    (s.extend code kind effort : Exec (List (Pass J)) Unit).Keeps kept False hand fun _ ↦ hand :=
  Keeps.enclosed (Keeps.run (keeps_answerAssemble kind) _)

theorem keeps_extendAll (kind : Kind) (effort : Effort) (subscriptions : List Subscription) :
    (Builder.extendAll code kind effort subscriptions : Exec (List (Pass J)) Unit).Keeps kept False
      hand fun _ ↦ hand := by
  induction subscriptions with
  | nil => exact .pure () rfl
  | cons s rest ih => exact (keeps_extend code s kind effort).bind fun _ ↦ ih

namespace Builder

variable (b : Builder)

theorem keeps_extendAt (effort : Effort) (point : ExtensionPoint) :
    (b.extendAt code effort point : Exec (List (Pass J)) Unit).Keeps kept False hand
      fun _ ↦ hand :=
  keeps_extendAll code point.kind effort (b.extensionsAt point)

/-- An adapter holds what was built for it. -/
theorem keeps_append_adapted? (passes : FunctionPipeline) :
    (append (Pass.adapted? passes)).Keeps kept panics (held passes + hand) fun _ ↦ hand := by
  have hheld : held (Pass.adapted? passes) = held passes :=
    congrArg Holding.sum (holding_adapted? passes)
  rw [← hheld]
  exact keeps_append _

theorem keeps_buildDefault (effort : Effort) :
    (b.buildDefault code effort).Keeps kept False hand fun _ ↦ hand := by
  have hmodules (point : ExtensionPoint) {hand : Tally} : (b.extendAt code effort point :
      Exec ModulePipeline Unit).Keeps kept False hand fun _ ↦ hand := b.keeps_extendAt code effort _
  have hfunctions (point : ExtensionPoint) : (b.extendAt code effort point :
      Exec FunctionPipeline Unit).Keeps kept False 0 fun _ ↦ 0 := b.keeps_extendAt code effort _
  refine (hmodules .pipelineStart).bind fun _ ↦ ?_
  refine (hmodules .earlySimplification).bind fun _ ↦ ?_
  refine Keeps.bind (keeps_building (J := Empty) ?_) fun simplification ↦ ?_
  · exact (hfunctions .peephole).bind fun _ ↦ hfunctions .scalarLate
  refine (keeps_append_adapted? simplification.2).bind fun _ ↦ ?_
  refine (hmodules .optimizerEarly).bind fun _ ↦ ?_
  refine Keeps.bind (keeps_building (J := Empty) ?_) fun vectorization ↦ ?_
  · exact hfunctions .vectorizerStart
  refine (keeps_append_adapted? vectorization.2).bind fun _ ↦ ?_
  exact hmodules .optimizerLast

theorem keeps_buildLink (effort : Effort) :
    (b.buildLink code effort).Keeps kept False hand fun _ ↦ hand := by
  have hmodules (point : ExtensionPoint) : (b.extendAt code effort point :
      Exec ModulePipeline Unit).Keeps kept False hand fun _ ↦ hand := b.keeps_extendAt code effort _
  exact (hmodules .linkEarly).bind fun _ ↦ hmodules .linkLast

end Builder

end Default

/-! ## Textual pipelines -/

section Textual

variable (code : Code)

theorem keeps_recognize (kind : Kind) (name : String) (hook : Hook) :
    (hook.recognize code kind name : Exec (List (Pass J)) Bool).Keeps kept False hand
      fun _ ↦ hand := by
  cases hook with
  | foreign s => exact Keeps.enclosed (Keeps.run (keeps_answerAssemble kind) _)
  | registry => exact keeps_appendRegistered kind name

namespace Builder

theorem keeps_offer (kind : Kind) (name : String) (hooks : List Hook) :
    (offer code kind name hooks : Exec (List (Pass J)) Bool).Keeps kept False hand
      fun _ ↦ hand := by
  induction hooks with
  | nil => exact .pure false rfl
  | cons hook rest ih =>
    refine (keeps_recognize code kind name hook).bind fun recognized ↦ ?_
    cases recognized with
    | true => exact .pure true rfl
    | false => exact ih

variable (b : Builder)

theorem keeps_elaborateFunction (e : Element) :
    (b.elaborateFunction code e).Keeps kept False hand fun _ ↦ hand := by
  refine (keeps_offer code .function e.name _).bind fun found ↦ ?_
  cases found with
  | true => exact .pure _ rfl
  | false => exact .pure _ rfl

theorem keeps_elaborateFunctions (elements : List Element) :
    (b.elaborateFunctions code elements).Keeps kept False hand fun _ ↦ hand := by
  induction elements with
  | nil => exact .pure _ rfl
  | cons e rest ih =>
    refine (b.keeps_elaborateFunction code e).bind fun outcome ↦ ?_
    cases outcome with
    | ok _ => exact ih
    | error error => exact .pure _ rfl

theorem keeps_adaptOrDrop (passes : FunctionPipeline) (outcome : Except Pipeline.Error Unit) :
    (adaptOrDrop passes outcome).Keeps kept False (held passes + hand) fun _ ↦ hand := by
  cases outcome with
  | ok _ =>
    have hheld : held [Pass.perFunction passes] = held passes := by
      rw [held, holding_cons, holding_nil, add_zero, holding_perFunction]
      rfl
    rw [← hheld]
    exact (keeps_append _).bind fun _ ↦ .pure _ rfl
  | error error => exact (keeps_discard passes).bind fun _ ↦ .pure _ rfl

mutual

theorem keeps_elaborate (e : Element) :
    (b.elaborate code e).Keeps kept False hand fun _ ↦ hand := by
  obtain ⟨name, children⟩ := e
  rw [elaborate]
  split
  · exact keeps_elaborateAll children
  split
  · exact (keeps_building (b.keeps_elaborateFunctions code children)).bind
      fun r ↦ keeps_adaptOrDrop r.2 r.1
  · refine (keeps_offer code .module name _).bind fun found ↦ ?_
    cases found with
    | true => exact .pure _ rfl
    | false =>
      exact (keeps_building (keeps_offer code .function name _)).bind
        fun r ↦ keeps_adaptOrDrop r.2 _

theorem keeps_elaborateAll (elements : List Element) :
    (b.elaborateAll code elements).Keeps kept False hand fun _ ↦ hand := by
  cases elements with
  | nil =>
    rw [elaborateAll]
    exact .pure _ rfl
  | cons e rest =>
    rw [elaborateAll]
    refine (keeps_elaborate e).bind fun outcome ↦ ?_
    cases outcome with
    | ok _ => exact keeps_elaborateAll rest
    | error error => exact .pure _ rfl

end

theorem keeps_elaborateText (text : String) :
    (b.elaborateText code text).Keeps kept False hand fun _ ↦ hand := by
  unfold elaborateText
  cases Pipeline.parse text with
  | ok elements => exact b.keeps_elaborateAll code elements
  | error error => exact .pure _ rfl

end Builder

end Textual

/-! ## Subscriptions and plugins -/

namespace Builder

theorem keeps_subscribe (topic : Topic) (callback : Entry) (context : Handed String) :
    (subscribe topic callback context).Keeps kept panics hand fun _ ↦ hand := by
  refine (keeps_adopt context).bind fun context ↦ (keeps_debug _).bind fun _ w ↦ ?_
  apply keepsAt_modifyFocus
  · intro x
    rw [held, Builder.holding_add, Holding.sum_add, sum_contexts]
    exact (add_assoc _ _ _)
  · intro role _ x
    rw [Builder.holding_add]
    exact Nat.le_add_right _ _

theorem keeps_install (kind : Kind) : (install kind).Keeps kept panics hand fun _ ↦ hand := by
  refine keeps_shared.bind fun s ↦ (keeps_debug _).bind fun _ w ↦ ?_
  have hnone : releases [Hook.registry] = [] := rfl
  have hsame : holding ({ w.focus with
      parsing := w.focus.parsing ++ [(kind, .registry)]
      enrolment := w.focus.enrolment ++ [(kind, .registry)] } : Builder) = holding w.focus := by
    have hreleases : releases ({ w.focus with
        parsing := w.focus.parsing ++ [(kind, .registry)]
        enrolment := w.focus.enrolment ++ [(kind, .registry)] } : Builder) = releases w.focus := by
      simp only [Builder.releases_eq, List.map_append, List.map_cons, List.map_nil,
        releases_append, hnone, List.append_nil]
    exact congrArg (contexts ∘ tally) hreleases
  exact Settles.of_eq hsame rfl

theorem keeps_load (info : PluginInfo) : (load info).Keeps kept panics hand fun _ ↦ hand := by
  rw [load]
  split
  · exact .pure _ rfl
  · exact (keeps_debug _).bind fun _ ↦ (keeps_install .module).bind fun _ ↦
      (keeps_install .function).bind fun _ ↦ .pure _ rfl

end Builder

/-! ## Setting up managers -/

section SettingUp

variable {β I S : Type} [Owner S] [Account S] [Accounted S] (code : Code) (tier : Tier β I S)

theorem keeps_enrol (hook : Hook) : (hook.enrol code tier).Keeps kept False hand fun _ ↦ hand := by
  cases hook with
  | foreign s => exact Keeps.enclosed (Keeps.run Tier.keeps_answerEnrol _)
  | registry =>
    exact Keeps.framed Tier.keeps_enrolRegistry

theorem keeps_enrolAll (hooks : List Hook) :
    (Builder.enrolAll code tier hooks).Keeps kept False hand fun _ ↦ hand := by
  induction hooks with
  | nil => exact .pure () rfl
  | cons hook rest ih => exact (keeps_enrol code tier hook).bind fun _ ↦ ih

/-- A manager of functions is attached or dropped. -/
theorem keeps_setUp (b : Builder) (functions : FunctionManager) :
    (b.setUp code functions).Keeps kept False (held functions) fun _ ↦ 0 := by
  have henrol : (do
      Builder.enrolAll code code.functionTier (b.enrolmentOf .function)
      focus : Exec FunctionManager FunctionManager).Keeps Role.Any False 0 fun _ ↦ 0 :=
    (keeps_enrolAll code code.functionTier _).bind fun _ ↦ keeps_focus
  have hfunctions : (zoom (fun _ ↦ functions) (fun m _ ↦ m) (do
      Builder.enrolAll code code.functionTier (b.enrolmentOf .function)
      focus) : Exec ModuleManager FunctionManager).Keeps kept False (held functions + 0)
        fun m ↦ held m + 0 := by
    refine henrol.apart id (fun v ↦ ?_) functions
    simp only [ensures_bind, ensures_focus, id]
    exact (Ensures.trivial _ v).mono (fun _ _ _ ↦ trivial) fun _ _ _ ↦ trivial
  simp only [add_zero] at hfunctions
  refine hfunctions.bind fun functions' ↦ ?_
  refine (keeps_enrolAll code code.moduleTier _).bind fun _ ↦ ?_
  exact (Tier.keeps_attach functions').bind fun _ ↦ .pure () rfl

/-- A manager of functions is held by the manager of modules in the end, unless it was refused and
its contexts were released. -/
theorem setUp_attaches (b : Builder) (functions : FunctionManager) {w : World ModuleManager} :
    (b.setUp code functions).Ensures w
      (fun _ w' ↦
        (∀ role, losses w'.shared.events role = losses w.shared.events role →
          ∀ x, holding functions role x ≤ holding w'.focus role x) ∨
        ∀ x, deletions w.shared.events x + holding functions .context x ≤
          deletions w'.shared.events x) (fun _ _ ↦ True) := by
  simp only [Builder.setUp, ensures_bind, ensures_zoom, ensures_focus, ensures_pure]
  have henrol : (Builder.enrolAll code code.functionTier (b.enrolmentOf .function)).KeepsAt
      Role.Any False ⟨w.shared, functions⟩ 0 fun _ ↦ 0 :=
    keeps_enrolAll code code.functionTier _ _
  refine Ensures.mono henrol ?_ fun _ _ _ ↦ trivial
  intro _ w₁ hfunctions
  have hmodules : (Builder.enrolAll code code.moduleTier (b.enrolmentOf .module)).KeepsAt
      Role.Any False ⟨w₁.shared, w.focus⟩ 0 fun _ ↦ 0 :=
    keeps_enrolAll code code.moduleTier _ _
  refine Ensures.mono hmodules ?_ fun _ _ _ ↦ trivial
  intro _ w₂ hsettles
  have hattach : (code.moduleTier.attach w₁.focus).KeepsAt Role.Any False w₂ (held w₁.focus)
      fun _ ↦ 0 := Tier.keeps_attach w₁.focus w₂
  refine ((Tier.attach_registers w₁.focus).and hattach).mono ?_ fun _ _ _ ↦ trivial
  rintro registered w' ⟨hregisters, hattached⟩
  cases registered with
  | true =>
    left
    intro role hlost x
    have hlost₁ := hfunctions.lost_le role
    have hlost₂ := hsettles.lost_le role
    have hlost₃ := hattached.lost_le role
    have hlosses : losses w₁.shared.events role = losses w.shared.events role := by
      simp only [Shared.books] at hlost₁ hlost₂ hlost₃
      omega
    have hkept := hfunctions.kept role trivial hlosses x
    rw [(hregisters.accepted rfl).1]
    exact Nat.le_trans hkept (Nat.le_add_left _ _)
  | false =>
    right
    intro x
    have hlosses := (losses_context w₁.shared.events).trans (losses_context w.shared.events).symm
    have hkept := hfunctions.kept .context trivial hlosses x
    have hreleased₁ := hfunctions.released_le x
    have hreleased₂ := hsettles.released_le x
    rw [(hregisters.refused rfl).2]
    simp only [Shared.books, Holding.sum, Pi.add_apply] at hkept hreleased₁ hreleased₂ ⊢
    omega

end SettingUp

end ForeignPasses
