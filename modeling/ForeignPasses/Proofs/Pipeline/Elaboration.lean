import ForeignPasses.Demo
import ForeignPasses.Proofs.Exec.Ensures

/-!
# What elaborating adds

Hooks add passes behind those that are there, and nothing that is asked of them can halt. A
`module(...)` group is no more than its contents, so at module level a pipeline is a list of
stations: each of them adds passes, or it is not known, and then elaborating ends.
-/

namespace ForeignPasses

open Exec

/-! ## Stations -/

namespace Element

/-- Passes over modules between parentheses. -/
def IsGroup : Element → Prop
  | .mk name children => name = "module" ∧ children.isEmpty = false

/-- Passes over functions between parentheses, which run inside of an adapter. -/
def IsAdapter : Element → Prop
  | .mk name children => name = "function" ∧ children.isEmpty = false

instance : (e : Element) → Decidable e.IsGroup
  | .mk name children => inferInstanceAs (Decidable (name = "module" ∧ children.isEmpty = false))

instance : (e : Element) → Decidable e.IsAdapter
  | .mk name children => inferInstanceAs (Decidable (name = "function" ∧ children.isEmpty = false))

mutual

/-- The elements that add passes at module level, in place of the groups they are in. -/
def stations : Element → List Element
  | .mk name children =>
    if IsGroup (.mk name children) then stationsOf children else [.mk name children]

def stationsOf : List Element → List Element
  | [] => []
  | e :: rest => e.stations ++ stationsOf rest

end

theorem stationsOf_singleton (e : Element) : stationsOf [e] = e.stations := by
  rw [stationsOf, stationsOf, List.append_nil]

mutual

theorem not_isGroup_of_mem_stations (e : Element) : ∀ s ∈ e.stations, ¬s.IsGroup := by
  cases e with
  | mk name children =>
    rw [stations]
    split
    · exact not_isGroup_of_mem_stationsOf children
    · rename_i hgroup
      intro s hs
      rw [List.mem_singleton.1 hs]
      exact hgroup

theorem not_isGroup_of_mem_stationsOf (elements : List Element) :
    ∀ s ∈ stationsOf elements, ¬s.IsGroup := by
  cases elements with
  | nil => simp [stationsOf]
  | cons e rest =>
    intro s hs
    rcases List.mem_append.1 hs with hs | hs
    · exact not_isGroup_of_mem_stations e s hs
    · exact not_isGroup_of_mem_stationsOf rest s hs

end

/-- The elements of a station whose names hooks are asked for, each with the level it is at. -/
def offered (e : Element) : List (Kind × Element) :=
  if e.IsAdapter then e.children.map (Kind.function, ·) else [(.module, e)]

end Element

/-! ## Growing -/

/-- Passes come behind those that are there, and the registries stay. -/
structure Grows {J : Type} (w w' : World (List (Pass J))) : Prop where
  passes : ∃ added, w'.focus = w.focus ++ added
  registry : ∀ kind, w'.shared.registry kind = w.shared.registry kind

namespace Grows

variable {J : Type} {w w' w'' : World (List (Pass J))}

theorem refl (w : World (List (Pass J))) : Grows w w := ⟨⟨[], by simp⟩, fun _ ↦ rfl⟩

theorem trans (h : Grows w w') (h' : Grows w' w'') : Grows w w'' where
  passes := by
    obtain ⟨added, hadded⟩ := h.passes
    obtain ⟨more, hmore⟩ := h'.passes
    exact ⟨added ++ more, by rw [hmore, hadded, List.append_assoc]⟩
  registry kind := (h'.registry kind).trans (h.registry kind)

end Grows

section Hooks

variable {J : Type} {code : Code} {kind : Kind}

theorem ensures_answerAssemble (kind : Kind) (q : Assemble) (w : World (List (Pass J))) :
    (answerAssemble kind q).Ensures w (fun _ w' ↦ Grows w w') fun _ _ ↦ False := by
  cases q with
  | say text => exact ⟨⟨[], by simp⟩, fun kind ↦ by cases kind <;> rfl⟩
  | isEmpty => exact .refl w
  | append name entry context => exact ⟨⟨_, rfl⟩, fun kind ↦ by cases kind <;> rfl⟩

theorem ensures_run_assembly {α : Type} (kind : Kind) (p : Assembly α)
    (w : World (List (Pass J))) :
    Ensures (p.run (answerAssemble kind)) w (fun _ w' ↦ Grows w w') fun _ _ ↦ False := by
  induction p generalizing w with
  | done a => exact .refl w
  | ask q next ih =>
    change Ensures (answerAssemble kind q >>= fun a ↦ (next a).run (answerAssemble kind)) w _ _
    rw [ensures_bind]
    refine (ensures_answerAssemble kind q w).mono ?_ fun _ _ h ↦ h
    intro a w' hgrows
    exact (ih a w').mono (fun _ _ h ↦ hgrows.trans h) fun _ _ h ↦ h

theorem ensures_appendRegistered (kind : Kind) (name : String) (w : World (List (Pass J))) :
    (appendRegistered kind name).Ensures w
      (fun found w' ↦ Grows w w' ∧
        found = ((w.shared.registry kind).pass? name).isSome ∧
        w'.focus = w.focus ++
          ((w.shared.registry kind).pass? name).toList.map (.foreign name · .null))
      fun _ _ ↦ False := by
  simp only [appendRegistered, ensures_bind, ensures_shared]
  cases (w.shared.registry kind).pass? name with
  | none => exact ⟨.refl w, rfl, by simp⟩
  | some entry =>
    simp only [append, ensures_bind, ensures_trace, ensures_modifyFocus, ensures_pure]
    exact ⟨⟨⟨_, rfl⟩, fun kind ↦ by cases kind <;> rfl⟩, rfl, rfl⟩

theorem ensures_recognize (hook : Hook) (name : String) (w : World (List (Pass J))) :
    (hook.recognize code kind name).Ensures w (fun _ w' ↦ Grows w w') fun _ _ ↦ False := by
  cases hook with
  | foreign s =>
    simp only [Hook.recognize, ensures_boundary]
    exact ensures_run_assembly kind _ w
  | registry => exact (ensures_appendRegistered kind name w).mono (fun _ _ h ↦ h.1) fun _ _ h ↦ h

/-- A hook that adds passes exactly when it says that it knows the name. -/
def Hook.Faithful (code : Code) (kind : Kind) (hook : Hook) : Prop :=
  ∀ (J : Type) (name : String) (w : World (List (Pass J))),
    (hook.recognize code kind name).Ensures w
      (fun found w' ↦ found = true ↔ w'.focus ≠ w.focus) fun _ _ ↦ True

theorem Hook.faithful_registry (code : Code) (kind : Kind) : Hook.registry.Faithful code kind := by
  intro J name w
  refine (ensures_appendRegistered kind name w).mono ?_ fun _ _ _ ↦ trivial
  rintro found w' ⟨-, rfl, hfocus⟩
  rw [hfocus]
  cases (w.shared.registry kind).pass? name <;> simp

end Hooks

namespace Builder

variable {J : Type} {code : Code} {kind : Kind} {name : String}

/-- All hooks of a builder for names are faithful. -/
def Faithful (code : Code) (b : Builder) : Prop :=
  ∀ kind, ∀ hook ∈ b.parsingOf kind, hook.Faithful code kind

theorem ensures_offer (hooks : List Hook) (w : World (List (Pass J))) :
    (offer code kind name hooks).Ensures w (fun _ w' ↦ Grows w w') fun _ _ ↦ False := by
  induction hooks generalizing w with
  | nil => exact .refl w
  | cons hook rest ih =>
    rw [offer, ensures_bind]
    refine (ensures_recognize hook name w).mono ?_ fun _ _ h ↦ h
    intro found w' hgrows
    cases found with
    | true => exact hgrows
    | false => exact (ih w').mono (fun _ _ h ↦ hgrows.trans h) fun _ _ h ↦ h

theorem ensures_offer_faithful {hooks : List Hook}
    (hfaithful : ∀ hook ∈ hooks, hook.Faithful code kind) (w : World (List (Pass J))) :
    (offer code kind name hooks).Ensures w (fun found w' ↦ found = true ↔ w'.focus ≠ w.focus)
      fun _ _ ↦ True := by
  induction hooks generalizing w with
  | nil => simp [offer]
  | cons hook rest ih =>
    -- A hook that does not know the name has added nothing, so the next one starts as it did.
    obtain ⟨hfirst, hrest⟩ := List.forall_mem_cons.1 hfaithful
    rw [offer, ensures_bind]
    refine (hfirst J name w).mono ?_ fun _ _ h ↦ h
    intro found w' hfound
    cases found with
    | true => exact hfound
    | false =>
      have hsame : w'.focus = w.focus := by simpa using hfound
      rw [← hsame]
      exact ih hrest w'

/-! ## Elements in turn -/

variable {b : Builder}

/-- Elements one after the other, up to the first that ends in an error. What becomes of each is
said by `step`. -/
inductive InTurn (step : Element → Except Pipeline.Error Unit → World (List (Pass J)) →
    World (List (Pass J)) → Prop) : List Element → Except Pipeline.Error Unit →
      World (List (Pass J)) → World (List (Pass J)) → Prop
  | nil (w : World (List (Pass J))) : InTurn step [] (.ok ()) w w
  | stop {e : Element} {rest : List Element} {error : Pipeline.Error}
      {w w' : World (List (Pass J))} (h : step e (.error error) w w') :
      InTurn step (e :: rest) (.error error) w w'
  | next {e : Element} {rest : List Element} {outcome : Except Pipeline.Error Unit}
      {w w₁ w' : World (List (Pass J))} (h : step e (.ok ()) w w₁)
      (hrest : InTurn step rest outcome w₁ w') : InTurn step (e :: rest) outcome w w'

theorem ensures_elaborateFunctions_inTurn {step : Element → Except Pipeline.Error Unit →
    World FunctionPipeline → World FunctionPipeline → Prop}
    (hstep : ∀ e w, (b.elaborateFunction code e).Ensures w
      (fun outcome w' ↦ step e outcome w w') fun _ _ ↦ False)
    (elements : List Element) (w : World FunctionPipeline) :
    (b.elaborateFunctions code elements).Ensures w
      (fun outcome w' ↦ InTurn step elements outcome w w') fun _ _ ↦ False := by
  induction elements generalizing w with
  | nil => exact .nil w
  | cons e rest ih =>
    rw [elaborateFunctions, ensures_bind]
    refine (hstep e w).mono ?_ fun _ _ h ↦ h
    intro outcome w₁ h
    cases outcome with
    | error error => exact .stop h
    | ok _ => exact (ih w₁).mono (fun _ _ hrest ↦ .next h hrest) fun _ _ h ↦ h

theorem ensures_elaborateAll_inTurn {step : Element → Except Pipeline.Error Unit →
    World ModulePipeline → World ModulePipeline → Prop} {elements : List Element}
    (hstep : ∀ e ∈ elements, ∀ w, (b.elaborate code e).Ensures w
      (fun outcome w' ↦ step e outcome w w') fun _ _ ↦ False)
    (w : World ModulePipeline) :
    (b.elaborateAll code elements).Ensures w
      (fun outcome w' ↦ InTurn step elements outcome w w') fun _ _ ↦ False := by
  induction elements generalizing w with
  | nil =>
    rw [elaborateAll]
    exact .nil w
  | cons e rest ih =>
    obtain ⟨hfirst, hrest⟩ := List.forall_mem_cons.1 hstep
    rw [elaborateAll, ensures_bind]
    refine (hfirst w).mono ?_ fun _ _ h ↦ h
    intro outcome w₁ h
    cases outcome with
    | error error => exact .stop h
    | ok _ => exact (ih hrest w₁).mono (fun _ _ h' ↦ .next h h') fun _ _ h ↦ h

/-! ## Groups of module passes -/

theorem elaborateAll_append (elements others : List Element) :
    b.elaborateAll code (elements ++ others) = (do
      match ← b.elaborateAll code elements with
      | .ok () => b.elaborateAll code others
      | .error error => return .error error) := by
  induction elements with
  | nil => rfl
  | cons e rest ih =>
    rw [List.cons_append, elaborateAll, elaborateAll, bind_assoc]
    refine bind_congr fun outcome ↦ ?_
    cases outcome with
    | ok _ => exact ih
    | error error => rfl

theorem elaborateAll_singleton (e : Element) : b.elaborateAll code [e] = b.elaborate code e := by
  rw [elaborateAll]
  refine (bind_congr fun outcome ↦ ?_).trans (bind_pure (b.elaborate code e))
  cases outcome with
  | ok _ => rw [elaborateAll]
  | error error => rfl

mutual

theorem elaborateAll_stations (e : Element) :
    b.elaborateAll code e.stations = b.elaborate code e := by
  cases e with
  | mk name children =>
    rw [Element.stations]
    split
    · rename_i hgroup
      rw [elaborateAll_stationsOf children, elaborate]
      exact (if_pos hgroup).symm
    · rw [elaborateAll_singleton]

/-- Elaborating is elaborating the stations one after the other. -/
theorem elaborateAll_stationsOf (elements : List Element) :
    b.elaborateAll code (Element.stationsOf elements) = b.elaborateAll code elements := by
  cases elements with
  | nil => rfl
  | cons e rest =>
    rw [Element.stationsOf, elaborateAll_append, elaborateAll_stations e,
      elaborateAll_stationsOf rest]
    rfl

end

/-! ## Single stations -/

theorem elaborate_adapter {e : Element} (hadapter : e.IsAdapter) :
    b.elaborate code e = (do
      let (outcome, passes) ← building (b.elaborateFunctions code e.children)
      adaptOrDrop passes outcome) := by
  cases e with
  | mk name children =>
    have hgroup : ¬(name = "module" ∧ children.isEmpty = false) := by
      rintro ⟨hname, -⟩
      exact absurd (hname.symm.trans hadapter.1) (by decide)
    rw [elaborate, if_neg hgroup]
    exact if_pos hadapter

/-- A name at module level is offered to the hooks for modules, then to those for functions. -/
theorem elaborate_name {e : Element} (hgroup : ¬e.IsGroup) (hadapter : ¬e.IsAdapter) :
    b.elaborate code e = (do
      if ← offer code .module e.name (b.parsingOf .module) then return .ok ()
      let (found, passes) ← building (offer code .function e.name (b.parsingOf .function))
      adaptOrDrop passes (if found then .ok () else .error (.unknownPass e.name))) := by
  cases e with
  | mk name children =>
    rw [elaborate]
    refine (if_neg hgroup).trans ((if_neg hadapter).trans ?_)
    refine bind_congr fun found ↦ ?_
    cases found <;> rfl

end Builder

/-- Passes for functions are built apart, and what was there before is not touched. -/
theorem Exec.ensures_building {J σ α : Type} {w : World σ}
    {post : α × List (Pass J) → World σ → Prop} {halted : Halt → World σ → Prop}
    (act : Exec (List (Pass J)) α) :
    (building act : Exec σ (α × List (Pass J))).Ensures w post halted ↔
      act.Ensures ⟨w.shared, []⟩ (fun a w' ↦ post (a, w'.focus) ⟨w'.shared, w.focus⟩)
        (fun e w' ↦ halted e ⟨w'.shared, w.focus⟩) := by
  simp only [building, ensures_zoom, ensures_bind, ensures_focus, ensures_pure]

/-- An adapter joins the pipeline if everything in it is known; else nothing does. -/
theorem Builder.ensures_adaptOrDrop (passes : FunctionPipeline)
    (outcome : Except Pipeline.Error Unit) (w : World ModulePipeline) :
    (adaptOrDrop passes outcome).Ensures w
      (fun outcome' w' ↦ outcome' = outcome ∧ Grows w w' ∧
        w'.focus = w.focus ++ if outcome.isOk then [.perFunction passes] else [])
      fun _ _ ↦ False := by
  cases outcome with
  | ok _ =>
    simp only [adaptOrDrop, append, ensures_bind, ensures_modifyFocus, ensures_pure]
    exact ⟨trivial, ⟨⟨_, rfl⟩, fun _ ↦ rfl⟩, rfl⟩
  | error error =>
    simp only [adaptOrDrop, ensures_bind, ensures_discard, ensures_pure]
    exact ⟨trivial, ⟨⟨[], by simp⟩, fun kind ↦ by cases kind <;> rfl⟩, (List.append_nil _).symm⟩

/-! ## The registries of the demonstration -/

namespace Demo

/-- What is shared when the passes have been registered. -/
def registered : Shared where
  moduleRegistry := { unit := "module", passes := Table.insert ∅ "print-stats" printStats }
  functionRegistry := { unit := "function", passes := Table.insert ∅ "strip-nops" stripNops }

/-- A builder with the plugin and without other callbacks. -/
def loaded : Builder where
  parsing := [(.module, .registry), (.function, .registry)]
  enrolment := [(.module, .registry), (.function, .registry)]

end Demo

end ForeignPasses
