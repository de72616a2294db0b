import ForeignPasses.Proofs.Pipeline.Elaboration
import Mathlib.Data.List.Forall2

/-!
# The names that a pipeline may use

If the registries are all that knows names, a pipeline is accepted exactly if every name that is
offered is registered, and then its passes are those that its elements stand for. Only children of
elements that are neither `module(...)` nor `function(...)` are never offered: where there are
none, every name at every depth counts.
-/

namespace ForeignPasses

open Exec

/-! ## What elements stand for -/

/-- A pass for units of a kind is registered under a name. -/
def Registry.Knows (known : Kind → Registry) (kind : Kind) (name : String) : Prop :=
  ((known kind).pass? name).isSome = true

namespace Element

variable {known : Kind → Registry}

/-- The element has a name that is registered for its level. At module level passes over functions
will do. -/
def Usable (known : Kind → Registry) : Kind × Element → Prop
  | (.module, e) => Registry.Knows known .module e.name ∨ Registry.Knows known .function e.name
  | (.function, e) => Registry.Knows known .function e.name

/-- What an element stands for inside of `function(...)`. -/
inductive StandsInside (known : Kind → Registry) : Element → FunctionPass → Prop where
  | registered {e : Element} {entry : Entry} (h : (known .function).pass? e.name = some entry) :
      StandsInside known e (.foreign e.name entry .null)

/-- What a station stands for. -/
inductive Stands (known : Kind → Registry) : Element → ModulePass → Prop where
  | adapter {e : Element} {passes : FunctionPipeline} (he : e.IsAdapter)
      (hpasses : List.Forall₂ (StandsInside known) e.children passes) :
      Stands known e (.perFunction passes)
  | overModules {e : Element} {entry : Entry} (he : ¬e.IsAdapter)
      (hentry : (known .module).pass? e.name = some entry) :
      Stands known e (.foreign e.name entry .null)
  | overFunctions {e : Element} {entry : Entry} (he : ¬e.IsAdapter)
      (hmodule : (known .module).pass? e.name = none)
      (hentry : (known .function).pass? e.name = some entry) :
      Stands known e (.perFunction [.foreign e.name entry .null])

/-- The elements whose names are offered to hooks. -/
def offeredOf (elements : List Element) : List (Kind × Element) :=
  (stationsOf elements).flatMap offered

theorem offered_of_isAdapter {e : Element} (he : e.IsAdapter) :
    e.offered = e.children.map (Kind.function, ·) :=
  if_pos he

theorem offered_of_not_isAdapter {e : Element} (he : ¬e.IsAdapter) : e.offered = [(.module, e)] :=
  if_neg he

theorem StandsInside.usable {elements : List Element} {passes : FunctionPipeline}
    (h : List.Forall₂ (StandsInside known) elements passes) :
    ∀ e ∈ elements, Usable known (.function, e) := by
  induction h with
  | nil => simp
  | cons hfirst _ ih =>
    obtain ⟨hentry⟩ := hfirst
    exact List.forall_mem_cons.2 ⟨Option.isSome_iff_exists.2 ⟨_, hentry⟩, ih⟩

theorem Stands.usable {e : Element} {pass : ModulePass} (h : Stands known e pass) :
    ∀ place ∈ e.offered, Usable known place := by
  cases h with
  | adapter he hpasses =>
    rw [offered_of_isAdapter he, List.forall_mem_map]
    exact StandsInside.usable hpasses
  | overModules he hentry =>
    rw [offered_of_not_isAdapter he, List.forall_mem_singleton]
    exact .inl (Option.isSome_iff_exists.2 ⟨_, hentry⟩)
  | overFunctions he _ hentry =>
    rw [offered_of_not_isAdapter he, List.forall_mem_singleton]
    exact .inr (Option.isSome_iff_exists.2 ⟨_, hentry⟩)

theorem Stands.usable_of_forall₂ {stations : List Element} {passes : ModulePipeline}
    (h : List.Forall₂ (Stands known) stations passes) :
    ∀ place ∈ stations.flatMap offered, Usable known place := by
  induction h with
  | nil => simp
  | cons hfirst _ ih => exact List.forall_mem_append.2 ⟨hfirst.usable, ih⟩

/-! ## Names at every depth -/

mutual

/-- The elements at any depth that are not groups, each with the level it is at. -/
def namings (kind : Kind) : Element → List (Kind × Element)
  | .mk name children =>
    if IsGroup (.mk name children) then namingsOf kind children
    else if IsAdapter (.mk name children) then namingsOf .function children
    else (kind, .mk name children) :: namingsOf kind children

def namingsOf (kind : Kind) : List Element → List (Kind × Element)
  | [] => []
  | e :: rest => e.namings kind ++ namingsOf kind rest

end

/-- Only `module(...)` and `function(...)` have children. -/
def Flat (elements : List Element) : Prop := ∀ place ∈ offeredOf elements, place.2.children = []

theorem namings_leaf (kind : Kind) {e : Element} (hleaf : e.children = []) :
    e.namings kind = [(kind, e)] := by
  obtain ⟨name, children⟩ := e
  obtain rfl : children = [] := hleaf
  rw [namings, if_neg (by simp [IsGroup]), if_neg (by simp [IsAdapter]), namingsOf]

theorem namingsOf_leaves (kind : Kind) {elements : List Element}
    (hleaves : ∀ e ∈ elements, e.children = []) :
    namingsOf kind elements = elements.map (kind, ·) := by
  induction elements with
  | nil => rw [namingsOf, List.map_nil]
  | cons e rest ih =>
    obtain ⟨hfirst, hrest⟩ := List.forall_mem_cons.1 hleaves
    rw [namingsOf, namings_leaf kind hfirst, ih hrest, List.map_cons, List.singleton_append]

mutual

theorem namings_of_flat (e : Element)
    (hflat : ∀ place ∈ e.stations.flatMap offered, place.2.children = []) :
    e.namings .module = e.stations.flatMap offered := by
  obtain ⟨name, children⟩ := e
  -- A group is flat as far as its contents are; elsewhere the children decide at once.
  rw [stations] at hflat ⊢
  rw [namings]
  by_cases hgroup : IsGroup (.mk name children)
  · rw [if_pos hgroup] at hflat
    rw [if_pos hgroup, if_pos hgroup]
    exact namingsOf_of_flat children hflat
  · rw [if_neg hgroup, List.flatMap_singleton] at hflat
    rw [if_neg hgroup, if_neg hgroup, List.flatMap_singleton]
    by_cases hadapter : IsAdapter (.mk name children)
    · rw [offered_of_isAdapter hadapter, List.forall_mem_map] at hflat
      rw [if_pos hadapter, offered_of_isAdapter hadapter]
      exact namingsOf_leaves .function hflat
    · rw [offered_of_not_isAdapter hadapter, List.forall_mem_singleton] at hflat
      rw [if_neg hadapter, offered_of_not_isAdapter hadapter]
      obtain rfl : children = [] := hflat
      rw [namingsOf]

/-- If nothing is hidden, the names that are offered are those that are there. -/
theorem namingsOf_of_flat (elements : List Element) (hflat : Flat elements) :
    namingsOf .module elements = offeredOf elements := by
  cases elements with
  | nil => rw [namingsOf]; rfl
  | cons e rest =>
    rw [Flat, offeredOf, stationsOf, List.flatMap_append, List.forall_mem_append] at hflat
    rw [namingsOf, namings_of_flat e hflat.1, namingsOf_of_flat rest hflat.2, offeredOf, offeredOf,
      stationsOf, List.flatMap_append]

end

end Element

/-! ## Builders that know nothing but the registries -/

namespace Builder

variable {J : Type} {code : Code} {kind : Kind} {name : String}

/-- The hooks for names are those of a loaded plugin. -/
structure Installed (b : Builder) : Prop where
  ne_nil : ∀ kind, b.parsingOf kind ≠ []
  registry : ∀ kind, ∀ hook ∈ b.parsingOf kind, hook = .registry

/-- Loading the plugin is what it takes. -/
theorem ensures_load_installed (info : PluginInfo) (w : World Builder)
    (hregistry : ∀ kind, ∀ hook ∈ w.focus.parsingOf kind, hook = .registry) :
    (load info).Ensures w (fun outcome w' ↦ outcome = .ok () → w'.focus.Installed)
      fun _ _ ↦ False := by
  have hparsing (kind : Kind) : ((w.focus.parsing ++ [(Kind.module, Hook.registry)] ++
      [(Kind.function, Hook.registry)]).filter fun h ↦ h.1 = kind).map Prod.snd =
        w.focus.parsingOf kind ++ [.registry] := by
    cases kind <;> simp [parsingOf]
  unfold load
  split
  · exact fun h ↦ nomatch h
  · intro _
    constructor
    · intro kind hnil
      have h := (hparsing kind).symm.trans hnil
      simp at h
    · intro kind hook hhook
      have h : hook ∈ w.focus.parsingOf kind ++ [.registry] := hparsing kind ▸ hhook
      rcases List.mem_append.1 h with h | h
      · exact hregistry kind hook h
      · exact List.mem_singleton.1 h

theorem ensures_offer_registry {hooks : List Hook} (hne : hooks ≠ [])
    (hregistry : ∀ hook ∈ hooks, hook = .registry) (w : World (List (Pass J))) :
    (offer code kind name hooks).Ensures w
      (fun found w' ↦
        found = ((w.shared.registry kind).pass? name).isSome ∧
        w'.focus = w.focus ++
          ((w.shared.registry kind).pass? name).toList.map (.foreign name · .null))
      fun _ _ ↦ False := by
  induction hooks generalizing w with
  | nil => exact absurd rfl hne
  | cons hook rest ih =>
    obtain ⟨rfl, hrest⟩ := List.forall_mem_cons.1 hregistry
    rw [offer, ensures_bind]
    refine (ensures_appendRegistered kind name w).mono ?_ fun _ _ h ↦ h
    rintro found w' ⟨hgrows, hfound, hfocus⟩
    cases found with
    | true => exact ⟨hfound, hfocus⟩
    | false =>
      by_cases hmore : rest = []
      · subst hmore
        exact ⟨hfound, hfocus⟩
      · have hnone : (w.shared.registry kind).pass? name = none := by simpa using hfound.symm
        have hsame : w'.focus = w.focus := by simpa [hnone] using hfocus
        change Ensures (offer code kind name rest) w' _ _
        rw [← hgrows.registry kind, ← hsame]
        exact ih hmore hrest w'

variable {b : Builder}

/-- What elaborating inside of `function(...)` comes to. -/
def AnswersInside (known : Kind → Registry) (elements : List Element)
    (outcome : Except Pipeline.Error Unit) (w w' : World FunctionPipeline) : Prop :=
  match outcome with
  | .ok () => ∃ passes, List.Forall₂ (Element.StandsInside known) elements passes ∧
      w'.focus = w.focus ++ passes
  | .error error => ∃ e ∈ elements, ¬Element.Usable known (.function, e) ∧
      error = .unknownPass e.name

/-- What elaborating stations comes to. -/
def Answers (known : Kind → Registry) (stations : List Element)
    (outcome : Except Pipeline.Error Unit) (w w' : World ModulePipeline) : Prop :=
  match outcome with
  | .ok () => ∃ passes, List.Forall₂ (Element.Stands known) stations passes ∧
      w'.focus = w.focus ++ passes
  | .error error => ∃ place ∈ stations.flatMap Element.offered, ¬Element.Usable known place ∧
      error = .unknownPass place.2.name

theorem ensures_elaborateFunction_installed (hb : b.Installed) (e : Element)
    (w : World FunctionPipeline) :
    (b.elaborateFunction code e).Ensures w
      (fun outcome w' ↦ w'.shared.registry = w.shared.registry ∧
        AnswersInside w.shared.registry [e] outcome w w')
      fun _ _ ↦ False := by
  rw [elaborateFunction, ensures_bind]
  refine ((ensures_offer _ w).and (ensures_offer_registry (hb.ne_nil .function)
    (hb.registry .function) w)).mono ?_ fun _ _ h ↦ h.1
  rintro found w' ⟨hgrows, hfound, hfocus⟩
  cases hentry : (w.shared.registry .function).pass? e.name with
  | none =>
    rw [hentry] at hfound
    subst hfound
    refine ⟨funext hgrows.registry, e, by simp, ?_, rfl⟩
    intro husable
    rw [Element.Usable, Registry.Knows, hentry] at husable
    exact absurd husable (by decide)
  | some entry =>
    rw [hentry] at hfound hfocus
    subst hfound
    exact ⟨funext hgrows.registry, _, .cons (.registered hentry) .nil, hfocus⟩

theorem ensures_elaborateFunctions_installed (hb : b.Installed) (elements : List Element)
    (w : World FunctionPipeline) :
    (b.elaborateFunctions code elements).Ensures w
      (fun outcome w' ↦ w'.shared.registry = w.shared.registry ∧
        AnswersInside w.shared.registry elements outcome w w')
      fun _ _ ↦ False := by
  refine (ensures_elaborateFunctions_inTurn (ensures_elaborateFunction_installed hb) elements
    w).mono ?_ fun _ _ h ↦ h
  intro outcome w' hturn
  induction hturn with
  | nil => exact ⟨rfl, [], .nil, (List.append_nil _).symm⟩
  | stop h =>
    obtain ⟨hregistry, e', he', hunknown, hname⟩ := h
    obtain rfl := List.mem_singleton.1 he'
    exact ⟨hregistry, e', by simp, hunknown, hname⟩
  | @next e rest outcome w w₁ w' h _ ih =>
    -- No element changes the registries, so the later ones are known to the same.
    obtain ⟨hregistry, passes, hpasses, hfocus⟩ := h
    rw [hregistry] at ih
    refine ⟨ih.1, ?_⟩
    cases outcome with
    | error error =>
      obtain ⟨e', he', hunknown, hname⟩ := ih.2
      exact ⟨e', List.mem_cons_of_mem e he', hunknown, hname⟩
    | ok _ =>
      obtain ⟨others, hothers, hfocus'⟩ := ih.2
      refine ⟨passes ++ others, List.rel_append hpasses hothers, ?_⟩
      rw [hfocus', hfocus, List.append_assoc]

theorem ensures_elaborate_adapter (hb : b.Installed) {e : Element} (he : e.IsAdapter)
    (w : World ModulePipeline) :
    (b.elaborate code e).Ensures w
      (fun outcome w' ↦ w'.shared.registry = w.shared.registry ∧
        Answers w.shared.registry [e] outcome w w')
      fun _ _ ↦ False := by
  rw [elaborate_adapter he, ensures_bind, ensures_building]
  refine (ensures_elaborateFunctions_installed hb e.children _).mono ?_ fun _ _ h ↦ h
  rintro outcome w₁ ⟨hregistry, hinside⟩
  refine (ensures_adaptOrDrop w₁.focus outcome ⟨w₁.shared, w.focus⟩).mono ?_ fun _ _ h ↦ h
  intro outcome' w' h
  obtain ⟨hsame, hgrows, hfocus⟩ := h
  subst hsame
  refine ⟨(funext hgrows.registry).trans hregistry, ?_⟩
  cases outcome' with
  | error error =>
    obtain ⟨child, hchild, hunknown, hname⟩ := hinside
    refine ⟨(.function, child), ?_, hunknown, hname⟩
    rw [List.flatMap_singleton, Element.offered_of_isAdapter he]
    exact List.mem_map_of_mem hchild
  | ok _ =>
    obtain ⟨passes, hpasses, hpassesFocus⟩ := hinside
    rw [List.nil_append] at hpassesFocus
    rw [hpassesFocus] at hfocus
    exact ⟨_, .cons (.adapter he hpasses) .nil, hfocus⟩

theorem ensures_elaborate_name (hb : b.Installed) {e : Element} (hgroup : ¬e.IsGroup)
    (hadapter : ¬e.IsAdapter) (w : World ModulePipeline) :
    (b.elaborate code e).Ensures w
      (fun outcome w' ↦ w'.shared.registry = w.shared.registry ∧
        Answers w.shared.registry [e] outcome w w')
      fun _ _ ↦ False := by
  rw [elaborate_name hgroup hadapter, ensures_bind]
  refine ((ensures_offer _ w).and (ensures_offer_registry (hb.ne_nil .module)
    (hb.registry .module) w)).mono ?_ fun _ _ h ↦ h.1
  rintro found w₁ ⟨hgrows, hfound, hfocus⟩
  have hregistry : w₁.shared.registry = w.shared.registry := funext hgrows.registry
  cases hmodule : (w.shared.registry .module).pass? e.name with
  | some entry =>
    rw [hmodule] at hfound hfocus
    subst hfound
    exact ⟨hregistry, _, .cons (.overModules hadapter hmodule) .nil, hfocus⟩
  | none =>
    rw [hmodule] at hfound hfocus
    subst hfound
    -- Not known over modules: the name is offered once more, to passes that are built apart.
    have hsame : w₁.focus = w.focus := hfocus.trans (List.append_nil _)
    change Ensures (building _ >>= _) w₁ _ _
    rw [ensures_bind, ensures_building]
    refine ((ensures_offer _ _).and (ensures_offer_registry (hb.ne_nil .function)
      (hb.registry .function) _)).mono ?_ fun _ _ h ↦ h.1
    rintro found w₂ ⟨hgrows₂, hfound, hpasses⟩
    refine (ensures_adaptOrDrop w₂.focus _ ⟨w₂.shared, w₁.focus⟩).mono ?_ fun _ _ h ↦ h
    intro outcome w' h
    obtain ⟨houtcome, hgrows', hfocus'⟩ := h
    refine ⟨(funext hgrows'.registry).trans ((funext hgrows₂.registry).trans hregistry), ?_⟩
    rw [hregistry] at hfound hpasses
    rw [hsame] at hfocus'
    cases hfunction : (w.shared.registry .function).pass? e.name with
    | none =>
      rw [hfunction] at hfound
      subst hfound houtcome
      refine ⟨(.module, e), by simp [Element.offered_of_not_isAdapter hadapter], ?_, rfl⟩
      simp [Element.Usable, Registry.Knows, hmodule, hfunction]
    | some entry =>
      rw [hfunction] at hfound hpasses
      subst hfound houtcome
      rw [hpasses] at hfocus'
      exact ⟨_, .cons (.overFunctions hadapter hmodule hfunction) .nil, hfocus'⟩

theorem ensures_elaborateAll_installed (hb : b.Installed) {stations : List Element}
    (hstations : ∀ e ∈ stations, ¬e.IsGroup) (w : World ModulePipeline) :
    (b.elaborateAll code stations).Ensures w
      (fun outcome w' ↦ w'.shared.registry = w.shared.registry ∧
        Answers w.shared.registry stations outcome w w')
      fun _ _ ↦ False := by
  have hstep (e : Element) (he : e ∈ stations) (w : World ModulePipeline) :
      (b.elaborate code e).Ensures w
        (fun outcome w' ↦ w'.shared.registry = w.shared.registry ∧
          Answers w.shared.registry [e] outcome w w')
        fun _ _ ↦ False := by
    by_cases hadapter : e.IsAdapter
    · exact ensures_elaborate_adapter hb hadapter w
    · exact ensures_elaborate_name hb (hstations e he) hadapter w
  refine (ensures_elaborateAll_inTurn hstep w).mono ?_ fun _ _ h ↦ h
  clear hstations hstep
  intro outcome w' hturn
  induction hturn with
  | nil => exact ⟨rfl, [], .nil, (List.append_nil _).symm⟩
  | stop h =>
    obtain ⟨hregistry, place, hplace, hunknown, hname⟩ := h
    rw [List.flatMap_singleton] at hplace
    exact ⟨hregistry, place, List.mem_append_left _ hplace, hunknown, hname⟩
  | @next e rest outcome w w₁ w' h _ ih =>
    obtain ⟨hregistry, passes, hpasses, hfocus⟩ := h
    rw [hregistry] at ih
    refine ⟨ih.1, ?_⟩
    cases outcome with
    | error error =>
      obtain ⟨place, hplace, hunknown, hname⟩ := ih.2
      exact ⟨place, List.mem_append_right _ hplace, hunknown, hname⟩
    | ok _ =>
      obtain ⟨others, hothers, hfocus'⟩ := ih.2
      refine ⟨passes ++ others, List.rel_append hpasses hothers, ?_⟩
      rw [hfocus', hfocus, List.append_assoc]

/-- A station is accepted exactly if every name that is offered of it is registered. -/
theorem Answers.ok_iff {known : Kind → Registry} {stations : List Element}
    {outcome : Except Pipeline.Error Unit} {w w' : World ModulePipeline}
    (h : Answers known stations outcome w w') :
    outcome = .ok () ↔ ∀ place ∈ stations.flatMap Element.offered, Element.Usable known place := by
  cases outcome with
  | error error =>
    obtain ⟨place, hplace, hunknown, -⟩ := h
    constructor
    · intro hok
      contradiction
    · intro husable
      exact absurd (husable place hplace) hunknown
  | ok _ =>
    obtain ⟨passes, hpasses, -⟩ := h
    exact ⟨fun _ ↦ Element.Stands.usable_of_forall₂ hpasses, fun _ ↦ rfl⟩

theorem ensures_elaborateText_installed (hb : b.Installed) {text : String}
    {elements : List Element} (htext : Pipeline.parse text = .ok elements)
    (w : World ModulePipeline) :
    (b.elaborateText code text).Ensures w
      (fun outcome w' ↦ Answers w.shared.registry (Element.stationsOf elements) outcome w w')
      fun _ _ ↦ False := by
  rw [elaborateText, htext]
  change Ensures (b.elaborateAll code elements) _ _ _
  rw [← elaborateAll_stationsOf elements]
  exact (ensures_elaborateAll_installed hb (Element.not_isGroup_of_mem_stationsOf elements)
    w).mono (fun _ _ h ↦ h.2) fun _ _ h ↦ h

/-- A text that can be read is accepted exactly if every name that is offered is registered, and
if nothing is nested in plain names, exactly if every name at any depth is. Passes are added for
all stations or a name that is not registered is reported. -/
theorem elaborateText_ok_iff (hb : b.Installed) {text : String} {elements : List Element}
    (htext : Pipeline.parse text = .ok elements) (w : World ModulePipeline) :
    (b.elaborateText code text).Ensures w
      (fun outcome w' ↦
        (outcome = .ok () ↔
          ∀ place ∈ Element.offeredOf elements, Element.Usable w.shared.registry place) ∧
        (Element.Flat elements →
          (outcome = .ok () ↔
            ∀ place ∈ Element.namingsOf .module elements,
              Element.Usable w.shared.registry place)) ∧
        Answers w.shared.registry (Element.stationsOf elements) outcome w w')
      fun _ _ ↦ False := by
  refine (ensures_elaborateText_installed hb htext w).mono ?_ fun _ _ h ↦ h
  intro outcome w' hanswers
  refine ⟨hanswers.ok_iff, fun hflat ↦ ?_, hanswers⟩
  rw [Element.namingsOf_of_flat elements hflat]
  exact hanswers.ok_iff

end Builder

namespace Demo

theorem installed_loaded : loaded.Installed where
  ne_nil kind := by cases kind <;> exact List.cons_ne_nil _ _
  registry kind hook hhook := by cases kind <;> exact List.mem_singleton.1 hhook

/-- Both passes of the demonstration and one that does not exist. -/
def nested : List Element :=
  [.mk "module" [.mk "print-stats" [], .mk "function" [.mk "strip-nops" [], .mk "bar" []]]]

theorem flat_nested : Element.Flat nested := by
  have hoffered : Element.offeredOf nested =
      [(.module, .mk "print-stats" []), (.function, .mk "strip-nops" []),
        (.function, .mk "bar" [])] := rfl
  rw [Element.Flat, hoffered]
  simp [Element.children]

theorem elaborateText_ok_iff_nested :
    Pipeline.parse "module(print-stats,function(strip-nops,bar))" = .ok nested ∧
      (loaded.elaborateText code "module(print-stats,function(strip-nops,bar))").Ensures
        ⟨registered, []⟩
        (fun outcome _ ↦ outcome = .ok () ↔
          ∀ place ∈ Element.namingsOf .module nested, Element.Usable registered.registry place)
        fun _ _ ↦ False := by
  have htext : Pipeline.parse "module(print-stats,function(strip-nops,bar))" = .ok nested := by cbv
  refine ⟨htext, ?_⟩
  exact (Builder.elaborateText_ok_iff installed_loaded htext ⟨registered, []⟩).mono
    (fun _ _ h ↦ h.2.1 flat_nested) fun _ _ h ↦ h

/-- What is nested in a plain name is never looked at. -/
theorem elaborateText_ignores_bar :
    loaded.Installed ∧
      Pipeline.parse "print-stats(bar)" = .ok [.mk "print-stats" [.mk "bar" []]] ∧
      (Kind.module, .mk "bar" []) ∈
        Element.namingsOf .module [.mk "print-stats" [.mk "bar" []]] ∧
      ¬Element.Usable registered.registry (.module, .mk "bar" []) ∧
      (loaded.elaborateText code "print-stats(bar)").Ensures ⟨registered, []⟩
        (fun outcome w' ↦ outcome = .ok () ∧ w'.focus.map Pass.name = ["print-stats"])
        fun _ _ ↦ False := by
  have hnamings : Element.namingsOf .module [.mk "print-stats" [.mk "bar" []]] =
      [(.module, .mk "print-stats" [.mk "bar" []]), (.module, .mk "bar" [])] := rfl
  have hparse : Pipeline.parse "print-stats(bar)" = .ok [.mk "print-stats" [.mk "bar" []]] := by
    cbv
  refine ⟨installed_loaded, hparse, ?_, ?_, ?_⟩
  · rw [hnamings]
    simp
  · simp only [Element.Usable, Registry.Knows]
    decide
  · rw [Builder.elaborateText, hparse]
    exact ⟨rfl, rfl⟩

end Demo

end ForeignPasses
