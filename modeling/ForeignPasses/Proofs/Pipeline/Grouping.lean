import ForeignPasses.Proofs.Pipeline.Contents
import ForeignPasses.Proofs.Manager.Exactness
import ForeignPasses.Proofs.Preservation.Effects

/-!
# Groups in texts

Wherever elements at module level are put between the parentheses of `module(...)`, they come to the
same passes. Passes over functions whose effects depend on bodies alone may also be divided among
`function(...)` groups in any way, and named without a group where no pass over modules has the
name: only the names count, in the order of the text.
-/

namespace ForeignPasses

open Exec

namespace Element

/-! ## Wrapping -/

/-- A run of consecutive elements at module level is wrapped in `module(...)`. -/
inductive Wraps : List Element → List Element → Prop
  | here (before run after : List Element) (hrun : run ≠ []) :
      Wraps (before ++ run ++ after) (before ++ .mk "module" run :: after)
  | within (before : List Element) {run wrapped : List Element} (after : List Element)
      (h : Wraps run wrapped) :
      Wraps (before ++ .mk "module" run :: after) (before ++ .mk "module" wrapped :: after)

theorem stationsOf_append (elements others : List Element) :
    stationsOf (elements ++ others) = stationsOf elements ++ stationsOf others := by
  induction elements with
  | nil => rfl
  | cons e rest ih => rw [List.cons_append, stationsOf, ih, stationsOf, List.append_assoc]

theorem stations_module {run : List Element} (hrun : run ≠ []) :
    stations (.mk "module" run) = stationsOf run := by
  rw [stations]
  exact if_pos ⟨rfl, by simpa using hrun⟩

theorem Wraps.ne_nil {elements wrapped : List Element} (h : Wraps elements wrapped) :
    elements ≠ [] ∧ wrapped ≠ [] := by
  cases h with
  | here before run after hrun => simp [hrun]
  | within before after h => simp

theorem Wraps.stationsOf_eq {elements wrapped : List Element} (h : Wraps elements wrapped) :
    stationsOf wrapped = stationsOf elements := by
  induction h with
  | here before run after hrun =>
    rw [stationsOf_append, stationsOf, stations_module hrun, stationsOf_append, stationsOf_append,
      List.append_assoc]
  | within before after h ih =>
    rw [stationsOf_append, stationsOf_append, stationsOf, stationsOf, stations_module h.ne_nil.1,
      stations_module h.ne_nil.2, ih]

/-! ## Names of passes over functions -/

variable (known : Kind → Registry)

/-- The passes over functions that are named by what is offered of an element. -/
def enlists (e : Element) : List (String × Entry) :=
  e.offered.flatMap fun place ↦
    ((known .function).pass? place.2.name).toList.map (place.2.name, ·)

/-- The entries of the passes over functions that elements name, in their order. -/
def entriesOf (elements : List Element) : List Entry :=
  (offeredOf elements).flatMap fun place ↦ ((known .function).pass? place.2.name).toList

/-- A pass over functions has the name. If it is offered at module level, none over modules has. -/
def OverFunctions (place : Kind × Element) : Prop :=
  Registry.Knows known .function place.2.name ∧
    (place.1 = .module → ¬Registry.Knows known .module place.2.name)

variable {known}

theorem OverFunctions.usable {place : Kind × Element} (h : OverFunctions known place) :
    Usable known place := by
  obtain ⟨_ | _, e⟩ := place
  · exact .inr h.1
  · exact h.1

theorem flatten_enlists (elements : List Element) :
    (((stationsOf elements).map (enlists known)).map (List.map Prod.snd)).flatten =
      entriesOf known elements := by
  rw [entriesOf, offeredOf, List.flatMap_assoc, List.map_map, ← List.flatMap_def]
  refine List.flatMap_congr fun e _ ↦ ?_
  rw [Function.comp_apply, enlists, List.map_flatMap]
  refine List.flatMap_congr fun place _ ↦ ?_
  rw [List.map_map]
  exact List.map_id _

theorem passes_eq_enlisted {e : Element} (hgroup : ¬e.IsGroup)
    (hover : ∀ place ∈ e.offered, OverFunctions known place) :
    e.passes known = [.perFunction (enlisted (enlists known e))] := by
  by_cases hadapter : e.IsAdapter
  · rw [passes_of_isAdapter hadapter, enlists, offered_of_isAdapter hadapter, List.flatMap_map,
      enlisted, List.map_flatMap]
    refine congrArg (fun passes ↦ [Pass.perFunction passes]) (List.flatMap_congr fun child _ ↦ ?_)
    rw [passesInside, List.map_map]
    rfl
  · rw [offered_of_not_isAdapter hadapter, List.forall_mem_singleton] at hover
    have hnone : (known .module).pass? e.name = none := by
      simpa [Registry.Knows] using hover.2 rfl
    rw [passes_of_name hgroup hadapter, hnone, enlists, offered_of_not_isAdapter hadapter,
      List.flatMap_singleton, enlisted, List.map_map]
    rfl

/-- Elements that name passes over functions are one adapter for each station. -/
theorem passesOf_eq_enlisted {elements : List Element}
    (hover : ∀ place ∈ offeredOf elements, OverFunctions known place) :
    passesOf known elements =
      ((stationsOf elements).map (enlists known)).map fun named ↦
        .perFunction (enlisted named) := by
  rw [← passesOf_stationsOf, List.map_map, List.map_eq_flatMap]
  refine List.flatMap_congr fun e he ↦ ?_
  exact passes_eq_enlisted (not_isGroup_of_mem_stationsOf elements e he) fun place hplace ↦
    hover place (List.mem_flatMap.2 ⟨e, he, hplace⟩)

/-! ## Names with and without a group -/

/-- Plain names, one after the other. -/
def plain (names : List String) : List Element := names.map (.mk · [])

/-- Plain names in `function(...)`. -/
def gathered (names : List String) : Element := .mk "function" (plain names)

variable {names : List String}

theorem isAdapter_gathered (hnames : names ≠ []) : (gathered names).IsAdapter :=
  ⟨rfl, by simpa [plain] using hnames⟩

theorem offeredOf_append (elements others : List Element) :
    offeredOf (elements ++ others) = offeredOf elements ++ offeredOf others := by
  rw [offeredOf, stationsOf_append, List.flatMap_append]
  rfl

theorem offeredOf_gathered (hnames : names ≠ []) :
    offeredOf [gathered names] = names.map fun name ↦ (.function, .mk name []) := by
  have hadapter := isAdapter_gathered hnames
  have hgroup : ¬(gathered names).IsGroup := fun hgroup ↦ absurd hgroup.1 (by decide)
  have hstations : (gathered names).stations = [gathered names] := by
    rw [gathered, stations]
    exact if_neg hgroup
  rw [offeredOf, stationsOf_singleton, hstations, List.flatMap_singleton,
    offered_of_isAdapter hadapter]
  exact List.map_map

theorem offeredOf_plain (names : List String) :
    offeredOf (plain names) = names.map fun name ↦ (.module, .mk name []) := by
  induction names with
  | nil => rfl
  | cons name rest ih =>
    have hfirst : offeredOf [.mk name []] = [(.module, .mk name [])] := by
      have hgroup : ¬IsGroup (.mk name []) := fun hgroup ↦ nomatch hgroup.2
      have hadapter : ¬IsAdapter (.mk name []) := fun hadapter ↦ nomatch hadapter.2
      rw [offeredOf, stationsOf_singleton, stations, if_neg hgroup, List.flatMap_singleton,
        offered_of_not_isAdapter hadapter]
    change offeredOf ([.mk name []] ++ plain rest) = _
    rw [offeredOf_append, hfirst, ih]
    rfl

/-- The entries of the passes over functions that have some names. -/
def entriesNamed (known : Kind → Registry) (names : List String) : List Entry :=
  names.flatMap fun name ↦ ((known .function).pass? name).toList

/-- Elements that name passes over functions, in any groups, with their names in order. -/
structure Mentions (known : Kind → Registry) (names : List String) (elements : List Element) :
    Prop where
  names_eq : (offeredOf elements).map (fun place ↦ place.2.name) = names
  overFunctions : ∀ place ∈ offeredOf elements, OverFunctions known place

theorem Mentions.entriesOf_eq {elements : List Element} (h : Mentions known names elements) :
    entriesOf known elements = entriesNamed known names := by
  rw [entriesNamed, ← h.names_eq, List.flatMap_map]
  rfl

section Divisions

variable {xs ys : List String}
  (hfunction : ∀ name ∈ xs ++ ys, Registry.Knows known .function name)

include hfunction

theorem mentions_gathered (hxs : xs ≠ []) : Mentions known (xs ++ ys) [gathered (xs ++ ys)] := by
  have hne : xs ++ ys ≠ [] := by simp [hxs]
  have hoffered := offeredOf_gathered hne
  refine ⟨by rw [hoffered, List.map_map]; exact List.map_id _, ?_⟩
  rw [hoffered, List.forall_mem_map]
  exact fun name hname ↦ ⟨hfunction name hname, fun hkind ↦ nomatch hkind⟩

theorem mentions_divided (hxs : xs ≠ []) (hys : ys ≠ []) :
    Mentions known (xs ++ ys) [gathered xs, gathered ys] := by
  have hoffered : offeredOf [gathered xs, gathered ys] = offeredOf [gathered (xs ++ ys)] := by
    change offeredOf ([gathered xs] ++ [gathered ys]) = _
    rw [offeredOf_append, offeredOf_gathered hxs, offeredOf_gathered hys,
      offeredOf_gathered (by simp [hxs]), List.map_append]
  have hgathered := mentions_gathered hfunction hxs
  exact ⟨by rw [hoffered, hgathered.names_eq], by rw [hoffered]; exact hgathered.overFunctions⟩

theorem mentions_plain (hmodule : ∀ name ∈ xs ++ ys, ¬Registry.Knows known .module name) :
    Mentions known (xs ++ ys) (plain (xs ++ ys)) := by
  have hoffered := offeredOf_plain (xs ++ ys)
  refine ⟨by rw [hoffered, List.map_map]; exact List.map_id _, ?_⟩
  rw [hoffered, List.forall_mem_map]
  exact fun name hname ↦ ⟨hfunction name hname, fun _ ↦ hmodule name hname⟩

end Divisions

end Element

/-! ## Running what elements come to -/

/-- The passes that elements stand for are added to no others, and are run. -/
def Builder.runElements (b : Builder) (code : Code) (elements : List Element) :
    Exec (Job Functions FunctionManager) (Except Pipeline.Error Preserved) := do
  let (outcome, passes) ← building (b.elaborateAll code elements)
  match outcome with
  | .ok () => return .ok (← code.runModulePipeline passes)
  | .error error => return .error error

namespace Builder

variable {code : Code} {b : Builder} {effect : Effect} {halts : Prop}

/-- Elements do to all functions what the passes over functions that have some names do to them in
turn, and the same is preserved. -/
structure DoesToAll (b : Builder) (code : Code) (effect : Effect) (halts : Prop)
    (w : World (Job Functions FunctionManager)) (names : List String) (elements : List Element) :
    Prop where
  ensures : (b.runElements code elements).Ensures w
    (fun outcome w' ↦
      outcome = .ok (effect.preserves (Element.entriesNamed w.shared.registry names)
        w.focus.unit.content) ∧
      w'.focus.unit = w.focus.unit.withContent (w.focus.unit.content.map
        (effect.apply (Element.entriesNamed w.shared.registry names))))
    fun _ _ ↦ halts

/-- What elements with passes over functions do depends on the names in them alone. -/
theorem doesToAll (hb : b.Installed) {names : List String} {elements : List Element}
    {w : World (Job Functions FunctionManager)}
    (hmentions : Element.Mentions w.shared.registry names elements)
    (heffect : ∀ entry ∈ Element.entriesNamed w.shared.registry names, code.Does effect halts entry)
    (hw : w.focus.manager.Proxied w.focus.unit.id) :
    b.DoesToAll code effect halts w names elements := by
  have hover := hmentions.overFunctions
  constructor
  rw [← hmentions.entriesOf_eq] at heffect ⊢
  obtain ⟨hverdict, hpasses⟩ := Element.resolveAll_names w.shared.registry elements
  have hok : (Element.resolveAll w.shared.registry elements).2 = .ok () :=
    hverdict.trans (Element.verdict_eq_ok_iff.2 fun place hplace ↦ (hover place hplace).usable)
  rw [runElements, ensures_bind, ensures_building]
  refine (ensures_elaborateAll_comes hb elements _).mono ?_ fun _ _ h ↦ h.elim
  intro outcome w₁ hcomes
  obtain rfl : outcome = .ok () := hcomes.outcome_eq.trans hok
  have hfocus : w₁.focus = ((Element.stationsOf elements).map
      (Element.enlists w.shared.registry)).map fun named ↦ .perFunction (enlisted named) :=
    hcomes.focus_eq.trans ((hpasses hok).trans (Element.passesOf_eq_enlisted hover))
  rw [hfocus]
  simp only [ensures_bind, ensures_pure]
  have hgroups : ∀ named ∈ (Element.stationsOf elements).map (Element.enlists w.shared.registry),
      ∀ p ∈ named, code.Does effect halts p.2 := by
    intro named hnamed p hp
    refine heffect p.2 ?_
    rw [← Element.flatten_enlists]
    exact List.mem_flatten.2 ⟨_, List.mem_map_of_mem hnamed, List.mem_map_of_mem hp⟩
  refine (Code.ensures_runModulePipeline_effects (w := ⟨w₁.shared, w.focus⟩) hgroups hw).imp ?_
  rintro preserved w₂ ⟨rfl, hunit, -⟩
  rw [Effect.inGroups_eq, Element.flatten_enlists] at hunit ⊢
  exact ⟨rfl, hunit⟩

/-- Passes over functions whose effects depend on bodies alone do the same in one group, in two, and
without a group if no pass over modules has one of their names. Elements at module level come to the
same when a run of them is wrapped in `module(...)`, whatever hooks there are. -/
theorem regrouping (code : Code) :
    (∀ (b : Builder) (effect : Effect) (halts : Prop) (w : World (Job Functions FunctionManager))
        (xs ys : List String), b.Installed → code.ReachesModules w.focus.manager →
      w.focus.manager.attached?.isSome → xs ≠ [] → ys ≠ [] →
      (∀ name ∈ xs ++ ys, ∃ entry, (w.shared.registry .function).pass? name = some entry ∧
        code.Does effect halts entry) →
      b.DoesToAll code effect halts w (xs ++ ys) [.gathered (xs ++ ys)] ∧
      b.DoesToAll code effect halts w (xs ++ ys) [.gathered xs, .gathered ys] ∧
      ((∀ name ∈ xs ++ ys, ¬Registry.Knows w.shared.registry .module name) →
        b.DoesToAll code effect halts w (xs ++ ys) (Element.plain (xs ++ ys)))) ∧
    ∀ elements wrapped, Element.Wraps elements wrapped →
      ∀ b : Builder, b.elaborateAll code wrapped = b.elaborateAll code elements := by
  constructor
  · intro b effect halts w xs ys hb hreached hattached hxs hys hnames
    have hw : w.focus.manager.Proxied w.focus.unit.id :=
      hreached.proxied (Option.get_mem hattached) w.focus.unit.id
    have hfunction : ∀ name ∈ xs ++ ys, Registry.Knows w.shared.registry .function name := by
      intro name hname
      obtain ⟨entry, hentry, -⟩ := hnames name hname
      exact Option.isSome_iff_exists.2 ⟨entry, hentry⟩
    have heffect : ∀ entry ∈ Element.entriesNamed w.shared.registry (xs ++ ys),
        code.Does effect halts entry := by
      intro entry hentry
      obtain ⟨name, hname, hfound⟩ := List.mem_flatMap.1 hentry
      obtain ⟨other, hother, hdoes⟩ := hnames name hname
      rw [hother] at hfound
      rwa [List.mem_singleton.1 hfound]
    refine ⟨?_, ?_, fun hmodule ↦ ?_⟩
    · exact doesToAll hb (Element.mentions_gathered hfunction hxs) heffect hw
    · exact doesToAll hb (Element.mentions_divided hfunction hxs hys) heffect hw
    · exact doesToAll hb (Element.mentions_plain hfunction hmodule) heffect hw
  · intro elements wrapped hwraps b
    rw [← elaborateAll_stationsOf wrapped, hwraps.stationsOf_eq, elaborateAll_stationsOf]

end Builder

namespace Demo

/-- The entry of a pass that appends a return where there is none. -/
def addReturn : Entry := 3

/-- What the two passes do to a body. -/
def tidy : Effect := fun entry body ↦
  if entry = addReturn then
    if body.getLast? = some "ret" then (body, .allPreserved) else (body ++ ["ret"], .nonePreserved)
  else
    (body.filter (· ≠ "nop"),
      if (body.filter (· ≠ "nop")).length = body.length then .allPreserved else .nonePreserved)

/-- The demonstration with both passes. -/
def tidying : Code :=
  { code with functions := { functionBehaviour with
      pass := fun entry _ f ↦ return tidy entry f.content } }

theorem does_tidy (entry : Entry) : tidying.Does tidy False entry := by
  intro w
  rw [Tier.ensures_invoke]
  exact ⟨rfl, rfl⟩

/-- One function has something to be removed, and the other has no return. -/
def hut : Module := ⟨1, "hut", [⟨2, "main", ["load", "ret", "nop"]⟩, ⟨3, "helper", ["store"]⟩]⟩

/-- The attached manager knows the lengths of both functions. -/
def surveying : ModuleManager :=
  ((tidying.moduleTier.attach (measuring tidying hut.content)).ending ⟨{}, {}⟩).focus

theorem reachesModules_surveying : tidying.ReachesModules surveying :=
  .attach .empty (reachesFunctions_measuring _ _) {}

/-- Both passes are registered. -/
def untidy : World (Job Functions FunctionManager) where
  shared := { registered with
    functionRegistry := { registered.functionRegistry with
      passes := registered.functionRegistry.passes.insert "add-return" addReturn } }
  focus := ⟨surveying, hut⟩

/-- Both passes one after the other, in each way in which they can be named. -/
def regroupings : List (List Element) :=
  [[.gathered ["strip-nops", "add-return"]],
    [.gathered ["strip-nops"], .gathered ["add-return"]],
    Element.plain ["strip-nops", "add-return"]]

theorem regrouping_tidies :
    (∀ elements ∈ regroupings, (loaded.runElements tidying elements).Ensures untidy
      (fun outcome w' ↦ outcome = .ok .none ∧
        w'.focus.unit.content.map (fun f ↦ f.content) = [["load", "ret"], ["store", "ret"]])
      fun _ _ ↦ False) ∧
    loaded.elaborateAll tidying
        [.mk "module" [.gathered ["strip-nops"], .mk "print-stats" []], .mk "add-return" []] =
      loaded.elaborateAll tidying
        [.gathered ["strip-nops"], .mk "print-stats" [], .mk "add-return" []] := by
  obtain ⟨hdivided, hwrapped⟩ := Builder.regrouping tidying
  have hattached : surveying.attached?.isSome := rfl
  have hnames : ∀ name ∈ ["strip-nops"] ++ ["add-return"], ∃ entry,
      (untidy.shared.registry .function).pass? name = some entry ∧
        tidying.Does tidy False entry := by
    intro name hname
    obtain rfl | rfl : name = "strip-nops" ∨ name = "add-return" := by simpa using hname
    · exact ⟨stripNops, rfl, does_tidy _⟩
    · exact ⟨addReturn, rfl, does_tidy _⟩
  have hmodule : ∀ name ∈ ["strip-nops"] ++ ["add-return"],
      ¬Registry.Knows untidy.shared.registry .module name := by
    intro name hname
    obtain rfl | rfl : name = "strip-nops" ∨ name = "add-return" := by simpa using hname
    all_goals
      simp only [Registry.Knows]
      decide
  obtain ⟨hone, htwo, hnone⟩ := hdivided loaded tidy False untidy ["strip-nops"] ["add-return"]
    installed_loaded reachesModules_surveying hattached (by simp) (by simp) hnames
  have hboth : ["strip-nops"] ++ ["add-return"] = ["strip-nops", "add-return"] := rfl
  rw [hboth] at hmodule hone htwo hnone
  have hentries : Element.entriesNamed untidy.shared.registry ["strip-nops", "add-return"] =
      [stripNops, addReturn] := rfl
  refine ⟨?_, ?_⟩
  · intro elements helements
    have hdoes : loaded.DoesToAll tidying tidy False untidy ["strip-nops", "add-return"]
        elements := by
      simp only [regroupings, List.mem_cons, List.not_mem_nil, or_false] at helements
      obtain rfl | rfl | rfl := helements
      · exact hone
      · exact htwo
      · exact hnone hmodule
    refine hdoes.ensures.imp ?_
    rintro outcome w' ⟨rfl, hunit⟩
    rw [hunit, hentries]
    exact ⟨rfl, rfl⟩
  · exact hwrapped _ _ (.here [] [.gathered ["strip-nops"], .mk "print-stats" []]
      [.mk "add-return" []] (by simp)) loaded

end Demo

end ForeignPasses
