import ForeignPasses.Proofs.Pipeline.Resolution
import ForeignPasses.Proofs.Pipeline.Stopping

/-!
# The passes that a text names

If the registries are all that knows names, a text adds the passes that its tree names, in the order
of the text, unless a name that is offered is not known. Then the first of these names, from left to
right and parents first, is the one that is reported. Inside of `function(...)` there are no further
groups, so there `module` and `function` are names like any other.
-/

namespace ForeignPasses

open Exec

namespace Element

variable (known : Kind → Registry)

/-! ## Trees and the passes in them -/

/-- The pass that is registered for functions under the name of an element. -/
def passesInside (e : Element) : FunctionPipeline :=
  ((known .function).pass? e.name).toList.map (.foreign e.name · .null)

mutual

/-- The passes that an element names at module level. -/
def passes : Element → ModulePipeline
  | .mk name children =>
    if name = "module" ∧ children.isEmpty = false then passesOf children
    else if name = "function" ∧ children.isEmpty = false then
      [.perFunction (children.flatMap (passesInside known))]
    else
      match (known .module).pass? name with
      | some entry => [.foreign name entry .null]
      | none => [.perFunction (passesInside known (.mk name []))]

/-- The passes that elements name at module level, in their order. -/
def passesOf : List Element → ModulePipeline
  | [] => []
  | e :: rest => e.passes ++ passesOf rest

end

variable {known : Kind → Registry}

theorem passes_of_isAdapter {e : Element} (he : e.IsAdapter) :
    e.passes known = [.perFunction (e.children.flatMap (passesInside known))] := by
  obtain ⟨name, children⟩ := e
  have hgroup : ¬(name = "module" ∧ children.isEmpty = false) := by
    rintro ⟨hname, -⟩
    exact absurd (hname.symm.trans he.1) (by decide)
  rw [passes, if_neg hgroup]
  exact if_pos he

theorem passes_of_name {e : Element} (hgroup : ¬e.IsGroup) (hadapter : ¬e.IsAdapter) :
    e.passes known =
      match (known .module).pass? e.name with
      | some entry => [.foreign e.name entry .null]
      | none => [.perFunction (passesInside known e)] := by
  obtain ⟨name, children⟩ := e
  rw [passes]
  exact (if_neg hgroup).trans (if_neg hadapter)

mutual

theorem passes_stations (e : Element) :
    e.stations.flatMap (passes known) = e.passes known := by
  obtain ⟨name, children⟩ := e
  rw [stations]
  split
  · rename_i hgroup
    rw [passesOf_stationsOf children, passes]
    exact (if_pos hgroup).symm
  · exact List.flatMap_singleton _ _

/-- Groups of module passes are no more than their contents. -/
theorem passesOf_stationsOf (elements : List Element) :
    (stationsOf elements).flatMap (passes known) = passesOf known elements := by
  cases elements with
  | nil => rfl
  | cons e rest =>
    rw [stationsOf, List.flatMap_append, passes_stations e, passesOf_stationsOf rest, passesOf]

end

mutual

/-- Only elements with the name of a group have children, at any depth. -/
def OnlyGroups : List Element → Prop
  | [] => True
  | e :: rest => e.IsNameOrGroup ∧ OnlyGroups rest

/-- The element has no children, or it has the name of a group. -/
def IsNameOrGroup : Element → Prop
  | .mk name children =>
    (children = [] ∨ name = "module" ∨ name = "function") ∧ OnlyGroups children

end

/-! ## The first name that is not known -/

instance (known : Kind → Registry) (kind : Kind) (name : String) :
    Decidable (Registry.Knows known kind name) :=
  inferInstanceAs (Decidable (_ = true))

instance (known : Kind → Registry) : DecidablePred (Usable known)
  | (.module, e) =>
    inferInstanceAs (Decidable (Registry.Knows known .module e.name ∨
      Registry.Knows known .function e.name))
  | (.function, e) => inferInstanceAs (Decidable (Registry.Knows known .function e.name))

/-- The first element that is not known is reported, if there is one. -/
def verdict (known : Kind → Registry) (places : List (Kind × Element)) :
    Except Pipeline.Error Unit :=
  match places.find? fun place ↦ !decide (Usable known place) with
  | none => .ok ()
  | some place => .error (.unknownPass place.2.name)

theorem verdict_eq_ok_iff {places : List (Kind × Element)} :
    verdict known places = .ok () ↔ ∀ place ∈ places, Usable known place := by
  rw [verdict]
  cases hfind : places.find? fun place ↦ !decide (Usable known place) with
  | none => simpa using List.find?_eq_none.1 hfind
  | some place =>
    have hunknown : ¬Usable known place := by simpa using List.find?_some hfind
    constructor
    · intro hok
      contradiction
    · intro husable
      exact absurd (husable place (List.mem_of_find?_eq_some hfind)) hunknown

theorem verdict_append (places others : List (Kind × Element)) :
    verdict known (places ++ others) =
      match verdict known places with
      | .ok () => verdict known others
      | .error error => .error error := by
  rw [verdict, verdict, List.find?_append]
  cases places.find? fun place ↦ !decide (Usable known place) with
  | none => rfl
  | some place => rfl

/-! ## What elements come to, once more -/

/-- An element comes to the passes it names if all that is offered of it is known, and to the first
name that is not known otherwise. -/
def Names {P : Type} (known : Kind → Registry) (named : List P) (places : List (Kind × Element))
    (result : Except Pipeline.Error P) : Prop :=
  result.map (fun _ ↦ ()) = verdict known places ∧ ∀ p, result = .ok p → named = [p]

theorem names_of_usable {P : Type} {p : P} {place : Kind × Element} (h : Usable known place) :
    Names known [p] [place] (.ok p) := by
  refine ⟨(verdict_eq_ok_iff.2 (List.forall_mem_singleton.2 h)).symm, fun p' hp' ↦ ?_⟩
  rw [Except.ok.inj hp']

theorem names_of_not_usable {P : Type} {named : List P} {place : Kind × Element}
    (h : ¬Usable known place) :
    Names known named [place] (.error (.unknownPass place.2.name)) := by
  refine ⟨?_, fun p hp ↦ nomatch hp⟩
  simp [verdict, h, Except.map]

theorem inTurn_names {P : Type} {resolve : Element → Except Pipeline.Error P}
    {named : Element → List P} {places : Element → List (Kind × Element)}
    {elements : List Element}
    (h : ∀ e ∈ elements, Names known (named e) (places e) (resolve e)) :
    (inTurn resolve elements).2 = verdict known (elements.flatMap places) ∧
      ((inTurn resolve elements).2 = .ok () →
        (inTurn resolve elements).1 = elements.flatMap named) := by
  induction elements with
  | nil => exact ⟨rfl, fun _ ↦ rfl⟩
  | cons e rest ih =>
    obtain ⟨⟨hverdict, hnamed⟩, hrest⟩ := List.forall_mem_cons.1 h
    obtain ⟨ihVerdict, ihNamed⟩ := ih hrest
    rw [inTurn, List.flatMap_cons, List.flatMap_cons, verdict_append, ← hverdict]
    cases hresult : resolve e with
    | error error =>
      refine ⟨rfl, fun hok ↦ ?_⟩
      cases hok
    | ok p =>
      refine ⟨ihVerdict, fun hok ↦ ?_⟩
      rw [hnamed p hresult, ihNamed hok, List.singleton_append]

theorem resolveInside_names (known : Kind → Registry) (e : Element) :
    Names known (passesInside known e) [(.function, e)] (resolveInside known e) := by
  rw [resolveInside, passesInside]
  cases hentry : (known .function).pass? e.name with
  | none => exact names_of_not_usable (by simp [Usable, Registry.Knows, hentry])
  | some entry => exact names_of_usable (by simp [Usable, Registry.Knows, hentry])

/-- A station comes to the passes it names. -/
theorem resolve_names (known : Kind → Registry) {e : Element} (hgroup : ¬e.IsGroup) :
    Names known (e.passes known) e.offered (resolve known e) := by
  by_cases hadapter : e.IsAdapter
  · have hinside : ∀ child ∈ e.children,
        Names known (passesInside known child) [(.function, child)] (resolveInside known child) :=
      fun child _ ↦ resolveInside_names known child
    obtain ⟨hverdict, hnamed⟩ := inTurn_names hinside
    rw [← List.map_eq_flatMap, ← offered_of_isAdapter hadapter] at hverdict
    rw [passes_of_isAdapter hadapter, resolve, if_pos hadapter]
    generalize inTurn (resolveInside known) e.children = result at hverdict hnamed ⊢
    obtain ⟨passes, _ | _⟩ := result
    · refine ⟨hverdict, fun p hp ↦ ?_⟩
      cases hp
    · obtain rfl : passes = e.children.flatMap (passesInside known) := hnamed rfl
      exact ⟨hverdict, fun p hp ↦ by rw [Except.ok.inj hp]⟩
  · rw [offered_of_not_isAdapter hadapter, passes_of_name hgroup hadapter, resolve,
      if_neg hadapter]
    cases hmodule : (known .module).pass? e.name with
    | some entry => exact names_of_usable (.inl (by simp [Registry.Knows, hmodule]))
    | none =>
      rw [resolveInside, passesInside]
      cases hfunction : (known .function).pass? e.name with
      | some entry => exact names_of_usable (.inr (by simp [Registry.Knows, hfunction]))
      | none => exact names_of_not_usable (by simp [Usable, Registry.Knows, hmodule, hfunction])

/-- Elements come to the passes they name if everything that is offered is known, and to the first
name that is not known otherwise. -/
theorem resolveAll_names (known : Kind → Registry) (elements : List Element) :
    (resolveAll known elements).2 = verdict known (offeredOf elements) ∧
      ((resolveAll known elements).2 = .ok () →
        (resolveAll known elements).1 = passesOf known elements) := by
  rw [← passesOf_stationsOf]
  exact inTurn_names fun e he ↦ resolve_names known (not_isGroup_of_mem_stationsOf elements e he)

end Element

namespace Builder

variable {code : Code} {b : Builder}

/-- A text that cannot be read is refused before any callback is asked. From any other, the passes
that its tree names are added if everything that is offered is known; else the first name that is
not known is reported. If nothing is nested in a name, the names of all elements at every depth are
offered, in the order of the text. -/
theorem elaborateText_passesOf (hb : b.Installed) (text : String) (w : World ModulePipeline) :
    (∀ error, Pipeline.parse text = .error error →
      ∀ (b : Builder) (code : Code), b.elaborateText code text = pure (.error error)) ∧
    ∀ elements, Pipeline.parse text = .ok elements →
      (b.elaborateText code text).Ensures w
        (fun outcome w' ↦
          outcome = Element.verdict w.shared.registry (Element.offeredOf elements) ∧
          (Element.Flat elements →
            outcome = Element.verdict w.shared.registry (Element.namingsOf .module elements)) ∧
          (outcome = .ok () →
            w'.focus = w.focus ++ Element.passesOf w.shared.registry elements))
        fun _ _ ↦ False := by
  constructor
  · intro error herror b code
    rw [elaborateText, herror]
  · intro elements helements
    refine (ensures_elaborateText_comes hb text w).mono ?_ fun _ _ h ↦ h
    intro outcome w' hcomes
    obtain ⟨hverdict, hpasses⟩ := Element.resolveAll_names w.shared.registry elements
    have houtcome := hcomes.outcome_eq
    have hfocus := hcomes.focus_eq
    rw [Pipeline.resolve, helements] at houtcome hfocus
    refine ⟨houtcome.trans hverdict, fun hflat ↦ ?_, fun hok ↦ ?_⟩
    · rw [Element.namingsOf_of_flat elements hflat]
      exact houtcome.trans hverdict
    · rw [hfocus]
      exact congrArg _ (hpasses (houtcome.symm.trans hok))

end Builder

namespace Demo

/-- Both passes of the demonstration, one of them in each way in which it can be named. -/
def grouped : List Element :=
  [.mk "module" [.mk "print-stats" [], .mk "strip-nops" []], .mk "function" [.mk "strip-nops" []]]

theorem elaborateText_passesOf_grouped :
    Pipeline.parse "module(print-stats,strip-nops),function(strip-nops)" = .ok grouped ∧
      (loaded.elaborateText code "module(print-stats,strip-nops),function(strip-nops)").Ensures
        ⟨registered, []⟩
        (fun outcome w' ↦ outcome = .ok () ∧
          w'.focus = [.foreign "print-stats" printStats .null,
            .perFunction [.foreign "strip-nops" stripNops .null],
            .perFunction [.foreign "strip-nops" stripNops .null]])
        fun _ _ ↦ False := by
  have hparse : Pipeline.parse "module(print-stats,strip-nops),function(strip-nops)" =
      .ok grouped := by cbv
  have hverdict : Element.verdict registered.registry (Element.offeredOf grouped) = .ok () := rfl
  refine ⟨hparse, ?_⟩
  refine ((Builder.elaborateText_passesOf installed_loaded _ ⟨registered, []⟩).2 grouped
    hparse).mono ?_ fun _ _ h ↦ h
  rintro outcome w' ⟨houtcome, -, hpasses⟩
  have hok : outcome = .ok () := houtcome.trans hverdict
  exact ⟨hok, (hpasses hok).trans rfl⟩

/-- Inside of `function(...)` there are no groups, even if all that is in them is known. -/
theorem elaborateText_groups_inside :
    loaded.Installed ∧
      Pipeline.parse "function(function(strip-nops))" =
        .ok [.mk "function" [.mk "function" [.mk "strip-nops" []]]] ∧
      Element.OnlyGroups [.mk "function" [.mk "function" [.mk "strip-nops" []]]] ∧
      (∀ place ∈ Element.namingsOf .module [.mk "function" [.mk "function" [.mk "strip-nops" []]]],
        Element.Usable registered.registry place) ∧
      (loaded.elaborateText code "function(function(strip-nops))").Ensures ⟨registered, []⟩
        (fun outcome w' ↦ outcome = .error (.unknownPass "function") ∧ w'.focus = [])
        fun _ _ ↦ False := by
  have hnamings : Element.namingsOf .module
      [.mk "function" [.mk "function" [.mk "strip-nops" []]]] =
        [(.function, .mk "strip-nops" [])] := rfl
  have hparse : Pipeline.parse "function(function(strip-nops))" =
      .ok [.mk "function" [.mk "function" [.mk "strip-nops" []]]] := by
    cbv
  refine ⟨installed_loaded, hparse, by simp [Element.OnlyGroups, Element.IsNameOrGroup], ?_, ?_⟩
  · rw [hnamings, List.forall_mem_singleton]
    simp only [Element.Usable, Registry.Knows]
    decide
  · rw [Builder.elaborateText, hparse]
    exact ⟨rfl, rfl⟩

end Demo

end ForeignPasses
