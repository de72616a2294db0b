import ForeignPasses.Proofs.Pipeline.Acceptance
import ForeignPasses.Proofs.Pipeline.Vocabulary

/-!
# Names under which passes are found again

A pass may be registered under any name that is not empty. A text that mentions it finds it only
if the name is one that the grammar writes: no delimiter is in it, and no blank at its ends. Then
it is found whatever else is registered, if no other callback takes the name for itself.
-/

namespace ForeignPasses

open Exec

namespace Pipeline

/-! ## Names in texts -/

theorem parse_of_written {text : String} {elements : List Element} (hformed : WellFormed elements)
    (hwritten : Written elements text.toList) : parse text = .ok elements := by
  rw [parse, parseChars_eq_ok_iff.2 ⟨hformed, hwritten⟩]
  rfl

theorem wellFormed_of_parse {text : String} {elements : List Element}
    (h : parse text = .ok elements) : WellFormed elements := by
  rw [parse] at h
  cases hchars : parseChars text.toList with
  | error stop =>
    rw [hchars] at h
    contradiction
  | ok elements' =>
    rw [hchars] at h
    obtain rfl := Except.ok.inj h
    exact (parseChars_eq_ok_iff.1 hchars).1

theorem isName_function : IsName "function".toList where
  ne_nil := List.cons_ne_nil _ _
  first := by
    rintro c ⟨⟩
    rfl
  last := by
    rintro c ⟨⟩
    rfl
  plain := by
    have hplain : "function".toList.all (fun c ↦ !isDelimiter c) = true := rfl
    simpa only [List.all_eq_true, Bool.not_eq_true'] using hplain

/-- The text that mentions one pass and nothing else. -/
def mention : Kind → String → String
  | .module, name => name
  | .function, name => "function(" ++ name ++ ")"

def mentioned : Kind → String → List Element
  | .module, name => [.mk name []]
  | .function, name => [.mk "function" [.mk name []]]

theorem parse_mention (kind : Kind) {name : String} (hname : IsName name.toList) :
    parse (mention kind name) = .ok (mentioned kind name) := by
  have hleaf : Written [.mk name []] ([] ++ name.toList ++ []) := .leaf .nil .nil
  rw [List.append_nil, List.nil_append] at hleaf
  cases kind with
  | module => exact parse_of_written (.leaf hname) hleaf
  | function =>
    apply parse_of_written (.group isName_function (.leaf hname))
    have hwritten : Written [.mk "function" [.mk name []]]
        ([] ++ "function".toList ++ [] ++ '(' :: name.toList ++ [] ++ ')' :: []) :=
      .group .nil .nil hleaf .nil .nil
    simpa [mention] using hwritten

theorem WellFormed.names {elements : List Element} (h : WellFormed elements) :
    ∀ e ∈ elements, IsName e.name.toList := by
  induction h with
  | leaf hname => exact List.forall_mem_singleton.2 hname
  | group hname _ _ => exact List.forall_mem_singleton.2 hname
  | @more e f rest _ _ ihFirst ihRest =>
    exact List.forall_mem_cons.2 ⟨ihFirst e (List.mem_singleton_self e), ihRest⟩

/-- Stations have names, and so have the elements in them. -/
theorem WellFormed.stations {elements : List Element} (h : WellFormed elements) :
    ∀ s ∈ Element.stationsOf elements,
      IsName s.name.toList ∧ ∀ child ∈ s.children, IsName child.name.toList := by
  induction h with
  | leaf hname =>
    rw [Element.stationsOf_singleton, Element.stations, if_neg (by simp [Element.IsGroup])]
    exact List.forall_mem_singleton.2 ⟨hname, by simp [Element.children]⟩
  | @group name children hname hchildren ih =>
    rw [Element.stationsOf_singleton, Element.stations]
    split
    · exact ih
    · exact List.forall_mem_singleton.2 ⟨hname, hchildren.names⟩
  | @more e f rest _ _ ihFirst ihRest =>
    rw [Element.stationsOf_singleton] at ihFirst
    exact List.forall_mem_append.2 ⟨ihFirst, ihRest⟩

end Pipeline

/-! ## Names that reach the registry -/

/-- A hook that lets a name pass. -/
def Hook.Ignores (code : Code) (kind : Kind) (name : String) (hook : Hook) : Prop :=
  ∀ (J : Type) (w : World (List (Pass J))),
    (hook.recognize code kind name).Ensures w
      (fun found w' ↦ found = false ∧ w'.focus = w.focus) fun _ _ ↦ True

namespace Builder

variable {J : Type} {code : Code} {kind : Kind} {name : String} {entry : Entry} {b : Builder}

/-- The plugin is loaded, and no callback that came before it takes the name. -/
def Reaches (code : Code) (b : Builder) (kind : Kind) (name : String) : Prop :=
  ∃ before after, b.parsingOf kind = before ++ .registry :: after ∧
    ∀ hook ∈ before, hook.Ignores code kind name

theorem Installed.reaches (hb : b.Installed) (kind : Kind) (name : String) :
    b.Reaches code kind name := by
  obtain ⟨hook, rest, hhooks⟩ := List.exists_cons_of_ne_nil (hb.ne_nil kind)
  obtain rfl : hook = .registry := hb.registry kind hook (by simp [hhooks])
  exact ⟨[], rest, hhooks, by simp⟩

theorem ensures_offer_reaches (hreaches : b.Reaches code kind name) {w : World (List (Pass J))}
    (hentry : (w.shared.registry kind).pass? name = some entry) :
    (offer code kind name (b.parsingOf kind)).Ensures w
      (fun found w' ↦ found = true ∧ w'.focus = w.focus ++ [.foreign name entry .null])
      fun _ _ ↦ False := by
  obtain ⟨before, after, hhooks, hignores⟩ := hreaches
  rw [hhooks]
  clear hhooks
  -- Hooks in front of the registry leave both the passes and the registries as they are.
  induction before generalizing w with
  | nil =>
    rw [List.nil_append, offer, ensures_bind]
    refine (ensures_appendRegistered kind name w).mono ?_ fun _ _ h ↦ h
    rintro found w' ⟨-, hfound, hfocus⟩
    rw [hentry] at hfound hfocus
    subst hfound
    exact ⟨rfl, hfocus⟩
  | cons hook rest ih =>
    obtain ⟨hfirst, hrest⟩ := List.forall_mem_cons.1 hignores
    rw [List.cons_append, offer, ensures_bind]
    refine ((ensures_recognize hook name w).and (hfirst J w)).mono ?_ fun _ _ h ↦ h.1
    rintro found w' ⟨hgrows, rfl, hfocus⟩
    change Ensures (offer code kind name _) w' _ _
    rw [← hfocus]
    exact ih (by rw [hgrows.registry kind, hentry]) hrest

/-! ## Registered passes are found -/

/-- The pass at module level that a registered pass is mentioned for. -/
def lone : Kind → String → Entry → ModulePass
  | .module, name, entry => .foreign name entry .null
  | .function, name, entry => .perFunction [.foreign name entry .null]

theorem ensures_elaborateFunction_reaches (hreaches : b.Reaches code .function name)
    {w : World FunctionPipeline}
    (hentry : (w.shared.registry .function).pass? name = some entry) :
    (b.elaborateFunctions code [.mk name []]).Ensures w
      (fun outcome w' ↦ outcome = .ok () ∧ w'.focus = w.focus ++ [.foreign name entry .null])
      fun _ _ ↦ False := by
  rw [elaborateFunctions, ensures_bind, elaborateFunction, ensures_bind]
  refine (ensures_offer_reaches hreaches hentry).mono ?_ fun _ _ h ↦ h
  rintro found w' ⟨rfl, hfocus⟩
  exact ⟨rfl, hfocus⟩

theorem ensures_elaborateAll_mentioned (hreaches : b.Reaches code kind name)
    {w : World ModulePipeline} (hentry : (w.shared.registry kind).pass? name = some entry) :
    (b.elaborateAll code (Pipeline.mentioned kind name)).Ensures w
      (fun outcome w' ↦ outcome = .ok () ∧ w'.focus = w.focus ++ [lone kind name entry])
      fun _ _ ↦ False := by
  cases kind with
  | module =>
    have hgroup : ¬(Element.mk name []).IsGroup := by simp [Element.IsGroup]
    have hadapter : ¬(Element.mk name []).IsAdapter := by simp [Element.IsAdapter]
    rw [Pipeline.mentioned, elaborateAll_singleton, elaborate_name hgroup hadapter, ensures_bind]
    refine (ensures_offer_reaches hreaches hentry).mono ?_ fun _ _ h ↦ h
    rintro found w' ⟨rfl, hfocus⟩
    exact ⟨rfl, hfocus⟩
  | function =>
    have hadapter : (Element.mk "function" [.mk name []]).IsAdapter := ⟨rfl, rfl⟩
    rw [Pipeline.mentioned, elaborateAll_singleton, elaborate_adapter hadapter, ensures_bind,
      ensures_building]
    refine (ensures_elaborateFunction_reaches hreaches hentry).mono ?_ fun _ _ h ↦ h
    rintro outcome w₁ ⟨rfl, hpasses⟩
    refine (ensures_adaptOrDrop w₁.focus (.ok ()) ⟨w₁.shared, w.focus⟩).mono ?_ fun _ _ h ↦ h
    intro outcome w' h
    obtain ⟨houtcome, -, hfocus⟩ := h
    rw [hpasses] at hfocus
    exact ⟨houtcome, hfocus⟩

/-- A pass that stands alone has the name of an element that was written. -/
theorem isName_of_stands_lone {known : Kind → Registry} {s : Element}
    (hs : Pipeline.IsName s.name.toList ∧ ∀ child ∈ s.children, Pipeline.IsName child.name.toList)
    (hstands : Element.Stands known s (lone kind name entry)) : Pipeline.IsName name.toList := by
  cases kind with
  | module =>
    cases hstands with
    | overModules => exact hs.1
  | function =>
    generalize hpass : lone .function name entry = pass at hstands
    cases hstands with
    | overModules => exact nomatch hpass
    | overFunctions =>
      obtain ⟨rfl, -⟩ : name = s.name ∧ _ := by simpa [lone] using hpass
      exact hs.1
    | adapter he hpasses =>
      obtain rfl := Pass.perFunction.inj hpass
      obtain ⟨child, rest, hchild, -, hchildren⟩ := List.forall₂_cons_right_iff.1 hpasses
      cases hchild with
      | registered => exact hs.2 child (by simp [hchildren])

/-- A text is accepted and adds just one pass. -/
def Finds (code : Code) (b : Builder) (s : Shared) (text : String) (pass : ModulePass) : Prop :=
  ∀ passes : ModulePipeline, (b.elaborateText code text).Ensures ⟨s, passes⟩
    (fun outcome w' ↦ outcome = .ok () ∧ w'.focus = passes ++ [pass]) fun _ _ ↦ False

theorem finds_mention (hreaches : b.Reaches code kind name) {s : Shared}
    (hentry : (s.registry kind).pass? name = some entry) (hname : Pipeline.IsName name.toList) :
    b.Finds code s (Pipeline.mention kind name) (lone kind name entry) := by
  intro passes
  rw [elaborateText, Pipeline.parse_mention kind hname]
  exact ensures_elaborateAll_mentioned hreaches hentry

theorem isName_of_finds (hb : b.Installed) {s : Shared} {text : String}
    (hfinds : b.Finds code s text (lone kind name entry)) : Pipeline.IsName name.toList := by
  have h := hfinds []
  cases hparse : Pipeline.parse text with
  | error error =>
    rw [elaborateText, hparse] at h
    obtain ⟨hok, -⟩ := h
    contradiction
  | ok elements =>
    obtain ⟨_, w', -, ⟨rfl, hfocus⟩, others, hothers, hsame⟩ :=
      (h.and (ensures_elaborateText_installed hb hparse ⟨s, []⟩)).exists_ok fun _ _ h ↦ h.1
    -- The pass that was added stands for a station, and stations have names that were written.
    obtain rfl : [lone kind name entry] = others :=
      List.append_cancel_left (hfocus.symm.trans hsame)
    obtain ⟨station, rest, hstation, -, hstations⟩ := List.forall₂_cons_right_iff.1 hothers
    have hnames := (Pipeline.wellFormed_of_parse hparse).stations station (by simp [hstations])
    exact isName_of_stands_lone hnames hstation

end Builder

/-! ## Registering -/

theorem Registry.pass?_of_addPass {r r' : Registry} {name : String} {entry : Entry}
    (h : r.addPass name entry = .ok r') : r'.pass? name = some entry := by
  unfold addPass at h
  split at h
  · contradiction
  · split at h
    · contradiction
    · obtain rfl := Except.ok.inj h
      exact Table.find?_insert_self _ _ _

/-- Whatever is registered stays registered. -/
def Shared.Retained (s later : Shared) : Prop :=
  ∀ kind name entry, (s.registry kind).pass? name = some entry →
    (later.registry kind).pass? name = some entry

namespace Exec

variable {σ : Type}

theorem ensures_boundaryPass (kind : Kind) (name : String) (entry : Entry) (w : World σ) :
    (boundaryPass kind name.toUTF8 entry).Ensures w
      (fun _ w' ↦ (w'.shared.registry kind).pass? name = some entry)
      fun e w' ↦ (∃ error, e = .fatal error) ∧ w' = w := by
  have hname : nameOf name.toUTF8 = name := by rw [nameOf, Text.decode?_toUTF8, Option.getD_some]
  simp only [boundaryPass, hname, enterPass, enter, ensures_bind, ensures_shared]
  cases hadd : (w.shared.registry kind).addPass name entry with
  | error error => exact ⟨⟨error, rfl⟩, rfl⟩
  | ok r =>
    simp only [ensures_bind, ensures_debug, ensures_modifyShared, ensures_pure, orFatal]
    cases kind <;> exact Registry.pass?_of_addPass hadd

/-- A pass that was registered is found by its name if the grammar writes the name, and if nothing
but registries knows names, only then. -/
theorem boundaryPass_found_iff (code : Code) (kind : Kind) (name : String) (entry : Entry)
    (w : World σ) :
    (boundaryPass kind name.toUTF8 entry).Ensures w
      (fun _ w' ↦ ∀ (later : Shared) (b : Builder), w'.shared.Retained later →
        b.Reaches code kind name →
          (Pipeline.IsName name.toList →
            b.Finds code later (Pipeline.mention kind name) (Builder.lone kind name entry)) ∧
          (b.Installed →
            b.Finds code later (Pipeline.mention kind name) (Builder.lone kind name entry) →
              Pipeline.IsName name.toList))
      fun e w' ↦ (∃ error, e = .fatal error) ∧ w' = w := by
  refine (ensures_boundaryPass kind name entry w).mono ?_ fun _ _ h ↦ h
  intro _ w' hentry later b hretained hreaches
  exact ⟨Builder.finds_mention hreaches (hretained kind name entry hentry),
    fun hb ↦ Builder.isName_of_finds hb⟩

end Exec

namespace Demo

/-- The registry takes a name that no text can mention. -/
theorem boundaryPass_not_found :
    loaded.Installed ∧
      (boundaryPass .module "a,b".toUTF8 hello : Exec Unit Unit).Ensures ⟨{}, ()⟩
        (fun _ w ↦ (loaded.elaborateText code "a,b").Ensures ⟨w.shared, []⟩
          (fun outcome w' ↦ outcome = .error (.unknownPass "a") ∧ w'.focus = [])
          fun _ _ ↦ False)
        fun _ _ ↦ False := by
  have hparse : Pipeline.parse "a,b" = .ok [.mk "a" [], .mk "b" []] := by cbv
  rw [Builder.elaborateText, hparse]
  exact ⟨installed_loaded, rfl, rfl⟩

end Demo

end ForeignPasses
