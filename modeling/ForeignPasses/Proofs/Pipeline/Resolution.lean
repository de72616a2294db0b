import ForeignPasses.Proofs.Exec.Sayings
import ForeignPasses.Proofs.Pipeline.Vocabulary

/-!
# What a text comes to

If the registries are all that knows names, what a text comes to is a function of the registries and
of the text: the passes of its stations in order, up to the first name that is not known. Nothing
else is there to see, neither in the pipeline nor among the lines that are said.
-/

namespace ForeignPasses

open Exec

/-! ## What elements come to -/

namespace Element

/-- What elements come to one after the other: what they add, and the first error. -/
def inTurn {P : Type} (resolve : Element → Except Pipeline.Error P) :
    List Element → List P × Except Pipeline.Error Unit
  | [] => ([], .ok ())
  | e :: rest =>
    match resolve e with
    | .ok p => (p :: (inTurn resolve rest).1, (inTurn resolve rest).2)
    | .error error => ([], .error error)

variable (known : Kind → Registry)

/-- The pass over functions that has the name of an element. -/
def resolveInside (e : Element) : Except Pipeline.Error FunctionPass :=
  match (known .function).pass? e.name with
  | some entry => .ok (.foreign e.name entry .null)
  | none => .error (.unknownPass e.name)

/-- The pass that a station adds. -/
def resolve (e : Element) : Except Pipeline.Error ModulePass :=
  if e.IsAdapter then
    match inTurn (resolveInside known) e.children with
    | (passes, .ok ()) => .ok (.perFunction passes)
    | (_, .error error) => .error error
  else
    match (known .module).pass? e.name with
    | some entry => .ok (.foreign e.name entry .null)
    | none => (resolveInside known e).map fun pass ↦ .perFunction [pass]

/-- What elements add at module level, and the first error. -/
def resolveAll (elements : List Element) : ModulePipeline × Except Pipeline.Error Unit :=
  inTurn (resolve known) (stationsOf elements)

end Element

/-- What a text adds, and its first error. -/
def Pipeline.resolve (known : Kind → Registry) (text : String) :
    ModulePipeline × Except Pipeline.Error Unit :=
  match parse text with
  | .ok elements => Element.resolveAll known elements
  | .error error => ([], .error error)

namespace Builder

variable {J : Type} {code : Code} {kind : Kind} {name : String}

/-! ## Nothing is said -/

/-- The registries stay, and nothing is said. -/
structure Quiet (s s' : Shared) : Prop where
  registry_eq : s'.registry = s.registry
  silent : s.Utters [] s'

namespace Quiet

variable {s s' s'' : Shared}

theorem refl : Quiet s s := ⟨rfl, .refl⟩

theorem trans (h : Quiet s s') (h' : Quiet s' s'') : Quiet s s'' :=
  ⟨h'.registry_eq.trans h.registry_eq, h.silent.after h'.silent⟩

end Quiet

theorem ensures_offer_quiet {hooks : List Hook} (hregistry : ∀ hook ∈ hooks, hook = .registry)
    (w : World (List (Pass J))) :
    (offer code kind name hooks).Ensures w (fun _ w' ↦ Quiet w.shared w'.shared)
      fun _ _ ↦ False := by
  induction hooks generalizing w with
  | nil => exact .refl
  | cons hook rest ih =>
    obtain ⟨rfl, hrest⟩ := List.forall_mem_cons.1 hregistry
    simp only [offer, Hook.recognize, appendRegistered, ensures_bind, ensures_shared]
    cases (w.shared.registry kind).pass? name with
    | none => exact ih hrest w
    | some entry =>
      simp only [append, ensures_bind, ensures_trace, ensures_modifyFocus, ensures_pure]
      exact ⟨funext fun kind ↦ by cases kind <;> rfl, .log _ _ rfl⟩

/-! ## Elements one after the other -/

/-- An element adds what it comes to, and nothing if it comes to an error. -/
structure Comes {P : Type} (result : Except Pipeline.Error P) (outcome : Except Pipeline.Error Unit)
    (w : World (List P)) (w' : World (List P)) : Prop where
  outcome_eq : outcome = result.map fun _ ↦ ()
  focus_eq : w'.focus = w.focus ++ result.toOption.toList
  quiet : Quiet w.shared w'.shared

/-- Elements add what they come to one after the other. -/
structure ComesInTurn {P : Type} (result : List P × Except Pipeline.Error Unit)
    (outcome : Except Pipeline.Error Unit) (w w' : World (List P)) : Prop where
  outcome_eq : outcome = result.2
  focus_eq : w'.focus = w.focus ++ result.1
  quiet : Quiet w.shared w'.shared

theorem Comes.of_ok {P : Type} {p : P} {outcome : Except Pipeline.Error Unit}
    {w w' : World (List P)} (h : Comes (.ok p) outcome w w') :
    outcome = .ok () ∧ w'.focus = w.focus ++ [p] :=
  ⟨h.outcome_eq, h.focus_eq⟩

theorem Comes.of_error {P : Type} {error : Pipeline.Error} {outcome : Except Pipeline.Error Unit}
    {w w' : World (List P)} (h : Comes (P := P) (.error error) outcome w w') :
    outcome = .error error ∧ w'.focus = w.focus :=
  ⟨h.outcome_eq, h.focus_eq.trans (List.append_nil _)⟩

theorem InTurn.comes {resolve : (Kind → Registry) → Element → Except Pipeline.Error (Pass J)}
    {elements : List Element} {outcome : Except Pipeline.Error Unit} {w w' : World (List (Pass J))}
    (h : InTurn (fun e outcome w w' ↦ Comes (resolve w.shared.registry e) outcome w w') elements
      outcome w w') :
    ComesInTurn (Element.inTurn (resolve w.shared.registry) elements) outcome w w' := by
  induction h with
  | nil => exact ⟨rfl, (List.append_nil _).symm, .refl⟩
  | @stop e rest error w w' h =>
    rw [Element.inTurn]
    have hquiet := h.quiet
    cases hresult : resolve w.shared.registry e with
    | ok p =>
      rw [hresult] at h
      exact nomatch h.of_ok.1
    | error found =>
      rw [hresult] at h
      exact ⟨h.of_error.1, h.of_error.2.trans (List.append_nil _).symm, hquiet⟩
  | @next e rest outcome w w₁ w' h _ ih =>
    rw [Element.inTurn]
    have hquiet := h.quiet
    cases hresult : resolve w.shared.registry e with
    | error found =>
      rw [hresult] at h
      exact nomatch h.of_error.1
    | ok p =>
      -- The registries stay, so the rest comes to the same after the first element.
      rw [hresult] at h
      rw [hquiet.registry_eq] at ih
      refine ⟨ih.outcome_eq, ?_, hquiet.trans ih.quiet⟩
      rw [ih.focus_eq, h.of_ok.2, List.append_assoc, List.singleton_append]

/-- What comes out of elements is dropped without a word: it has no contexts. -/
theorem drop_inTurn_inside (known : Kind → Registry) (elements : List Element) :
    releases (Element.inTurn (Element.resolveInside known) elements).1 = [] := by
  induction elements with
  | nil => rfl
  | cons e rest ih =>
    rw [Element.inTurn]
    cases hresult : Element.resolveInside known e with
    | error error => rfl
    | ok pass =>
      have hpass : pass.drop = [] := by
        unfold Element.resolveInside at hresult
        split at hresult
        · rw [← Except.ok.inj hresult, Pass.drop, Opaque.drop_null]
        · contradiction
      exact List.append_eq_nil_iff.2 ⟨hpass, ih⟩

/-! ## Single elements -/

variable {b : Builder}

theorem ensures_offer_comes (hb : b.Installed) (w : World (List (Pass J))) :
    (offer code kind name (b.parsingOf kind)).Ensures w
      (fun found w' ↦ found = ((w.shared.registry kind).pass? name).isSome ∧
        w'.focus = w.focus ++
          ((w.shared.registry kind).pass? name).toList.map (.foreign name · .null) ∧
        Quiet w.shared w'.shared)
      fun _ _ ↦ False := by
  refine ((ensures_offer_registry (hb.ne_nil kind) (hb.registry kind) w).and
    (ensures_offer_quiet (hb.registry kind) w)).mono ?_ fun _ _ h ↦ h.1
  rintro found w' ⟨⟨hfound, hfocus⟩, hquiet⟩
  exact ⟨hfound, hfocus, hquiet⟩

theorem ensures_elaborateFunction_comes (hb : b.Installed) (e : Element)
    (w : World FunctionPipeline) :
    (b.elaborateFunction code e).Ensures w
      (fun outcome w' ↦ Comes (Element.resolveInside w.shared.registry e) outcome w w')
      fun _ _ ↦ False := by
  rw [elaborateFunction, ensures_bind]
  refine (ensures_offer_comes hb w).mono ?_ fun _ _ h ↦ h
  rintro found w' ⟨hfound, hfocus, hquiet⟩
  rw [Element.resolveInside]
  cases hentry : (w.shared.registry .function).pass? e.name with
  | none =>
    rw [hentry] at hfound hfocus
    subst hfound
    exact ⟨rfl, hfocus, hquiet⟩
  | some entry =>
    rw [hentry] at hfound hfocus
    subst hfound
    exact ⟨rfl, hfocus, hquiet⟩

/-- What was built apart comes to a station, and what it leaves is dropped without a word. -/
theorem ensures_adaptOrDrop_comes {passes : FunctionPipeline}
    {outcome : Except Pipeline.Error Unit} {w w₁ : World ModulePipeline}
    (hpasses : releases passes = []) (hsame : w₁.focus = w.focus)
    (hquiet : Quiet w.shared w₁.shared) :
    (adaptOrDrop passes outcome).Ensures w₁
      (fun outcome' w' ↦ Comes (outcome.map fun _ ↦ Pass.perFunction passes) outcome' w w')
      fun _ _ ↦ False := by
  cases outcome with
  | ok _ =>
    simp only [adaptOrDrop, append, ensures_bind, ensures_modifyFocus, ensures_pure]
    exact ⟨rfl, by rw [hsame]; rfl, hquiet⟩
  | error error =>
    simp only [adaptOrDrop, ensures_bind, ensures_discard, ensures_pure, hpasses, List.map_nil,
      List.append_nil]
    exact ⟨rfl, by rw [hsame]; exact (List.append_nil _).symm, hquiet⟩

theorem ensures_elaborate_adapter_comes (hb : b.Installed) {e : Element} (he : e.IsAdapter)
    (w : World ModulePipeline) :
    (b.elaborate code e).Ensures w
      (fun outcome w' ↦ Comes (Element.resolve w.shared.registry e) outcome w w')
      fun _ _ ↦ False := by
  rw [elaborate_adapter he, ensures_bind, ensures_building]
  refine (ensures_elaborateFunctions_inTurn (ensures_elaborateFunction_comes hb) e.children _).mono
    ?_ fun _ _ h ↦ h
  intro outcome w₁ hturn
  have hinside := hturn.comes
  have hpasses : w₁.focus = (Element.inTurn (Element.resolveInside w.shared.registry) e.children).1 :=
    hinside.focus_eq
  have hresolve : Element.resolve w.shared.registry e =
      outcome.map fun _ ↦ Pass.perFunction w₁.focus := by
    rw [Element.resolve, if_pos he, hinside.outcome_eq, hpasses]
    dsimp only
    generalize Element.inTurn (Element.resolveInside w.shared.registry) e.children = result
    obtain ⟨passes, _ | _⟩ := result <;> rfl
  rw [hresolve]
  refine ensures_adaptOrDrop_comes ?_ rfl hinside.quiet
  rw [hpasses]
  exact drop_inTurn_inside _ _

theorem ensures_elaborate_name_comes (hb : b.Installed) {e : Element} (hgroup : ¬e.IsGroup)
    (hadapter : ¬e.IsAdapter) (w : World ModulePipeline) :
    (b.elaborate code e).Ensures w
      (fun outcome w' ↦ Comes (Element.resolve w.shared.registry e) outcome w w')
      fun _ _ ↦ False := by
  rw [elaborate_name hgroup hadapter, ensures_bind]
  refine (ensures_offer_comes hb w).mono ?_ fun _ _ h ↦ h
  rintro found w₁ ⟨hfound, hfocus, hquiet⟩
  rw [Element.resolve, if_neg hadapter]
  cases hmodule : (w.shared.registry .module).pass? e.name with
  | some entry =>
    rw [hmodule] at hfound hfocus
    subst hfound
    exact ⟨rfl, hfocus, hquiet⟩
  | none =>
    rw [hmodule] at hfound hfocus
    subst hfound
    -- Not known over modules: the name is offered once more, to passes that are built apart.
    change Ensures (building _ >>= _) w₁ _ _
    rw [ensures_bind, ensures_building]
    refine (ensures_offer_comes hb _).mono ?_ fun _ _ h ↦ h
    rintro found w₂ ⟨hfound, hpasses, hquiet₂⟩
    dsimp only at hfound hpasses hquiet₂
    rw [hquiet.registry_eq] at hfound hpasses
    have hsame : w₁.focus = w.focus := hfocus.trans (List.append_nil _)
    have hadapted (outcome : Except Pipeline.Error Unit) (hreleases : releases w₂.focus = []) :
        (adaptOrDrop w₂.focus outcome).Ensures ⟨w₂.shared, w₁.focus⟩
          (fun outcome' w' ↦ Comes (outcome.map fun _ ↦ Pass.perFunction w₂.focus) outcome' w w')
          fun _ _ ↦ False :=
      ensures_adaptOrDrop_comes hreleases hsame (hquiet.trans hquiet₂)
    rw [Element.resolveInside]
    cases hfunction : (w.shared.registry .function).pass? e.name with
    | none =>
      rw [hfunction] at hfound hpasses
      subst hfound
      exact hadapted _ (by rw [hpasses]; rfl)
    | some entry =>
      rw [hfunction] at hfound hpasses
      subst hfound
      have hcomes := hadapted (.ok ()) (by rw [hpasses]; rfl)
      rw [hpasses] at hcomes ⊢
      exact hcomes

/-! ## Texts -/

theorem ensures_elaborateAll_comes (hb : b.Installed) (elements : List Element)
    (w : World ModulePipeline) :
    (b.elaborateAll code elements).Ensures w
      (fun outcome w' ↦
        ComesInTurn (Element.resolveAll w.shared.registry elements) outcome w w')
      fun _ _ ↦ False := by
  rw [← elaborateAll_stationsOf elements]
  refine (ensures_elaborateAll_inTurn (fun e he w ↦ ?_) w).mono (fun _ _ h ↦ h.comes)
    fun _ _ h ↦ h
  by_cases hadapter : e.IsAdapter
  · exact ensures_elaborate_adapter_comes hb hadapter w
  · have hgroup := Element.not_isGroup_of_mem_stationsOf elements e he
    exact ensures_elaborate_name_comes hb hgroup hadapter w

/-- What a text adds and whether it is accepted is what it comes to, and nothing is said. -/
theorem ensures_elaborateText_comes (hb : b.Installed) (text : String)
    (w : World ModulePipeline) :
    (b.elaborateText code text).Ensures w
      (fun outcome w' ↦ ComesInTurn (Pipeline.resolve w.shared.registry text) outcome w w')
      fun _ _ ↦ False := by
  rw [elaborateText, Pipeline.resolve]
  cases Pipeline.parse text with
  | error error => exact ⟨rfl, (List.append_nil _).symm, .refl⟩
  | ok elements => exact ensures_elaborateAll_comes hb elements w

end Builder

end ForeignPasses
