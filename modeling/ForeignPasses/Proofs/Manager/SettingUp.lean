import ForeignPasses.Proofs.Demo.Counting
import ForeignPasses.Proofs.Manager.Reached
import ForeignPasses.Session.Run

/-!
# Managers that are set up

The callbacks of a builder register analyses with a manager of functions and with one of modules,
and none of them takes anything away. Then the first manager is attached to the second if the key
for it is free. Otherwise it is dropped with all its analyses, and what was attached before stays.
-/

namespace ForeignPasses

open Exec

/-! ## Analyses that come in -/

namespace Manager

variable {S : Type} {m : Manager S} {key : Key}

/-- Analyses come one after the other, each unless its key is taken. -/
def acceptAll (m : Manager S) (entries : List (Key × Analysis S)) : Manager S :=
  entries.foldl (fun m e ↦ m.accept e.1 e.2) m

theorem acceptAll_append (m : Manager S) (entries entries' : List (Key × Analysis S)) :
    m.acceptAll (entries ++ entries') = (m.acceptAll entries).acceptAll entries' :=
  List.foldl_append

theorem enrol_eq_acceptAll (m : Manager S) (entries : List (Key × Entry)) :
    m.enrol entries = m.acceptAll (entries.map fun e ↦ (e.1, .foreign e.2 .null)) := by
  rw [enrol, acceptAll, List.foldl_map]

theorem results_accept (m : Manager S) (key : Key) (analysis : Analysis S) :
    (m.accept key analysis).results = m.results := by
  unfold accept
  split <;> rfl

theorem results_acceptAll (m : Manager S) (entries : List (Key × Analysis S)) :
    (m.acceptAll entries).results = m.results := by
  induction entries generalizing m with
  | nil => rfl
  | cons e rest ih => exact (ih (m.accept e.1 e.2)).trans (m.results_accept e.1 e.2)

theorem find?_accept (m : Manager S) (key other : Key) (analysis : Analysis S) :
    (m.accept key analysis).analyses.find? other =
      (m.analyses.find? other).or (if other = key then some ⟨analysis, false⟩ else none) := by
  unfold accept
  split
  · rename_i hregistered
    obtain ⟨r, hfind⟩ := Option.isSome_iff_exists.1 hregistered
    split
    · rename_i hsame
      rw [hsame, hfind, Option.some_or]
    · rw [Option.or_none]
  · rename_i hfree
    rw [Table.find?_insert]
    split
    · rename_i hsame
      have hnone : m.analyses.find? other = none := by
        rw [hsame, ← Option.not_isSome_iff_eq_none]
        exact hfree
      rw [hnone, Option.none_or]
    · rw [Option.or_none]

/-- What was there stays, and under a free key the first analysis that comes is there then. -/
theorem find?_acceptAll (m : Manager S) (entries : List (Key × Analysis S)) (key : Key) :
    (m.acceptAll entries).analyses.find? key =
      (m.analyses.find? key).or ((entries.lookup key).map fun analysis ↦ ⟨analysis, false⟩) := by
  induction entries generalizing m with
  | nil => exact Option.or_none.symm
  | cons e rest ih =>
    obtain ⟨k, analysis⟩ := e
    change ((m.accept k analysis).acceptAll rest).analyses.find? key = _
    rw [ih, find?_accept, Option.or_assoc, List.lookup_cons]
    by_cases hsame : key = k
    · simp [hsame]
    · simp [beq_false_of_ne hsame, hsame]

theorem find?_acceptAll_of_find? {r : Registered S} (h : m.analyses.find? key = some r)
    (entries : List (Key × Analysis S)) : (m.acceptAll entries).analyses.find? key = some r := by
  rw [find?_acceptAll, h, Option.some_or]

theorem isRegistered_acceptAll_of_isRegistered (h : m.isRegistered key = true)
    (entries : List (Key × Analysis S)) : (m.acceptAll entries).isRegistered key = true := by
  obtain ⟨r, hr⟩ := Option.isSome_iff_exists.1 h
  exact Option.isSome_iff_exists.2 ⟨r, find?_acceptAll_of_find? hr entries⟩

theorem isRegistered_acceptAll (m : Manager S) {entries : List (Key × Analysis S)}
    {e : Key × Analysis S} (he : e ∈ entries) : (m.acceptAll entries).isRegistered e.1 = true := by
  induction entries generalizing m with
  | nil => contradiction
  | cons first rest ih =>
    rcases List.mem_cons.1 he with rfl | he
    · exact isRegistered_acceptAll_of_isRegistered (m.isRegistered_accept e.1 e.2) rest
    · exact ih (m.accept first.1 first.2) he

/-- A key stays free if nothing comes under it. -/
theorem find?_acceptAll_eq_none (hfree : m.analyses.find? key = none)
    {entries : List (Key × Analysis S)} (h : ∀ e ∈ entries, e.1 ≠ key) :
    (m.acceptAll entries).analyses.find? key = none := by
  rw [find?_acceptAll, hfree, Option.none_or, Option.map_eq_none_iff, List.lookup_eq_none_iff]
  intro e he
  exact bne_iff_ne.2 (h e he).symm

/-- Nothing is cached under a key that is free. -/
theorem Tidy.find?_eq_none {good : S → Prop} (h : m.Tidy good)
    (hfree : m.analyses.find? key = none) (id : UnitId) : m.results.find? (id, key) = none := by
  cases hfind : m.results.find? (id, key) with
  | none => rfl
  | some r =>
    obtain ⟨analysis, houtline, -⟩ := h.fits _ r hfind
    rw [outline, hfree] at houtline
    cases houtline

/-- What is cached under the proxy key is the manager that is attached. -/
theorem Tidy.eq_attached {good : S → Prop} (h : m.Tidy good) {inner : S}
    (hattached : m.attached? = some inner) {id : UnitId} {r : Result}
    (hr : m.results.find? (id, .proxy) = some r) : r = .attached := by
  obtain ⟨analysis, houtline, hfits⟩ := h.fits _ r hr
  obtain rfl := Option.some.inj ((outline_proxy hattached).symm.trans houtline)
  cases r with
  | attached => rfl
  | foreign _ | native _ => cases hfits

theorem Rests.eq_false (h : m.Rests) {analysis : Analysis S} {running : Bool}
    (hfind : m.analyses.find? key = some ⟨analysis, running⟩) : running = false := by
  cases running with
  | false => rfl
  | true => exact absurd (profile_of_find? hfind) (h key)

end Manager

/-! ## What callbacks bring -/

/-- A callback registers analyses under permitted keys alone. -/
def Enrol.Names (permitted : Key → Prop) : Enrol → Prop
  | .say _ => True
  | .register key _ _ => ∀ k, key = some k → permitted k

/-- A hook brings analyses under permitted keys alone, if the registry is as it is. -/
def Hook.Names (code : Code) (known : Registry) (permitted : Key → Prop) : Hook → Prop
  | .foreign s => (code.enrolment s.callback s.context.content?).AsksOnly (Enrol.Names permitted)
  | .registry => ∀ e ∈ known.analyses.entries, permitted e.1

/-- Every callback brings analyses under some keys. -/
theorem Hook.names_any (code : Code) (known : Registry) (hook : Hook) :
    hook.Names code known fun _ ↦ True := by
  cases hook with
  | registry => exact fun _ _ ↦ trivial
  | foreign s =>
    refine Program.asksOnly_of_forall (fun q ↦ ?_) _
    cases q with
    | say text => trivial
    | register key entry context => exact fun _ _ ↦ trivial

/-- Some analyses have come in, all under permitted keys, and the registries are as before. -/
structure Exec.Fills {S : Type} (permitted : Key → Prop) (entries : List (Key × Analysis S))
    (w w' : World (Manager S)) : Prop where
  named : ∀ e ∈ entries, permitted e.1
  focus : w'.focus = w.focus.acceptAll entries
  registry : w'.shared.registry = w.shared.registry

namespace Exec.Fills

variable {S : Type} {permitted : Key → Prop} {entries entries' : List (Key × Analysis S)}
  {w w' w'' : World (Manager S)}

theorem of_eq (hfocus : w'.focus = w.focus) (hregistry : w'.shared.registry = w.shared.registry) :
    Fills permitted [] w w' :=
  ⟨by simp, hfocus, hregistry⟩

theorem refl : Fills permitted [] w w := .of_eq rfl rfl

theorem trans (h : Fills permitted entries w w') (h' : Fills permitted entries' w' w'') :
    Fills permitted (entries ++ entries') w w'' where
  named := List.forall_mem_append.2 ⟨h.named, h'.named⟩
  focus := by rw [h'.focus, h.focus, Manager.acceptAll_append]
  registry := h'.registry.trans h.registry

theorem single {key : Key} (hkey : permitted key) (analysis : Analysis S)
    (hfocus : w'.focus = w.focus.accept key analysis)
    (hregistry : w'.shared.registry = w.shared.registry) :
    Fills permitted [(key, analysis)] w w' where
  named := by simpa using hkey
  focus := hfocus
  registry := hregistry

end Exec.Fills

namespace Tier

variable {β I S : Type} [Owner S] {tier : Tier β I S} {permitted : Key → Prop}
  {w : World (Manager S)}

theorem ensures_registerForeign_registry (key : Key) (entry : Entry) (context : Opaque String) :
    (tier.access.registerForeign key entry context).Ensures w
      (fun _ w' ↦ w'.shared.registry = w.shared.registry) fun _ _ ↦ False := by
  simp only [Access.registerForeign, Access.register, Flavour.resolve, bind_assoc]
  apply Access.ensures_resolved
  simp only [Access.registerAt, ensures_bind, Access.ensures_held, ensures_debug]
  have hregistry : (Access.inScope tier.access.kind key w).shared.registry = w.shared.registry :=
    Shared.registry_setSlot w.shared _ _
  split
  all_goals
    simp only [ensures_bind, ensures_discard, Access.ensures_modifyHeld, ensures_pure]
    exact (Shared.registry_setSlot _ _ _).trans hregistry

theorem ensures_registerForeign_fills {key : Key} (hkey : permitted key) (entry : Entry)
    (context : Opaque String) :
    (tier.access.registerForeign key entry context).Ensures w
      (fun _ w' ↦ Fills permitted [(key, .foreign entry context)] w w') fun _ _ ↦ False := by
  refine ((Access.ensures_registerForeign key entry context).and
    (ensures_registerForeign_registry key entry context)).mono ?_ fun _ _ h ↦ h.1
  rintro _ w' ⟨⟨hentered, -⟩, hregistry⟩
  exact .single hkey _ (eq_accept hentered) hregistry

/-- A callback that names no key ends everything. -/
theorem ensures_answerEnrol_fills {q : Enrol} (hq : q.Names permitted) :
    (tier.answerEnrol q).Ensures w (fun _ w' ↦ ∃ entries, Fills permitted entries w w')
      fun e _ ↦ e = .fatal .nullKey := by
  cases q with
  | say text => exact ⟨[], .of_eq rfl rfl⟩
  | register key entry context =>
    change (tier.access.boundaryRegister key entry context).Ensures w
      (fun _ w' ↦ ∃ entries, Fills permitted entries w w') fun e _ ↦ e = .fatal .nullKey
    simp only [Access.boundaryRegister, ensures_bind, ensures_adopt]
    cases key with
    | none => exact rfl
    | some key =>
      simp only [ensures_boundary]
      refine (ensures_registerForeign_fills (hq key rfl) entry _).mono ?_ fun _ _ h ↦ h.elim
      rintro _ w' ⟨hnamed, hfocus, hregistry⟩
      exact ⟨_, hnamed, hfocus, hregistry⟩

theorem ensures_registerAll_fills {entries : List (Key × Entry)}
    (hnamed : ∀ e ∈ entries, permitted e.1) :
    (tier.registerAll entries).Ensures w
      (fun _ w' ↦ Fills permitted (entries.map fun e ↦ (e.1, .foreign e.2 .null)) w w')
      fun _ _ ↦ False := by
  induction entries generalizing w with
  | nil => exact .refl
  | cons e rest ih =>
    obtain ⟨hfirst, hrest⟩ := List.forall_mem_cons.1 hnamed
    rw [registerAll, ensures_bind]
    refine (ensures_registerForeign_fills hfirst e.2 .null).mono ?_ fun _ _ h ↦ h
    intro _ w₁ hfills
    exact (ih hrest).imp fun _ _ h ↦ hfills.trans h

/-- A manager knows every analysis of a registry. -/
def Covers (known : Registry) (entries : List (Key × Analysis S)) : Prop :=
  ∀ e ∈ known.analyses.entries, ∃ analysis, (e.1, analysis) ∈ entries

theorem ensures_enrol_fills {code : Code} {hook : Hook}
    (hhook : hook.Names code (w.shared.registry tier.kind) permitted) :
    (hook.enrol code tier).Ensures w
      (fun _ w' ↦ ∃ entries, Fills permitted entries w w' ∧
        (hook = .registry → Covers (w.shared.registry tier.kind) entries))
      fun e _ ↦ e = .fatal .nullKey := by
  cases hook with
  | registry =>
    simp only [Hook.enrol, enrolRegistry, ensures_bind, ensures_shared]
    refine (ensures_registerAll_fills hhook).mono ?_ fun _ _ h ↦ h.elim
    intro _ w' hfills
    exact ⟨_, hfills, fun _ e he ↦ ⟨_, List.mem_map_of_mem he⟩⟩
  | foreign s =>
    simp only [Hook.enrol, ensures_boundary]
    have hanswer (q : Enrol) (w₁ : World (Manager S))
        (h : ∃ entries, Fills permitted entries w w₁) (hq : q.Names permitted) :
        (tier.answerEnrol q).Ensures w₁ (fun _ w₂ ↦ ∃ entries, Fills permitted entries w w₂)
          fun e _ ↦ e = .fatal .nullKey := by
      obtain ⟨entries, hfills⟩ := h
      refine (ensures_answerEnrol_fills hq).imp ?_
      rintro _ w₂ ⟨entries', hfills'⟩
      exact ⟨_, hfills.trans hfills'⟩
    refine (Program.ensures_run_of_asksOnly hanswer hhook ⟨[], .refl⟩).mono ?_ ?_
    · rintro _ w' ⟨entries, hfills⟩
      refine ⟨entries, hfills, fun h ↦ ?_⟩
      cases h
    · rintro _ _ rfl
      rfl

theorem ensures_enrolAll_fills {code : Code} {hooks : List Hook}
    (hhooks : ∀ hook ∈ hooks, hook.Names code (w.shared.registry tier.kind) permitted) :
    (Builder.enrolAll code tier hooks).Ensures w
      (fun _ w' ↦ ∃ entries, Fills permitted entries w w' ∧
        (.registry ∈ hooks → Covers (w.shared.registry tier.kind) entries))
      fun e _ ↦ e = .fatal .nullKey := by
  induction hooks generalizing w with
  | nil => exact ⟨[], .refl, fun h ↦ nomatch h⟩
  | cons hook rest ih =>
    obtain ⟨hfirst, hrest⟩ := List.forall_mem_cons.1 hhooks
    rw [Builder.enrolAll, ensures_bind]
    refine (ensures_enrol_fills hfirst).imp ?_
    rintro _ w₁ ⟨entries, hfills, hcovers⟩
    rw [← hfills.registry] at hrest hcovers ⊢
    refine (ih hrest).imp ?_
    rintro _ w₂ ⟨entries', hfills', hcovers'⟩
    refine ⟨entries ++ entries', hfills.trans hfills', fun hmem e he ↦ ?_⟩
    rcases List.mem_cons.1 hmem with rfl | hmem
    · obtain ⟨analysis, hanalysis⟩ := hcovers rfl e he
      exact ⟨analysis, List.mem_append_left _ hanalysis⟩
    · obtain ⟨analysis, hanalysis⟩ := hcovers' hmem e he
      exact ⟨analysis, List.mem_append_right _ hanalysis⟩

end Tier

/-! ## The manager that is attached -/

namespace Code

variable {code : Code}

/-- The manager of functions that foreign code gets for a module. -/
def functionManagerFor (code : Code) (m : Module) :
    Exec ModuleManager (Option FunctionManager) := do
  code.moduleTier.access.boundaryAttached code.moduleTier.fetch m
  return (← focus).attached?

open Session in
/-- Sessions hand it out in the same way. -/
theorem holdAttached_eq (manager name : String) :
    holdAttached code manager name = (do
      let mam ← require Objects.moduleManagers manager
      let m ← require Objects.modules name
      let attached ← on mam (putModuleManager manager) (code.functionManagerFor m)
      match attached with
      | some inner =>
        return ⟨inner, fun inner o ↦
          { o with moduleManagers := o.moduleManagers.modify manager (·.setAttached inner) }⟩
      | none => throw (.noSuch manager)) :=
  rfl

theorem ensures_functionManagerFor {functions : FunctionManager} {w : World ModuleManager}
    (hanalysis : w.focus.analyses.find? .proxy = some ⟨.attached functions, false⟩)
    (hheld : ∀ id r, w.focus.results.find? (id, .proxy) = some r → r = .attached) (m : Module) :
    (code.functionManagerFor m).Ensures w (fun found _ ↦ found = some functions)
      fun _ _ ↦ False := by
  have hregistered : (code.moduleTier.access.manager w.focus).isRegistered .proxy = true := by
    change w.focus.analyses.contains .proxy = true
    rw [Table.contains, hanalysis]
    rfl
  simp only [functionManagerFor, Access.boundaryAttached, ensures_bind, ensures_boundary,
    Access.ensures_held, hregistered]
  refine (Demo.ensures_fetch_attached hanalysis (hheld m.id)).imp ?_
  intro _ w' hlooked
  simp only [ensures_focus, ensures_pure]
  rw [Manager.attached?, hlooked.analyses_eq, hanalysis]

end Code

namespace Builder

variable {code : Code} {b : Builder} {permitted : Key → Prop}

/-- The plugin has been loaded, with any other callbacks before and after. -/
def EnrolsRegistries (b : Builder) : Prop := ∀ kind, .registry ∈ b.enrolmentOf kind

/-- Both managers keep what they had and know what the registries know, and the one of functions
comes to the proxy key as another analysis would. -/
theorem ensures_setUp_fills (hb : b.EnrolsRegistries) (functions : FunctionManager)
    (w : World ModuleManager)
    (hnames : ∀ hook ∈ b.enrolmentOf .module,
      hook.Names code (w.shared.registry .module) permitted) :
    (b.setUp code functions).Ensures w
      (fun _ w' ↦ ∃ brought held,
        Tier.Covers (w.shared.registry .function) brought ∧
        Tier.Covers (w.shared.registry .module) held ∧ (∀ e ∈ held, permitted e.1) ∧
        w'.focus =
          (w.focus.acceptAll held).accept .proxy (.attached (functions.acceptAll brought)))
      fun e _ ↦ e = .fatal .nullKey := by
  simp only [setUp, ensures_bind, ensures_zoom, ensures_focus, ensures_pure]
  refine (Tier.ensures_enrolAll_fills (w := ⟨w.shared, functions⟩) fun hook _ ↦
    hook.names_any code (w.shared.registry .function)).imp ?_
  rintro _ w₁ ⟨brought, hfills, hcovers⟩
  have hregistry : w₁.shared.registry = w.shared.registry := hfills.registry
  rw [← hregistry] at hnames
  refine (Tier.ensures_enrolAll_fills (w := ⟨w₁.shared, w.focus⟩) hnames).imp ?_
  rintro _ w₂ ⟨held, hfills₂, hcovers₂⟩
  simp only [Tier.attach, Access.register, Flavour.resolve, ensures_bind, ensures_pure]
  refine (Access.ensures_registerAt .proxy _).mono ?_ fun _ _ h ↦ h.elim
  rintro _ w₃ ⟨hentered, -⟩
  refine ⟨brought, held, hcovers (hb .function), ?_, hfills₂.named, ?_⟩
  · rw [← hregistry]
    exact hcovers₂ (hb .module)
  · rw [Tier.eq_accept hentered, hfills₂.focus, hfills.focus]

/-- What a manager knows after it has been filled. -/
theorem isRegistered_of_covers {S : Type} {m : Manager S} {known : Registry}
    {entries : List (Key × Analysis S)} (hcovers : Tier.Covers known entries) {key : Key}
    (h : m.isRegistered key = true ∨ key ∈ known.analyses.keys) :
    (m.acceptAll entries).isRegistered key = true := by
  rcases h with h | h
  · exact Manager.isRegistered_acceptAll_of_isRegistered h entries
  · obtain ⟨e, he, rfl⟩ := List.mem_map.1 h
    obtain ⟨analysis, hanalysis⟩ := hcovers e he
    exact m.isRegistered_acceptAll hanalysis

/-- A builder with the plugin sets up a manager of modules. It then knows what it knew before and
what the registry knows. If its proxy key was free, and no callback for modules takes it, then every
module gets the manager of functions that was handed over, with all that it and the registry know.
If a manager of functions had been attached before, then every module still gets that one. -/
theorem setUp_reaches (hb : b.EnrolsRegistries) (functions : FunctionManager)
    (w : World ModuleManager) (hw : code.ReachesModules w.focus) :
    (b.setUp code functions).Ensures w
      (fun _ w' ↦
        (∀ key, w.focus.isRegistered key = true ∨
            key ∈ (w.shared.registry .module).analyses.keys → w'.focus.isRegistered key = true) ∧
        (w.focus.isRegistered .proxy = false →
          (∀ hook ∈ b.enrolmentOf .module,
            hook.Names code (w.shared.registry .module) (· ≠ .proxy)) →
          ∀ m s, (code.functionManagerFor m).Ensures ⟨s, w'.focus⟩
            (fun found _ ↦ ∃ reached, found = some reached ∧
              ∀ key, functions.isRegistered key = true ∨
                key ∈ (w.shared.registry .function).analyses.keys →
                  reached.isRegistered key = true)
            fun _ _ ↦ False) ∧
        ∀ old, w.focus.attached? = some old →
          ∀ m s, (code.functionManagerFor m).Ensures ⟨s, w'.focus⟩
            (fun found _ ↦ found = some old) fun _ _ ↦ False)
      fun e _ ↦ e = .fatal .nullKey := by
  obtain ⟨htidy, hrests⟩ := hw.tidy_and_rests
  let spares := ∀ hook ∈ b.enrolmentOf .module,
    hook.Names code (w.shared.registry .module) (· ≠ .proxy)
  have hsetUp : (b.setUp code functions).Ensures w
      (fun _ w' ↦ ∃ brought held,
        Tier.Covers (w.shared.registry .function) brought ∧
        Tier.Covers (w.shared.registry .module) held ∧
        (spares → ∀ e ∈ held, e.1 ≠ .proxy) ∧
        w'.focus =
          (w.focus.acceptAll held).accept .proxy (.attached (functions.acceptAll brought)))
      fun e _ ↦ e = .fatal .nullKey := by
    by_cases hspares : spares
    · refine (ensures_setUp_fills hb functions w hspares).imp ?_
      rintro _ w' ⟨brought, held, hbrought, hheld, hnamed, hfocus⟩
      exact ⟨brought, held, hbrought, hheld, fun _ ↦ hnamed, hfocus⟩
    · refine (ensures_setUp_fills hb functions w fun hook _ ↦ hook.names_any code _).imp ?_
      rintro _ w' ⟨brought, held, hbrought, hheld, -, hfocus⟩
      exact ⟨brought, held, hbrought, hheld, fun h ↦ absurd h hspares, hfocus⟩
  refine hsetUp.imp ?_
  rintro _ w' ⟨brought, held, hbrought, hheld, hnamed, hfocus⟩
  have hresults : w'.focus.results = w.focus.results := by
    rw [hfocus, Manager.results_accept, Manager.results_acceptAll]
  refine ⟨fun key hkey ↦ ?_, fun hfree hspares m s ↦ ?_, fun old hold m s ↦ ?_⟩
  · rw [hfocus]
    exact Manager.isRegistered_accept_of_isRegistered (isRegistered_of_covers hheld hkey) _ _
  · have hnone : w.focus.analyses.find? .proxy = none := by
      rw [← Option.not_isSome_iff_eq_none]
      exact Bool.eq_false_iff.1 hfree
    have hattached : w'.focus.analyses.find? .proxy =
        some ⟨.attached (functions.acceptAll brought), false⟩ := by
      rw [hfocus, Manager.find?_accept, Manager.find?_acceptAll_eq_none hnone (hnamed hspares),
        Option.none_or, if_pos rfl]
    refine (Code.ensures_functionManagerFor (w := ⟨s, w'.focus⟩) hattached ?_ m).imp ?_
    · intro id r hr
      rw [hresults, htidy.find?_eq_none hnone] at hr
      cases hr
    · rintro found _ rfl
      exact ⟨_, rfl, fun key hkey ↦ isRegistered_of_covers hbrought hkey⟩
  · obtain ⟨running, hfind⟩ := Manager.find?_of_attached? hold
    obtain rfl := hrests.eq_false hfind
    have hattached : w'.focus.analyses.find? .proxy = some ⟨.attached old, false⟩ := by
      rw [hfocus, Manager.find?_accept, Manager.find?_acceptAll_of_find? hfind, Option.some_or]
    refine Code.ensures_functionManagerFor (w := ⟨s, w'.focus⟩) hattached ?_ m
    intro id r hr
    rw [hresults] at hr
    exact htidy.eq_attached hold hr

end Builder

namespace Demo

/-- What is shared when the analyses have been registered. -/
def analysed : Shared where
  moduleRegistry := { unit := "module", analyses := Table.insert ∅ instructionCount 0 }
  functionRegistry := { unit := "function", analyses := Table.insert ∅ lengthKey 0 }

def extraKey : Key := .numbered 7

/-- A manager of functions with an analysis that the registry does not know. -/
def extended : FunctionManager := ({} : FunctionManager).accept extraKey (.native 0)

/-- A manager of modules that has got an empty manager of functions. -/
def equipped : ModuleManager := ((code.moduleTier.attach {}).ending ⟨analysed, {}⟩).focus

theorem enrolsRegistries_loaded : loaded.EnrolsRegistries := by
  intro kind
  cases kind <;> exact List.mem_singleton_self _

theorem setUp_reaches_extended :
    loaded.EnrolsRegistries ∧ code.ReachesModules {} ∧
    ∃ w', loaded.setUp code extended ⟨analysed, {}⟩ = .ok () w' ∧
      w'.focus.isRegistered instructionCount = true ∧
      ∀ m s, (code.functionManagerFor m).Ensures ⟨s, w'.focus⟩
        (fun found _ ↦ ∃ reached, found = some reached ∧ reached.isRegistered extraKey = true ∧
          reached.isRegistered lengthKey = true)
        fun _ _ ↦ False := by
  have hreached : code.ReachesModules {} := .empty
  have hreturns : (loaded.setUp code extended).Ensures ⟨analysed, {}⟩ (fun _ _ ↦ True)
      fun _ _ ↦ False := by
    decide +kernel
  have hspares : ∀ hook ∈ loaded.enrolmentOf .module,
      hook.Names code (analysed.registry .module) (· ≠ .proxy) := by
    intro hook hhook
    obtain rfl := List.mem_singleton.1 hhook
    change ∀ e ∈ (analysed.registry .module).analyses.entries, e.1 ≠ .proxy
    decide
  obtain ⟨_, w', hact, ⟨hknows, hgets, -⟩, -⟩ := ((Builder.setUp_reaches enrolsRegistries_loaded
    extended ⟨analysed, {}⟩ hreached).and hreturns).exists_ok fun _ _ h ↦ h.2
  refine ⟨enrolsRegistries_loaded, hreached, w', hact, hknows _ (.inr (by decide)), fun m s ↦ ?_⟩
  refine (hgets rfl hspares m s).imp ?_
  rintro found _ ⟨reached, rfl, hreached⟩
  exact ⟨reached, rfl, hreached extraKey (.inl (by decide)), hreached lengthKey (.inr (by decide))⟩

/-- A manager of modules keeps the manager of functions it has, and the extended one is lost. -/
theorem setUp_drops_extended :
    loaded.EnrolsRegistries ∧ code.ReachesModules equipped ∧
      extended.isRegistered extraKey = true ∧
      (do
        loaded.setUp code extended
        code.functionManagerFor ⟨0, "m", []⟩ : Exec ModuleManager _).Ensures ⟨analysed, equipped⟩
          (fun found _ ↦ found.map (·.isRegistered extraKey) = some false ∧
            found.map (·.isRegistered lengthKey) = some false)
          fun _ _ ↦ False := by
  refine ⟨enrolsRegistries_loaded, .attach .empty .empty analysed, by decide, ?_⟩
  decide +kernel

end Demo

end ForeignPasses
