import ForeignPasses.Demo
import ForeignPasses.Proofs.Preservation.Reports

/-!
# What an adapter leaves of the results for functions

An adapter runs foreign passes over the functions of a module one after the other. A function on
which none of them reports a change keeps its results until the adapter is done. What comes then is
an invalidation of the whole module by what was reported for all functions together: everything
stays if there was no change anywhere, and otherwise no function keeps a result.
-/

namespace ForeignPasses

open Exec

namespace Manager

variable {S : Type} {m : Manager S}

theorem attached?_setRunning (key : Key) (running : Bool) :
    (m.setRunning key running).attached? = m.attached? := by
  unfold attached? setRunning
  rw [Table.find?_modify]
  by_cases hkey : Key.proxy = key
  · rw [if_pos hkey]
    cases m.analyses.find? .proxy with
    | none => rfl
    | some registered =>
      obtain ⟨analysis, _⟩ := registered
      cases analysis <;> rfl
  · rw [if_neg hkey]

/-- Some units have no result under any registered key. -/
def Cleared (m : Manager S) (ids : List UnitId) : Prop :=
  ∀ id ∈ ids, ∀ key, m.isRegistered key = true → m.results.find? (id, key) = none

theorem Cleared.drop {m' : Manager S} {id : UnitId} {lost : Key → Bool} {ids : List UnitId}
    (hcleared : m.Cleared ids) (h : m.Dropped id lost m') : m'.Cleared ids := by
  intro id' hid key hkey
  rw [isRegistered_congr h.profile_eq] at hkey
  rw [h.find?_eq]
  split
  · rfl
  · exact hcleared id' hid key hkey

theorem cleared_of_dropped {m' : Manager S} {id : UnitId}
    (h : m.Dropped id (fun key ↦ m.isRegistered key && !Preserved.none.contains key) m') :
    m'.Cleared [id] := by
  intro id' hid key hkey
  rw [isRegistered_congr h.profile_eq] at hkey
  rw [h.find?_eq, if_pos]
  simp [hkey, List.mem_singleton.1 hid]

end Manager

namespace Tier

variable {β I S : Type} {tier : Tier β I S}

/-- Looking for the attached manager leaves it as it is. -/
theorem ensures_fetch_attached {u : CodeUnit β} {inner : S} {w : World (Manager S)}
    (hattached : w.focus.attached? = some inner) :
    (tier.fetch .attached u).Ensures w (fun _ w' ↦ w'.focus.attached? = some inner)
      fun _ _ ↦ True := by
  apply ensures_fetch_of
  intro answer
  refine (Access.ensures_requestAt answer .attached .proxy u).relax ?_
  rintro _ w' ⟨r, -, hobtained⟩
  cases hobtained with
  | found _ hfocus => rw [hfocus, hattached]
  | @computed analysis w₁ w₂ _ hanalysis hcompute hstarted _ hkept =>
    obtain ⟨running, hfind⟩ := Manager.find?_of_attached? hattached
    have hsame : (⟨.attached inner, running⟩ : Registered S) = ⟨analysis, false⟩ :=
      Option.some.inj (hfind.symm.trans hanalysis)
    obtain ⟨rfl, rfl⟩ := Registered.mk.inj hsame
    obtain ⟨rfl, rfl⟩ : Result.attached = r ∧ w₁ = w₂ := by
      cases hcompute
      exact ⟨rfl, rfl⟩
    rw [hkept, hstarted]
    change ((w.focus.setRunning .proxy true).setRunning .proxy false).attached? = some inner
    rw [Manager.attached?_setRunning, Manager.attached?_setRunning, hattached]

end Tier

namespace Code

variable {code : Code} {passes : FunctionPipeline}

/-! ## Reports on the functions of a module -/

/-- Passes that run over functions one after the other, those of the rest from now on, report a
status on the function with an identifier. -/
inductive ReportsOver (code : Code) (passes : FunctionPipeline) :
    Functions → Functions → World (Job Functions FunctionManager) → UnitId → Status → Prop where
  | here {before after : Functions} {f : Function} {w : World (Job Functions FunctionManager)}
      {manager : FunctionManager} {status : Status}
      (hattached : w.focus.manager.attached? = some manager)
      (h : code.functionTier.Reports (fun j ↦ nomatch j) passes ⟨w.shared, ⟨manager, f⟩⟩ status) :
      ReportsOver code passes before (f :: after) w f.id status
  | next {before after : Functions} {f : Function} {r : Preserved × Function}
      {w w₁ : World (Job Functions FunctionManager)} {id : UnitId} {status : Status}
      (hone : code.runOverOne passes before f after w = .ok r w₁)
      (h : ReportsOver code passes (before ++ [r.2]) after w₁ id status) :
      ReportsOver code passes before (f :: after) w id status

/-- An adapter that starts over a module reports a status on the function with an identifier. -/
def AdapterReports (code : Code) (passes : FunctionPipeline)
    (w : World (Job Functions FunctionManager)) (id : UnitId) (status : Status) : Prop :=
  ∃ w₁, Tier.onManager (code.moduleTier.fetch .attached w.focus.unit) w = .ok () w₁ ∧
    code.ReportsOver passes [] w.focus.unit.content w₁ id status

/-! ## The adapter itself -/

theorem ran_runOverOne (hpasses : Pass.AreForeign passes) {before after : Functions} {f : Function}
    {w : World (Job Functions FunctionManager)} {inner : FunctionManager}
    (hattached : w.focus.manager.attached? = some inner) :
    (code.runOverOne passes before f after).Ensures w
      (fun r w' ↦ ∃ inner', w'.focus.manager.attached? = some inner' ∧
        w'.focus.unit.content = before ++ r.2 :: after ∧
        Tier.Ran (code.functionTier.Reports (fun j ↦ nomatch j) passes ⟨w.shared, ⟨inner, f⟩⟩
          .nonePreserved) ⟨w.shared, ⟨inner, f⟩⟩ r.1 ⟨w'.shared, ⟨inner', r.2⟩⟩)
      fun _ _ ↦ True := by
  rw [ensures_runOverOne_iff hattached, ensures_runOverFunction_iff]
  refine (Tier.ran_runAll passes hpasses _).relax ?_
  intro preserved w₁ hran
  refine hran.invalidated.relax ?_
  intro _ w₂ hran'
  exact ⟨w₂.focus.manager, Manager.attached?_setAttached hattached _, rfl, hran'⟩

/-- What is reported is reported on the first function or later on. -/
theorem reportsOver_cons_iff {before after : Functions} {f : Function}
    {w w₁ : World (Job Functions FunctionManager)} {inner : FunctionManager}
    {r : Preserved × Function} (hattached : w.focus.manager.attached? = some inner)
    (hone : code.runOverOne passes before f after w = .ok r w₁) (id : UnitId) (status : Status) :
    code.ReportsOver passes before (f :: after) w id status ↔
      (id = f.id ∧
        code.functionTier.Reports (fun j ↦ nomatch j) passes ⟨w.shared, ⟨inner, f⟩⟩ status) ∨
      code.ReportsOver passes (before ++ [r.2]) after w₁ id status := by
  constructor
  · intro h
    cases h with
    | here hattached' h =>
      obtain rfl := Option.some.inj (hattached.symm.trans hattached')
      exact .inl ⟨rfl, h⟩
    | next hone' h =>
      rw [hone] at hone'
      cases hone'
      exact .inr h
  · rintro (⟨rfl, h⟩ | h)
    · exact .here hattached h
    · exact .next hone h

/-- What passes over functions leave, once they are through with the rest of them. -/
structure RanOver (code : Code) (passes : FunctionPipeline) (before rest : Functions)
    (w : World (Job Functions FunctionManager)) (inner : FunctionManager) (preserved : Preserved)
    (w' : World (Job Functions FunctionManager)) (inner' : FunctionManager) : Prop where
  attached : w'.focus.manager.attached? = some inner'
  ids : w'.focus.unit.content.map CodeUnit.id = (before ++ rest).map CodeUnit.id
  spares : inner.Spares (fun id ↦ ¬code.ReportsOver passes before rest w id .nonePreserved) inner'
  outcome : preserved = .ofStatus .nonePreserved ∧
      (∃ f ∈ rest, code.ReportsOver passes before rest w f.id .nonePreserved) ∨
    preserved = .ofStatus .allPreserved ∧
      ∀ id, ¬code.ReportsOver passes before rest w id .nonePreserved

/-- Passes over the first function, and then over the others. -/
theorem RanOver.cons {before after : Functions} {f g : Function}
    {w w₁ w₂ : World (Job Functions FunctionManager)} {inner inner₁ inner₂ : FunctionManager}
    {preserved preserved' : Preserved} (hattached : w.focus.manager.attached? = some inner)
    (hok : code.runOverOne passes before f after w = .ok (preserved, g) w₁)
    (hran : Tier.Ran (code.functionTier.Reports (fun j ↦ nomatch j) passes ⟨w.shared, ⟨inner, f⟩⟩
      .nonePreserved) ⟨w.shared, ⟨inner, f⟩⟩ preserved ⟨w₁.shared, ⟨inner₁, g⟩⟩)
    (hrest : code.RanOver passes (before ++ [g]) after w₁ inner₁ preserved' w₂ inner₂) :
    code.RanOver passes before (f :: after) w inner (preserved.inter preserved') w₂ inner₂ where
  attached := hrest.attached
  ids := by
    have hid : g.id = f.id := hran.id_eq
    rw [hrest.ids]
    simp [hid]
  spares := by
    have hfirst : inner.Spares
        (fun id ↦ ¬code.ReportsOver passes before (f :: after) w id .nonePreserved) inner₁ := by
      rcases hran.outcome with ⟨-, hreported⟩ | ⟨-, -, hspares⟩
      · apply hran.others.mono
        rintro id hid rfl
        exact hid (.here hattached hreported)
      · exact hspares.mono fun _ _ ↦ trivial
    exact hfirst.trans (hrest.spares.mono fun id hid h ↦ hid (.next hok h))
  outcome := by
    rcases hran.outcome with ⟨rfl, hreported⟩ | ⟨rfl, hnot, -⟩
    · left
      refine ⟨?_, f, by simp, .here hattached hreported⟩
      rcases hrest.outcome with ⟨rfl, -⟩ | ⟨rfl, -⟩ <;> rfl
    · rcases hrest.outcome with ⟨rfl, e, he, hreported⟩ | ⟨rfl, hnot'⟩
      · exact .inl ⟨rfl, e, List.mem_cons_of_mem f he, .next hok hreported⟩
      · refine .inr ⟨rfl, fun id h ↦ ?_⟩
        rcases (reportsOver_cons_iff hattached hok id _).1 h with ⟨-, h⟩ | h
        · exact hnot h
        · exact hnot' id h

theorem ranOver_runOverFunctions (hpasses : Pass.AreForeign passes) (before rest : Functions)
    {w : World (Job Functions FunctionManager)} {inner : FunctionManager}
    (hattached : w.focus.manager.attached? = some inner)
    (hids : w.focus.unit.content.map CodeUnit.id = (before ++ rest).map CodeUnit.id) :
    (code.runOverFunctions passes before rest).Ensures w
      (fun preserved w' ↦ ∃ inner', code.RanOver passes before rest w inner preserved w' inner')
      fun _ _ ↦ True := by
  induction rest generalizing before w inner with
  | nil => exact ⟨inner, hattached, hids, .refl, .inr ⟨rfl, fun id h ↦ nomatch h⟩⟩
  | cons f after ih =>
    rw [ensures_runOverFunctions_cons]
    refine ((ran_runOverOne hpasses hattached).and (Ensures.trivial _ _)).relax ?_
    rintro ⟨preserved, g⟩ w₁ ⟨⟨inner₁, hattached₁, hcontent, hran⟩, hok⟩
    have hids₁ : w₁.focus.unit.content.map CodeUnit.id =
        (before ++ [g] ++ after).map CodeUnit.id := by
      rw [hcontent]
      simp
    refine (ih (before ++ [g]) hattached₁ hids₁).relax ?_
    rintro preserved' w₂ ⟨inner₂, hrest⟩
    exact ⟨inner₂, .cons hattached hok hran hrest⟩

theorem ranOver_runPerFunction (hpasses : Pass.AreForeign passes)
    {w : World (Job Functions FunctionManager)} {inner : FunctionManager}
    (hattached : w.focus.manager.attached? = some inner) :
    (code.runPerFunction passes).Ensures w
      (fun preserved w' ↦ ∃ w₁ inner',
        Tier.onManager (code.moduleTier.fetch .attached w.focus.unit) w = .ok () w₁ ∧
        code.RanOver passes [] w.focus.unit.content w₁ inner preserved w' inner')
      fun _ _ ↦ True := by
  have hfetch : (Tier.onManager (code.moduleTier.fetch .attached w.focus.unit)).Ensures w
      (fun _ w₁ ↦ w₁.focus.manager.attached? = some inner ∧ w₁.focus.unit = w.focus.unit)
      fun _ _ ↦ True := by
    refine (Tier.ensures_onManager _).2 ((Tier.ensures_fetch_attached hattached).mono ?_ ?_)
    · exact fun _ _ h ↦ ⟨h, rfl⟩
    · exact fun _ _ _ ↦ trivial
  rw [ensures_runPerFunction_iff]
  refine (hfetch.and (Ensures.trivial _ _)).relax ?_
  rintro ⟨⟩ w₁ ⟨⟨hattached₁, hunit⟩, hok⟩
  refine (ranOver_runOverFunctions hpasses [] _ hattached₁ (by rw [hunit]; rfl)).relax ?_
  rintro preserved w₂ ⟨inner', hran⟩
  exact ⟨w₁, inner', hok, hran⟩

/-! ## The invalidation of the module -/

theorem cleared_invalidateFunctions (functions : Functions) (ids : List UnitId)
    (w : World FunctionManager) (hw : w.focus.Cleared ids) :
    (invalidateFunctions code .none functions).Ensures w
      (fun _ w' ↦ w'.focus.Cleared (ids ++ functions.map CodeUnit.id)) fun _ _ ↦ True := by
  induction functions generalizing ids w with
  | nil =>
    change w.focus.Cleared (ids ++ [])
    rwa [List.append_nil]
  | cons f rest ih =>
    rw [invalidateFunctions, ensures_bind]
    refine (Tier.ensures_invalidate_dropped f .none w).relax ?_
    intro _ w₁ hdropped
    have hboth : w₁.focus.Cleared (ids ++ [f.id]) := by
      intro id hid
      rcases List.mem_append.1 hid with hid | hid
      · exact hw.drop hdropped id hid
      · exact Manager.cleared_of_dropped hdropped id hid
    refine (ih (ids ++ [f.id]) w₁ hboth).relax ?_
    intro _ w₂ hcleared
    simpa using hcleared

/-- Telling the attached manager that nothing is preserved clears all functions of the module. -/
theorem cleared_notify (m : Module) (key : Key) (analysis : Analysis FunctionManager)
    {w : World ModuleManager} {inner : FunctionManager}
    (hattached : w.focus.attached? = some inner) :
    (code.moduleTier.notify m .none key analysis).Ensures w
      (fun _ w' ↦ ∃ inner', w'.focus.attached? = some inner' ∧
        (inner.Cleared (m.content.map CodeUnit.id) ∨ (∃ manager, analysis = .attached manager) →
          inner'.Cleared (m.content.map CodeUnit.id)))
      fun _ _ ↦ True := by
  cases analysis with
  | foreign entry context => exact ⟨inner, hattached, by simp⟩
  | native entry => exact ⟨inner, hattached, by simp⟩
  | attached manager =>
    rw [Tier.ensures_notify_attached hattached]
    have hnothing : inner.Cleared [] := List.forall_mem_nil _
    refine Ensures.relax (cleared_invalidateFunctions m.content [] ⟨_, inner⟩ hnothing) ?_
    intro _ w' hcleared
    exact ⟨w'.focus, Manager.attached?_setAttached hattached _, fun _ ↦ hcleared⟩

theorem cleared_invalidateEach (m : Module) (entries : List (Key × Registered FunctionManager))
    {w : World ModuleManager} {inner : FunctionManager}
    (hattached : w.focus.attached? = some inner) :
    (code.moduleTier.invalidateEach m .none entries).Ensures w
      (fun _ w' ↦ ∃ inner', w'.focus.attached? = some inner' ∧
        (inner.Cleared (m.content.map CodeUnit.id) ∨
            (∃ e ∈ entries, ∃ manager, e.2.analysis = .attached manager) →
          inner'.Cleared (m.content.map CodeUnit.id)))
      fun _ _ ↦ True := by
  induction entries generalizing w inner with
  | nil => exact ⟨inner, hattached, by simp⟩
  | cons e rest ih =>
    obtain ⟨key, registered⟩ := e
    apply Tier.ensures_invalidateEach_of
    case hkept =>
      intro hkey
      rw [Preserved.contains_none] at hkey
      cases hkey
    intro _
    refine Ensures.relax (cleared_notify m key registered.analysis hattached) ?_
    rintro _ w₁ ⟨inner₁, hattached₁, hnotified⟩
    refine (ih hattached₁).relax ?_
    rintro _ w₂ ⟨inner₂, hattached₂, hrest⟩
    refine ⟨inner₂, hattached₂, ?_⟩
    rintro (hcleared | ⟨e, he, hmanager⟩)
    · exact hrest (.inl (hnotified (.inl hcleared)))
    · rcases List.mem_cons.1 he with rfl | he
      · exact hrest (.inl (hnotified (.inr hmanager)))
      · exact hrest (.inr ⟨e, he, hmanager⟩)

theorem cleared_invalidateUnit {w : World (Job Functions FunctionManager)} {inner : FunctionManager}
    (hattached : w.focus.manager.attached? = some inner) :
    (code.moduleTier.invalidateUnit .none).Ensures w
      (fun _ w' ↦ ∃ inner', w'.focus.manager.attached? = some inner' ∧
        inner'.Cleared (w.focus.unit.content.map CodeUnit.id))
      fun _ _ ↦ True := by
  rw [Tier.ensures_invalidateUnit]
  refine Ensures.relax (cleared_invalidateEach w.focus.unit _ hattached) ?_
  rintro _ w' ⟨inner', hattached', hcleared⟩
  obtain ⟨running, hfind⟩ := Manager.find?_of_attached? hattached
  exact ⟨inner', hattached', hcleared (.inr ⟨_, Table.mem_entries.2 hfind, inner, rfl⟩)⟩

/-! ## A step with an adapter -/

/-- What becomes of the results for a function on which an adapter reports no change: `inner₁` is
there when the adapter is done, `inner'` after the step. -/
structure AdapterLeaves (code : Code) (passes : FunctionPipeline)
    (start : World (Job Functions FunctionManager)) (f : Function)
    (inner inner₁ inner' : FunctionManager) : Prop where
  adapter : ∀ key r, inner.results.find? (f.id, key) = some r →
    inner₁.results.find? (f.id, key) = some r
  unchanged : (∀ g ∈ start.focus.unit.content, ∀ status,
      code.AdapterReports passes start g.id status → status = .allPreserved) →
    ∀ key r, inner.results.find? (f.id, key) = some r → inner'.results.find? (f.id, key) = some r
  changed : (∃ g ∈ start.focus.unit.content, code.AdapterReports passes start g.id .nonePreserved) →
    ∀ key, inner'.isRegistered key = true → inner'.results.find? (f.id, key) = none

theorem adapterLeaves {start w₁ w' : World (Job Functions FunctionManager)}
    {preserved : Preserved} (hpasses : Pass.AreForeign passes) {inner : FunctionManager}
    (hattached : start.focus.manager.attached? = some inner)
    (hadapter : code.runPerFunction passes start = .ok preserved w₁)
    (hinvalidate : code.moduleTier.invalidateUnit preserved w₁ = .ok () w') {f : Function}
    (hf : f ∈ start.focus.unit.content)
    (hreports : ∀ status, code.AdapterReports passes start f.id status → status = .allPreserved) :
    ∃ inner₁ inner', w₁.focus.manager.attached? = some inner₁ ∧
      w'.focus.manager.attached? = some inner' ∧
      code.AdapterLeaves passes start f inner inner₁ inner' := by
  obtain ⟨w₀, inner₁, hfetch, hran⟩ := (ranOver_runPerFunction hpasses hattached).of_ok hadapter
  have hquiet : ¬code.ReportsOver passes [] start.focus.unit.content w₀ f.id .nonePreserved :=
    fun h ↦ nomatch hreports .nonePreserved ⟨w₀, hfetch, h⟩
  have hkept := hran.spares.kept f.id hquiet
  rcases hran.outcome with ⟨rfl, g, hg, hchanged⟩ | ⟨rfl, hnone⟩
  · obtain ⟨inner', hattached', hcleared⟩ :=
      (cleared_invalidateUnit hran.attached).of_ok hinvalidate
    refine ⟨inner₁, inner', hran.attached, hattached', hkept, fun hall ↦ ?_, fun _ ↦ ?_⟩
    · exact nomatch hall g hg .nonePreserved ⟨w₀, hfetch, hchanged⟩
    · apply hcleared
      rw [hran.ids]
      exact List.mem_map_of_mem hf
  · have hsame : (code.moduleTier.invalidateUnit .all).Ensures w₁ (fun _ w' ↦ w' = w₁)
        fun _ _ ↦ True := Tier.ensures_invalidateUnit_all rfl
    obtain rfl := hsame.of_ok hinvalidate
    refine ⟨inner₁, inner₁, hran.attached, hran.attached, hkept, fun _ ↦ hkept, ?_⟩
    rintro ⟨g, -, w₀', hfetch', hchanged⟩
    rw [hfetch] at hfetch'
    cases hfetch'
    exact absurd hchanged (hnone g.id)

/-- A function on which no foreign pass of an adapter reports a change keeps its results until the
adapter is done. After the step it has them if there was no change on any other function either. If
there was one, it has none. -/
theorem stage_perFunction_leaves (hpasses : Pass.AreForeign passes) {name : String}
    {w w' : World (Job Functions FunctionManager)} {preserved : Preserved}
    (hstep : code.moduleTier.stage name
      (code.moduleTier.runPass code.runPerFunction (.perFunction passes)) w = .ok preserved w')
    {inner : FunctionManager} (hattached : w.focus.manager.attached? = some inner) {f : Function}
    (hf : f ∈ w.focus.unit.content)
    (hreports : ∀ status, code.AdapterReports passes (Tier.announced name w) f.id status →
      status = .allPreserved) :
    ∃ w₁ inner₁ inner',
      code.runPerFunction passes (Tier.announced name w) = .ok preserved w₁ ∧
      w₁.focus.manager.attached? = some inner₁ ∧ w'.focus.manager.attached? = some inner' ∧
      code.AdapterLeaves passes (Tier.announced name w) f inner inner₁ inner' := by
  have hparts : (code.moduleTier.stage name
      (code.moduleTier.runPass code.runPerFunction (.perFunction passes))).Ensures w
      (fun preserved w' ↦ ∃ w₁,
        code.runPerFunction passes (Tier.announced name w) = .ok preserved w₁ ∧
        code.moduleTier.invalidateUnit preserved w₁ = .ok () w')
      fun _ _ ↦ True := by
    rw [Tier.ensures_stage, Tier.runPass]
    refine (Ensures.trivial _ _).relax ?_
    intro preserved w₁ hadapter
    refine (Ensures.trivial _ _).relax ?_
    exact fun _ w₂ hinvalidate ↦ ⟨w₁, hadapter, hinvalidate⟩
  obtain ⟨w₁, hadapter, hinvalidate⟩ := hparts.of_ok hstep
  have hstart : (Tier.announced name w).focus.manager.attached? = some inner := hattached
  obtain ⟨inner₁, inner', hleaves⟩ :=
    adapterLeaves hpasses hstart hadapter hinvalidate hf hreports
  exact ⟨w₁, inner₁, inner', hadapter, hleaves⟩

end Code

namespace Demo

/-! ## A function that did not change -/

def helper : Function := ⟨3, "helper", ["ret"]⟩

def stripping : FunctionPipeline := [.foreign "strip-nops" stripNops .null]

/-- How long the functions are has been found out. -/
def measured : FunctionManager where
  analyses := Table.insert ∅ lengthKey ⟨.foreign 0 .null, false⟩
  results := Table.insert (Table.insert ∅ (2, lengthKey) (.foreign (.ofRaw ((boxed 2).toRaw 0))))
    (3, lengthKey) (.foreign (.ofRaw ((boxed 1).toRaw 1)))

def measuredStart : World (Job Functions FunctionManager) :=
  ⟨{ nextUnit := 4, nextAddress := 2 },
    ⟨{ analyses := Table.insert ∅ .proxy ⟨.attached measured, false⟩ },
      ⟨1, "sample", [⟨2, "main", ["nop", "ret"]⟩, helper]⟩⟩⟩

def strippingStart : World (Job Functions FunctionManager) :=
  Tier.announced "function-to-module" measuredStart

theorem reports_stripping {w : World (Job Body Empty)} (hunit : w.focus.unit = helper)
    {status : Status}
    (h : code.functionTier.Reports (fun j ↦ nomatch j) stripping w status) :
    status = .allPreserved := by
  cases h with
  | first h =>
    have hinvoke : (code.functionTier.invoke stripNops .null).Ensures
        (Tier.announced "strip-nops" w) (fun status _ ↦ status = .allPreserved)
        fun _ _ ↦ True := by
      have hunit' : (Tier.announced "strip-nops" w).focus.unit = helper := hunit
      rw [Tier.ensures_invoke, hunit']
      change Status.allPreserved = .allPreserved
      rfl
    exact hinvoke.of_ok h
  | later _ h => cases h

/-- There is nothing to strip off the second function. -/
theorem adapterReports_helper {status : Status}
    (h : code.AdapterReports stripping strippingStart helper.id status) :
    status = .allPreserved := by
  obtain ⟨w₁, -, h⟩ := h
  generalize hid : helper.id = id at h
  cases h with
  | here _ h => exact absurd hid (by decide)
  | next _ h =>
    cases h with
    | here _ h => exact reports_stripping rfl h
    | next _ h => nomatch h

theorem measured_helper : measured.results.find? (helper.id, lengthKey) =
    some (.foreign (.ofRaw ((boxed 1).toRaw 1))) := by
  decide +kernel

theorem step_returns : (code.moduleTier.stage "function-to-module"
    (code.moduleTier.runPass code.runPerFunction (.perFunction stripping))).Ensures measuredStart
    (fun _ _ ↦ True) fun _ _ ↦ False := by
  decide +kernel

/-- The length of the second function is still there when the adapter is done, and gone after the
step. -/
theorem stage_perFunction_leaves_helper :
    (∀ status, code.AdapterReports stripping strippingStart helper.id status →
      status = .allPreserved) ∧
    ∃ preserved w₁ w' inner₁ inner',
      code.moduleTier.stage "function-to-module"
        (code.moduleTier.runPass code.runPerFunction (.perFunction stripping)) measuredStart =
          .ok preserved w' ∧
      code.runPerFunction stripping strippingStart = .ok preserved w₁ ∧
      w₁.focus.manager.attached? = some inner₁ ∧ w'.focus.manager.attached? = some inner' ∧
      inner₁.results.find? (helper.id, lengthKey) =
        some (.foreign (.ofRaw ((boxed 1).toRaw 1))) := by
  obtain ⟨preserved, w', hstep, -⟩ := step_returns.exists_ok fun _ _ ↦ id
  have hpasses : Pass.AreForeign stripping := ⟨trivial, trivial⟩
  have hattached : measuredStart.focus.manager.attached? = some measured := by rfl
  have hhelper : helper ∈ measuredStart.focus.unit.content := by decide
  obtain ⟨w₁, inner₁, inner', hadapter, hattached₁, hattached', hleaves⟩ :=
    Code.stage_perFunction_leaves hpasses hstep hattached hhelper
      fun _ h ↦ adapterReports_helper h
  exact ⟨fun _ h ↦ adapterReports_helper h, preserved, w₁, w', inner₁, inner', hstep, hadapter,
    hattached₁, hattached', hleaves.adapter lengthKey _ measured_helper⟩

/-- No pass reports a change of the second function, but its length is not known any more. -/
theorem stage_perFunction_forgets :
    (∀ status, code.AdapterReports stripping strippingStart helper.id status →
      status = .allPreserved) ∧
    measured.results.find? (helper.id, lengthKey) =
      some (.foreign (.ofRaw ((boxed 1).toRaw 1))) ∧
    (code.moduleTier.stage "function-to-module"
      (code.moduleTier.runPass code.runPerFunction (.perFunction stripping))).Ensures measuredStart
      (fun _ w' ↦ w'.focus.manager.attached?.map (fun inner ↦
        inner.results.find? (helper.id, lengthKey)) = some none) fun _ _ ↦ False :=
  ⟨fun _ h ↦ adapterReports_helper h, measured_helper, by decide +kernel⟩

end Demo

end ForeignPasses
