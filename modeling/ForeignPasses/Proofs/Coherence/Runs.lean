import ForeignPasses.Proofs.Coherence.Freshness
import ForeignPasses.Proofs.Coherence.Lookups
import ForeignPasses.Proofs.Demo.Honesty

/-!
# Whole runs

A pipeline of honest passes, however it is nested, is run over a module with a manager that is
fresh. Then the managers are fresh wherever a pass starts, every pass is told the truth, and the
manager is fresh in the end.
-/

namespace ForeignPasses

open Exec

namespace Pass

variable {β I J : Type}

/-- The code of a pass that is not made of others. -/
def code? (behaviour : Behaviour β I) : Pass J → Option (CodeUnit β → Edition β I (β × Preserved))
  | foreign _ entry context =>
    some fun u ↦ (fun r ↦ (r.1, .ofStatus r.2)) <$> behaviour.pass entry context.content? u
  | native _ entry => some (behaviour.nativePass entry)
  | group _ => none
  | perFunction _ => none

theorem Every.leaf_of_code? {behaviour : Behaviour β I}
    {leaf : (CodeUnit β → Edition β I (β × Preserved)) → Prop} {inner : J → Prop} {pass : Pass J}
    (h : pass.Every behaviour leaf inner) {p : CodeUnit β → Edition β I (β × Preserved)}
    (hcode : pass.code? behaviour = some p) : leaf p := by
  cases pass with
  | foreign name entry context => exact Option.some.inj hcode ▸ h
  | native name entry => exact Option.some.inj hcode ▸ h
  | group passes => contradiction
  | perFunction inner => contradiction

end Pass

namespace Code

variable (code : Code) (meaning : Meaning)

/-! ## Where passes over functions start -/

/-- Passes that are run over functions one after the other, those of `rest` from now on, start a
pass in a world where its function stands between `front` and `back`. -/
inductive StartsOver (passes : FunctionPipeline) :
    Functions → Functions → World (Job Functions FunctionManager) →
    Functions → FunctionPass → World (Job Body Empty) → Functions → Prop where
  | here {before after : Functions} {f : Function} {w : World (Job Functions FunctionManager)}
      {manager : FunctionManager} {pass : FunctionPass} {w' : World (Job Body Empty)}
      (hattached : w.focus.manager.attached? = some manager)
      (h : code.functionTier.Starts (fun j ↦ nomatch j) passes ⟨w.shared, ⟨manager, f⟩⟩ pass w') :
    StartsOver passes before (f :: after) w before pass w' after
  | next {before after front back : Functions} {f : Function} {r : Preserved × Function}
      {w w₁ : World (Job Functions FunctionManager)} {pass : FunctionPass}
      {w' : World (Job Body Empty)}
      (hone : code.runOverOne passes before f after w = .ok r w₁)
      (h : StartsOver passes (before ++ [r.2]) after w₁ front pass w' back) :
    StartsOver passes before (f :: after) w front pass w' back

/-- An adapter in a run of passes over a module starts a pass over one of the functions. -/
def StartsWithin (passes : ModulePipeline) (w : World (Job Functions FunctionManager))
    (front : Functions) (pass : FunctionPass) (w' : World (Job Body Empty)) (back : Functions) :
    Prop :=
  ∃ inner w₁ w₂, code.moduleTier.Starts code.runPerFunction passes w (.perFunction inner) w₁ ∧
    Tier.onManager (code.moduleTier.fetch .attached w₁.focus.unit) w₁ = .ok () w₂ ∧
    code.StartsOver inner [] w₁.focus.unit.content w₂ front pass w' back

/-! ## Good starts -/

/-- A pass over a module starts with fresh managers, and is told the truth. -/
structure ModuleStart (pass : ModulePass) (w : World (Job Functions FunctionManager)) : Prop where
  fresh : code.ModuleFresh meaning w.focus.unit ⟨w.shared, w.focus.manager⟩
  told : ∀ p, pass.code? code.modules = some p → ∀ q a,
    code.moduleTier.Told (p w.focus.unit) w q a → q.Truthful meaning.onModule a
  toldWithin : ∀ p, pass.code? code.modules = some p → ∀ q a,
    code.ToldWithin (p w.focus.unit) w q a → q.Truthful meaning.onFunction a

/-- A pass over a function between others starts with a manager that is fresh for all of them, and
is told the truth. -/
structure FunctionStart (before : Functions) (pass : FunctionPass) (w : World (Job Body Empty))
    (after : Functions) : Prop where
  fresh : code.FunctionsFresh meaning (before ++ w.focus.unit :: after)
    ⟨w.shared, w.focus.manager⟩
  told : ∀ p, pass.code? code.functions = some p → ∀ q a,
    code.functionTier.Told (p w.focus.unit) w q a → q.Truthful meaning.onFunction a

variable {code meaning} {possible : Module → Prop}

theorem moduleStart_of_good {pass : ModulePass}
    (hpass : pass.Every code.modules (code.HonestOverModules meaning possible)
      (code.HonestFunctionPipeline meaning possible))
    {w : World (Job Functions FunctionManager)}
    (hgood : (code.moduleRegime meaning possible).GoodIn w) : code.ModuleStart meaning pass w := by
  obtain ⟨hright, hdistinct, hpossible⟩ := hgood
  have hworking : code.moduleTier.Working
      (meaning.moduleTheory
        (code.FunctionsRight meaning (fun _ _ ↦ True) w.focus.unit.content w.shared.nextUnit))
      (fun _ ↦ True) [w.focus.unit] w.focus.unit w.shared.nextUnit w.shared.nextUnit w :=
    ⟨hright, rfl, Nat.le_refl _, rfl⟩
  have hanswer := moduleTier_answersRight code meaning hdistinct
  refine ⟨ModuleRight.fresh hright hdistinct, ?_, ?_⟩
  · intro p hp q a htold
    have hfold := hpass.leaf_of_code? hp w.focus.unit w.shared.nextUnit hpossible hdistinct
    exact htold.truthful hanswer hworking hfold
  · intro p hp q a htold
    have hfold := hpass.leaf_of_code? hp w.focus.unit w.shared.nextUnit hpossible hdistinct
    exact htold.truthful hdistinct hworking hfold

theorem functionStart_of_good {m : Module} {before after : Functions} {pass : FunctionPass}
    (hpass : pass.Every code.functions (code.HonestOverFunctions meaning possible)
      (fun j ↦ nomatch j))
    {w : World (Job Body Empty)}
    (hgood : (code.functionRegime meaning possible m before after).GoodIn w) :
    code.FunctionStart meaning before pass w after := by
  obtain ⟨hright, hdistinct, hpossible⟩ := hgood
  have hworking : code.functionTier.Working meaning.functionTheory (· < w.shared.nextUnit)
      (before ++ w.focus.unit :: after) w.focus.unit w.shared.nextUnit w.shared.nextUnit w :=
    ⟨hright, rfl, Nat.le_refl _, rfl⟩
  have hallowed : ∀ f, f = w.focus.unit → f ∈ before ++ w.focus.unit :: after := by
    rintro f rfl
    simp
  have hanswer (keys : List Key) (next : UnitId) :=
    functionTier_answersRight code meaning hdistinct keys next hallowed
  refine ⟨FunctionsRight.fresh hright hdistinct, ?_⟩
  intro p hp q a htold
  have hfold := hpass.leaf_of_code? hp m before w.focus.unit after w.shared.nextUnit hpossible
  exact htold.truthful hanswer hworking hfold

/-- Every pass that is run over one of the functions has a good start. -/
theorem StartsOver.functionStart {passes : FunctionPipeline}
    (hpasses : code.HonestFunctionPipeline meaning possible passes) {m : Module}
    {before rest front back : Functions} {w : World (Job Functions FunctionManager)}
    {pass : FunctionPass} {w' : World (Job Body Empty)}
    (hstarts : code.StartsOver passes before rest w front pass w' back)
    (h : Adapting code meaning possible m (before ++ rest) w) :
    code.FunctionStart meaning front pass w' back := by
  induction hstarts with
  | @here before after f w manager pass w' hattached hstarts =>
    have hgood : (code.functionRegime meaning possible m before after).GoodIn
        ⟨w.shared, ⟨manager, f⟩⟩ :=
      ⟨h.right.inner_of_attached? hattached, h.distinct, h.possible⟩
    obtain ⟨hgood', hpass⟩ := functionRegime_upheld.good_of_starts hstarts hpasses hgood
    exact functionStart_of_good hpass hgood'
  | next hone _ ih =>
    apply ih
    have hadapting := ((ensures_runOverOne hpasses h).of_ok hone).1
    rwa [List.append_assoc]

/-! ## Runs -/

/-- In every run of a pipeline of honest passes each pass, over the module or over a function, has a
good start, and the managers are fresh in the end. -/
theorem runModulePipeline_fresh {passes : ModulePipeline}
    (hhonest : code.HonestModulePipeline meaning possible passes)
    {w : World (Job Functions FunctionManager)}
    (hgood : (code.moduleRegime meaning possible).GoodIn w) :
    (∀ pass w', code.moduleTier.Starts code.runPerFunction passes w pass w' →
      code.ModuleStart meaning pass w') ∧
    (∀ before pass w' after, code.StartsWithin passes w before pass w' after →
      code.FunctionStart meaning before pass w' after) ∧
    ∀ preserved w', code.runModulePipeline passes w = .ok preserved w' →
      code.ModuleFresh meaning w'.focus.unit ⟨w'.shared, w'.focus.manager⟩ := by
  refine ⟨?_, ?_, ?_⟩
  · intro pass w' hstarts
    obtain ⟨hgood', hpass⟩ := moduleRegime_upheld.good_of_starts hstarts hhonest hgood
    exact moduleStart_of_good hpass hgood'
  · rintro before pass w' after ⟨inner, w₁, w₂, hstarts, hattached, hover⟩
    obtain ⟨hgood₁, hpass⟩ := moduleRegime_upheld.good_of_starts hstarts hhonest hgood
    exact hover.functionStart hpass ((ensures_attached hgood₁).of_ok hattached)
  · intro preserved w' hok
    have hend := (moduleRegime_upheld.completes_runAll passes hhonest w hgood).of_ok hok
    obtain ⟨hright, hdistinct, -⟩ := hend.1
    exact ModuleRight.fresh hright hdistinct

/-- The demonstration counts the instructions of two functions again after one of them has
changed. -/
theorem runModulePipeline_fresh_demo :
    Demo.code.HonestModulePipeline Demo.findings (fun _ ↦ True) Demo.stages ∧
      (Demo.code.moduleRegime Demo.findings fun _ ↦ True).GoodIn Demo.start ∧
      ∃ preserved w', Demo.code.runModulePipeline Demo.stages Demo.start = .ok preserved w' ∧
        w'.focus.unit.content.map CodeUnit.content = [["ret"], ["ret"]] ∧
        Demo.code.ModuleFresh Demo.findings w'.focus.unit ⟨w'.shared, w'.focus.manager⟩ := by
  have hhonest := Demo.honest_modulePipeline Demo.findings Demo.stages
  have hgood : (Demo.code.moduleRegime Demo.findings fun _ ↦ True).GoodIn Demo.start :=
    ⟨Demo.countManager_right Demo.twoFunctions 4, ⟨by decide, by decide⟩, trivial⟩
  obtain ⟨preserved, w', hok, hcontent⟩ := Demo.stages_strip.exists_ok fun _ _ h ↦ h
  exact ⟨hhonest, hgood, preserved, w', hok, hcontent,
    (runModulePipeline_fresh hhonest hgood).2.2 preserved w' hok⟩

end Code

end ForeignPasses
