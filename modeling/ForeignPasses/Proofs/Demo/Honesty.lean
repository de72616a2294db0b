import ForeignPasses.Demo
import ForeignPasses.Proofs.Coherence.Honest

/-!
# The passes of the demonstration are honest

They leave a unit as it is, or say that they preserve nothing.
-/

namespace ForeignPasses.Demo

variable (meaning : Meaning)

theorem moduleReport_refl (m : Module) (next : UnitId) (hdistinct : Code.Distinct m.content next)
    (preserved : Preserved) : meaning.ModuleReport m next m.content preserved next where
  nodup := hdistinct.nodup
  origin g hg := .inl ⟨g, hg, rfl⟩
  onModule _ _ := rfl
  onFunctions key _ f hf g hg hid := by
    obtain rfl : f = g := List.inj_on_of_nodup_map hdistinct.nodup hf hg hid
    rfl

theorem functionReport_refl (m : Module) (before : Functions) (f : Function) (after : Functions)
    (preserved : Preserved) : meaning.FunctionReport m before f after f.content preserved where
  onFunction _ _ := rfl
  onModule _ _ := rfl

/-- The functions that are listed are looked up one after the other. -/
theorem fold_lengthLines {m : Module} {functions : Functions}
    (hfunctions : ∀ f ∈ functions, f ∈ m.content) {post : Option Int → Prop} (hpost : post none) :
    (lengthLines functions).fold (meaning.functionTheory.allows (· ∈ m.content)) post := by
  induction functions with
  | nil => exact hpost
  | cons f rest ih =>
    refine ⟨hfunctions f (by simp), fun key value hkey hvalue ↦ ?_⟩
    exact ih fun g hg ↦ hfunctions g (List.mem_cons_of_mem f hg)

theorem honest_stripNops :
    code.HonestOverFunctions meaning (fun _ ↦ True)
      fun f ↦ (fun r ↦ (r.1, .ofStatus r.2)) <$> stripNopsCode f := by
  intro m before f after next _
  refine ⟨?_, trivial⟩
  change meaning.FunctionReport m before f after (f.content.filter (· ≠ "nop"))
    (.ofStatus (if (f.content.filter (· ≠ "nop")).length = f.content.length then _ else _))
  split
  · rename_i hlength
    have hsame : f.content.filter (· ≠ "nop") = f.content :=
      List.filter_sublist.eq_of_length hlength
    rw [hsame]
    exact functionReport_refl meaning m before f after _
  · constructor
    · intro key hkey
      simp [Preserved.ofStatus] at hkey
    · intro key hkey
      simp [Preserved.ofStatus] at hkey

theorem honest_printStats :
    code.HonestOverModules meaning (fun _ ↦ True)
      fun m ↦ (fun r ↦ (r.1, .ofStatus r.2)) <$> printStatsCode m := by
  intro m next _ hdistinct
  refine ⟨rfl, fun key total hkey htotal ↦ ?_⟩
  refine ⟨rfl, ?_⟩
  apply fold_lengthLines meaning fun f hf ↦ hf
  exact ⟨moduleReport_refl meaning m next hdistinct _, trivial⟩

theorem honest_hello (greeting : Option String) :
    code.HonestOverModules meaning (fun _ ↦ True)
      fun m ↦ (fun r ↦ (r.1, .ofStatus r.2)) <$> helloCode greeting m :=
  fun m next _ hdistinct ↦ ⟨moduleReport_refl meaning m next hdistinct _, trivial⟩

/-- Whatever the passes of the demonstration are put together to, it is honest. -/
theorem honest_functionPipeline (passes : FunctionPipeline) :
    code.HonestFunctionPipeline meaning (fun _ ↦ True) passes := by
  apply Pass.Throughout.everyOf
  constructor
  · intro entry context
    exact honest_stripNops meaning
  · intro entry m before f after next _
    exact ⟨functionReport_refl meaning m before f after _, trivial⟩
  · intro j
    nomatch j

theorem honest_modulePipeline (passes : ModulePipeline) :
    code.HonestModulePipeline meaning (fun _ ↦ True) passes := by
  apply Pass.Throughout.everyOf
  constructor
  · intro entry context
    by_cases hentry : entry = printStats
    · subst hentry
      exact honest_printStats meaning
    · have hhello := honest_hello meaning context.content?
      simpa only [code, moduleBehaviour, if_neg hentry] using hhello
  · intro entry m next _ hdistinct
    exact ⟨moduleReport_refl meaning m next hdistinct _, trivial⟩
  · exact honest_functionPipeline meaning

/-! ## A manager with the analyses of the demonstration -/

/-- What the analyses find: how many instructions there are. -/
def findings : Meaning where
  onModule key m := if key = .proxy then .attached else .foreign (some (countInstructions m))
  onFunction _ f := .foreign (some f.content.length)

def lengthManager : FunctionManager where
  analyses := Table.insert ∅ lengthKey ⟨.foreign 0 .null, false⟩

/-- The instructions of the module have been counted. -/
def countManager (m : Module) : ModuleManager where
  analyses := Table.insert (Table.insert ∅ instructionCount ⟨.foreign 0 .null, false⟩) .proxy
    ⟨.attached lengthManager, false⟩
  results := Table.insert ∅ (m.id, instructionCount)
    (.foreign (.ofRaw ((boxed (countInstructions m)).toRaw 0)))

theorem lengthManager_right (functions : Functions) (next : UnitId) :
    code.FunctionsRight findings (fun _ _ ↦ True) functions next lengthManager := by
  have hlawful : findings.functionTheory.Lawful (S := Empty) code.functions.toComputations lengthKey
      (.foreign 0 .null) := fun _ ↦ rfl
  exact Manager.Coherent.empty.insert_analysis hlawful

theorem countManager_right (m : Module) (next : UnitId) :
    code.ModuleRight findings (fun _ ↦ True)
      (code.FunctionsRight findings (fun _ _ ↦ True) m.content next) m (countManager m) := by
  let inner := code.FunctionsRight findings (fun _ _ ↦ True) m.content next
  have hcount : (findings.moduleTheory inner).Lawful code.modules.toComputations instructionCount
      (.foreign 0 .null) := fun _ ↦ rfl
  have hattached : (findings.moduleTheory inner).Lawful code.modules.toComputations .proxy
      (.attached lengthManager) := ⟨rfl, fun _ ↦ rfl, lengthManager_right m.content next⟩
  have hanalyses : code.ModuleRight findings (fun _ ↦ True) inner m
      { countManager m with results := ∅ } :=
    (Manager.Coherent.empty.insert_analysis hcount).insert_analysis hattached
  exact hanalyses.insert_result (by simp) (List.mem_singleton_self m) trivial rfl rfl

/-! ## A run -/

def stages : ModulePipeline :=
  [.perFunction [.foreign "strip-nops" stripNops .null], .foreign "print-stats" printStats .null]

def twoFunctions : Module := ⟨1, "sample", [⟨2, "main", ["nop", "ret"]⟩, ⟨3, "helper", ["ret"]⟩]⟩

def start : World (Job Functions FunctionManager) :=
  ⟨{ nextUnit := 4 }, ⟨countManager twoFunctions, twoFunctions⟩⟩

theorem stages_strip : (code.runModulePipeline stages).Ensures start
    (fun _ w ↦ w.focus.unit.content.map CodeUnit.content = [["ret"], ["ret"]]) fun _ _ ↦ False := by
  decide +kernel

end ForeignPasses.Demo
