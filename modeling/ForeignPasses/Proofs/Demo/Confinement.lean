import ForeignPasses.Proofs.Demo.Honesty
import ForeignPasses.Proofs.Ownership.Sessions
import ForeignPasses.Proofs.Separation.Alike

/-!
# The demonstration keeps within reach

Its analyses ask nothing, and its passes ask about their module and the functions in it alone.
-/

namespace ForeignPasses.Demo

variable (own ids : UnitId → Prop)

theorem asksOnly_lengthLines {functions : Functions} (hfunctions : ∀ f ∈ functions, ids f.id) :
    (lengthLines functions).AsksOnly (Reach.function ids).Has := by
  induction functions with
  | nil => trivial
  | cons f rest ih =>
    obtain ⟨hf, hrest⟩ := List.forall_mem_cons.1 hfunctions
    exact ⟨hf, fun _ ↦ ⟨trivial, fun _ ↦ ih hrest⟩⟩

theorem holds_printStats :
    (Reach.module ids).Holds ids fun m ↦ (fun r ↦ (r.1, .ofStatus r.2)) <$> printStatsCode m :=
  fun _ hm ↦ ⟨hm, fun _ ↦
    ⟨⟨hm, trivial, fun _ ↦ asksOnly_lengthLines ids hm.2⟩, fun _ ↦ hm⟩⟩

theorem holds_hello (greeting : Option String) :
    (Reach.module ids).Holds ids fun m ↦ (fun r ↦ (r.1, .ofStatus r.2)) <$> helloCode greeting m :=
  fun _ hm ↦ ⟨trivial, fun _ ↦ hm⟩

theorem holds_functionPipeline (passes : FunctionPipeline) :
    code.HoldsFunctionPipeline ids passes := by
  apply Pass.Throughout.everyOf
  constructor
  · exact fun _ _ _ hf ↦ hf
  · exact fun _ _ hf ↦ hf
  · exact fun j ↦ j.elim

/-- Wherever the units are that it is run on, every pipeline of the demonstration keeps to them. -/
theorem holds_modulePipeline (passes : ModulePipeline) : code.HoldsModulePipeline ids passes := by
  apply Pass.Throughout.everyOf
  constructor
  · intro entry context
    by_cases hentry : entry = printStats
    · subst hentry
      exact holds_printStats ids
    · have hhello := holds_hello ids context.content?
      simpa only [code, moduleBehaviour, if_neg hentry] using hhello
  · exact fun _ _ hm ↦ hm
  · exact holds_functionPipeline ids

/-- No manager of the demonstration has analyses that look across. -/
theorem sidedManager (m : ModuleManager) : code.SidedManager own ids m where
  onModules _ analysis _ := by
    cases analysis with
    | foreign entry context => exact ⟨fun _ _ ↦ trivial, fun _ _ ↦ trivial⟩
    | native entry => exact ⟨fun _ _ ↦ trivial, fun _ _ ↦ trivial⟩
    | attached inner => exact ⟨trivial, trivial⟩
  onFunctions _ _ _ _ analysis _ := by
    cases analysis with
    | foreign entry context => exact ⟨fun _ _ ↦ trivial, fun _ _ ↦ trivial⟩
    | native entry => exact ⟨fun _ _ ↦ trivial, fun _ _ ↦ trivial⟩
    | attached nothing => exact nomatch nothing

/-! ## Two modules that share a manager -/

open Session

def bystander : Module := ⟨4, "bystander", [⟨5, "idle", ["nop", "nop"]⟩]⟩

theorem twoFunctions_owns {id : Nat} : twoFunctions.Owns id ↔ id = 1 ∨ id = 2 ∨ id = 3 := by
  simp [Module.Owns, twoFunctions]

theorem bystander_owns {id : Nat} : bystander.Owns id ↔ id = 4 ∨ id = 5 := by
  simp [Module.Owns, bystander]

/-- Instructions were counted in both modules, and in the function of the second one. -/
def sharedManager : ModuleManager where
  analyses := Table.insert (Table.insert ∅ instructionCount ⟨.foreign 0 .null, false⟩) .proxy
    ⟨.attached { lengthManager with
      results := Table.insert ∅ (5, lengthKey) (.foreign (.ofRaw ((boxed 2).toRaw 2))) }, false⟩
  results := Table.insert
    (Table.insert ∅ (1, instructionCount) (.foreign (.ofRaw ((boxed 3).toRaw 0))))
    (4, instructionCount) (.foreign (.ofRaw ((boxed 2).toRaw 1)))

def sharing : World Objects where
  shared := { nextUnit := 6, nextAddress := 3 }
  focus := {
    modules := Table.insert (Table.insert ∅ "sample" twoFunctions) "bystander" bystander
    moduleManagers := Table.insert ∅ "mam" sharedManager
    modulePipelines := Table.insert ∅ "stages" stages }

theorem sharing_sound : Sound [.adopted 0, .adopted 1, .adopted 2] sharing where
  events_eq := rfl
  balance x := by
    have hreleases : releases sharing.focus = [⟨some 2, none⟩, ⟨some 0, none⟩, ⟨some 1, none⟩] := by
      decide +kernel
    rw [← tally_releases, hreleases]
    simp only [deletions, tally, adoptions, List.countP_cons, List.countP_nil, Event.frees,
      Event.adopts, decide_eq_true_eq, Bool.false_eq_true, if_false]
    omega
  fresh x := by
    cases x with
    | none => exact Nat.zero_le _
    | some address =>
      simp only [adoptions, span, List.countP_cons, List.countP_nil, Event.adopts, sharing,
        decide_eq_true_eq, Option.some.injEq]
      grind

theorem stages_step : Exec.Ensures
    (step code (.onUnit .module (.run "stages" "sample" "mam"))).run sharing
    (fun r w ↦ r.isOk = true ∧ (w.focus.modules.find? "sample").map
      (fun m ↦ m.content.map CodeUnit.content) = some [["ret"], ["ret"]]) fun _ _ ↦ False := by
  decide +kernel

end ForeignPasses.Demo
