import ForeignPasses.Proofs.Coherence.Attached

/-!
# Computing results anew

A look-up where nothing is cached computes its result anew, together with all the results that this
one needs. A manager is fresh if it holds nothing else than what such look-ups come to.
-/

namespace ForeignPasses

open Exec

namespace Flavour

/-- A request of this flavour can be for a key. -/
def Fits (key : Key) : Flavour → Prop
  | foreign => True
  | native index => key = .numbered index
  | attached => key = .proxy

theorem Fits.key?_eq {kind : Kind} {key : Key} {f : Flavour} (h : f.Fits key) {s : Shared}
    (hslot : s.slot kind = ⟨some key⟩) : f.key? kind s = some key := by
  cases f with
  | foreign => rw [key?, hslot]
  | native index => exact congrArg some (Eq.symm h)
  | attached => exact congrArg some (Eq.symm h)

theorem receive_inj {f : Flavour} {r r' : Result} {a : f.Answer} (h : f.receive r = some a)
    (h' : f.receive r' = some a) : r = r' := by
  cases f <;> cases r <;> cases r' <;> try contradiction
  · exact congrArg Result.foreign (Option.some.inj (h.trans h'.symm))
  · exact congrArg Result.native (Option.some.inj (h.trans h'.symm))
  · rfl

end Flavour

namespace Manager

theorem Coherent.clear {β S : Type} [Owner S] {lawful : Key → Analysis S → Prop}
    {meaning : Key → CodeUnit β → Finding} {known : UnitId → Prop} {valid : CodeUnit β → Key → Prop}
    {units : List (CodeUnit β)} {m : Manager S}
    (h : m.Coherent lawful meaning known valid units) :
    m.clear.1.Coherent lawful meaning known valid units where
  lawful := h.lawful
  registered id key r hr := by simp [Manager.clear] at hr
  known id key r hr := by simp [Manager.clear] at hr
  right u _ key r _ hr := by simp [Manager.clear] at hr

/-- The same analyses without results, also in the manager that is attached. -/
def emptied (m : ModuleManager) : ModuleManager :=
  match m.attached? with
  | some inner => m.clear.1.setAttached inner.clear.1
  | none => m.clear.1

end Manager

namespace Tier

variable {β I S : Type} (tier : Tier β I S)

/-- What is found under a key for a unit is `r`. -/
def Yields (w : World (Manager S)) (u : CodeUnit β) (key : Key) (r : Result) : Prop :=
  ∃ f a w', Flavour.Fits key f ∧ withKey tier.kind key (tier.fetch f u) w = .ok a w' ∧
    f.receive r = some a

/-- Every result that is kept for one of the units is what its key means, and what is found under
the key with nothing kept. -/
def Fresh (meaning : Key → CodeUnit β → Finding) (empty : Manager S → Manager S)
    (units : List (CodeUnit β)) (w : World (Manager S)) : Prop :=
  ∀ u ∈ units, ∀ key r, w.focus.results.find? (u.id, key) = some r →
    r.finding = meaning key u ∧
      ∀ r', tier.Yields ⟨w.shared, empty w.focus⟩ u key r' → r'.finding = r.finding

variable {tier} {theory : Theory β I S} {known : UnitId → Prop} {units : List (CodeUnit β)}
  {keys : List Key} {next : UnitId}

/-- What is found under a key is what the key means. -/
theorem Yields.finding_eq (hfetch : tier.FetchesRight theory known units keys next tier.fetch)
    {w : World (Manager S)} (h : tier.Sound theory known units keys next w) {u : CodeUnit β}
    (hu : u ∈ units) {key : Key} {r : Result} (hyields : tier.Yields w u key r) :
    r.finding = theory.meaning key u := by
  obtain ⟨f, a, w', hfits, hok, hreceive⟩ := hyields
  have hright : (withKey tier.kind key (tier.fetch f u)).Ensures w
      (fun a _ ↦ ∃ r, f.receive r = some a ∧ r.finding = theory.meaning key u)
      fun _ _ ↦ True := by
    rw [ensures_withKey]
    refine (hfetch f u _ hu ?_).mono ?_ fun _ _ _ ↦ trivial
    · exact h.congr rfl (by cases tier.kind <;> rfl)
    · rintro a' w₁ ⟨-, hanswered⟩
      exact hanswered key (hfits.key?_eq (by cases tier.kind <;> rfl))
  obtain ⟨r', hreceive', hmeaning⟩ := hright.of_ok hok
  rw [Flavour.receive_inj hreceive hreceive', hmeaning]

end Tier

namespace Code

variable (code : Code) (meaning : Meaning)

/-- A manager of functions is fresh for some of them. -/
def FunctionsFresh (functions : Functions) (w : World FunctionManager) : Prop :=
  code.functionTier.Fresh meaning.onFunction (fun m ↦ m.clear.1) functions w

/-- A manager of modules is fresh for a module, and what is attached for the functions in it. -/
def ModuleFresh (m : Module) (w : World ModuleManager) : Prop :=
  code.moduleTier.Fresh meaning.onModule Manager.emptied [m] w ∧
    ∀ inner, w.focus.attached? = some inner →
      code.FunctionsFresh meaning m.content ⟨w.shared, inner⟩

variable {code meaning}

theorem FunctionsRight.fresh {functions : Functions} {w : World FunctionManager}
    (h : code.FunctionsRight meaning (fun _ _ ↦ True) functions w.shared.nextUnit w.focus)
    (hdistinct : Distinct functions w.shared.nextUnit) :
    code.FunctionsFresh meaning functions w := by
  intro f hf key r hr
  have hmeaning : r.finding = meaning.onFunction key f := h.right f hf key r trivial hr
  refine ⟨hmeaning, fun r' hr' ↦ ?_⟩
  rw [hmeaning]
  have hfetch := functionTier_fetchesRight code meaning hdistinct w.focus.keys w.shared.nextUnit
  have hsound : code.functionTier.Sound meaning.functionTheory (· < w.shared.nextUnit) functions
      w.focus.keys w.shared.nextUnit ⟨w.shared, w.focus.clear.1⟩ :=
    ⟨Manager.Coherent.clear h, rfl, rfl⟩
  exact hr'.finding_eq hfetch hsound hf

theorem ModuleRight.emptied {m : Module} {bound : UnitId} {manager : ModuleManager}
    (h : code.ModuleRight meaning (fun _ ↦ True)
      (code.FunctionsRight meaning (fun _ _ ↦ True) m.content bound) m manager) :
    code.ModuleRight meaning (fun _ ↦ True)
      (code.FunctionsRight meaning (fun _ _ ↦ True) m.content bound) m manager.emptied := by
  have hclear : code.ModuleRight meaning (fun _ ↦ True)
      (code.FunctionsRight meaning (fun _ _ ↦ True) m.content bound) m manager.clear.1 :=
    Manager.Coherent.clear h
  unfold Manager.emptied
  cases hattached : manager.attached? with
  | none => exact hclear
  | some inner =>
    have hinner : code.FunctionsRight meaning (fun _ _ ↦ True) m.content bound inner :=
      h.inner_of_attached? hattached
    exact hclear.setAttached hattached hinner.clear

theorem ModuleRight.fresh {m : Module} {w : World ModuleManager}
    (h : code.ModuleRight meaning (fun _ ↦ True)
      (code.FunctionsRight meaning (fun _ _ ↦ True) m.content w.shared.nextUnit) m w.focus)
    (hdistinct : Distinct m.content w.shared.nextUnit) : code.ModuleFresh meaning m w := by
  constructor
  · intro u hu key r hr
    have hmeaning : r.finding = meaning.onModule key u := h.right u hu key r trivial hr
    refine ⟨hmeaning, fun r' hr' ↦ ?_⟩
    rw [hmeaning]
    have hfetch := moduleTier_fetchesRight code meaning hdistinct w.focus.emptied.keys
      w.shared.nextUnit
    have hsound : code.moduleTier.Sound
        (meaning.moduleTheory
          (code.FunctionsRight meaning (fun _ _ ↦ True) m.content w.shared.nextUnit))
        (fun _ ↦ True) [m] w.focus.emptied.keys w.shared.nextUnit ⟨w.shared, w.focus.emptied⟩ :=
      ⟨h.emptied, rfl, rfl⟩
    exact hr'.finding_eq hfetch hsound hu
  · intro inner hattached
    have hinner : code.FunctionsRight meaning (fun _ _ ↦ True) m.content w.shared.nextUnit inner :=
      h.inner_of_attached? hattached
    exact FunctionsRight.fresh hinner hdistinct

end Code

end ForeignPasses
