import ForeignPasses.Proofs.Manager.Upkeep

/-!
# Managers that can be reached

A manager starts empty, and calls are made on it in any order and with any outcome: analyses are
registered, results are looked up, invalidated and cleared, and code of passes and analyses asks its
questions. A manager of functions may be attached to one of modules, and calls on it go on there.
-/

namespace ForeignPasses

open Exec

/-- The world in which an action ends, with a value or with a halt. -/
def Exec.ending {σ α : Type} (act : Exec σ α) (w : World σ) : World σ :=
  match act w with
  | .ok _ w' => w'
  | .error _ w' => w'

theorem Exec.Ensures.ending {σ α : Type} {act : Exec σ α} {w : World σ} {p : World σ → Prop}
    (h : act.Ensures w (fun _ w' ↦ p w') fun _ w' ↦ p w') : p (act.ending w) := by
  unfold Ensures at h
  unfold Exec.ending
  cases hact : act w with
  | ok a w' =>
    rw [hact] at h
    exact h
  | error e w' =>
    rw [hact] at h
    exact h

namespace Tier

variable {β I S : Type} [Owner S] (tier : Tier β I S)

/-- The calls that are made on a manager. -/
inductive Call : {α : Type} → Exec (Manager S) α → Prop
  | registerForeign (key : Key) (entry : Entry) (context : Opaque String) :
      Call (tier.access.registerForeign key entry context)
  | boundaryRegister (key : Option Key) (entry : Entry) (context : Handed String) :
      Call (tier.access.boundaryRegister key entry context)
  | registerNative (index : Nat) (entry : Entry) : Call (tier.registerNative index entry)
  | fetch (f : Flavour) (u : CodeUnit β) : Call (tier.fetch f u)
  | inquire (q : Inquiry β I) : Call (tier.answer tier.fetch q)
  | perform (op : Operation β) : Call (tier.perform op)
  | invalidate (u : CodeUnit β) (preserved : Preserved) : Call (tier.invalidate u preserved)

/-- The managers that calls lead to from one that is there. Those on the attached manager lead
`inside` from one to another. -/
inductive Leads (inside : S → S → Prop) (m : Manager S) : Manager S → Prop
  | refl : Leads inside m m
  | call {m' : Manager S} (h : Leads inside m m') {α : Type} {act : Exec (Manager S) α}
      (hact : tier.Call act) (s : Shared) : Leads inside m (act.ending ⟨s, m'⟩).focus
  | within {m' : Manager S} (h : Leads inside m m') {inner inner' : S}
      (hattached : m'.attached? = some inner) (hinner : inside inner inner') :
      Leads inside m (m'.setAttached inner')

/-- The managers that there are. A manager begins with nothing in it, and one for which `enters`
holds may be attached to it. -/
inductive Reached (enters : S → Prop) (inside : S → S → Prop) : Manager S → Prop
  | empty : Reached enters inside {}
  | attach {m : Manager S} (h : Reached enters inside m) {inner : S} (hinner : enters inner)
      (s : Shared) : Reached enters inside ((tier.attach inner).ending ⟨s, m⟩).focus
  | leads {m m' : Manager S} (h : Reached enters inside m) (hleads : tier.Leads inside m m') :
      Reached enters inside m'

variable {tier} {good : S → Prop}

/-! ## Registering and clearing -/

theorem maintains_registerAt {key : Key} {analysis : Analysis S}
    (hanalysis : ∀ inner, analysis = .attached inner → key = .proxy ∧ good inner) :
    Maintains good (tier.access.registerAt key analysis) := by
  intro w hw
  simp only [Access.registerAt, ensures_bind, Access.ensures_held]
  split
  · exact hw
  · rename_i hunregistered
    have hnone : w.focus.outline key = none := by
      rwa [← Option.not_isSome_iff_eq_none, ← Manager.isRegistered_eq_isSome_outline]
    exact .register hw.tidy hnone hanalysis

theorem maintains_registerForeign (key : Key) (entry : Entry) (context : Opaque String) :
    Maintains good (tier.access.registerForeign key entry context) := by
  refine Respects.withKey ?_ tier.kind key
  refine Respects.bind onward_upkeep ?_ fun registered ↦
    (respects_emit _).bind onward_upkeep fun _ ↦ .pure _
  exact (Flavour.foreign.respects_resolve tier.kind).bind onward_upkeep fun key' ↦
    maintains_registerAt fun _ h ↦ nomatch h

theorem maintains_boundaryRegister (key : Option Key) (entry : Entry) (context : Handed String) :
    Maintains good (tier.access.boundaryRegister key entry context) := by
  refine (respects_adopted context).bind onward_upkeep fun context ↦ ?_
  cases key with
  | none => exact .throw _
  | some key => exact (maintains_registerForeign key entry context).boundary

theorem maintains_clear : Maintains good (tier.perform .clear) :=
  fun _ hw ↦ .of_same (hw.tidy.of_results fun _ _ h ↦ nomatch h) rfl rfl

theorem maintains_perform (h : tier.Maintained good) (op : Operation β) :
    Maintains good (tier.perform op) := by
  cases op with
  | get l u => exact (h.conserves.lookUp l u).map some
  | cached l u => exact h.conserves.lookUpCached l u
  | invalidate u preserved =>
    exact (h.drops.invalidate u preserved).bind onward_upkeep fun _ ↦ .pure _
  | clear => exact maintains_clear

/-! ## Calls -/

theorem Call.maintains (h : tier.Maintained good) {α : Type} {act : Exec (Manager S) α}
    (hact : tier.Call act) : Maintains good act := by
  cases hact with
  | registerForeign key entry context => exact maintains_registerForeign key entry context
  | boundaryRegister key entry context => exact maintains_boundaryRegister key entry context
  | registerNative index entry =>
    exact ((Flavour.native index).respects_resolve tier.kind).bind onward_upkeep fun key ↦
      maintains_registerAt fun _ h ↦ nomatch h
  | fetch f u => exact h.conserves.fetch f u
  | inquire q => exact h.conserves.answer h.conserves.fetch q
  | perform op => exact maintains_perform h op
  | invalidate u preserved => exact h.drops.invalidate u preserved

omit [Owner S] in
theorem Maintains.ending {α : Type} {act : Exec (Manager S) α} (hact : Maintains good act)
    (s : Shared) {m : Manager S} (hm : m.Tidy good) : m.Upkeep good (act.ending ⟨s, m⟩).focus :=
  Ensures.ending (p := fun w' ↦ m.Upkeep good w'.focus) (hact ⟨s, m⟩ (.refl hm))

variable {inside : S → S → Prop} {m m' : Manager S}

theorem Leads.upkeep (h : tier.Maintained good)
    (hinside : ∀ inner inner', inside inner inner' → good inner → good inner')
    (hleads : tier.Leads inside m m') (hm : m.Tidy good) : m.Upkeep good m' := by
  induction hleads with
  | refl => exact .refl hm
  | call _ hact s ih => exact ih.trans ((hact.maintains h).ending s ih.tidy)
  | @within m' _ inner inner' hattached hinner ih =>
    exact ih.setAttached hattached (hinside inner inner' hinner (ih.tidy.inner inner hattached))

/-- Managers are tidy, and nothing runs between calls. -/
theorem Reached.tidy_and_rests (h : tier.Maintained good) {enters : S → Prop}
    (henters : ∀ inner, enters inner → good inner)
    (hinside : ∀ inner inner', inside inner inner' → good inner → good inner')
    (hreached : tier.Reached enters inside m) : m.Tidy good ∧ m.Rests := by
  induction hreached with
  | empty => exact ⟨.empty, fun _ h ↦ nomatch h⟩
  | @attach m _ inner hinner s ih =>
    obtain ⟨htidy, hrests⟩ := ih
    have hproxy : ∀ inner', Analysis.attached inner = .attached inner' →
        Key.proxy = .proxy ∧ good inner' := by
      intro inner' hsame
      rw [← Analysis.attached.inj hsame]
      exact ⟨rfl, henters inner hinner⟩
    have hupkeep : m.Upkeep good ((tier.attach inner).ending ⟨s, m⟩).focus :=
      Maintains.ending (maintains_registerAt hproxy) s htidy
    exact ⟨hupkeep.tidy, hupkeep.rests hrests⟩
  | leads _ hleads ih =>
    obtain ⟨htidy, hrests⟩ := ih
    have hupkeep := hleads.upkeep h hinside htidy
    exact ⟨hupkeep.tidy, hupkeep.rests hrests⟩

/-- One more call on a manager that is there. -/
theorem Reached.call {enters : S → Prop} (h : tier.Reached enters inside m) {α : Type}
    {act : Exec (Manager S) α} (hact : tier.Call act) (s : Shared) :
    tier.Reached enters inside (act.ending ⟨s, m⟩).focus :=
  h.leads (.call .refl hact s)

end Tier

namespace Code

variable (code : Code)

/-- Calls lead from one manager of functions to another. -/
abbrev LeadsFunctions : FunctionManager → FunctionManager → Prop :=
  code.functionTier.Leads fun inner _ ↦ inner.elim

/-- Calls lead from one manager of modules to another. Some may be on the attached manager. -/
abbrev LeadsModules : ModuleManager → ModuleManager → Prop :=
  code.moduleTier.Leads code.LeadsFunctions

/-- The managers of functions that there are. -/
def ReachesFunctions : FunctionManager → Prop :=
  code.functionTier.Reached Empty.elim fun inner _ ↦ inner.elim

/-- The managers of modules that there are, with or without a manager of functions. -/
def ReachesModules : ModuleManager → Prop :=
  code.moduleTier.Reached code.ReachesFunctions code.LeadsFunctions

/-- A manager of functions that is tidy; no others can be attached to it. -/
abbrev TidyFunctions : FunctionManager → Prop := Manager.Tidy fun _ ↦ True

theorem functionTier_maintained : code.functionTier.Maintained fun _ ↦ True :=
  Tier.maintained_true

theorem moduleTier_maintained : code.moduleTier.Maintained TidyFunctions where
  within program := Tier.Maintains.tidy <| .answered Tier.onward_upkeep
    (code.functionTier_maintained.conserves.answer
      code.functionTier_maintained.conserves.fetch) program
  invalidateWithin m preserved := by
    change (invalidateFunctions code preserved m.content).Respects _
    apply Tier.Maintains.tidy
    induction m.content with
    | nil => exact .pure ()
    | cons f rest ih =>
      exact (code.functionTier_maintained.drops.invalidate f preserved).bind
        Tier.onward_upkeep fun _ ↦ ih

variable {code}

theorem ReachesFunctions.tidy_and_rests {m : FunctionManager} (h : code.ReachesFunctions m) :
    TidyFunctions m ∧ m.Rests :=
  Tier.Reached.tidy_and_rests code.functionTier_maintained (fun inner ↦ inner.elim)
    (fun inner ↦ inner.elim) h

theorem ReachesFunctions.tidy {m : FunctionManager} (h : code.ReachesFunctions m) :
    TidyFunctions m :=
  h.tidy_and_rests.1

theorem LeadsFunctions.tidy {m m' : FunctionManager} (h : code.LeadsFunctions m m')
    (hm : TidyFunctions m) : TidyFunctions m' :=
  (Tier.Leads.upkeep code.functionTier_maintained (fun inner ↦ inner.elim) h hm).tidy

theorem ReachesModules.tidy_and_rests {m : ModuleManager} (h : code.ReachesModules m) :
    m.Tidy TidyFunctions ∧ m.Rests :=
  Tier.Reached.tidy_and_rests code.moduleTier_maintained (fun _ ↦ ReachesFunctions.tidy)
    (fun _ _ ↦ LeadsFunctions.tidy) h

/-- Every manager of modules is tidy, and so is the one attached to it. -/
theorem ReachesModules.tidy {m : ModuleManager} (h : code.ReachesModules m) :
    m.Tidy TidyFunctions :=
  h.tidy_and_rests.1

end Code

end ForeignPasses
