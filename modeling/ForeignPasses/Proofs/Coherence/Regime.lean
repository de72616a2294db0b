import ForeignPasses.Proofs.Coherence.Honest

/-!
# Runs of a pipeline

What holds before and after every pass of a pipeline, however its groups nest. While a pass runs
something weaker holds, and the invalidation after it makes up for the difference.
-/

namespace ForeignPasses

namespace Tier

open Exec

variable {β I S J : Type} (tier : Tier β I S)

/-- While a pass runs what it reports is not yet invalidated: `changed` says what holds then, `good`
what holds before and after, and `kept` what a report says of the unit before and after. -/
structure Regime (β S : Type) where
  good : Job β S → UnitId → Prop
  changed : Preserved → Job β S → UnitId → Prop
  kept : Preserved → CodeUnit β → CodeUnit β → Prop

namespace Regime

variable (regime : Regime β S)

def GoodIn (w : World (Job β S)) : Prop := regime.good w.focus w.shared.nextUnit

/-- A pass that runs in a good world. -/
def Passes (act : Exec (Job β S) Preserved) : Prop :=
  ∀ w, regime.GoodIn w →
    act.Ensures w
      (fun preserved w' ↦ regime.changed preserved w'.focus w'.shared.nextUnit ∧
        regime.kept preserved w.focus.unit w'.focus.unit)
      fun _ _ ↦ True

/-- Passes that run in a good world, each followed by an invalidation. -/
def Completes (act : Exec (Job β S) Preserved) : Prop :=
  ∀ w, regime.GoodIn w →
    act.Ensures w
      (fun preserved w' ↦ regime.GoodIn w' ∧ regime.kept preserved w.focus.unit w'.focus.unit)
      fun _ _ ↦ True

/-- Reports add up, and an invalidation makes up for the change that was reported. -/
structure Lasting : Prop where
  refl : ∀ u, regime.kept .all u u
  trans : ∀ p q u v x, regime.kept p u v → regime.kept q v x → regime.kept (p.inter q) u x
  unchanged : ∀ p job next, regime.good job next → regime.changed p job next
  invalidated : ∀ p w, regime.changed p w.focus w.shared.nextUnit →
    (tier.invalidateUnit p).Ensures w
      (fun _ w' ↦ regime.GoodIn w' ∧ w'.focus.unit = w.focus.unit) fun _ _ ↦ True

end Regime

variable {tier} {regime : Regime β S}

theorem completes_stage (hlasting : regime.Lasting tier) (name : String)
    {pass : Exec (Job β S) Preserved} (h : regime.Passes pass) :
    regime.Completes (tier.stage name pass) := by
  intro w hgood
  rw [ensures_stage]
  refine Ensures.mono (h _ hgood) ?_ fun _ _ _ ↦ trivial
  rintro preserved w' ⟨hchanged, hkept⟩
  refine (hlasting.invalidated preserved w' hchanged).mono ?_ fun _ _ _ ↦ trivial
  rintro _ w'' ⟨hgood', hunit⟩
  rw [hunit]
  exact ⟨hgood', hkept⟩

variable [Owner S] {adapt : J → Exec (Job β S) Preserved}

/-- What the code of a pass does, before its unit is changed. -/
def Regime.Codes (regime : Regime β S) (tier : Tier β I S) {α : Type}
    (code : CodeUnit β → Edition β I α) (report : α → β × Preserved) : Prop :=
  ∀ w, regime.GoodIn w →
    ((code w.focus.unit).run tier.answerEdit).Ensures w
      (fun r w' ↦ w'.focus.unit = w.focus.unit ∧
        regime.changed (report r).2
          { w'.focus with unit := w.focus.unit.withContent (report r).1 } w'.shared.nextUnit ∧
        regime.kept (report r).2 w.focus.unit (w.focus.unit.withContent (report r).1))
      fun _ _ ↦ True

theorem passes_foreign {name : String} {entry : Entry} {context : Opaque String}
    (h : regime.Codes tier (tier.behaviour.pass entry context.content?)
      fun r ↦ (r.1, .ofStatus r.2)) :
    regime.Passes (tier.runPass adapt (.foreign name entry context)) := by
  intro w hgood
  rw [ensures_runPass_foreign, ensures_invoke]
  refine (h w hgood).mono ?_ fun _ _ _ ↦ trivial
  rintro r w' ⟨hunit, hchanged, hkept⟩
  rw [edited, hunit]
  exact ⟨hchanged, hkept⟩

theorem passes_native {name : String} {entry : Entry}
    (h : regime.Codes tier (tier.behaviour.nativePass entry) id) :
    regime.Passes (tier.runPass adapt (.native name entry)) := by
  intro w hgood
  rw [runPass, ensures_invokeNative]
  refine (h w hgood).mono ?_ fun _ _ _ ↦ trivial
  rintro r w' ⟨hunit, hchanged, hkept⟩
  rw [edited, hunit]
  exact ⟨hchanged, hkept⟩

/-- What the parts of a pipeline have to do for the whole to be good. -/
structure Upheld (tier : Tier β I S) (regime : Regime β S) (adapt : J → Exec (Job β S) Preserved)
    (leaf : (CodeUnit β → Edition β I (β × Preserved)) → Prop) (inner : J → Prop) : Prop where
  lasting : regime.Lasting tier
  codes {α : Type} (code : CodeUnit β → Edition β I α) (report : α → β × Preserved) :
    leaf (fun u ↦ report <$> code u) → regime.Codes tier code report
  adapts : ∀ j, inner j → regime.Passes (adapt j)

variable {leaf : (CodeUnit β → Edition β I (β × Preserved)) → Prop} {inner : J → Prop}

mutual

theorem Upheld.passes_runPass (h : Upheld tier regime adapt leaf inner) (pass : Pass J)
    (hpass : pass.Every tier.behaviour leaf inner) : regime.Passes (tier.runPass adapt pass) := by
  cases pass with
  | foreign name entry context => exact passes_foreign (h.codes _ _ hpass)
  | native name entry =>
    apply passes_native
    apply h.codes
    simpa only [Pass.Every, id_map] using hpass
  | group passes =>
    intro w hgood
    refine (h.completes_runAll passes hpass w hgood).mono ?_ fun _ _ h ↦ h
    rintro preserved w' ⟨hgood', hkept⟩
    exact ⟨h.lasting.unchanged preserved _ _ hgood', hkept⟩
  | perFunction j => exact h.adapts j hpass

theorem Upheld.completes_runAll (h : Upheld tier regime adapt leaf inner) (passes : List (Pass J))
    (hpasses : Pass.EveryOf tier.behaviour leaf inner passes) :
    regime.Completes (tier.runAll adapt passes) := by
  intro w hgood
  cases passes with
  | nil => exact ⟨hgood, h.lasting.refl _⟩
  | cons pass rest =>
    have hpass := completes_stage h.lasting pass.name (h.passes_runPass pass hpasses.1)
    rw [runAll, ensures_bind]
    refine (hpass w hgood).mono ?_ fun _ _ _ ↦ trivial
    rintro preserved w₁ ⟨hgood₁, hkept⟩
    rw [ensures_bind]
    refine (h.completes_runAll rest hpasses.2 w₁ hgood₁).mono ?_ fun _ _ _ ↦ trivial
    rintro others w₂ ⟨hgood₂, hothers⟩
    exact ⟨hgood₂, h.lasting.trans _ _ _ _ _ hkept hothers⟩

end

/-! ## Where passes start -/

/-- A run of passes from one world starts a pass, at any depth of groups, in another world. -/
inductive Starts (tier : Tier β I S) (adapt : J → Exec (Job β S) Preserved) :
    List (Pass J) → World (Job β S) → Pass J → World (Job β S) → Prop where
  | first {pass : Pass J} {rest : List (Pass J)} {w : World (Job β S)} :
    Starts tier adapt (pass :: rest) w pass w
  | within {passes rest : List (Pass J)} {pass : Pass J} {w w' : World (Job β S)}
      (h : Starts tier adapt passes w pass w') :
    Starts tier adapt (.group passes :: rest) w pass w'
  | later {first pass : Pass J} {rest : List (Pass J)} {preserved : Preserved}
      {w w₁ w' : World (Job β S)}
      (hfirst : tier.stage first.name (tier.runPass adapt first) w = .ok preserved w₁)
      (h : Starts tier adapt rest w₁ pass w') :
    Starts tier adapt (first :: rest) w pass w'

/-- Every pass starts in a good world. -/
theorem Upheld.good_of_starts (h : Upheld tier regime adapt leaf inner) {passes : List (Pass J)}
    {pass : Pass J} {w w' : World (Job β S)} (hstarts : tier.Starts adapt passes w pass w')
    (hpasses : Pass.EveryOf tier.behaviour leaf inner passes) (hgood : regime.GoodIn w) :
    regime.GoodIn w' ∧ pass.Every tier.behaviour leaf inner := by
  induction hstarts with
  | first => exact ⟨hgood, hpasses.1⟩
  | within _ ih => exact ih hpasses.1 hgood
  | @later first _ _ _ _ _ _ hfirst _ ih =>
    have hcompletes := completes_stage h.lasting first.name (h.passes_runPass first hpasses.1)
    exact ih hpasses.2 ((hcompletes _ hgood).of_ok hfirst).1

end Tier

end ForeignPasses
