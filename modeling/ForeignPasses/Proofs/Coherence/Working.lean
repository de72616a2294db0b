import ForeignPasses.Proofs.Coherence.Invalidation
import ForeignPasses.Proofs.Coherence.Regime

/-!
# Passes at work

While its code runs, a pass looks things up, registers analyses and makes units. The unit is still
the one it was given, so all results stay right.
-/

namespace ForeignPasses

open Exec

namespace Tier

variable {β I S : Type} [Owner S] (tier : Tier β I S) (theory : Theory β I S)
  (known : UnitId → Prop) (units : List (CodeUnit β)) (u : CodeUnit β) (start : UnitId)

/-- A pass that was given `u` is at work; `next` is the next unit, and `start` was it when the pass
started. -/
structure Working (next : UnitId) (w : World (Job β S)) : Prop where
  coherent : w.focus.manager.Coherent (theory.Lawful tier.behaviour.toComputations) theory.meaning
    known (fun _ _ ↦ True) units
  unit_eq : w.focus.unit = u
  start_le : start ≤ next
  next_eq : w.shared.nextUnit = next

variable {tier theory known units u start} {allowed : CodeUnit β → Prop}

theorem ensures_answerEdit_working
    (hanswer : ∀ keys next,
      tier.AnswersRight theory known units keys next allowed (tier.answer tier.fetch))
    (q : Edit β I) (post : q.Answer → UnitId → Prop) (next : UnitId) (w : World (Job β S))
    (h : tier.Working theory known units u start next w)
    (hq : Edit.Allows (theory.allows allowed)
      (theory.LawfulForeign tier.behaviour.toComputations) q post next) :
    (tier.answerEdit q).Ensures w
      (fun a w' ↦ ∃ next', tier.Working theory known units u start next' w' ∧ post a next')
      fun _ _ ↦ True := by
  cases q with
  | inquire q =>
    have hsound : tier.Sound theory known units w.focus.manager.keys next
        ⟨w.shared, w.focus.manager⟩ := ⟨h.coherent, rfl, h.next_eq⟩
    apply (ensures_onManager (tier.answer tier.fetch q)).2
    refine (hanswer _ next q _ _ hsound hq).mono ?_ fun _ _ _ ↦ trivial
    rintro a w' ⟨hsound', hpost⟩
    exact ⟨next, ⟨hsound'.coherent, h.unit_eq, h.start_le, hsound'.next_eq⟩, hpost⟩
  | register key entry context =>
    obtain ⟨hlawful, hpost⟩ := hq
    apply (ensures_onManager (tier.access.boundaryRegister key entry context)).2
    refine (Access.ensures_boundaryRegister key entry context).mono ?_ fun _ _ _ ↦ trivial
    rintro registered w' ⟨k, hk, ⟨-, hentered⟩, hnext⟩
    refine ⟨next, ⟨?_, h.unit_eq, h.start_le, hnext.trans h.next_eq⟩, hpost registered⟩
    change w'.focus.Coherent _ _ _ _ _
    rw [hentered]
    cases registered with
    | false => exact h.coherent
    | true =>
      apply h.coherent.insert_analysis
      change theory.LawfulForeign _ k entry _
      rw [Opaque.content?_ofRaw_toRaw]
      exact hlawful k hk
  | freshUnit =>
    refine ⟨next + 1, ⟨h.coherent, h.unit_eq, Nat.le_succ_of_le h.start_le, ?_⟩, ?_⟩
    · exact congrArg (· + 1) h.next_eq
    · rw [h.next_eq]
      exact hq

/-- The code of a pass that is good for right answers ends well. -/
theorem ensures_run_working {α : Type}
    (hanswer : ∀ keys next,
      tier.AnswersRight theory known units keys next allowed (tier.answer tier.fetch))
    {p : Edition β I α} {post : α → UnitId → Prop} {w : World (Job β S)}
    (h : tier.Working theory known units u start start w)
    (hp : p.fold (Edit.Allows (theory.allows allowed)
      (theory.LawfulForeign tier.behaviour.toComputations)) post start) :
    Ensures (p.run tier.answerEdit) w
      (fun r w' ↦ ∃ next, tier.Working theory known units u start next w' ∧ post r next)
      fun _ _ ↦ True :=
  Program.ensures_run_of_fold (ensures_answerEdit_working hanswer) h hp

end Tier

namespace Code

variable (code : Code) (meaning : Meaning) (possible : Module → Prop)

/-! ## Over the functions of a module -/

section Functions

variable (m : Module) (before after : Functions)

/-- Passes over a function of a module, which stands between others. -/
def functionRegime : Tier.Regime Body Empty where
  good job next :=
    code.FunctionsRight meaning (fun _ _ ↦ True) (before ++ job.unit :: after) next job.manager ∧
      Distinct (before ++ job.unit :: after) next ∧
      possible (m.withContent (before ++ job.unit :: after))
  changed preserved job next :=
    code.FunctionsRight meaning
        (fun g key ↦ g.id = job.unit.id → preserved.contains key = true)
        (before ++ job.unit :: after) next job.manager ∧
      Distinct (before ++ job.unit :: after) next ∧
      possible (m.withContent (before ++ job.unit :: after))
  kept preserved f g := g.id = f.id ∧ ∀ key, preserved.contains key = true →
    meaning.onModule key (m.withContent (before ++ g :: after)) =
      meaning.onModule key (m.withContent (before ++ f :: after))

variable {code meaning possible m before after}

theorem functionRegime_lasting :
    (code.functionRegime meaning possible m before after).Lasting code.functionTier where
  refl f := ⟨rfl, fun _ _ ↦ rfl⟩
  trans p q f g h := by
    rintro ⟨hid, hp⟩ ⟨hid', hq⟩
    refine ⟨hid'.trans hid, fun key hkey ↦ ?_⟩
    rw [Preserved.contains_inter, Bool.and_eq_true] at hkey
    exact (hq key hkey.2).trans (hp key hkey.1)
  unchanged p job next h := ⟨h.1.of_valid fun _ _ _ _ _ ↦ trivial, h.2⟩
  invalidated p w h := by
    obtain ⟨hright, hdistinct, hpossible⟩ := h
    rw [Tier.ensures_invalidateUnit]
    have hvalid : ∀ (g : Function) (key : Key), g.id = w.focus.unit.id → p.contains key = true →
        g.id = w.focus.unit.id → p.contains key = true := fun _ _ _ hkey _ ↦ hkey
    refine (ensures_invalidate_function hvalid rfl hright).mono ?_ fun _ _ _ ↦ trivial
    rintro _ w' ⟨hright', hnext⟩
    refine ⟨⟨?_, ?_, hpossible⟩, rfl⟩
    · rw [hnext]
      apply hright'.of_valid
      intro g _ key _ _
      by_cases hid : g.id = w.focus.unit.id
      · exact .inl hid
      · exact .inr fun h ↦ absurd h hid
    · rw [hnext]
      exact hdistinct

/-- Functions keep their identifiers when one of them gets another body. -/
theorem Distinct.replace (f g : Function) (hid : g.id = f.id) {next next' : UnitId}
    (hnext : next ≤ next') (h : Distinct (before ++ f :: after) next) :
    Distinct (before ++ g :: after) next' where
  nodup := by
    have hnodup := h.nodup
    rw [List.map_append, List.map_cons] at hnodup ⊢
    rwa [hid]
  before e he := by
    refine Nat.lt_of_lt_of_le ?_ hnext
    rcases List.mem_append.1 he with he | he
    · exact h.before e (List.mem_append_left _ he)
    · rcases List.mem_cons.1 he with rfl | he
      · rw [hid]
        exact h.before f (by simp)
      · exact h.before e (by simp [he])

/-- What an honest pass preserves is right when its function has changed. -/
theorem functionRegime_changed {f : Function} {body : Body} {preserved : Preserved}
    {start next : UnitId} (hnext : start ≤ next) {manager : FunctionManager}
    (hright : code.FunctionsRight meaning (fun _ _ ↦ True) (before ++ f :: after) start manager)
    (hreport : meaning.FunctionReport m before f after body preserved) :
    code.FunctionsRight meaning
      (fun g key ↦ g.id = (f.withContent body).id → preserved.contains key = true)
      (before ++ f.withContent body :: after) next manager := by
  apply hright.of_units
  · intro id hid
    exact Nat.lt_of_lt_of_le hid hnext
  · intro g hg key r hkey hr
    by_cases hf : g = f.withContent body
    · subst hf
      have hmeaning := hreport.onFunction key (hkey rfl)
      exact (hright.right f (by simp) key r trivial hr).trans hmeaning.symm
    · refine hright.right g ?_ key r trivial hr
      rcases List.mem_append.1 hg with hg | hg
      · exact List.mem_append_left _ hg
      · rcases List.mem_cons.1 hg with hg | hg
        · exact absurd hg hf
        · simp [hg]

theorem functionRegime_codes {α : Type} (pass : Function → Edition Body Empty α)
    (report : α → Body × Preserved)
    (h : code.HonestOverFunctions meaning possible fun f ↦ report <$> pass f) :
    (code.functionRegime meaning possible m before after).Codes code.functionTier pass report := by
  intro w hgood
  obtain ⟨hright, hdistinct, hpossible⟩ := hgood
  have hfold := h m before w.focus.unit after w.shared.nextUnit hpossible
  rw [Program.fold_map] at hfold
  have hworking : code.functionTier.Working meaning.functionTheory (· < w.shared.nextUnit)
      (before ++ w.focus.unit :: after) w.focus.unit w.shared.nextUnit w.shared.nextUnit w :=
    ⟨hright, rfl, Nat.le_refl _, rfl⟩
  have hallowed : ∀ f, f = w.focus.unit → f ∈ before ++ w.focus.unit :: after := by
    rintro f rfl
    simp
  have hanswer (keys : List Key) (next : UnitId) :=
    functionTier_answersRight code meaning hdistinct keys next hallowed
  refine (Tier.ensures_run_working hanswer hworking hfold).mono ?_ fun _ _ _ ↦ trivial
  rintro r w' ⟨next, hworking', hreport, hpossible'⟩
  have hnext := hworking'.next_eq
  refine ⟨hworking'.unit_eq, ⟨?_, ?_, hpossible'⟩, rfl, hreport.onModule⟩
  · rw [hnext]
    exact functionRegime_changed hworking'.start_le hworking'.coherent hreport
  · rw [hnext]
    exact hdistinct.replace w.focus.unit (w.focus.unit.withContent (report r).1) rfl
      hworking'.start_le

/-- A pipeline of honest passes over a function. -/
theorem functionRegime_upheld :
    code.functionTier.Upheld (code.functionRegime meaning possible m before after)
      (fun j : Empty ↦ nomatch j) (code.HonestOverFunctions meaning possible)
      (fun j : Empty ↦ nomatch j) where
  lasting := functionRegime_lasting
  codes := functionRegime_codes
  adapts j := nomatch j

end Functions

end Code

end ForeignPasses
