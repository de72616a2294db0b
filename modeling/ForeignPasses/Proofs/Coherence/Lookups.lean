import ForeignPasses.Proofs.Coherence.Modules

/-!
# What passes are told

The look-ups that the code of a pass makes, one after the other, and those of the programs that it
runs over functions. In a good world every answer to them is the right one.
-/

namespace ForeignPasses

open Exec

/-! ## Questions on the way -/

namespace Program

variable {Q σ α β : Type} {A : Q → Type}

/-- A program that is run from one world asks a question in another world. -/
inductive Asks (answer : (q : Q) → Exec σ (A q)) :
    Program Q A α → World σ → Q → World σ → Prop where
  | now {q : Q} {next : A q → Program Q A α} {w : World σ} : Asks answer (.ask q next) w q w
  | later {q q' : Q} {next : A q → Program Q A α} {a : A q} {w w₁ w' : World σ}
      (hanswer : answer q w = .ok a w₁) (h : Asks answer (next a) w₁ q' w') :
    Asks answer (.ask q next) w q' w'

variable {answer : (q : Q) → Exec σ (A q)}

/-- Every question of a program that is good for right answers is allowed where it is asked. -/
theorem Asks.allowed {T : Type} {allows : (q : Q) → (A q → T → Prop) → T → Prop}
    {inv : T → World σ → Prop}
    (hanswer : ∀ q post t w, inv t w → allows q post t →
      (answer q).Ensures w (fun a w' ↦ ∃ t', inv t' w' ∧ post a t') fun _ _ ↦ True)
    {p : Program Q A α} {q : Q} {w w' : World σ} (hasks : p.Asks answer w q w')
    {post : α → T → Prop} {t : T} (hinv : inv t w) (hp : p.fold allows post t) :
    ∃ t' post', inv t' w' ∧ allows q post' t' := by
  induction hasks generalizing t with
  | now => exact ⟨t, _, hinv, hp⟩
  | @later q _ _ _ w _ _ hok _ ih =>
    obtain ⟨t', hinv', hnext⟩ := (hanswer q _ t w hinv hp).of_ok hok
    exact ih hinv' hnext

/-- The same where nothing has to be remembered. -/
theorem Asks.allowed' {allows : (q : Q) → (A q → Prop) → Prop} {inv : World σ → Prop}
    (hanswer : ∀ q post w, inv w → allows q post →
      (answer q).Ensures w (fun a w' ↦ inv w' ∧ post a) fun _ _ ↦ True)
    {p : Program Q A α} {q : Q} {w w' : World σ} (hasks : p.Asks answer w q w') {post : α → Prop}
    (hinv : inv w) (hp : p.fold allows post) : ∃ post', inv w' ∧ allows q post' := by
  induction hasks with
  | now => exact ⟨_, hinv, hp⟩
  | @later q _ _ _ w _ _ hok _ ih =>
    obtain ⟨hinv', hnext⟩ := (hanswer q _ w hinv hp).of_ok hok
    exact ih hinv' hnext

end Program

/-! ## Right answers -/

/-- An answer to a look-up is what the key means in the unit; only the cache may have none. -/
def Inquiry.Truthful {β I : Type} (meaning : Key → CodeUnit β → Finding) :
    (q : Inquiry β I) → q.Answer → Prop
  | .result u key, value => ∃ k, key = some k ∧ meaning k u = .foreign value
  | .cached u key, value => ∃ k, key = some k ∧ (value = none ∨ meaning k u = .foreign value)
  | .native u index, value => meaning (.numbered index) u = .native value
  | _, _ => True

/-- What a look-up is answered where answers are right. -/
theorem Tier.AnswersRight.truthful {β I S : Type} {tier : Tier β I S} {theory : Theory β I S}
    {known : UnitId → Prop} {units : List (CodeUnit β)} {keys : List Key} {next : UnitId}
    {allowed : CodeUnit β → Prop} {answer : (q : Inquiry β I) → Exec (Manager S) q.Answer}
    (h : tier.AnswersRight theory known units keys next allowed answer) {q : Inquiry β I}
    {post : q.Answer → Prop} {w : World (Manager S)}
    (hsound : tier.Sound theory known units keys next w) (hq : theory.allows allowed q post) :
    (answer q).Ensures w (fun a _ ↦ q.Truthful theory.meaning a) fun _ _ ↦ True := by
  have htruthful (hlawful : theory.allows allowed q (q.Truthful theory.meaning)) :
      (answer q).Ensures w (fun a _ ↦ q.Truthful theory.meaning a) fun _ _ ↦ True :=
    (h q _ w hsound hlawful).mono (fun _ _ h ↦ h.2) fun _ _ _ ↦ trivial
  cases q with
  | say text => exact htruthful trivial
  | identities => exact htruthful fun _ ↦ trivial
  | result u key =>
    apply htruthful
    exact ⟨hq.1, fun k value hkey hmeaning ↦ ⟨k, hkey, hmeaning⟩⟩
  | cached u key =>
    apply htruthful
    refine ⟨hq.1, fun k hkey ↦ ⟨⟨k, hkey, .inl rfl⟩, fun value hmeaning ↦ ?_⟩⟩
    exact ⟨k, hkey, .inr hmeaning⟩
  | native u index =>
    apply htruthful
    exact ⟨hq.1, fun value hmeaning ↦ hmeaning⟩
  | within u inner => exact (h _ post w hsound hq).mono (fun _ _ _ ↦ trivial) fun _ _ _ ↦ trivial

/-! ## What the code of a pass is told -/

namespace Tier

variable {β I S α : Type} [Owner S]

/-- Code that works on a job asks something on the way and is told `a`. -/
def Told (tier : Tier β I S) (p : Edition β I α) (w : World (Job β S)) (q : Inquiry β I)
    (a : q.Answer) : Prop :=
  ∃ w₁ w₂, p.Asks tier.answerEdit w (.inquire q) w₁ ∧ tier.answerEdit (.inquire q) w₁ = .ok a w₂

variable {tier : Tier β I S} {theory : Theory β I S} {known : UnitId → Prop}
  {units : List (CodeUnit β)} {allowed : CodeUnit β → Prop} {p : Edition β I α}

/-- Where the code of a pass asks something, results are right and it may ask that. -/
theorem sound_of_asks
    (hanswer : ∀ keys next,
      tier.AnswersRight theory known units keys next allowed (tier.answer tier.fetch))
    {u : CodeUnit β} {start : UnitId} {w : World (Job β S)}
    (h : tier.Working theory known units u start start w) {post : α → UnitId → Prop}
    (hp : p.fold (Edit.Allows (theory.allows allowed)
      (theory.LawfulForeign tier.behaviour.toComputations)) post start)
    {q : Inquiry β I} {w₁ : World (Job β S)} (hasks : p.Asks tier.answerEdit w (.inquire q) w₁) :
    (∃ next, tier.Sound theory known units w₁.focus.manager.keys next
      ⟨w₁.shared, w₁.focus.manager⟩) ∧ ∃ post', theory.allows allowed q post' := by
  obtain ⟨next, post', hworking, hq⟩ := hasks.allowed (ensures_answerEdit_working hanswer) h hp
  exact ⟨⟨next, hworking.coherent, rfl, hworking.next_eq⟩, fun a ↦ post' a next, hq⟩

theorem Told.truthful
    (hanswer : ∀ keys next,
      tier.AnswersRight theory known units keys next allowed (tier.answer tier.fetch))
    {u : CodeUnit β} {start : UnitId} {w : World (Job β S)}
    (h : tier.Working theory known units u start start w) {post : α → UnitId → Prop}
    (hp : p.fold (Edit.Allows (theory.allows allowed)
      (theory.LawfulForeign tier.behaviour.toComputations)) post start)
    {q : Inquiry β I} {a : q.Answer} (htold : tier.Told p w q a) : q.Truthful theory.meaning a := by
  obtain ⟨w₁, w₂, hasks, hok⟩ := htold
  obtain ⟨⟨next, hsound⟩, post', hq⟩ := sound_of_asks hanswer h hp hasks
  have hright : (tier.answerEdit (.inquire q)).Ensures w₁
      (fun a _ ↦ q.Truthful theory.meaning a) fun _ _ ↦ True :=
    (ensures_onManager _).2 ((hanswer _ next).truthful hsound hq)
  exact hright.of_ok hok

end Tier

namespace Code

variable (code : Code) (meaning : Meaning) {α : Type}

/-- Code that works on a module runs a program over the functions on the way, which asks something
and is told `a`. -/
def ToldWithin (p : Edition Functions FunctionInquest α) (w : World (Job Functions FunctionManager))
    (q : Inquiry Body Empty) (a : q.Answer) : Prop :=
  ∃ u inner manager w₁ w₂ w₃ w₄,
    p.Asks code.moduleTier.answerEdit w (.inquire (.within u inner)) w₁ ∧
    code.moduleTier.access.boundaryAttached code.moduleTier.fetch u
      ⟨w₁.shared, w₁.focus.manager⟩ = .ok () w₂ ∧
    w₂.focus.attached? = some manager ∧
    inner.Asks (code.functionTier.answer code.functionTier.fetch) ⟨w₂.shared, manager⟩ q w₃ ∧
    code.functionTier.answer code.functionTier.fetch q w₃ = .ok a w₄

variable {code meaning}

theorem ToldWithin.truthful {m : Module} {bound start : UnitId}
    (hdistinct : Distinct m.content bound)
    {p : Edition Functions FunctionInquest α} {w : World (Job Functions FunctionManager)}
    (h : code.moduleTier.Working
      (meaning.moduleTheory (code.FunctionsRight meaning (fun _ _ ↦ True) m.content bound))
      (fun _ ↦ True) [m] m start start w)
    {post : α → UnitId → Prop}
    (hp : p.fold (Edit.Allows ((meaning.moduleTheory
        (code.FunctionsRight meaning (fun _ _ ↦ True) m.content bound)).allows (· = m))
      ((meaning.moduleTheory
        (code.FunctionsRight meaning (fun _ _ ↦ True) m.content bound)).LawfulForeign
          code.modules.toComputations)) post start)
    {q : Inquiry Body Empty} {a : q.Answer} (htold : code.ToldWithin p w q a) :
    q.Truthful meaning.onFunction a := by
  obtain ⟨u, inner, manager, w₁, w₂, w₃, w₄, hasks, hboundary, hattached, hinner, hok⟩ := htold
  obtain ⟨⟨next, hsound⟩, post', rfl, hwithin⟩ :=
    Tier.sound_of_asks (moduleTier_answersRight code meaning hdistinct) h hp hasks
  have hfetch := moduleTier_fetchesRight code meaning hdistinct w₁.focus.manager.keys next
  have hsound₂ := (Tier.ensures_boundaryAttached_right hfetch (by simp) hsound).of_ok hboundary
  have hright : code.FunctionsRight meaning (fun _ _ ↦ True) u.content bound manager :=
    hsound₂.coherent.inner_of_attached? hattached
  have hanswers := functionTier_answersRight code meaning hdistinct manager.keys next fun _ h ↦ h
  have hfunctions : code.functionTier.Sound meaning.functionTheory (· < bound) u.content
      manager.keys next ⟨w₂.shared, manager⟩ := ⟨hright, rfl, hsound₂.next_eq⟩
  obtain ⟨post'', hsound₃, hq⟩ := hinner.allowed' hanswers hfunctions hwithin
  exact (hanswers.truthful hsound₃ hq).of_ok hok

end Code

end ForeignPasses
