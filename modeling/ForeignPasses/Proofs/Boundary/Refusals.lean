import ForeignPasses.Demo
import ForeignPasses.Proofs.Boundary.Strata

/-!
# Calls that return or are refused

A call from beyond the boundary is checked for its key only. That is enough if the manager keeps to
an order in strata: then it returns, or it is refused because the key is null or not registered,
and so is every call that is made in the course of it. Without such an order a registered key can
still meet a result of another type, or the analysis that is making the call.
-/

namespace ForeignPasses

open Exec

/-- A refusal at the boundary, which is the only way for a call not to return. -/
def Halt.IsRefusal : Halt → Prop
  | .fatal .nullKey => True
  | .fatal (.unregistered ..) => True
  | _ => False

/-- A refusal, or a nesting that was not allowed for. -/
def Halt.IsCalm (e : Halt) : Prop := e.IsRefusal ∨ e = .exhausted

theorem Halt.IsCalm.crossed {e : Halt} (h : e.IsCalm) : e.crossed.IsCalm := by
  cases e with
  | panicked p =>
    rcases h with h | h
    · exact h.elim
    · contradiction
  | crashed p => exact h
  | fatal error => exact h
  | exhausted => exact h

namespace Tier

variable {β I S : Type} (tier : Tier β I S) (order : Order I S)

/-- An action that ends in order: analyses run as before, or it was refused. -/
def EndsCalmly (profile : Table Key Bool) {α : Type} (act : Exec (Manager S) α)
    (w : World (Manager S)) : Prop :=
  act.Ensures w (fun _ w' ↦ tier.Steady order profile w') fun e _ ↦ e.IsCalm

/-- Questions of code at a level are answered in order. -/
def AnswersCalmly (profile : Table Key Bool) (n : Nat)
    (answer : (q : Inquiry β I) → Exec (Manager S) q.Answer) : Prop :=
  ∀ q w, tier.Steady order profile w → q.Descends order.strata n order.within →
    tier.EndsCalmly order profile (answer q) w

/-- A way of getting results that ends in order below a level, and where the attached manager is
concerned. -/
structure FetchesCalmly (profile : Table Key Bool) (n : Nat) (fetch : Fetch (Manager S) β) :
    Prop where
  foreign : ∀ u w key, tier.Steady order profile w →
    (w.shared.slot tier.kind).current = some key → order.strata.Below n key →
    (profile.find? key).isSome = true → tier.EndsCalmly order profile (fetch .foreign u) w
  attached : ∀ u w, tier.Steady order profile w → (profile.find? .proxy).isSome = true →
    tier.EndsCalmly order profile (fetch .attached u) w

variable {tier order} {profile : Table Key Bool}

/-! ## Requests -/

section Requests

variable {answer : (q : Inquiry β I) → Exec (Manager S) q.Answer}

/-- An analysis that is at rest is computed, and what it finds goes with its key. -/
theorem ensures_requestAt_calm {f : Flavour} {key : Key}
    (hregistered : (profile.find? key).isSome = true) (hrest : profile.find? key ≠ some true)
    (hreceive : ∀ r, order.strata.Fits key r → ∃ a, f.receive r = some a) {u : CodeUnit β}
    (hcompute : ∀ analysis w, tier.Fits order key analysis →
      tier.Steady order (profile.modify key fun _ ↦ true) w →
        (tier.access.compute answer u analysis).Ensures w
          (fun r w' ↦ tier.Steady order (profile.modify key fun _ ↦ true) w' ∧
            order.strata.Fits key r)
          fun e _ ↦ e.IsCalm)
    {w : World (Manager S)} (h : tier.Steady order profile w) :
    tier.EndsCalmly order profile (tier.access.requestAt answer f key u) w := by
  have hexpect (r : Result) (hr : order.strata.Fits key r) (w : World (Manager S)) :
      (f.expect r : Exec (Manager S) f.Answer).Ensures w (fun _ w' ↦ w' = w)
        fun e _ ↦ e.IsCalm := by
    obtain ⟨a, ha⟩ := hreceive r hr
    rw [Flavour.expect, ha]
    rfl
  unfold EndsCalmly
  have hprofile : profile.find? key = (w.focus.analyses.find? key).map Registered.running := by
    rw [← h.profile_eq, Manager.find?_profile]
  apply Access.ensures_requestAt_of
  case hfound =>
    intro r message hfind
    refine (hexpect r (h.layered.results u.id key r hfind) _).mono ?_ fun _ _ h ↦ h
    rintro a w' rfl
    exact h.congr rfl
  case hunregistered =>
    intro _ (hanalysis : w.focus.analyses.find? key = none)
    rw [hprofile, hanalysis] at hregistered
    contradiction
  case hrunning =>
    intro analysis message _ (hanalysis : w.focus.analyses.find? key = some ⟨analysis, true⟩)
    rw [hanalysis] at hprofile
    exact absurd hprofile hrest
  case hresting =>
    intro analysis message _ (hanalysis : w.focus.analyses.find? key = some ⟨analysis, false⟩)
    rw [hanalysis] at hprofile
    refine Ensures.mono (hcompute analysis _ (h.layered.analyses key _ hanalysis)
      (h.start key _)) ?_ fun _ _ h ↦ h
    rintro r w₁ ⟨hsteady, hr⟩
    simp only [ensures_bind, Access.ensures_keep]
    refine (hexpect r hr _).mono ?_ fun _ _ h ↦ h
    rintro a w' rfl
    exact (hsteady.stop hprofile w₁.shared).insert_result hr u.id _

theorem ensures_compute_calm {key : Key} {l : Nat} (hlevel : order.strata.level key = some l)
    (hanswer : tier.AnswersCalmly order profile l answer) {analysis : Analysis S}
    (hfits : tier.Fits order key analysis) (u : CodeUnit β) {w : World (Manager S)}
    (h : tier.Steady order profile w) :
    (tier.access.compute answer u analysis).Ensures w
      (fun r w' ↦ tier.Steady order profile w' ∧ order.strata.Fits key r)
      fun e _ ↦ e.IsCalm := by
  have hdescending := hfits.foreign l hlevel
  cases analysis with
  | foreign entry context =>
    simp only [Access.compute, ensures_bind, ensures_boundary, ensures_adopt, ensures_pure]
    refine (Program.ensures_run_of_asksOnly hanswer (hdescending u) h).mono
      ?_ fun _ _ h ↦ h.crossed
    intro value w' hsteady
    refine ⟨hsteady.congr rfl, fun _ _ ↦ ⟨_, rfl⟩, ?_⟩
    rintro rfl
    rw [order.strata.level_proxy] at hlevel
    contradiction
  | native entry => exact hdescending.elim
  | attached inner => exact hdescending.elim

theorem request_fetchesCalmly {n : Nat} (hquiet : order.strata.Quiet n profile)
    (hanswer : ∀ key l, order.strata.level key = some l → l < n →
      tier.AnswersCalmly order (profile.modify key fun _ ↦ true) l answer) :
    tier.FetchesCalmly order profile n (tier.access.request answer) where
  foreign u w key h hslot hbelow hregistered := by
    obtain ⟨l, hlevel, hl⟩ := id hbelow
    unfold EndsCalmly
    rw [Access.request, ensures_bind]
    refine (ensures_identity_of_current hslot).2 ?_
    refine ensures_requestAt_calm hregistered (hquiet.below key hbelow) ?_ ?_ h
    · intro r hr
      obtain ⟨value, rfl⟩ := hr.foreign l hlevel
      exact ⟨value, rfl⟩
    · intro analysis w' hfits hstarted
      exact ensures_compute_calm hlevel (hanswer key l hlevel hl) hfits u hstarted
  attached u w h hregistered := by
    unfold EndsCalmly
    rw [Access.request, ensures_bind, Flavour.resolve, ensures_pure]
    refine ensures_requestAt_calm hregistered hquiet.proxy ?_ ?_ h
    · intro r hr
      obtain rfl := hr.attached rfl
      exact ⟨(), rfl⟩
    · intro analysis w' hfits hstarted
      obtain ⟨inner, rfl, -⟩ := hfits.attached rfl
      refine ⟨hstarted, fun l hl ↦ ?_, fun _ ↦ rfl⟩
      rw [order.strata.level_proxy] at hl
      contradiction

end Requests

/-! ## Calls -/

section Calls

variable {n : Nat} {fetch : Fetch (Manager S) β} {w : World (Manager S)}

theorem ensures_boundaryResult_calm (hfetch : tier.FetchesCalmly order profile n fetch)
    (u : CodeUnit β) {key : Option Key} (hkey : ∀ k, key = some k → order.strata.Below n k)
    (h : tier.Steady order profile w) :
    tier.EndsCalmly order profile (tier.access.boundaryResult fetch u key) w := by
  cases key with
  | none => exact .inl trivial
  | some key =>
    have hresult (hregistered : (profile.find? key).isSome = true) :
        (withKey tier.kind key (fetch .foreign u)).Ensures w
          (fun _ w' ↦ tier.Steady order profile w') fun e _ ↦ e.crossed.IsCalm := by
      rw [ensures_withKey]
      refine Ensures.mono (hfetch.foreign u _ key (h.congr rfl) ?_ (hkey key rfl) hregistered) ?_
        fun _ _ h ↦ h.crossed
      · exact Access.slot_inScope tier.kind key w
      · intro value w' hsteady
        exact hsteady.congr rfl
    unfold EndsCalmly
    -- The scope is opened behind the check, and what is registered does not depend on it.
    simp only [Access.boundaryResult, ensures_boundary, ensures_bind, Access.ensures_held]
    cases hregistered : (tier.access.manager w.focus).isRegistered key with
    | true => exact hresult ((h.isRegistered key).symm.trans hregistered)
    | false => exact .inl trivial

/-- A call for what is cached computes nothing. It fails only if the key is null, or if what is
cached under it is not the result of a foreign analysis. -/
theorem ensures_boundaryCached_exact (u : CodeUnit β) (key : Option Key) :
    (tier.access.boundaryCached u key).Ensures w (fun _ w' ↦ w'.focus = w.focus)
      fun e _ ↦ e = .fatal .nullKey ∨ e = .crossed (.panicked .typeMismatch) ∧
        ∃ k r, key = some k ∧ w.focus.results.find? (u.id, k) = some r ∧
          ∀ value, r ≠ .foreign value := by
  cases key with
  | none => exact .inl rfl
  | some key =>
    simp only [Access.boundaryCached, ensures_boundary]
    apply Access.ensures_resolved
    apply Access.ensures_cachedAt_of
    case hfound =>
      intro r hfind
      cases r with
      | foreign value => exact rfl
      | native value => exact .inr ⟨rfl, key, _, rfl, hfind, by rintro _ ⟨⟩⟩
      | attached => exact .inr ⟨rfl, key, _, rfl, hfind, by rintro _ ⟨⟩⟩
    case hmissing => exact fun _ ↦ rfl

theorem ensures_boundaryCached_calm (u : CodeUnit β) {key : Option Key}
    (hkey : ∀ k, key = some k → ∃ l, order.strata.level k = some l)
    (h : tier.Steady order profile w) :
    tier.EndsCalmly order profile (tier.access.boundaryCached u key) w := by
  refine (ensures_boundaryCached_exact u key).mono (fun _ _ hfocus ↦ h.congr hfocus) ?_
  rintro e _ (rfl | ⟨-, k, r, hk, hfind, hother⟩)
  · exact .inl trivial
  · obtain ⟨l, hl⟩ := hkey k hk
    obtain ⟨value, rfl⟩ := (h.layered.results u.id k r hfind).foreign l hl
    exact absurd rfl (hother value)

theorem ensures_boundaryAttached_calm (hfetch : tier.FetchesCalmly order profile n fetch)
    (u : CodeUnit β) (h : tier.Steady order profile w) :
    (tier.access.boundaryAttached fetch u).Ensures w
      (fun _ w' ↦ tier.Steady order profile w' ∧ (profile.find? .proxy).isSome = true)
      fun e _ ↦ e.IsCalm := by
  have hattached (hproxy : (profile.find? .proxy).isSome = true) :
      (fetch .attached u).Ensures w
        (fun _ w' ↦ tier.Steady order profile w' ∧ (profile.find? .proxy).isSome = true)
        fun e _ ↦ e.crossed.IsCalm :=
    (hfetch.attached u w h hproxy).mono (fun _ _ h ↦ ⟨h, hproxy⟩) fun _ _ h ↦ h.crossed
  simp only [Access.boundaryAttached, ensures_boundary, ensures_bind, Access.ensures_held]
  cases hproxy : (tier.access.manager w.focus).isRegistered .proxy with
  | true => exact hattached ((h.isRegistered .proxy).symm.trans hproxy)
  | false => exact .inl trivial

/-- Programs of the inner level, run on a manager that may be attached, end in order. -/
def RunsWithin (tier : Tier β I S) (order : Order I S) : Prop :=
  ∀ i s inner, order.within i → order.inner inner →
    (tier.within i).Ensures ⟨s, inner⟩ (fun _ w' ↦ order.inner w'.focus) fun e _ ↦ e.IsCalm

theorem ensures_onAttached_calm (hwithin : tier.RunsWithin order) {i : I} (hi : order.within i)
    (h : tier.Steady order profile w) (hproxy : (profile.find? .proxy).isSome = true) :
    tier.EndsCalmly order profile (onAttached (tier.within i)) w := by
  rw [← h.isRegistered] at hproxy
  obtain ⟨inner, hattached, hinner⟩ := h.layered.attached hproxy
  unfold EndsCalmly
  refine (ensures_onAttached hattached).2 ((hwithin i w.shared inner hi hinner).mono ?_ fun _ _ h ↦ h)
  intro _ w' hinner'
  exact h.setAttached hinner' _

theorem answersCalmly (hwithin : tier.RunsWithin order)
    (hfetch : tier.FetchesCalmly order profile n fetch) :
    tier.AnswersCalmly order profile n (tier.answer fetch) := by
  intro q w h hq
  cases q with
  | say text => exact h.congr rfl
  | identities => exact h
  | result u key =>
    exact (ensures_bind (tier.access.boundaryResult fetch u key) _).2
      (ensures_boundaryResult_calm hfetch u hq h)
  | cached u key =>
    exact (ensures_bind (tier.access.boundaryCached u key) _).2
      (ensures_boundaryCached_calm u hq h)
  | native u index => exact hq.elim
  | within u i =>
    apply (ensures_bind (tier.access.boundaryAttached fetch u) _).2
    refine (ensures_boundaryAttached_calm hfetch u h).mono ?_ fun _ _ h ↦ h
    rintro _ w' ⟨hsteady, hproxy⟩
    exact ensures_onAttached_calm hwithin hq hsteady hproxy

theorem fetchWithin_fetchesCalmly (hwithin : tier.RunsWithin order) (depth : Nat)
    (hquiet : order.strata.Quiet n profile) :
    tier.FetchesCalmly order profile n (tier.fetchWithin depth) := by
  -- One depth less answers the analyses that run now, at their own levels and with one more of
  -- them running, so level and profile vary.
  induction depth generalizing n profile with
  | zero =>
    apply request_fetchesCalmly hquiet
    intro key l _ _
    apply answersCalmly hwithin
    exact ⟨fun _ _ _ _ _ _ _ ↦ .inr rfl, fun _ _ _ _ ↦ .inr rfl⟩
  | succ depth ih =>
    apply request_fetchesCalmly hquiet
    intro key l hlevel hl
    exact answersCalmly hwithin (ih (hquiet.start hlevel hl))

theorem fetch_fetchesCalmly (hwithin : tier.RunsWithin order)
    (hquiet : order.strata.Quiet n profile) : tier.FetchesCalmly order profile n tier.fetch where
  foreign u w key h hslot hbelow hregistered := by
    unfold EndsCalmly
    rw [Tier.ensures_fetch]
    exact (fetchWithin_fetchesCalmly hwithin _ hquiet).foreign u w key h hslot hbelow hregistered
  attached u w h hregistered := by
    unfold EndsCalmly
    rw [Tier.ensures_fetch]
    exact (fetchWithin_fetchesCalmly hwithin _ hquiet).attached u w h hregistered

/-- Requests do not nest deeper than was allowed for, so what ends in order returns or is
refused. -/
theorem EndsCalmly.returns [Account S] {α : Type} {act : Exec (Manager S) α}
    (h : tier.EndsCalmly order profile act w) (hact : ∀ n, act.Consults n) :
    act.Ensures w (fun _ w' ↦ tier.Steady order profile w') fun e _ ↦ e.IsRefusal := by
  refine (Ensures.and h (hact _ w (Nat.lt_succ_self _))).mono (fun _ _ h ↦ h.1) ?_
  rintro e _ ⟨hrefusal | rfl, hexcused⟩
  · exact hrefusal
  · exact hexcused.elim

end Calls

/-! ## Calls that crash -/

theorem requestAt_panics (answer : (q : Inquiry β I) → Exec (Manager S) q.Answer) (u : CodeUnit β)
    {key : Key} {w : World (Manager S)}
    (hother : ∀ r, w.focus.results.find? (u.id, key) = some r → ∀ value, r ≠ .foreign value)
    (hrunning : w.focus.results.find? (u.id, key) = none → w.focus.profile.find? key = some true) :
    (tier.access.requestAt answer .foreign key u).Ensures w (fun _ _ ↦ False)
      fun e _ ↦ e = .panicked .typeMismatch ∨ e = .panicked .selfRequest := by
  apply Access.ensures_requestAt_of
  case hfound =>
    intro r message hfind
    cases r with
    | foreign value => exact absurd rfl (hother _ hfind value)
    | native value => exact .inl rfl
    | attached => exact .inl rfl
  case hunregistered =>
    intro hfind (hanalysis : w.focus.analyses.find? key = none)
    have hprofile := hrunning hfind
    rw [Manager.find?_profile, hanalysis] at hprofile
    contradiction
  case hrunning => exact fun _ _ _ _ ↦ .inr rfl
  case hresting =>
    intro analysis message hfind (hanalysis : w.focus.analyses.find? key = some ⟨analysis, false⟩)
    cases (Manager.profile_of_find? hanalysis).symm.trans (hrunning hfind)

theorem fetch_panics (u : CodeUnit β) {key : Key} {w : World (Manager S)}
    (hslot : (w.shared.slot tier.kind).current = some key)
    (hother : ∀ r, w.focus.results.find? (u.id, key) = some r → ∀ value, r ≠ .foreign value)
    (hrunning : w.focus.results.find? (u.id, key) = none → w.focus.profile.find? key = some true) :
    (tier.fetch .foreign u).Ensures w (fun _ _ ↦ False)
      fun e _ ↦ e = .panicked .typeMismatch ∨ e = .panicked .selfRequest := by
  apply ensures_fetch_of
  intro answer
  rw [Access.request, ensures_bind]
  refine (ensures_identity_of_current hslot).2 ?_
  exact requestAt_panics answer u hother hrunning

/-- Being registered is not enough for a call to return: the result that is cached may be of
another type, or the analysis may be what is being computed. -/
theorem boundaryResult_crashes (u : CodeUnit β) {key : Key} {w : World (Manager S)}
    (hregistered : w.focus.isRegistered key = true)
    (hother : ∀ r, w.focus.results.find? (u.id, key) = some r → ∀ value, r ≠ .foreign value)
    (hrunning : w.focus.results.find? (u.id, key) = none → w.focus.profile.find? key = some true) :
    (tier.access.boundaryResult tier.fetch u (some key)).Ensures w (fun _ _ ↦ False)
      fun e _ ↦ e = .crashed .typeMismatch ∨ e = .crashed .selfRequest := by
  have hcall : (withKey tier.kind key (tier.fetch .foreign u)).Ensures w (fun _ _ ↦ False)
      fun e _ ↦ e.crossed = .crashed .typeMismatch ∨ e.crossed = .crashed .selfRequest := by
    rw [ensures_withKey]
    refine Ensures.mono (fetch_panics u (Access.slot_inScope tier.kind key w) hother hrunning)
      (fun _ _ h ↦ h) ?_
    rintro e _ (rfl | rfl)
    · exact .inl rfl
    · exact .inr rfl
  simp only [Access.boundaryResult, ensures_boundary, ensures_bind, Access.ensures_held]
  change Ensures (if w.focus.isRegistered key = true then _ else _) _ _ _
  rw [if_pos hregistered]
  exact hcall

/-- Every call with a key below a level returns or is refused, and the manager keeps to its order
with the same analyses being computed as before. -/
structure CallsReturn (tier : Tier β I S) (order : Order I S) (n : Nat) (w : World (Manager S)) :
    Prop where
  result : ∀ u key, (∀ k, key = some k → order.strata.Below n k) →
    (tier.access.boundaryResult tier.fetch u key).Ensures w
      (fun _ w' ↦ tier.Steady order w.focus.profile w') fun e _ ↦ e.IsRefusal
  cached : ∀ u key, (∀ k, key = some k → ∃ l, order.strata.level k = some l) →
    (tier.access.boundaryCached u key).Ensures w
      (fun _ w' ↦ tier.Steady order w.focus.profile w') fun e _ ↦ e.IsRefusal
  attached : ∀ u, (tier.access.boundaryAttached tier.fetch u).Ensures w
    (fun _ w' ↦ tier.Steady order w.focus.profile w') fun e _ ↦ e.IsRefusal

theorem callsReturn [Account S] (hwithin : tier.RunsWithin order)
    (hkeeps : ∀ i, (tier.within i).Keeps Role.Any True 0 fun _ ↦ 0) {n : Nat}
    {w : World (Manager S)} (hlayered : tier.Layered order w.focus)
    (hquiet : order.strata.Quiet n w.focus.profile) : tier.CallsReturn order n w := by
  have hsteady : tier.Steady order w.focus.profile w := ⟨hlayered, rfl⟩
  have hfetch := fetch_fetchesCalmly hwithin hquiet
  constructor
  · intro u key hkey
    exact (ensures_boundaryResult_calm hfetch u hkey hsteady).returns fun _ ↦
      consults_boundaryResult (consults_fetch hkeeps) u key
  · intro u key hkey
    exact (ensures_boundaryCached_calm u hkey hsteady).returns fun _ ↦
      consults_boundaryCached u key
  · intro u
    have hcalm : tier.EndsCalmly order w.focus.profile (tier.access.boundaryAttached tier.fetch u)
        w :=
      (ensures_boundaryAttached_calm hfetch u hsteady).mono (fun _ _ h ↦ h.1) fun _ _ h ↦ h
    exact hcalm.returns fun _ ↦ consults_boundaryAttached (consults_fetch hkeeps) u

end Tier

/-! ## The two kinds of unit -/

namespace Code

/-- There is nothing further inside of functions. -/
def functionOrder (strata : Strata) : Order Empty Empty where
  strata
  within _ := True
  inner _ := True

/-- Code that works on a module may ask the attached manager for whatever is in a stratum, as long
as nothing is being computed there. -/
def moduleOrder (code : Code) (onFunctions onModules : Strata) :
    Order FunctionInquest FunctionManager where
  strata := onModules
  within i := ∃ n, i.AsksOnly (Inquiry.Descends onFunctions n fun _ ↦ True)
  inner m := code.functionTier.Layered (functionOrder onFunctions) m ∧ onFunctions.Still m.profile

variable {code : Code} {onFunctions onModules : Strata}

theorem runsWithin_function : code.functionTier.RunsWithin (functionOrder onFunctions) :=
  fun i ↦ i.elim

theorem runsWithin_module :
    code.moduleTier.RunsWithin (code.moduleOrder onFunctions onModules) := by
  rintro i s inner ⟨n, hi⟩ ⟨hlayered, hstill⟩
  have hanswer : code.functionTier.AnswersCalmly (functionOrder onFunctions) inner.profile n
      (code.functionTier.answer code.functionTier.fetch) :=
    Tier.answersCalmly runsWithin_function (Tier.fetch_fetchesCalmly runsWithin_function (hstill n))
  refine (Program.ensures_run_of_asksOnly hanswer hi
    ⟨hlayered, rfl⟩).mono ?_ fun _ _ h ↦ h
  intro _ w' hsteady
  exact ⟨hsteady.layered, hsteady.profile_eq ▸ hstill⟩

/-- Where foreign keys are in strata, no panic starts in a call from beyond the boundary. -/
theorem calls_return (code : Code) (onFunctions onModules : Strata) :
    (∀ n (w : World FunctionManager),
      code.functionTier.Layered (functionOrder onFunctions) w.focus →
        onFunctions.Quiet n w.focus.profile →
          code.functionTier.CallsReturn (functionOrder onFunctions) n w) ∧
    (∀ n (w : World ModuleManager),
      code.moduleTier.Layered (code.moduleOrder onFunctions onModules) w.focus →
        onModules.Quiet n w.focus.profile →
          code.moduleTier.CallsReturn (code.moduleOrder onFunctions onModules) n w) :=
  ⟨fun _ _ hlayered hquiet ↦
      Tier.callsReturn runsWithin_function code.keeps_functionWithin hlayered hquiet,
    fun _ _ hlayered hquiet ↦
      Tier.callsReturn runsWithin_module code.keeps_moduleWithin hlayered hquiet⟩

end Code

namespace Demo

/-! ## A chain of analyses -/

/-- Every analysis but the first asks for the one before it. -/
def chain : Entry → Function → Inquest Body Empty (Handed Int)
  | 0, f => return boxed f.content.length
  | entry + 1, f => do
    let found ← Inquest.result f (some (.numbered entry))
    return boxed (found.getD 0).toNat

/-- The demonstration with a chain over functions. -/
def chained : Code :=
  { code with functions := { functionBehaviour with analysis := fun entry _ f ↦ chain entry f } }

/-- Keys are at the levels that their numbers say. -/
def numbers : Strata where
  level
    | .numbered n => some n
    | .proxy => none
  level_proxy := rfl

theorem fits_chain (entry : Entry) :
    chained.functionTier.Fits (Code.functionOrder numbers) (.numbered entry)
      (.foreign entry .null) where
  foreign l hl f := by
    obtain rfl : entry = l := Option.some.inj hl
    cases entry with
    | zero => trivial
    | succ n =>
      refine ⟨?_, fun _ ↦ trivial⟩
      rintro _ ⟨⟩
      exact ⟨n, rfl, Nat.lt_succ_self n⟩
  attached h := nomatch h

def chainManager : FunctionManager where
  analyses := Table.insert (Table.insert ∅ (.numbered 0) ⟨.foreign 0 .null, false⟩) (.numbered 1)
    ⟨.foreign 1 .null, false⟩

theorem layered_chainManager :
    chained.functionTier.Layered (Code.functionOrder numbers) chainManager :=
  (Tier.Layered.empty.insert_analysis (fits_chain 0) false).insert_analysis (fits_chain 1) false

theorem still_chainManager : numbers.Still chainManager.profile :=
  Strata.still_of_entries (by decide)

def attachedChain : ModuleManager where
  analyses := Table.insert ∅ .proxy ⟨.attached chainManager, false⟩

theorem layered_attachedChain :
    chained.moduleTier.Layered (chained.moduleOrder numbers numbers) attachedChain := by
  apply Tier.Layered.empty.insert_analysis
  constructor
  · intro l hl
    contradiction
  · intro _
    exact ⟨chainManager, rfl, layered_chainManager, still_chainManager⟩

def main : Function := ⟨2, "main", ["nop", "ret"]⟩

/-- The second analysis of the chain asks for the first, and both may be asked for. -/
theorem calls_return_chained :
    chained.functionTier.CallsReturn (Code.functionOrder numbers) 2 ⟨{}, chainManager⟩ ∧
      chained.moduleTier.CallsReturn (chained.moduleOrder numbers numbers) 2
        ⟨{}, attachedChain⟩ :=
  ⟨(Code.calls_return chained numbers numbers).1 2 ⟨{}, chainManager⟩ layered_chainManager
      (still_chainManager 2),
    (Code.calls_return chained numbers numbers).2 2 ⟨{}, attachedChain⟩ layered_attachedChain
      (Strata.still_of_entries (by decide) 2)⟩

/-- A native result is asked for as a foreign one, and the second analysis of the chain is
registered under the key that it asks for. -/
theorem calls_crash :
    (do
      let _ ← chained.functionTier.registerNative 0 0
      let _ ← chained.functionTier.fetch (.native 0) main
      chained.functionTier.access.boundaryCached main (some (.numbered 0)) :
        Exec FunctionManager (Option (Opaque Int))).Ensures ⟨{}, {}⟩ (fun _ _ ↦ False)
        (fun e _ ↦ e = .crashed .typeMismatch) ∧
    (do
      let _ ← chained.functionTier.access.boundaryRegister (some (.numbered 0)) 1 .null
      chained.functionTier.access.boundaryResult chained.functionTier.fetch main
        (some (.numbered 0)) : Exec FunctionManager (Opaque Int)).Ensures ⟨{}, {}⟩
        (fun _ _ ↦ False) (fun e _ ↦ e = .crashed .selfRequest) := by
  constructor <;> decide +kernel

end Demo

end ForeignPasses
