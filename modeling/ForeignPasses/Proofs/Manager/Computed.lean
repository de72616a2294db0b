import ForeignPasses.Proofs.Coherence.Lookup
import ForeignPasses.Proofs.Ownership.Requests

/-!
# What is computed in the course of a request

A request computes what is not there yet, and so do the requests that its analysis makes. All of it
is kept in the order in which it was finished, behind what was there before.
-/

namespace ForeignPasses

open Exec

/-- Results that were computed, each with its unit and its key, the first of them first. -/
abbrev Computed := List ((UnitId × Key) × Result)

/-! ## What comes up while a program runs -/

namespace Program

variable {Q : Type} {A : Q → Type} {α γ σ : Type}

/-- What comes up with the questions of a program, one after the other. -/
def collect (answer : (q : Q) → Exec σ (A q)) (found : Q → World σ → List γ) :
    Program Q A α → World σ → List γ
  | .done _, _ => []
  | .ask q next, w => found q w ++
    match answer q w with
    | .ok a w' => (next a).collect answer found w'
    | .error _ _ => []

theorem ensures_run_collect {answer : (q : Q) → Exec σ (A q)} (found : Q → World σ → List γ)
    (step : World σ → List γ → World σ → Prop) (hrefl : ∀ w, step w [] w)
    (htrans : ∀ w l w₁ l' w₂, step w l w₁ → step w₁ l' w₂ → step w (l ++ l') w₂)
    (hanswer : ∀ q w, (answer q).Ensures w (fun _ w' ↦ step w (found q w) w') fun _ _ ↦ True)
    (p : Program Q A α) (w : World σ) :
    Exec.Ensures (p.run answer) w (fun _ w' ↦ step w (p.collect answer found w) w')
      fun _ _ ↦ True := by
  induction p generalizing w with
  | done a => exact hrefl w
  | ask q next ih =>
    change Exec.Ensures (answer q >>= fun a ↦ (next a).run answer) w _ _
    rw [Exec.ensures_bind]
    refine ((hanswer q w).and (Ensures.trivial _ _)).relax ?_
    rintro a w₁ ⟨hstep, hok⟩
    refine (ih a w₁).relax ?_
    intro _ w₂ hrest
    rw [collect, hok]
    exact htrans _ _ _ _ _ hstep hrest

/-- What every answer keeps, a program keeps. -/
theorem ensures_run_of_step {answer : (q : Q) → Exec σ (A q)} {step : World σ → World σ → Prop}
    (hrefl : ∀ w, step w w) (htrans : ∀ w w₁ w₂, step w w₁ → step w₁ w₂ → step w w₂)
    (hanswer : ∀ q w, (answer q).Ensures w (fun _ w' ↦ step w w') fun _ _ ↦ True)
    (p : Program Q A α) (w : World σ) :
    Exec.Ensures (p.run answer) w (fun _ w' ↦ step w w') fun _ _ ↦ True := by
  let found : Q → World σ → List Unit := fun _ _ ↦ []
  exact ensures_run_collect found (fun w _ w' ↦ step w w') hrefl
    (fun w _ w₁ _ w₂ h h' ↦ htrans w w₁ w₂ h h') hanswer p w

end Program

namespace Tier

variable {β I S : Type} (tier : Tier β I S)

/-- The world in which an analysis begins to run. -/
def beginning (key : Key) (u : CodeUnit β) (w : World (Manager S)) : World (Manager S) :=
  ⟨(Access.traced w ("computing analysis " ++ key.name ++ " on `" ++ u.name ++ "`")).shared,
    w.focus.setRunning key true⟩

section Requests

variable (answer : (q : Inquiry β I) → Exec (Manager S) q.Answer)
  (found : Inquiry β I → World (Manager S) → Computed)

/-- What the code of an analysis has computed. -/
def computedBy (u : CodeUnit β) : Analysis S → World (Manager S) → Computed
  | .foreign entry context, w =>
    (tier.behaviour.analysis entry context.content? u).collect answer found w
  | .native entry, w => (tier.behaviour.native entry u).collect answer found w
  | .attached _, _ => []

/-- Nothing if there is a result; otherwise what the analysis has computed, and its own result. -/
def computedAt (key : Key) (u : CodeUnit β) (w : World (Manager S)) : Computed :=
  match w.focus.results.find? (u.id, key), w.focus.analyses.find? key with
  | none, some ⟨analysis, false⟩ =>
    tier.computedBy answer found u analysis (beginning key u w) ++
      match tier.access.compute answer u analysis (beginning key u w) with
      | .ok r _ => [((u.id, key), r)]
      | .error _ _ => []
  | _, _ => []

def computedFor (f : Flavour) (u : CodeUnit β) (w : World (Manager S)) : Computed :=
  match f.key? tier.kind w.shared with
  | some key => tier.computedAt answer found key u w
  | none => []

end Requests

/-- What is computed for the answer to a question; `found` says it of requests. -/
def computedAnswering (found : Flavour → CodeUnit β → World (Manager S) → Computed) :
    Inquiry β I → World (Manager S) → Computed
  | .result u (some key), w => found .foreign u (Access.inScope tier.kind key w)
  | .native u index, w => found (.native index) u w
  | .within u _, w => found .attached u w
  | _, _ => []

def computedWithin : Nat → Flavour → CodeUnit β → World (Manager S) → Computed
  | 0 => tier.computedFor (tier.answer fun _ _ ↦ throw .exhausted)
      (tier.computedAnswering fun _ _ _ ↦ [])
  | depth + 1 => tier.computedFor (tier.answer (tier.fetchWithin depth))
      (tier.computedAnswering (computedWithin depth))

/-- Everything that a request computes, in the order in which it is finished. -/
def computed (f : Flavour) (u : CodeUnit β) (w : World (Manager S)) : Computed :=
  tier.computedWithin w.focus.idle f u w

end Tier

/-! ## Growing -/

namespace Manager

variable {S : Type} {m m' m'' : Manager S} {new new' : Computed}

/-- New results came in for analyses that were at rest, and are at rest again. -/
structure Grown (m : Manager S) (new : Computed) (m' : Manager S) : Prop where
  profile_eq : m'.profile = m.profile
  entries_eq : m'.results.entries = m.results.entries ++ new
  rested : ∀ e ∈ new, m.profile.find? e.1.2 = some false

namespace Grown

theorem refl : m.Grown [] m := ⟨rfl, (List.append_nil _).symm, fun _ h ↦ nomatch h⟩

theorem trans (h : m.Grown new m') (h' : m'.Grown new' m'') : m.Grown (new ++ new') m'' where
  profile_eq := h'.profile_eq.trans h.profile_eq
  entries_eq := by rw [h'.entries_eq, h.entries_eq, List.append_assoc]
  rested e he := by
    rcases List.mem_append.1 he with he | he
    · exact h.rested e he
    · rw [← h.profile_eq]
      exact h'.rested e he

theorem setAttached (h : m.Grown new m') (inner : S) : m.Grown new (m'.setAttached inner) where
  profile_eq := (profile_setAttached inner).trans h.profile_eq
  entries_eq := h.entries_eq
  rested := h.rested

/-- What was there is still there. -/
theorem find?_of_find? (h : m.Grown new m') {place : UnitId × Key} {r : Result}
    (hr : m.results.find? place = some r) : m'.results.find? place = some r := by
  rw [← Table.mem_entries, h.entries_eq]
  exact List.mem_append_left _ (Table.mem_entries.2 hr)

/-- Nothing comes in for an analysis that is being computed. -/
theorem not_mem_keys (h : m.Grown new m') {id : UnitId} {key : Key}
    (hrunning : m.profile.find? key = some true) (hfind : m.results.find? (id, key) = none) :
    (id, key) ∉ m'.results.keys := by
  rw [Table.keys, h.entries_eq, List.map_append, List.mem_append]
  rintro (hold | hnew)
  · exact Table.find?_eq_none.1 hfind hold
  · obtain ⟨e, he, hplace⟩ := List.mem_map.1 hnew
    have hrested := h.rested e he
    rw [hplace, hrunning] at hrested
    cases hrested

/-- What came in while an analysis ran is there when it is stopped. -/
theorem stop {key : Key} (hrest : m.profile.find? key = some false)
    (h : (m.setRunning key true).Grown new m') : m.Grown new (m'.setRunning key false) where
  profile_eq := by
    rw [profile_setRunning, h.profile_eq, profile_setRunning, Table.modify_back _ _ hrest]
  entries_eq := h.entries_eq
  rested e he := by
    have hrested := h.rested e he
    rw [profile_setRunning, Table.find?_modify] at hrested
    split at hrested
    · rename_i heq
      rw [heq, hrest]
    · exact hrested

/-- An analysis that was at rest is computed, and its result is kept. -/
theorem keep {id : UnitId} {key : Key} (hfind : m.results.find? (id, key) = none)
    (hrest : m.profile.find? key = some false) (h : (m.setRunning key true).Grown new m')
    (r : Result) :
    m.Grown (new ++ [((id, key), r)])
      { m'.setRunning key false with
        results := (m'.setRunning key false).results.insert (id, key) r } where
  profile_eq := (h.stop hrest).profile_eq
  entries_eq := by
    have hrunning : (m.setRunning key true).profile.find? key = some true := by
      rw [profile_setRunning, Table.find?_modify, if_pos rfl, hrest]
      rfl
    have hnew : (id, key) ∉ m'.results.keys := h.not_mem_keys hrunning hfind
    calc ((m'.setRunning key false).results.insert (id, key) r).entries
      _ = m'.results.entries ++ [((id, key), r)] := Table.entries_insert hnew r
      _ = m.results.entries ++ (new ++ [((id, key), r)]) := by
        rw [h.entries_eq, List.append_assoc]
        rfl
  rested e he := by
    rcases List.mem_append.1 he with he | he
    · exact (h.stop hrest).rested e he
    · rw [List.mem_singleton.1 he]
      exact hrest

end Grown

/-- New results came in, and each of them is as `ok` says. -/
def GrownBy (ok : (UnitId × Key) × Result → Prop) (m m' : Manager S) : Prop :=
  ∃ new, m.Grown new m' ∧ ∀ e ∈ new, ok e

namespace GrownBy

variable {ok ok' : (UnitId × Key) × Result → Prop}

theorem refl : m.GrownBy ok m := ⟨[], .refl, fun _ h ↦ nomatch h⟩

theorem mono (h : m.GrownBy ok m') (hok : ∀ e, ok e → ok' e) : m.GrownBy ok' m' := by
  obtain ⟨new, hgrown, hnew⟩ := h
  exact ⟨new, hgrown, fun e he ↦ hok e (hnew e he)⟩

theorem trans (h : m.GrownBy ok m') (h' : m'.GrownBy ok m'') : m.GrownBy ok m'' := by
  obtain ⟨new, hgrown, hnew⟩ := h
  obtain ⟨new', hgrown', hnew'⟩ := h'
  exact ⟨new ++ new', hgrown.trans hgrown', List.forall_mem_append.2 ⟨hnew, hnew'⟩⟩

theorem setAttached (h : m.GrownBy ok m') (inner : S) : m.GrownBy ok (m'.setAttached inner) := by
  obtain ⟨new, hgrown, hnew⟩ := h
  exact ⟨new, hgrown.setAttached inner, hnew⟩

section Running

variable {key : Key} (h : (m.setRunning key true).GrownBy ok m')
  (hrest : m.profile.find? key = some false)

include h hrest

theorem stop : m.GrownBy ok (m'.setRunning key false) := by
  obtain ⟨new, hgrown, hnew⟩ := h
  exact ⟨new, hgrown.stop hrest, hnew⟩

theorem keep {id : UnitId} {r : Result} (hfind : m.results.find? (id, key) = none)
    (hr : ok ((id, key), r)) :
    m.GrownBy ok
      { m'.setRunning key false with
        results := (m'.setRunning key false).results.insert (id, key) r } := by
  obtain ⟨new, hgrown, hnew⟩ := h
  exact ⟨new ++ [((id, key), r)], .keep hfind hrest hgrown r,
    List.forall_mem_append.2 ⟨hnew, List.forall_mem_singleton.2 hr⟩⟩

end Running

end GrownBy

end Manager

namespace Tier

variable {β I S : Type} {tier : Tier β I S}

/-! ## Requests add what they compute -/

/-- An action that adds results. -/
def Adds {α : Type} (act : Exec (Manager S) α) (w : World (Manager S)) (new : Computed) : Prop :=
  act.Ensures w (fun _ w' ↦ w.focus.Grown new w'.focus) fun _ _ ↦ True

theorem Adds.withKey {α : Type} {kind : Kind} {key : Key} {act : Exec (Manager S) α}
    {w : World (Manager S)} {new : Computed} (h : Adds act (Access.inScope kind key w) new) :
    Adds (Exec.withKey kind key act) w new := by
  unfold Adds
  exact Access.ensures_inScope (h.imp fun _ _ h ↦ h)

/-- What adds nothing more may follow. -/
theorem Adds.andThen {α γ : Type} {act : Exec (Manager S) γ} {f : γ → Exec (Manager S) α}
    {w : World (Manager S)} {new : Computed} (h : Adds act w new)
    (hf : ∀ a w', Adds (f a) w' []) :
    act.Ensures w (fun a w' ↦ (f a).Ensures w' (fun _ w'' ↦ w.focus.Grown new w''.focus)
      fun _ _ ↦ True) fun _ _ ↦ True := by
  refine h.relax ?_
  intro a w₁ hgrown
  refine (hf a w₁).relax ?_
  intro _ w₂ hsame
  rw [← List.append_nil new]
  exact hgrown.trans hsame

theorem adds_onAttached {α : Type} (act : Exec S α) (w : World (Manager S)) :
    Adds (onAttached act) w [] := by
  unfold Adds
  apply ensures_onAttached_of
  case hnone => exact fun _ ↦ trivial
  case hsome =>
    intro inner _
    refine (Ensures.trivial _ _).relax ?_
    intro _ w' _
    exact Manager.Grown.refl.setAttached w'.focus

/-- Results that are there are handed out. -/
theorem ensures_requestAt_cached {answer : (q : Inquiry β I) → Exec (Manager S) q.Answer}
    {f : Flavour} {key : Key} {u : CodeUnit β} {w : World (Manager S)} {r : Result}
    (hfind : w.focus.results.find? (u.id, key) = some r)
    {post : f.Answer → World (Manager S) → Prop} {halted : Halt → World (Manager S) → Prop} :
    (tier.access.requestAt answer f key u).Ensures w post halted ↔
      (f.expect r).Ensures
        (Access.traced w ("cache hit for analysis " ++ key.name ++ " on `" ++ u.name ++ "`"))
        post halted := by
  have hheld : (tier.access.manager w.focus).results.find? (u.id, key) = some r := hfind
  simp only [Access.requestAt, ensures_bind, Access.ensures_held, hheld, ensures_trace]
  rfl

/-- Results that are not there are computed by the analysis under their key, if it is at rest. -/
theorem ensures_requestAt_resting {answer : (q : Inquiry β I) → Exec (Manager S) q.Answer}
    {f : Flavour} {key : Key} {u : CodeUnit β} {w : World (Manager S)}
    (hfind : w.focus.results.find? (u.id, key) = none) {analysis : Analysis S}
    (hanalysis : w.focus.analyses.find? key = some ⟨analysis, false⟩)
    {post : f.Answer → World (Manager S) → Prop} {halted : Halt → World (Manager S) → Prop} :
    (tier.access.requestAt answer f key u).Ensures w post halted ↔
      (tier.access.compute answer u analysis).Ensures (beginning key u w)
        (fun r w₁ ↦ (tier.access.keep u key r >>= fun _ ↦ f.expect r).Ensures
          ⟨w₁.shared, w₁.focus.setRunning key false⟩ post halted)
        fun e w₁ ↦ halted e ⟨w₁.shared, w₁.focus.setRunning key false⟩ := by
  have hheld : (tier.access.manager w.focus).results.find? (u.id, key) = none := hfind
  have hheld' : (tier.access.manager w.focus).analyses.find? key = some ⟨analysis, false⟩ :=
    hanalysis
  simp only [Access.requestAt, ensures_bind, Access.ensures_held, hheld, hheld', ensures_trace,
    Bool.false_eq_true, if_false, Access.whileRunning, Access.ensures_modifyHeld,
    ensures_ensuring]
  rfl

section Requests

variable {answer : (q : Inquiry β I) → Exec (Manager S) q.Answer}
  {found : Inquiry β I → World (Manager S) → Computed}
  (hanswer : ∀ q w, Adds (answer q) w (found q w))

include hanswer

theorem adds_run {α : Type} (p : Program (Inquiry β I) Inquiry.Answer α)
    (w : World (Manager S)) : Adds (p.run answer) w (p.collect answer found w) := by
  unfold Adds
  exact Program.ensures_run_collect found (fun w new w' ↦ w.focus.Grown new w'.focus)
    (fun _ ↦ .refl) (fun _ _ _ _ _ h h' ↦ h.trans h') hanswer p w

theorem adds_compute (u : CodeUnit β) (analysis : Analysis S) (w : World (Manager S)) :
    Adds (tier.access.compute answer u analysis) w
      (tier.computedBy answer found u analysis w) := by
  unfold Adds
  cases analysis with
  | foreign entry context =>
    simp only [Access.compute, ensures_bind, ensures_boundary, ensures_adopt, ensures_pure]
    exact (adds_run hanswer _ w).relax fun _ _ h ↦ h
  | native entry =>
    simp only [Access.compute, ensures_bind, ensures_pure]
    exact (adds_run hanswer _ w).relax fun _ _ h ↦ h
  | attached inner => exact .refl

theorem adds_requestAt (f : Flavour) (key : Key) (u : CodeUnit β) (w : World (Manager S)) :
    Adds (tier.access.requestAt answer f key u) w
      (tier.computedAt answer found key u w) := by
  unfold Adds
  by_cases hresting : ∃ analysis, w.focus.results.find? (u.id, key) = none ∧
      w.focus.analyses.find? key = some ⟨analysis, false⟩
  · obtain ⟨analysis, hfind, hanalysis⟩ := hresting
    have hrest : w.focus.profile.find? key = some false := Manager.profile_of_find? hanalysis
    rw [ensures_requestAt_resting hfind hanalysis, computedAt, hfind, hanalysis]
    refine ((adds_compute hanswer u analysis _).and (Ensures.trivial _ _)).relax ?_
    rintro r w₁ ⟨hgrown, hok⟩
    simp only [hok, ensures_bind, Access.ensures_keep]
    refine (Access.ensures_expect f r).relax ?_
    rintro a w' ⟨-, rfl⟩
    exact hgrown.keep hfind hrest r
  · have hnothing : tier.computedAt answer found key u w = [] := by
      unfold computedAt
      split
      · rename_i analysis hfind hanalysis
        exact absurd ⟨analysis, hfind, hanalysis⟩ hresting
      · rfl
    rw [hnothing]
    apply Access.ensures_requestAt_of
    case hfound =>
      intro r message _
      refine (Access.ensures_expect f r).relax ?_
      rintro a w' ⟨-, rfl⟩
      exact .refl
    case hunregistered => exact fun _ _ ↦ trivial
    case hrunning => exact fun _ _ _ _ ↦ trivial
    case hresting =>
      intro analysis message hfind hanalysis
      exact absurd ⟨analysis, hfind, hanalysis⟩ hresting

theorem adds_request (f : Flavour) (u : CodeUnit β) (w : World (Manager S)) :
    Adds (tier.access.request answer f u) w (tier.computedFor answer found f u w) := by
  unfold Adds
  rw [Access.request, ensures_bind]
  apply Flavour.ensures_resolve
  · intro key (hkey : f.key? tier.kind w.shared = some key)
    rw [computedFor, hkey]
    exact adds_requestAt hanswer f key u w
  · exact fun _ ↦ trivial

end Requests

/-! ## Answers add what they compute -/

section Answers

variable {fetch : Fetch (Manager S) β}
  {found : Flavour → CodeUnit β → World (Manager S) → Computed}
  (hfetch : ∀ f u w, Adds (fetch f u) w (found f u w))

include hfetch

theorem adds_foreignResult (u : CodeUnit β) (key : Key) (w : World (Manager S)) :
    Adds (tier.access.foreignResult fetch u key) w
      (found .foreign u (Access.inScope tier.kind key w)) :=
  (hfetch .foreign u _).withKey

theorem adds_answer (q : Inquiry β I) (w : World (Manager S)) :
    Adds (tier.answer fetch q) w (tier.computedAnswering found q w) := by
  unfold Adds
  cases q with
  | say text => exact .refl
  | identities => exact .refl
  | result u key =>
    apply (ensures_bind (tier.access.boundaryResult fetch u key) _).2
    cases key with
    | none => trivial
    | some key =>
      simp only [Access.boundaryResult, ensures_boundary, ensures_bind, Access.ensures_held]
      cases (tier.access.manager w.focus).isRegistered key with
      | true => exact adds_foreignResult hfetch u key w
      | false => trivial
  | cached u key =>
    apply (ensures_bind (tier.access.boundaryCached u key) _).2
    refine (Access.ensures_boundaryCached u key).relax ?_
    rintro value w' ⟨k, -, rfl, -⟩
    exact .refl
  | native u index => exact hfetch (.native index) u w
  | within u inner =>
    apply (ensures_bind (tier.access.boundaryAttached fetch u) _).2
    simp only [Access.boundaryAttached, ensures_boundary, ensures_bind, Access.ensures_held]
    cases (tier.access.manager w.focus).isRegistered .proxy with
    | false => trivial
    | true => exact (hfetch .attached u w).andThen fun _ ↦ adds_onAttached (tier.within inner)

end Answers

/-! ## Nested requests -/

theorem adds_fetchWithin (depth : Nat) (f : Flavour) (u : CodeUnit β) (w : World (Manager S)) :
    Adds (tier.fetchWithin depth f u) w (tier.computedWithin depth f u w) := by
  induction depth generalizing f u w with
  | zero =>
    have hnone (f : Flavour) (u : CodeUnit β) (w : World (Manager S)) :
        Adds (throw .exhausted : Exec (Manager S) f.Answer) w [] := trivial
    exact adds_request (adds_answer hnone) f u w
  | succ depth ih => exact adds_request (adds_answer ih) f u w

/-- A request that returns has added what it computed, and nothing else. -/
theorem adds_fetch (f : Flavour) (u : CodeUnit β) (w : World (Manager S)) :
    Adds (tier.fetch f u) w (tier.computed f u w) := by
  unfold Adds
  rw [ensures_fetch]
  exact adds_fetchWithin _ f u w

end Tier

end ForeignPasses
