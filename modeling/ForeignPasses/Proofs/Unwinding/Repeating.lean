import ForeignPasses.Proofs.Exec.Agreement
import ForeignPasses.Proofs.Identity.Discipline
import ForeignPasses.Proofs.Unwinding.Looking

/-!
# Calls that repeat

A call that returned returns the same where the same is cached and fewer analyses are running, for
it met none of those that were. If just as many are running, then it also panics in the same way.
-/

namespace ForeignPasses

/-! ## Fewer running analyses -/

/-- The same analysis, which runs only if it did. -/
structure Registered.Calmer {S : Type} (r r' : Registered S) : Prop where
  analysis_eq : r'.analysis = r.analysis
  running_of_running : r'.running = true → r.running = true

namespace Manager

variable {S : Type} {strict : Prop} {m m' : Manager S}

/-- The same is cached and fewer analyses are running, or just as many, if `strict` holds. -/
structure Calmer (strict : Prop) (m m' : Manager S) : Prop where
  results_eq : m'.results = m.results
  analysis : ∀ key, Option.Rel Registered.Calmer (m.analyses.find? key) (m'.analyses.find? key)
  eq_of_strict : strict → m' = m

namespace Calmer

theorem refl : m.Calmer strict m where
  results_eq := rfl
  analysis key := by
    cases m.analyses.find? key with
    | none => exact .none
    | some r => exact .some ⟨rfl, id⟩
  eq_of_strict _ := rfl

theorem find?_eq_none (h : m.Calmer strict m') {key : Key} (hfind : m.analyses.find? key = none) :
    m'.analyses.find? key = none := by
  have hkey := h.analysis key
  rw [hfind] at hkey
  generalize m'.analyses.find? key = found at hkey ⊢
  cases hkey
  rfl

theorem exists_find? (h : m.Calmer strict m') {key : Key} {r : Registered S}
    (hfind : m.analyses.find? key = some r) :
    ∃ r', m'.analyses.find? key = some r' ∧ r.Calmer r' := by
  have hkey := h.analysis key
  rw [hfind] at hkey
  generalize m'.analyses.find? key = found at hkey ⊢
  cases hkey with
  | some hr => exact ⟨_, rfl, hr⟩

theorem isRegistered_eq (h : m.Calmer strict m') (key : Key) :
    m'.isRegistered key = m.isRegistered key := by
  unfold isRegistered Table.contains
  cases hfind : m.analyses.find? key with
  | none => rw [h.find?_eq_none hfind]
  | some r =>
    obtain ⟨r', hfind', -⟩ := h.exists_find? hfind
    rw [hfind']
    rfl

theorem setRunning (h : m.Calmer strict m') (key : Key) (running : Bool) :
    (m.setRunning key running).Calmer strict (m'.setRunning key running) where
  results_eq := h.results_eq
  analysis k := by
    rw [Manager.setRunning, Manager.setRunning, Table.find?_modify, Table.find?_modify]
    have hk := h.analysis k
    split
    · generalize m.analyses.find? k = found at hk ⊢
      generalize m'.analyses.find? k = found' at hk ⊢
      cases hk with
      | none => exact .none
      | some hr => exact .some ⟨hr.analysis_eq, id⟩
    · exact hk
  eq_of_strict hstrict := by rw [h.eq_of_strict hstrict]

/-- A manager is calmer before one of its analyses is started. -/
theorem of_started (m : Manager S) (key : Key) : (m.setRunning key true).Calmer False m where
  results_eq := rfl
  analysis k := by
    have hself : m.Calmer False m := refl
    rw [Manager.setRunning, Table.find?_modify]
    split
    · cases m.analyses.find? k with
      | none => exact .none
      | some r => exact .some ⟨rfl, fun _ ↦ rfl⟩
    · exact hself.analysis k
  eq_of_strict := False.elim

theorem insert_result (h : m.Calmer strict m') (place : UnitId × Key) (r : Result) :
    Calmer strict { m with results := m.results.insert place r }
      { m' with results := m'.results.insert place r } where
  results_eq := by rw [h.results_eq]
  analysis := h.analysis
  eq_of_strict hstrict := by rw [h.eq_of_strict hstrict]

theorem insert_analysis (h : m.Calmer strict m') (key : Key) (r : Registered S) :
    Calmer strict { m with analyses := m.analyses.insert key r }
      { m' with analyses := m'.analyses.insert key r } where
  results_eq := h.results_eq
  analysis k := by
    rw [Table.find?_insert, Table.find?_insert]
    split
    · exact .some ⟨rfl, id⟩
    · exact h.analysis k
  eq_of_strict hstrict := by rw [h.eq_of_strict hstrict]

end Calmer

end Manager

namespace Calls

open Exec

/-- Other events, and managers with fewer running analyses, or with just as many, if `strict`
holds. -/
structure Calmer (strict : Prop) (w w' : World Heap) : Prop where
  manager : ∀ kind place,
    (w.focus.managers kind place).Calmer strict (w'.focus.managers kind place)
  exists_events : ∃ events, w'.shared = { w.shared with events }

variable {strict : Prop}

namespace Calmer

variable {w v : World Heap}

theorem of_sameButEvents (h : SameButEvents w v) : Calmer strict w v := by
  obtain ⟨events, rfl⟩ := h
  exact ⟨fun _ _ ↦ .refl, events, rfl⟩

theorem sameButEvents (h : Calmer True w v) : SameButEvents w v :=
  .of_managers (fun kind place ↦ (h.manager kind place).eq_of_strict trivial) h.exists_events

/-- The same is said on both sides. -/
theorem emitted (h : Calmer strict w v) (events : List Event) :
    Calmer strict { w with shared := { w.shared with events := w.shared.events ++ events } }
      { v with shared := { v.shared with events := v.shared.events ++ events } } where
  manager := h.manager
  exists_events := by
    obtain ⟨old, hold⟩ := h.exists_events
    exact ⟨old ++ events, by rw [hold]⟩

/-- The managers at one place change, and compare well afterwards. -/
theorem set (h : Calmer strict w v) {kind : Kind} {place : Nat} {m m' : Manager (Inner kind)}
    (hm : m.Calmer strict m') : Calmer strict ⟨w.shared, w.focus.set kind place m⟩
      ⟨v.shared, v.focus.set kind place m'⟩ where
  manager kind' place' := by
    by_cases hsame : kind' = kind ∧ place' = place
    · obtain ⟨rfl, rfl⟩ := hsame
      rwa [Heap.managers_set, Heap.managers_set]
    · rw [Heap.managers_set_of_ne _ hsame, Heap.managers_set_of_ne _ hsame]
      exact h.manager kind' place'
  exists_events := h.exists_events

/-- The world is calmer before an analysis is started. -/
theorem of_started {analyses : Analyses} {kind : Kind} {place : Nat} (key : Key) (w : World Heap)
    (message : String) : Calmer False
      ⟨(Access.traced w message).shared, (access analyses kind place).started key w.focus⟩ w := by
  have htraced : Calmer False (Access.traced w message) w :=
    .of_sameButEvents (SameButEvents.symm ⟨_, rfl⟩)
  have hself : w.focus.set kind place (w.focus.managers kind place) = w.focus :=
    w.focus.set_managers kind place
  have hset : Calmer False _ ⟨w.shared, w.focus.set kind place (w.focus.managers kind place)⟩ :=
    htraced.set (.of_started (w.focus.managers kind place) key)
  rwa [hself] at hset

end Calmer

/-! ## Repeating -/

/-- If one action returns, then the other one returns the same in a world that compares well; and if
`strict` holds, then it also halts in the same way. -/
def Repeats {α : Type} (strict : Prop) (act act' : Exec Heap α) (w v : World Heap) : Prop :=
  act.Ensures w (fun a w' ↦ ∃ v', act' v = .ok a v' ∧ Calmer strict w' v')
    fun e w' ↦ strict → ∃ v', act' v = .error e v' ∧ Calmer strict w' v'

/-- An action that repeats wherever worlds compare well. -/
def Repeatable {α : Type} (strict : Prop) (act : Exec Heap α) : Prop :=
  ∀ w v, Calmer strict w v → Repeats strict act act w v

namespace Repeats

variable {α β : Type} {w v : World Heap}

theorem pure (h : Calmer strict w v) (a : α) : Repeats strict (pure a) (Pure.pure a) w v :=
  ⟨v, rfl, h⟩

theorem throw (h : Calmer strict w v) (e : Halt) :
    Repeats strict (throw e : Exec Heap α) (throw e) w v :=
  fun _ ↦ ⟨v, rfl, h⟩

theorem bind {act act' : Exec Heap β} {f f' : β → Exec Heap α} (h : Repeats strict act act' w v)
    (hf : ∀ b w' v', Calmer strict w' v' → Repeats strict (f b) (f' b) w' v') :
    Repeats strict (act >>= f) (act' >>= f') w v := by
  unfold Repeats
  rw [ensures_bind]
  refine Ensures.mono h ?_ ?_
  · rintro b w₁ ⟨v₁, hact, h₁⟩
    refine Ensures.mono (hf b w₁ v₁ h₁) ?_ ?_
    · rintro a w' ⟨v', hf', h'⟩
      exact ⟨v', (bind_ok hact).trans hf', h'⟩
    · rintro e w' hhalted hstrict
      obtain ⟨v', hf', h'⟩ := hhalted hstrict
      exact ⟨v', (bind_ok hact).trans hf', h'⟩
  · rintro e w' hhalted hstrict
    obtain ⟨v', hact, h'⟩ := hhalted hstrict
    exact ⟨v', bind_error hact, h'⟩

theorem boundary {act act' : Exec Heap α} (h : Repeats strict act act' w v) :
    Repeats strict (boundary act) (Exec.boundary act') w v := by
  unfold Repeats
  rw [ensures_boundary]
  refine Ensures.mono h ?_ ?_
  · rintro a w' ⟨v', hact, h'⟩
    exact ⟨v', by rw [Exec.boundary, hact], h'⟩
  · rintro e w' hhalted hstrict
    obtain ⟨v', hact, h'⟩ := hhalted hstrict
    exact ⟨v', by rw [Exec.boundary, hact]; cases e <;> rfl, h'⟩

theorem ensuring {act act' : Exec Heap α} {after : World Heap → World Heap}
    (h : Repeats strict act act' w v)
    (hafter : ∀ w' v', Calmer strict w' v' → Calmer strict (after w') (after v')) :
    Repeats strict (act.ensuring after) (act'.ensuring after) w v := by
  unfold Repeats
  rw [ensures_ensuring]
  refine Ensures.mono h ?_ ?_
  · rintro a w' ⟨v', hact, h'⟩
    exact ⟨after v', by rw [Exec.ensuring, hact], hafter w' v' h'⟩
  · rintro e w' hhalted hstrict
    obtain ⟨v', hact, h'⟩ := hhalted hstrict
    exact ⟨after v', by rw [Exec.ensuring, hact], hafter w' v' h'⟩

/-- Both look at their managers first. -/
theorem held {analyses : Analyses} {kind : Kind} {place : Nat}
    {f f' : Manager (Inner kind) → Exec Heap α}
    (h : Repeats strict (f (w.focus.managers kind place)) (f' (v.focus.managers kind place)) w v) :
    Repeats strict ((access analyses kind place).held >>= f)
      ((access analyses kind place).held >>= f') w v :=
  h

end Repeats

namespace Repeatable

variable {α β : Type}

theorem pure (a : α) : Repeatable strict (Pure.pure a) := fun _ _ h ↦ .pure h a

theorem throw (e : Halt) : Repeatable strict (throw e : Exec Heap α) := fun _ _ h ↦ .throw h e

theorem bind {act : Exec Heap β} {f : β → Exec Heap α} (h : Repeatable strict act)
    (hf : ∀ b, Repeatable strict (f b)) : Repeatable strict (act >>= f) :=
  fun w v hwv ↦ (h w v hwv).bind hf

theorem map {act : Exec Heap β} (h : Repeatable strict act) (f : β → α) :
    Repeatable strict (f <$> act) := by
  rw [map_eq_pure_bind]
  exact h.bind fun b ↦ .pure (f b)

theorem boundary {act : Exec Heap α} (h : Repeatable strict act) :
    Repeatable strict (boundary act) :=
  fun w v hwv ↦ (h w v hwv).boundary

theorem run {Q : Type} {A : Q → Type} {answer : (q : Q) → Exec Heap (A q)}
    (h : ∀ q, Repeatable strict (answer q)) (p : Program Q A α) :
    Repeatable strict (p.run answer) := by
  induction p with
  | done a => exact .pure a
  | ask q next ih => exact (h q).bind ih

theorem emitAll (events : List Event) : Repeatable strict (emitAll events : Exec Heap Unit) :=
  fun _ _ h ↦ ⟨_, rfl, h.emitted events⟩

theorem adopt (value : Handed α) : Repeatable strict (adopt value : Exec Heap (Opaque α)) := by
  rintro w ⟨s, heap⟩ h
  obtain ⟨events, rfl⟩ := h.exists_events
  exact ⟨_, rfl, h.manager, _, rfl⟩

theorem expect (f : Flavour) (r : Result) :
    Repeatable strict (f.expect r : Exec Heap f.Answer) := by
  rw [Flavour.expect]
  cases f.receive r with
  | some a => exact .pure a
  | none => exact .throw _

end Repeatable

/-! ## Managers -/

section Access

variable {analyses : Analyses} {kind : Kind} {place : Nat}

theorem repeatable_modifyHeld {f : Manager (Inner kind) → Manager (Inner kind)}
    (hf : ∀ m m', m.Calmer strict m' → (f m).Calmer strict (f m')) :
    Repeatable strict ((access analyses kind place).modifyHeld f) :=
  fun _ _ h ↦ ⟨_, rfl, h.set (hf _ _ (h.manager kind place))⟩

theorem repeatable_registerAt (key : Key) (analysis : Analysis (Inner kind)) :
    Repeatable strict ((access analyses kind place).registerAt key analysis) := by
  intro w v h
  refine .held ?_
  rw [(h.manager kind place).isRegistered_eq key]
  have hinsert : Repeatable strict ((access analyses kind place).modifyHeld fun m ↦
      { m with analyses := m.analyses.insert key ⟨analysis, false⟩ }) :=
    repeatable_modifyHeld fun _ _ hm ↦ hm.insert_analysis key ⟨analysis, false⟩
  cases (w.focus.managers kind place).isRegistered key with
  | true => exact (Repeatable.emitAll _).bind (fun _ ↦ .pure false) w v h
  | false => exact hinsert.bind (fun _ ↦ .pure true) w v h

theorem repeatable_cachedAt (f : Flavour) (key : Key) (u : CodeUnit (Content kind)) :
    Repeatable strict ((access analyses kind place).cachedAt f key u) := by
  intro w v h
  refine .held ?_
  rw [(h.manager kind place).results_eq]
  cases (w.focus.managers kind place).results.find? (u.id, key) with
  | none => exact .pure h none
  | some r => exact (Repeatable.expect f r).map some w v h

theorem repeatable_keep (u : CodeUnit (Content kind)) (key : Key) (r : Result) :
    Repeatable strict ((access analyses kind place).keep u key r) := by
  intro w v h
  refine .held ?_
  rw [(h.manager kind place).results_eq]
  have hinsert : Repeatable strict ((access analyses kind place).modifyHeld fun m ↦
      { m with results := m.results.insert (u.id, key) r }) :=
    repeatable_modifyHeld fun _ _ hm ↦ hm.insert_result (u.id, key) r
  exact hinsert.bind (fun _ ↦ .emitAll _) w v h

theorem Repeatable.whileRunning {α : Type} {act : Exec Heap α} (h : Repeatable strict act)
    (key : Key) : Repeatable strict ((access analyses kind place).whileRunning key act) := by
  have hstart : Repeatable strict ((access analyses kind place).modifyHeld
      (·.setRunning key true)) :=
    repeatable_modifyHeld fun _ _ hm ↦ hm.setRunning key true
  refine hstart.bind fun _ w v hwv ↦ (h w v hwv).ensuring fun w' v' h' ↦ ?_
  exact h'.set ((h'.manager kind place).setRunning key false)

section Requests

variable {nested : Performer} (hnested : ∀ c, Repeatable strict (nested c))

include hnested

theorem repeatable_compute (u : CodeUnit (Content kind)) (analysis : Analysis (Inner kind)) :
    Repeatable strict ((access analyses kind place).compute nested u analysis) := by
  cases analysis with
  | foreign entry context =>
    exact (Repeatable.run hnested _).boundary.bind fun value ↦
      (Repeatable.adopt value).bind fun _ ↦ .pure _
  | native entry => exact (Repeatable.run hnested _).bind fun _ ↦ .pure _
  | attached inner => exact .pure _

theorem repeatable_requestAt (f : Flavour) (key : Key) (u : CodeUnit (Content kind)) :
    Repeatable strict ((access analyses kind place).requestAt nested f key u) := by
  intro w v h
  have hm := h.manager kind place
  refine .held ?_
  dsimp only
  rw [hm.results_eq]
  cases (w.focus.managers kind place).results.find? (u.id, key) with
  | some r => exact (Repeatable.emitAll _).bind (fun _ ↦ .expect f r) w v h
  | none =>
    refine .held ?_
    cases hanalysis : (w.focus.managers kind place).analyses.find? key with
    | none =>
      rw [hm.find?_eq_none hanalysis]
      exact .throw h _
    | some registered =>
      obtain ⟨⟨analysis, running'⟩, hanalysis', rfl, hrunning⟩ := hm.exists_find? hanalysis
      obtain ⟨analysis, running⟩ := registered
      rw [hanalysis']
      refine Repeats.bind (Repeatable.emitAll _ w v h) fun _ w₁ v₁ h₁ ↦ ?_
      have hcomputed : Repeatable strict (do
          let r ← (access analyses kind place).whileRunning key
            ((access analyses kind place).compute nested u analysis)
          (access analyses kind place).keep u key r
          f.expect r) :=
        ((repeatable_compute hnested u analysis).whileRunning key).bind fun r ↦
          (repeatable_keep u key r).bind fun _ ↦ .expect f r
      cases running with
      | false =>
        cases running' with
        | false => exact hcomputed w₁ v₁ h₁
        | true => exact absurd (hrunning rfl) Bool.false_ne_true
      | true =>
        -- what was refused may go on where fewer analyses are running
        intro hstrict
        rw [hm.eq_of_strict hstrict, hanalysis] at hanalysis'
        obtain rfl : true = running' := congrArg Registered.running (Option.some.inj hanalysis')
        exact ⟨v₁, rfl, h₁⟩

end Requests

end Access

/-! ## Calls -/

theorem Repeatable.announced {α : Type} {act : Exec Heap α} (h : Repeatable strict act)
    (key : Key) : Repeatable strict (announced key act) :=
  (Repeatable.emitAll _).bind fun _ ↦ h

theorem repeatable_registerPassed {analyses : Analyses} (kind : Kind) (place : Nat) (key : Key)
    (entry : Entry) (context : Opaque String) :
    Repeatable strict (registerPassed analyses kind place key entry context) := by
  apply Repeatable.announced
  exact (repeatable_registerAt key _).bind fun _ ↦ (Repeatable.emitAll _).bind fun _ ↦ .pure _

theorem repeatable_pass (analyses : Analyses) (depth : Nat) (ids : Identities) (c : Call) :
    Repeatable strict (pass analyses depth ids c) := by
  induction depth generalizing ids c with
  | zero => exact .throw _
  | succ depth ih =>
    have hresult (kind : Kind) (place : Nat) (u : CodeUnit (Content kind)) (key : Key) :
        Repeatable strict (resultPassed analyses ids (pass analyses depth) kind place u key) :=
      (repeatable_requestAt (ih (ids.enter kind key)) .foreign key u).announced key
    have hcached (kind : Kind) (place : Nat) (u : CodeUnit (Content kind)) (key : Key) :
        Repeatable strict (cachedPassed analyses kind place u key) :=
      (repeatable_cachedAt .foreign key u).announced key
    cases c with
    | say text => exact .emitAll _
    | identities => exact .pure _
    | register kind place key entry context =>
      exact (Repeatable.adopt context).bind fun _ ↦ repeatable_registerPassed kind place key entry _
    | result kind place key u => exact hresult kind place u key
    | cached kind place key u => exact hcached kind place u key
    | boundaryRegister kind place key entry context =>
      refine (Repeatable.adopt context).bind fun context ↦ ?_
      cases key with
      | none => exact .throw _
      | some key => exact (repeatable_registerPassed kind place key entry context).boundary
    | boundaryResult kind place key u =>
      cases key with
      | none => exact .throw _
      | some key =>
        refine Repeatable.boundary fun w v h ↦ .held ?_
        rw [(h.manager kind place).isRegistered_eq key]
        cases (w.focus.managers kind place).isRegistered key with
        | true => exact hresult kind place u key w v h
        | false => exact .throw h _
    | boundaryCached kind place key u =>
      cases key with
      | none => exact .throw _
      | some key => exact (hcached kind place u key).boundary
    | native kind place index u =>
      exact repeatable_requestAt (ih ids) (.native index) (.numbered index) u

/-- Performing a call with slots is handing down the identities in them. -/
theorem perform_eq_pass (analyses : Analyses) (depth : Nat) (c : Call) (w : World Heap) :
    perform analyses depth c w = pass analyses depth w.shared.identities c w := by
  have hfollows := perform_follows analyses depth w.shared.identities c w
  have hblind := pass_blind analyses depth w.shared.identities c w.shared.identities w
  exact hfollows.trans hblind.symm

theorem repeatable_perform (analyses : Analyses) (depth : Nat) (c : Call) :
    Repeatable strict (perform analyses depth c) := by
  intro w v h
  obtain ⟨events, hevents⟩ := h.exists_events
  have hidentities : v.shared.identities = w.shared.identities := by
    rw [hevents]
    funext kind
    cases kind <;> rfl
  have hrepeats := repeatable_pass analyses depth w.shared.identities c w v h
  unfold Repeats Ensures at hrepeats ⊢
  rwa [perform_eq_pass, perform_eq_pass, hidentities]

/-- Between worlds that differ in events alone, what repeats goes the same way. -/
theorem Repeatable.agree {α : Type} {act : Exec Heap α} (h : Repeatable True act) {w v : World Heap}
    (hsame : SameButEvents w v) :
    Agree act act w v (fun a w' b v' ↦ b = a ∧ SameButEvents w' v') SameButEvents := by
  have hrepeats := h w v (.of_sameButEvents hsame)
  cases hact : act w with
  | ok a w' =>
    obtain ⟨v', hact', hv'⟩ := Ensures.of_ok hrepeats hact
    exact .ok hact hact' ⟨rfl, hv'.sameButEvents⟩
  | error e w' =>
    obtain ⟨v', hact', hv'⟩ := Ensures.of_error hrepeats hact trivial
    exact .error hact hact' hv'.sameButEvents

end Calls

end ForeignPasses
