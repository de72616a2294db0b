import ForeignPasses.Proofs.Coherence.Freshness
import ForeignPasses.Proofs.Manager.Evaluation
import ForeignPasses.Proofs.Manager.Recall

/-!
# Operations on results

Results are looked up, looked for in the cache, invalidated and cleared. Each operation is a
sequence of the manager's own calls, and goes with what happens to the results on the way.
-/

namespace ForeignPasses

open Exec

/-- The ways of asking for a result. -/
inductive Lookup where
  | foreign (key : Key)
  | native (index : Nat)
  | attached

namespace Lookup

def key : Lookup → Key
  | foreign key => key
  | native index => .numbered index
  | attached => .proxy

def flavour : Lookup → Flavour
  | foreign _ => .foreign
  | native index => .native index
  | attached => .attached

/-- The analysis has results of the type that is asked for. -/
def Fits : Lookup → Analysis Unit → Prop
  | foreign _, .foreign .. => True
  | native _, .native _ => True
  | attached, .attached _ => True
  | _, _ => False

/-- The world in which the result is fetched. -/
def opened {σ : Type} (kind : Kind) : Lookup → World σ → World σ
  | foreign key, w => Access.inScope kind key w
  | _, w => w

theorem key?_opened {σ : Type} (l : Lookup) (kind : Kind) (w : World σ) :
    l.flavour.key? kind (l.opened kind w).shared = some l.key := by
  cases l with
  | foreign key => exact Access.slot_inScope kind key w
  | native index => rfl
  | attached => rfl

theorem focus_opened {σ : Type} (l : Lookup) (kind : Kind) (w : World σ) :
    (l.opened kind w).focus = w.focus := by
  cases l <;> rfl

theorem starts_opened {σ : Type} (l : Lookup) (kind : Kind) (w : World σ) :
    (l.opened kind w).shared.starts = w.shared.starts := by
  cases l with
  | foreign key => exact Access.starts_inScope kind key
  | native index => rfl
  | attached => rfl

variable {β I S : Type} {tier : Tier β I S} {fixed : CodeUnit β → Bool} {outline : Outline}

theorem Fits.takes {l : Lookup} {analysis : Analysis Unit} (hfits : l.Fits analysis)
    (hanalysis : outline l.key = some analysis) {u : CodeUnit β} {finding : Finding}
    (h : tier.Evaluates fixed outline l.key u finding) : l.flavour.Takes finding := by
  obtain ⟨depth, hdepth⟩ := h
  cases depth with
  | zero => cases hdepth
  | succ depth =>
    obtain ⟨-, analysis', hanalysis', hfinding⟩ := Tier.evaluateWithin_eq_some hdepth
    obtain rfl := Option.some.inj (hanalysis.symm.trans hanalysis')
    cases l with
    | foreign key =>
      cases analysis with
      | foreign entry context =>
        obtain ⟨value, -, rfl⟩ := Option.map_eq_some_iff.1 hfinding
        trivial
      | native entry => exact hfits.elim
      | attached inner => exact hfits.elim
    | native index =>
      cases analysis with
      | foreign entry context => exact hfits.elim
      | native entry =>
        obtain ⟨value, -, rfl⟩ := Option.map_eq_some_iff.1 hfinding
        trivial
      | attached inner => exact hfits.elim
    | attached =>
      cases analysis with
      | foreign entry context => exact hfits.elim
      | native entry => exact hfits.elim
      | attached inner =>
        cases hfinding
        trivial

end Lookup

/-! ## Histories and the log -/

namespace Happening

/-- The line in the log when the computation began. -/
def start? (nameOf : UnitId → String) : Happening → Option Event
  | completed place _ => some (Tier.startLine nameOf place)
  | _ => none

/-- The lines in the log about the computations of a history. -/
def startLines (nameOf : UnitId → String) (history : List Happening) : List Event :=
  history.filterMap (start? nameOf)

theorem startLines_append (nameOf : UnitId → String) (history history' : List Happening) :
    startLines nameOf (history ++ history') =
      startLines nameOf history ++ startLines nameOf history' :=
  List.filterMap_append

theorem startLines_eq_nil (nameOf : UnitId → String) {history : List Happening}
    (h : ∀ happening ∈ history, happening.isCompleted = false) :
    startLines nameOf history = [] := by
  refine List.filterMap_eq_nil_iff.2 fun happening hmem ↦ ?_
  cases happening with
  | completed place r => exact absurd (h _ hmem) (by simp [isCompleted])
  | invalidated id preserved => rfl
  | cleared => rfl

theorem startLines_completions (nameOf : UnitId → String) (new : Computed) :
    startLines nameOf (completions new) = new.map fun e ↦ Tier.startLine nameOf e.1 := by
  rw [startLines, completions, List.filterMap_map, ← List.filterMap_eq_map']
  rfl

end Happening

/-! ## Operations -/

/-- What may be done with the results of a manager. -/
inductive Operation (β : Type) where
  | get (l : Lookup) (u : CodeUnit β)
  | cached (l : Lookup) (u : CodeUnit β)
  | invalidate (u : CodeUnit β) (preserved : Preserved)
  | clear

namespace Tier

variable {β I S : Type} (tier : Tier β I S)

def lookUp : Lookup → CodeUnit β → Exec (Manager S) Result
  | .foreign key, u => .foreign <$> tier.access.foreignResult tier.fetch u key
  | .native index, u => .native <$> tier.fetch (.native index) u
  | .attached, u => (fun _ ↦ .attached) <$> tier.fetch .attached u

def lookUpCached : Lookup → CodeUnit β → Exec (Manager S) (Option Result)
  | .foreign key, u => Option.map .foreign <$> tier.access.foreignCached u key
  | .native index, u => Option.map .native <$> tier.access.cached (.native index) u
  | .attached, u => Option.map (fun _ ↦ .attached) <$> tier.access.cached .attached u

/-- Performs an operation, which may have a result. -/
def perform [Owner S] : Operation β → Exec (Manager S) (Option Result)
  | .get l u => some <$> tier.lookUp l u
  | .cached l u => tier.lookUpCached l u
  | .invalidate u preserved => do
    tier.invalidate u preserved
    return none
  | .clear => do
    let (cleared, rs) := (← focus).clear
    setFocus cleared
    release rs
    return none

def performAll [Owner S] : List (Operation β) → Exec (Manager S) (List (Option Result))
  | [] => return []
  | op :: rest => do
    let outcome ← tier.perform op
    return outcome :: (← performAll rest)

/-- What happens when an operation is performed in a world. -/
def happenings : Operation β → World (Manager S) → List Happening
  | .get l u, w => Happening.completions (tier.computed l.flavour u (l.opened tier.kind w))
  | .cached .., _ => []
  | .invalidate u preserved, _ => [.invalidated u.id preserved]
  | .clear, _ => [.cleared]

def history [Owner S] : List (Operation β) → World (Manager S) → List Happening
  | [], _ => []
  | op :: rest, w => tier.happenings op w ++
    match tier.perform op w with
    | .ok _ w' => history rest w'
    | .error _ _ => []

variable {tier}

/-! ## Looking up -/

variable {w : World (Manager S)}

theorem ensures_fetch_cached (f : Flavour) (u : CodeUnit β) (w : World (Manager S)) :
    (tier.fetch f u).Ensures w
      (fun a w' ↦ ∀ key, f.key? tier.kind w.shared = some key →
        ∃ r, f.receive r = some a ∧ w'.focus.results.find? (u.id, key) = some r)
      fun _ _ ↦ True := by
  apply ensures_fetch_of
  intro answer
  rw [Access.request, ensures_bind]
  apply Flavour.ensures_resolve
  · intro key hkey
    refine (Access.ensures_requestAt answer f key u).relax ?_
    rintro a w' ⟨r, ha, hobtained⟩ key' hkey'
    obtain rfl := Option.some.inj (hkey.symm.trans hkey')
    exact ⟨r, ha, hobtained.cached⟩
  · exact fun _ ↦ trivial

theorem ensures_lookUp {l : Lookup} {u : CodeUnit β} {post : Result → World (Manager S) → Prop}
    (h : (tier.fetch l.flavour u).Ensures (l.opened tier.kind w)
      (fun a w' ↦ ∀ r w'', l.flavour.receive r = some a → w''.focus = w'.focus →
        w''.shared.starts = w'.shared.starts → post r w'')
      fun _ _ ↦ False) :
    (tier.lookUp l u).Ensures w post fun _ _ ↦ False := by
  cases l with
  | foreign key =>
    refine (ensures_map (tier.access.foreignResult tier.fetch u key) _).2
      (Access.ensures_inScope (h.imp fun value w' hpost ↦ ?_))
    exact hpost (.foreign value) _ rfl rfl (Access.starts_closed tier.kind)
  | native index =>
    refine (ensures_map (tier.fetch (.native index) u) _).2
      (h.imp fun value w' hpost ↦ ?_)
    exact hpost (.native value) w' rfl rfl rfl
  | attached =>
    refine (ensures_map (tier.fetch .attached u) _).2
      (h.imp fun value w' hpost ↦ ?_)
    exact hpost .attached w' rfl rfl rfl

/-! ## Looking for cached results -/

/-- A result of the type that is asked for is handed out if it is there. -/
theorem ensures_cachedAt_of_takes {f : Flavour} {key : Key} {u : CodeUnit β}
    (htakes : ∀ r, w.focus.results.find? (u.id, key) = some r → f.Takes r.finding) :
    (tier.access.cachedAt f key u).Ensures w
      (fun a w' ↦ w' = w ∧ (w.focus.results.find? (u.id, key)).map f.receive = a.map some)
      fun _ _ ↦ False := by
  apply Access.ensures_cachedAt_of
  case hfound =>
    intro r (hfind : w.focus.results.find? (u.id, key) = some r)
    obtain ⟨a, ha⟩ := Flavour.receive_of_takes (htakes r hfind)
    rw [Flavour.expect, ha, hfind]
    exact ⟨rfl, congrArg some ha⟩
  case hmissing =>
    intro (hfind : w.focus.results.find? (u.id, key) = none)
    exact ⟨rfl, by rw [hfind]; rfl⟩

/-- What was received is the result itself. -/
theorem map_eq_of_receive (f : Flavour) (result : f.Answer → Result)
    (hresult : ∀ a, f.receive (result a) = some a) {r : Option Result} {a : Option f.Answer}
    (h : r.map f.receive = a.map some) : a.map result = r := by
  cases r with
  | none =>
    cases a with
    | none => rfl
    | some a => cases h
  | some r =>
    cases a with
    | none => cases h
    | some a => exact congrArg some (Flavour.receive_inj (hresult a) (Option.some.inj h))

theorem ensures_lookUpCached {l : Lookup} {u : CodeUnit β}
    (htakes : ∀ r, w.focus.results.find? (u.id, l.key) = some r → l.flavour.Takes r.finding) :
    (tier.lookUpCached l u).Ensures w
      (fun outcome w' ↦ outcome = w.focus.results.find? (u.id, l.key) ∧ w'.focus = w.focus ∧
        w'.shared.starts = w.shared.starts)
      fun _ _ ↦ False := by
  cases l with
  | foreign key =>
    refine (ensures_map (tier.access.foreignCached u key) _).2 (Access.ensures_resolved ?_)
    have htakes' : ∀ r, (Access.inScope tier.kind key w).focus.results.find? (u.id, key) = some r →
        Flavour.foreign.Takes r.finding := htakes
    refine (ensures_cachedAt_of_takes htakes').imp ?_
    rintro value w' ⟨rfl, hvalue⟩
    refine ⟨map_eq_of_receive .foreign Result.foreign (fun _ ↦ rfl) hvalue, rfl, ?_⟩
    exact (Access.starts_closed tier.kind).trans (Access.starts_inScope tier.kind key)
  | native index =>
    refine (ensures_map (tier.access.cached (.native index) u) _).2 ?_
    refine (ensures_cachedAt_of_takes htakes).imp ?_
    rintro value w' ⟨rfl, hvalue⟩
    exact ⟨map_eq_of_receive (.native index) Result.native (fun _ ↦ rfl) hvalue, rfl, rfl⟩
  | attached =>
    refine (ensures_map (tier.access.cached .attached u) _).2 ?_
    refine (ensures_cachedAt_of_takes htakes).imp ?_
    rintro value w' ⟨rfl, hvalue⟩
    exact ⟨map_eq_of_receive .attached (fun _ ↦ Result.attached) (fun _ ↦ rfl) hvalue, rfl, rfl⟩

/-! ## Invalidation -/

/-- An attached manager that is told about an invalidation always returns, and starts nothing. -/
def Quiet (tier : Tier β I S) : Prop :=
  ∀ u preserved w, (tier.invalidateWithin u preserved).Ensures w
    (fun _ w' ↦ w'.shared.starts = w.shared.starts) fun _ _ ↦ False

theorem starts_released {τ : Type} [Owner τ] (s : Shared) (a : τ) :
    ({ s with events := s.events ++ (releases a).map .released } : Shared).starts = s.starts := by
  apply Shared.starts_append
  intro e he
  obtain ⟨release, -, rfl⟩ := List.mem_map.1 he
  rfl

theorem ensures_notify_quiet (hquiet : tier.Quiet) (u : CodeUnit β) (preserved : Preserved)
    (key : Key) {analysis : Analysis S}
    (hattached : analysis.outline = .attached () → w.focus.outline .proxy = some (.attached ())) :
    (tier.notify u preserved key analysis).Ensures w
      (fun _ w' ↦ w'.focus.outline = w.focus.outline ∧ w'.shared.starts = w.shared.starts)
      fun _ _ ↦ False := by
  cases analysis with
  | foreign entry context => exact ⟨rfl, Shared.starts_append _ (by simp [Event.isStart])⟩
  | native entry => exact ⟨rfl, Shared.starts_append _ (by simp [Event.isStart])⟩
  | attached inner =>
    obtain ⟨current, hcurrent⟩ := Manager.exists_attached? (hattached rfl)
    rw [ensures_notify_attached hcurrent]
    refine (hquiet u preserved _).imp ?_
    intro _ w' hstarts
    refine ⟨Manager.outline_setAttached (hattached rfl) w'.focus, hstarts.trans ?_⟩
    exact Shared.starts_append _ (by simp [Event.isStart])

theorem ensures_invalidateEach_quiet (hquiet : tier.Quiet) (u : CodeUnit β) (preserved : Preserved)
    (entries : List (Key × Registered S))
    (hattached : ∀ e ∈ entries, e.2.analysis.outline = .attached () →
      w.focus.outline .proxy = some (.attached ())) :
    (tier.invalidateEach u preserved entries).Ensures w
      (fun _ w' ↦ w'.focus.outline = w.focus.outline ∧ w'.shared.starts = w.shared.starts)
      fun _ _ ↦ False := by
  induction entries generalizing w with
  | nil => exact ⟨rfl, rfl⟩
  | cons e rest ih =>
    obtain ⟨key, registered⟩ := e
    have hrest : ∀ e ∈ rest, e.2.analysis.outline = .attached () →
        w.focus.outline .proxy = some (.attached ()) :=
      fun e he ↦ hattached e (List.mem_cons_of_mem _ he)
    apply ensures_invalidateEach_of
    case hkept => exact fun _ ↦ ih hrest
    case hlost =>
      intro _
      refine Ensures.imp (ensures_notify_quiet hquiet u preserved key
        (hattached _ List.mem_cons_self)) ?_
      rintro _ w₁ ⟨houtline, hstarts⟩
      have houtline₁ : w₁.focus.outline = w.focus.outline := houtline
      refine Ensures.imp (ih (w := w₁) (houtline₁ ▸ hrest)) ?_
      rintro _ w₂ ⟨houtline', hstarts'⟩
      exact ⟨houtline'.trans houtline₁, hstarts'.trans (hstarts.trans (starts_released _ _))⟩

/-- An invalidation always returns, and leaves the analyses as they are. -/
theorem ensures_invalidate_quiet (hquiet : tier.Quiet) (u : CodeUnit β) (preserved : Preserved)
    (hattached : ∀ key, w.focus.outline key = some (.attached ()) → key = .proxy) :
    (tier.invalidate u preserved).Ensures w
      (fun _ w' ↦ w'.focus.outline = w.focus.outline ∧ w'.shared.starts = w.shared.starts)
      fun _ _ ↦ False := by
  apply ensures_invalidate_of
  case hall => exact fun _ ↦ ⟨rfl, rfl⟩
  case honly =>
    intro _
    apply ensures_invalidateEach_quiet hquiet
    rintro ⟨key, registered⟩ hmem houtline
    have hkey : w.focus.outline key = some (.attached ()) := by
      rw [Manager.outline, Table.mem_entries.1 hmem, Option.map_some]
      exact congrArg some houtline
    rwa [hattached key hkey] at hkey

end Tier

namespace Code

variable (code : Code)

theorem functionTier_quiet : code.functionTier.Quiet := fun _ _ _ ↦ rfl

theorem moduleTier_quiet : code.moduleTier.Quiet := by
  intro m preserved w
  change (invalidateFunctions code preserved m.content).Ensures w _ _
  induction m.content generalizing w with
  | nil => rfl
  | cons f rest ih =>
    rw [invalidateFunctions, ensures_bind]
    have hnone : ∀ key, w.focus.outline key = some (.attached ()) → key = .proxy := by
      intro key hkey
      obtain ⟨⟨analysis, running⟩, -, hanalysis⟩ := Option.map_eq_some_iff.1 hkey
      cases analysis with
      | foreign entry context => cases hanalysis
      | native entry => cases hanalysis
      | attached inner => exact nomatch inner
    refine (Tier.ensures_invalidate_quiet code.functionTier_quiet f preserved hnone).imp ?_
    rintro _ w₁ ⟨-, hstarts⟩
    exact (ih w₁).imp fun _ _ hrest ↦ hrest.trans hstarts

end Code

end ForeignPasses
