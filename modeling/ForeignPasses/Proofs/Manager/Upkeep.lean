import ForeignPasses.Proofs.Manager.Conserving
import ForeignPasses.Proofs.Preservation.Adapters

/-!
# The upkeep of managers

A manager is tidy if results are cached for analyses that it has, and managers of the inner level
are attached under the proxy key only. Whatever is done with a tidy manager, and however that ends,
the manager is tidy again, every analysis that was registered still is, and no other than before is
running.
-/

namespace ForeignPasses

open Exec

/-- A result of the type that the results of an analysis have. -/
def Result.IsOf : Result → Analysis Unit → Prop
  | .foreign _, .foreign .. => True
  | .native _, .native _ => True
  | .attached, .attached _ => True
  | _, _ => False

namespace Manager

variable {S : Type} {good : S → Prop} {m m' m'' : Manager S} {key : Key}

theorem outline_proxy {inner : S} (h : m.attached? = some inner) :
    m.outline .proxy = some (.attached ()) := by
  obtain ⟨running, hfind⟩ := find?_of_attached? h
  exact outline_of_find? hfind

theorem outline_insert (key : Key) (analysis : Analysis S) (other : Key) :
    outline { m with analyses := m.analyses.insert key ⟨analysis, false⟩ } other =
      if other = key then some analysis.outline else m.outline other := by
  rw [outline, Table.find?_insert]
  split <;> rfl

/-- Results are cached for analyses that are there, and have their types. Managers are attached
under the proxy key only, and are good. -/
structure Tidy (good : S → Prop) (m : Manager S) : Prop where
  fits : ∀ place r, m.results.find? place = some r →
    ∃ analysis, m.outline place.2 = some analysis ∧ r.IsOf analysis
  proxy : ∀ key, m.outline key = some (.attached ()) → key = .proxy
  inner : ∀ inner, m.attached? = some inner → good inner

namespace Tidy

theorem empty : Tidy good ({} : Manager S) where
  fits _ _ h := nomatch h
  proxy _ h := nomatch h
  inner _ h := nomatch h

theorem setRunning (h : m.Tidy good) (key : Key) (running : Bool) :
    (m.setRunning key running).Tidy good where
  fits place r hr := by
    rw [outline_setRunning]
    exact h.fits place r hr
  proxy key' hkey' := by
    rw [outline_setRunning] at hkey'
    exact h.proxy key' hkey'
  inner inner hinner := by
    rw [attached?_setRunning] at hinner
    exact h.inner inner hinner

theorem setAttached (h : m.Tidy good) {inner inner' : S} (hattached : m.attached? = some inner)
    (hgood : good inner') : (m.setAttached inner').Tidy good where
  fits place r hr := by
    rw [outline_setAttached (outline_proxy hattached)]
    exact h.fits place r hr
  proxy key hkey := by
    rw [outline_setAttached (outline_proxy hattached)] at hkey
    exact h.proxy key hkey
  inner other hother := by
    rw [attached?_setAttached hattached] at hother
    rwa [← Option.some.inj hother]

/-- A result comes in for an analysis that is there. -/
theorem insert (h : m.Tidy good) {analysis : Analysis Unit} {r : Result}
    (hanalysis : m.outline key = some analysis) (hr : r.IsOf analysis) (id : UnitId) :
    Tidy good { m with results := m.results.insert (id, key) r } where
  fits place r' hr' := by
    rw [Table.find?_insert] at hr'
    split at hr'
    · rename_i hsame
      rw [hsame, ← Option.some.inj hr']
      exact ⟨analysis, hanalysis, hr⟩
    · exact h.fits place r' hr'
  proxy := h.proxy
  inner := h.inner

/-- Fewer results. -/
theorem of_results (h : m.Tidy good) {results : Table (UnitId × Key) Result}
    (hresults : ∀ place r, results.find? place = some r → m.results.find? place = some r) :
    Tidy good { m with results } where
  fits place r hr := h.fits place r (hresults place r hr)
  proxy := h.proxy
  inner := h.inner

theorem erase (h : m.Tidy good) (place : UnitId × Key) :
    Tidy good { m with results := m.results.erase place } :=
  h.of_results fun _ _ hr ↦ Table.find?_of_find?_erase hr

/-- An analysis comes in under a key that is not taken. -/
theorem register (h : m.Tidy good) (hkey : m.outline key = none) {analysis : Analysis S}
    (hanalysis : ∀ inner, analysis = .attached inner → key = .proxy ∧ good inner) :
    Tidy good { m with analyses := m.analyses.insert key ⟨analysis, false⟩ } where
  fits place r hr := by
    obtain ⟨other, hother, hfits⟩ := h.fits place r hr
    refine ⟨other, ?_, hfits⟩
    rw [outline_insert, if_neg fun hsame ↦ ?_, hother]
    rw [hsame, hkey] at hother
    cases hother
  proxy key' hkey' := by
    rw [outline_insert] at hkey'
    split at hkey'
    · rename_i hsame
      cases analysis with
      | foreign entry context => cases hkey'
      | native entry => cases hkey'
      | attached inner => rw [hsame, (hanalysis inner rfl).1]
    · exact h.proxy key' hkey'
  inner inner hinner := by
    obtain ⟨running, hfind⟩ := find?_of_attached? hinner
    rw [Table.find?_insert] at hfind
    split at hfind
    · exact (hanalysis inner (congrArg Registered.analysis (Option.some.inj hfind))).2
    · exact h.inner inner (by rw [attached?, hfind])

end Tidy

/-- No analysis is running. -/
def Rests (m : Manager S) : Prop := ∀ key, m.profile.find? key ≠ some true

/-- A tidy manager comes of another. The analyses that were there still are, those that have come in
are at rest, and all others are at rest if they were before. -/
structure Upkeep (good : S → Prop) (m m' : Manager S) : Prop where
  tidy : m'.Tidy good
  outline : ∀ key analysis, m.outline key = some analysis → m'.outline key = some analysis
  profile : ∀ key, m'.profile.find? key = m.profile.find? key ∨
    m.profile.find? key = none ∧ m'.profile.find? key = some false

namespace Upkeep

theorem refl (h : m.Tidy good) : m.Upkeep good m := ⟨h, fun _ _ h ↦ h, fun _ ↦ .inl rfl⟩

theorem trans (h : m.Upkeep good m') (h' : m'.Upkeep good m'') : m.Upkeep good m'' where
  tidy := h'.tidy
  outline key analysis hanalysis := h'.outline key analysis (h.outline key analysis hanalysis)
  profile key := by
    rcases h.profile key with hsame | ⟨hnone, hrests⟩
    · rw [← hsame]
      exact h'.profile key
    · rcases h'.profile key with hsame' | ⟨hnone', -⟩
      · exact .inr ⟨hnone, hsame'.trans hrests⟩
      · rw [hrests] at hnone'
        cases hnone'

/-- The analyses are the same, and so is which of them are running. -/
theorem of_same (h : m'.Tidy good) (houtline : m'.outline = m.outline)
    (hprofile : m'.profile = m.profile) : m.Upkeep good m' where
  tidy := h
  outline _ _ hanalysis := houtline ▸ hanalysis
  profile _ := .inl (by rw [hprofile])

theorem setAttached (h : m.Upkeep good m') {inner inner' : S}
    (hattached : m'.attached? = some inner) (hgood : good inner') :
    m.Upkeep good (m'.setAttached inner') :=
  h.trans <| of_same (h.tidy.setAttached hattached hgood)
    (outline_setAttached (outline_proxy hattached) inner') (profile_setAttached inner')

theorem register (h : m.Tidy good) (hkey : m.outline key = none) {analysis : Analysis S}
    (hanalysis : ∀ inner, analysis = .attached inner → key = .proxy ∧ good inner) :
    m.Upkeep good { m with analyses := m.analyses.insert key ⟨analysis, false⟩ } where
  tidy := h.register hkey hanalysis
  outline other kept hother := by
    rw [outline_insert, if_neg fun hsame ↦ ?_, hother]
    rw [hsame, hkey] at hother
    cases hother
  profile other := by
    rw [find?_profile, find?_profile, Table.find?_insert]
    split
    · rename_i hsame
      rw [hsame, Option.map_eq_none_iff.1 hkey]
      exact .inr ⟨rfl, rfl⟩
    · exact .inl rfl

/-- An analysis that was at rest has run. -/
theorem stopped (hkey : m.profile.find? key = some false)
    (h : (m.setRunning key true).Upkeep good m') : m.Upkeep good (m'.setRunning key false) where
  tidy := h.tidy.setRunning key false
  outline other analysis hanalysis := by
    rw [outline_setRunning]
    refine h.outline other analysis ?_
    rwa [outline_setRunning]
  profile other := by
    have hother := h.profile other
    rw [profile_setRunning, Table.find?_modify] at hother
    rw [profile_setRunning, Table.find?_modify]
    by_cases hsame : other = key
    · subst hsame
      rw [if_pos rfl, hkey, Option.map_some] at hother
      rw [if_pos rfl, hkey]
      rcases hother with hrunning | ⟨hnone, -⟩
      · rw [hrunning]
        exact .inl rfl
      · cases hnone
    · rw [if_neg hsame] at hother
      rwa [if_neg hsame]

theorem running_iff (h : m.Upkeep good m') (key : Key) :
    m'.profile.find? key = some true ↔ m.profile.find? key = some true := by
  rcases h.profile key with hsame | ⟨hnone, hrests⟩
  · rw [hsame]
  · simp [hnone, hrests]

theorem rests (h : m.Upkeep good m') (hrests : m.Rests) : m'.Rests :=
  fun key hrunning ↦ hrests key ((h.running_iff key).1 hrunning)

end Upkeep

end Manager

namespace Tier

variable {β I S α : Type} {tier : Tier β I S} {good : S → Prop}

/-- Actions on a tidy manager after which it is tidy, however they end. -/
abbrev Maintains (good : S → Prop) (act : Exec (Manager S) α) : Prop :=
  act.Respects (Focused (Manager.Upkeep good))

theorem onward_upkeep : Onward (Focused (Manager.Upkeep good)) where
  right h := .refl h.tidy
  trans h h' := h.trans h'

/-- What keeps a tidy manager tidy, whatever else it does. -/
theorem Maintains.tidy {α : Type} {act : Exec (Manager S) α} (h : Maintains good act) :
    act.Respects (Focused fun _ m ↦ m.Tidy good) := fun w hw ↦
  (h w (.refl hw)).mono (fun _ _ h ↦ h.tidy) fun _ _ h ↦ h.tidy

/-- What is done with good attached managers leaves them good. -/
structure Maintained (tier : Tier β I S) (good : S → Prop) : Prop where
  within : ∀ program, (tier.within program).Respects (Focused fun _ inner ↦ good inner)
  invalidateWithin : ∀ u preserved,
    (tier.invalidateWithin u preserved).Respects (Focused fun _ inner ↦ good inner)

/-- If nothing is asked of attached managers, nothing has to be kept of them. -/
theorem maintained_true : tier.Maintained fun _ ↦ True where
  within _ _ _ := (Ensures.trivial _ _).mono (fun _ _ _ ↦ trivial) fun _ _ _ ↦ trivial
  invalidateWithin _ _ _ _ := (Ensures.trivial _ _).mono (fun _ _ _ ↦ trivial) fun _ _ _ ↦ trivial

theorem maintains_onAttached {act : Exec S α}
    (hact : act.Respects (Focused fun _ inner ↦ good inner)) :
    Maintains good (onAttached act) := by
  intro w hw
  apply ensures_onAttached_of
  case hnone => exact fun _ ↦ hw
  case hsome =>
    intro inner hattached
    exact (hact ⟨w.shared, inner⟩ (hw.tidy.inner inner hattached)).mono
      (fun _ _ h ↦ hw.setAttached hattached h) fun _ _ h ↦ hw.setAttached hattached h

/-! ## Requests -/

variable {answer : (q : Inquiry β I) → Exec (Manager S) q.Answer}

theorem ensures_compute_isOf (u : CodeUnit β) (analysis : Analysis S) (w : World (Manager S)) :
    (tier.access.compute answer u analysis).Ensures w (fun r _ ↦ r.IsOf analysis.outline)
      fun _ _ ↦ True := by
  cases analysis with
  | foreign entry context =>
    simp only [Access.compute, ensures_bind, ensures_boundary, ensures_adopt, ensures_pure]
    exact (Ensures.trivial _ w).relax fun _ _ _ ↦ True.intro
  | native entry =>
    simp only [Access.compute, ensures_bind, ensures_pure]
    exact (Ensures.trivial _ w).relax fun _ _ _ ↦ True.intro
  | attached inner => exact True.intro

theorem maintains_requestAt (hanswer : ∀ q, Maintains good (answer q)) (f : Flavour) (key : Key)
    (u : CodeUnit β) : Maintains good (tier.access.requestAt answer f key u) := by
  intro w hw
  have hexpect (r : Result) : Maintains good (f.expect r : Exec (Manager S) f.Answer) :=
    f.respects_expect r
  apply Access.ensures_requestAt_of
  case hfound => exact fun r message _ ↦ hexpect r (Access.traced w message) hw
  case hunregistered => exact fun _ _ ↦ hw
  case hrunning => exact fun _ _ _ _ ↦ hw
  case hresting =>
    intro analysis message _ (hanalysis : w.focus.analyses.find? key = some ⟨analysis, false⟩)
    have hrests : w.focus.profile.find? key = some false := Manager.profile_of_find? hanalysis
    have houtline : w.focus.outline key = some analysis.outline :=
      Manager.outline_of_find? hanalysis
    refine ((respects_computed onward_upkeep hanswer u analysis
      ⟨(Access.traced w message).shared, w.focus.setRunning key true⟩
      (.refl (hw.tidy.setRunning key true))).and (ensures_compute_isOf u analysis _)).mono ?_
        fun _ _ h ↦ .stopped hrests h.1
    rintro r w₁ ⟨h₁, hr⟩
    have hstopped : w.focus.Upkeep good (w₁.focus.setRunning key false) := .stopped hrests h₁
    simp only [ensures_bind, Access.ensures_keep]
    -- The analysis is the one that it was when the computation began, so its result fits.
    have hkept : w.focus.Upkeep good { w₁.focus.setRunning key false with
        results := (w₁.focus.setRunning key false).results.insert (u.id, key) r } :=
      hstopped.trans <| .of_same
        (hstopped.tidy.insert (hstopped.outline key _ houtline) hr u.id) rfl rfl
    exact (hexpect r _ (.refl hkept.tidy)).mono (fun _ _ h ↦ hkept.trans h)
      fun _ _ h ↦ hkept.trans h

/-- A tidy manager is tidy again after whatever asks for results. -/
theorem Maintained.conserves (h : tier.Maintained good) :
    tier.Conserves (Manager.Upkeep good) where
  onward := onward_upkeep
  onAttached program := maintains_onAttached (h.within program)
  requestAt _ hanswer f key u := maintains_requestAt hanswer f key u

/-! ## Invalidation -/

theorem Maintained.drops (h : tier.Maintained good) : tier.Drops (Manager.Upkeep good) where
  onward := onward_upkeep
  forget u key := fun _ hw ↦ .of_same (hw.tidy.erase (u.id, key)) rfl rfl
  onAttached u preserved := maintains_onAttached (h.invalidateWithin u preserved)

end Tier

end ForeignPasses
