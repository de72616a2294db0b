import ForeignPasses.Proofs.Coherence.Meaning
import ForeignPasses.Proofs.Ownership.Requests

/-!
# Managers in strata

The keys of foreign analyses are at levels, and their code asks for results further down alone. A
manager keeps to this if nothing else is registered or cached under these keys. What is asked for
while analyses are being computed is then never one of them.
-/

namespace ForeignPasses

open Exec

/-! ## Programs and their questions -/

namespace Program

variable {Q : Type} {A : Q → Type} {α : Type}

/-- Whatever the answers are, a program asks permitted questions alone. -/
def AsksOnly (permitted : Q → Prop) (p : Program Q A α) : Prop :=
  p.fold (fun q rest ↦ permitted q ∧ ∀ a, rest a) fun _ ↦ True

theorem asksOnly_of_forall {permitted : Q → Prop} (h : ∀ q, permitted q) (p : Program Q A α) :
    p.AsksOnly permitted := by
  induction p with
  | done _ => trivial
  | ask q _ ih => exact ⟨h q, ih⟩

theorem ensures_run_of_asksOnly {σ : Type} {permitted : Q → Prop} {answer : (q : Q) → Exec σ (A q)}
    {inv : World σ → Prop} {halted : Halt → World σ → Prop}
    (hanswer : ∀ q w, inv w → permitted q → (answer q).Ensures w (fun _ w' ↦ inv w') halted)
    {p : Program Q A α} (hp : p.AsksOnly permitted) {w : World σ} (hinv : inv w) :
    Exec.Ensures (p.run answer) w (fun _ w' ↦ inv w') halted := by
  refine (ensures_run_of_fold' (fun q post w hinv hq ↦ ?_) hinv hp).mono (fun _ _ h ↦ h.1)
    fun _ _ h ↦ h
  exact (hanswer q w hinv hq.1).mono (fun a _ h ↦ ⟨h, hq.2 a⟩) fun _ _ h ↦ h

end Program

/-! ## Levels -/

/-- The keys of foreign analyses, each at a level. The proxy key is none of them. -/
structure Strata where
  level : Key → Option Nat
  level_proxy : level .proxy = none

namespace Strata

variable (strata : Strata)

/-- A key below a level. -/
def Below (n : Nat) (key : Key) : Prop := ∃ l, strata.level key = some l ∧ l < n

/-- A result of the type that goes with its key. -/
structure Fits (key : Key) (r : Result) : Prop where
  foreign : ∀ l, strata.level key = some l → ∃ value, r = .foreign value
  attached : key = .proxy → r = .attached

/-- Nothing below a level is being computed, and neither is the attached manager looked for. -/
structure Quiet (n : Nat) (profile : Table Key Bool) : Prop where
  below : ∀ key, strata.Below n key → profile.find? key ≠ some true
  proxy : profile.find? .proxy ≠ some true

/-- Nothing is being computed. -/
def Still (profile : Table Key Bool) : Prop := ∀ n, strata.Quiet n profile

variable {strata}

theorem still_of_entries {S : Type} {m : Manager S}
    (h : ∀ e ∈ m.analyses.entries, e.2.running = false) : strata.Still m.profile := by
  have hrest (key : Key) : m.profile.find? key ≠ some true := by
    intro htrue
    rw [Manager.find?_profile, Option.map_eq_some_iff] at htrue
    obtain ⟨r, hfind, hrunning⟩ := htrue
    exact absurd ((h (key, r) (Table.mem_entries.2 hfind)).symm.trans hrunning) (by decide)
  exact fun n ↦ ⟨fun key _ ↦ hrest key, hrest .proxy⟩

/-- While an analysis is computed, everything below it is quiet. -/
theorem Quiet.start {n l : Nat} {profile : Table Key Bool} (h : strata.Quiet n profile) {key : Key}
    (hlevel : strata.level key = some l) (hl : l < n) :
    strata.Quiet l (profile.modify key fun _ ↦ true) where
  below k hk := by
    obtain ⟨l', hl', hlt⟩ := hk
    have hne : k ≠ key := by
      rintro rfl
      rw [hlevel] at hl'
      cases hl'
      exact absurd hlt (Nat.lt_irrefl l)
    rw [Table.find?_modify, if_neg hne]
    exact h.below k ⟨l', hl', Nat.lt_trans hlt hl⟩
  proxy := by
    have hne : Key.proxy ≠ key := by
      rintro rfl
      rw [strata.level_proxy] at hlevel
      contradiction
    rw [Table.find?_modify, if_neg hne]
    exact h.proxy

end Strata

/-- Questions of code at a level: for results it goes down. It does not ask for native ones, and
`within` says what it may run at the inner level. -/
def Inquiry.Descends {β I : Type} (strata : Strata) (n : Nat) (within : I → Prop) :
    Inquiry β I → Prop
  | .say _ => True
  | .identities => True
  | .result _ key => ∀ k, key = some k → strata.Below n k
  | .cached _ key => ∀ k, key = some k → ∃ l, strata.level k = some l
  | .native .. => False
  | .within _ inner => within inner

/-! ## Managers -/

/-- What managers of one kind of unit keep to: the levels of keys, what code may run at the inner
level, and which managers may be attached. -/
structure Order (I S : Type) where
  strata : Strata
  within : I → Prop
  inner : S → Prop

namespace Tier

variable {β I S : Type} (tier : Tier β I S) (order : Order I S)

/-- Code at a level. -/
def Descending (n : Nat) : Analysis S → Prop
  | .foreign entry context => ∀ u, (tier.behaviour.analysis entry context.content? u).AsksOnly
      (Inquiry.Descends order.strata n order.within)
  | _ => False

/-- An analysis of the type that goes with its key. -/
structure Fits (key : Key) (analysis : Analysis S) : Prop where
  foreign : ∀ l, order.strata.level key = some l → tier.Descending order l analysis
  attached : key = .proxy → ∃ inner, analysis = .attached inner ∧ order.inner inner

structure Layered (m : Manager S) : Prop where
  analyses : ∀ key r, m.analyses.find? key = some r → tier.Fits order key r.analysis
  results : ∀ id key r, m.results.find? (id, key) = some r → order.strata.Fits key r

/-- The manager in focus keeps to an order, and which analyses are being computed is known. -/
structure Steady (profile : Table Key Bool) (w : World (Manager S)) : Prop where
  layered : tier.Layered order w.focus
  profile_eq : w.focus.profile = profile

variable {tier order} {profile : Table Key Bool}

namespace Layered

variable {m : Manager S}

theorem empty : tier.Layered order {} where
  analyses key r hr := by simp at hr
  results id key r hr := by simp at hr

theorem insert_analysis (h : tier.Layered order m) {key : Key} {analysis : Analysis S}
    (hanalysis : tier.Fits order key analysis) (running : Bool) :
    tier.Layered order { m with analyses := m.analyses.insert key ⟨analysis, running⟩ } where
  analyses k r hr := by
    rw [Table.find?_insert] at hr
    split at hr
    · rename_i hk
      obtain rfl := Option.some.inj hr
      exact hk ▸ hanalysis
    · exact h.analyses k r hr
  results := h.results

theorem setRunning (h : tier.Layered order m) (key : Key) (running : Bool) :
    tier.Layered order (m.setRunning key running) where
  analyses k r hr := by
    rw [Manager.setRunning, Table.find?_modify] at hr
    split at hr
    · obtain ⟨r', hr', rfl⟩ := Option.map_eq_some_iff.1 hr
      exact h.analyses k r' hr'
    · exact h.analyses k r hr
  results := h.results

theorem insert_result (h : tier.Layered order m) {key : Key} {r : Result}
    (hr : order.strata.Fits key r) (id : UnitId) :
    tier.Layered order { m with results := m.results.insert (id, key) r } where
  analyses := h.analyses
  results id' k r' hr' := by
    rw [Table.find?_insert] at hr'
    split at hr'
    · rename_i heq
      obtain ⟨rfl, rfl⟩ := Prod.mk.inj heq
      obtain rfl := Option.some.inj hr'
      exact hr
    · exact h.results id' k r' hr'

/-- Where a proxy is registered a manager is attached. -/
theorem attached (h : tier.Layered order m) (hproxy : m.isRegistered .proxy = true) :
    ∃ inner, m.attached? = some inner ∧ order.inner inner := by
  obtain ⟨⟨analysis, running⟩, hfind⟩ := Option.isSome_iff_exists.1 hproxy
  obtain ⟨inner, rfl, hinner⟩ := (h.analyses .proxy _ hfind).attached rfl
  exact ⟨inner, by rw [Manager.attached?, hfind], hinner⟩

theorem setAttached (h : tier.Layered order m) {inner : S} (hinner : order.inner inner) :
    tier.Layered order (m.setAttached inner) where
  analyses key r hr := by
    rw [Manager.setAttached, Table.find?_modify] at hr
    split at hr
    · rename_i hkey
      obtain ⟨r', -, rfl⟩ := Option.map_eq_some_iff.1 hr
      refine ⟨fun l hl ↦ ?_, fun _ ↦ ⟨inner, rfl, hinner⟩⟩
      rw [hkey, order.strata.level_proxy] at hl
      contradiction
    · exact h.analyses key r hr
  results := h.results

end Layered

namespace Steady

variable {w : World (Manager S)}

theorem congr (h : tier.Steady order profile w) {w' : World (Manager S)}
    (hfocus : w'.focus = w.focus) : tier.Steady order profile w' where
  layered := hfocus ▸ h.layered
  profile_eq := hfocus ▸ h.profile_eq

theorem isRegistered (h : tier.Steady order profile w) (key : Key) :
    w.focus.isRegistered key = (profile.find? key).isSome := by
  rw [← h.profile_eq, Manager.find?_profile, Option.isSome_map]
  rfl

theorem start (h : tier.Steady order profile w) (key : Key) (s : Shared) :
    tier.Steady order (profile.modify key fun _ ↦ true) ⟨s, w.focus.setRunning key true⟩ where
  layered := h.layered.setRunning key true
  profile_eq := by rw [Manager.profile_setRunning, h.profile_eq]

theorem stop {key : Key} (hrest : profile.find? key = some false)
    (h : tier.Steady order (profile.modify key fun _ ↦ true) w) (s : Shared) :
    tier.Steady order profile ⟨s, w.focus.setRunning key false⟩ where
  layered := h.layered.setRunning key false
  profile_eq := by rw [Manager.profile_setRunning, h.profile_eq, Table.modify_back _ _ hrest]

theorem insert_result (h : tier.Steady order profile w) {key : Key} {r : Result}
    (hr : order.strata.Fits key r) (id : UnitId) (s : Shared) :
    tier.Steady order profile
      ⟨s, { w.focus with results := w.focus.results.insert (id, key) r }⟩ where
  layered := h.layered.insert_result hr id
  profile_eq := h.profile_eq

theorem setAttached (h : tier.Steady order profile w) {inner : S} (hinner : order.inner inner)
    (s : Shared) : tier.Steady order profile ⟨s, w.focus.setAttached inner⟩ where
  layered := h.layered.setAttached hinner
  profile_eq := by rw [Manager.profile_setAttached, h.profile_eq]

end Steady

end Tier

end ForeignPasses
