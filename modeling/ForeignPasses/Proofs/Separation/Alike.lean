import ForeignPasses.Proofs.Manager.Evaluation
import ForeignPasses.Proofs.Ownership.Requests
import ForeignPasses.Proofs.Separation.Reach

/-!
# Managers that look alike

Two managers look alike from some place if they have the same analyses and the same is cached for
the units there. The relation is not reflexive: what it holds of has good analyses. So it is an
invariant and a comparison at once.
-/

namespace ForeignPasses

theorem Shared.slot_congr {s s' : Shared} (hmodule : s'.moduleSlot = s.moduleSlot)
    (hfunction : s'.functionSlot = s.functionSlot) : s'.slot = s.slot := by
  funext kind
  cases kind with
  | module => exact hmodule
  | function => exact hfunction

theorem Shared.slot_setSlot_congr {s s' : Shared} (h : s'.slot = s.slot) (kind : Kind)
    (slot : Slot) : (s'.setSlot kind slot).slot = (s.setSlot kind slot).slot := by
  funext other
  by_cases hother : other = kind
  · rw [hother, slot_setSlot, slot_setSlot]
  · rw [slot_setSlot_of_ne _ _ hother, slot_setSlot_of_ne _ _ hother, h]

open Exec

/-- Two worlds in which the focus compares well, and the same identities are current. -/
structure Exec.Matching {σ : Type} (like : σ → σ → Prop) (w w' : World σ) : Prop where
  focus : like w.focus w'.focus
  slot_eq : w'.shared.slot = w.shared.slot

/-- What is looked at: results as `view` shows them, for units of a place, in managers of good
analyses, and what is attached as `inner` compares it. -/
structure Likeness (S V : Type) where
  view : Result → V
  good : Analysis S → Prop
  place : UnitId → Prop
  inner : S → S → Prop
  symm : ∀ {s s'}, inner s s' → inner s' s
  trans : ∀ {s s' s''}, inner s s' → inner s' s'' → inner s s''

/-- The same good analysis, with attached managers that compare well. -/
inductive Analysis.Alike {S V : Type} (l : Likeness S V) : Analysis S → Analysis S → Prop
  | foreign {entry : Entry} {context : Opaque String} (h : l.good (.foreign entry context)) :
    Alike l (.foreign entry context) (.foreign entry context)
  | native {entry : Entry} (h : l.good (.native entry)) : Alike l (.native entry) (.native entry)
  | attached {s s' : S} (h : l.inner s s') : Alike l (.attached s) (.attached s')

namespace Analysis.Alike

variable {S V : Type} {l : Likeness S V} {a a' a'' : Analysis S}

theorem symm (h : a.Alike l a') : a'.Alike l a := by
  cases h with
  | foreign h => exact .foreign h
  | native h => exact .native h
  | attached h => exact .attached (l.symm h)

theorem trans (h : a.Alike l a') (h' : a'.Alike l a'') : a.Alike l a'' := by
  cases h with
  | foreign h => exact h'
  | native h => exact h'
  | attached h =>
    cases h' with
    | attached h' => exact .attached (l.trans h h')

end Analysis.Alike

namespace Manager

variable {S V : Type} {l : Likeness S V} {m m' m'' : Manager S}

/-- The analysis under a key, running or not. -/
def analysisAt (m : Manager S) (key : Key) : Option (Analysis S) :=
  (m.analyses.find? key).map Registered.analysis

theorem analysisAt_setRunning (key k : Key) (running : Bool) :
    (m.setRunning key running).analysisAt k = m.analysisAt k := by
  rw [analysisAt, analysisAt, setRunning, Table.find?_modify]
  split
  · rw [Option.map_map]
    rfl
  · rfl

theorem analysisAt_setAttached {inner : S} (h : m.attached? = some inner) (inner' : S) (key : Key) :
    (m.setAttached inner').analysisAt key =
      if key = .proxy then some (.attached inner') else m.analysisAt key := by
  obtain ⟨running, hfind⟩ := find?_of_attached? h
  rw [analysisAt, analysisAt, setAttached, Table.find?_modify]
  split
  · rename_i hkey
    rw [hkey, hfind]
    rfl
  · rfl

theorem attached?_eq_some_iff {inner : S} :
    m.attached? = some inner ↔ m.analysisAt .proxy = some (.attached inner) := by
  constructor
  · intro h
    obtain ⟨running, hfind⟩ := find?_of_attached? h
    rw [analysisAt, hfind]
    rfl
  · intro h
    obtain ⟨⟨analysis, running⟩, hfind, rfl⟩ := Option.map_eq_some_iff.1 h
    rw [attached?, hfind]

/-- Attaching what is attached changes nothing. -/
theorem setAttached_attached? {inner : S} (h : m.attached? = some inner) :
    m.setAttached inner = m := by
  obtain ⟨running, hfind⟩ := find?_of_attached? h
  have hsame := m.analyses.modify_undo .proxy (f := id) hfind
    (g := fun r ↦ { r with analysis := .attached inner }) rfl
  have hid : m.analyses.modify .proxy id = m.analyses := by
    rw [Table.mk.injEq]
    refine (List.map_congr_left fun e _ ↦ ?_).trans (List.map_id _)
    exact Prod.ext rfl (ite_self _)
  rw [hid] at hsame
  rw [setAttached, hsame]

/-- An analysis that was at rest is at rest again. -/
theorem setRunning_undo {key : Key} {analysis : Analysis S}
    (hfind : m.analyses.find? key = some ⟨analysis, false⟩) :
    (m.setRunning key true).setRunning key false = m := by
  rw [setRunning, setRunning, Table.modify_undo m.analyses key hfind rfl]

structure Alike (l : Likeness S V) (m m' : Manager S) : Prop where
  profile_eq : m'.profile = m.profile
  analysis : ∀ key, Option.Rel (Analysis.Alike l) (m.analysisAt key) (m'.analysisAt key)
  result : ∀ id, l.place id → ∀ key,
    (m'.results.find? (id, key)).map l.view = (m.results.find? (id, key)).map l.view

namespace Alike

theorem symm (h : m.Alike l m') : m'.Alike l m where
  profile_eq := h.profile_eq.symm
  analysis key := by
    have hkey := h.analysis key
    generalize m.analysisAt key = a at hkey
    generalize m'.analysisAt key = a' at hkey
    cases hkey with
    | none => exact .none
    | some hkey => exact .some hkey.symm
  result id hid key := (h.result id hid key).symm

theorem trans (h : m.Alike l m') (h' : m'.Alike l m'') : m.Alike l m'' where
  profile_eq := h'.profile_eq.trans h.profile_eq
  analysis key := by
    have hkey := h.analysis key
    have hkey' := h'.analysis key
    generalize m.analysisAt key = a at hkey
    generalize m'.analysisAt key = a' at hkey hkey'
    generalize m''.analysisAt key = a'' at hkey'
    cases hkey with
    | none => exact hkey'
    | some hkey =>
      cases hkey' with
      | some hkey' => exact .some (hkey.trans hkey')
  result id hid key := (h'.result id hid key).trans (h.result id hid key)

/-- What is like something else is like itself. -/
theorem left (h : m.Alike l m') : m.Alike l m := h.trans h.symm

theorem right (h : m.Alike l m') : m'.Alike l m' := h.symm.left

theorem isRegistered_eq (h : m.Alike l m') (key : Key) :
    m'.isRegistered key = m.isRegistered key :=
  isRegistered_congr h.profile_eq key

/-- An analysis of one of them is one of the other, and runs in both or in none. -/
theorem exists_find? (h : m.Alike l m') {key : Key} {analysis : Analysis S} {running : Bool}
    (hfind : m.analyses.find? key = some ⟨analysis, running⟩) :
    ∃ analysis', m'.analyses.find? key = some ⟨analysis', running⟩ ∧
      analysis.Alike l analysis' := by
  have hrunning : (m'.analyses.find? key).map Registered.running = some running := by
    rw [← find?_profile, h.profile_eq, find?_profile, hfind]
    rfl
  obtain ⟨⟨analysis', running'⟩, hfind', rfl⟩ := Option.map_eq_some_iff.1 hrunning
  have hkey := h.analysis key
  rw [analysisAt, analysisAt, hfind, hfind'] at hkey
  cases hkey with
  | some hkey => exact ⟨analysis', hfind', hkey⟩

theorem find?_eq_none (h : m.Alike l m') {key : Key} (hfind : m.analyses.find? key = none) :
    m'.analyses.find? key = none := by
  have hprofile : (m'.analyses.find? key).map Registered.running = none := by
    rw [← find?_profile, h.profile_eq, find?_profile, hfind]
    rfl
  exact Option.map_eq_none_iff.1 hprofile

theorem setRunning (h : m.Alike l m') (key : Key) (running : Bool) :
    (m.setRunning key running).Alike l (m'.setRunning key running) where
  profile_eq := by rw [profile_setRunning, profile_setRunning, h.profile_eq]
  analysis k := by
    rw [analysisAt_setRunning, analysisAt_setRunning]
    exact h.analysis k
  result := h.result

/-- While an analysis ran, nothing that is seen has changed. -/
theorem setRunning_right {key : Key} {analysis : Analysis S}
    (hfind : m.analyses.find? key = some ⟨analysis, false⟩)
    (h : (m.setRunning key true).Alike l m') : m.Alike l (m'.setRunning key false) := by
  have hboth := h.setRunning key false
  rwa [setRunning_undo hfind] at hboth

/-! ## Results -/

/-- The same result comes in on both sides. -/
theorem insert (h : m.Alike l m') {r r' : Result} (hview : l.view r' = l.view r) (id : UnitId)
    (key : Key) :
    Alike l { m with results := m.results.insert (id, key) r }
      { m' with results := m'.results.insert (id, key) r' } where
  profile_eq := h.profile_eq
  analysis := h.analysis
  result id' hid key' := by
    rw [Table.find?_insert, Table.find?_insert]
    split
    · exact congrArg some hview
    · exact h.result id' hid key'

/-- A result that comes in elsewhere is not seen. -/
theorem insert_right (h : m.Alike l m') {id : UnitId} (hid : ¬l.place id) (key : Key) (r : Result) :
    m.Alike l { m' with results := m'.results.insert (id, key) r } where
  profile_eq := h.profile_eq
  analysis := h.analysis
  result id' hid' key' := by
    have hne : (id', key') ≠ (id, key) := fun heq ↦ hid ((Prod.mk.inj heq).1 ▸ hid')
    rw [Table.find?_insert, if_neg hne]
    exact h.result id' hid' key'

/-- A result that goes elsewhere is not missed. -/
theorem erase_right (h : m.Alike l m') {id : UnitId} (hid : ¬l.place id) (key : Key) :
    m.Alike l { m' with results := m'.results.erase (id, key) } where
  profile_eq := h.profile_eq
  analysis := h.analysis
  result id' hid' key' := by
    have hne : (id', key') ≠ (id, key) := fun heq ↦ hid ((Prod.mk.inj heq).1 ▸ hid')
    rw [Table.find?_erase, if_neg hne]
    exact h.result id' hid' key'

/-! ## The attached manager -/

theorem exists_attached? (h : m.Alike l m') {inner : S} (hattached : m.attached? = some inner) :
    ∃ inner', m'.attached? = some inner' ∧ l.inner inner inner' := by
  have hproxy := h.analysis .proxy
  rw [attached?_eq_some_iff.1 hattached] at hproxy
  generalize hanalysis : m'.analysisAt .proxy = analysis at hproxy
  cases hproxy with
  | some hproxy =>
    cases hproxy with
    | attached hinner => exact ⟨_, attached?_eq_some_iff.2 hanalysis, hinner⟩

theorem inner_self (h : m.Alike l m) {inner : S} (hattached : m.attached? = some inner) :
    l.inner inner inner := by
  obtain ⟨inner', hattached', hinner⟩ := h.exists_attached? hattached
  obtain rfl : inner = inner' := Option.some.inj (hattached.symm.trans hattached')
  exact hinner

theorem attached?_eq_none (h : m.Alike l m') (hattached : m.attached? = none) :
    m'.attached? = none := by
  cases hattached' : m'.attached? with
  | none => rfl
  | some inner' =>
    obtain ⟨inner, hinner, -⟩ := h.symm.exists_attached? hattached'
    rw [hattached] at hinner
    contradiction

theorem setAttached (h : m.Alike l m') {inner inner' : S} (hattached : m.attached? = some inner)
    (hattached' : m'.attached? = some inner') {next next' : S} (hnext : l.inner next next') :
    (m.setAttached next).Alike l (m'.setAttached next') where
  profile_eq := by rw [profile_setAttached, profile_setAttached, h.profile_eq]
  analysis key := by
    rw [analysisAt_setAttached hattached, analysisAt_setAttached hattached']
    split
    · exact .some (.attached hnext)
    · exact h.analysis key
  result := h.result

/-- Seen in another way. -/
theorem imp {V' : Type} {l' : Likeness S V'} (h : m.Alike l m')
    (hgood : ∀ a, l.good a → l'.good a) (hinner : ∀ s s', l.inner s s' → l'.inner s s')
    (hplace : ∀ id, l'.place id → l.place id)
    (hview : ∀ r r', l.view r' = l.view r → l'.view r' = l'.view r) : m.Alike l' m' where
  profile_eq := h.profile_eq
  analysis key := by
    have hkey := h.analysis key
    generalize m.analysisAt key = a at hkey
    generalize m'.analysisAt key = a' at hkey
    cases hkey with
    | none => exact .none
    | some hkey =>
      cases hkey with
      | foreign h => exact .some (.foreign (hgood _ h))
      | native h => exact .some (.native (hgood _ h))
      | attached h => exact .some (.attached (hinner _ _ h))
  result id hid key := by
    have hresult := h.result id (hplace id hid) key
    cases hfind : m.results.find? (id, key) with
    | none =>
      rw [hfind] at hresult
      rw [Option.map_eq_none_iff.1 hresult]
    | some r =>
      rw [hfind] at hresult
      obtain ⟨r', hfind', hr⟩ := Option.map_eq_some_iff.1 hresult
      rw [hfind']
      exact congrArg some (hview r r' hr)

/-- Only what is attached has changed. -/
theorem setAttached_right (h : m.Alike l m) {inner next : S} (hattached : m.attached? = some inner)
    (hnext : l.inner inner next) : m.Alike l (m.setAttached next) := by
  have hboth := h.setAttached hattached hattached hnext
  rwa [setAttached_attached? hattached] at hboth

end Alike

end Manager

/-! ## Both kinds of managers -/

namespace Code

variable (code : Code) {V : Type} (view : Result → V) (own ids : UnitId → Prop)

/-- Managers of functions are compared at their own ones. -/
def functionLikeness : Likeness Empty V where
  view := view
  good := code.SidedFunction own ids
  place := own
  inner s _ := nomatch s
  symm {s} := nomatch s
  trans {s} := nomatch s

/-- Managers of modules are compared at their own ones, and so is what is attached to them. -/
def moduleLikeness : Likeness FunctionManager V where
  view := view
  good := code.SidedModule own ids
  place := own
  inner := Manager.Alike (code.functionLikeness view own ids)
  symm := Manager.Alike.symm
  trans := Manager.Alike.trans

/-- All analyses of a manager, and of what is attached to it, look at their own side alone. -/
structure SidedManager (m : ModuleManager) : Prop where
  onModules : ∀ key analysis, m.analysisAt key = some analysis → code.SidedModule own ids analysis
  onFunctions : ∀ key inner, m.analysisAt key = some (.attached inner) →
    ∀ key' analysis, inner.analysisAt key' = some analysis → code.SidedFunction own ids analysis

variable {code own ids}

/-- Such a manager is like itself. -/
theorem SidedManager.alike {m : ModuleManager} (h : code.SidedManager own ids m) :
    m.Alike (code.moduleLikeness view own ids) m where
  profile_eq := rfl
  analysis key := by
    cases hanalysis : m.analysisAt key with
    | none => exact .none
    | some analysis =>
      cases analysis with
      | foreign entry context => exact .some (.foreign (h.onModules key _ hanalysis))
      | native entry => exact .some (.native (h.onModules key _ hanalysis))
      | attached inner =>
        refine .some (.attached ⟨rfl, fun key' ↦ ?_, fun _ _ _ ↦ rfl⟩)
        cases hinner : inner.analysisAt key' with
        | none => exact .none
        | some analysis =>
          have hsided := h.onFunctions key inner hanalysis key' analysis hinner
          cases analysis with
          | foreign entry context => exact .some (.foreign hsided)
          | native entry => exact .some (.native hsided)
          | attached nothing => exact nomatch nothing
  result _ _ _ := rfl

/-- What is the same is the same in every view. -/
theorem functionLikeness_imp {m m' : FunctionManager}
    (h : m.Alike (code.functionLikeness id own ids) m') :
    m.Alike (code.functionLikeness view own ids) m' := by
  refine h.imp (fun _ hgood ↦ hgood) (fun s ↦ nomatch s) (fun _ hid ↦ hid) ?_
  exact fun _ _ heq ↦ congrArg view heq

theorem moduleLikeness_imp {m m' : ModuleManager}
    (h : m.Alike (code.moduleLikeness id own ids) m') : m.Alike (code.moduleLikeness view own ids) m' := by
  refine h.imp (fun _ hgood ↦ hgood) ?_ (fun _ hid ↦ hid) ?_
  · exact fun _ _ hinner ↦ functionLikeness_imp view hinner
  · exact fun _ _ heq ↦ congrArg view heq

end Code

end ForeignPasses
