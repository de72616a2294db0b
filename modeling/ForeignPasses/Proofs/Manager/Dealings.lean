import ForeignPasses.Proofs.Manager.Outstanding
import ForeignPasses.Proofs.Manager.SettingUp

/-!
# Dealings with a manager

Analyses are offered to a manager and its results are asked for, invalidated and cleared, in any
order and with any outcome. Under each key is the analysis that was offered for it first, and that
analysis has computed all that is cached under the key. This is so between the dealings, and also
while computations are outstanding.
-/

namespace ForeignPasses

open Exec

namespace Tier

variable {β I S : Type} (tier : Tier β I S)

/-! ## What results stem from -/

/-- A result at its place, which the analysis under the key has computed for the unit. -/
def Stems (outline : Outline) (e : (UnitId × Key) × Result) : Prop :=
  ∃ analysis, outline e.1.2 = some analysis.outline ∧
    ∃ (depth : Nat) (u : CodeUnit β) (w w' : World (Manager S)), u.id = e.1.1 ∧
      tier.access.compute (tier.answersWithin depth) u analysis w = .ok e.2 w'

/-- The analyses are as before, and results of analyses that ran to their end have come in behind
those that were there. -/
structure Gained (m m' : Manager S) : Prop where
  outline_eq : m'.outline = m.outline
  grown : m.GrownBy (tier.Stems m.outline) m'

variable {tier} {m m' m'' : Manager S} {outline outline' : Outline} {e : (UnitId × Key) × Result}

theorem Stems.mono (h : tier.Stems outline e)
    (houtline : ∀ analysis, outline e.1.2 = some analysis → outline' e.1.2 = some analysis) :
    tier.Stems outline' e := by
  obtain ⟨analysis, hanalysis, hstems⟩ := h
  exact ⟨analysis, houtline _ hanalysis, hstems⟩

namespace Gained

theorem refl : tier.Gained m m := ⟨rfl, .refl⟩

theorem trans (h : tier.Gained m m') (h' : tier.Gained m' m'') : tier.Gained m m'' where
  outline_eq := h'.outline_eq.trans h.outline_eq
  grown := by
    have hgrown' := h'.grown
    rw [h.outline_eq] at hgrown'
    exact h.grown.trans hgrown'

theorem onward : Onward (Focused tier.Gained) where
  right _ := refl
  trans h h' := h.trans h'

theorem setAttached {inner : S} (hattached : m.attached? = some inner) (inner' : S) :
    tier.Gained m (m.setAttached inner') where
  outline_eq := Manager.outline_setAttached (Manager.outline_proxy hattached) inner'
  grown := Manager.GrownBy.refl.setAttached inner'

section Running

variable {key : Key} (h : tier.Gained (m.setRunning key true) m')

include h

/-- What came in while an analysis ran, told from before it was started. -/
theorem grown_started : (m.setRunning key true).GrownBy (tier.Stems m.outline) m' := by
  have hgrown := h.grown
  rwa [Manager.outline_setRunning] at hgrown

/-- While an analysis runs, nothing comes in under its key. -/
theorem find?_eq_none (hrests : m.profile.find? key = some false) {id : UnitId}
    (hmissing : m.results.find? (id, key) = none) : m'.results.find? (id, key) = none := by
  obtain ⟨new, hgrown, -⟩ := h.grown
  have hrunning : (m.setRunning key true).profile.find? key = some true := by
    rw [Manager.profile_setRunning, Table.find?_modify, if_pos rfl, hrests]
    rfl
  exact Table.find?_eq_none.2 (hgrown.not_mem_keys hrunning hmissing)

theorem outline_stopped : (m'.setRunning key false).outline = m.outline := by
  rw [Manager.outline_setRunning, h.outline_eq, Manager.outline_setRunning]

theorem stopped (hrests : m.profile.find? key = some false) :
    tier.Gained m (m'.setRunning key false) where
  outline_eq := h.outline_stopped
  grown := h.grown_started.stop hrests

/-- The result that an analysis ends with is kept behind what came in while it ran. -/
theorem keep (hrests : m.profile.find? key = some false) {id : UnitId} {r : Result}
    (hmissing : m.results.find? (id, key) = none) (hstems : tier.Stems m.outline ((id, key), r)) :
    tier.Gained m { m'.setRunning key false with
      results := (m'.setRunning key false).results.insert (id, key) r } where
  outline_eq := h.outline_stopped
  grown := h.grown_started.keep hrests hmissing hstems

end Running

end Gained

/-- On the attached manager anything may be done. -/
theorem gained_onAttached {α : Type} (act : Exec S α) :
    (onAttached act).Respects (Focused tier.Gained) := by
  intro w hw
  apply ensures_onAttached_of
  case hnone => exact fun _ ↦ hw
  case hsome =>
    intro inner hattached
    exact (Ensures.trivial _ _).mono (fun _ w' _ ↦ .setAttached hattached w'.focus)
      fun _ w' _ ↦ .setAttached hattached w'.focus

/-- However a request ends, results have been gained and nothing else has changed. -/
theorem conserves_gained : tier.Conserves tier.Gained where
  onward := Gained.onward
  onAttached program := gained_onAttached (tier.within program)
  requestAt depth hanswer f key u := by
    intro w hw
    have hexpect (r : Result) : (f.expect r : Exec (Manager S) f.Answer).Respects
        (Focused tier.Gained) := f.respects_expect r
    apply Access.ensures_requestAt_of
    case hfound => exact fun r message _ ↦ hexpect r (Access.traced w message) hw
    case hunregistered => exact fun _ _ ↦ hw
    case hrunning => exact fun _ _ _ _ ↦ hw
    case hresting =>
      intro analysis message hmissing
        (hanalysis : w.focus.analyses.find? key = some ⟨analysis, false⟩)
      have hrests : w.focus.profile.find? key = some false := Manager.profile_of_find? hanalysis
      let started : World (Manager S) :=
        ⟨(Access.traced w message).shared, w.focus.setRunning key true⟩
      refine ((respects_computed Gained.onward hanswer u analysis started Gained.refl).and
        (Ensures.trivial _ _)).mono ?_ fun _ _ h ↦ .stopped h.1 hrests
      rintro r w₁ ⟨h₁, hok⟩
      have hstems : tier.Stems w.focus.outline ((u.id, key), r) :=
        ⟨analysis, Manager.outline_of_find? hanalysis, depth, u, started, w₁, rfl, hok⟩
      simp only [ensures_bind, Access.ensures_keep]
      have hkept := Gained.keep h₁ hrests hmissing hstems
      exact (hexpect r _ Gained.refl).mono (fun _ _ h ↦ hkept.trans h)
        fun _ _ h ↦ hkept.trans h

end Tier

/-! ## Dealings -/

/-- What is done with a manager while nothing is being computed in it. Analyses are offered to it,
operations are performed, code beyond the boundary asks its questions, and the attached manager is
changed. -/
inductive Dealing (β I S : Type) where
  | registerForeign (key : Key) (entry : Entry) (context : Opaque String)
  | boundaryRegister (key : Option Key) (entry : Entry) (context : Handed String)
  | registerKnown
  | registerNative (index : Nat) (entry : Entry)
  | attach (inner : S)
  | perform (op : Operation β)
  | inquire (q : Inquiry β I)
  | inside (change : S → S)

namespace Dealing

variable {β I S : Type}

/-- The analyses that are offered, each with the key for it. -/
def offers (kind : Kind) (s : Shared) : Dealing β I S → List (Key × Analysis S)
  | registerForeign key entry context => [(key, .foreign entry context)]
  | boundaryRegister none _ _ => []
  | boundaryRegister (some key) entry context =>
    [(key, .foreign entry (.ofRaw (context.toRaw s.nextAddress)))]
  | registerKnown => (s.registry kind).analyses.entries.map fun e ↦ (e.1, .foreign e.2 .null)
  | registerNative index entry => [(.numbered index, .native entry)]
  | attach inner => [(.proxy, .attached inner)]
  | perform _ | inquire _ | inside _ => []

/-- All that was offered in the course of some dealings. -/
def offered (kind : Kind) (history : List (Shared × Dealing β I S)) : List (Key × Analysis S) :=
  history.flatMap fun d ↦ d.2.offers kind d.1

end Dealing

/-- The analysis that is offered first for each key. -/
def firstOf {S : Type} (offers : List (Key × Analysis S)) : Outline := fun key ↦
  (offers.lookup key).map Analysis.outline

theorem firstOf_nil {S : Type} (key : Key) : firstOf ([] : List (Key × Analysis S)) key = none :=
  rfl

theorem isSome_firstOf {S : Type} {offers : List (Key × Analysis S)} {key : Key} :
    (firstOf offers key).isSome ↔ ∃ analysis, (key, analysis) ∈ offers := by
  rw [firstOf, Option.isSome_map, List.lookup_isSome_iff]
  constructor
  · rintro ⟨⟨key', analysis⟩, hmem, hkey⟩
    rw [eq_of_beq hkey]
    exact ⟨analysis, hmem⟩
  · rintro ⟨analysis, hmem⟩
    exact ⟨(key, analysis), hmem, beq_self_eq_true key⟩

open Dealing

/-- Changes the attached manager, if there is one. -/
def Manager.inside {S : Type} (change : S → S) (m : Manager S) : Manager S :=
  m.attached?.elim m fun inner ↦ m.setAttached (change inner)

namespace Tier

variable {β I S : Type} (tier : Tier β I S)

section Dealt

variable [Owner S]

def deal : Dealing β I S → Exec (Manager S) Unit
  | .registerForeign key entry context =>
    (fun _ ↦ ()) <$> tier.access.registerForeign key entry context
  | .boundaryRegister key entry context =>
    (fun _ ↦ ()) <$> tier.access.boundaryRegister key entry context
  | .registerKnown => tier.enrolRegistry
  | .registerNative index entry => (fun _ ↦ ()) <$> tier.registerNative index entry
  | .attach inner => (fun _ ↦ ()) <$> tier.attach inner
  | .perform op => (fun _ ↦ ()) <$> tier.perform op
  | .inquire q => (fun _ ↦ ()) <$> tier.answer tier.fetch q
  | .inside change => modifyFocus (Manager.inside change)

/-- The manager after some dealings, each in what is shared at its time. Those that halt leave what
they have done until then. -/
def dealt : List (Shared × Dealing β I S) → Manager S → Manager S
  | [], m => m
  | (s, d) :: rest, m => dealt rest ((tier.deal d).ending ⟨s, m⟩).focus

end Dealt

/-- Analyses that were offered have come in under free keys, and results that have come in stem
from the analyses under their keys. -/
structure Continues (offers : List (Key × Analysis S)) (m m' : Manager S) : Prop where
  outline_eq : ∀ key, m'.outline key = (m.outline key).or (firstOf offers key)
  stems : ∀ place r, m'.results.find? place = some r →
    m.results.find? place = some r ∨ tier.Stems m'.outline (place, r)

variable {tier} {m m' m'' : Manager S} {offers offers' : List (Key × Analysis S)}

namespace Continues

theorem trans (h : tier.Continues offers m m') (h' : tier.Continues offers' m' m'') :
    tier.Continues (offers ++ offers') m m'' where
  outline_eq key := by
    rw [h'.outline_eq, h.outline_eq, Option.or_assoc, firstOf, firstOf, firstOf,
      List.lookup_append, Option.map_or]
  stems place r hr := by
    rcases h'.stems place r hr with hold | hstems
    · rcases h.stems place r hold with hold | hstems
      · exact .inl hold
      · refine .inr (hstems.mono fun analysis hanalysis ↦ ?_)
        rw [h'.outline_eq, hanalysis, Option.some_or]
    · exact .inr hstems

/-- The analyses are as before, and so are the results that are left. -/
theorem of_results (houtline : m'.outline = m.outline)
    (hresults : ∀ place r, m'.results.find? place = some r → m.results.find? place = some r) :
    tier.Continues [] m m' where
  outline_eq key := by rw [houtline, firstOf_nil, Option.or_none]
  stems place r hr := .inl (hresults place r hr)

theorem refl : tier.Continues [] m m := of_results rfl fun _ _ h ↦ h

theorem onward : Onward (Focused (tier.Continues [])) where
  right _ := refl
  trans h h' := h.trans h'

theorem acceptAll (m : Manager S) (offers : List (Key × Analysis S)) :
    tier.Continues offers m (m.acceptAll offers) where
  outline_eq key := by
    rw [Manager.outline, Manager.find?_acceptAll, Option.map_or, Option.map_map]
    rfl
  stems place r hr := by
    rw [Manager.results_acceptAll] at hr
    exact .inl hr

theorem of_gained (h : tier.Gained m m') : tier.Continues [] m m' where
  outline_eq key := by rw [h.outline_eq, firstOf_nil, Option.or_none]
  stems place r hr := by
    obtain ⟨new, hgrown, hstems⟩ := h.grown
    rw [← Table.mem_entries, hgrown.entries_eq, List.mem_append, Table.mem_entries] at hr
    rw [h.outline_eq]
    exact hr.imp_right (hstems (place, r))

theorem of_entered {key : Key} {analysis : Analysis S} {registered : Bool}
    (h : tier.access.Entered key analysis registered m m') :
    tier.Continues [(key, analysis)] m m' := by
  rw [eq_accept h]
  exact acceptAll m [(key, analysis)]

theorem of_gains {α : Type} {act : Exec (Manager S) α} (h : act.Respects (Focused tier.Gained)) :
    act.Respects (Focused (tier.Continues [])) := fun w _ ↦
  (h w Gained.refl).mono (fun _ _ h ↦ of_gained h) fun _ _ h ↦ of_gained h

theorem inside (change : S → S) (m : Manager S) : tier.Continues [] m (m.inside change) := by
  unfold Manager.inside
  cases hattached : m.attached? with
  | none => exact refl
  | some inner => exact of_gained (.setAttached hattached (change inner))

end Continues

/-- An invalidation leaves the analyses as they are, and brings no results. -/
theorem drops_continues : tier.Drops (tier.Continues []) where
  onward := Continues.onward
  forget _ _ _ _ := .of_results rfl fun _ _ hr ↦ Table.find?_of_find?_erase hr
  onAttached u preserved :=
    Continues.of_gains (gained_onAttached (tier.invalidateWithin u preserved))

section Dealt

variable [Owner S]

theorem continues_perform (op : Operation β) :
    (tier.perform op).Respects (Focused (tier.Continues [])) := by
  cases op with
  | get l u => exact Continues.of_gains ((conserves_gained.lookUp l u).map some)
  | cached l u => exact Continues.of_gains (conserves_gained.lookUpCached l u)
  | invalidate u preserved =>
    exact (drops_continues.invalidate u preserved).bind Continues.onward fun _ ↦ .pure _
  | clear => exact fun _ _ ↦ .of_results rfl fun _ _ h ↦ nomatch h

/-- What is offered comes in, if its key is free, and nothing else does but results. -/
theorem ensures_deal (d : Dealing β I S) (w : World (Manager S)) :
    (tier.deal d).Ensures w
      (fun _ w' ↦ tier.Continues (d.offers tier.kind w.shared) w.focus w'.focus)
      fun _ w' ↦ tier.Continues (d.offers tier.kind w.shared) w.focus w'.focus := by
  have hforeign (key : Key) (entry : Entry) (context : Opaque String) (v : World (Manager S)) :
      (tier.access.registerForeign key entry context).Ensures v
        (fun _ w' ↦ tier.Continues [(key, .foreign entry context)] v.focus w'.focus)
        fun _ _ ↦ False :=
    (Access.ensures_registerForeign key entry context).imp fun _ _ h ↦ .of_entered h.1
  cases d with
  | registerForeign key entry context =>
    exact (ensures_map _ _).2
      ((hforeign key entry context w).mono (fun _ _ h ↦ h) fun _ _ h ↦ h.elim)
  | boundaryRegister key entry context =>
    refine (ensures_map _ _).2 ?_
    simp only [Access.boundaryRegister, ensures_bind, ensures_adopt]
    cases key with
    | none => exact Continues.refl
    | some key =>
      rw [ensures_boundary]
      exact (hforeign key entry _ _).mono (fun _ _ h ↦ h) fun _ _ h ↦ h.elim
  | registerKnown =>
    simp only [deal, enrolRegistry, ensures_bind, ensures_shared]
    refine (ensures_registerAll _).mono ?_ fun _ _ h ↦ h.elim
    rintro _ w' ⟨hfocus, -⟩
    rw [hfocus, Manager.enrol_eq_acceptAll]
    exact .acceptAll w.focus _
  | registerNative index entry =>
    exact (ensures_map _ _).2 ((Access.ensures_registerAt (.numbered index) _).mono
      (fun _ _ h ↦ .of_entered h.1) fun _ _ h ↦ h.elim)
  | attach inner =>
    exact (ensures_map _ _).2 ((Access.ensures_registerAt .proxy _).mono
      (fun _ _ h ↦ .of_entered h.1) fun _ _ h ↦ h.elim)
  | perform op => exact (ensures_map _ _).2 (continues_perform op w Continues.refl)
  | inquire q =>
    exact (ensures_map _ _).2
      (Continues.of_gains (conserves_gained.answer conserves_gained.fetch q) w Continues.refl)
  | inside change => exact Continues.inside change w.focus

/-- What was offered in the course of some dealings has come in where the key was free. -/
theorem continues_dealt (history : List (Shared × Dealing β I S)) (m : Manager S) :
    tier.Continues (offered tier.kind history) m (tier.dealt history m) := by
  induction history generalizing m with
  | nil => exact .refl
  | cons d rest ih =>
    obtain ⟨s, d⟩ := d
    have hstep := Ensures.ending (p := fun w' ↦ tier.Continues (d.offers tier.kind s) m w'.focus)
      (ensures_deal d ⟨s, m⟩)
    exact hstep.trans (ih _)

theorem maintains_registerAll {good : S → Prop} (entries : List (Key × Entry)) :
    Maintains good (tier.registerAll entries) := by
  induction entries with
  | nil => exact .pure ()
  | cons e rest ih =>
    exact (maintains_registerForeign e.1 e.2 .null).bind onward_upkeep fun _ ↦ ih

theorem maintains_deal (d : Dealing β I S) : Maintains (fun _ ↦ True) (tier.deal d) := by
  have h : tier.Maintained fun _ ↦ True := maintained_true
  cases d with
  | registerForeign key entry context => exact (maintains_registerForeign key entry context).map _
  | boundaryRegister key entry context => exact (maintains_boundaryRegister key entry context).map _
  | registerKnown => exact fun w hw ↦ maintains_registerAll _ w hw
  | registerNative index entry =>
    exact (Call.maintains h (.registerNative index entry)).map _
  | attach inner => exact (maintains_registerAt fun _ _ ↦ ⟨rfl, trivial⟩).map _
  | perform op => exact (maintains_perform h op).map _
  | inquire q => exact (h.conserves.answer h.conserves.fetch q).map _
  | inside change =>
    intro w hw
    change w.focus.Upkeep _ (w.focus.inside change)
    unfold Manager.inside
    cases hattached : w.focus.attached? with
    | none => exact hw
    | some inner => exact hw.setAttached hattached trivial

theorem upkeep_dealt (history : List (Shared × Dealing β I S)) (hm : m.Tidy fun _ ↦ True) :
    m.Upkeep (fun _ ↦ True) (tier.dealt history m) := by
  induction history generalizing m with
  | nil => exact .refl hm
  | cons d rest ih =>
    have hdeal : Maintains (fun _ ↦ True) (tier.deal d.2) := maintains_deal d.2
    have hstep := hdeal.ending d.1 hm
    exact hstep.trans (ih hstep.tidy)

end Dealt

/-! ## What is known of a manager -/

/-- The analyses are known, and all that is cached stems from those under the keys. -/
structure Stands (tier : Tier β I S) (known : Outline) (m : Manager S) : Prop where
  outline_eq : m.outline = known
  stems : ∀ place r, m.results.find? place = some r → tier.Stems known (place, r)

variable {known : Outline}

theorem stands_dealt [Owner S] (history : List (Shared × Dealing β I S)) :
    tier.Stands (firstOf (offered tier.kind history)) (tier.dealt history {}) := by
  have h := tier.continues_dealt history {}
  have houtline : (tier.dealt history {}).outline = firstOf (offered tier.kind history) := by
    funext key
    rw [h.outline_eq]
    rfl
  refine ⟨houtline, fun place r hr ↦ ?_⟩
  rw [← houtline]
  exact (h.stems place r hr).resolve_left fun hnone ↦ nomatch hnone

namespace Stands

theorem isRegistered (h : tier.Stands known m) (key : Key) :
    m.isRegistered key = (known key).isSome := by
  rw [Manager.isRegistered_eq_isSome_outline, h.outline_eq]

theorem setRunning (h : tier.Stands known m) (key : Key) (running : Bool) :
    tier.Stands known (m.setRunning key running) where
  outline_eq := (Manager.outline_setRunning key running).trans h.outline_eq
  stems := h.stems

theorem gained (h : tier.Stands known m) (hgained : tier.Gained m m') : tier.Stands known m' where
  outline_eq := hgained.outline_eq.trans h.outline_eq
  stems place r hr := by
    rcases (Continues.of_gained hgained).stems place r hr with hold | hstems
    · exact h.stems place r hold
    · rwa [hgained.outline_eq, h.outline_eq] at hstems

end Stands

/-- What is known while nothing is being computed is known while computations are outstanding. -/
theorem Nests.stands {atRest : Manager S → Prop} {outstanding : List (UnitId × Key)}
    (hrest : ∀ m, atRest m → tier.Stands known m) (hnests : tier.Nests atRest outstanding m) :
    tier.Stands known m := by
  induction hnests with
  | rest hm => exact hrest _ hm
  | computing _ _ _ hasks ih =>
    exact (ih.setRunning _ true).gained (hasks.conserves conserves_gained Gained.refl)

end Tier

end ForeignPasses
