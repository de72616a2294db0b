import ForeignPasses.Proofs.Coherence.Meaning
import ForeignPasses.Proofs.Manager.Request
import Mathlib.Data.List.Nodup

/-!
# Looking up keeps results right

As long as the units are what the results were computed for, a look-up answers what its key means,
and whatever is computed and kept in the course of it is right as well.
-/

namespace ForeignPasses

open Exec

namespace Manager

variable {β S : Type} {lawful : Key → Analysis S → Prop} {meaning : Key → CodeUnit β → Finding}
  {known : UnitId → Prop} {valid : CodeUnit β → Key → Prop} {units : List (CodeUnit β)}
  {m : Manager S}

theorem isRegistered_setRunning (key k : Key) (running : Bool) :
    (m.setRunning key running).isRegistered k = m.isRegistered k := by
  rw [isRegistered, isRegistered, setRunning, Table.contains, Table.contains, Table.find?_modify]
  split <;> simp

theorem isRegistered_insert (key k : Key) (r : Registered S) :
    ({ m with analyses := m.analyses.insert key r } : Manager S).isRegistered k =
      (decide (k = key) || m.isRegistered k) := by
  rw [isRegistered, isRegistered, Table.contains, Table.contains, Table.find?_insert]
  split <;> simp_all

namespace Coherent

theorem empty : ({} : Manager S).Coherent lawful meaning known valid units where
  lawful key r hr := by simp at hr
  registered id key r hr := by simp at hr
  known id key r hr := by simp at hr
  right u _ key r _ hr := by simp at hr

theorem setRunning (h : m.Coherent lawful meaning known valid units) (key : Key) (running : Bool) :
    (m.setRunning key running).Coherent lawful meaning known valid units where
  lawful k r hr := by
    rw [Manager.setRunning, Table.find?_modify] at hr
    split at hr
    · obtain ⟨r', hr', rfl⟩ := Option.map_eq_some_iff.1 hr
      exact h.lawful k r' hr'
    · exact h.lawful k r hr
  registered id k r hr := by
    rw [isRegistered_setRunning]
    exact h.registered id k r hr
  known := h.known
  right := h.right

/-- A right result is kept. -/
theorem insert_result (h : m.Coherent lawful meaning known valid units)
    (hdistinct : (units.map CodeUnit.id).Nodup) {u : CodeUnit β} (hu : u ∈ units)
    (hknown : known u.id) {key : Key} (hregistered : m.isRegistered key) {r : Result}
    (hr : r.finding = meaning key u) :
    ({ m with results := m.results.insert (u.id, key) r } : Manager S).Coherent lawful meaning known
      valid units where
  lawful := h.lawful
  registered id k r' hr' := by
    rw [Table.find?_insert] at hr'
    split at hr'
    · rename_i heq
      obtain ⟨-, rfl⟩ := Prod.mk.inj heq
      exact hregistered
    · exact h.registered id k r' hr'
  known id k r' hr' := by
    rw [Table.find?_insert] at hr'
    split at hr'
    · rename_i heq
      obtain ⟨rfl, -⟩ := Prod.mk.inj heq
      exact hknown
    · exact h.known id k r' hr'
  right v hv k r' hvalid hr' := by
    rw [Table.find?_insert] at hr'
    split at hr'
    · rename_i heq
      obtain ⟨hid, rfl⟩ := Prod.mk.inj heq
      obtain rfl : v = u := List.inj_on_of_nodup_map hdistinct hv hu hid
      obtain rfl := Option.some.inj hr'
      exact hr
    · exact h.right v hv k r' hvalid hr'

/-- A lawful analysis is registered. -/
theorem insert_analysis (h : m.Coherent lawful meaning known valid units) {key : Key}
    {analysis : Analysis S} (hlawful : lawful key analysis) :
    ({ m with analyses := m.analyses.insert key ⟨analysis, false⟩ } : Manager S).Coherent lawful
      meaning known valid units where
  lawful k r hr := by
    rw [Table.find?_insert] at hr
    split at hr
    · rename_i heq
      subst heq
      obtain rfl := Option.some.inj hr
      exact hlawful
    · exact h.lawful k r hr
  registered id k r hr := by
    rw [isRegistered_insert, h.registered id k r hr, Bool.or_true]
  known := h.known
  right := h.right

end Coherent

end Manager

namespace Flavour

/-- The key that a flavour resolves to. -/
def key? (kind : Kind) (s : Shared) : Flavour → Option Key
  | foreign => (s.slot kind).current
  | native index => some (.numbered index)
  | attached => some .proxy

theorem ensures_resolve {σ : Type} {kind : Kind} {f : Flavour} {w : World σ}
    {post : Key → World σ → Prop} {halted : Halt → World σ → Prop}
    (hkey : ∀ key, f.key? kind w.shared = some key → post key w)
    (hhalted : ∀ p, halted (.panicked p) w) :
    (f.resolve kind : Exec σ Key).Ensures w post halted := by
  cases f with
  | foreign =>
    refine (ensures_identity kind).2 ?_
    cases hcurrent : (w.shared.slot kind).current with
    | none => exact hhalted _
    | some key => exact hkey key hcurrent
  | native index => exact hkey _ rfl
  | attached => exact hkey _ rfl

end Flavour

namespace Tier

variable {β I S : Type} (tier : Tier β I S) (theory : Theory β I S) (known : UnitId → Prop)
  (units : List (CodeUnit β)) (keys : List Key) (next : UnitId)

/-- All analyses in focus are lawful, and all results for the units are right. Looking up registers
no analysis and makes no unit. -/
structure Sound (w : World (Manager S)) : Prop where
  coherent : w.focus.Coherent (theory.Lawful tier.behaviour.toComputations) theory.meaning known
    (fun _ _ ↦ True) units
  keys_eq : w.focus.keys = keys
  next_eq : w.shared.nextUnit = next

/-- A way of getting results gets right ones. -/
def FetchesRight (fetch : Fetch (Manager S) β) : Prop :=
  ∀ f u w, u ∈ units → tier.Sound theory known units keys next w →
    (fetch f u).Ensures w
      (fun a w' ↦ tier.Sound theory known units keys next w' ∧
        ∀ key, f.key? tier.kind w.shared = some key →
          ∃ r, f.receive r = some a ∧ r.finding = theory.meaning key u)
      fun _ _ ↦ True

/-- Questions about allowed units get right answers. -/
def AnswersRight (allowed : CodeUnit β → Prop)
    (answer : (q : Inquiry β I) → Exec (Manager S) q.Answer) : Prop :=
  ∀ q post w, tier.Sound theory known units keys next w → theory.allows allowed q post →
    (answer q).Ensures w (fun a w' ↦ tier.Sound theory known units keys next w' ∧ post a)
      fun _ _ ↦ True

/-- Programs for the inner level, run on the attached manager, do what they are taken to do. -/
def WithinRight : Prop :=
  ∀ u inner post w, u ∈ units → tier.Sound theory known units keys next w →
    theory.within u inner post →
    (onAttached (tier.within inner)).Ensures w
      (fun a w' ↦ tier.Sound theory known units keys next w' ∧ post a) fun _ _ ↦ True

variable {tier theory known units keys next}

theorem Sound.congr {w w' : World (Manager S)} (h : tier.Sound theory known units keys next w)
    (hfocus : w'.focus = w.focus) (hnext : w'.shared.nextUnit = w.shared.nextUnit) :
    tier.Sound theory known units keys next w' where
  coherent := hfocus ▸ h.coherent
  keys_eq := hfocus ▸ h.keys_eq
  next_eq := hnext.trans h.next_eq

/-- Marks of running analyses do not matter. -/
theorem Sound.setRunning {w : World (Manager S)} (h : tier.Sound theory known units keys next w)
    (key : Key) (running : Bool) (s : Shared) (hs : s.nextUnit = w.shared.nextUnit) :
    tier.Sound theory known units keys next ⟨s, w.focus.setRunning key running⟩ where
  coherent := h.coherent.setRunning key running
  keys_eq := by
    rw [← h.keys_eq, Manager.keys, Manager.setRunning, Table.keys_modify]
    rfl
  next_eq := hs.trans h.next_eq

theorem Sound.insert_result {w : World (Manager S)} (h : tier.Sound theory known units keys next w)
    (hdistinct : (units.map CodeUnit.id).Nodup) {u : CodeUnit β} (hu : u ∈ units)
    (hknown : known u.id) {key : Key} (hkey : key ∈ keys) {r : Result}
    (hr : r.finding = theory.meaning key u) (s : Shared) (hs : s.nextUnit = w.shared.nextUnit) :
    tier.Sound theory known units keys next
      ⟨s, { w.focus with results := w.focus.results.insert (u.id, key) r }⟩ where
  coherent := by
    have hregistered : w.focus.isRegistered key := by
      rw [← h.keys_eq, Manager.keys, Table.mem_keys] at hkey
      exact hkey
    exact h.coherent.insert_result hdistinct hu hknown hregistered hr
  keys_eq := h.keys_eq
  next_eq := hs.trans h.next_eq

section Requests

variable {answer : (q : Inquiry β I) → Exec (Manager S) q.Answer}

/-- A lawful analysis, given right answers, finds what its key means. -/
theorem ensures_compute_right {u : CodeUnit β}
    (hanswer : tier.AnswersRight theory known units keys next (· = u) answer) {key : Key}
    {analysis : Analysis S} (hlawful : theory.Lawful tier.behaviour.toComputations key analysis)
    {w : World (Manager S)} (h : tier.Sound theory known units keys next w) :
    (tier.access.compute answer u analysis).Ensures w
      (fun r w' ↦ tier.Sound theory known units keys next w' ∧ r.finding = theory.meaning key u)
      fun _ _ ↦ True := by
  cases analysis with
  | foreign entry context =>
    simp only [Access.compute, ensures_bind, ensures_boundary, ensures_adopt, ensures_pure]
    refine (Program.ensures_run_of_fold' hanswer h (hlawful u)).mono ?_ fun _ _ _ ↦ trivial
    rintro value w' ⟨hsound, hmeaning⟩
    refine ⟨hsound.congr rfl rfl, ?_⟩
    rw [Result.finding, Opaque.content?_ofRaw_toRaw, hmeaning]
  | native entry =>
    simp only [Access.compute, ensures_bind, ensures_pure]
    refine (Program.ensures_run_of_fold' hanswer h (hlawful u)).mono ?_ fun _ _ _ ↦ trivial
    rintro value w' ⟨hsound, hmeaning⟩
    exact ⟨hsound, hmeaning.symm⟩
  | attached inner => exact ⟨h, (hlawful.2.1 u).symm⟩

/-- A request is answered rightly, from the cache or not. -/
theorem ensures_requestAt_right (hdistinct : (units.map CodeUnit.id).Nodup) {u : CodeUnit β}
    (hu : u ∈ units) (hknown : known u.id)
    (hanswer : tier.AnswersRight theory known units keys next (· = u) answer) (f : Flavour)
    (key : Key) {w : World (Manager S)} (h : tier.Sound theory known units keys next w) :
    (tier.access.requestAt answer f key u).Ensures w
      (fun a w' ↦ tier.Sound theory known units keys next w' ∧
        ∃ r, f.receive r = some a ∧ r.finding = theory.meaning key u)
      fun _ _ ↦ True := by
  apply Access.ensures_requestAt_of
  case hfound =>
    intro r message hfind
    refine (Access.ensures_expect f r).mono ?_ fun _ _ _ ↦ trivial
    rintro a w' ⟨ha, rfl⟩
    exact ⟨h.congr rfl rfl, r, ha, h.coherent.right u hu key r trivial hfind⟩
  case hunregistered => exact fun _ _ ↦ trivial
  case hrunning => exact fun _ _ _ _ ↦ trivial
  case hresting =>
    intro analysis message _ (hanalysis : w.focus.analyses.find? key = some ⟨analysis, false⟩)
    have hmem : key ∈ keys := by
      rw [← h.keys_eq, Manager.keys, Table.mem_keys, hanalysis]
      rfl
    have hlawful := h.coherent.lawful key _ hanalysis
    refine Ensures.mono (ensures_compute_right hanswer hlawful ?_) ?_ fun _ _ _ ↦ trivial
    · exact h.setRunning key true _ rfl
    · rintro r w₂ ⟨hsound, hmeaning⟩
      simp only [ensures_bind, Access.ensures_keep]
      refine (Access.ensures_expect f r).mono ?_ fun _ _ _ ↦ trivial
      rintro a w' ⟨ha, rfl⟩
      have hstopped := hsound.setRunning key false w₂.shared rfl
      exact ⟨hstopped.insert_result hdistinct hu hknown hmem hmeaning _ rfl, r, ha, hmeaning⟩

end Requests

/-! ## Answers -/

section Answers

variable {fetch : Fetch (Manager S) β}
  (hfetch : tier.FetchesRight theory known units keys next fetch)

include hfetch

/-- A foreign result that comes from beyond the boundary. -/
theorem ensures_boundaryResult_right {u : CodeUnit β} (hu : u ∈ units) (key : Option Key)
    {w : World (Manager S)} (h : tier.Sound theory known units keys next w) :
    (tier.access.boundaryResult fetch u key).Ensures w
      (fun value w' ↦ tier.Sound theory known units keys next w' ∧
        ∃ k, key = some k ∧ theory.meaning k u = .foreign value.content?)
      fun _ _ ↦ True := by
  cases key with
  | none => trivial
  | some key =>
    have hresult : (withKey tier.kind key (fetch .foreign u)).Ensures w
        (fun value w' ↦ tier.Sound theory known units keys next w' ∧
          ∃ k, some key = some k ∧ theory.meaning k u = .foreign (Opaque.content? value))
        fun _ _ ↦ True := by
      rw [ensures_withKey]
      refine Ensures.mono (hfetch .foreign u _ hu ?_) ?_ fun _ _ _ ↦ trivial
      · exact h.congr rfl (by cases tier.kind <;> rfl)
      · rintro value w' ⟨hsound, hright⟩
        obtain ⟨r, hvalue, hmeaning⟩ := hright key (Access.slot_inScope tier.kind key w)
        rw [Access.eq_foreign_of_receive hvalue] at hmeaning
        exact ⟨hsound.congr rfl (by cases tier.kind <;> rfl), key, rfl, hmeaning.symm⟩
    simp only [Access.boundaryResult, ensures_boundary, ensures_bind, Access.ensures_held]
    cases (tier.access.manager w.focus).isRegistered key with
    | true => exact hresult
    | false => trivial

theorem ensures_boundaryAttached_right {u : CodeUnit β} (hu : u ∈ units) {w : World (Manager S)}
    (h : tier.Sound theory known units keys next w) :
    (tier.access.boundaryAttached fetch u).Ensures w
      (fun _ w' ↦ tier.Sound theory known units keys next w') fun _ _ ↦ True := by
  have hattached : (fetch .attached u).Ensures w
      (fun _ w' ↦ tier.Sound theory known units keys next w') fun _ _ ↦ True :=
    (hfetch .attached u w hu h).mono (fun _ _ h ↦ h.1) fun _ _ _ ↦ trivial
  simp only [Access.boundaryAttached, ensures_boundary, ensures_bind, Access.ensures_held]
  cases (tier.access.manager w.focus).isRegistered .proxy with
  | true => exact hattached
  | false => trivial

/-- Whatever code asks about allowed units is answered rightly. -/
theorem answersRight (hwithin : tier.WithinRight theory known units keys next)
    {allowed : CodeUnit β → Prop} (hallowed : ∀ u, allowed u → u ∈ units) :
    tier.AnswersRight theory known units keys next allowed (tier.answer fetch) := by
  intro q post w h hq
  cases q with
  | say text => exact ⟨h.congr rfl rfl, hq⟩
  | identities => exact ⟨h, hq _⟩
  | result u key =>
    obtain ⟨hu, hpost⟩ := hq
    apply (ensures_bind (tier.access.boundaryResult fetch u key) _).2
    refine (ensures_boundaryResult_right hfetch (hallowed u hu) key h).mono ?_ fun _ _ _ ↦ trivial
    rintro value w' ⟨hsound, k, hkey, hmeaning⟩
    exact ⟨hsound, hpost k _ hkey hmeaning⟩
  | cached u key =>
    obtain ⟨hu, hpost⟩ := hq
    apply (ensures_bind (tier.access.boundaryCached u key) _).2
    refine (Access.ensures_boundaryCached u key).mono ?_ fun _ _ _ ↦ trivial
    rintro value w' ⟨k, hkey, rfl, hcached⟩
    have hsound : tier.Sound theory known units keys next
        (Access.closed tier.kind w (Access.inScope tier.kind k w)) := by
      rw [Access.closed_inScope]
      exact h.congr rfl rfl
    refine ⟨hsound, ?_⟩
    obtain ⟨hnone, hsome⟩ := hpost k hkey
    cases value with
    | none => exact hnone
    | some value => exact hsome _ (h.coherent.right u (hallowed u hu) k _ trivial hcached).symm
  | native u index =>
    obtain ⟨hu, hpost⟩ := hq
    refine (hfetch (.native index) u w (hallowed u hu) h).mono ?_ fun _ _ _ ↦ trivial
    rintro value w' ⟨hsound, hright⟩
    obtain ⟨r, hvalue, hmeaning⟩ := hright _ rfl
    refine ⟨hsound, hpost value ?_⟩
    cases r with
    | native value' =>
      obtain rfl : value' = value := Option.some.inj hvalue
      exact hmeaning.symm
    | foreign value' => contradiction
    | attached => contradiction
  | within u inner =>
    obtain ⟨hu, hpost⟩ := hq
    apply (ensures_bind (tier.access.boundaryAttached fetch u) _).2
    refine (ensures_boundaryAttached_right hfetch (hallowed u hu) h).mono ?_ fun _ _ _ ↦ trivial
    intro _ w' hsound
    exact hwithin u inner post w' (hallowed u hu) hsound hpost

end Answers

/-! ## Nested requests -/

section Fetching

variable (hdistinct : (units.map CodeUnit.id).Nodup) (hknown : ∀ u ∈ units, known u.id)
  (hwithin : tier.WithinRight theory known units keys next)

include hdistinct hknown

theorem request_fetchesRight {answer : (q : Inquiry β I) → Exec (Manager S) q.Answer}
    (hanswer : ∀ u ∈ units, tier.AnswersRight theory known units keys next (· = u) answer) :
    tier.FetchesRight theory known units keys next (tier.access.request answer) := by
  intro f u w hu h
  rw [Access.request, ensures_bind]
  apply Flavour.ensures_resolve
  · intro key hkey
    refine (ensures_requestAt_right hdistinct hu (hknown u hu) (hanswer u hu) f key h).mono ?_
      fun _ _ _ ↦ trivial
    rintro a w' ⟨hsound, hright⟩
    refine ⟨hsound, ?_⟩
    intro key' hkey'
    obtain rfl : key = key' := Option.some.inj (hkey.symm.trans hkey')
    exact hright
  · intro p
    trivial

include hwithin

theorem fetchWithin_fetchesRight (depth : Nat) :
    tier.FetchesRight theory known units keys next (tier.fetchWithin depth) := by
  have hallowed (u : CodeUnit β) (hu : u ∈ units) : ∀ v, v = u → v ∈ units := by
    rintro v rfl
    exact hu
  induction depth with
  | zero =>
    apply request_fetchesRight hdistinct hknown
    intro u hu
    have hnone : tier.FetchesRight theory known units keys next fun _ _ ↦ throw .exhausted :=
      fun _ _ _ _ _ ↦ trivial
    exact answersRight hnone hwithin (hallowed u hu)
  | succ depth ih =>
    apply request_fetchesRight hdistinct hknown
    intro u hu
    exact answersRight ih hwithin (hallowed u hu)

/-- Every look-up gets what its key means. -/
theorem fetch_fetchesRight : tier.FetchesRight theory known units keys next tier.fetch := by
  intro f u w hu h
  rw [ensures_fetch]
  exact fetchWithin_fetchesRight hdistinct hknown hwithin _ f u w hu h

theorem answer_fetch_answersRight {allowed : CodeUnit β → Prop}
    (hallowed : ∀ u, allowed u → u ∈ units) :
    tier.AnswersRight theory known units keys next allowed (tier.answer tier.fetch) :=
  answersRight (fetch_fetchesRight hdistinct hknown hwithin) hwithin hallowed

end Fetching

end Tier

end ForeignPasses
