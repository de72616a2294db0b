import ForeignPasses.Proofs.Coherence.Attached
import ForeignPasses.Proofs.Manager.Stages

/-!
# Invalidation takes the wrong results away

After a unit has changed, its results are right for the preserved keys alone. Invalidation goes
through the registered analyses; what has been dealt with has no result for the unit any more, so
at the end every result that is left is right.
-/

namespace ForeignPasses

open Exec

namespace Manager.Coherent

variable {β S : Type} {lawful : Key → Analysis S → Prop} {meaning : Key → CodeUnit β → Finding}
  {known : UnitId → Prop} {valid : CodeUnit β → Key → Prop} {units : List (CodeUnit β)}
  {m : Manager S}

/-- It is enough to say where results are right for those that are there. -/
theorem of_valid (h : m.Coherent lawful meaning known valid units)
    {valid' : CodeUnit β → Key → Prop}
    (hvalid : ∀ u ∈ units, ∀ key, m.isRegistered key → valid' u key → valid u key) :
    m.Coherent lawful meaning known valid' units where
  lawful := h.lawful
  registered := h.registered
  known := h.known
  right u hu key r hkey hr := h.right u hu key r (hvalid u hu key (h.registered _ _ _ hr) hkey) hr

/-- The units may change to others for which the results are right. -/
theorem of_units (h : m.Coherent lawful meaning known valid units) {known' : UnitId → Prop}
    (hknown : ∀ id, known id → known' id) {valid' : CodeUnit β → Key → Prop}
    {units' : List (CodeUnit β)}
    (hright : ∀ u ∈ units', ∀ key r, valid' u key → m.results.find? (u.id, key) = some r →
      r.finding = meaning key u) :
    m.Coherent lawful meaning known' valid' units' where
  lawful := h.lawful
  registered := h.registered
  known id key r hr := hknown id (h.known id key r hr)
  right := hright

/-- Where there is no result there is no wrong one. -/
theorem erase_result (h : m.Coherent lawful meaning known valid units) (id : UnitId) (key : Key) :
    ({ m with results := m.results.erase (id, key) } : Manager S).Coherent lawful meaning known
      (fun u k ↦ (u.id = id ∧ k = key) ∨ valid u k) units where
  lawful := h.lawful
  registered i k r hr := h.registered i k r (Table.find?_of_find?_erase hr)
  known i k r hr := h.known i k r (Table.find?_of_find?_erase hr)
  right u hu k r hvalid hr := by
    rw [Table.find?_erase] at hr
    split at hr
    · contradiction
    · rename_i hne
      rcases hvalid with ⟨rfl, rfl⟩ | hvalid
      · exact absurd rfl hne
      · exact h.right u hu k r hvalid hr

end Manager.Coherent

namespace Tier

variable {β I S : Type} (tier : Tier β I S) (theory : Theory β I S) (known : UnitId → Prop)
  (valid : CodeUnit β → Key → Prop) (units : List (CodeUnit β)) (next : UnitId) (u : CodeUnit β)
  (preserved : Preserved) (before after : S → Prop)

/-- An attached manager will be told about the invalidation. -/
def Waiting (rest : List (Key × Registered S)) : Prop :=
  ∃ e ∈ rest, (∃ inner, e.2.analysis = .attached inner) ∧ preserved.contains e.1 = false

/-- What holds when all but the rest of the analyses have been dealt with. -/
structure Remaining (rest : List (Key × Registered S)) (w : World (Manager S)) : Prop where
  coherent : w.focus.Coherent
    ((theory.withInner fun s ↦
      (Waiting preserved rest → before s) ∧ (¬ Waiting preserved rest → after s)).Lawful
        tier.behaviour.toComputations)
    theory.meaning known
    (fun v key ↦ valid v key ∨ v.id = u.id ∧ key ∉ rest.map Prod.fst) units
  next_eq : w.shared.nextUnit = next

variable {tier theory known valid units next u preserved before after}

/-- Nothing is to be done for what is preserved. -/
theorem Remaining.skip (hvalid : ∀ v key, v.id = u.id → preserved.contains key → valid v key)
    {e : Key × Registered S} {rest : List (Key × Registered S)} {w : World (Manager S)}
    (h : tier.Remaining theory known valid units next u preserved before after (e :: rest) w)
    (he : preserved.contains e.1 = true) :
    tier.Remaining theory known valid units next u preserved before after rest w where
  coherent := by
    have hwaiting : Waiting preserved (e :: rest) ↔ Waiting preserved rest := by
      simp [Waiting, he]
    have hcoherent := h.coherent
    rw [hwaiting] at hcoherent
    apply hcoherent.of_valid
    intro v _ key _ hv
    rcases hv with hv | ⟨hid, hkey⟩
    · exact .inl hv
    · by_cases hfirst : key = e.1
      · exact .inl (hvalid v key hid (hfirst ▸ he))
      · exact .inr ⟨hid, by simp [hfirst, hkey]⟩
  next_eq := h.next_eq

/-- What is not preserved is forgotten. -/
theorem Remaining.erase {e : Key × Registered S} {rest : List (Key × Registered S)}
    {w : World (Manager S)}
    (h : tier.Remaining theory known valid units next u preserved before after (e :: rest) w) :
    ({ w.focus with results := w.focus.results.erase (u.id, e.1) } : Manager S).Coherent
      ((theory.withInner fun s ↦ (Waiting preserved (e :: rest) → before s) ∧
        (¬ Waiting preserved (e :: rest) → after s)).Lawful tier.behaviour.toComputations)
      theory.meaning known (fun v key ↦ valid v key ∨ v.id = u.id ∧ key ∉ rest.map Prod.fst)
      units := by
  apply (h.coherent.erase_result u.id e.1).of_valid
  intro v _ key _ hv
  rcases hv with hv | ⟨hid, hkey⟩
  · exact .inr (.inl hv)
  · by_cases hfirst : key = e.1
    · exact .inl ⟨hid, hfirst⟩
    · exact .inr (.inr ⟨hid, by simp [hfirst, hkey]⟩)

/-- Being told changes nothing but the attached manager, which does its part. -/
theorem ensures_notify_remaining
    (hwithin : ∀ w : World S, before w.focus → w.shared.nextUnit = next →
      (tier.invalidateWithin u preserved).Ensures w
        (fun _ w' ↦ after w'.focus ∧ w'.shared.nextUnit = next) fun _ _ ↦ True)
    {e : Key × Registered S} {rest : List (Key × Registered S)}
    (hproxy : ∀ e' ∈ e :: rest, ∀ inner, e'.2.analysis = .attached inner → e'.1 = .proxy)
    (hnodup : e.1 ∉ rest.map Prod.fst) (he : preserved.contains e.1 = false)
    {w : World (Manager S)}
    (h : tier.Remaining theory known valid units next u preserved before after (e :: rest) w) :
    (tier.notify u preserved e.1 e.2.analysis).Ensures (forgotten u e.1 w)
      (fun _ w' ↦ tier.Remaining theory known valid units next u preserved before after rest w')
      fun _ _ ↦ True := by
  have herased := h.erase
  have hsame (hanalysis : ∀ inner, e.2.analysis ≠ .attached inner) :
      Waiting preserved (e :: rest) ↔ Waiting preserved rest := by
    simp [Waiting, hanalysis]
  obtain ⟨key, analysis, running⟩ := e
  cases analysis with
  | foreign entry context =>
    rw [hsame (by simp)] at herased
    exact ⟨herased, h.next_eq⟩
  | native entry =>
    rw [hsame (by simp)] at herased
    exact ⟨herased, h.next_eq⟩
  | attached inner =>
    have hwaiting : Waiting preserved ((key, ⟨.attached inner, running⟩) :: rest) :=
      ⟨_, List.mem_cons_self, ⟨inner, rfl⟩, he⟩
    have hrest : ¬ Waiting preserved rest := by
      rintro ⟨e', he', ⟨inner', hinner'⟩, -⟩
      have hkey : key = .proxy := hproxy _ List.mem_cons_self inner rfl
      have hkey' : e'.1 = .proxy := hproxy e' (List.mem_cons_of_mem _ he') inner' hinner'
      exact hnodup (List.mem_map.2 ⟨e', he', hkey'.trans hkey.symm⟩)
    rw [notify, ensures_bind, ensures_emit]
    apply ensures_onAttached_of
    case hnone => exact fun _ ↦ trivial
    case hsome =>
      intro manager hattached
      have hbefore : before manager := (herased.inner_of_attached? hattached).1 hwaiting
      refine (hwithin _ hbefore h.next_eq).mono ?_ fun _ _ _ ↦ trivial
      rintro _ w' ⟨hafter, hnext⟩
      exact ⟨herased.setAttached hattached ⟨fun hw ↦ absurd hw hrest, fun _ ↦ hafter⟩, hnext⟩

theorem ensures_invalidateEach_remaining
    (hvalid : ∀ v key, v.id = u.id → preserved.contains key → valid v key)
    (hwithin : ∀ w : World S, before w.focus → w.shared.nextUnit = next →
      (tier.invalidateWithin u preserved).Ensures w
        (fun _ w' ↦ after w'.focus ∧ w'.shared.nextUnit = next) fun _ _ ↦ True)
    {rest : List (Key × Registered S)}
    (hproxy : ∀ e ∈ rest, ∀ inner, e.2.analysis = .attached inner → e.1 = .proxy)
    (hnodup : (rest.map Prod.fst).Nodup) {w : World (Manager S)}
    (h : tier.Remaining theory known valid units next u preserved before after rest w) :
    (tier.invalidateEach u preserved rest).Ensures w
      (fun _ w' ↦ tier.Remaining theory known valid units next u preserved before after [] w')
      fun _ _ ↦ True := by
  induction rest generalizing w with
  | nil => exact h
  | cons e rest ih =>
    obtain ⟨hfirst, hrest⟩ := List.nodup_cons.1 hnodup
    have hproxy' : ∀ e' ∈ rest, ∀ inner, e'.2.analysis = .attached inner → e'.1 = .proxy :=
      fun e' he' ↦ hproxy e' (List.mem_cons_of_mem _ he')
    obtain ⟨key, registered⟩ := e
    apply ensures_invalidateEach_of
    case hkept => exact fun hkey ↦ ih hproxy' hrest (h.skip hvalid hkey)
    case hlost =>
      intro hkey
      have hstep := ensures_notify_remaining hwithin hproxy hfirst hkey h
      exact hstep.mono (fun _ w₁ h₁ ↦ ih hproxy' hrest h₁) fun _ _ h ↦ h

/-- At the start all registered analyses are left to be dealt with. -/
theorem remaining_entries {w : World (Manager S)} (hnext : w.shared.nextUnit = next)
    (h : w.focus.Coherent
      ((theory.withInner fun s ↦ if preserved.contains .proxy then after s else before s).Lawful
        tier.behaviour.toComputations)
      theory.meaning known valid units) :
    tier.Remaining theory known valid units next u preserved before after
      w.focus.analyses.entries w where
  coherent := by
    have hinner (s : S) (hattached : w.focus.attached? = some s) :
        (Waiting preserved w.focus.analyses.entries → before s) ∧
          (¬ Waiting preserved w.focus.analyses.entries → after s) := by
      have hs : if preserved.contains .proxy then after s else before s :=
        h.inner_of_attached? hattached
      constructor
      · rintro ⟨⟨key, r⟩, hmem, ⟨inner, hinner⟩, hkey⟩
        have hlawful := h.lawful key r (Table.mem_entries.1 hmem)
        rw [show r.analysis = .attached inner from hinner] at hlawful
        obtain rfl : key = .proxy := hlawful.1
        rwa [if_neg (by simpa using hkey)] at hs
      · intro hwaiting
        cases hproxy : preserved.contains .proxy with
        | true => rwa [if_pos hproxy] at hs
        | false =>
          obtain ⟨running, hfind⟩ := Manager.find?_of_attached? hattached
          exact absurd ⟨_, Table.mem_entries.2 hfind, ⟨s, rfl⟩, hproxy⟩ hwaiting
    apply (h.withInner hinner).of_valid
    intro v _ key hregistered hv
    rcases hv with hv | ⟨-, hkey⟩
    · exact hv
    · exact absurd (Table.mem_keys.2 hregistered) hkey
  next_eq := hnext

/-- After an invalidation all results for the unit are right, if those for the preserved keys were,
and if what is attached does its part unless the key it is attached under is preserved. -/
theorem ensures_invalidate_right
    (hvalid : ∀ v key, v.id = u.id → preserved.contains key → valid v key)
    (hwithin : ∀ w : World S, before w.focus → w.shared.nextUnit = next →
      (tier.invalidateWithin u preserved).Ensures w
        (fun _ w' ↦ after w'.focus ∧ w'.shared.nextUnit = next) fun _ _ ↦ True)
    {w : World (Manager S)} (hnext : w.shared.nextUnit = next)
    (h : w.focus.Coherent
      ((theory.withInner fun s ↦ if preserved.contains .proxy then after s else before s).Lawful
        tier.behaviour.toComputations)
      theory.meaning known valid units) :
    (tier.invalidate u preserved).Ensures w
      (fun _ w' ↦ w'.focus.Coherent
          ((theory.withInner after).Lawful tier.behaviour.toComputations) theory.meaning known
          (fun v key ↦ v.id = u.id ∨ valid v key) units ∧
        w'.shared.nextUnit = next)
      fun _ _ ↦ True := by
  cases hall : preserved.isAll with
  | true =>
    obtain rfl : preserved = .all := by
      cases preserved with
      | all => rfl
      | only keys => contradiction
    refine ⟨h.of_valid fun v _ key _ hv ↦ ?_, hnext⟩
    rcases hv with hid | hv
    · exact hvalid v key hid rfl
    · exact hv
  | false =>
    have hproxy : ∀ e ∈ w.focus.analyses.entries, ∀ inner, e.2.analysis = .attached inner →
        e.1 = .proxy := by
      rintro ⟨key, r⟩ hmem inner hinner
      have hlawful := h.lawful key r (Table.mem_entries.1 hmem)
      rw [show r.analysis = .attached inner from hinner] at hlawful
      exact hlawful.1
    have heach := ensures_invalidateEach_remaining hvalid hwithin hproxy w.focus.analyses.nodup
      (remaining_entries hnext h)
    simp only [invalidate, hall, Bool.false_eq_true, if_false, ensures_bind, ensures_focus]
    refine heach.mono ?_ fun _ _ h ↦ h
    intro _ w' hw'
    have hdone : ¬ Waiting preserved ([] : List (Key × Registered S)) := by
      simp [Waiting]
    have hafter := hw'.coherent.withInner fun s hattached ↦
      (hw'.coherent.inner_of_attached? hattached).2 hdone
    refine ⟨hafter.of_valid fun v _ key _ hv ↦ ?_, hw'.next_eq⟩
    rcases hv with hid | hv
    · exact .inr ⟨hid, by simp⟩
    · exact .inl hv

end Tier

/-! ## Both tiers -/

namespace Code

variable {code : Code} {meaning : Meaning} {functions : Functions} {bound next : UnitId}
  {preserved : Preserved}

theorem ensures_invalidate_function {valid : Function → Key → Prop} {f : Function}
    (hvalid : ∀ g key, g.id = f.id → preserved.contains key → valid g key)
    {w : World FunctionManager} (hnext : w.shared.nextUnit = next)
    (h : code.FunctionsRight meaning valid functions bound w.focus) :
    (code.functionTier.invalidate f preserved).Ensures w
      (fun _ w' ↦
        code.FunctionsRight meaning (fun g key ↦ g.id = f.id ∨ valid g key) functions bound
          w'.focus ∧
        w'.shared.nextUnit = next)
      fun _ _ ↦ True := by
  have hwithin : ∀ w : World Empty, True → w.shared.nextUnit = next →
      (code.functionTier.invalidateWithin f preserved).Ensures w
        (fun _ w' ↦ True ∧ w'.shared.nextUnit = next) fun _ _ ↦ True :=
    fun w ↦ nomatch w.focus
  have hstart : w.focus.Coherent
      ((meaning.functionTheory.withInner fun _ ↦
        if preserved.contains .proxy then True else True).Lawful code.functions.toComputations)
      meaning.onFunction (· < bound) valid functions := h.withInner fun inner ↦ nomatch inner
  refine (Tier.ensures_invalidate_right hvalid hwithin hnext hstart).mono ?_ fun _ _ h ↦ h
  rintro _ w' ⟨hright, hnext'⟩
  exact ⟨hright.withInner (fun inner ↦ nomatch inner), hnext'⟩

/-- The results of all functions are right again when each has been dealt with. -/
theorem ensures_invalidateFunctions_right (rest : Functions) {w : World FunctionManager}
    (hnext : w.shared.nextUnit = next)
    (h : code.FunctionsRight meaning
      (fun f key ↦ preserved.contains key = true ∨ ∀ g ∈ rest, f.id ≠ g.id) functions bound
      w.focus) :
    (invalidateFunctions code preserved rest).Ensures w
      (fun _ w' ↦ code.FunctionsRight meaning (fun _ _ ↦ True) functions bound w'.focus ∧
        w'.shared.nextUnit = next)
      fun _ _ ↦ True := by
  induction rest generalizing w with
  | nil => exact ⟨h.of_valid fun _ _ _ _ _ ↦ .inr (fun _ hg ↦ nomatch hg), hnext⟩
  | cons f rest ih =>
    rw [invalidateFunctions, ensures_bind]
    refine (ensures_invalidate_function (fun _ _ _ hkey ↦ .inl hkey) hnext h).mono ?_
      fun _ _ h ↦ h
    rintro _ w' ⟨hright, hnext'⟩
    apply ih hnext'
    apply hright.of_valid
    intro g _ key _ hg
    rcases hg with hkey | hrest
    · exact .inr (.inl hkey)
    · by_cases hf : g.id = f.id
      · exact .inl hf
      · exact .inr (.inr fun g' hg' ↦ by
          rcases List.mem_cons.1 hg' with rfl | hg'
          · exact hf
          · exact hrest g' hg')

/-- After a module has changed, invalidation makes its results and those of its functions right
again, if the preserved ones are. -/
theorem ensures_invalidate_module {m : Module} {w : World ModuleManager}
    (hnext : w.shared.nextUnit = next)
    (h : code.ModuleRight meaning (fun key ↦ preserved.contains key = true)
      (code.FunctionsRight meaning
        (fun _ key ↦ preserved.contains .proxy = true ∨ preserved.contains key = true) m.content
        bound) m w.focus) :
    (code.moduleTier.invalidate m preserved).Ensures w
      (fun _ w' ↦
        code.ModuleRight meaning (fun _ ↦ True)
          (code.FunctionsRight meaning (fun _ _ ↦ True) m.content bound) m w'.focus ∧
        w'.shared.nextUnit = next)
      fun _ _ ↦ True := by
  have hwithin : ∀ v : World FunctionManager,
      code.FunctionsRight meaning
        (fun f key ↦ preserved.contains key = true ∨ ∀ g ∈ m.content, f.id ≠ g.id) m.content bound
        v.focus →
      v.shared.nextUnit = next →
      (code.moduleTier.invalidateWithin m preserved).Ensures v
        (fun _ w' ↦ code.FunctionsRight meaning (fun _ _ ↦ True) m.content bound w'.focus ∧
          w'.shared.nextUnit = next) fun _ _ ↦ True :=
    fun v hv hnext ↦ ensures_invalidateFunctions_right m.content hnext hv
  have hstart : w.focus.Coherent
      (((meaning.moduleTheory fun _ ↦ True).withInner fun s ↦
        if preserved.contains .proxy then
          code.FunctionsRight meaning (fun _ _ ↦ True) m.content bound s
        else
          code.FunctionsRight meaning
            (fun f key ↦ preserved.contains key = true ∨ ∀ g ∈ m.content, f.id ≠ g.id) m.content
            bound s).Lawful code.modules.toComputations)
      meaning.onModule (fun _ ↦ True) (fun _ key ↦ preserved.contains key = true) [m] := by
    refine h.withInner fun inner hattached ↦ ?_
    have hinner : code.FunctionsRight meaning
        (fun _ key ↦ preserved.contains .proxy = true ∨ preserved.contains key = true) m.content
        bound inner := h.inner_of_attached? hattached
    cases hproxy : preserved.contains .proxy with
    | true => exact hinner.of_valid fun _ _ _ _ _ ↦ .inl hproxy
    | false =>
      apply hinner.of_valid
      intro f hf key _ hkey
      rcases hkey with hkey | hkey
      · exact .inr hkey
      · exact absurd rfl (hkey f hf)
  refine (Tier.ensures_invalidate_right (fun _ _ _ hkey ↦ hkey) hwithin hnext hstart).mono ?_
    fun _ _ h ↦ h
  rintro _ w' ⟨hright, hnext'⟩
  exact ⟨hright.of_valid fun u hu _ _ _ ↦ .inl (by rw [List.mem_singleton.1 hu]), hnext'⟩

end Code

end ForeignPasses
