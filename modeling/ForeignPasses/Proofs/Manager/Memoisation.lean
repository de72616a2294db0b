import ForeignPasses.Demo
import ForeignPasses.Proofs.Manager.Operations

/-!
# Look-ups through the cache

However results are looked up, invalidated and cleared, the cache is what can be recalled from the
history: a look-up finds what evaluation from scratch comes to, and an analysis runs again only
where its last result has been dropped.
-/

namespace ForeignPasses

open Exec

namespace Tier

variable {β I S : Type} (tier : Tier β I S)

/-! ## Settled managers -/

/-- Fixed units, and analyses that all come to something for them when they are evaluated from
scratch. Managers are attached under the proxy key alone. -/
structure Setting where
  fixed : CodeUnit β → Bool
  nameOf : UnitId → String
  outline : Outline
  named : ∀ u, fixed u = true → u.name = nameOf u.id
  distinct : ∀ u v, fixed u = true → fixed v = true → u.id = v.id → u = v
  attached : ∀ key, outline key = some (.attached ()) → key = .proxy
  evaluates : ∀ key u, (outline key).isSome = true → fixed u = true →
    ∃ finding, tier.Evaluates fixed outline key u finding

variable {tier}

namespace Setting

variable (setting : tier.Setting)

/-- Look-ups are for analyses that are there, and of their type; their units are fixed. -/
def Fits : Operation β → Prop
  | .get l u => setting.fixed u = true ∧ ∃ analysis, setting.outline l.key = some analysis ∧
      l.Fits analysis
  | .cached l _ => ∀ analysis, setting.outline l.key = some analysis → l.Fits analysis
  | .invalidate .. => True
  | .clear => True

/-- While nothing runs, the results in the cache are those that can be recalled, and they are what
evaluation comes to. -/
structure Settled (past : List Happening) (m : Manager S) : Prop where
  memoised : tier.Memoised setting.fixed setting.outline m
  resting : ∀ key, m.profile.find? key ≠ some true
  recalled : ∀ place, m.results.find? place = Happening.recalled past place

/-- What an operation comes to that is performed after some happenings. -/
def Answered [Owner S] (known : List Happening) (w : World (Manager S)) :
    Operation β → Option Result → World (Manager S) → Prop
  | .get l u, outcome, _ => ∃ r, outcome = some r ∧
      tier.Evaluates setting.fixed setting.outline l.key u r.finding ∧
      Happening.recalled (known ++ tier.happenings (.get l u) w) (u.id, l.key) = some r
  | .cached l u, outcome, w' => outcome = Happening.recalled known (u.id, l.key) ∧
      w'.focus = w.focus ∧ w'.shared.starts = w.shared.starts
  | .invalidate .., outcome, _ => outcome = none
  | .clear, outcome, _ => outcome = none

variable {setting} {w : World (Manager S)}

/-- A manager that has computed nothing so far. -/
theorem Settled.fresh {m : Manager S} (houtline : m.outline = setting.outline)
    (hresting : ∀ e ∈ m.analyses.entries, e.2.running = false)
    (hempty : ∀ place, m.results.find? place = none) : setting.Settled [] m where
  memoised := ⟨houtline, fun id key r hr ↦ absurd hr (by simp [hempty])⟩
  resting key hkey := by
    rw [Manager.find?_profile] at hkey
    obtain ⟨registered, hfind, hrunning⟩ := Option.map_eq_some_iff.1 hkey
    rw [hresting _ (Table.mem_entries.2 hfind)] at hrunning
    cases hrunning
  recalled place := hempty place

/-! ## Looking up -/

/-- A result that was looked up, and what came in on the way. -/
structure LookedUp (setting : tier.Setting) (l : Lookup) (u : CodeUnit β) (w : World (Manager S))
    (r : Result) (w' : World (Manager S)) : Prop where
  evaluates : tier.Evaluates setting.fixed setting.outline l.key u r.finding
  memoised : tier.Memoised setting.fixed setting.outline w'.focus
  grown : w.focus.Grown (tier.computed l.flavour u (l.opened tier.kind w)) w'.focus
  starts : w'.shared.starts.Perm (w.shared.starts ++
    (tier.computed l.flavour u (l.opened tier.kind w)).map fun e ↦ startLine setting.nameOf e.1)
  cached : w'.focus.results.find? (u.id, l.key) = some r

theorem ensures_lookUp_plain {past : List Happening} (hsettled : setting.Settled past w.focus)
    {l : Lookup} {u : CodeUnit β} (hfits : setting.Fits (.get l u)) :
    (tier.lookUp l u).Ensures w (setting.LookedUp l u w) fun _ _ ↦ False := by
  obtain ⟨hfixed, analysis, hanalysis, hfits⟩ := hfits
  obtain ⟨finding, hevaluates⟩ := setting.evaluates l.key u (by rw [hanalysis]; rfl) hfixed
  have hkey := l.key?_opened tier.kind w
  have hfocus := l.focus_opened tier.kind w
  have hfetch := fetchesPlainly_fetch setting.named setting.distinct (w := l.opened tier.kind w)
    (hfocus ▸ hsettled.memoised) (hfocus ▸ hsettled.resting) hfixed hevaluates hkey
    (hfits.takes hanalysis hevaluates)
  apply ensures_lookUp
  refine ((hfetch.and (adds_fetch _ u _)).and (ensures_fetch_cached _ u _)).mono ?_
    fun _ _ h ↦ h.1.1
  rintro a w' ⟨⟨⟨hfinding, hmemoised, new, hgrown, hlines⟩, hcomputed⟩, hcached⟩ r w'' hr hfocus'
    hstarts'
  obtain ⟨r', hr', hfind⟩ := hcached l.key hkey
  obtain rfl := Flavour.receive_inj hr hr'
  have hnew : new = tier.computed l.flavour u (l.opened tier.kind w) :=
    List.append_cancel_left (hgrown.entries_eq.symm.trans hcomputed.entries_eq)
  rw [hfocus] at hcomputed
  refine ⟨?_, hfocus' ▸ hmemoised, hfocus' ▸ hcomputed, ?_, hfocus' ▸ hfind⟩
  · rwa [← Flavour.finding_eq hr, hfinding]
  · rwa [hnew, l.starts_opened, ← hstarts'] at hlines

end Setting

end Tier

/-! ## Steps -/

namespace Tier.Setting

variable {β I S : Type} [Owner S] {tier : Tier β I S} {setting : tier.Setting}
  {past : List Happening} {w : World (Manager S)}

/-- One operation, after which the manager is settled again. -/
structure Steps (setting : tier.Setting) (past : List Happening) (op : Operation β)
    (w : World (Manager S)) (outcome : Option Result) (w' : World (Manager S)) : Prop where
  settled : setting.Settled (past ++ tier.happenings op w) w'.focus
  answered : setting.Answered past w op outcome w'
  sparing : Happening.Sparing past (tier.happenings op w)
  starts : w'.shared.starts.Perm
    (w.shared.starts ++ Happening.startLines setting.nameOf (tier.happenings op w))

/-- An operation that completes nothing. -/
theorem Steps.of_none_completed {op : Operation β} {outcome : Option Result}
    {w' : World (Manager S)} (hsettled : setting.Settled (past ++ tier.happenings op w) w'.focus)
    (hanswered : setting.Answered past w op outcome w')
    (hnone : ∀ happening ∈ tier.happenings op w, happening.isCompleted = false)
    (hstarts : w'.shared.starts = w.shared.starts) : setting.Steps past op w outcome w' where
  settled := hsettled
  answered := hanswered
  sparing := .of_none_completed hnone
  starts := by rw [Happening.startLines_eq_nil _ hnone, List.append_nil, hstarts]

omit [Owner S] in
theorem Settled.mem_entries_iff {m : Manager S} (h : setting.Settled past m)
    (place : UnitId × Key) (r : Result) :
    (place, r) ∈ m.results.entries ↔ Happening.recalled past place = some r := by
  rw [Table.mem_entries, h.recalled]

theorem LookedUp.steps (hsettled : setting.Settled past w.focus) {l : Lookup} {u : CodeUnit β}
    {r : Result} {w' : World (Manager S)} (h : setting.LookedUp l u w r w') :
    setting.Steps past (.get l u) w (some r) w' := by
  have hnodup := w'.focus.results.nodup
  rw [h.grown.entries_eq] at hnodup
  obtain ⟨hrecall, hsparing⟩ :=
    Happening.recalled_completions hnodup (hsettled.mem_entries_iff · ·)
  have hrecalled (place : UnitId × Key) : w'.focus.results.find? place =
      Happening.recalled (past ++ tier.happenings (.get l u) w) place := by
    ext r
    rw [← Table.mem_entries, h.grown.entries_eq]
    exact hrecall place r
  refine ⟨⟨h.memoised, fun key ↦ ?_, hrecalled⟩, ⟨r, rfl, h.evaluates, ?_⟩, hsparing, ?_⟩
  · rw [h.grown.profile_eq]
    exact hsettled.resting key
  · rw [← hrecalled, h.cached]
  · rw [happenings, Happening.startLines_completions]
    exact h.starts

theorem ensures_cached_steps (hsettled : setting.Settled past w.focus) {l : Lookup}
    {u : CodeUnit β} (hfits : setting.Fits (.cached l u)) :
    (tier.lookUpCached l u).Ensures w (setting.Steps past (.cached l u) w) fun _ _ ↦ False := by
  have htakes (r : Result) (hr : w.focus.results.find? (u.id, l.key) = some r) :
      l.flavour.Takes r.finding := by
    obtain ⟨v, -, -, hevaluates⟩ := hsettled.memoised.right u.id l.key r hr
    obtain ⟨analysis, hanalysis⟩ := Option.isSome_iff_exists.1 hevaluates.isSome_outline
    exact (hfits analysis hanalysis).takes hanalysis hevaluates
  refine (ensures_lookUpCached htakes).imp ?_
  rintro outcome w' ⟨houtcome, hfocus, hstarts⟩
  refine .of_none_completed ?_ ⟨houtcome.trans (hsettled.recalled _), hfocus, hstarts⟩
    (fun _ h ↦ nomatch h) hstarts
  rw [happenings, List.append_nil, hfocus]
  exact hsettled

omit [Owner S] in
/-- Results of analyses that are not registered are not recalled anyway. -/
theorem Settled.invalidated {m m' : Manager S} (hsettled : setting.Settled past m)
    {u : CodeUnit β} {preserved : Preserved}
    (hdropped : m.Dropped u.id (fun key ↦ m.isRegistered key && !preserved.contains key) m')
    (houtline : m'.outline = m.outline) :
    setting.Settled (past ++ [.invalidated u.id preserved]) m' where
  memoised := by
    refine hsettled.memoised.of_results houtline fun place r hr ↦ ?_
    rw [hdropped.find?_eq] at hr
    split at hr
    · cases hr
    · exact hr
  resting key := by
    rw [hdropped.profile_eq]
    exact hsettled.resting key
  recalled place := by
    obtain ⟨id, key⟩ := place
    have hregistered : m.isRegistered key = false → m.results.find? (id, key) = none := by
      intro hkey
      rw [Option.eq_none_iff_forall_ne_some]
      intro r hr
      obtain ⟨v, -, -, hevaluates⟩ := hsettled.memoised.right id key r hr
      have hsome := hevaluates.isSome_outline
      rw [← hsettled.memoised.outline_eq, ← Manager.isRegistered_eq_isSome_outline, hkey] at hsome
      cases hsome
    rw [Happening.recalled_append_singleton, Happening.after, Happening.drops,
      ← hsettled.recalled, hdropped.find?_eq]
    cases hkey : m.isRegistered key with
    | false => simp [hregistered hkey]
    | true => simp

theorem ensures_invalidate_steps (hquiet : tier.Quiet) (hsettled : setting.Settled past w.focus)
    (u : CodeUnit β) (preserved : Preserved) :
    (tier.invalidate u preserved).Ensures w
      (fun _ w' ↦ setting.Steps past (.invalidate u preserved) w none w') fun _ _ ↦ False := by
  have hattached (key : Key) (hkey : w.focus.outline key = some (.attached ())) : key = .proxy := by
    rw [hsettled.memoised.outline_eq] at hkey
    exact setting.attached key hkey
  refine ((ensures_invalidate_quiet hquiet u preserved hattached).and
    (ensures_invalidate_dropped u preserved w)).mono ?_ fun _ _ h ↦ h.1
  rintro _ w' ⟨⟨houtline, hstarts⟩, hdropped⟩
  exact .of_none_completed (hsettled.invalidated hdropped houtline) rfl
    (fun _ h ↦ List.mem_singleton.1 h ▸ rfl) hstarts

theorem ensures_clear_steps (hsettled : setting.Settled past w.focus) :
    (tier.perform .clear).Ensures w (setting.Steps past .clear w) fun _ _ ↦ False := by
  simp only [perform, ensures_bind, ensures_focus, ensures_setFocus, ensures_release, ensures_pure]
  refine .of_none_completed ⟨?_, hsettled.resting, fun place ↦ ?_⟩ rfl
    (fun _ h ↦ List.mem_singleton.1 h ▸ rfl) (starts_released _ _)
  · refine hsettled.memoised.of_results rfl ?_
    rintro place r ⟨⟩
  · rw [happenings, Happening.recalled_append_singleton]
    rfl

theorem ensures_perform (hquiet : tier.Quiet) (hsettled : setting.Settled past w.focus)
    (op : Operation β) (hfits : setting.Fits op) :
    (tier.perform op).Ensures w (setting.Steps past op w) fun _ _ ↦ False := by
  cases op with
  | get l u =>
    rw [perform, ensures_map]
    exact (ensures_lookUp_plain hsettled hfits).imp fun _ _ h ↦ h.steps hsettled
  | cached l u => exact ensures_cached_steps hsettled hfits
  | invalidate u preserved =>
    rw [perform, ensures_bind]
    exact ensures_invalidate_steps hquiet hsettled u preserved
  | clear => exact ensures_clear_steps hsettled

/-! ## Runs -/

/-- Operations in any order, after which the manager is settled again. -/
theorem ensures_performAll (hquiet : tier.Quiet) (ops : List (Operation β))
    (hfits : ∀ op ∈ ops, setting.Fits op) (hsettled : setting.Settled past w.focus) :
    (tier.performAll ops).Ensures w
      (fun _ w' ↦ setting.Settled (past ++ tier.history ops w) w'.focus ∧
        Happening.Sparing past (tier.history ops w) ∧
        w'.shared.starts.Perm
          (w.shared.starts ++ Happening.startLines setting.nameOf (tier.history ops w)))
      fun _ _ ↦ False := by
  induction ops generalizing past w with
  | nil =>
    refine ⟨?_, .of_none_completed (fun _ h ↦ nomatch h), .of_eq (List.append_nil _).symm⟩
    rw [history, List.append_nil]
    exact hsettled
  | cons op rest ih =>
    rw [performAll, ensures_bind]
    refine ((ensures_perform hquiet hsettled op (hfits op List.mem_cons_self)).and
      (Ensures.trivial _ _)).mono ?_ fun _ _ h ↦ h.1
    rintro outcome w₁ ⟨hstep, hok⟩
    have hhistory : tier.history (op :: rest) w = tier.happenings op w ++ tier.history rest w₁ := by
      rw [history, hok]
    rw [ensures_bind, hhistory]
    refine (ih (fun other hother ↦ hfits other (List.mem_cons_of_mem op hother))
      hstep.settled).imp ?_
    rintro outcomes w₂ ⟨hsettled₂, hsparing, hstarts⟩
    rw [List.append_assoc] at hsettled₂
    refine ⟨hsettled₂, hstep.sparing.append hsparing, ?_⟩
    rw [Happening.startLines_append, ← List.append_assoc]
    exact hstarts.trans (hstep.starts.append_right _)

end Tier.Setting

/-! ## Both tiers -/

/-- After any operations on a settled manager, an operation returns; a look-up has the result that
evaluation from scratch comes to, and the cache the one that can be recalled. For each analysis that
started there is a computation in the history, and two for one place have a drop in between. -/
def Tier.Memoises {β I S : Type} [Owner S] (tier : Tier β I S) : Prop :=
  ∀ (setting : tier.Setting) (past : List Happening) (w : World (Manager S)),
    setting.Settled past w.focus →
    ∀ (ops : List (Operation β)) (op : Operation β), (∀ other ∈ ops, setting.Fits other) →
      setting.Fits op →
      ∃ outcomes w₁ outcome w₂, tier.performAll ops w = .ok outcomes w₁ ∧
        tier.perform op w₁ = .ok outcome w₂ ∧
        setting.Answered (past ++ tier.history ops w) w₁ op outcome w₂ ∧
        Happening.Once past (tier.history ops w ++ tier.happenings op w₁) ∧
        w₂.shared.starts.Perm (w.shared.starts ++ Happening.startLines setting.nameOf
          (tier.history ops w ++ tier.happenings op w₁))

theorem Tier.memoises {β I S : Type} [Owner S] {tier : Tier β I S} (hquiet : tier.Quiet) :
    tier.Memoises := by
  intro setting past w hsettled ops op hops hop
  obtain ⟨outcomes, w₁, hok₁, hsettled₁, hsparing₁, hstarts₁⟩ :=
    (Setting.ensures_performAll hquiet ops hops hsettled).exists_ok fun _ _ h ↦ h
  obtain ⟨outcome, w₂, hok₂, hstep⟩ :=
    (Setting.ensures_perform hquiet hsettled₁ op hop).exists_ok fun _ _ h ↦ h
  refine ⟨outcomes, w₁, outcome, w₂, hok₁, hok₂, hstep.answered,
    (hsparing₁.append hstep.sparing).once, ?_⟩
  rw [Happening.startLines_append, ← List.append_assoc]
  exact hstep.starts.trans (hstarts₁.append_right _)

/-- Look-ups through the cache agree with evaluation, for functions and for modules. -/
theorem Code.lookups_agree (code : Code) :
    code.functionTier.Memoises ∧ code.moduleTier.Memoises :=
  ⟨Tier.memoises code.functionTier_quiet, Tier.memoises code.moduleTier_quiet⟩

namespace Demo

/-! ## A request in a request -/

/-- One analysis finds the length of a function, the other one asks for it and doubles it. -/
def doubling : Code :=
  { code with
    functions := { functionBehaviour with
      analysis := fun entry _ f ↦
        if entry = 0 then return boxed f.content.length
        else do
          let length ← Inquest.result f (some lengthKey)
          return boxed (2 * (length.getD 0).toNat) } }

def doubleKey : Key := .numbered 2

def doublingManager : FunctionManager where
  analyses := Table.insert (Table.insert ∅ lengthKey ⟨.foreign 0 .null, false⟩) doubleKey
    ⟨.foreign 1 .null, false⟩

def doubled : Function := ⟨2, "main", ["nop", "ret"]⟩

def doublingStart : World FunctionManager := ⟨{ nextUnit := 3 }, doublingManager⟩

theorem doubling_keys (key : Key) (h : (doublingManager.outline key).isSome = true) :
    key = lengthKey ∨ key = doubleKey := by
  rw [← Manager.isRegistered_eq_isSome_outline] at h
  have hmem : key ∈ doublingManager.analyses.keys := Table.mem_keys.2 h
  have hkeys : doublingManager.analyses.keys = [lengthKey, doubleKey] := by decide
  simpa [hkeys] using hmem

theorem doubling_evaluates :
    doubling.functionTier.Evaluates (fun f ↦ decide (f = doubled)) doublingManager.outline
        lengthKey doubled (.foreign (some 2)) ∧
      doubling.functionTier.Evaluates (fun f ↦ decide (f = doubled)) doublingManager.outline
        doubleKey doubled (.foreign (some 4)) :=
  ⟨⟨1, by decide +kernel⟩, ⟨2, by decide +kernel⟩⟩

def doublingSetting : doubling.functionTier.Setting where
  fixed f := decide (f = doubled)
  nameOf _ := doubled.name
  named u hu := of_decide_eq_true hu ▸ rfl
  outline := doublingManager.outline
  distinct u v hu hv _ := (of_decide_eq_true hu).trans (of_decide_eq_true hv).symm
  attached key hkey := by
    rcases doubling_keys key (by rw [hkey]; rfl) with rfl | rfl <;> cases hkey
  evaluates key u hkey hu := by
    obtain rfl : u = doubled := of_decide_eq_true hu
    rcases doubling_keys key hkey with rfl | rfl
    · exact ⟨_, doubling_evaluates.1⟩
    · exact ⟨_, doubling_evaluates.2⟩

theorem doublingStart_settled : doublingSetting.Settled [] doublingStart.focus :=
  .fresh rfl (by decide) fun _ ↦ rfl

/-- The length is dropped and asked for again, before everything is cleared. -/
def doublingSession : List (Operation Body) :=
  [.get (.foreign doubleKey) doubled, .cached (.foreign lengthKey) doubled,
    .invalidate doubled (Preserved.none.preserve doubleKey), .get (.foreign doubleKey) doubled,
    .get (.foreign lengthKey) doubled, .clear]

theorem doublingSession_fits (op : Operation Body) (hop : op ∈ doublingSession) :
    doublingSetting.Fits op := by
  have hlength : doublingManager.outline lengthKey = some (.foreign 0 .null) := by rfl
  have hdouble : doublingManager.outline doubleKey = some (.foreign 1 .null) := by rfl
  have hfixed : doublingSetting.fixed doubled = true := by rfl
  simp only [doublingSession, List.mem_cons, List.not_mem_nil, or_false] at hop
  rcases hop with rfl | rfl | rfl | rfl | rfl | rfl
  · exact ⟨hfixed, _, hdouble, trivial⟩
  · intro analysis hanalysis
    obtain rfl := Option.some.inj (hlength.symm.trans hanalysis)
    trivial
  · trivial
  · exact ⟨hfixed, _, hdouble, trivial⟩
  · exact ⟨hfixed, _, hlength, trivial⟩
  · trivial

/-- The length is found three times on the way, and is doubled twice. -/
theorem doublingSession_startLines {outcomes : List (Option Result)} {w : World FunctionManager}
    (h : doubling.functionTier.performAll doublingSession doublingStart = .ok outcomes w) :
    Happening.startLines doublingSetting.nameOf
        (doubling.functionTier.history doublingSession doublingStart ++
          doubling.functionTier.happenings (.get (.foreign doubleKey) doubled) w) =
      [lengthKey, doubleKey, lengthKey, lengthKey, doubleKey].map fun key ↦
        Event.started key doubled.name := by
  have hend : (match doubling.functionTier.performAll doublingSession doublingStart with
    | .ok _ w => Happening.startLines doublingSetting.nameOf
        (doubling.functionTier.history doublingSession doublingStart ++
          doubling.functionTier.happenings (.get (.foreign doubleKey) doubled) w)
    | .error _ _ => []) = [lengthKey, doubleKey, lengthKey, lengthKey, doubleKey].map fun key ↦
        Event.started key doubled.name := by decide +kernel
  rwa [h] at hend

/-- In the end the length of the function is doubled anew. -/
theorem lookups_agree_doubled :
    doublingSetting.Settled [] doublingStart.focus ∧
    (∀ op ∈ doublingSession, doublingSetting.Fits op) ∧
    ∃ outcomes w₁ outcome w₂,
      doubling.functionTier.performAll doublingSession doublingStart = .ok outcomes w₁ ∧
      doubling.functionTier.perform (.get (.foreign doubleKey) doubled) w₁ = .ok outcome w₂ ∧
      outcome.map Result.finding = some (.foreign (some 4)) ∧
      w₂.shared.starts.count (.started doubleKey doubled.name) = 2 := by
  refine ⟨doublingStart_settled, doublingSession_fits, ?_⟩
  obtain ⟨outcomes, w₁, outcome, w₂, hops, hop, ⟨r, rfl, hevaluates, -⟩, -, hstarts⟩ :=
    (Code.lookups_agree doubling).1 doublingSetting [] doublingStart doublingStart_settled
      doublingSession (.get (.foreign doubleKey) doubled) doublingSession_fits
      (doublingSession_fits _ List.mem_cons_self)
  have hfinding : r.finding = .foreign (some 4) := hevaluates.unique doubling_evaluates.2
  refine ⟨outcomes, w₁, some r, w₂, hops, hop, congrArg some hfinding, ?_⟩
  rw [hstarts.count_eq, doublingSession_startLines hops]
  decide +kernel

end Demo

end ForeignPasses
