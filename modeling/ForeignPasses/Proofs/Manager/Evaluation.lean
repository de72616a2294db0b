import ForeignPasses.Proofs.Manager.Dropped

/-!
# Evaluation without a cache

Analyses that ask for nothing but results of the same manager can be evaluated from scratch: every
request is evaluated anew where it is made. If each cached result is what evaluation comes to, then
so is the answer to each request, wherever it comes from, and that is so again afterwards.
-/

namespace ForeignPasses

open Exec

/-! ## What there is to evaluate -/

/-- An analysis without the manager that may be attached. -/
def Analysis.outline {S : Type} : Analysis S → Analysis Unit
  | foreign entry context => .foreign entry context
  | native entry => .native entry
  | attached _ => .attached ()

/-- The analyses that there are, by key. -/
abbrev Outline := Key → Option (Analysis Unit)

namespace Manager

variable {S : Type} {m : Manager S}

def outline (m : Manager S) : Outline := fun key ↦
  (m.analyses.find? key).map fun r ↦ r.analysis.outline

theorem outline_of_find? {key : Key} {analysis : Analysis S} {running : Bool}
    (h : m.analyses.find? key = some ⟨analysis, running⟩) :
    m.outline key = some analysis.outline := by
  rw [outline, h, Option.map_some]

theorem isRegistered_eq_isSome_outline (m : Manager S) (key : Key) :
    m.isRegistered key = (m.outline key).isSome := by
  rw [outline, Option.isSome_map]
  rfl

theorem outline_setRunning (key : Key) (running : Bool) :
    (m.setRunning key running).outline = m.outline := by
  funext k
  rw [outline, outline, setRunning, Table.find?_modify]
  split
  · rw [Option.map_map]
    rfl
  · rfl

theorem outline_setAttached (h : m.outline .proxy = some (.attached ())) (inner : S) :
    (m.setAttached inner).outline = m.outline := by
  funext k
  rw [outline, setAttached, Table.find?_modify]
  split
  · rename_i heq
    obtain ⟨r, hr, -⟩ := Option.map_eq_some_iff.1 h
    rw [heq, h, hr]
    rfl
  · rfl

theorem exists_attached? (h : m.outline .proxy = some (.attached ())) :
    ∃ inner, m.attached? = some inner := by
  obtain ⟨⟨analysis, running⟩, hr, hanalysis⟩ := Option.map_eq_some_iff.1 h
  cases analysis with
  | foreign entry context => cases hanalysis
  | native entry => cases hanalysis
  | attached inner => exact ⟨inner, by rw [attached?, hr]⟩

end Manager

namespace Finding

def foreign? : Finding → Option (Option Int)
  | foreign content => some content
  | _ => none

def native? : Finding → Option Int
  | native value => some value
  | _ => none

theorem bind_foreign?_eq_some (found : Option Finding) (content : Option Int) :
    found.bind foreign? = some content ↔ found = some (.foreign content) := by
  cases found with
  | none => simp
  | some finding => cases finding <;> simp [foreign?]

theorem bind_native?_eq_some (found : Option Finding) (value : Int) :
    found.bind native? = some value ↔ found = some (.native value) := by
  cases found with
  | none => simp
  | some finding => cases finding <;> simp [native?]

end Finding

/-! ## Plain evaluation -/

namespace Tier

variable {β I S : Type} (tier : Tier β I S) (fixed : CodeUnit β → Bool)

/-- The answer to a question if `evaluate` says what requests come to. Code may write lines and
request results for fixed units, and nothing else. -/
def plainAnswer (evaluate : Key → CodeUnit β → Option Finding) :
    (q : Inquiry β I) → Option q.Answer
  | .say _ => some ()
  | .result u (some key) => if fixed u then (evaluate key u).bind Finding.foreign? else none
  | .native u index => if fixed u then (evaluate (.numbered index) u).bind Finding.native? else none
  | _ => none

def evaluateAnalysis (evaluate : Key → CodeUnit β → Option Finding) (u : CodeUnit β) :
    Analysis Unit → Option Finding
  | .foreign entry context =>
    ((tier.behaviour.analysis entry context.content? u).run (plainAnswer fixed evaluate)).map
      fun value ↦ .foreign value.content?
  | .native entry =>
    ((tier.behaviour.native entry u).run (plainAnswer fixed evaluate)).map .native
  | .attached _ => some .attached

variable (outline : Outline)

/-- Evaluates the analysis under a key, while the busy ones are being evaluated, and whatever it
requests. Nothing comes of requests in a circle, be they for one unit or for several. -/
def evaluateWithin : Nat → List Key → Key → CodeUnit β → Option Finding
  | 0, _, _, _ => none
  | depth + 1, busy, key, u =>
    if key ∈ busy then none
    else (outline key).bind (tier.evaluateAnalysis fixed (evaluateWithin depth (key :: busy)) u)

/-- What evaluation from scratch comes to. -/
def Evaluates (key : Key) (u : CodeUnit β) (finding : Finding) : Prop :=
  ∃ depth, tier.evaluateWithin fixed outline depth [] key u = some finding

end Tier

/-- A program that is done stays so where more questions are answered. -/
theorem Program.run_eq_some_mono {Q α : Type} {A : Q → Type}
    {answer answer' : (q : Q) → Option (A q)} (h : ∀ q a, answer q = some a → answer' q = some a)
    {p : Program Q A α} {x : α} (hp : p.run answer = some x) : p.run answer' = some x := by
  induction p with
  | done a => exact hp
  | ask q next ih =>
    obtain ⟨a, ha, hx⟩ := Option.bind_eq_some_iff.1 hp
    exact Option.bind_eq_some_iff.2 ⟨a, h q a ha, ih a hx⟩

namespace Tier

variable {β I S : Type} {tier : Tier β I S} {fixed : CodeUnit β → Bool} {outline : Outline}
  {evaluate : Key → CodeUnit β → Option Finding}

theorem plainAnswer_result_eq_some {u : CodeUnit β} {key : Key} {content : Option Int} :
    plainAnswer fixed evaluate (.result u (some key) : Inquiry β I) = some content ↔
      fixed u = true ∧ evaluate key u = some (.foreign content) := by
  cases hfixed : fixed u with
  | false => simp [plainAnswer, hfixed]
  | true =>
    simp only [plainAnswer, hfixed, if_true, true_and]
    exact Finding.bind_foreign?_eq_some (evaluate key u) content

theorem plainAnswer_native_eq_some {u : CodeUnit β} {index : Nat} {value : Int} :
    plainAnswer fixed evaluate (.native u index : Inquiry β I) = some value ↔
      fixed u = true ∧ evaluate (.numbered index) u = some (.native value) := by
  cases hfixed : fixed u with
  | false => simp [plainAnswer, hfixed]
  | true =>
    simp only [plainAnswer, hfixed, if_true, true_and]
    exact Finding.bind_native?_eq_some (evaluate (.numbered index) u) value

section Mono

variable {evaluate' : Key → CodeUnit β → Option Finding}
  (hevaluate : ∀ key u finding, evaluate key u = some finding → evaluate' key u = some finding)

include hevaluate

theorem plainAnswer_mono (q : Inquiry β I) (a : q.Answer)
    (h : plainAnswer fixed evaluate q = some a) : plainAnswer fixed evaluate' q = some a := by
  cases q with
  | say text => exact h
  | result u key =>
    cases key with
    | none => exact h
    | some key =>
      obtain ⟨hfixed, ha⟩ := plainAnswer_result_eq_some.1 h
      exact plainAnswer_result_eq_some.2 ⟨hfixed, hevaluate key u _ ha⟩
  | native u index =>
    obtain ⟨hfixed, ha⟩ := plainAnswer_native_eq_some.1 h
    exact plainAnswer_native_eq_some.2 ⟨hfixed, hevaluate (.numbered index) u _ ha⟩
  | identities => exact h
  | cached u key => exact h
  | within u inner => exact h

theorem evaluateAnalysis_mono {u : CodeUnit β} {analysis : Analysis Unit} {finding : Finding}
    (h : tier.evaluateAnalysis fixed evaluate u analysis = some finding) :
    tier.evaluateAnalysis fixed evaluate' u analysis = some finding := by
  cases analysis with
  | foreign entry context =>
    obtain ⟨value, hvalue, hfinding⟩ := Option.map_eq_some_iff.1 h
    exact Option.map_eq_some_iff.2
      ⟨value, Program.run_eq_some_mono (plainAnswer_mono hevaluate) hvalue, hfinding⟩
  | native entry =>
    obtain ⟨value, hvalue, hfinding⟩ := Option.map_eq_some_iff.1 h
    exact Option.map_eq_some_iff.2
      ⟨value, Program.run_eq_some_mono (plainAnswer_mono hevaluate) hvalue, hfinding⟩
  | attached inner => exact h

end Mono

theorem evaluateWithin_eq_some {depth : Nat} {busy : List Key} {key : Key} {u : CodeUnit β}
    {finding : Finding}
    (h : tier.evaluateWithin fixed outline (depth + 1) busy key u = some finding) :
    key ∉ busy ∧ ∃ analysis, outline key = some analysis ∧
      tier.evaluateAnalysis fixed (tier.evaluateWithin fixed outline depth (key :: busy)) u
        analysis = some finding := by
  rw [evaluateWithin] at h
  split at h
  · cases h
  · rename_i hbusy
    exact ⟨hbusy, Option.bind_eq_some_iff.1 h⟩

/-- More depth and less that is busy does no harm. -/
theorem evaluateWithin_mono {depth depth' : Nat} (hdepth : depth ≤ depth') {busy busy' : List Key}
    (hbusy : busy' ⊆ busy) {key : Key} {u : CodeUnit β} {finding : Finding}
    (h : tier.evaluateWithin fixed outline depth busy key u = some finding) :
    tier.evaluateWithin fixed outline depth' busy' key u = some finding := by
  induction depth generalizing depth' busy busy' key u finding with
  | zero => cases h
  | succ depth ih =>
    obtain ⟨depth', rfl⟩ := Nat.exists_eq_add_of_le' (Nat.le_of_add_left_le hdepth)
    obtain ⟨hkey, analysis, hanalysis, hfinding⟩ := evaluateWithin_eq_some h
    rw [evaluateWithin, if_neg fun hmem ↦ hkey (hbusy hmem), hanalysis, Option.bind_some]
    apply evaluateAnalysis_mono _ hfinding
    intro k v found hfound
    exact ih (Nat.le_of_succ_le_succ hdepth) (List.cons_subset_cons key hbusy) hfound

theorem Evaluates.of_within {depth : Nat} {busy : List Key} {key : Key} {u : CodeUnit β}
    {finding : Finding}
    (h : tier.evaluateWithin fixed outline depth busy key u = some finding) :
    tier.Evaluates fixed outline key u finding :=
  ⟨depth, evaluateWithin_mono (Nat.le_refl depth) (List.nil_subset busy) h⟩

/-- Evaluation comes to one thing. -/
theorem Evaluates.unique {key : Key} {u : CodeUnit β} {finding finding' : Finding}
    (h : tier.Evaluates fixed outline key u finding)
    (h' : tier.Evaluates fixed outline key u finding') : finding = finding' := by
  obtain ⟨depth, hdepth⟩ := h
  obtain ⟨depth', hdepth'⟩ := h'
  have hmax := evaluateWithin_mono (Nat.le_max_left depth depth') (List.Subset.refl []) hdepth
  have hmax' := evaluateWithin_mono (Nat.le_max_right depth depth') (List.Subset.refl []) hdepth'
  exact Option.some.inj (hmax.symm.trans hmax')

theorem Evaluates.isSome_outline {key : Key} {u : CodeUnit β} {finding : Finding}
    (h : tier.Evaluates fixed outline key u finding) : (outline key).isSome = true := by
  obtain ⟨depth, hdepth⟩ := h
  cases depth with
  | zero => cases hdepth
  | succ depth =>
    obtain ⟨-, analysis, hanalysis, -⟩ := evaluateWithin_eq_some hdepth
    rw [hanalysis]
    rfl

end Tier

/-! ## Starts in the log -/

/-- The line in the log when an analysis starts. -/
def Event.started (key : Key) (name : String) : Event :=
  .log .trace ("computing analysis " ++ key.name ++ " on `" ++ name ++ "`")

def Event.isStart : Event → Bool
  | log .trace message => "computing analysis ".toList.isPrefixOf message.toList
  | _ => false

namespace Shared

/-- The lines in the log about analyses that have started. -/
def starts (s : Shared) : List Event := s.events.filter Event.isStart

theorem starts_append (s : Shared) {events : List Event} (h : ∀ e ∈ events, e.isStart = false) :
    ({ s with events := s.events ++ events } : Shared).starts = s.starts := by
  have hnone : events.filter Event.isStart = [] :=
    List.filter_eq_nil_iff.2 fun e he ↦ by simp [h e he]
  rw [starts, List.filter_append, hnone, List.append_nil]
  rfl

theorem starts_setSlot (s : Shared) (kind : Kind) (slot : Slot) :
    (s.setSlot kind slot).starts = s.starts := by
  cases kind <;> rfl

end Shared

namespace Access

variable {σ : Type} {w w' : World σ}

theorem starts_traced_hit (key : Key) (name : String) :
    (traced w ("cache hit for analysis " ++ key.name ++ " on `" ++ name ++ "`")).shared.starts =
      w.shared.starts := by
  apply Shared.starts_append
  simp [Event.isStart, List.isPrefixOf]

theorem starts_inScope (kind : Kind) (key : Key) :
    (inScope kind key w).shared.starts = w.shared.starts := by
  have hscope : (inScope kind key w).shared.starts =
      (w.shared.setSlot kind ⟨some key⟩).starts := by
    have hevents : (w.shared.setSlot kind ⟨some key⟩).events = w.shared.events := by
      cases kind <;> rfl
    rw [inScope, ← hevents]
    apply Shared.starts_append
    simp [Event.isStart, List.isPrefixOf]
  rw [hscope, Shared.starts_setSlot]

theorem starts_closed (kind : Kind) : (closed kind w w').shared.starts = w'.shared.starts :=
  Shared.starts_setSlot _ _ _

end Access

theorem Tier.starts_beginning {β S : Type} (key : Key) (u : CodeUnit β) (w : World (Manager S)) :
    (Tier.beginning key u w).shared.starts = w.shared.starts ++ [.started key u.name] := by
  rw [beginning, Access.traced, Shared.starts, List.filter_append]
  simp [Event.isStart, Event.started, Shared.starts]

/-! ## Requests -/

namespace Flavour

def finding : (f : Flavour) → f.Answer → Finding
  | foreign, value => .foreign value.content?
  | native _, value => .native value
  | attached, _ => .attached

theorem finding_eq {f : Flavour} {r : Result} {a : f.Answer} (h : f.receive r = some a) :
    f.finding a = r.finding := by
  cases f <;> cases r <;> cases h <;> rfl

/-- A finding is of the type this flavour has. -/
def Takes : Flavour → Finding → Prop
  | foreign, .foreign _ => True
  | native _, .native _ => True
  | attached, .attached => True
  | _, _ => False

theorem receive_of_takes {f : Flavour} {r : Result} (h : f.Takes r.finding) :
    ∃ a, f.receive r = some a := by
  cases f <;> cases r <;> first | exact ⟨_, rfl⟩ | exact h.elim

theorem ensures_expect_of_takes {σ : Type} {f : Flavour} {r : Result} (h : f.Takes r.finding)
    {w : World σ} {post : f.Answer → World σ → Prop} {halted : Halt → World σ → Prop}
    (hpost : ∀ a, f.finding a = r.finding → post a w) :
    (f.expect r : Exec σ f.Answer).Ensures w post halted := by
  obtain ⟨a, ha⟩ := receive_of_takes h
  rw [expect, ha]
  exact hpost a (finding_eq ha)

theorem ensures_resolve_of_key? {σ : Type} {kind : Kind} {f : Flavour} {w : World σ} {key : Key}
    (hkey : f.key? kind w.shared = some key) {post : Key → World σ → Prop}
    {halted : Halt → World σ → Prop} (h : post key w) :
    (f.resolve kind : Exec σ Key).Ensures w post halted := by
  cases f with
  | foreign => exact (ensures_identity_of_current hkey).2 h
  | native index =>
    cases hkey
    exact h
  | attached =>
    cases hkey
    exact h

end Flavour

namespace Tier

variable {β I S : Type} (tier : Tier β I S) (fixed : CodeUnit β → Bool) (outline : Outline)
  (nameOf : UnitId → String)

/-- The line in the log when the result for a place begins to be computed. -/
def startLine (place : UnitId × Key) : Event := .started place.2 (nameOf place.1)

/-- Every result in the cache is for a fixed unit, and what evaluation from scratch comes to. -/
structure Memoised (m : Manager S) : Prop where
  outline_eq : m.outline = outline
  right : ∀ id key r, m.results.find? (id, key) = some r →
    ∃ u, fixed u = true ∧ u.id = id ∧ tier.Evaluates fixed outline key u r.finding

/-- Nothing runs but what is busy, and requests may nest as often as analyses are at rest. -/
structure Ready (busy : List Key) (depth : Nat) (m : Manager S) : Prop where
  memoised : tier.Memoised fixed outline m
  busy : ∀ key, m.profile.find? key = some true → key ∈ busy
  idle_le : m.idle ≤ depth

/-- Results came in, one for each analysis that started. -/
structure Advances (w w' : World (Manager S)) : Prop where
  memoised : tier.Memoised fixed outline w'.focus
  grown : ∃ new, w.focus.Grown new w'.focus ∧
    w'.shared.starts.Perm (w.shared.starts ++ new.map fun e ↦ startLine nameOf e.1)

/-- Requests for fixed units are answered by what they evaluate to, where the manager is ready. -/
def FetchesPlainly (fetch : Fetch (Manager S) β) (evaluate : Key → CodeUnit β → Option Finding)
    (busy : List Key) (depth : Nat) : Prop :=
  ∀ (f : Flavour) (key : Key) (u : CodeUnit β) (finding : Finding) (w : World (Manager S)),
    tier.Ready fixed outline busy depth w.focus → fixed u = true → evaluate key u = some finding →
    f.key? tier.kind w.shared = some key → f.Takes finding →
      (fetch f u).Ensures w
        (fun a w' ↦ f.finding a = finding ∧ tier.Advances fixed outline nameOf w w') fun _ _ ↦ False

variable {tier fixed outline nameOf} {w w₁ w₂ : World (Manager S)}

theorem Memoised.of_results {m m' : Manager S} (h : tier.Memoised fixed outline m)
    (houtline : m'.outline = m.outline)
    (hresults : ∀ place r, m'.results.find? place = some r → m.results.find? place = some r) :
    tier.Memoised fixed outline m' where
  outline_eq := houtline.trans h.outline_eq
  right id key r hr := h.right id key r (hresults (id, key) r hr)

namespace Advances

theorem refl (h : tier.Memoised fixed outline w.focus) : tier.Advances fixed outline nameOf w w :=
  ⟨h, [], .refl, .of_eq (List.append_nil _).symm⟩

theorem trans (h : tier.Advances fixed outline nameOf w w₁)
    (h' : tier.Advances fixed outline nameOf w₁ w₂) : tier.Advances fixed outline nameOf w w₂ where
  memoised := h'.memoised
  grown := by
    obtain ⟨new, hgrown, hstarts⟩ := h.grown
    obtain ⟨new', hgrown', hstarts'⟩ := h'.grown
    refine ⟨new ++ new', hgrown.trans hgrown', ?_⟩
    rw [List.map_append, ← List.append_assoc]
    exact hstarts'.trans (hstarts.append_right _)

/-- Only the manager and the starts in the log matter. -/
theorem congr (h : tier.Advances fixed outline nameOf w w₁) {v v₁ : World (Manager S)}
    (hfocus : v.focus = w.focus) (hstarts : v.shared.starts = w.shared.starts)
    (hfocus₁ : v₁.focus = w₁.focus) (hstarts₁ : v₁.shared.starts = w₁.shared.starts) :
    tier.Advances fixed outline nameOf v v₁ where
  memoised := hfocus₁ ▸ h.memoised
  grown := by
    obtain ⟨new, hgrown, hlines⟩ := h.grown
    refine ⟨new, ?_, ?_⟩
    · rw [hfocus, hfocus₁]
      exact hgrown
    · rw [hstarts₁, hstarts]
      exact hlines

end Advances

theorem Ready.advance {busy : List Key} {depth : Nat}
    (h : tier.Ready fixed outline busy depth w.focus)
    (hadvances : tier.Advances fixed outline nameOf w w₁) :
    tier.Ready fixed outline busy depth w₁.focus := by
  obtain ⟨new, hgrown, -⟩ := hadvances.grown
  refine ⟨hadvances.memoised, fun key hkey ↦ ?_, ?_⟩
  · rw [hgrown.profile_eq] at hkey
    exact h.busy key hkey
  · rw [Manager.idle_eq hgrown.profile_eq]
    exact h.idle_le

/-- An analysis at rest starts, and one request fewer may nest in it. -/
theorem Ready.start {busy : List Key} {depth : Nat} {key : Key} {m : Manager S}
    (h : tier.Ready fixed outline busy depth m) (hrest : m.profile.find? key = some false) :
    ∃ depth', depth = depth' + 1 ∧
      tier.Ready fixed outline (key :: busy) depth' (m.setRunning key true) := by
  have hidle := Manager.idle_setRunning hrest
  have hle := h.idle_le
  obtain ⟨depth', rfl⟩ := Nat.exists_eq_succ_of_ne_zero (n := depth) (by omega)
  refine ⟨depth', rfl, ?_, fun k hk ↦ ?_, by omega⟩
  · exact h.memoised.of_results (Manager.outline_setRunning key true) fun _ _ hr ↦ hr
  · rw [Manager.profile_setRunning, Table.find?_modify] at hk
    split at hk
    · rename_i heq
      rw [heq]
      exact List.mem_cons_self
    · exact List.mem_cons_of_mem key (h.busy k hk)

/-! ### Code -/

section Answers

variable {fetch : Fetch (Manager S) β} {evaluate : Key → CodeUnit β → Option Finding}
  {busy : List Key} {depth : Nat}
  (hfetch : tier.FetchesPlainly fixed outline nameOf fetch evaluate busy depth)

include hfetch

theorem ensures_foreignResult_plain {key : Key} {u : CodeUnit β} {content : Option Int}
    (hready : tier.Ready fixed outline busy depth w.focus) (hfixed : fixed u = true)
    (hevaluate : evaluate key u = some (.foreign content)) :
    (tier.access.foreignResult fetch u key).Ensures w
      (fun value w' ↦ value.content? = content ∧ tier.Advances fixed outline nameOf w w')
      fun _ _ ↦ False := by
  apply Access.ensures_inScope
  have hfetched := hfetch .foreign key u _ (Access.inScope tier.kind key w) hready hfixed hevaluate
    (Access.slot_inScope tier.kind key w) trivial
  refine hfetched.imp ?_
  rintro value w' ⟨hvalue, hadvances⟩
  refine ⟨Finding.foreign.inj hvalue, hadvances.congr rfl ?_ rfl ?_⟩
  · exact (Access.starts_inScope tier.kind key).symm
  · exact Access.starts_closed tier.kind

variable (houtline : ∀ key u finding, evaluate key u = some finding → (outline key).isSome = true)

include houtline

theorem ensures_answer_plain (q : Inquiry β I) (a : q.Answer) {w : World (Manager S)}
    (hready : tier.Ready fixed outline busy depth w.focus)
    (ha : plainAnswer fixed evaluate q = some a) :
    (tier.answer fetch q).Ensures w (fun a' w' ↦ a' = a ∧ tier.Advances fixed outline nameOf w w')
      fun _ _ ↦ False := by
  cases q with
  | say text =>
    refine ⟨rfl, (Advances.refl hready.memoised).congr rfl rfl rfl ?_⟩
    exact Shared.starts_append _ (by simp [Event.isStart])
  | result u key =>
    cases key with
    | none => cases ha
    | some key =>
      obtain ⟨hfixed, hevaluate⟩ := plainAnswer_result_eq_some.1 ha
      have hregistered : (tier.access.manager w.focus).isRegistered key = true := by
        change w.focus.isRegistered key = true
        rw [Manager.isRegistered_eq_isSome_outline, hready.memoised.outline_eq]
        exact houtline key u _ hevaluate
      apply (ensures_bind (tier.access.boundaryResult fetch u key) _).2
      simp only [Access.boundaryResult, ensures_boundary, ensures_bind, Access.ensures_held,
        hregistered]
      exact ensures_foreignResult_plain hfetch hready hfixed hevaluate
  | native u index =>
    obtain ⟨hfixed, hevaluate⟩ := plainAnswer_native_eq_some.1 ha
    have hfetched := hfetch (.native index) (.numbered index) u _ w hready hfixed hevaluate rfl
      trivial
    refine hfetched.imp ?_
    rintro value w' ⟨hvalue, hadvances⟩
    exact ⟨Finding.native.inj hvalue, hadvances⟩
  | identities => cases ha
  | cached u key => cases ha
  | within u inner => cases ha

theorem ensures_run_plain {α : Type} (p : Program (Inquiry β I) Inquiry.Answer α) {x : α}
    {w : World (Manager S)} (hready : tier.Ready fixed outline busy depth w.focus)
    (hx : p.run (plainAnswer fixed evaluate) = some x) :
    Exec.Ensures (p.run (tier.answer fetch)) w
      (fun x' w' ↦ x' = x ∧ tier.Advances fixed outline nameOf w w')
      fun _ _ ↦ False := by
  induction p generalizing w with
  | done a =>
    cases hx
    exact ⟨rfl, .refl hready.memoised⟩
  | ask q next ih =>
    obtain ⟨a, ha, hrest⟩ := Option.bind_eq_some_iff.1 hx
    change Exec.Ensures (tier.answer fetch q >>= fun a ↦ (next a).run (tier.answer fetch)) w _ _
    rw [ensures_bind]
    refine (ensures_answer_plain hfetch houtline q a hready ha).imp ?_
    rintro a' w₁ ⟨rfl, hadvances⟩
    refine (ih a' (hready.advance hadvances) hrest).imp ?_
    rintro x' w₂ ⟨rfl, hadvances'⟩
    exact ⟨rfl, hadvances.trans hadvances'⟩

/-- An analysis that runs finds what it evaluates to. -/
theorem ensures_compute_plain {u : CodeUnit β} {analysis : Analysis S} {finding : Finding}
    {w : World (Manager S)} (hready : tier.Ready fixed outline busy depth w.focus)
    (hfinding : tier.evaluateAnalysis fixed evaluate u analysis.outline = some finding) :
    (tier.access.compute (tier.answer fetch) u analysis).Ensures w
      (fun r w' ↦ r.finding = finding ∧ tier.Advances fixed outline nameOf w w')
      fun _ _ ↦ False := by
  cases analysis with
  | foreign entry context =>
    obtain ⟨value, hvalue, rfl⟩ := Option.map_eq_some_iff.1 hfinding
    simp only [Access.compute, ensures_bind, ensures_boundary, ensures_adopt, ensures_pure]
    refine (ensures_run_plain hfetch houtline _ hready hvalue).imp ?_
    rintro value' w' ⟨rfl, hadvances⟩
    refine ⟨congrArg Finding.foreign (Opaque.content?_ofRaw_toRaw value' _), ?_⟩
    refine hadvances.congr rfl rfl rfl (Shared.starts_append _ ?_)
    intro e he
    obtain ⟨address, -, rfl⟩ := List.mem_map.1 he
    rfl
  | native entry =>
    obtain ⟨value, hvalue, rfl⟩ := Option.map_eq_some_iff.1 hfinding
    simp only [Access.compute, ensures_bind, ensures_pure]
    refine (ensures_run_plain hfetch houtline _ hready hvalue).imp ?_
    rintro value' w' ⟨rfl, hadvances⟩
    exact ⟨rfl, hadvances⟩
  | attached inner =>
    cases hfinding
    exact ⟨rfl, .refl hready.memoised⟩

end Answers

/-! ### Nested requests -/

theorem Memoised.exists_analysis {m : Manager S} (h : tier.Memoised fixed outline m) {key : Key}
    {outlined : Analysis Unit} (houtlined : outline key = some outlined) :
    ∃ analysis running, m.analyses.find? key = some ⟨analysis, running⟩ ∧
      analysis.outline = outlined := by
  rw [← h.outline_eq] at houtlined
  obtain ⟨⟨analysis, running⟩, hfind, hanalysis⟩ := Option.map_eq_some_iff.1 houtlined
  exact ⟨analysis, running, hfind, hanalysis⟩

/-- A result may come in that is what its key evaluates to. -/
theorem Memoised.insert {m m' : Manager S} (h : tier.Memoised fixed outline m)
    (houtline : m'.outline = m.outline) {u : CodeUnit β} (hfixed : fixed u = true) {key : Key}
    {r : Result} (hevaluates : tier.Evaluates fixed outline key u r.finding)
    (hresults : m'.results = m.results.insert (u.id, key) r) :
    tier.Memoised fixed outline m' where
  outline_eq := houtline.trans h.outline_eq
  right id k r' hr' := by
    rw [hresults, Table.find?_insert] at hr'
    split at hr'
    · rename_i hplace
      obtain ⟨rfl, rfl⟩ := Prod.mk.inj hplace
      cases hr'
      exact ⟨u, hfixed, rfl, hevaluates⟩
    · exact h.right id k r' hr'

section Requests

variable (hname : ∀ u, fixed u = true → u.name = nameOf u.id)

include hname

/-- An analysis starts before the ones that start in it, and its result comes in after theirs. -/
theorem starts_perm_of_beginning {key : Key} {u : CodeUnit β} (hfixed : fixed u = true)
    {w₁ : World (Manager S)} {new : Computed}
    (hstarts : w₁.shared.starts.Perm
      ((beginning key u w).shared.starts ++ new.map fun e ↦ startLine nameOf e.1)) (r : Result) :
    w₁.shared.starts.Perm
      (w.shared.starts ++ (new ++ [((u.id, key), r)]).map fun e ↦ startLine nameOf e.1) := by
  let lines (new : Computed) : List Event := new.map fun e ↦ startLine nameOf e.1
  have hline : Event.started key u.name = startLine nameOf (u.id, key) := by
    rw [startLine, hname u hfixed]
  rw [starts_beginning, hline] at hstarts
  calc w₁.shared.starts.Perm (w.shared.starts ++ [startLine nameOf (u.id, key)] ++ lines new) :=
        hstarts
    List.Perm _ (w.shared.starts ++ ([startLine nameOf (u.id, key)] ++ lines new)) :=
      .of_eq (List.append_assoc ..)
    List.Perm _ (w.shared.starts ++ (lines new ++ [startLine nameOf (u.id, key)])) :=
      List.perm_append_comm.append_left _
    List.Perm _ (w.shared.starts ++ lines (new ++ [((u.id, key), r)])) :=
      .of_eq (by simp [lines])

/-- A result that has been computed is kept. -/
theorem ensures_keep_plain {f : Flavour} {key : Key} {u : CodeUnit β} (hfixed : fixed u = true)
    (hfind : w.focus.results.find? (u.id, key) = none)
    (hrest : w.focus.profile.find? key = some false) {r : Result} (htakes : f.Takes r.finding)
    (hevaluates : tier.Evaluates fixed outline key u r.finding) {w₁ : World (Manager S)}
    (hadvances : tier.Advances fixed outline nameOf (beginning key u w) w₁) :
    (tier.access.keep u key r >>= fun _ ↦ f.expect r).Ensures
      ⟨w₁.shared, w₁.focus.setRunning key false⟩
      (fun a w' ↦ f.finding a = r.finding ∧ tier.Advances fixed outline nameOf w w')
      fun _ _ ↦ False := by
  simp only [ensures_bind, Access.ensures_keep]
  obtain ⟨new, hgrown, hstarts⟩ := hadvances.grown
  refine Flavour.ensures_expect_of_takes htakes fun a ha ↦
    ⟨ha, ?_, _, hgrown.keep hfind hrest r, ?_⟩
  · have houtline := Manager.outline_setRunning (m := w₁.focus) key false
    exact hadvances.memoised.insert houtline hfixed hevaluates rfl
  · have hreleased : ∀ e ∈ (releases (w₁.focus.results.find? (u.id, key))).map Event.released,
        e.isStart = false := by
      intro e he
      obtain ⟨release, -, rfl⟩ := List.mem_map.1 he
      rfl
    have hlogged := Shared.starts_append w₁.shared hreleased
    exact (List.Perm.of_eq hlogged).trans (starts_perm_of_beginning hname hfixed hstarts r)

variable (hdistinct : ∀ u v, fixed u = true → fixed v = true → u.id = v.id → u = v)

include hdistinct

section Hits

omit hname

/-- What is cached for a fixed unit is what it evaluates to. -/
theorem Memoised.evaluates {m : Manager S} (h : tier.Memoised fixed outline m) {u : CodeUnit β}
    (hfixed : fixed u = true) {key : Key} {r : Result}
    (hr : m.results.find? (u.id, key) = some r) : tier.Evaluates fixed outline key u r.finding := by
  obtain ⟨v, hv, hid, hevaluates⟩ := h.right u.id key r hr
  rwa [hdistinct v u hv hfixed hid] at hevaluates

/-- A request for what is in the cache is answered by what its key evaluates to. -/
theorem ensures_hit_plain {f : Flavour} {key : Key} {u : CodeUnit β} {finding : Finding}
    (hmemoised : tier.Memoised fixed outline w.focus) (hfixed : fixed u = true)
    (hevaluates : tier.Evaluates fixed outline key u finding)
    (hkey : f.key? tier.kind w.shared = some key) (htakes : f.Takes finding) {r : Result}
    (hfind : w.focus.results.find? (u.id, key) = some r) (depth : Nat) :
    (tier.fetchWithin depth f u).Ensures w
      (fun a w' ↦ f.finding a = finding ∧ tier.Advances fixed outline nameOf w w')
      fun _ _ ↦ False := by
  obtain rfl : r.finding = finding :=
    (hmemoised.evaluates hdistinct hfixed hfind).unique hevaluates
  obtain ⟨answer, hanswer⟩ := tier.exists_fetchWithin_eq depth
  rw [hanswer, Access.request, ensures_bind]
  apply Flavour.ensures_resolve_of_key? hkey
  rw [ensures_requestAt_cached hfind]
  refine Flavour.ensures_expect_of_takes htakes fun a ha ↦ ⟨ha, ?_⟩
  exact (Advances.refl hmemoised).congr rfl rfl rfl (Access.starts_traced_hit key u.name)

end Hits

/-- Every request is answered by what its key evaluates to, from the cache or not. -/
theorem fetchesPlainly_fetchWithin (n depth : Nat) (busy : List Key) :
    tier.FetchesPlainly fixed outline nameOf (tier.fetchWithin depth)
      (tier.evaluateWithin fixed outline n busy) busy depth := by
  induction n generalizing depth busy with
  | zero => exact fun _ _ _ _ _ _ _ hevaluate ↦ nomatch hevaluate
  | succ n ih =>
    intro f key u finding w hready hfixed hevaluate hkey htakes
    cases hfind : w.focus.results.find? (u.id, key) with
    | some r =>
      exact ensures_hit_plain hdistinct hready.memoised hfixed (.of_within hevaluate) hkey htakes
        hfind depth
    | none =>
      obtain ⟨hbusy, outlined, houtlined, hfinding⟩ := evaluateWithin_eq_some hevaluate
      obtain ⟨analysis, running, hanalysis, rfl⟩ := hready.memoised.exists_analysis houtlined
      have hprofile : w.focus.profile.find? key = some running :=
        Manager.profile_of_find? hanalysis
      obtain rfl : running = false := by
        cases running with
        | false => rfl
        | true => exact absurd (hready.busy key hprofile) hbusy
      obtain ⟨depth', rfl, hstart⟩ := hready.start hprofile
      have hregistered (k : Key) (v : CodeUnit β) (found : Finding)
          (hfound : tier.evaluateWithin fixed outline n (key :: busy) k v = some found) :
          (outline k).isSome = true := (Evaluates.of_within hfound).isSome_outline
      rw [fetchWithin, Access.request, ensures_bind]
      apply Flavour.ensures_resolve_of_key? hkey
      rw [ensures_requestAt_resting hfind hanalysis]
      refine Ensures.imp (ensures_compute_plain (ih depth' (key :: busy)) hregistered hstart
        hfinding) ?_
      rintro r w₁ ⟨rfl, hadvances⟩
      exact ensures_keep_plain hname hfixed hfind hprofile htakes (.of_within hevaluate) hadvances

/-- The same of requests from outside, while nothing runs. -/
theorem fetchesPlainly_fetch {f : Flavour} {key : Key} {u : CodeUnit β} {finding : Finding}
    {w : World (Manager S)} (hmemoised : tier.Memoised fixed outline w.focus)
    (hresting : ∀ key, w.focus.profile.find? key ≠ some true) (hfixed : fixed u = true)
    (hevaluates : tier.Evaluates fixed outline key u finding)
    (hkey : f.key? tier.kind w.shared = some key) (htakes : f.Takes finding) :
    (tier.fetch f u).Ensures w
      (fun a w' ↦ f.finding a = finding ∧ tier.Advances fixed outline nameOf w w')
      fun _ _ ↦ False := by
  obtain ⟨n, hevaluate⟩ := hevaluates
  have hready : tier.Ready fixed outline [] w.focus.idle w.focus :=
    ⟨hmemoised, fun k hk ↦ absurd hk (hresting k), Nat.le_refl _⟩
  rw [ensures_fetch]
  exact fetchesPlainly_fetchWithin hname hdistinct n _ [] f key u finding w hready hfixed
    hevaluate hkey htakes

end Requests

end Tier

end ForeignPasses
