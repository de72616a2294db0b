import ForeignPasses.Demo
import ForeignPasses.Proofs.Manager.Reached

/-!
# What an invalidation does exactly

An invalidation takes away the results of one unit that are not preserved, and with those of a
module the results of its functions in the attached manager. It calls the hook of every analysis
that is not preserved, each once and in the order of registration. Nothing else changes.
-/

namespace ForeignPasses

open Exec

/-! ## Taking results away -/

namespace Table

variable {κ α : Type} [DecidableEq κ]

/-- The entries whose keys are not dropped. -/
def without (t : Table κ α) (drops : κ → Bool) : Table κ α where
  entries := t.entries.filter fun e ↦ !drops e.1
  nodup := t.nodup.sublist (List.filter_sublist.map Prod.fst)

omit [DecidableEq κ] in
theorem without_without (t : Table κ α) (drops drops' : κ → Bool) :
    (t.without drops).without drops' = t.without fun k ↦ drops k || drops' k := by
  rw [Table.mk.injEq]
  change (t.entries.filter _).filter _ = t.entries.filter _
  rw [List.filter_filter]
  refine List.filter_congr fun e _ ↦ ?_
  rw [Bool.not_or, Bool.and_comm]

omit [DecidableEq κ] in
theorem without_congr {t : Table κ α} {drops drops' : κ → Bool}
    (h : ∀ k ∈ t.keys, drops k = drops' k) : t.without drops = t.without drops' := by
  rw [Table.mk.injEq]
  refine List.filter_congr fun e he ↦ ?_
  rw [h e.1 (List.mem_map_of_mem he)]

omit [DecidableEq κ] in
theorem without_eq_self {t : Table κ α} {drops : κ → Bool} (h : ∀ k ∈ t.keys, drops k = false) :
    t.without drops = t := by
  obtain ⟨entries, nodup⟩ := t
  rw [Table.mk.injEq]
  refine List.filter_eq_self.2 fun e he ↦ ?_
  rw [h e.1 (List.mem_map_of_mem he), Bool.not_false]

theorem erase_eq_without (t : Table κ α) (k : κ) : t.erase k = t.without (· = k) := by
  rw [Table.mk.injEq]
  refine List.filter_congr fun e _ ↦ ?_
  rw [decide_not]

end Table

/-- The attached manager, if the analysis is one. -/
def Analysis.inner? {S : Type} : Analysis S → Option S
  | attached inner => some inner
  | _ => none

namespace Manager

variable {S : Type} {m : Manager S}

/-- The manager without the results in some places. -/
def without (m : Manager S) (drops : UnitId × Key → Bool) : Manager S :=
  { m with results := m.results.without drops }

theorem without_without (m : Manager S) (drops drops' : UnitId × Key → Bool) :
    (m.without drops).without drops' = m.without fun place ↦ drops place || drops' place := by
  rw [without, without, without, Table.without_without]

theorem without_congr {drops drops' : UnitId × Key → Bool}
    (h : ∀ place ∈ m.results.keys, drops place = drops' place) :
    m.without drops = m.without drops' := by
  rw [without, without, Table.without_congr h]

theorem without_eq_self {drops : UnitId × Key → Bool}
    (h : ∀ place ∈ m.results.keys, drops place = false) : m.without drops = m := by
  rw [without, Table.without_eq_self h]

/-- What is cached in a tidy manager is cached for an analysis that it has. -/
theorem Tidy.any_eq_true {good : S → Prop} (h : m.Tidy good) {place : UnitId × Key}
    (hplace : place ∈ m.results.keys) :
    (m.analyses.entries.any fun e ↦ decide (e.1 = place.2)) = true := by
  obtain ⟨r, hr⟩ := Option.isSome_iff_exists.1 (Table.mem_keys.1 hplace)
  obtain ⟨analysis, hanalysis, -⟩ := h.fits place r hr
  have hregistered : m.isRegistered place.2 = true := by
    rw [isRegistered_eq_isSome_outline, hanalysis, Option.isSome_some]
  obtain ⟨e, he, hkey⟩ := List.mem_map.1 (Table.mem_keys.2 hregistered)
  exact List.any_eq_true.2 ⟨e, he, decide_eq_true hkey⟩

theorem Tidy.without {good : S → Prop} (h : m.Tidy good) (drops : UnitId × Key → Bool) :
    (m.without drops).Tidy good := by
  refine h.of_results fun place r hr ↦ ?_
  exact Table.mem_entries.1 (List.mem_filter.1 (Table.mem_entries.2 hr)).1

/-- An analysis of a tidy manager that is a manager itself is the attached one. -/
theorem Tidy.attached?_of_mem {good : S → Prop} (h : m.Tidy good) {e : Key × Registered S}
    (he : e ∈ m.analyses.entries) {inner : S} (hinner : e.2.analysis.inner? = some inner) :
    e.1 = .proxy ∧ m.attached? = some inner := by
  obtain ⟨key, analysis, running⟩ := e
  cases analysis with
  | foreign entry context => cases hinner
  | native entry => cases hinner
  | attached inner' =>
    obtain rfl := Option.some.inj hinner
    have hfind := Table.mem_entries.1 he
    obtain rfl : key = .proxy := h.proxy key (outline_of_find? hfind)
    exact ⟨rfl, by rw [attached?, hfind]⟩

/-- The manager after an invalidation for a unit; `left` is what is left of the attached one. -/
def invalidated (m : Manager S) (id : UnitId) (preserved : Preserved) (left : S → S) : Manager S :=
  let outer := m.without fun place ↦ place.1 = id && !preserved.contains place.2
  match m.attached? with
  | some inner => if preserved.contains .proxy then outer else outer.setAttached (left inner)
  | none => outer

end Manager

/-! ## Calls of hooks -/

/-- An analysis is told that its result is gone. -/
def Event.isHook : Event → Bool
  | invalidated .. => true
  | _ => false

/-- Some hooks are called, and nothing else happens but to the events. -/
def Shared.Calls (s : Shared) (hooks : List Event) (s' : Shared) : Prop :=
  ∃ new, s' = { s with events := s.events ++ new } ∧ new.filter Event.isHook = hooks

namespace Shared.Calls

variable {s s' s'' : Shared} {hooks hooks' : List Event}

theorem refl : s.Calls [] s := ⟨[], by rw [List.append_nil], rfl⟩

theorem trans (h : s.Calls hooks s') (h' : s'.Calls hooks' s'') :
    s.Calls (hooks ++ hooks') s'' := by
  obtain ⟨new, rfl, rfl⟩ := h
  obtain ⟨new', rfl, rfl⟩ := h'
  exact ⟨new ++ new', by simp, List.filter_append _ _⟩

theorem emitted (s : Shared) {e : Event} (he : e.isHook = true) :
    s.Calls [e] { s with events := s.events ++ [e] } :=
  ⟨[e], rfl, by rw [List.filter_singleton, he]; rfl⟩

theorem released (s : Shared) (rs : List Release) :
    s.Calls [] { s with events := s.events ++ rs.map .released } :=
  ⟨_, rfl, List.filter_eq_nil_iff.2 (by simp [Event.isHook])⟩

end Shared.Calls

namespace Tier

variable {β I S : Type} {tier : Tier β I S} {good : S → Prop} {u : CodeUnit β}
  {preserved : Preserved}

/-- The call of the hook of an analysis. Foreign analyses and attached managers say nothing. -/
def hook (tier : Tier β I S) (u : CodeUnit β) (preserved : Preserved) (key : Key) :
    Analysis S → Event
  | .native entry => .invalidated u.id key (some (tier.behaviour.onInvalidated entry u preserved))
  | _ => .invalidated u.id key none

/-- The hooks that are called for an entry; `inside` are those that the attached manager calls. -/
def hooksOf (tier : Tier β I S) (u : CodeUnit β) (preserved : Preserved) (inside : S → List Event)
    (e : Key × Registered S) : List Event :=
  if preserved.contains e.1 then []
  else tier.hook u preserved e.1 e.2.analysis :: (e.2.analysis.inner?.map inside).getD []

/-- The attached manager among some entries, if it is not preserved. -/
def exposed (preserved : Preserved) (e : Key × Registered S) : Option S :=
  if preserved.contains e.1 then none else e.2.analysis.inner?

/-- The places in which there is no result any more after some entries have been invalidated. -/
def drops (u : CodeUnit β) (preserved : Preserved) (entries : List (Key × Registered S))
    (place : UnitId × Key) : Bool :=
  place.1 = u.id && entries.any (fun e ↦ decide (e.1 = place.2)) && !preserved.contains place.2

/-- What invalidating some entries leaves of a manager; `left` is what it leaves of the attached
one. -/
def leaves (u : CodeUnit β) (preserved : Preserved) (left : S → S)
    (entries : List (Key × Registered S)) (m : Manager S) : Manager S :=
  match entries.findSome? (exposed preserved) with
  | some inner => (m.without (drops u preserved entries)).setAttached (left inner)
  | none => m.without (drops u preserved entries)

theorem drops_cons_contains {e : Key × Registered S} (hkey : preserved.contains e.1 = true)
    (rest : List (Key × Registered S)) :
    drops u preserved (e :: rest) = drops u preserved rest := by
  funext place
  by_cases hplace : e.1 = place.2
  · simp [drops, ← hplace, hkey]
  · simp [drops, hplace]

theorem without_drops_cons {key : Key} (hkey : preserved.contains key = false)
    (registered : Registered S) (rest : List (Key × Registered S)) (m : Manager S) :
    (m.without (· = (u.id, key))).without (drops u preserved rest) =
      m.without (drops u preserved ((key, registered) :: rest)) := by
  rw [Manager.without_without]
  refine Manager.without_congr fun place _ ↦ ?_
  obtain ⟨id, k⟩ := place
  by_cases hk : k = key
  · subst hk
    by_cases hid : id = u.id <;> simp [drops, hid, hkey]
  · have hne : ¬key = k := fun h ↦ hk h.symm
    simp [drops, hk, hne]

theorem leaves_nil (left : S → S) (m : Manager S) : leaves u preserved left [] m = m :=
  Manager.without_eq_self fun _ _ ↦ by simp [drops]

theorem leaves_cons_contains (left : S → S) {e : Key × Registered S}
    (hkey : preserved.contains e.1 = true) (rest : List (Key × Registered S)) (m : Manager S) :
    leaves u preserved left (e :: rest) m = leaves u preserved left rest m := by
  have hexposed : exposed preserved e = none := if_pos hkey
  rw [leaves, leaves, drops_cons_contains hkey, List.findSome?_cons, hexposed]

theorem findSome?_exposed {m : Manager S} (htidy : m.Tidy good) :
    m.analyses.entries.findSome? (exposed preserved) =
      if preserved.contains .proxy then none else m.attached? := by
  cases hfound : m.analyses.entries.findSome? (exposed preserved) with
  | some inner =>
    obtain ⟨e, he, hexposed⟩ := List.exists_of_findSome?_eq_some hfound
    rw [exposed] at hexposed
    split at hexposed
    · contradiction
    · rename_i hkey
      obtain ⟨hproxy, hattached⟩ := htidy.attached?_of_mem he hexposed
      rw [← hproxy, if_neg hkey, hattached]
  | none =>
    split
    · rfl
    · rename_i hproxy
      cases hattached : m.attached? with
      | none => rfl
      | some inner =>
        obtain ⟨running, hfind⟩ := Manager.find?_of_attached? hattached
        have hexposed := List.findSome?_eq_none_iff.1 hfound _ (Table.mem_entries.2 hfind)
        rw [exposed, if_neg hproxy] at hexposed
        cases hexposed

/-- What is left of the manager after one entry, as far as the attached manager goes. -/
def replaced (left : S → S) (analysis : Analysis S) (m : Manager S) : Manager S :=
  match analysis.inner? with
  | some inner => m.setAttached (left inner)
  | none => m

theorem leaves_cons {left : S → S} {key : Key} (hkey : preserved.contains key = false)
    {registered : Registered S} {rest : List (Key × Registered S)}
    (hrest : ∀ inner, registered.analysis.inner? = some inner →
      rest.findSome? (exposed preserved) = none) (m : Manager S) :
    leaves u preserved left rest (replaced left registered.analysis (m.without (· = (u.id, key)))) =
      leaves u preserved left ((key, registered) :: rest) m := by
  have hexposed : exposed preserved (key, registered) = registered.analysis.inner? :=
    if_neg (by simp [hkey])
  rw [leaves, leaves, ← without_drops_cons hkey, List.findSome?_cons, hexposed, replaced]
  cases hinner : registered.analysis.inner? with
  | none => rfl
  | some inner =>
    rw [hrest inner hinner]
    rfl

/-- The places of a unit that lose their results are those that are not preserved, for there is
nothing cached for an analysis that is not there. -/
theorem leaves_entries {left : S → S} {m : Manager S} (htidy : m.Tidy good) :
    leaves u preserved left m.analyses.entries m = m.invalidated u.id preserved left := by
  have hwithout : m.without (drops u preserved m.analyses.entries) =
      m.without fun place ↦ place.1 = u.id && !preserved.contains place.2 := by
    refine Manager.without_congr fun place hplace ↦ ?_
    rw [drops, htidy.any_eq_true hplace, Bool.and_true]
  rw [leaves, hwithout, findSome?_exposed htidy, Manager.invalidated]
  cases preserved.contains .proxy with
  | true => cases m.attached? <;> rfl
  | false => cases m.attached? <;> rfl

/-! ## Invalidation -/

section Invalidation

variable {left : S → S} {inside : S → List Event}
  (hwithin : ∀ s inner, good inner → (tier.invalidateWithin u preserved).Ensures ⟨s, inner⟩
    (fun _ w' ↦ w'.focus = left inner ∧ s.Calls (inside inner) w'.shared) fun _ _ ↦ False)

include hwithin

theorem ensures_notify_exact (key : Key) {analysis : Analysis S} {w : World (Manager S)}
    (hattached : ∀ inner, analysis.inner? = some inner →
      good inner ∧ w.focus.attached? = some inner) :
    (tier.notify u preserved key analysis).Ensures w
      (fun _ w' ↦ w'.focus = replaced left analysis w.focus ∧
        w.shared.Calls
          (tier.hook u preserved key analysis :: (analysis.inner?.map inside).getD []) w'.shared)
      fun _ _ ↦ False := by
  cases analysis with
  | foreign entry context => exact ⟨rfl, .emitted _ rfl⟩
  | native entry => exact ⟨rfl, .emitted _ rfl⟩
  | attached inner =>
    obtain ⟨hgood, hcurrent⟩ := hattached inner rfl
    rw [ensures_notify_attached hcurrent]
    refine (hwithin _ inner hgood).imp ?_
    rintro _ w' ⟨hfocus, hcalls⟩
    refine ⟨?_, (Shared.Calls.emitted w.shared rfl).trans hcalls⟩
    change w.focus.setAttached w'.focus = w.focus.setAttached (left inner)
    rw [hfocus]

/-- Only the attached manager is one, and it is the one that is registered. -/
theorem ensures_invalidateEach_exact {entries : List (Key × Registered S)}
    (hnodup : (entries.map Prod.fst).Nodup) {w : World (Manager S)}
    (hattached : ∀ e ∈ entries, ∀ inner, e.2.analysis.inner? = some inner →
      e.1 = .proxy ∧ good inner ∧ w.focus.attached? = some inner) :
    (tier.invalidateEach u preserved entries).Ensures w
      (fun _ w' ↦ w'.focus = leaves u preserved left entries w.focus ∧
        w.shared.Calls (entries.flatMap (tier.hooksOf u preserved inside)) w'.shared)
      fun _ _ ↦ False := by
  induction entries generalizing w with
  | nil => exact ⟨(leaves_nil left w.focus).symm, .refl⟩
  | cons e rest ih =>
    obtain ⟨key, registered⟩ := e
    obtain ⟨hfresh, hnodupRest⟩ := List.nodup_cons.1 hnodup
    obtain ⟨hfirst, hrest⟩ := List.forall_mem_cons.1 hattached
    rw [List.flatMap_cons, hooksOf]
    apply ensures_invalidateEach_of
    case hkept =>
      intro hkey
      rw [leaves_cons_contains left hkey, hkey]
      simpa using ih hnodupRest hrest
    case hlost =>
      intro hkey
      rw [hkey]
      refine Ensures.imp (ensures_notify_exact hwithin key fun inner hinner ↦
        (hfirst inner hinner).2) ?_
      rintro _ w₁ ⟨hfocus, hcalls⟩
      rw [forgotten, Table.erase_eq_without] at hfocus
      have hfocus₁ : w₁.focus =
        replaced left registered.analysis (w.focus.without (· = (u.id, key))) := hfocus
      -- The proxy key is there only once, so after the attached manager there is no other.
      have hlater : ∀ inner, registered.analysis.inner? = some inner →
          ∀ e ∈ rest, e.2.analysis.inner? = none := by
        intro inner hinner e he
        cases hother : e.2.analysis.inner? with
        | none => rfl
        | some other =>
          have hproxy : e.1 = key :=
            (hrest e he other hother).1.trans (hfirst inner hinner).1.symm
          have hmem : e.1 ∈ rest.map Prod.fst := List.mem_map_of_mem he
          exact absurd (hproxy ▸ hmem) hfresh
      have hrest₁ : ∀ e ∈ rest, ∀ inner, e.2.analysis.inner? = some inner →
          e.1 = .proxy ∧ good inner ∧ w₁.focus.attached? = some inner := by
        intro e he inner hinner
        obtain ⟨hproxy, hgood, hcurrent⟩ := hrest e he inner hinner
        refine ⟨hproxy, hgood, ?_⟩
        rw [hfocus₁, replaced]
        cases hregistered : registered.analysis.inner? with
        | none => exact hcurrent
        | some outer =>
          rw [hlater outer hregistered e he] at hinner
          cases hinner
      refine (ih hnodupRest hrest₁).imp ?_
      rintro _ w₂ ⟨hfocus₂, hcalls₂⟩
      refine ⟨?_, ((Shared.Calls.released _ _).trans hcalls).trans hcalls₂⟩
      rw [hfocus₂, hfocus₁]
      refine leaves_cons hkey (fun inner hinner ↦ ?_) w.focus
      refine List.findSome?_eq_none_iff.2 fun e he ↦ ?_
      rw [exposed, hlater inner hinner e he, ite_self]

/-- What an invalidation leaves of a tidy manager, and the hooks it calls. -/
theorem ensures_invalidate_exact (hpreserved : preserved ≠ .all) {w : World (Manager S)}
    (htidy : w.focus.Tidy good) :
    (tier.invalidate u preserved).Ensures w
      (fun _ w' ↦ w'.focus = w.focus.invalidated u.id preserved left ∧
        w.shared.Calls (w.focus.analyses.entries.flatMap (tier.hooksOf u preserved inside))
          w'.shared)
      fun _ _ ↦ False := by
  apply ensures_invalidate_of
  case hall => exact fun hall ↦ absurd hall hpreserved
  case honly =>
    intro _
    rw [← leaves_entries htidy]
    refine ensures_invalidateEach_exact hwithin w.focus.analyses.nodup fun e he inner hinner ↦ ?_
    obtain ⟨hproxy, hattached⟩ := htidy.attached?_of_mem he hinner
    exact ⟨hproxy, htidy.inner _ hattached, hattached⟩

end Invalidation

end Tier

/-! ## The two tiers -/

/-- What is left when results for some functions are taken away. -/
def FunctionManager.invalidatedFor (m : FunctionManager) (functions : Functions)
    (preserved : Preserved) : FunctionManager :=
  m.without fun place ↦ functions.any (fun f ↦ f.id = place.1) && !preserved.contains place.2

/-- What is left when results for a module are taken away, and those for its functions in the
attached manager unless that is preserved. -/
def ModuleManager.invalidatedFor (m : ModuleManager) (module : Module) (preserved : Preserved) :
    ModuleManager :=
  m.invalidated module.id preserved fun inner ↦ inner.invalidatedFor module.content preserved

namespace Code

variable {code : Code} {preserved : Preserved}

/-- The hooks for a function: those of all its analyses that are not preserved, each once. -/
def functionHooks (code : Code) (f : Function) (preserved : Preserved) (m : FunctionManager) :
    List Event :=
  m.analyses.entries.flatMap (code.functionTier.hooksOf f preserved Empty.elim)

/-- The hooks for a module: those of all its analyses that are not preserved, each once. That of the
attached manager calls the hooks for each function. -/
def moduleHooks (code : Code) (module : Module) (preserved : Preserved) (m : ModuleManager) :
    List Event :=
  m.analyses.entries.flatMap (code.moduleTier.hooksOf module preserved fun inner ↦
    module.content.flatMap fun f ↦ code.functionHooks f preserved inner)

theorem ensures_invalidateFunction_exact (hpreserved : preserved ≠ .all) (f : Function)
    {w : World FunctionManager} (htidy : TidyFunctions w.focus) :
    (code.functionTier.invalidate f preserved).Ensures w
      (fun _ w' ↦ w'.focus = w.focus.invalidatedFor [f] preserved ∧
        w.shared.Calls (code.functionHooks f preserved w.focus) w'.shared)
      fun _ _ ↦ False := by
  have hattached : w.focus.attached? = none := by
    cases hinner : w.focus.attached? with
    | none => rfl
    | some inner => exact inner.elim
  have hwithin (s : Shared) (inner : Empty) (_ : True) :
      (code.functionTier.invalidateWithin f preserved).Ensures ⟨s, inner⟩
        (fun _ w' ↦ w'.focus = id inner ∧ s.Calls inner.elim w'.shared) fun _ _ ↦ False :=
    inner.elim
  refine (Tier.ensures_invalidate_exact hwithin hpreserved htidy).imp ?_
  rintro _ w' ⟨hfocus, hcalls⟩
  refine ⟨?_, hcalls⟩
  rw [hfocus, Manager.invalidated, hattached]
  refine Manager.without_congr fun place _ ↦ ?_
  rw [List.any_cons, List.any_nil, Bool.or_false, decide_eq_decide.2 eq_comm]

theorem ensures_invalidateFunctions_exact (hpreserved : preserved ≠ .all) (functions : Functions)
    {w : World FunctionManager} (htidy : TidyFunctions w.focus) :
    (invalidateFunctions code preserved functions).Ensures w
      (fun _ w' ↦ w'.focus = w.focus.invalidatedFor functions preserved ∧
        w.shared.Calls (functions.flatMap fun f ↦ code.functionHooks f preserved w.focus) w'.shared)
      fun _ _ ↦ False := by
  induction functions generalizing w with
  | nil =>
    have hsame : w.focus.invalidatedFor [] preserved = w.focus :=
      Manager.without_eq_self fun _ _ ↦ rfl
    exact ⟨hsame.symm, .refl⟩
  | cons f rest ih =>
    rw [invalidateFunctions, ensures_bind]
    refine (ensures_invalidateFunction_exact hpreserved f htidy).imp ?_
    rintro _ w₁ ⟨hfocus, hcalls⟩
    have htidy₁ : TidyFunctions w₁.focus := by
      rw [hfocus]
      exact htidy.without _
    refine (ih htidy₁).imp ?_
    rintro _ w₂ ⟨hfocus₂, hcalls₂⟩
    rw [hfocus] at hcalls₂
    refine ⟨?_, hcalls.trans hcalls₂⟩
    rw [hfocus₂, hfocus, FunctionManager.invalidatedFor, FunctionManager.invalidatedFor,
      Manager.without_without]
    refine Manager.without_congr fun place _ ↦ ?_
    rw [List.any_cons, List.any_cons, List.any_nil, Bool.or_false, Bool.and_or_distrib_right]

/-- The invalidation for a module takes away exactly the results of the module that are not
preserved, and those of its functions unless the attached manager is preserved. It calls exactly the
hooks of the analyses that are not preserved. If everything is preserved, nothing happens. -/
theorem invalidate_exact {m : ModuleManager} (h : code.ReachesModules m) (module : Module)
    (preserved : Preserved) (s : Shared) :
    (code.moduleTier.invalidate module preserved).Ensures ⟨s, m⟩
      (fun _ w' ↦
        (preserved = .all → w' = ⟨s, m⟩) ∧
        (preserved ≠ .all →
          w'.focus = m.invalidatedFor module preserved ∧
            s.Calls (code.moduleHooks module preserved m) w'.shared))
      fun _ _ ↦ False := by
  by_cases hpreserved : preserved = .all
  · subst hpreserved
    exact ⟨fun _ ↦ rfl, fun hne ↦ absurd rfl hne⟩
  · have hwithin (s : Shared) (inner : FunctionManager) (htidy : TidyFunctions inner) :
        (code.moduleTier.invalidateWithin module preserved).Ensures ⟨s, inner⟩
          (fun _ w' ↦ w'.focus = inner.invalidatedFor module.content preserved ∧
            s.Calls (module.content.flatMap fun f ↦ code.functionHooks f preserved inner) w'.shared)
          fun _ _ ↦ False :=
      ensures_invalidateFunctions_exact hpreserved module.content htidy
    refine (Tier.ensures_invalidate_exact hwithin hpreserved h.tidy).imp ?_
    rintro _ w' hexact
    exact ⟨fun hall ↦ absurd hall hpreserved, fun _ ↦ hexact⟩

end Code

namespace Demo

/-- A module of one function. -/
def cabin : Module := ⟨1, "cabin", [⟨2, "main", ["nop", "ret"]⟩]⟩

/-- A function of no module. -/
def outsider : Function := ⟨3, "outsider", ["ret"]⟩

/-- A manager of functions that knows the lengths of some. -/
def measuring (code : Code) : List Function → FunctionManager
  | [] => ((code.functionTier.access.registerForeign lengthKey 0 .null).ending ⟨{}, {}⟩).focus
  | f :: rest =>
    ((code.functionTier.perform (.get (.foreign lengthKey) f)).ending
      ⟨{}, measuring code rest⟩).focus

theorem reachesFunctions_measuring (code : Code) (functions : List Function) :
    code.ReachesFunctions (measuring code functions) := by
  induction functions with
  | nil => exact Tier.Reached.empty.call (.registerForeign lengthKey 0 .null) {}
  | cons f rest ih => exact Tier.Reached.call ih (.perform _) {}

/-- A manager of modules to which it is attached, and which knows the size of one. -/
def sizing : ModuleManager :=
  let registered :=
    ((code.moduleTier.access.registerForeign instructionCount 0 .null).ending ⟨{}, {}⟩).focus
  let attached :=
    ((code.moduleTier.attach (measuring code (outsider :: cabin.content))).ending
      ⟨{}, registered⟩).focus
  ((code.moduleTier.perform (.get (.foreign instructionCount) cabin)).ending ⟨{}, attached⟩).focus

theorem reachesModules_sizing : code.ReachesModules sizing :=
  Tier.Reached.call (.attach (.call .empty (.registerForeign instructionCount 0 .null) {})
    (reachesFunctions_measuring _ _) {}) (.perform _) {}

theorem invalidate_exact_sizing :
    code.ReachesModules sizing ∧ sizing.results.keys = [(1, instructionCount)] ∧
      (code.moduleTier.invalidate cabin .none).Ensures ⟨{}, sizing⟩
        (fun _ w' ↦ w'.focus.results.keys = [] ∧
          w'.focus.attached?.map (fun inner ↦ inner.results.keys) = some [(3, lengthKey)] ∧
          ({} : Shared).Calls [.invalidated 1 instructionCount none, .invalidated 1 .proxy none,
            .invalidated 2 lengthKey none] w'.shared)
        fun _ _ ↦ False := by
  refine ⟨reachesModules_sizing, rfl, ?_⟩
  refine (Code.invalidate_exact reachesModules_sizing cabin .none {}).imp ?_
  rintro _ w' ⟨-, hexact⟩
  obtain ⟨hfocus, hcalls⟩ := hexact (by decide)
  rw [hfocus]
  exact ⟨rfl, rfl, hcalls⟩

end Demo

end ForeignPasses
