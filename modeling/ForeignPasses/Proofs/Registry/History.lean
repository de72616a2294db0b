import ForeignPasses.Demo
import ForeignPasses.Exec.Registration
import ForeignPasses.Proofs.Exec.Ensures
import ForeignPasses.Proofs.Registry.ByteOrder

/-!
# Histories of registrations

Requests for registrations come in any order, for either kind of unit, from the framework's own side
or from beyond the boundary. Whatever the registries can be asked is determined by the requests that
were granted: nothing is ever taken back, and the first one under a name or a key stays.
-/

namespace ForeignPasses

namespace Shared

@[simp] theorem registry_setRegistry (s : Shared) (kind : Kind) (r : Registry) :
    (s.setRegistry kind r).registry kind = r := by
  cases kind <;> rfl

theorem registry_setRegistry_of_ne (s : Shared) {kind other : Kind} (r : Registry)
    (h : other ≠ kind) : (s.setRegistry kind r).registry other = s.registry other := by
  cases kind <;> cases other <;> first | rfl | exact absurd rfl h

end Shared

namespace Registry

open Exec

/-- A request for a registration. Those from beyond the boundary bring bytes for a name, and keys
that may be null. -/
inductive Request where
  | pass (kind : Kind) (name : String) (entry : Entry)
  | analysis (kind : Kind) (key : Key) (entry : Entry)
  | boundaryPass (kind : Kind) (name : ByteArray) (entry : Entry)
  | boundaryAnalysis (kind : Kind) (key : Option Key) (entry : Entry)

/-- Requests in the order in which they came, each with what came of it. -/
abbrev History := List (Request × Except BoundaryError Unit)

namespace Request

variable {σ : Type}

def kind : Request → Kind
  | pass kind .. => kind
  | analysis kind .. => kind
  | boundaryPass kind .. => kind
  | boundaryAnalysis kind .. => kind

/-- A refusal of the request ends everything. -/
def Crosses : Request → Prop
  | pass .. => False
  | analysis .. => False
  | boundaryPass .. => True
  | boundaryAnalysis .. => True

/-- What a request for a pass over units of a kind asks for. -/
def pass? (kind : Kind) : Request → Option (String × Entry)
  | pass k name entry => if k = kind then some (name, entry) else none
  | boundaryPass k name entry =>
    if k = kind then (Text.decode? name).map fun name ↦ (name, entry) else none
  | _ => none

/-- What a request for an analysis of units of a kind asks for. -/
def analysis? (kind : Kind) : Request → Option (Key × Entry)
  | analysis k key entry => if k = kind then some (key, entry) else none
  | boundaryAnalysis k key entry => if k = kind then key.map fun key ↦ (key, entry) else none
  | _ => none

theorem pass?_of_ne (r : Request) {kind : Kind} (hne : kind ≠ r.kind) : r.pass? kind = none := by
  cases r <;> first | rfl | exact if_neg hne.symm

theorem analysis?_of_ne (r : Request) {kind : Kind} (hne : kind ≠ r.kind) :
    r.analysis? kind = none := by
  cases r <;> first | rfl | exact if_neg hne.symm

/-- Makes a request. -/
def perform : Request → Exec σ (Except BoundaryError Unit)
  | pass kind name entry => enterPass kind name entry
  | analysis kind key entry => enterAnalysis kind key entry
  | boundaryPass kind name entry => .ok <$> Exec.boundaryPass kind name entry
  | boundaryAnalysis kind key entry => .ok <$> Exec.boundaryAnalysis kind key entry

/-- Makes requests one after the other, until one from beyond the boundary is refused. -/
def performAll : List Request → Exec σ (List (Except BoundaryError Unit))
  | [] => return []
  | r :: rest => do
    let outcome ← r.perform
    return outcome :: (← performAll rest)

end Request

/-! ## What was granted -/

namespace History

/-- The passes of a kind that were registered, the first of them first. -/
def passes (kind : Kind) (h : History) : List (String × Entry) :=
  h.filterMap fun e ↦
    match e.2 with
    | .ok () => e.1.pass? kind
    | .error _ => none

/-- The analyses of a kind that were registered, the first of them first. -/
def analyses (kind : Kind) (h : History) : List (Key × Entry) :=
  h.filterMap fun e ↦
    match e.2 with
    | .ok () => e.1.analysis? kind
    | .error _ => none

/-- What has to come of a request for a pass: it is granted if its name is not empty and nothing was
registered under it before. Bytes that are no text are no name. -/
def judgePass (h : History) (kind : Kind) : Option String → Except BoundaryError Unit
  | none => .error .invalidPassName
  | some name =>
    if name = "" then .error .invalidPassName
    else if name ∈ (h.passes kind).map Prod.fst then .error (.duplicatePass kind.name name)
    else .ok ()

/-- What has to come of a request for an analysis: it is granted if its key is not null and nothing
was registered under it before. -/
def judgeAnalysis (h : History) (kind : Kind) : Option Key → Except BoundaryError Unit
  | none => .error .nullKey
  | some key =>
    if key ∈ (h.analyses kind).map Prod.fst then .error (.duplicateAnalysis kind.name key)
    else .ok ()

def judge (h : History) : Request → Except BoundaryError Unit
  | .pass kind name _ => h.judgePass kind (some name)
  | .analysis kind key _ => h.judgeAnalysis kind (some key)
  | .boundaryPass kind name _ => h.judgePass kind (Text.decode? name)
  | .boundaryAnalysis kind key _ => h.judgeAnalysis kind key

variable (h : History) (kind : Kind) (r : Request)

@[simp] theorem passes_granted :
    passes kind (h ++ [(r, .ok ())]) = h.passes kind ++ (r.pass? kind).toList := by
  cases hr : r.pass? kind <;> simp [passes, hr]

@[simp] theorem passes_refused (error : BoundaryError) :
    passes kind (h ++ [(r, .error error)]) = h.passes kind := by
  simp [passes]

@[simp] theorem analyses_granted :
    analyses kind (h ++ [(r, .ok ())]) = h.analyses kind ++ (r.analysis? kind).toList := by
  cases hr : r.analysis? kind <;> simp [analyses, hr]

@[simp] theorem analyses_refused (error : BoundaryError) :
    analyses kind (h ++ [(r, .error error)]) = h.analyses kind := by
  simp [analyses]

variable {h kind}

theorem not_mem_of_judgePass {name : String} (hok : h.judgePass kind (some name) = .ok ()) :
    name ∉ (h.passes kind).map Prod.fst := by
  intro hmem
  simp only [judgePass, if_pos hmem] at hok
  split at hok <;> contradiction

theorem not_mem_of_judgeAnalysis {key : Key} (hok : h.judgeAnalysis kind (some key) = .ok ()) :
    key ∉ (h.analyses kind).map Prod.fst := by
  intro hmem
  simp only [judgeAnalysis, if_pos hmem] at hok
  contradiction

/-- An empty name is no better than none. -/
theorem judgePass_getD (h : History) (kind : Kind) (name : Option String) :
    h.judgePass kind (some (name.getD "")) = h.judgePass kind name := by
  cases name <;> rfl

end History

/-! ## What a registry holds -/

/-- A registry holds what was granted, in the order in which it came. -/
structure Holds (r : Registry) (kind : Kind) (h : History) : Prop where
  unit_eq : r.unit = kind.name
  passes_eq : r.passes.entries = h.passes kind
  analyses_eq : r.analyses.entries = h.analyses kind

/-- All that a registry can be asked is answered by what was granted. -/
structure Tells (r : Registry) (kind : Kind) (h : History) : Prop where
  pass : ∀ name, r.pass? name = (h.passes kind).lookup name
  names_sorted : r.names.Pairwise fun a b ↦ Text.bytes a < Text.bytes b
  mem_names : ∀ name, name ∈ r.names ↔ name ∈ (h.passes kind).map Prod.fst
  visits : ∀ e, r.analyses.entries.count e = if e ∈ h.analyses kind then 1 else 0
  size : r.analyses.size = (h.analyses kind).length

namespace Holds

variable {r : Registry} {kind : Kind} {h : History}

theorem contains_pass (hr : r.Holds kind h) (name : String) :
    r.passes.contains name = true ↔ name ∈ (h.passes kind).map Prod.fst := by
  rw [← hr.passes_eq, Table.contains, ← Table.mem_keys]
  rfl

theorem contains_analysis (hr : r.Holds kind h) (key : Key) :
    r.analyses.contains key = true ↔ key ∈ (h.analyses kind).map Prod.fst := by
  rw [← hr.analyses_eq, Table.contains, ← Table.mem_keys]
  rfl

theorem addPass_eq (hr : r.Holds kind h) (name : String) (entry : Entry) :
    r.addPass name entry = (h.judgePass kind (some name)).map
      fun _ ↦ { r with passes := r.passes.insert name entry } := by
  simp only [addPass, History.judgePass, hr.contains_pass, hr.unit_eq]
  split_ifs <;> rfl

theorem addAnalysis_eq (hr : r.Holds kind h) (key : Key) (entry : Entry) :
    r.addAnalysis key entry = (h.judgeAnalysis kind (some key)).map
      fun _ ↦ { r with analyses := r.analyses.insert key entry } := by
  simp only [addAnalysis, History.judgeAnalysis, hr.contains_analysis, hr.unit_eq]
  split_ifs <;> rfl

theorem refused (hr : r.Holds kind h) (request : Request) (error : BoundaryError) :
    r.Holds kind (h ++ [(request, .error error)]) where
  unit_eq := hr.unit_eq
  passes_eq := hr.passes_eq.trans (h.passes_refused kind request error).symm
  analyses_eq := hr.analyses_eq.trans (h.analyses_refused kind request error).symm

theorem passGranted (hr : r.Holds kind h) {request : Request} {name : String} {entry : Entry}
    (hjudge : h.judgePass kind (some name) = .ok ())
    (hpass : request.pass? kind = some (name, entry)) (hanalysis : request.analysis? kind = none) :
    ({ r with passes := r.passes.insert name entry } : Registry).Holds kind
      (h ++ [(request, .ok ())]) where
  unit_eq := hr.unit_eq
  passes_eq := by
    have hnew : name ∉ r.passes.keys := by
      rw [Table.keys, hr.passes_eq]
      exact History.not_mem_of_judgePass hjudge
    rw [History.passes_granted, hpass, ← hr.passes_eq]
    exact Table.entries_insert hnew entry
  analyses_eq := by
    rw [History.analyses_granted, hanalysis, Option.toList_none, List.append_nil]
    exact hr.analyses_eq

theorem analysisGranted (hr : r.Holds kind h) {request : Request} {key : Key} {entry : Entry}
    (hjudge : h.judgeAnalysis kind (some key) = .ok ()) (hpass : request.pass? kind = none)
    (hanalysis : request.analysis? kind = some (key, entry)) :
    ({ r with analyses := r.analyses.insert key entry } : Registry).Holds kind
      (h ++ [(request, .ok ())]) where
  unit_eq := hr.unit_eq
  passes_eq := by
    rw [History.passes_granted, hpass, Option.toList_none, List.append_nil]
    exact hr.passes_eq
  analyses_eq := by
    have hnew : key ∉ r.analyses.keys := by
      rw [Table.keys, hr.analyses_eq]
      exact History.not_mem_of_judgeAnalysis hjudge
    rw [History.analyses_granted, hanalysis, ← hr.analyses_eq]
    exact Table.entries_insert hnew entry

/-- A request is none of the other kind's business. -/
theorem other (hr : r.Holds kind h) {request : Request} (hne : kind ≠ request.kind)
    (outcome : Except BoundaryError Unit) : r.Holds kind (h ++ [(request, outcome)]) := by
  cases outcome with
  | error error => exact hr.refused request error
  | ok _ =>
    refine ⟨hr.unit_eq, ?_, ?_⟩
    · rw [History.passes_granted, request.pass?_of_ne hne, Option.toList_none, List.append_nil]
      exact hr.passes_eq
    · rw [History.analyses_granted, request.analysis?_of_ne hne, Option.toList_none,
        List.append_nil]
      exact hr.analyses_eq

theorem tells (hr : r.Holds kind h) : r.Tells kind h where
  pass name := by
    rw [← hr.passes_eq]
    rfl
  names_sorted := r.names_sorted
  mem_names name := by
    rw [r.names_perm.mem_iff, ← hr.passes_eq]
    rfl
  visits e := by
    rw [← hr.analyses_eq]
    exact (List.Nodup.of_map _ r.analyses.nodup).count
  size := congrArg List.length hr.analyses_eq

end Holds

/-! ## Making a request -/

/-- What comes of a request, and what it leaves as it was. -/
structure Request.Settles (r : Request) (h : History) (before after : Shared)
    (outcome : Except BoundaryError Unit) : Prop where
  judged : outcome = h.judge r
  other : ∀ kind, kind ≠ r.kind → after.registry kind = before.registry kind
  refused : outcome ≠ .ok () → ∀ kind, after.registry kind = before.registry kind

/-- The registries of both kinds hold what was granted. -/
def HeldBy (s : Shared) (h : History) : Prop := ∀ kind, (s.registry kind).Holds kind h

section Requests

variable {σ : Type} {w : World σ} {h : History} {post : Except BoundaryError Unit → World σ → Prop}
  {halted : Halt → World σ → Prop}

theorem ensures_enter (kind : Kind) (line : String)
    (register : Registry → Except BoundaryError Registry) :
    (enter kind line register).Ensures w post halted ↔
      match register (w.shared.registry kind) with
      | .ok r => post (.ok ()) { w with shared := { w.shared with
          events := w.shared.events ++ [Event.log .debug line] }.setRegistry kind r }
      | .error e => post (.error e) w := by
  simp only [enter, ensures_bind, ensures_shared]
  cases register (w.shared.registry kind) <;> rfl

/-- A request that changes its registry if it is granted and does nothing if it is not. -/
theorem enter_settles (hw : HeldBy w.shared h) {r : Request} {line : String}
    {register : Registry → Except BoundaryError Registry} {granted : Registry}
    (hregister : register (w.shared.registry r.kind) = (h.judge r).map fun _ ↦ granted)
    (hgranted : h.judge r = .ok () → granted.Holds r.kind (h ++ [(r, .ok ())])) :
    (enter r.kind line register).Ensures w
      (fun outcome w' ↦ r.Settles h w.shared w'.shared outcome ∧
        HeldBy w'.shared (h ++ [(r, outcome)]))
      fun _ _ ↦ False := by
  rw [ensures_enter, hregister]
  cases hjudge : h.judge r with
  | error error =>
    exact ⟨⟨hjudge.symm, fun _ _ ↦ rfl, fun _ _ ↦ rfl⟩, fun kind ↦ (hw kind).refused r error⟩
  | ok _ =>
    have hothers (kind : Kind) (hne : kind ≠ r.kind) :
        (({ w.shared with
            events := w.shared.events ++ [Event.log .debug line] } : Shared).setRegistry
          r.kind granted).registry kind = w.shared.registry kind := by
      rw [Shared.registry_setRegistry_of_ne _ _ hne]
      cases kind <;> rfl
    refine ⟨⟨hjudge.symm, hothers, fun hrefused ↦ absurd rfl hrefused⟩, fun kind ↦ ?_⟩
    by_cases hkind : kind = r.kind
    · subst hkind
      rw [Shared.registry_setRegistry]
      exact hgranted hjudge
    · rw [hothers kind hkind]
      exact (hw kind).other hkind (.ok ())

theorem enterPass_settles (hw : HeldBy w.shared h) {r : Request} {name : String} {entry : Entry}
    (hjudge : h.judge r = h.judgePass r.kind (some name))
    (hpass : h.judge r = .ok () → r.pass? r.kind = some (name, entry))
    (hanalysis : r.analysis? r.kind = none) :
    (enterPass r.kind name entry).Ensures w
      (fun outcome w' ↦ r.Settles h w.shared w'.shared outcome ∧
        HeldBy w'.shared (h ++ [(r, outcome)]))
      fun _ _ ↦ False :=
  enter_settles hw (hjudge ▸ (hw r.kind).addPass_eq name entry) fun hok ↦
    (hw r.kind).passGranted (hjudge ▸ hok) (hpass hok) hanalysis

theorem enterAnalysis_settles (hw : HeldBy w.shared h) {r : Request} {key : Key} {entry : Entry}
    (hjudge : h.judge r = h.judgeAnalysis r.kind (some key)) (hpass : r.pass? r.kind = none)
    (hanalysis : r.analysis? r.kind = some (key, entry)) :
    (enterAnalysis r.kind key entry).Ensures w
      (fun outcome w' ↦ r.Settles h w.shared w'.shared outcome ∧
        HeldBy w'.shared (h ++ [(r, outcome)]))
      fun _ _ ↦ False :=
  enter_settles hw (hjudge ▸ (hw r.kind).addAnalysis_eq key entry) fun hok ↦
    (hw r.kind).analysisGranted (hjudge ▸ hok) hpass hanalysis

/-- Beyond the boundary a refusal is a halt. -/
theorem orFatal_settles {r : Request} {act : Exec σ (Except BoundaryError Unit)}
    (hact : act.Ensures w
      (fun outcome w' ↦ r.Settles h w.shared w'.shared outcome ∧
        HeldBy w'.shared (h ++ [(r, outcome)]))
      fun _ _ ↦ False) (hr : r.Crosses) :
    (Except.ok <$> (act >>= orFatal)).Ensures w
      (fun outcome w' ↦ (r.Settles h w.shared w'.shared outcome ∧ (r.Crosses → outcome = .ok ())) ∧
        HeldBy w'.shared (h ++ [(r, outcome)]))
      fun e w' ↦ r.Crosses ∧ ∃ error, e = .fatal error ∧
        r.Settles h w.shared w'.shared (.error error) := by
  rw [ensures_map, ensures_bind]
  refine hact.mono ?_ fun _ _ ↦ False.elim
  rintro (error | _) w' ⟨hsettles, hheld⟩
  · exact ⟨hr, error, rfl, hsettles⟩
  · exact ⟨⟨hsettles, fun _ ↦ rfl⟩, hheld⟩

/-- What a request does is settled by what was granted before. Only beyond the boundary can it end
in a halt, which is then the refusal. -/
theorem perform_settles (hw : HeldBy w.shared h) (r : Request) :
    (r.perform).Ensures w
      (fun outcome w' ↦ (r.Settles h w.shared w'.shared outcome ∧ (r.Crosses → outcome = .ok ())) ∧
        HeldBy w'.shared (h ++ [(r, outcome)]))
      fun e w' ↦ r.Crosses ∧ ∃ error, e = .fatal error ∧
        r.Settles h w.shared w'.shared (.error error) := by
  cases r with
  | pass kind name entry =>
    refine (enterPass_settles hw (r := .pass kind name entry) rfl ?_ rfl).mono ?_ ?_
    · exact fun _ ↦ if_pos rfl
    · exact fun outcome w' h ↦ ⟨⟨h.1, False.elim⟩, h.2⟩
    · exact fun _ _ ↦ False.elim
  | analysis kind key entry =>
    refine (enterAnalysis_settles hw (r := .analysis kind key entry) rfl rfl ?_).mono ?_ ?_
    · exact if_pos rfl
    · exact fun outcome w' h ↦ ⟨⟨h.1, False.elim⟩, h.2⟩
    · exact fun _ _ ↦ False.elim
  | boundaryPass kind name entry =>
    refine orFatal_settles
      (enterPass_settles hw (r := .boundaryPass kind name entry) ?_ ?_ rfl) trivial
    · exact (h.judgePass_getD kind (Text.decode? name)).symm
    · intro hok
      cases hname : Text.decode? name with
      | none =>
        simp only [History.judge, hname] at hok
        contradiction
      | some text => simp [Request.pass?, Request.kind, nameOf, hname]
  | boundaryAnalysis kind key entry =>
    cases key with
    | none =>
      refine ⟨trivial, .nullKey, rfl, rfl, fun _ _ ↦ rfl, fun _ _ ↦ rfl⟩
    | some key =>
      exact orFatal_settles (enterAnalysis_settles hw
        (r := .boundaryAnalysis kind (some key) entry) rfl rfl (if_pos rfl)) trivial

/-! ## Making requests one after the other -/

/-- Requests came to what they had to come to. -/
def History.Judged : History → History → Prop
  | _, [] => True
  | h, (r, outcome) :: rest => outcome = h.judge r ∧ History.Judged (h ++ [(r, outcome)]) rest

theorem performAll_judged (hw : HeldBy w.shared h) (requests : List Request) :
    (Request.performAll requests).Ensures w
      (fun outcomes w' ↦ outcomes.length = requests.length ∧
        h.Judged (requests.zip outcomes) ∧ HeldBy w'.shared (h ++ requests.zip outcomes))
      fun _ _ ↦ True := by
  induction requests generalizing w h with
  | nil => exact ⟨rfl, trivial, by simpa using hw⟩
  | cons r rest ih =>
    rw [Request.performAll, ensures_bind]
    refine (perform_settles hw r).relax ?_
    rintro outcome w₁ ⟨⟨hsettles, -⟩, hheld⟩
    rw [ensures_bind]
    refine (ih hheld).relax ?_
    rintro outcomes w₂ ⟨hlength, hjudged, hrest⟩
    refine ⟨congrArg Nat.succ hlength, ⟨hsettles.judged, hjudged⟩, ?_⟩
    rwa [List.append_assoc] at hrest

/-- Started on empty registries, any requests came to what they had to come to. Both registries tell
what was granted, and so it goes on with every further request. -/
theorem performAll_appendOnly {start w : World σ}
    (hstart : ∀ kind, start.shared.registry kind = { unit := kind.name })
    {requests : List Request} {outcomes : List (Except BoundaryError Unit)}
    (hrun : Request.performAll requests start = .ok outcomes w) :
    (outcomes.length = requests.length ∧ History.Judged [] (requests.zip outcomes)) ∧
    (∀ kind, (w.shared.registry kind).Tells kind (requests.zip outcomes)) ∧
    ∀ r : Request, (r.perform).Ensures w
      (fun outcome w' ↦ r.Settles (requests.zip outcomes) w.shared w'.shared outcome ∧
        (r.Crosses → outcome = .ok ()))
      fun e w' ↦ r.Crosses ∧ ∃ error, e = .fatal error ∧
        r.Settles (requests.zip outcomes) w.shared w'.shared (.error error) := by
  have hempty : HeldBy start.shared [] := fun kind ↦ by
    rw [hstart kind]
    exact ⟨rfl, rfl, rfl⟩
  obtain ⟨hlength, hjudged, hheld⟩ := (performAll_judged hempty requests).of_ok hrun
  refine ⟨⟨hlength, hjudged⟩, fun kind ↦ (hheld kind).tells, fun r ↦ ?_⟩
  exact (perform_settles hheld r).imp fun _ _ h ↦ h.1

end Requests

end Registry

namespace Demo

open Exec Registry

def registrations : List Request :=
  [.pass .function "tidy" stripNops, .pass .function "tidy" hello, .pass .module "tidy" printStats,
    .boundaryPass .function "greet".toUTF8 hello, .boundaryAnalysis .module (some lengthKey) 0]

/-- The second pass is refused its name, the third one is of the other kind. A pass without a name
cannot come back to those beyond the boundary who asked for it. -/
theorem registrations_appendOnly :
    ∃ w, Request.performAll registrations (⟨{}, ()⟩ : World Unit) =
        .ok [.ok (), .error (.duplicatePass "function" "tidy"), .ok (), .ok (), .ok ()] w ∧
      (w.shared.registry .function).pass? "tidy" = some stripNops ∧
      (w.shared.registry .module).pass? "tidy" = some printStats ∧
      (w.shared.registry .module).analyses.size = 1 ∧
      (Request.boundaryPass .module ByteArray.empty hello).perform.Ensures w
        (fun _ _ ↦ False) fun e _ ↦ e = .fatal .invalidPassName := by
  have hoks : (Request.performAll registrations).Ensures (⟨{}, ()⟩ : World Unit)
      (fun outcomes _ ↦ outcomes =
        [.ok (), .error (.duplicatePass "function" "tidy"), .ok (), .ok (), .ok ()])
      fun _ _ ↦ False := by
    decide +kernel
  obtain ⟨outcomes, w, hrun, rfl⟩ := hoks.exists_ok fun _ _ ↦ id
  have hstart (kind : Kind) : ({} : Shared).registry kind = { unit := kind.name } := by
    cases kind <;> rfl
  obtain ⟨-, htells, hnext⟩ := performAll_appendOnly hstart hrun
  refine ⟨w, hrun, ?_, ?_, ?_, ?_⟩
  · exact ((htells .function).pass "tidy").trans (by decide +kernel)
  · exact ((htells .module).pass "tidy").trans (by decide +kernel)
  · exact (htells .module).size.trans (by decide +kernel)
  · refine (hnext (.boundaryPass .module ByteArray.empty hello)).mono ?_ ?_
    · rintro outcome w' ⟨hsettles, hcrosses⟩
      have hrefused := hsettles.judged.symm.trans (hcrosses trivial)
      exact absurd hrefused (by decide +kernel)
    · rintro e w' ⟨-, error, rfl, hsettles⟩
      exact congrArg _ (Except.error.inj (hsettles.judged.trans (by decide +kernel)))

end Demo

end ForeignPasses
