import ForeignPasses.Demo
import ForeignPasses.Proofs.Ownership.Shares
import ForeignPasses.Proofs.Ownership.Steps

/-!
# Whole sessions release once

Between the steps of a session every address that came in is held or was released, and none came in
twice. So when everything that is left is dropped, each address was released exactly once.
-/

namespace ForeignPasses

open Exec

/-! ## Custody -/

/-- What one object held is held by another one later on, but for what is lost, and results that
analyses were told about. -/
def Carries (w w' : World Objects) (source target : ObjectId) (lost : Role → Prop) : Prop :=
  ∀ role, ¬lost role → losses w'.shared.events role = 0 →
    ∀ x, w.focus.holdingAt source role x ≤ w'.focus.holdingAt target role x

/-- Which object a step moves into which other one. -/
def Step.moves : Step → Option (ObjectId × ObjectId)
  | .addAdapter target inner => some ((.functionPipeline, inner), (.modulePipeline, target))
  | .onUnit kind (.addGroup target inner) => some (kind.pipelineId inner, kind.pipelineId target)
  | _ => none

/-- Who holds what after a step. Objects keep what they hold unless the step takes it away; what is
moved is held at its new place; and a manager of functions is attached, or its contexts are
released because it was refused. -/
structure Custody (s : Step) (answered : Bool) (w w' : World Objects) : Prop where
  stays : ∀ id, Carries w w' id id (s.loses id)
  moves : answered = true → ∀ source target, s.moves = some (source, target) →
    Carries w w' source target fun _ ↦ False
  attaches : answered = true → ∀ builder outer inner, s = .setUp builder outer inner →
    Carries w w' (.functionManager, inner) (.moduleManager, outer) (fun _ ↦ False) ∨
      ∀ x, w.focus.holdingAt (.functionManager, inner) .context x ≤
        deletions w'.shared.events x

namespace Session

variable {w w' : World Objects}

theorem step_moves (code : Code) (s : Step) :
    Ensures (step code s) w (fun r w' ↦ ∀ answer, r = .ok answer →
      ∀ source target, s.moves = some (source, target) →
        Carries w w' source target fun _ ↦ False) fun _ _ ↦ True := by
  have hnone (hmoves : s.moves = none) : Ensures (step code s) w
      (fun r w' ↦ ∀ answer, r = .ok answer → ∀ source target, s.moves = some (source, target) →
        Carries w w' source target fun _ ↦ False) fun _ _ ↦ True := by
    refine (Exec.Ensures.trivial _ w).mono (fun r w' _ ↦ ?_) fun _ _ _ ↦ trivial
    intro _ _ source target h
    rw [hmoves] at h
    contradiction
  have hcarries {act : Act Answer} {source target : ObjectId}
      (hmoves : s.moves = some (source, target))
      (h : Ensures act w (fun r w' ↦ ∀ answer, r = .ok answer → ∀ role x,
        w.focus.holdingAt source role x ≤ w'.focus.holdingAt target role x) fun _ _ ↦ True) :
      Ensures act w (fun r w' ↦ ∀ answer, r = .ok answer →
        ∀ source target, s.moves = some (source, target) →
          Carries w w' source target fun _ ↦ False) fun _ _ ↦ True := by
    refine Exec.Ensures.mono h (fun r w' h' ↦ ?_) fun _ _ h ↦ h
    intro answer hanswer source' target' hmoves'
    obtain ⟨rfl, rfl⟩ := Prod.mk.inj (Option.some.inj (hmoves.symm.trans hmoves'))
    exact fun role _ _ ↦ h' answer hanswer role
  cases s with
  | addAdapter target inner =>
    exact hcarries rfl (moveInto_moves Shelf.functionPipelines Shelf.modulePipelines "fpm" inner
      target holding_append_perFunction)
  | onUnit kind s =>
    cases s with
    | addGroup target inner =>
      cases kind with
      | module => exact hcarries rfl ((moduleDesk_orderly code).addGroup_moves code target inner)
      | function =>
        exact hcarries rfl ((functionDesk_orderly code).addGroup_moves code target inner)
    | _ => exact hnone rfl
  | _ => exact hnone rfl

theorem setUp_custody (code : Code) (builder outer inner : String)
    (hevents : w.shared.events = []) :
    Ensures (step code (.setUp builder outer inner)) w
      (fun r w' ↦ ∀ answer, r = .ok answer →
        Carries w w' (.functionManager, inner) (.moduleManager, outer) (fun _ ↦ False) ∨
          ∀ x, w.focus.holdingAt (.functionManager, inner) .context x ≤
            deletions w'.shared.events x) fun _ _ ↦ True := by
  refine (ensures_bind _ _).2 ((ensures_take _ _ _ _).2 ?_)
  cases hfam : w.focus.functionManagers.find? inner with
  | none =>
    intro _ h
    cases h
  | some fam =>
    refine (ensures_bind _ _).2 ((ensures_orDrop fam _).2 ((ensures_require _ _).2 ?_))
    simp only
    cases w.focus.moduleManagers.find? outer with
    | none =>
      intro _ h
      cases h
    | some mam =>
      refine (ensures_bind _ _).2 ((ensures_orDrop fam _).2 ((ensures_require _ _).2 ?_))
      simp only
      cases w.focus.builders.find? builder with
      | none =>
        intro _ h
        cases h
      | some b =>
        refine (ensures_bind _ _).2 ((ensures_on _ _ _).2 ?_)
        refine (setUp_attaches code b fam).mono ?_ fun _ _ _ ↦ trivial
        intro _ v hattaches answer _
        have hsource : w.focus.holdingAt (.functionManager, inner) = holding fam := by
          rw [Objects.holdingAt, hfam, holding_some]
        have hlosses (role : Role) : losses w.shared.events role = 0 := by
          rw [hevents]
          rfl
        have hdeletions : deletions w.shared.events = 0 := by
          rw [hevents]
          rfl
        rcases hattaches with hkept | hreleased
        · left
          intro role _ hrole x
          have hx := hkept role (hrole.trans (hlosses role).symm) x
          change _ ≤ holding ((Table.insert _ outer v.focus).find? outer) role x
          rw [hsource, Table.find?_insert_self, holding_some]
          exact hx
        · right
          intro x
          have hx := hreleased x
          rw [hdeletions, Pi.zero_apply, Nat.zero_add] at hx
          rw [hsource]
          exact hx

/-! ## What holds between the steps -/

/-- Every address that came in is held or was released, and none came in twice. -/
structure Sound (past : List Event) (w : World Objects) : Prop where
  events_eq : w.shared.events = []
  balance : ∀ x, deletions past x + held w.focus x = adoptions past x
  fresh : ∀ x, adoptions past x ≤ span 0 w.shared.nextAddress x

namespace Sound

variable {past : List Event}

theorem start : Sound [] ⟨{}, {}⟩ where
  events_eq := rfl
  balance _ := rfl
  fresh _ := Nat.zero_le _

theorem bounded (h : Sound past w) : w.Bounded := by
  intro address haddress
  have hbalance := h.balance (some address)
  have hfresh := h.fresh (some address)
  have hspan : span 0 w.shared.nextAddress (some address) = 0 :=
    if_neg fun hlt ↦ Nat.not_lt_of_le haddress hlt.2
  omega

/-- A step that keeps account leads on, with its events behind. -/
theorem step {loses : Losses} (h : Sound past w) (hguards : Guards loses w 0 w' 0) :
    Sound (past ++ w'.shared.events)
      { w' with shared := { w'.shared with events := [] } } where
  events_eq := rfl
  balance x := by
    have hx := h.balance x
    have hledger := hguards.settles.balance x
    have hadoptions : adoptions [] x = 0 := rfl
    have hdeletions : deletions [] x = 0 := rfl
    simp only [Shared.books, h.events_eq, held, adoptions_append, deletions_append, Pi.add_apply,
      Pi.zero_apply] at hx hledger ⊢
    omega
  fresh x := by
    have hx := h.fresh x
    have hledger := hguards.settles.fresh x
    have hspan := congrFun (span_add (Nat.zero_le _) hguards.settles.next_le) x
    have hadoptions : adoptions [] x = 0 := rfl
    simp only [Shared.books, h.events_eq, adoptions_append, Pi.add_apply] at hx hledger hspan ⊢
    omega

/-- What is held by anything was not released yet. -/
theorem unreleased (h : Sound past w) {id : ObjectId} {role : Role} {address : Nat}
    (hheld : 0 < w.focus.holdingAt id role (some address)) : deletions past (some address) = 0 := by
  have hle := w.focus.holdingAt_le_held id role (some address)
  have hbalance := h.balance (some address)
  have hfresh := h.fresh (some address)
  have hspan : span 0 w.shared.nextAddress (some address) ≤ 1 := by
    simp only [span]
    split <;> omega
  omega

end Sound

/-- A step leads on with everything accounted for, and in good custody. -/
theorem step_custody (code : Code) (s : Step) {past : List Event} (h : Sound past w) :
    Ensures (step code s) w
      (fun r w' ↦ Guards s.loses w 0 w' 0 ∧ Custody s r.isOk w w')
      (Excused True fun w' ↦ Guards s.loses w 0 w' 0 ∧ Custody s false w w') := by
  have hstays {w' : World Objects} (hguards : Guards s.loses w 0 w' 0) (id : ObjectId) :
      Carries w w' id id (s.loses id) := by
    intro role hrole hlost
    refine hguards.stays id role hrole ?_
    rw [hlost, h.events_eq]
    rfl
  have hattaches : Ensures (step code s) w
      (fun r w' ↦ ∀ answer, r = .ok answer → ∀ builder outer inner,
        s = .setUp builder outer inner →
          Carries w w' (.functionManager, inner) (.moduleManager, outer) (fun _ ↦ False) ∨
            ∀ x, w.focus.holdingAt (.functionManager, inner) .context x ≤
              deletions w'.shared.events x) fun _ _ ↦ True := by
    cases s with
    | setUp builder outer inner =>
      refine Exec.Ensures.mono (setUp_custody code builder outer inner h.events_eq) ?_
        fun _ _ h ↦ h
      rintro r w' hcustody answer hanswer _ _ _ ⟨⟩
      exact hcustody answer hanswer
    | _ =>
      refine (Exec.Ensures.trivial _ w).mono (fun r w' _ ↦ ?_) fun _ _ _ ↦ trivial
      exact fun _ _ _ _ _ h ↦ nomatch h
  have hguards := guards_step code s h.bounded
  refine Exec.Ensures.mono (Exec.Ensures.and hguards
    (Exec.Ensures.and (step_moves code s) hattaches)) ?_ ?_
  · rintro r w' ⟨hguards, hmoves, hattaches⟩
    cases r with
    | ok answer =>
      exact ⟨hguards, hstays hguards, fun _ ↦ hmoves answer rfl, fun _ ↦ hattaches answer rfl⟩
    | error refusal =>
      exact ⟨hguards, hstays hguards, (fun h ↦ nomatch h), (fun h ↦ nomatch h)⟩
  · rintro e w' ⟨hexcused, -⟩
    exact hexcused.mono (fun h ↦ h) fun hguards ↦
      ⟨hguards, hstays hguards, (fun h ↦ nomatch h), (fun h ↦ nomatch h)⟩

/-! ## Whole sessions -/

/-- What happens in a session and how it leaves the world, if it is not over early. -/
def course (code : Code) (w : World Objects) : List Step → Option (List Event × World Objects)
  | [] => some ([], w)
  | s :: rest =>
    let (_, w', continues) := settle ((step code s).run w)
    if continues then
      (course code { w' with shared := { w'.shared with events := [] } } rest).map fun later ↦
        (w'.shared.events ++ later.1, later.2)
    else none

end Session

/-- Whether no step follows: a panic met a foreign frame, or a refusal ended everything. -/
def Outcome.isOver : Outcome → Bool
  | .crashed _ => true
  | .aborted _ => true
  | _ => false

/-- Every address that came in did so once and was released once, and nothing else was released,
least of all null. -/
structure ReleasedOnce (es : List Event) : Prop where
  distinct : ∀ address, adoptions es (some address) ≤ 1
  once : ∀ address, .adopted address ∈ es → deletions es (some address) = 1
  only : ∀ address, .adopted address ∉ es → deletions es (some address) = 0
  null : deletions es none = 0

namespace Session

variable {w : World Objects} {past : List Event}

theorem settle_sound (code : Code) (s : Step) (h : Sound past w) :
    match settle ((step code s).run w) with
    | (_, w', true) => Sound (past ++ w'.shared.events)
      { w' with shared := { w'.shared with events := [] } }
    | (outcome, _, false) => outcome.isOver = true := by
  have hstep := guards_step code s h.bounded
  cases hrun : (step code s).run w with
  | ok r w' =>
    have hguards := Exec.Ensures.of_ok hstep hrun
    cases r with
    | ok answer => exact h.step hguards
    | error refusal => exact h.step hguards
  | error e w' =>
    have hexcused := Exec.Ensures.of_error hstep hrun
    cases e with
    | panicked p => exact h.step hexcused.2
    | crashed p => rfl
    | fatal error => rfl
    | exhausted => exact hexcused.elim

/-- A session is over early, or it takes its course and everything is accounted for. -/
theorem course_sound (code : Code) (steps : List Step) (h : Sound past w) :
    match course code w steps with
    | none => ∀ verbosity, ∃ r ∈ (transcript code verbosity w steps).steps, r.outcome.isOver = true
    | some (later, w') => Sound (past ++ later) w' ∧ ∀ verbosity,
      (transcript code verbosity w steps).ending = some (ending verbosity w') := by
  induction steps generalizing past w with
  | nil =>
    refine ⟨?_, fun _ ↦ rfl⟩
    rwa [List.append_nil]
  | cons s rest ih =>
    have hsettle := settle_sound code s h
    rw [course]
    simp only [transcript]
    generalize settle ((step code s).run w) = settled at hsettle ⊢
    obtain ⟨outcome, w', continues⟩ := settled
    cases continues with
    | false => exact fun _ ↦ ⟨_, List.mem_singleton.2 rfl, hsettle⟩
    | true =>
      have hrest := ih hsettle
      simp only [if_true]
      cases hcourse : course code { w' with shared := { w'.shared with events := [] } } rest with
      | none =>
        rw [hcourse] at hrest
        intro verbosity
        obtain ⟨r, hr, hover⟩ := hrest verbosity
        exact ⟨r, List.mem_cons_of_mem _ hr, hover⟩
      | some later =>
        rw [hcourse] at hrest
        obtain ⟨hsound, hending⟩ := hrest
        refine ⟨?_, hending⟩
        rwa [← List.append_assoc]

/-- When everything that is left is dropped, everything was released once. -/
theorem Sound.releasedOnce (h : Sound past w) :
    ReleasedOnce (past ++ (releases w.focus).map .released) := by
  have hdeletions (x : Option Nat) :
      deletions (past ++ (releases w.focus).map .released) x = adoptions past x := by
    rw [deletions_append, deletions_released, tally_releases]
    exact h.balance x
  have hadoptions (x : Option Nat) :
      adoptions (past ++ (releases w.focus).map .released) x = adoptions past x := by
    rw [adoptions_append, adoptions_released, add_zero]
  have hone (address : Nat) : adoptions past (some address) ≤ 1 := by
    refine Nat.le_trans (h.fresh _) ?_
    simp only [span]
    split <;> omega
  constructor
  · intro address
    rw [hadoptions]
    exact hone address
  · intro address hmem
    have hpos : 0 < adoptions (past ++ (releases w.focus).map .released) (some address) :=
      List.countP_pos_iff.2 ⟨_, hmem, decide_eq_true rfl⟩
    rw [hadoptions] at hpos
    rw [hdeletions]
    exact Nat.le_antisymm (hone address) hpos
  · intro address hmem
    rw [hdeletions, ← hadoptions]
    refine List.countP_eq_zero.2 fun e he hadopts ↦ hmem ?_
    cases e with
    | adopted address' =>
      obtain rfl := Option.some.inj (of_decide_eq_true hadopts)
      exact he
    | _ => exact absurd hadopts Bool.false_ne_true
  · rw [hdeletions]
    exact Nat.le_zero.1 (h.fresh none)

/-- The second registration is refused, and the manager that holds the first context is attached and
then dropped with the one that it is attached to. -/
example :
    (course Demo.code ⟨{}, {}⟩
      [.functionManager "fam", .moduleManager "mam", .builder "b",
        .onUnit .function (.register "fam" (some Demo.lengthKey) 0 (.owned "a" none) .boundary),
        .onUnit .function (.register "fam" (some Demo.lengthKey) 0 (.owned "b" none) .boundary),
        .setUp "b" "mam" "fam",
        .drop .moduleManager "mam"]).map
      (fun later ↦ later.1.filter fun e ↦ e.frees (some 0) || e.frees (some 1)) =
      some [.released ⟨some 1, none⟩, .released ⟨some 0, none⟩] := by
  decide +kernel

end Session

end ForeignPasses
