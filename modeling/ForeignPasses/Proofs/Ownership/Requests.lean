import ForeignPasses.Manager.Invalidate
import ForeignPasses.Proofs.Manager.Request
import ForeignPasses.Proofs.Ownership.Holdings

/-!
# Looking up keeps accounts

A look-up only adds results: what it computes is held by the manager from then on. It never nests
too deep, and no result is replaced, for an analysis that is being computed does not start again.
-/

namespace ForeignPasses

open Exec

namespace Manager

variable {S : Type} {m m' m'' : Manager S}

/-- Which analyses are there, and which of them are being computed. -/
def profile (m : Manager S) : Table Key Bool := m.analyses.mapValues fun _ r ↦ r.running

theorem profile_setRunning (key : Key) (running : Bool) :
    (m.setRunning key running).profile = m.profile.modify key fun _ ↦ running := by
  rw [Table.mk.injEq]
  change (m.analyses.entries.map _).map _ = (m.analyses.entries.map _).map _
  rw [List.map_map, List.map_map]
  apply List.map_congr_left
  intro e _
  by_cases hk : e.1 = key <;> simp [hk]

theorem profile_setAttached (inner : S) : (m.setAttached inner).profile = m.profile := by
  rw [Table.mk.injEq]
  change (m.analyses.entries.map _).map _ = m.analyses.entries.map _
  rw [List.map_map]
  apply List.map_congr_left
  intro e _
  by_cases hk : e.1 = .proxy <;> simp [hk]

theorem find?_profile (key : Key) :
    m.profile.find? key = (m.analyses.find? key).map Registered.running :=
  Table.find?_mapValues _ _ _

theorem profile_of_find? {key : Key} {analysis : Analysis S} {running : Bool}
    (h : m.analyses.find? key = some ⟨analysis, running⟩) :
    m.profile.find? key = some running := by
  rw [find?_profile, h, Option.map_some]

theorem idle_eq_total : m.idle = m.profile.total fun running ↦ if running then 0 else 1 := by
  have hcount : ∀ l : List (Key × Registered S),
      (l.map Prod.snd).countP (fun r ↦ !r.running) =
        (((l.map fun e ↦ (e.1, e.2.running)).map Prod.snd).map
          fun running ↦ if running then 0 else 1).sum := by
    intro l
    induction l with
    | nil => rfl
    | cons e l ih =>
      cases hrunning : e.2.running <;> simp_all [add_comm]
  exact hcount m.analyses.entries

theorem idle_eq (h : m'.profile = m.profile) : m'.idle = m.idle := by
  rw [idle_eq_total, idle_eq_total, h]

/-- An analysis that starts is not idle any more. -/
theorem idle_setRunning {key : Key} (h : m.profile.find? key = some false) :
    (m.setRunning key true).idle + 1 = m.idle := by
  rw [idle_eq_total, idle_eq_total, profile_setRunning, Table.total_modify,
    Table.total_eq m.profile key, h]
  simp [add_comm]

/-- A look-up leaves the same analyses at rest, and the results of those that are being computed as
they were. -/
structure Looked (m m' : Manager S) : Prop where
  profile_eq : m'.profile = m.profile
  busy : ∀ id key, m.profile.find? key = some true →
    m'.results.find? (id, key) = m.results.find? (id, key)

namespace Looked

theorem refl : m.Looked m := ⟨rfl, fun _ _ _ ↦ rfl⟩

/-- An analysis that was at rest is computed, and its result is kept. -/
theorem computed {key : Key} (hrest : m.profile.find? key = some false)
    (h : (m.setRunning key true).Looked m') (u : UnitId) (r : Result) :
    m.Looked { m'.setRunning key false with
      results := (m'.setRunning key false).results.insert (u, key) r } where
  profile_eq := by
    change (m'.setRunning key false).profile = m.profile
    rw [profile_setRunning, h.profile_eq, profile_setRunning, Table.modify_back _ _ hrest]
  busy id k hk := by
    have hne : k ≠ key := by
      rintro rfl
      rw [hrest] at hk
      contradiction
    have hbusy : (m.setRunning key true).profile.find? k = some true := by
      rw [profile_setRunning, Table.find?_modify, if_neg hne, hk]
    rw [Table.find?_insert, if_neg fun heq ↦ hne (Prod.mk.inj heq).2]
    exact h.busy id k hbusy

theorem trans (h : m.Looked m') (h' : m'.Looked m'') : m.Looked m'' where
  profile_eq := h'.profile_eq.trans h.profile_eq
  busy id key hkey := by
    rw [← h.profile_eq] at hkey
    rw [h'.busy id key hkey]
    rw [h.profile_eq] at hkey
    exact h.busy id key hkey

end Looked

end Manager

namespace Exec

variable {S α β : Type} [Account S] {n : Nat}

/-- A look-up, where fewer than `n` analyses are idle. -/
def Consults (n : Nat) (act : Exec (Manager S) α) : Prop :=
  ∀ w, w.focus.idle < n →
    act.Ensures w (fun _ w' ↦ Settles Role.Any w 0 w' 0 ∧ w.focus.Looked w'.focus)
      (Excused True fun w' ↦ Settles Role.Any w 0 w' 0)

namespace Consults

theorem keeps {act : Exec (Manager S) α} (h : ∀ n, act.Consults n) :
    act.Keeps Role.Any True 0 fun _ ↦ 0 :=
  fun w ↦ (h _ w (Nat.lt_succ_self _)).mono (fun _ _ h ↦ h.1) fun _ _ h ↦ h

/-- An action that keeps accounts and leaves the manager as it is. -/
theorem of_still {act : Exec (Manager S) α} (h : act.Keeps Role.Any True 0 fun _ ↦ 0)
    (hstill : ∀ w, act.Ensures w (fun _ w' ↦ w'.focus = w.focus) fun _ _ ↦ True) :
    act.Consults n := by
  intro w _
  refine ((h w).and (hstill w)).mono ?_ fun _ _ h ↦ h.1
  rintro a w' ⟨hsettles, hfocus⟩
  exact ⟨hsettles, hfocus ▸ .refl⟩

theorem trace (message : String) : (trace message : Exec (Manager S) Unit).Consults n :=
  of_still (keeps_trace message) fun _ ↦ rfl

theorem pure (a : α) : (Pure.pure a : Exec (Manager S) α).Consults n :=
  fun _ _ ↦ ⟨Ledger.refl, .refl⟩

theorem map {act : Exec (Manager S) β} (f : β → α) (h : act.Consults n) : (f <$> act).Consults n :=
  fun w hidle ↦ (ensures_map act f).2 (h w hidle)

theorem fatal (error : BoundaryError) : (fatal error : Exec (Manager S) α).Consults n :=
  fun _ _ ↦ trivial

theorem bind {act : Exec (Manager S) β} {f : β → Exec (Manager S) α} (h : act.Consults n)
    (hf : ∀ b, (f b).Consults n) : (act >>= f).Consults n := by
  intro w hidle
  rw [ensures_bind]
  refine (h w hidle).mono ?_ fun _ _ h ↦ h
  rintro b w₁ ⟨hsettles, hlooked⟩
  rw [← Manager.idle_eq hlooked.profile_eq] at hidle
  refine (hf b w₁ hidle).mono ?_ ?_
  · rintro a w₂ ⟨hsettles', hlooked'⟩
    exact ⟨hsettles.trans hsettles', hlooked.trans hlooked'⟩
  · intro e w₂ hexcused
    exact hexcused.mono id fun hsettles' ↦ hsettles.trans hsettles'

theorem run {Q : Type} {A : Q → Type} {answer : (q : Q) → Exec (Manager S) (A q)}
    (hanswer : ∀ q, (answer q).Consults n) (p : Program Q A α) :
    Consults n (p.run answer) := by
  induction p with
  | done a => exact pure a
  | ask q next ih => exact (hanswer q).bind ih

theorem boundary {act : Exec (Manager S) α} (h : act.Consults n) : (boundary act).Consults n := by
  intro w hidle
  rw [ensures_boundary]
  refine (h w hidle).mono (fun _ _ h ↦ h) ?_
  intro e w' hexcused
  cases e with
  | panicked p => trivial
  | crashed p => trivial
  | fatal error => trivial
  | exhausted => exact hexcused

theorem withKey {act : Exec (Manager S) α} (h : act.Consults n) (kind : Kind) (key : Key) :
    (withKey kind key act).Consults n := by
  intro w hidle
  have hkeeps : (Exec.withKey kind key act).KeepsAt Role.Any True w 0 fun _ ↦ 0 := by
    apply KeepsAt.withKey
    refine Ensures.mono (h _ ?_) (fun _ _ h ↦ h.1) fun _ _ h ↦ h
    exact hidle
  have hlooked : (Exec.withKey kind key act).Ensures w (fun _ w' ↦ w.focus.Looked w'.focus)
      fun _ _ ↦ True := by
    rw [ensures_withKey]
    refine Ensures.mono (h _ ?_) (fun _ _ h ↦ h.2) fun _ _ _ ↦ trivial
    exact hidle
  exact (Ensures.and hkeeps hlooked).mono (fun _ _ h ↦ h) fun _ _ h ↦ h.1

end Consults

end Exec

namespace Tier

variable {β I S : Type} [Account S] {tier : Tier β I S} {n : Nat}

theorem consults_expect (f : Flavour) (r : Result) :
    (f.expect r : Exec (Manager S) f.Answer).Consults n := by
  rw [Flavour.expect]
  cases f.receive r with
  | some a => exact .pure a
  | none => exact fun _ _ ↦ ⟨trivial, Ledger.refl⟩

theorem consults_resolve (f : Flavour) :
    (f.resolve tier.access.kind : Exec (Manager S) Key).Consults n := by
  cases f with
  | foreign =>
    intro w _
    refine (ensures_identity tier.access.kind).2 ?_
    cases (w.shared.slot tier.access.kind).current with
    | none => exact ⟨trivial, Ledger.refl⟩
    | some key => exact ⟨Ledger.refl, .refl⟩
  | native index => exact .pure _
  | attached => exact .pure _

section Requests

variable {answer : (q : Inquiry β I) → Exec (Manager S) q.Answer}
  (hanswer : ∀ q, (answer q).Consults n)

include hanswer

/-- What an analysis hands over is in hand. -/
theorem ensures_compute_settles (u : CodeUnit β) (analysis : Analysis S) {w : World (Manager S)}
    (hidle : w.focus.idle < n) :
    (tier.access.compute answer u analysis).Ensures w
      (fun r w' ↦ Settles Role.Any w 0 w' (tally (releases r)) ∧ w.focus.Looked w'.focus)
      (Excused True fun w' ↦ Settles Role.Any w 0 w' 0) := by
  cases analysis with
  | foreign entry context =>
    simp only [Access.compute]
    rw [ensures_bind]
    refine ((Consults.run hanswer _).boundary w hidle).mono ?_ fun _ _ h ↦ h
    rintro value w₁ ⟨hsettles, hlooked⟩
    rw [ensures_bind]
    have hstill : (adopt value).Ensures w₁ (fun _ w' ↦ w'.focus = w₁.focus) fun _ _ ↦ True := rfl
    refine (((keeps_adopt value w₁).after hsettles).and hstill).mono ?_ fun _ _ h ↦ h.1
    rintro owned w₂ ⟨hsettles', hfocus⟩
    exact ⟨hsettles', hfocus ▸ hlooked⟩
  | native entry =>
    simp only [Access.compute]
    rw [ensures_bind]
    exact Consults.run hanswer _ w hidle
  | attached inner => exact ⟨Ledger.refl, .refl⟩

omit hanswer in
/-- A result is kept where there was none. -/
theorem keepsAt_keep {u : CodeUnit β} {key : Key} (w : World (Manager S))
    (hfind : w.focus.results.find? (u.id, key) = none) (r : Result) :
    (tier.access.keep u key r).KeepsAt Role.Any True w (tally (releases r)) fun _ ↦ 0 := by
  have hinsert := w.focus.holding_insert_result u.id key r
  have hnothing : tally (releases (none : Option Result)) = 0 := rfl
  rw [hfind, hnothing, resultAt_zero, add_zero] at hinsert
  have hmodify : (tier.access.modifyHeld fun m ↦
      { m with results := m.results.insert (u.id, key) r }).KeepsAt Role.Any True w
        (tally (releases r)) fun _ ↦ 0 := by
    apply keepsAt_modifyFocus
    · intro x
      have hheld : held (tier.access.setManager w.focus
          { w.focus with results := w.focus.results.insert (u.id, key) r }) =
            held w.focus + tally (releases r) := by
        change Holding.sum (holding ({ w.focus with results := _ } : Manager S)) = _
        rw [hinsert, Holding.sum_add]
        exact congrArg (held w.focus + ·) (sum_resultAt _ _ _)
      exact congrFun hheld x
    · intro role _ x
      have hrole := congrFun (congrFun hinsert role) x
      exact hrole ▸ Nat.le_add_right _ _
  simp only [KeepsAt, Access.keep, ensures_bind, Access.ensures_held] at hmodify ⊢
  refine Ensures.mono hmodify ?_ fun _ _ h ↦ h
  intro _ w' hsettles
  change Ensures (discard (w.focus.results.find? (u.id, key))) _ _ _
  rw [hfind]
  have hdiscard : (discard (none : Option Result) : Exec (Manager S) Unit).Keeps Role.Any True
      (tally [] + 0) fun _ ↦ 0 := keeps_release []
  exact (hdiscard w').after hsettles

omit hanswer in
/-- When an analysis is done, its result is kept. -/
theorem ensures_keep_looked {u : CodeUnit β} {key : Key} {w w₁ : World (Manager S)} {r : Result}
    (hfind : w.focus.results.find? (u.id, key) = none)
    (hrest : w.focus.profile.find? key = some false)
    (hsettles : Settles Role.Any w 0 w₁ (tally (releases r)))
    (hlooked : (w.focus.setRunning key true).Looked w₁.focus) :
    (tier.access.keep u key r).Ensures ⟨w₁.shared, w₁.focus.setRunning key false⟩
      (fun _ w' ↦ Settles Role.Any w 0 w' 0 ∧ w.focus.Looked w'.focus)
      (Excused True fun w' ↦ Settles Role.Any w 0 w' 0) := by
  have hbusy : (w.focus.setRunning key true).profile.find? key = some true := by
    rw [Manager.profile_setRunning, Table.find?_modify, if_pos rfl, hrest]
    rfl
  have hnone : w₁.focus.results.find? (u.id, key) = none :=
    (hlooked.busy u.id key hbusy).trans hfind
  have hstop : Settles Role.Any w₁ (tally (releases r))
      ⟨w₁.shared, w₁.focus.setRunning key false⟩ (tally (releases r)) :=
    Settles.of_eq (Manager.holding_setRunning _ _ _) rfl
  have hkeep : (tier.access.keep u key r).KeepsAt Role.Any True
      ⟨w₁.shared, w₁.focus.setRunning key false⟩ (tally (releases r)) fun _ ↦ 0 :=
    keepsAt_keep ⟨w₁.shared, w₁.focus.setRunning key false⟩ hnone r
  have hfocus : (tier.access.keep u key r).Ensures ⟨w₁.shared, w₁.focus.setRunning key false⟩
      (fun _ w' ↦ w'.focus = { w₁.focus.setRunning key false with
        results := (w₁.focus.setRunning key false).results.insert (u.id, key) r })
      fun _ _ ↦ True := rfl
  refine ((hkeep.after (hsettles.trans hstop)).and hfocus).mono ?_ fun _ _ h ↦ h.1
  rintro _ w' ⟨hsettles', hfocus'⟩
  exact ⟨hsettles', hfocus' ▸ Manager.Looked.computed hrest hlooked u.id r⟩

/-- A request adds its result, if it was not there. -/
theorem consults_requestAt (f : Flavour) (key : Key) (u : CodeUnit β) :
    (tier.access.requestAt answer f key u).Consults (n + 1) := by
  intro w hidle
  apply Access.ensures_requestAt_of
  case hfound =>
    intro r message _
    exact (Consults.trace message).bind (fun _ ↦ consults_expect f r) w hidle
  case hunregistered => exact fun _ _ ↦ ⟨trivial, Ledger.refl⟩
  case hrunning =>
    exact fun _ _ _ _ ↦ ⟨trivial, Settles.of_eq rfl (books_aside _ (Event.aside_log _ _))⟩
  case hresting =>
    intro analysis message (hfind : w.focus.results.find? (u.id, key) = none)
      (hanalysis : w.focus.analyses.find? key = some ⟨analysis, false⟩)
    have hrest : w.focus.profile.find? key = some false := Manager.profile_of_find? hanalysis
    have hless := Manager.idle_setRunning hrest
    have hstart : Settles Role.Any w 0
        ⟨(Access.traced w message).shared, w.focus.setRunning key true⟩ 0 :=
      Settles.of_eq (Manager.holding_setRunning _ _ _) (books_aside _ (Event.aside_log _ _))
    refine Ensures.mono (ensures_compute_settles hanswer u analysis ?_) ?_ ?_
    · change (w.focus.setRunning key true).idle < n
      omega
    · rintro r w₁ ⟨hsettles, hlooked⟩
      rw [ensures_bind]
      have hkept : (tier.access.keep u key r).Ensures
          ⟨w₁.shared, w₁.focus.setRunning key false⟩ _ _ :=
        ensures_keep_looked hfind hrest (hstart.trans hsettles) hlooked
      refine hkept.mono ?_ fun _ _ h ↦ h
      rintro _ w₂ ⟨hsettles₂, hlooked₂⟩
      refine (consults_expect f r w₂ (Nat.lt_succ_self _)).mono ?_ ?_
      · rintro a w' ⟨hsettles', hlooked'⟩
        exact ⟨hsettles₂.trans hsettles', hlooked₂.trans hlooked'⟩
      · intro e w' hexcused
        exact hexcused.mono id fun hsettles' ↦ hsettles₂.trans hsettles'
    · intro e w₁ hexcused
      refine hexcused.mono id fun hsettles ↦ ?_
      have hstop : Settles Role.Any w₁ 0 ⟨w₁.shared, w₁.focus.setRunning key false⟩ 0 :=
        Settles.of_eq (Manager.holding_setRunning _ _ _) rfl
      exact hstart.trans (hsettles.trans hstop)

theorem consults_request (f : Flavour) (u : CodeUnit β) :
    (tier.access.request answer f u).Consults (n + 1) :=
  (consults_resolve f).bind fun key ↦ consults_requestAt hanswer f key u

end Requests

/-! ## Answers -/

theorem consults_cachedAt (f : Flavour) (key : Key) (u : CodeUnit β) :
    (tier.access.cachedAt f key u).Consults n := by
  intro w hidle
  simp only [Access.cachedAt, ensures_bind, Access.ensures_held]
  cases (tier.access.manager w.focus).results.find? (u.id, key) with
  | some r => exact (consults_expect f r).map some w hidle
  | none => exact ⟨Ledger.refl, .refl⟩

theorem consults_cached (f : Flavour) (u : CodeUnit β) : (tier.access.cached f u).Consults n :=
  (consults_resolve f).bind fun key ↦ consults_cachedAt f key u

theorem consults_foreignCached (u : CodeUnit β) (key : Key) :
    (tier.access.foreignCached u key).Consults n :=
  (consults_cached .foreign u).withKey tier.kind key

theorem consults_boundaryCached (u : CodeUnit β) (key : Option Key) :
    (tier.access.boundaryCached u key).Consults n := by
  cases key with
  | none => exact .fatal _
  | some key => exact (consults_foreignCached u key).boundary

/-- Working on the attached manager. -/
theorem keeps_onAttached {α : Type} {kept : Role → Prop} {act : Exec S α}
    (h : act.Keeps kept True 0 fun _ ↦ 0) :
    (onAttached act : Exec (Manager S) α).Keeps kept True 0 fun _ ↦ 0 := by
  intro w
  simp only [KeepsAt, onAttached, ensures_bind, ensures_focus]
  cases hattached : w.focus.attached? with
  | none => exact ⟨trivial, Ledger.refl⟩
  | some inner =>
    exact (h ⟨w.shared, inner⟩).zoom fun t ↦ w.focus.holding_setAttached hattached t

theorem consults_onAttached {α : Type} {act : Exec S α}
    (h : act.Keeps Role.Any True 0 fun _ ↦ 0) : (onAttached act).Consults n := by
  intro w _
  have hlooked : (onAttached act).Ensures w (fun _ w' ↦ w.focus.Looked w'.focus)
      fun _ _ ↦ True := by
    apply ensures_onAttached_of
    case hnone => exact fun _ ↦ trivial
    case hsome =>
      intro inner _
      refine (Ensures.trivial act _).mono ?_ fun _ _ _ ↦ trivial
      intro _ w' _
      exact ⟨Manager.profile_setAttached w'.focus, fun _ _ _ ↦ rfl⟩
  exact (Ensures.and (keeps_onAttached h w) hlooked).mono (fun _ _ h ↦ h) fun _ _ h ↦ h.1

/-- What is done only if a key is registered. -/
theorem consults_registered {α : Type} (key : Key) (error : BoundaryError)
    {act : Exec (Manager S) α} (h : act.Consults n) :
    (do
      unless (← tier.access.held).isRegistered key do fatal error
      act).Consults n := by
  intro w hidle
  simp only [ensures_bind, Access.ensures_held]
  cases (tier.access.manager w.focus).isRegistered key with
  | true => exact h w hidle
  | false => trivial

section Answers

variable {fetch : Fetch (Manager S) β} (hfetch : ∀ f u, (fetch f u).Consults n)

include hfetch

theorem consults_foreignResult (u : CodeUnit β) (key : Key) :
    (tier.access.foreignResult fetch u key).Consults n :=
  (hfetch .foreign u).withKey tier.kind key

theorem consults_boundaryResult (u : CodeUnit β) (key : Option Key) :
    (tier.access.boundaryResult fetch u key).Consults n := by
  cases key with
  | none => exact .fatal _
  | some key => exact (consults_registered key _ (consults_foreignResult hfetch u key)).boundary

theorem consults_boundaryAttached (u : CodeUnit β) :
    (tier.access.boundaryAttached fetch u).Consults n :=
  (consults_registered .proxy _ (hfetch .attached u)).boundary

theorem consults_answer (hwithin : ∀ inner, (tier.within inner).Keeps Role.Any True 0 fun _ ↦ 0)
    (q : Inquiry β I) : (tier.answer fetch q).Consults n := by
  cases q with
  | say text => exact .of_still (keeps_note text) fun _ ↦ rfl
  | identities => exact fun _ _ ↦ ⟨Ledger.refl, .refl⟩
  | result u key => exact (consults_boundaryResult hfetch u key).bind fun _ ↦ .pure _
  | cached u key => exact (consults_boundaryCached u key).bind fun _ ↦ .pure _
  | native u index => exact hfetch (.native index) u
  | within u inner =>
    exact (consults_boundaryAttached hfetch u).bind fun _ ↦ consults_onAttached (hwithin inner)

end Answers

/-! ## Nested requests -/

section Fetching

variable (hwithin : ∀ inner, (tier.within inner).Keeps Role.Any True 0 fun _ ↦ 0)

include hwithin

/-- Every computation leaves one analysis less at rest, so the depth is enough. -/
theorem consults_fetchWithin (depth : Nat) (f : Flavour) (u : CodeUnit β) :
    (tier.fetchWithin depth f u).Consults (depth + 1) := by
  induction depth generalizing f u with
  | zero =>
    apply consults_request
    intro q w hidle
    exact absurd hidle (Nat.not_lt_zero _)
  | succ depth ih =>
    apply consults_request
    exact consults_answer ih hwithin

theorem consults_fetch (f : Flavour) (u : CodeUnit β) : (tier.fetch f u).Consults n := by
  intro w _
  rw [ensures_fetch]
  exact consults_fetchWithin hwithin _ f u w (Nat.lt_succ_self _)

theorem keeps_answer (q : Inquiry β I) :
    (tier.answer tier.fetch q).Keeps Role.Any True 0 fun _ ↦ 0 :=
  Consults.keeps fun _ ↦ consults_answer (consults_fetch hwithin) hwithin q

end Fetching

end Tier

namespace Code

variable (code : Code)

theorem keeps_functionWithin (inner : Empty) :
    (code.functionTier.within inner).Keeps Role.Any True 0 fun _ ↦ 0 :=
  inner.elim

theorem keeps_moduleWithin (inner : FunctionInquest) :
    (code.moduleTier.within inner).Keeps Role.Any True 0 fun _ ↦ 0 :=
  Keeps.run (Tier.keeps_answer code.keeps_functionWithin) inner

end Code

end ForeignPasses
