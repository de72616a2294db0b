import ForeignPasses.Proofs.Pipeline.Elaboration

/-!
# Where elaborating stops

A text that cannot be read changes nothing. If a name in it is not known, the stations in front of
that name have added their passes, and these stay; the station with the name in it adds nothing,
even if it is an adapter in which other names are known.
-/

namespace ForeignPasses

open Exec

/-- Reading knows no names. -/
theorem Pipeline.parse_ne_unknownPass (text name : String) :
    parse text ≠ .error (.unknownPass name) := by
  rw [parse]
  cases parseChars text.toList with
  | ok elements => exact fun h ↦ nomatch h
  | error stop => cases stop <;> exact fun h ↦ nomatch Except.error.inj h

theorem Pipeline.parse_of_parseChars {text : String} {elements : List Element}
    (h : parseChars text.toList = .ok elements) : parse text = .ok elements := by
  rw [parse, h]
  rfl

namespace Builder

variable {code : Code} {b : Builder}

/-! ## Single stations -/

theorem ensures_elaborateFunction (e : Element) (w : World FunctionPipeline) :
    (b.elaborateFunction code e).Ensures w
      (fun outcome _ ↦ ∀ error, outcome = .error error → error = .unknownPass e.name)
      fun _ _ ↦ False := by
  rw [elaborateFunction, ensures_bind]
  refine (ensures_offer _ w).mono ?_ fun _ _ h ↦ h
  intro found w' _
  cases found with
  | true => exact fun error h ↦ nomatch h
  | false => exact fun error h ↦ (Except.error.inj h).symm

theorem ensures_elaborateFunctions (elements : List Element) (w : World FunctionPipeline) :
    (b.elaborateFunctions code elements).Ensures w
      (fun outcome _ ↦ ∀ error, outcome = .error error →
        ∃ e ∈ elements, error = .unknownPass e.name)
      fun _ _ ↦ False := by
  refine (ensures_elaborateFunctions_inTurn ensures_elaborateFunction elements w).mono ?_
    fun _ _ h ↦ h
  intro outcome w' hturn
  induction hturn with
  | nil => exact fun error h ↦ nomatch h
  | stop h => exact fun error herror ↦ ⟨_, by simp, h error herror⟩
  | next _ _ ih =>
    intro error herror
    obtain ⟨e', he', hname⟩ := ih error herror
    exact ⟨e', List.mem_cons_of_mem _ he', hname⟩

/-- A station adds passes, or a name in it is not known and nothing is added. -/
def Settles (e : Element) (outcome : Except Pipeline.Error Unit) (w w' : World ModulePipeline) :
    Prop :=
  match outcome with
  | .ok () => ∃ added, added ≠ [] ∧ w'.focus = w.focus ++ added
  | .error error => w'.focus = w.focus ∧ ∃ place ∈ e.offered, error = .unknownPass place.2.name

/-- What an adapter built apart comes to; `w` is the world in which it was begun. -/
theorem ensures_adaptOrDrop_settles {e : Element} {outcome : Except Pipeline.Error Unit}
    (houtcome : ∀ error, outcome = .error error →
      ∃ place ∈ e.offered, error = .unknownPass place.2.name)
    (passes : FunctionPipeline) {w w₁ : World ModulePipeline} (hsame : w₁.focus = w.focus) :
    (adaptOrDrop passes outcome).Ensures w₁ (fun outcome' w' ↦ Settles e outcome' w w')
      fun _ _ ↦ False := by
  refine (ensures_adaptOrDrop passes outcome w₁).mono ?_ fun _ _ h ↦ h
  intro outcome' w' h
  obtain ⟨hsameOutcome, -, hfocus⟩ := h
  rw [hsameOutcome]
  rw [hsame] at hfocus
  cases outcome with
  | ok _ => exact ⟨[.perFunction passes], by simp, hfocus⟩
  | error error => exact ⟨hfocus.trans (List.append_nil _), houtcome error rfl⟩

theorem ensures_elaborate_settles (hb : b.Faithful code) {e : Element} (hgroup : ¬e.IsGroup)
    (w : World ModulePipeline) :
    (b.elaborate code e).Ensures w (fun outcome w' ↦ Settles e outcome w w') fun _ _ ↦ False := by
  by_cases hadapter : e.IsAdapter
  · rw [elaborate_adapter hadapter, ensures_bind, ensures_building]
    refine (ensures_elaborateFunctions e.children _).mono ?_ fun _ _ h ↦ h
    intro outcome w₁ houtcome
    refine ensures_adaptOrDrop_settles (fun error herror ↦ ?_) _ rfl
    obtain ⟨child, hchild, hname⟩ := houtcome error herror
    refine ⟨(.function, child), ?_, hname⟩
    rw [Element.offered, if_pos hadapter]
    exact List.mem_map_of_mem hchild
  · have hoffered : (Kind.module, e) ∈ e.offered := by simp [Element.offered, hadapter]
    rw [elaborate_name hgroup hadapter, ensures_bind]
    refine ((ensures_offer _ w).and (ensures_offer_faithful (hb .module) w)).mono ?_
      fun _ _ h ↦ h.1
    rintro found w₁ ⟨hgrows, hfound⟩
    cases found with
    | true =>
      obtain ⟨added, hadded⟩ := hgrows.passes
      refine ⟨added, ?_, hadded⟩
      rintro rfl
      exact hfound.1 rfl (hadded.trans (List.append_nil _))
    | false =>
      have hsame : w₁.focus = w.focus := by simpa using hfound
      change Ensures (building _ >>= _) w₁ _ _
      rw [ensures_bind, ensures_building]
      refine (ensures_offer _ _).mono ?_ fun _ _ h ↦ h
      intro found w₂ _
      refine ensures_adaptOrDrop_settles (fun error herror ↦ ⟨(.module, e), hoffered, ?_⟩) _ hsame
      cases found with
      | true => exact nomatch herror
      | false => exact (Except.error.inj herror).symm

/-! ## Stations one after the other -/

/-- Stations were elaborated, and each of them has added passes. -/
structure Contributes (code : Code) (b : Builder) (stations : List Element)
    (added : List ModulePipeline) (w w' : World ModulePipeline) : Prop where
  run : b.elaborateAll code stations w = .ok (.ok ()) w'
  length_eq : added.length = stations.length
  ne_nil : ∀ passes ∈ added, passes ≠ []
  focus_eq : w'.focus = w.focus ++ added.flatten

namespace Contributes

variable {stations : List Element} {added : List ModulePipeline}
  {w w₁ w' : World ModulePipeline}

theorem nil (w : World ModulePipeline) : Contributes code b [] [] w w where
  run := by rw [elaborateAll]; rfl
  length_eq := rfl
  ne_nil := by simp
  focus_eq := by simp

theorem cons {e : Element} {passes : ModulePipeline} (he : b.elaborate code e w = .ok (.ok ()) w₁)
    (hne : passes ≠ []) (hfocus : w₁.focus = w.focus ++ passes)
    (hrest : Contributes code b stations added w₁ w') :
    Contributes code b (e :: stations) (passes :: added) w w' where
  run := by
    rw [elaborateAll]
    change EStateM.bind _ _ w = _
    rw [EStateM.bind, he]
    exact hrest.run
  length_eq := congrArg Nat.succ hrest.length_eq
  ne_nil := List.forall_mem_cons.2 ⟨hne, hrest.ne_nil⟩
  focus_eq := by rw [hrest.focus_eq, hfocus, List.append_assoc, List.flatten_cons]

/-- Every station leaves a trace, so nothing has changed only if there were none. -/
theorem focus_eq_iff (h : Contributes code b stations added w w') :
    w'.focus = w.focus ↔ stations = [] := by
  rw [h.focus_eq, List.append_right_eq_self, List.flatten_eq_nil_iff,
    ← List.length_eq_zero_iff (l := stations), ← h.length_eq, List.length_eq_zero_iff]
  constructor
  · intro hnil
    exact List.eq_nil_iff_forall_not_mem.2 fun passes hpasses ↦
      h.ne_nil passes hpasses (hnil passes hpasses)
  · rintro rfl
    simp

end Contributes

/-- Elaborating stations ended at one with a name in it that is not known: those of `before` have
added their passes, and after them nothing has changed. -/
inductive StopsBehind (code : Code) (b : Builder) (stations before : List Element) (name : String)
    (w w' : World ModulePipeline) : Prop where
  | intro {e : Element} {after : List Element} {added : List ModulePipeline}
      {w₁ : World ModulePipeline} (hstations : stations = before ++ e :: after)
      (hname : ∃ place ∈ e.offered, name = place.2.name)
      (hbefore : Contributes code b before added w w₁)
      (hfails : b.elaborate code e w₁ = .ok (.error (.unknownPass name)) w')
      (hfocus : w'.focus = w₁.focus)

namespace StopsBehind

variable {e : Element} {stations before : List Element} {name : String}
  {w w₁ w' : World ModulePipeline}

theorem first {place : Kind × Element} (rest : List Element)
    (hfails : b.elaborate code e w = .ok (.error (.unknownPass place.2.name)) w')
    (hplace : place ∈ e.offered) (hfocus : w'.focus = w.focus) :
    StopsBehind code b (e :: rest) [] place.2.name w w' :=
  ⟨rfl, ⟨place, hplace, rfl⟩, .nil w, hfails, hfocus⟩

theorem later {passes : ModulePipeline} (he : b.elaborate code e w = .ok (.ok ()) w₁)
    (hne : passes ≠ []) (hfocus : w₁.focus = w.focus ++ passes)
    (hrest : StopsBehind code b stations before name w₁ w') :
    StopsBehind code b (e :: stations) (e :: before) name w w' := by
  obtain ⟨rfl, hname, hbefore, hfails, hsame⟩ := hrest
  exact ⟨rfl, hname, hbefore.cons he hne hfocus, hfails, hsame⟩

/-- What was there before is all that is there only if the first station is the one. -/
theorem focus_eq_iff (h : StopsBehind code b stations before name w w') :
    w'.focus = w.focus ↔ before = [] := by
  obtain ⟨-, -, hbefore, -, hsame⟩ := h
  rw [hsame]
  exact hbefore.focus_eq_iff

end StopsBehind

/-- Stations are elaborated up to the first with a name in it that is not known. -/
theorem ensures_elaborateAll_stops (hb : b.Faithful code) {stations : List Element}
    (hstations : ∀ e ∈ stations, ¬e.IsGroup) (w : World ModulePipeline) :
    (b.elaborateAll code stations).Ensures w
      (fun outcome w' ↦ ∀ error, outcome = .error error →
        ∃ name before, error = .unknownPass name ∧ StopsBehind code b stations before name w w')
      fun _ _ ↦ False := by
  -- The run itself is kept beside what it adds: `Contributes` is about the actual worlds between.
  have hstep (e : Element) (he : e ∈ stations) (w : World ModulePipeline) :
      (b.elaborate code e).Ensures w
        (fun outcome w' ↦ Settles e outcome w w' ∧ b.elaborate code e w = .ok outcome w')
        fun _ _ ↦ False :=
    ((ensures_elaborate_settles hb (hstations e he) w).and (.trivial _ w)).mono (fun _ _ h ↦ h)
      fun _ _ h ↦ h.1
  refine (ensures_elaborateAll_inTurn hstep w).mono ?_ fun _ _ h ↦ h
  clear hstations hstep
  intro outcome w' hturn
  induction hturn with
  | nil => exact fun error h ↦ nomatch h
  | @stop e rest error w w' h =>
    obtain ⟨⟨hfocus, place, hplace, rfl⟩, hrun⟩ := h
    intro error' herror
    obtain rfl := Except.error.inj herror
    exact ⟨place.2.name, [], rfl, .first rest hrun hplace hfocus⟩
  | @next e rest outcome w w₁ w' h _ ih =>
    obtain ⟨⟨passes, hne, hfocus⟩, hrun⟩ := h
    intro error herror
    obtain ⟨name, before, hname, hstops⟩ := ih error herror
    exact ⟨name, e :: before, hname, hstops.later hrun hne hfocus⟩

/-- A text that cannot be read changes nothing. A name that is not known leaves the passes of the
stations in front of its own, each of which has added some, and nothing of its own station. -/
theorem elaborateText_stops (hb : b.Faithful code) (text : String) (w : World ModulePipeline) :
    (b.elaborateText code text).Ensures w
      (fun outcome w' ↦
        match outcome with
        | .ok () => True
        | .error (.unknownPass name) =>
          ∃ elements before, Pipeline.parse text = .ok elements ∧
            StopsBehind code b (Element.stationsOf elements) before name w w' ∧
            (w'.focus = w.focus ↔ before = [])
        | .error _ => w' = w)
      fun _ _ ↦ False := by
  rw [elaborateText]
  cases hparse : Pipeline.parse text with
  | error error =>
    cases error with
    | unknownPass name => exact absurd hparse (Pipeline.parse_ne_unknownPass text name)
    | emptyName _ | unbalancedParens _ => exact rfl
  | ok elements =>
    change Ensures (b.elaborateAll code elements) _ _ _
    -- Groups disappear, so that `before` counts what is inside of them.
    rw [← elaborateAll_stationsOf elements]
    refine (ensures_elaborateAll_stops hb (Element.not_isGroup_of_mem_stationsOf elements) w).mono
      ?_ fun _ _ h ↦ h
    intro outcome w' h
    cases outcome with
    | ok _ => trivial
    | error error =>
      obtain ⟨name, before, rfl, hstops⟩ := h error rfl
      exact ⟨elements, before, rfl, hstops, hstops.focus_eq_iff⟩

end Builder

namespace Demo

theorem faithful_loaded : loaded.Faithful code := by
  intro kind hook hhook
  cases kind <;> rw [List.mem_singleton.1 hhook] <;> exact Hook.faithful_registry code _

theorem elaborateText_stops_stripNops :
    ∃ w', loaded.elaborateText code "strip-nops,bar" ⟨registered, []⟩ =
        .ok (.error (.unknownPass "bar")) w' ∧
      ∃ elements before, Pipeline.parse "strip-nops,bar" = .ok elements ∧
        Builder.StopsBehind code loaded (Element.stationsOf elements) before "bar"
          ⟨registered, []⟩ w' ∧
        (w'.focus = [] ↔ before = []) := by
  have hrun : (loaded.elaborateText code "strip-nops,bar").Ensures ⟨registered, []⟩
      (fun outcome _ ↦ outcome = .error (.unknownPass "bar")) fun _ _ ↦ False := by
    have hparse : Pipeline.parse "strip-nops,bar" = .ok [.mk "strip-nops" [], .mk "bar" []] :=
      Pipeline.parse_of_parseChars (by cbv)
    rw [Builder.elaborateText, hparse]
    exact rfl
  have hstops := Builder.elaborateText_stops faithful_loaded "strip-nops,bar" ⟨registered, []⟩
  obtain ⟨_, w', hact, hstopped, rfl⟩ := (hstops.and hrun).exists_ok fun _ _ h ↦ h.1
  exact ⟨w', hact, hstopped⟩

/-- Its last name is not known, and still its first pass is there. -/
theorem elaborateText_leaves_printStats :
    loaded.Faithful code ∧
      (loaded.elaborateText code "print-stats,bar").Ensures ⟨registered, []⟩
        (fun outcome w' ↦
          outcome = .error (.unknownPass "bar") ∧ w'.focus.map Pass.name = ["print-stats"])
        fun _ _ ↦ False := by
  have hparse : Pipeline.parse "print-stats,bar" = .ok [.mk "print-stats" [], .mk "bar" []] :=
    Pipeline.parse_of_parseChars (by cbv)
  rw [Builder.elaborateText, hparse]
  exact ⟨faithful_loaded, rfl, rfl⟩

end Demo

end ForeignPasses
