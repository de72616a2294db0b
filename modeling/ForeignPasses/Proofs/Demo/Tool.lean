import ForeignPasses.Proofs.Demo.Statistics
import ForeignPasses.Proofs.Pipeline.Loading

/-!
# The tool from end to end

The tool registers its analyses and passes, loads its own plugin, fills two managers and runs the
pipeline over the sample. Nothing of the preparations is heard, so what a textual pipeline makes of
the sample is all that is printed, and a text that is rejected prints nothing.
-/

namespace ForeignPasses.Demo

open Exec

/-! ## Preparations -/

/-- What the plugin has registered. -/
def outfit : Kind → Registry
  | .module =>
    { unit := Kind.module.name
      passes := Table.insert ∅ "print-stats" printStats
      analyses := Table.insert ∅ instructionCount 0 }
  | .function =>
    { unit := Kind.function.name
      passes := Table.insert ∅ "strip-nops" stripNops
      analyses := Table.insert ∅ lengthKey 0 }

theorem knowing_outfit : Knowing outfit where
  module name := by simp only [Registry.pass?, outfit, Table.find?_insert]; rfl
  function name := by simp only [Registry.pass?, outfit, Table.find?_insert]; rfl

theorem nameOf_stripNops : nameOf "strip-nops".toUTF8 = "strip-nops" := by decide +kernel

theorem nameOf_printStats : nameOf "print-stats".toUTF8 = "print-stats" := by decide +kernel

theorem ensures_register {w : World Unit} (hw : w.shared = {}) :
    register.Ensures w
      (fun _ w' ↦ w'.shared.registry = outfit ∧ ({} : Shared).Utters [] w'.shared)
      fun _ _ ↦ False := by
  obtain ⟨s, _⟩ := w
  obtain rfl : s = {} := hw
  simp only [register, boundaryAnalysis, boundaryPass, enterAnalysis, enterPass, nameOf_stripNops,
    nameOf_printStats, ensures_bind, Registry.ensures_enter]
  have hsilent (a b c d : String) :
      ∀ e ∈ [Event.log .debug a, .log .debug b, .log .debug c, .log .debug d], e.Silent := by
    simp [Event.Silent, Event.line?, Verbosity.shows]
  exact ⟨funext fun kind ↦ by cases kind <;> rfl, .of_silent (hsilent _ _ _ _) rfl⟩

section Temporarily

variable {σ α : Type} {w : World Unit} {post : α × σ → World Unit → Prop}
  {halted : Halt → World Unit → Prop}

theorem ensures_temporarily (s : σ) (act : Exec σ α) :
    (temporarily s act).Ensures w post halted ↔
      act.Ensures ⟨w.shared, s⟩ (fun a w' ↦ post (a, w'.focus) ⟨w'.shared, ()⟩)
        (fun e w' ↦ halted e ⟨w'.shared, ()⟩) := by
  simp only [temporarily, ensures_zoom, ensures_bind, ensures_focus, ensures_pure]

end Temporarily

theorem ensures_subscribe_null (topic : Builder.Topic) (callback : Entry) (w : World Builder) :
    (Builder.subscribe topic callback .null).Ensures w
      (fun _ w' ↦ w'.focus = w.focus.add ⟨callback, .null⟩ topic ∧
        Builder.Quiet w.shared w'.shared)
      fun _ _ ↦ False := by
  simp only [Builder.subscribe, ensures_bind, ensures_adopt, ensures_debug, ensures_modifyFocus]
  refine ⟨rfl, funext fun kind ↦ by cases kind <;> rfl, .log .debug topic.description ?_⟩
  exact congrArg (· ++ _) (List.append_nil w.shared.events)

/-- The callbacks of the tool are not for names or analyses. -/
theorem plain_add {b : Builder} (hb : b.Plain) (s : Subscription) (point : ExtensionPoint) :
    (b.add s (.extension point)).Plain :=
  ⟨hb.parsing, hb.enrolment⟩

theorem plain_empty : ({} : Builder).Plain :=
  ⟨fun _ _ h ↦ (nomatch h), fun _ _ h ↦ (nomatch h)⟩

theorem ensures_builder (w : World Unit) :
    builder.Ensures w
      (fun loaded w' ↦ ∃ b, loaded = .ok b ∧ b.Loaded ∧ Builder.Quiet w.shared w'.shared)
      fun _ _ ↦ False := by
  rw [builder, ensures_bind, ensures_temporarily]
  simp only [ensures_bind]
  refine (ensures_subscribe_null _ addHello _).imp ?_
  rintro _ w₁ ⟨hfocus₁, hquiet₁⟩
  refine (ensures_subscribe_null _ addStripNops w₁).imp ?_
  rintro _ w₂ ⟨hfocus₂, hquiet₂⟩
  refine (ensures_subscribe_null _ addHello w₂).imp ?_
  rintro _ w₃ ⟨hfocus₃, hquiet₃⟩
  refine (Builder.ensures_load rfl w₃).imp ?_
  rintro _ w₄ ⟨rfl, hfocus₄, hquiet₄⟩
  have hplain : w₃.focus.Plain := by
    rw [hfocus₃, hfocus₂, hfocus₁]
    exact plain_add (plain_add (plain_add plain_empty _ _) _ _) _ _
  refine ⟨w₄.focus, rfl, ?_, ((hquiet₁.trans hquiet₂).trans hquiet₃).trans hquiet₄⟩
  rw [hfocus₄]
  exact hplain.plus

/-- Managers that nothing has been asked of count right, whatever there is to count. -/
theorem ensures_setUp {b : Builder} (hb : b.Loaded) {w : World ModuleManager}
    (hfocus : w.focus = {}) (hregistry : w.shared.registry = outfit) :
    (b.setUp code {}).Ensures w
      (fun _ w' ↦ (∀ m, CountsRight m w'.focus) ∧ Builder.Quiet w.shared w'.shared)
      fun _ _ ↦ False := by
  refine (hb.ensures_setUp code {} w).imp ?_
  rintro _ w' ⟨hmanager, hquiet⟩
  rw [hfocus, hregistry] at hmanager hquiet
  refine ⟨fun m ↦ ?_, hquiet rfl⟩
  rw [hmanager]
  exact ⟨⟨_, rfl, rfl, fun _ _ _ hr ↦ (nomatch hr)⟩, fun _ hr ↦ (nomatch hr), fun _ hr ↦ (nomatch hr)⟩

theorem ensures_sample (w : World Unit) :
    sample.Ensures w
      (fun m w' ↦ (∃ id main helper, main ≠ helper ∧ m = sampleAs id main helper false) ∧
        Builder.Quiet w.shared w'.shared)
      fun _ _ ↦ False := by
  refine ⟨⟨_, _, _, Nat.ne_of_lt (Nat.lt_succ_self _), rfl⟩, ?_, .of_events_eq rfl⟩
  exact funext fun kind ↦ by cases kind <;> rfl

/-! ## Runs -/

/-- What the tool comes to, and what it has said. -/
inductive Finishes (s : Shared) :
    Except Pipeline.Error (List Deed) → Except String Module → Prop
  | rejected {error : Pipeline.Error} (h : ({} : Shared).Utters [] s) :
    Finishes s (.error error) (.error error.message)
  | done {deeds : List Deed} (id main helper : UnitId)
      (h : ({} : Shared).Utters (statistics false deeds) s) :
    Finishes s (.ok deeds) (.ok (sampleAs id main helper (decide (.strip ∈ deeds))))

theorem ensures_pipeline {b : Builder} (hb : b.Loaded) {options : Options} {text : String}
    (htext : options.passes = some text) (w : World Unit) :
    (pipeline b options).Ensures w
      (fun outcome w' ↦
        outcome = (Pipeline.resolve w.shared.registry text).2.map
          (fun _ ↦ (Pipeline.resolve w.shared.registry text).1) ∧
        Builder.Quiet w.shared w'.shared)
      fun _ _ ↦ False := by
  rw [pipeline, htext]
  simp only [ensures_bind, ensures_temporarily, ensures_pure]
  refine (Builder.ensures_elaborateText_comes hb.installed text ⟨w.shared, []⟩).imp ?_
  rintro parsed w' ⟨rfl, hfocus, hquiet⟩
  refine ⟨?_, hquiet⟩
  rw [hfocus]
  rfl

theorem ensures_execute {options : Options} {text : String}
    (htext : options.passes = some text) {w : World Unit} (hw : w.shared = {}) :
    (execute options).Ensures w (fun outcome w' ↦ Finishes w'.shared (verdict text) outcome)
      fun _ _ ↦ False := by
  have hbuilder := ensures_builder
  rw [execute]
  -- All that matters of the builder is known, and looking at the goal must not run it.
  generalize builder = act at hbuilder ⊢
  rw [ensures_bind]
  refine (ensures_register hw).imp ?_
  rintro _ w₁ ⟨hregistry, hsilent₁⟩
  rw [ensures_bind]
  refine (hbuilder w₁).imp ?_
  rintro _ w₂ ⟨b, rfl, hloaded, hquiet₂⟩
  simp only [ensures_bind, ensures_temporarily]
  have hregistry₂ := hquiet₂.registry_eq.trans hregistry
  refine (ensures_setUp hloaded (w := ⟨w₂.shared, {}⟩) rfl hregistry₂).imp ?_
  rintro _ ⟨s₃, mam⟩ ⟨hright, hquiet₃⟩
  refine (ensures_pipeline hloaded htext ⟨s₃, ()⟩).imp ?_
  rintro outcome w₄ ⟨rfl, hquiet₄⟩
  have hsilent₄ : ({} : Shared).Utters [] w₄.shared :=
    hsilent₁.after ((hquiet₂.trans hquiet₃).trans hquiet₄).silent
  have hregistry₃ : s₃.registry = outfit := hquiet₃.registry_eq.trans hregistry₂
  rw [hregistry₃]
  obtain ⟨deeds, hmatches, hverdict⟩ := matchesAll_resolve knowing_outfit text
  rw [hverdict]
  generalize Pipeline.resolve outfit text = resolved at hmatches ⊢
  cases hmatches with
  | error passes error => exact .rejected hsilent₄
  | @ok passes deeds hdoes =>
    change Ensures (sample >>= _) w₄ _ _
    rw [ensures_bind]
    refine (ensures_sample w₄).imp ?_
    rintro _ w₅ ⟨⟨id, main, helper, hne, rfl⟩, hquiet₅⟩
    have hnodup : ((sampleAs id main helper false).content.map CodeUnit.id).Nodup := by
      simpa [sampleAs] using hne
    simp only [ensures_bind, ensures_temporarily, ensures_pure]
    refine (ensures_play hdoes hnodup (hright _)).imp ?_
    rintro _ w₆ ⟨hunit, hlines⟩
    rw [play_sample, Bool.false_or] at hunit hlines
    rw [hunit]
    exact .done id main helper (hsilent₄.after (hquiet₅.silent.after hlines))

/-- A listing does not show identifiers. -/
theorem listing_sampleAs (id main helper : UnitId) (clean : Bool) :
    (sampleAs id main helper clean).listing = (sampleAs 1 2 3 clean).listing := by
  simp only [sampleAs, Module.listing, List.map_cons, List.map_nil, Function.listing]

theorem lines_eq {s : Shared} {said : List String} (h : ({} : Shared).Utters said s) :
    lines s.events = String.join (said.map (· ++ "\n")) := by
  rw [lines, h.report_eq]

theorem run_eq_ending {options : Options} {read : Except Pipeline.Error (List Deed)}
    (h : ∀ w : World Unit, w.shared = {} → (execute options).Ensures w
      (fun outcome w' ↦ Finishes w'.shared read outcome) fun _ _ ↦ False) :
    run options = ending read := by
  rw [run]
  generalize execute options = act at h ⊢
  obtain ⟨outcome, w, hrun, hfinishes⟩ := (h ⟨{}, ()⟩ rfl).exists_ok fun _ _ h ↦ h
  rw [EStateM.run, hrun]
  cases hfinishes with
  | rejected hsilent =>
    dsimp only
    rw [lines_eq hsilent]
    rfl
  | done id main helper hsaid =>
    dsimp only
    rw [lines_eq hsaid, listing_sampleAs]
    rfl

/-- Whatever pipeline the tool is given, it ends as the deeds in the text have it, and the
statistics are right at every moment. -/
theorem runArgs_ending {args : List String} {options : Options} {text : String}
    (hargs : Options.parse args = .ok options) (htext : options.passes = some text) :
    runArgs args = ending (verdict text) := by
  rw [runArgs, hargs]
  exact run_eq_ending fun _ hw ↦ ensures_execute htext hw

/-- Statistics before and after stripping, through two groups and with other options around. -/
theorem runArgs_ending_strips :
    Options.parse ["-v", "-p", "print-stats,module(function(strip-nops),print-stats)", "--lto"] =
        .ok ⟨some "print-stats,module(function(strip-nops),print-stats)", Level.O2.effort, true,
          true⟩ ∧
      runArgs ["-v", "-p", "print-stats,module(function(strip-nops),print-stats)", "--lto"] =
        ending (.ok [.print, .strip, .print]) := by
  have hitems : Options.items
      ["-v", "-p", "print-stats,module(function(strip-nops),print-stats)", "--lto"] =
        [.short 'v', .short 'p', .word "print-stats,module(function(strip-nops),print-stats)",
          .long "lto"] := by
    decide +kernel
  have hargs : Options.parse
      ["-v", "-p", "print-stats,module(function(strip-nops),print-stats)", "--lto"] =
        .ok ⟨some "print-stats,module(function(strip-nops),print-stats)", Level.O2.effort, true,
          true⟩ := by
    rw [Options.parse, hitems]
    rfl
  have hverdict : verdict "print-stats,module(function(strip-nops),print-stats)" =
      .ok [.print, .strip, .print] := by
    cbv
  exact ⟨hargs, hverdict ▸ runArgs_ending hargs rfl⟩

end ForeignPasses.Demo
