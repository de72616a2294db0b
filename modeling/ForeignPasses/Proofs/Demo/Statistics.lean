import ForeignPasses.Proofs.Demo.Stripping

/-!
# What the tool prints

A textual pipeline comes to a list of deeds, or to an error and then nothing is done. The statistics
that are printed in between are those of the sample as it is at that moment, and the listing at the
end is that of the sample without its `nop`s exactly if it was stripped at least once.
-/

namespace ForeignPasses.Demo

open Exec

/-! ## What pipelines ask for -/

/-- What the passes of the demonstration do. -/
inductive Deed where
  | strip
  | print
  deriving DecidableEq, Repr

/-- Over functions there is only stripping. -/
def deedInside (e : Element) : Except Pipeline.Error Deed :=
  if e.name = "strip-nops" then .ok .strip else .error (.unknownPass e.name)

mutual

/-- What an element has done, one after the other, or the first name in it that is not known. -/
def deeds : Element → Except Pipeline.Error (List Deed)
  | .mk name children =>
    if Element.IsGroup (.mk name children) then deedsOf children
    else if Element.IsAdapter (.mk name children) then children.mapM deedInside
    else if name = "print-stats" then .ok [.print]
    else (deedInside (.mk name children)).map ([·])

def deedsOf : List Element → Except Pipeline.Error (List Deed)
  | [] => .ok []
  | e :: rest => do return (← deeds e) ++ (← deedsOf rest)

end

/-- What a text has done, or why it is rejected. -/
def verdict (text : String) : Except Pipeline.Error (List Deed) := Pipeline.parse text >>= deedsOf

/-- The blocks of statistics that are printed; `clean` says whether the sample was stripped before. -/
def statistics (clean : Bool) : List Deed → List String
  | [] => []
  | .strip :: rest => statistics true rest
  | .print :: rest =>
    (if clean then ["; 5 instructions", ";   main: 2", ";   helper: 3"]
      else ["; 8 instructions", ";   main: 4", ";   helper: 4"]) ++ statistics clean rest

/-- The sample, stripped or not, under some identifiers. -/
def sampleAs (id main helper : UnitId) (clean : Bool) : Module :=
  let kept (i : String) : Bool := !clean || i ≠ "nop"
  ⟨id, "sample", [⟨main, "main", ["nop", "call helper", "nop", "ret"].filter kept⟩,
    ⟨helper, "helper", ["load", "nop", "store", "ret"].filter kept⟩]⟩

/-- How the tool ends if a pipeline is asked for. -/
def ending : Except Pipeline.Error (List Deed) → Ending
  | .error error => ⟨1, "", some ("playground: " ++ error.message)⟩
  | .ok deeds =>
    ⟨0, String.join ((statistics false deeds).map (· ++ "\n")) ++
      (sampleAs 1 2 3 (decide (.strip ∈ deeds))).listing, none⟩

/-! ## Elements come to passes that do their deeds -/

section Matching

variable {P D : Type} {R : P → D → Prop}

/-- Two readings of an element: they fit together, or both end in the same error. -/
inductive Matches (R : P → D → Prop) :
    Except Pipeline.Error P → Except Pipeline.Error D → Prop
  | ok {p : P} {d : D} (h : R p d) : Matches R (.ok p) (.ok d)
  | error (error : Pipeline.Error) : Matches R (.error error) (.error error)

/-- Two readings of elements one after the other. -/
inductive MatchesAll (R : P → D → Prop) :
    List P × Except Pipeline.Error Unit → Except Pipeline.Error (List D) → Prop
  | ok {ps : List P} {ds : List D} (h : List.Forall₂ R ps ds) : MatchesAll R (ps, .ok ()) (.ok ds)
  | error (ps : List P) (error : Pipeline.Error) : MatchesAll R (ps, .error error) (.error error)

theorem matchesAll_inTurn {resolve : Element → Except Pipeline.Error P}
    {deed : Element → Except Pipeline.Error D} {elements : List Element}
    (h : ∀ e ∈ elements, Matches R (resolve e) (deed e)) :
    MatchesAll R (Element.inTurn resolve elements) (elements.mapM deed) := by
  induction elements with
  | nil => exact .ok .nil
  | cons e rest ih =>
    obtain ⟨hfirst, hrest⟩ := List.forall_mem_cons.1 h
    have hall := ih hrest
    rw [List.mapM_cons, Element.inTurn]
    generalize resolve e = p at hfirst
    generalize deed e = d at hfirst
    generalize Element.inTurn resolve rest = ps at hall
    generalize rest.mapM deed = ds at hall
    cases hfirst with
    | error error => exact .error [] error
    | ok h =>
      cases hall with
      | ok hs => exact .ok (.cons h hs)
      | error ps error => exact .error _ error

end Matching

/-- A pass does deeds one after the other. -/
inductive Does : ModulePass → List Deed → Prop
  | print (name : String) (context : Opaque String) :
      Does (.foreign name printStats context) [.print]
  | strip {passes : FunctionPipeline} (h : Strips passes) :
      Does (.perFunction passes) (passes.map fun _ ↦ .strip)

/-- The names under which the passes of the demonstration are known. -/
structure Knowing (known : Kind → Registry) : Prop where
  module : ∀ name, (known .module).pass? name = if name = "print-stats" then some printStats else none
  function : ∀ name,
    (known .function).pass? name = if name = "strip-nops" then some stripNops else none

variable {known : Kind → Registry}

/-- The only pass over functions. -/
def StripsOne (pass : FunctionPass) (deed : Deed) : Prop :=
  (∃ name context, pass = .foreign name stripNops context) ∧ deed = .strip

theorem StripsOne.strips {passes : FunctionPipeline} {deeds : List Deed}
    (h : List.Forall₂ StripsOne passes deeds) :
    Strips passes ∧ deeds = passes.map fun _ ↦ .strip := by
  induction h with
  | nil => exact ⟨fun p hp ↦ absurd hp List.not_mem_nil, rfl⟩
  | cons hfirst _ ih =>
    obtain ⟨hpass, rfl⟩ := hfirst
    obtain ⟨hstrips, rfl⟩ := ih
    exact ⟨List.forall_mem_cons.2 ⟨hpass, hstrips⟩, rfl⟩

theorem matches_inside (hknown : Knowing known) (e : Element) :
    Matches StripsOne (Element.resolveInside known e) (deedInside e) := by
  rw [Element.resolveInside, hknown.function, deedInside]
  by_cases hname : e.name = "strip-nops"
  · rw [if_pos hname, if_pos hname]
    exact .ok ⟨⟨e.name, .null, rfl⟩, rfl⟩
  · rw [if_neg hname, if_neg hname]
    exact .error _

theorem matches_deeds (hknown : Knowing known) {e : Element} (hgroup : ¬e.IsGroup) :
    Matches Does (Element.resolve known e) (deeds e) := by
  obtain ⟨name, children⟩ := e
  rw [Element.resolve, deeds, if_neg hgroup]
  by_cases hadapter : Element.IsAdapter (.mk name children)
  · rw [if_pos hadapter, if_pos hadapter]
    have hturn := matchesAll_inTurn fun e (_ : e ∈ children) ↦ matches_inside hknown e
    dsimp only [Element.children]
    generalize Element.inTurn (Element.resolveInside known) children = ps at hturn
    generalize children.mapM deedInside = ds at hturn
    cases hturn with
    | error ps error => exact .error error
    | ok h =>
      obtain ⟨hstrips, rfl⟩ := StripsOne.strips h
      exact .ok (.strip hstrips)
  · rw [if_neg hadapter, if_neg hadapter, hknown.module]
    by_cases hname : name = "print-stats"
    · rw [if_pos hname, show (Element.mk name children).name = "print-stats" from hname]
      exact .ok (.print _ _)
    · rw [if_neg hname, show (if (Element.mk name children).name = "print-stats" then some printStats
        else none) = none from if_neg hname]
      have hinside := matches_inside hknown (.mk name children)
      dsimp only
      generalize Element.resolveInside known (.mk name children) = p at hinside
      generalize deedInside (.mk name children) = d at hinside
      cases hinside with
      | error error => exact .error error
      | ok h =>
        obtain ⟨hpass, rfl⟩ := h
        have hstrips : Strips [_] := List.forall_mem_singleton.2 hpass
        exact .ok (.strip hstrips)

theorem deedsOf_append (elements others : List Element) :
    deedsOf (elements ++ others) =
      (do return (← deedsOf elements) ++ (← deedsOf others)) := by
  induction elements with
  | nil =>
    rw [List.nil_append, deedsOf]
    cases deedsOf others <;> rfl
  | cons e rest ih =>
    rw [List.cons_append, deedsOf, deedsOf, ih]
    cases deeds e with
    | error error => rfl
    | ok ds =>
      cases deedsOf rest with
      | error error => rfl
      | ok ds' =>
        cases deedsOf others with
        | error error => rfl
        | ok ds'' => exact congrArg Except.ok (List.append_assoc ds ds' ds'').symm

theorem deedsOf_singleton (e : Element) : deedsOf [e] = deeds e := by
  rw [deedsOf, deedsOf]
  cases deeds e with
  | error error => rfl
  | ok ds => exact congrArg Except.ok (List.append_nil ds)

mutual

theorem deedsOf_stations (e : Element) : deedsOf e.stations = deeds e := by
  cases e with
  | mk name children =>
    rw [Element.stations]
    split
    · rename_i hgroup
      rw [deedsOf_stationsOf children, deeds, if_pos hgroup]
    · rw [deedsOf_singleton]

/-- Groups do what is in them. -/
theorem deedsOf_stationsOf (elements : List Element) :
    deedsOf (Element.stationsOf elements) = deedsOf elements := by
  cases elements with
  | nil => rfl
  | cons e rest =>
    rw [Element.stationsOf, deedsOf_append, deedsOf_stations e, deedsOf_stationsOf rest, deedsOf]

end

theorem deedsOf_eq_mapM (elements : List Element) :
    deedsOf elements = (elements.mapM deeds).map List.flatten := by
  induction elements with
  | nil => rfl
  | cons e rest ih =>
    rw [deedsOf, ih, List.mapM_cons]
    cases deeds e with
    | error error => rfl
    | ok ds => cases rest.mapM deeds <;> rfl

theorem matchesAll_resolve (hknown : Knowing known) (text : String) :
    ∃ deeds, MatchesAll Does (Pipeline.resolve known text) deeds ∧
      verdict text = deeds.map List.flatten := by
  rw [Pipeline.resolve, verdict]
  cases Pipeline.parse text with
  | error error => exact ⟨.error error, .error [] error, rfl⟩
  | ok elements =>
    refine ⟨(Element.stationsOf elements).mapM deeds, ?_, ?_⟩
    · exact matchesAll_inTurn fun e he ↦
        matches_deeds hknown (Element.not_isGroup_of_mem_stationsOf elements e he)
    · rw [← deedsOf_eq_mapM, deedsOf_stationsOf]
      rfl

/-! ## Doing deeds -/

/-- What deeds print over a module, and what they make of it. -/
def play (m : Module) : List Deed → List String × Module
  | [] => ([], m)
  | .strip :: rest => play (m.withContent (m.content.map stripped)) rest
  | .print :: rest => (block m ++ (play m rest).1, (play m rest).2)

theorem play_strips (passes : FunctionPipeline) (m : Module) (rest : List Deed) :
    play m (passes.map (fun _ ↦ .strip) ++ rest) = play (stripAll passes m) rest := by
  induction passes generalizing m with
  | nil =>
    have hsame : stripAll [] m = m := congrArg m.withContent (List.map_id m.content)
    rw [hsame]
    rfl
  | cons p others ih =>
    have hstep : stripAll others (m.withContent (m.content.map stripped)) =
        stripAll (p :: others) m := by
      simp only [stripAll, CodeUnit.content_withContent, List.map_map]
      refine congrArg m.withContent (List.map_congr_left fun f _ ↦ ?_)
      exact strip_cons p others f
    rw [← hstep, ← ih]
    rfl

/-- Passes do their deeds over any module whose counts are right. -/
theorem ensures_play {passes : ModulePipeline} {deeds : List (List Deed)}
    (hdoes : List.Forall₂ Does passes deeds) {s : Shared} {mam : ModuleManager} {m : Module}
    (hnodup : (m.content.map CodeUnit.id).Nodup) (h : CountsRight m mam) :
    (code.runModulePipeline passes).Ensures ⟨s, ⟨mam, m⟩⟩
      (fun _ w ↦ w.focus.unit = (play m deeds.flatten).2 ∧
        s.Utters (play m deeds.flatten).1 w.shared)
      fun _ _ ↦ False := by
  induction hdoes generalizing s mam m with
  | nil => exact ⟨rfl, .refl⟩
  | @cons pass ds passes dss hfirst _ ih =>
    rw [Code.runModulePipeline, Tier.runAll, ensures_bind]
    cases hfirst with
    | print name context =>
      refine (ensures_stage_printStats name context hnodup h).imp ?_
      rintro preserved ⟨s₁, mam₁, m₁⟩ ⟨hunit, hright, hlines⟩
      obtain rfl : m₁ = m := hunit
      rw [ensures_bind]
      refine (ih hnodup hright).imp ?_
      rintro _ w ⟨hunit, hlines'⟩
      exact ⟨hunit, hlines.trans hlines'⟩
    | strip hstrips =>
      rename_i inner
      refine (ensures_stage_perFunction hstrips hnodup h).imp ?_
      rintro preserved ⟨s₁, mam₁, m₁⟩ ⟨hunit, hright, hlines⟩
      obtain rfl : m₁ = stripAll inner m := hunit
      rw [ensures_bind, List.flatten_cons, play_strips]
      refine (ih (nodup_stripAll inner hnodup) hright).imp ?_
      rintro _ w ⟨hunit, hlines'⟩
      exact ⟨hunit, hlines.after hlines'⟩

/-! ## The sample -/

theorem play_sample (id main helper : UnitId) (clean : Bool) (deeds : List Deed) :
    play (sampleAs id main helper clean) deeds =
      (statistics clean deeds,
        sampleAs id main helper (clean || decide (.strip ∈ deeds))) := by
  induction deeds generalizing clean with
  | nil => simp [play, statistics]
  | cons deed rest ih =>
    cases deed with
    | strip =>
      have hstripped : (sampleAs id main helper clean).withContent
          ((sampleAs id main helper clean).content.map stripped) =
            sampleAs id main helper true := by
        cases clean <;> rfl
      rw [play, hstripped, ih, statistics]
      simp
    | print =>
      have hblock : block (sampleAs id main helper clean) =
          if clean then ["; 5 instructions", ";   main: 2", ";   helper: 3"]
          else ["; 8 instructions", ";   main: 4", ";   helper: 4"] := by
        cases clean <;> cbv
      rw [play, ih, hblock, statistics]
      simp

end ForeignPasses.Demo
