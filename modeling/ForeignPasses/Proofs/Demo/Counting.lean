import ForeignPasses.Proofs.Demo.Honesty
import ForeignPasses.Proofs.Manager.Computed
import ForeignPasses.Proofs.Pipeline.Loading

/-!
# Counts in the cache

The analyses of the demonstration ask nothing, so a look-up comes to a count, be it computed or
found in the cache, and goes by without a word.
-/

namespace ForeignPasses

open Exec

/-! ## Analyses that ask nothing -/

namespace Tier

variable {β I S : Type} {tier : Tier β I S} {w w' : World (Manager S)}

/-- What a look-up in a place leaves behind: a result of the kind that is expected there. -/
structure LooksUp (Expected : Result → Prop) (place : UnitId × Key) (w w' : World (Manager S)) :
    Prop where
  analyses_eq : w'.focus.analyses = w.focus.analyses
  expected : ∀ r, w'.focus.results.find? place = some r → Expected r
  others : ∀ other, other ≠ place →
    w'.focus.results.find? other = w.focus.results.find? other
  silent : w.shared.Utters [] w'.shared

/-- A look-up in a scope of its own. -/
theorem LooksUp.closed {Expected : Result → Prop} {place : UnitId × Key} {kind : Kind} {key : Key}
    (h : LooksUp Expected place (Access.inScope kind key w) w') :
    LooksUp Expected place w (Access.closed kind w w') where
  analyses_eq := h.analyses_eq
  expected := h.expected
  others := h.others
  silent := ((Builder.Quiet.inScope kind key w).silent.after h.silent).before
    (Builder.Quiet.closed kind w w').silent

variable {answer : (q : Inquiry β I) → Exec (Manager S) q.Answer} {f : Flavour} {key : Key}
  {u : CodeUnit β} {analysis : Analysis S} {Expected : Result → Prop} {good : f.Answer → Prop}

/-- An analysis that changes nothing is at rest: a look-up comes to what is expected of it. -/
theorem ensures_requestAt_expected
    (hexpected : ∀ r, Expected r → ∃ a, f.receive r = some a ∧ good a)
    (hanalysis : w.focus.analyses.find? key = some ⟨analysis, false⟩)
    (hcompute : ∀ w, (tier.access.compute answer u analysis).Ensures w
      (fun r w' ↦ Expected r ∧ w'.focus = w.focus ∧ w.shared.Utters [] w'.shared) fun _ _ ↦ False)
    (hheld : ∀ r, w.focus.results.find? (u.id, key) = some r → Expected r) :
    (tier.access.requestAt answer f key u).Ensures w
      (fun a w' ↦ good a ∧ LooksUp Expected (u.id, key) w w') fun _ _ ↦ False := by
  have hexpect {r : Result} (hr : Expected r) {v : World (Manager S)}
      (hv : LooksUp Expected (u.id, key) w v) :
      (f.expect r).Ensures v (fun a w' ↦ good a ∧ LooksUp Expected (u.id, key) w w')
        fun _ _ ↦ False := by
    obtain ⟨a, ha, hgood⟩ := hexpected r hr
    rw [Flavour.expect, ha]
    exact ⟨hgood, hv⟩
  cases hfind : w.focus.results.find? (u.id, key) with
  | some r =>
    rw [ensures_requestAt_cached hfind]
    exact hexpect (hheld r hfind) ⟨rfl, hheld, fun _ _ ↦ rfl, .log .trace _ rfl⟩
  | none =>
    rw [ensures_requestAt_resting hfind hanalysis]
    refine (hcompute _).imp ?_
    rintro r w₁ ⟨hr, hfocus, hsilent⟩
    simp only [ensures_bind, Access.ensures_keep]
    -- The analysis ran on the manager as it was, and is at rest again.
    have hback : (w.focus.analyses.modify key fun r ↦ { r with running := true }).modify key
        (fun r ↦ { r with running := false }) = w.focus.analyses :=
      Table.modify_undo _ _ hanalysis rfl
    have hrested : w₁.focus.setRunning key false = w.focus := by
      rw [hfocus]
      exact congrArg (fun analyses ↦ { w.focus with analyses }) hback
    rw [hrested]
    have hold : (tier.access.manager w.focus).results.find? (u.id, key) = none := hfind
    refine hexpect hr ⟨rfl, ?_, fun other hother ↦ ?_, ?_⟩
    · intro r' hr'
      obtain rfl : r = r' := Option.some.inj ((Table.find?_insert_self _ _ _).symm.trans hr')
      exact hr
    · exact (Table.find?_insert _ _ _ _).trans (if_neg hother)
    · have hbegun : w.shared.Utters [] (beginning key u w).shared := .log .trace _ rfl
      refine (hbegun.after hsilent).before (.of_events_eq ?_)
      change w₁.shared.events ++ (releases ((tier.access.manager w.focus).results.find?
        (u.id, key))).map .released = w₁.shared.events
      rw [hold]
      exact List.append_nil _

/-- Requests nest, but here they have no need to. -/
theorem ensures_fetch_expected
    (hexpected : ∀ r, Expected r → ∃ a, f.receive r = some a ∧ good a)
    (hkey : f.resolve tier.kind w = .ok key w)
    (hanalysis : w.focus.analyses.find? key = some ⟨analysis, false⟩)
    (hcompute : ∀ (answer : (q : Inquiry β I) → Exec (Manager S) q.Answer) w,
      (tier.access.compute answer u analysis).Ensures w
        (fun r w' ↦ Expected r ∧ w'.focus = w.focus ∧ w.shared.Utters [] w'.shared)
        fun _ _ ↦ False)
    (hheld : ∀ r, w.focus.results.find? (u.id, key) = some r → Expected r) :
    (tier.fetch f u).Ensures w
      (fun a w' ↦ good a ∧ LooksUp Expected (u.id, key) w w') fun _ _ ↦ False := by
  apply ensures_fetch_of
  intro answer
  rw [Access.request, ensures_bind, Ensures]
  have hresolve : f.resolve tier.access.kind w = .ok key w := hkey
  rw [hresolve]
  exact ensures_requestAt_expected hexpected hanalysis (hcompute answer) hheld

end Tier

/-! ## Counts -/

namespace Demo

/-- A number in a box, as it is cached. -/
def Boxed (n : Nat) (r : Result) : Prop :=
  ∃ address, r = .foreign (.ofRaw ((boxed n).toRaw address))

/-- A box goes away without a word. -/
theorem Boxed.silent {n : Nat} {r : Result} (h : Boxed n r) :
    ∀ e ∈ (releases r).map Event.released, e.Silent := by
  obtain ⟨address, rfl⟩ := h
  intro e he
  obtain rfl : e = .released ⟨some address, none⟩ := List.mem_singleton.1 he
  rfl

section Counting

variable {β I S : Type} {tier : Tier β I S} {w : World (Manager S)} {key : Key} {u : CodeUnit β}
  {n : Nat} {entry : Entry} {context : Opaque String}

/-- An analysis that boxes a number and asks nothing. -/
theorem ensures_compute_boxed {answer : (q : Inquiry β I) → Exec (Manager S) q.Answer}
    (hcode : tier.behaviour.analysis entry context.content? u = .done (boxed n)) :
    (tier.access.compute answer u (.foreign entry context)).Ensures w
      (fun r w' ↦ Boxed n r ∧ w'.focus = w.focus ∧ w.shared.Utters [] w'.shared)
      fun _ _ ↦ False := by
  have hcode' : tier.access.computations.analysis entry context.content? u = .done (boxed n) := hcode
  simp only [Access.compute, hcode', Program.run, ensures_bind, ensures_boundary, ensures_pure,
    ensures_adopt]
  refine ⟨⟨_, rfl⟩, trivial, .of_silent (fun e he ↦ ?_) rfl⟩
  obtain ⟨address, -, rfl⟩ := List.mem_map.1 he
  rfl

/-- The count of a unit is asked for from beyond the boundary. -/
theorem ensures_answer_count
    (hanalysis : w.focus.analyses.find? key = some ⟨.foreign entry context, false⟩)
    (hcode : tier.behaviour.analysis entry context.content? u = .done (boxed n))
    (hheld : ∀ r, w.focus.results.find? (u.id, key) = some r → Boxed n r) :
    (tier.answer tier.fetch (.result u (some key))).Ensures w
      (fun (value : Option Int) w' ↦ value = some (n : Int) ∧
        Tier.LooksUp (Boxed n) (u.id, key) w w')
      fun _ _ ↦ False := by
  have hexpected (r : Result) (hr : Boxed n r) :
      ∃ a, Flavour.foreign.receive r = some a ∧ Opaque.content? a = some (n : Int) := by
    obtain ⟨address, rfl⟩ := hr
    exact ⟨_, rfl, rfl⟩
  have hregistered : (tier.access.manager w.focus).isRegistered key = true := by
    change w.focus.analyses.contains key = true
    rw [Table.contains, hanalysis]
    rfl
  change Ensures (tier.access.boundaryResult tier.fetch u (some key) >>= fun value ↦
    pure value.content?) w _ _
  simp only [Access.boundaryResult, ensures_bind, ensures_boundary, Access.ensures_held, hregistered,
    if_true, ensures_pure]
  have hresolve : Flavour.foreign.resolve tier.kind (Access.inScope tier.kind key w) =
      .ok key (Access.inScope tier.kind key w) := by
    cases tier.kind <;> rfl
  have hfetch : (tier.fetch .foreign u).Ensures (Access.inScope tier.kind key w)
      (fun a w' ↦ Opaque.content? a = some (n : Int) ∧
        Tier.LooksUp (Boxed n) (u.id, key) (Access.inScope tier.kind key w) w') fun _ _ ↦ False :=
    Tier.ensures_fetch_expected hexpected hresolve hanalysis
      (fun answer w ↦ ensures_compute_boxed hcode) hheld
  apply Access.ensures_inScope
  exact hfetch.imp fun value w' h ↦ ⟨h.1, h.2.closed⟩

end Counting

/-! ## The attached manager -/

section Attached

variable {β I S : Type} {tier : Tier β I S} {w : World (Manager S)} {u : CodeUnit β} {inner : S}

theorem ensures_fetch_attached
    (hanalysis : w.focus.analyses.find? .proxy = some ⟨.attached inner, false⟩)
    (hheld : ∀ r, w.focus.results.find? (u.id, .proxy) = some r → r = .attached) :
    (tier.fetch .attached u).Ensures w
      (fun _ w' ↦ Tier.LooksUp (· = .attached) (u.id, .proxy) w w') fun _ _ ↦ False := by
  have hexpected (r : Result) (hr : r = .attached) :
      ∃ a, Flavour.attached.receive r = some a ∧ True := ⟨(), hr ▸ rfl, trivial⟩
  have hfetch : (tier.fetch .attached u).Ensures w
      (fun _ w' ↦ True ∧ Tier.LooksUp (· = .attached) (u.id, .proxy) w w') fun _ _ ↦ False :=
    Tier.ensures_fetch_expected hexpected rfl hanalysis (fun _ _ ↦ ⟨rfl, rfl, .refl⟩) hheld
  exact hfetch.imp fun _ _ h ↦ h.2

/-- Code runs on the attached manager. -/
theorem ensures_answer_within {program : I} (post : Option Int → Shared → S → Prop)
    (hanalysis : w.focus.analyses.find? .proxy = some ⟨.attached inner, false⟩)
    (hheld : ∀ r, w.focus.results.find? (u.id, .proxy) = some r → r = .attached)
    (hprogram : ∀ s, w.shared.Utters [] s → (tier.within program).Ensures ⟨s, inner⟩
      (fun a v ↦ post a v.shared v.focus) fun _ _ ↦ False) :
    (tier.answer tier.fetch (.within u program)).Ensures w
      (fun (a : Option Int) w' ↦ ∃ (v : World (Manager S)) (inner' : S),
        Tier.LooksUp (· = .attached) (u.id, .proxy) w v ∧
        w'.focus = v.focus.setAttached inner' ∧ post a w'.shared inner')
      fun _ _ ↦ False := by
  have hregistered : (tier.access.manager w.focus).isRegistered .proxy = true := by
    change w.focus.analyses.contains .proxy = true
    rw [Table.contains, hanalysis]
    rfl
  change Ensures (tier.access.boundaryAttached tier.fetch u >>= fun _ ↦
    Tier.onAttached (tier.within program)) w _ _
  simp only [Access.boundaryAttached, ensures_bind, ensures_boundary, Access.ensures_held,
    hregistered]
  refine (ensures_fetch_attached hanalysis hheld).mono ?_ fun _ _ h ↦ h
  intro _ v hlooked
  have hattached : v.focus.attached? = some inner := by
    rw [Manager.attached?, hlooked.analyses_eq, hanalysis]
  rw [Tier.ensures_onAttached hattached]
  exact (hprogram v.shared hlooked.silent).imp fun a v' h ↦ ⟨v, v'.focus, hlooked, rfl, h⟩

end Attached

/-! ## Right counts -/

/-- The manager of functions counts instructions, and the lengths that it has cached are right. -/
structure LengthsRight (functions : Functions) (fam : FunctionManager) : Prop where
  analyses_eq : fam.analyses = lengthManager.analyses
  length : ∀ f ∈ functions, ∀ r, fam.results.find? (f.id, lengthKey) = some r →
    Boxed f.content.length r

/-- What a manager of modules is equipped with. -/
def equipment (fam : FunctionManager) : Table Key (Registered FunctionManager) :=
  Table.insert (Table.insert ∅ instructionCount ⟨.foreign 0 .null, false⟩) .proxy
    ⟨.attached fam, false⟩

/-- The manager of modules counts instructions; if it has a count cached, then it is `n`. -/
structure Counts (n : Nat) (m : Module) (mam : ModuleManager) : Prop where
  attached : ∃ fam, mam.analyses = equipment fam ∧ LengthsRight m.content fam
  count : ∀ r, mam.results.find? (m.id, instructionCount) = some r → Boxed n r
  proxy : ∀ r, mam.results.find? (m.id, .proxy) = some r → r = .attached

/-- What is cached for a module and its functions is right. -/
abbrev CountsRight (m : Module) (mam : ModuleManager) : Prop := Counts (countInstructions m) m mam

theorem find?_instructionCount (fam : FunctionManager) :
    (equipment fam).find? instructionCount = some ⟨.foreign 0 .null, false⟩ := rfl

theorem find?_proxy (fam : FunctionManager) :
    (equipment fam).find? .proxy = some ⟨.attached fam, false⟩ := rfl

theorem analyses_setAttached {mam : ModuleManager} {fam : FunctionManager}
    (h : mam.analyses = equipment fam) (fam' : FunctionManager) :
    (mam.setAttached fam').analyses = equipment fam' := by
  rw [Manager.setAttached, h]
  rfl

/-- After a look-up for one function the lengths are right of any functions of which only that one
may be new. -/
theorem LengthsRight.looksUp {functions functions' : Functions} {w w' : World FunctionManager}
    {f : Function} (h : LengthsRight functions w.focus)
    (hfunctions : ∀ g ∈ functions', g = f ∨ g ∈ functions ∧ g.id ≠ f.id)
    (hlooked : Tier.LooksUp (Boxed f.content.length) (f.id, lengthKey) w w') :
    LengthsRight functions' w'.focus where
  analyses_eq := hlooked.analyses_eq.trans h.analyses_eq
  length g hg r hr := by
    rcases hfunctions g hg with rfl | ⟨hg, hid⟩
    · exact hlooked.expected r hr
    · rw [hlooked.others _ fun heq ↦ hid (congrArg Prod.fst heq)] at hr
      exact h.length g hg r hr

theorem eq_or_of_nodup {functions : Functions} (hnodup : (functions.map CodeUnit.id).Nodup)
    {f : Function} (hf : f ∈ functions) : ∀ g ∈ functions, g = f ∨ g ∈ functions ∧ g.id ≠ f.id := by
  intro g hg
  by_cases hid : g.id = f.id
  · exact .inl (List.inj_on_of_nodup_map hnodup hg hf hid)
  · exact .inr ⟨hg, hid⟩

/-! ## Printing -/

def lengthLine (f : Function) : String :=
  ";   " ++ f.name ++ ": " ++ toString (f.content.length : Int)

/-- The right statistics of a module. -/
def block (m : Module) : List String :=
  ("; " ++ toString (countInstructions m : Int) ++ " instructions") :: m.content.map lengthLine

theorem ensures_lengthLines {all functions : Functions} (hall : ∀ f ∈ functions, f ∈ all)
    (hnodup : (all.map CodeUnit.id).Nodup) {w : World FunctionManager}
    (h : LengthsRight all w.focus) :
    ((lengthLines functions).run (code.functionTier.answer code.functionTier.fetch)).Ensures w
      (fun _ w' ↦ LengthsRight all w'.focus ∧
        w.shared.Utters (functions.map lengthLine) w'.shared)
      fun _ _ ↦ False := by
  induction functions generalizing w with
  | nil => exact ⟨h, .refl⟩
  | cons f rest ih =>
    obtain ⟨hf, hrest⟩ := List.forall_mem_cons.1 hall
    have hanalysis : w.focus.analyses.find? lengthKey = some ⟨.foreign 0 .null, false⟩ := by
      rw [h.analyses_eq]
      rfl
    have hlength : (code.functionTier.answer code.functionTier.fetch
        (.result f (some lengthKey))).Ensures w
        (fun (value : Option Int) w' ↦ value = some (f.content.length : Int) ∧
          Tier.LooksUp (Boxed f.content.length) (f.id, lengthKey) w w')
        fun _ _ ↦ False :=
      ensures_answer_count hanalysis rfl (h.length f hf)
    change Ensures (code.functionTier.answer code.functionTier.fetch (.result f (some lengthKey)) >>=
      fun value ↦ note (";   " ++ f.name ++ ": " ++ toString (Option.getD value 0)) >>= fun _ ↦
        (lengthLines rest).run (code.functionTier.answer code.functionTier.fetch)) w _ _
    rw [ensures_bind]
    refine hlength.imp ?_
    rintro value w₁ ⟨rfl, hlooked⟩
    simp only [note, ensures_bind, ensures_emit]
    let said : World FunctionManager :=
      { w₁ with shared := { w₁.shared with events := w₁.shared.events ++ [.note (lengthLine f)] } }
    have hsaid : w.shared.Utters [lengthLine f] said.shared := hlooked.silent.after (.note _ rfl)
    have hright : LengthsRight all w₁.focus := h.looksUp (eq_or_of_nodup hnodup hf) hlooked
    refine (ih hrest (w := said) hright).imp ?_
    rintro _ w₂ ⟨hright', hlines⟩
    exact ⟨hright', hsaid.trans hlines⟩

/-- What is run on the manager of functions when `total` instructions have been counted. -/
def tell (total : Option Int) (functions : Functions) : FunctionInquest := do
  Inquest.say ("; " ++ toString (total.getD 0) ++ " instructions")
  lengthLines functions

theorem ensures_tell {m : Module} (hnodup : (m.content.map CodeUnit.id).Nodup)
    {w : World FunctionManager} (h : LengthsRight m.content w.focus) :
    (code.moduleTier.within (tell (some (countInstructions m)) m.content)).Ensures w
      (fun _ w' ↦ LengthsRight m.content w'.focus ∧ w.shared.Utters (block m) w'.shared)
      fun _ _ ↦ False := by
  let line := "; " ++ toString (countInstructions m : Int) ++ " instructions"
  change Ensures (note line >>= fun _ ↦
    (lengthLines m.content).run (code.functionTier.answer code.functionTier.fetch)) w _ _
  simp only [note, ensures_bind, ensures_emit]
  let said : World FunctionManager :=
    { w with shared := { w.shared with events := w.shared.events ++ [.note line] } }
  have hsaid : w.shared.Utters [line] said.shared := .note line rfl
  refine (ensures_lengthLines (fun f hf ↦ hf) hnodup (w := said) h).imp ?_
  rintro _ w' ⟨hlengths, hlines⟩
  exact ⟨hlengths, hsaid.trans hlines⟩

/-- Statistics are printed as they are, and nothing changes. -/
theorem ensures_printStats {s : Shared} {mam : ModuleManager} {m : Module}
    (hnodup : (m.content.map CodeUnit.id).Nodup) (h : CountsRight m mam) :
    ((printStatsCode m).run code.moduleTier.answerEdit).Ensures ⟨s, ⟨mam, m⟩⟩
      (fun r w' ↦ r = (m.content, .allPreserved) ∧ w'.focus.unit = m ∧
        CountsRight m w'.focus.manager ∧ s.Utters (block m) w'.shared)
      fun _ _ ↦ False := by
  obtain ⟨⟨fam, hanalyses, hlengths⟩, hcounts, hproxies⟩ := h
  let answer := code.moduleTier.answer code.moduleTier.fetch
  have hcount : (answer (.result m (some instructionCount))).Ensures ⟨s, mam⟩
      (fun (value : Option Int) v ↦ value = some (countInstructions m : Int) ∧
        Tier.LooksUp (Boxed (countInstructions m)) (m.id, instructionCount) ⟨s, mam⟩ v)
      fun _ _ ↦ False :=
    ensures_answer_count (hanalyses ▸ find?_instructionCount fam) rfl hcounts
  change Ensures (Tier.onManager (answer (.result m (some instructionCount))) >>= fun total ↦
    Tier.onManager (answer (.within m (tell total m.content))) >>= fun _ ↦
      pure (m.content, Status.allPreserved)) ⟨s, ⟨mam, m⟩⟩ _ _
  simp only [Tier.onManager, ensures_bind, ensures_zoom, ensures_pure]
  refine hcount.imp ?_
  rintro total v ⟨rfl, hlooked⟩
  have hanalyses' : v.focus.analyses = equipment fam := hlooked.analyses_eq.trans hanalyses
  have hproxies' (r : Result) (hr : v.focus.results.find? (m.id, .proxy) = some r) :
      r = .attached := by
    rw [hlooked.others _ (by simp [instructionCount])] at hr
    exact hproxies r hr
  have hwithin : (answer (.within m (tell (some (countInstructions m)) m.content))).Ensures v
      (fun (_ : Option Int) v' ↦ ∃ (u : World ModuleManager) (fam' : FunctionManager),
        Tier.LooksUp (· = .attached) (m.id, .proxy) v u ∧ v'.focus = u.focus.setAttached fam' ∧
        LengthsRight m.content fam' ∧ v.shared.Utters (block m) v'.shared)
      fun _ _ ↦ False := by
    refine ensures_answer_within
      (fun _ s' fam' ↦ LengthsRight m.content fam' ∧ v.shared.Utters (block m) s')
      (hanalyses' ▸ find?_proxy fam) hproxies' fun s' hs' ↦ ?_
    refine (ensures_tell hnodup (w := ⟨s', fam⟩) hlengths).imp ?_
    rintro _ v' ⟨hlengths', hlines⟩
    exact ⟨hlengths', hs'.after hlines⟩
  refine hwithin.imp ?_
  rintro _ v' ⟨u, fam', hlooked', hfocus, hlengths', hlines⟩
  refine ⟨trivial, trivial, ⟨⟨fam', ?_, hlengths'⟩, ?_, ?_⟩, hlooked.silent.after hlines⟩
  · rw [hfocus]
    exact analyses_setAttached (hlooked'.analyses_eq.trans hanalyses') fam'
  · intro r hr
    rw [hfocus] at hr
    change u.focus.results.find? _ = _ at hr
    rw [hlooked'.others _ (by simp [instructionCount])] at hr
    exact hlooked.expected r hr
  · intro r hr
    rw [hfocus] at hr
    exact hlooked'.expected r hr

end Demo

end ForeignPasses
