import ForeignPasses.Proofs.Exec.Ensures

/-!
# What is said

The lines that can be read of what happens if the log is not wanted. Runs of losses are sorted
before they are shown, so lines stay in order where no loss has a line of its own.
-/

namespace ForeignPasses

namespace Event

/-- Nobody reads anything of it unless the log is wanted. -/
def Silent (e : Event) : Prop := e.line? .off = none

end Event

namespace Shared

/-- Lines came up between two moments, and none of them for a loss. -/
def Utters (s : Shared) (lines : List String) (s' : Shared) : Prop :=
  ∃ new, s'.events = s.events ++ new ∧ new.filterMap (Event.line? .off) = lines ∧
    ∀ e ∈ new, e.isLoss = true → e.Silent

namespace Utters

variable {s s' s'' : Shared} {lines lines' : List String}

theorem of_events_eq (h : s'.events = s.events) : s.Utters [] s' := ⟨[], by simp [h], rfl, by simp⟩

theorem refl : s.Utters [] s := of_events_eq rfl

theorem trans (h : s.Utters lines s') (h' : s'.Utters lines' s'') : s.Utters (lines ++ lines') s'' := by
  obtain ⟨new, hnew, rfl, hlosses⟩ := h
  obtain ⟨new', hnew', rfl, hlosses'⟩ := h'
  refine ⟨new ++ new', by rw [hnew', hnew, List.append_assoc], List.filterMap_append, ?_⟩
  exact List.forall_mem_append.2 ⟨hlosses, hlosses'⟩

/-- Nothing is said before. -/
theorem after (h : s.Utters [] s') (h' : s'.Utters lines s'') : s.Utters lines s'' := h.trans h'

/-- Nothing more is said. -/
theorem before (h : s.Utters lines s') (h' : s'.Utters [] s'') : s.Utters lines s'' := by
  simpa using h.trans h'

theorem of_silent {events : List Event} (h : ∀ e ∈ events, e.Silent)
    (hevents : s'.events = s.events ++ events) : s.Utters [] s' :=
  ⟨events, hevents, List.filterMap_eq_nil_iff.2 h, fun e he _ ↦ h e he⟩

theorem of_silent_one {e : Event} (hevents : s'.events = s.events ++ [e]) (he : e.Silent) :
    s.Utters [] s' :=
  of_silent (List.forall_mem_singleton.2 he) hevents

theorem log (severity : Severity) (message : String)
    (hevents : s'.events = s.events ++ [.log severity message]) : s.Utters [] s' :=
  of_silent_one hevents (by cases severity <;> rfl)

theorem note (text : String) (hevents : s'.events = s.events ++ [.note text]) :
    s.Utters [text] s' :=
  ⟨_, hevents, rfl, by simp [Event.isLoss]⟩

end Utters

end Shared

/-! ## What is shown -/

theorem sortByText_nil {α : Type} (text : α → String) : sortByText text [] = [] := List.mergeSort_nil

theorem sortRuns_eq_self {α : Type} {text : α → String} {p : α → Bool} {l : List α}
    (h : ∀ a ∈ l, p a = false) : sortRuns text p [] l = l := by
  induction l with
  | nil => exact sortByText_nil text
  | cons a rest ih =>
    obtain ⟨hfirst, hrest⟩ := List.forall_mem_cons.1 h
    rw [sortRuns, hfirst, if_neg Bool.false_ne_true, ih hrest, List.reverse_nil, sortByText_nil,
      List.nil_append]

/-- What was said is what is shown. -/
theorem Shared.Utters.report_eq {s : Shared} {lines : List String}
    (h : ({} : Shared).Utters lines s) : report .off false s.events = lines := by
  obtain ⟨new, hnew, rfl, hlosses⟩ := h
  obtain rfl : s.events = new := hnew
  let shown := s.events.filterMap fun e ↦ (e.line? .off).map fun text ↦ (e, text)
  have hshown : ∀ line ∈ shown, line.1.isLoss = false := by
    intro line hline
    obtain ⟨e, he, htext⟩ := List.mem_filterMap.1 hline
    obtain ⟨text, hsaid, rfl⟩ := Option.map_eq_some_iff.1 htext
    refine Bool.eq_false_iff.2 fun hloss ↦ ?_
    have hsilent : e.line? .off = none := hlosses e he hloss
    rw [hsilent] at hsaid
    contradiction
  calc report .off false s.events
    _ = (sortRuns Prod.snd (·.1.isLoss) [] shown).map Prod.snd := rfl
    _ = shown.map Prod.snd := by rw [sortRuns_eq_self hshown]
    _ = s.events.filterMap (Event.line? .off) := by
      rw [List.map_filterMap]
      refine congrArg (List.filterMap · s.events) (funext fun e ↦ ?_)
      cases e.line? .off <;> rfl

end ForeignPasses
