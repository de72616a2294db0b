import ForeignPasses.Scope

/-!
# Scopes in and out of turn

As long as each scope that is closed is the newest one that is open, the key of the newest is
current, and no key is current when all are closed. A scope that is closed out of turn puts back
what was current when it was opened all the same, which may belong to a scope that is long closed.
-/

namespace ForeignPasses

/-- The scopes that are open, the newest first, each with its number and its key. -/
structure OpenScopes where
  next : Nat := 0
  live : List (Nat × Key) := []

namespace OpenScopes

def numbers (o : OpenScopes) : List Nat := o.live.map Prod.fst

/-- The key of the newest scope that is open. -/
def newest (o : OpenScopes) : Option Key := o.live.head?.map Prod.snd

def step (o : OpenScopes) : Scopes.Act → OpenScopes
  | .enter key => ⟨o.next + 1, (o.next, key) :: o.live⟩
  | .close number => { o with live := o.live.filter (·.1 ≠ number) }
  | .look => o

/-- The key of the newest open scope after each act. -/
def trace (o : OpenScopes) : List Scopes.Act → List (Option Key)
  | [] => []
  | act :: rest => (o.step act).newest :: (o.step act).trace rest

/-- If the act closes an open scope, then it is the newest. -/
def InTurn (o : OpenScopes) : Scopes.Act → Prop
  | .close number => number ∈ o.numbers → o.numbers.head? = some number
  | _ => True

/-- Scopes are closed in the reverse order of opening. -/
def Nested (o : OpenScopes) : List Scopes.Act → Prop
  | [] => True
  | act :: rest => o.InTurn act ∧ (o.step act).Nested rest

end OpenScopes

namespace Scopes

/-- The keys of the scopes that are opened. -/
def entered : List Act → List Key
  | [] => []
  | .enter key :: rest => key :: entered rest
  | _ :: rest => entered rest

def after (s : Scopes) (acts : List Act) : Scopes := acts.foldl step s

theorem step_close_of_open {s : Scopes} {number : Nat} {scope : Scope}
    (h : s.opened[number]? = some (some scope)) :
    s.step (.close number) = ⟨⟨scope.previous⟩, s.opened.set number none⟩ := by
  simp only [step, h, Slot.leave]

theorem step_close_of_closed {s : Scopes} {number : Nat}
    (h : ∀ scope, s.opened[number]? ≠ some (some scope)) : s.step (.close number) = s := by
  rw [step]
  split
  · rename_i scope hscope
    exact absurd hscope (h scope)
  · rfl

/-! ## What scopes remember -/

/-- Every open scope remembers the key of the one below it. -/
inductive Stacked (opened : List (Option Scope)) : List (Nat × Key) → Prop
  | nil : Stacked opened []
  | cons {number : Nat} {key : Key} {below : List (Nat × Key)}
      (hopened : opened[number]? = some (some ⟨below.head?.map Prod.snd⟩))
      (hbelow : ∀ e ∈ below, e.1 < number) (hrest : Stacked opened below) :
      Stacked opened ((number, key) :: below)

namespace Stacked

variable {opened : List (Option Scope)} {live : List (Nat × Key)}

theorem lt_length (h : Stacked opened live) : ∀ e ∈ live, e.1 < opened.length := by
  induction h with
  | nil => simp
  | cons hopened _ _ ih => exact List.forall_mem_cons.2 ⟨(List.getElem?_eq_some_iff.1 hopened).1, ih⟩

theorem append (h : Stacked opened live) (scope : Option Scope) :
    Stacked (opened ++ [scope]) live := by
  induction h with
  | nil => exact .nil
  | cons hopened hbelow _ ih =>
    refine .cons ?_ hbelow ih
    rwa [List.getElem?_append_left (List.getElem?_eq_some_iff.1 hopened).1]

theorem set (h : Stacked opened live) {number : Nat} (hlive : ∀ e ∈ live, e.1 < number) :
    Stacked (opened.set number none) live := by
  induction h with
  | nil => exact .nil
  | cons hopened hbelow _ ih =>
    obtain ⟨hfirst, hrest⟩ := List.forall_mem_cons.1 hlive
    refine .cons ?_ hbelow (ih hrest)
    rwa [List.getElem?_set_ne (Nat.ne_of_gt hfirst)]

/-- An open scope stands somewhere in the stack. -/
theorem split (h : Stacked opened live) {number : Nat} (hnumber : number ∈ live.map Prod.fst) :
    ∃ above key below, live = above ++ (number, key) :: below ∧
      opened[number]? = some (some ⟨below.head?.map Prod.snd⟩) := by
  induction h with
  | nil => contradiction
  | @cons first key below hopened _ _ ih =>
    rcases List.mem_cons.1 hnumber with rfl | hnumber
    · exact ⟨[], key, below, rfl, hopened⟩
    · obtain ⟨above, key', below', rfl, hopened'⟩ := ih hnumber
      exact ⟨(first, key) :: above, key', below', rfl, hopened'⟩

end Stacked

/-- Up to now all scopes were closed in turn. -/
structure Orderly (o : OpenScopes) (s : Scopes) : Prop where
  current_eq : s.slot.current = o.newest
  length_eq : s.opened.length = o.next
  stacked : Stacked s.opened o.live
  live : ∀ number scope, s.opened[number]? = some (some scope) → number ∈ o.numbers

namespace Orderly

variable {o : OpenScopes} {s : Scopes}

theorem start : Orderly {} {} := ⟨rfl, rfl, .nil, by simp⟩

theorem enter (h : Orderly o s) (key : Key) :
    Orderly (o.step (.enter key)) (s.step (.enter key)) where
  current_eq := rfl
  length_eq := by simp [Scopes.step, OpenScopes.step, h.length_eq]
  stacked := by
    refine .cons ?_ (fun e he ↦ ?_) (h.stacked.append _)
    · rw [← h.length_eq, Scopes.step, List.getElem?_concat_length, Slot.enter, h.current_eq]
      rfl
    · rw [← h.length_eq]
      exact h.stacked.lt_length e he
  live number scope hscope := by
    by_cases hnumber : number < s.opened.length
    · rw [Scopes.step, List.getElem?_append_left hnumber] at hscope
      exact List.mem_cons_of_mem _ (h.live number scope hscope)
    · have hlast : number < s.opened.length + 1 := by
        simpa [Scopes.step] using (List.getElem?_eq_some_iff.1 hscope).1
      have heq : number = o.next := by
        have := h.length_eq
        omega
      rw [heq]
      exact List.mem_cons_self

/-- A number that no open scope has is the number of none. -/
theorem close_absent (h : Orderly o s) {number : Nat} (hnumber : number ∉ o.numbers) :
    Orderly (o.step (.close number)) (s.step (.close number)) := by
  have hsame : s.step (.close number) = s :=
    step_close_of_closed fun scope hscope ↦ hnumber (h.live number scope hscope)
  have hlive : o.live.filter (·.1 ≠ number) = o.live := by
    refine List.filter_eq_self.2 fun e he ↦ decide_eq_true ?_
    rintro rfl
    exact hnumber (List.mem_map_of_mem he)
  have hsame' : o.step (.close number) = o := congrArg (OpenScopes.mk o.next) hlive
  rw [hsame, hsame']
  exact h

theorem close_newest (h : Orderly o s) {number : Nat} (hnumber : o.numbers.head? = some number) :
    Orderly (o.step (.close number)) (s.step (.close number)) := by
  obtain ⟨next, live⟩ := o
  have hlength : s.opened.length = next := h.length_eq
  have hnumbers := h.live
  have hstacked := h.stacked
  cases hstacked with
  | nil => contradiction
  | @cons first key below hopened hbelow hrest =>
    obtain rfl : first = number := Option.some.inj hnumber
    have hstep : s.step (.close first) =
        ⟨⟨below.head?.map Prod.snd⟩, s.opened.set first none⟩ :=
      step_close_of_open hopened
    have hlive : ((first, key) :: below).filter (·.1 ≠ first) = below := by
      rw [List.filter_cons_of_neg (by simp)]
      exact List.filter_eq_self.2 fun e he ↦ decide_eq_true (Nat.ne_of_lt (hbelow e he))
    have hstep' : OpenScopes.step ⟨next, (first, key) :: below⟩ (.close first) = ⟨next, below⟩ :=
      congrArg (OpenScopes.mk next) hlive
    rw [hstep, hstep']
    refine ⟨rfl, by rw [List.length_set, hlength], hrest.set hbelow, fun number scope hscope ↦ ?_⟩
    have hne : first ≠ number := by
      rintro rfl
      rw [List.getElem?_set_self (List.getElem?_eq_some_iff.1 hopened).1] at hscope
      exact nomatch Option.some.inj hscope
    rw [List.getElem?_set_ne hne] at hscope
    exact (List.mem_cons.1 (hnumbers number scope hscope)).resolve_left hne.symm

theorem step (h : Orderly o s) {act : Act} (hact : o.InTurn act) :
    Orderly (o.step act) (s.step act) := by
  cases act with
  | enter key => exact h.enter key
  | look => exact h
  | close number =>
    by_cases hnumber : number ∈ o.numbers
    · exact h.close_newest (hact hnumber)
    · exact h.close_absent hnumber

/-- Scopes with different keys give themselves away when one is closed out of turn. -/
theorem current_ne (h : Orderly o s) {act : Act} (hkeys : (o.live.map Prod.snd).Nodup)
    (hact : ¬o.InTurn act) : (s.step act).slot.current ≠ (o.step act).newest := by
  cases act with
  | enter key => exact absurd trivial hact
  | look => exact absurd trivial hact
  | close number =>
    obtain ⟨hnumber, hfirst⟩ := Classical.not_imp.1 hact
    obtain ⟨above, key, below, hlive, hopened⟩ := h.stacked.split hnumber
    cases above with
    | nil =>
      rw [OpenScopes.numbers, hlive] at hfirst
      exact absurd rfl hfirst
    | cons newest above =>
      -- The newest scope stays; what comes back belongs to a scope below the one that is closed.
      rw [hlive, List.cons_append, List.map_cons] at hkeys
      have hnewest : newest.1 ≠ number := by
        intro heq
        rw [OpenScopes.numbers, hlive] at hfirst
        exact hfirst (congrArg some heq)
      have hcurrent : (s.step (.close number)).slot.current = below.head?.map Prod.snd := by
        rw [step_close_of_open hopened]
      have hstays : (o.step (.close number)).newest = some newest.2 := by
        simp only [OpenScopes.newest, OpenScopes.step, hlive, List.cons_append]
        rw [List.filter_cons_of_pos (by simpa using hnewest)]
        rfl
      rw [hcurrent, hstays]
      cases below with
      | nil => exact fun heq ↦ nomatch heq
      | cons second below =>
        intro heq
        refine (List.nodup_cons.1 hkeys).1 ?_
        rw [← Option.some.inj heq]
        simp

end Orderly

/-! ## What is current after each act -/

theorem trace_of_nested {o : OpenScopes} {s : Scopes} (h : Orderly o s) {acts : List Act}
    (hnested : o.Nested acts) : s.trace acts = o.trace acts := by
  induction acts generalizing o s with
  | nil => rfl
  | cons act rest ih =>
    have hstep := h.step hnested.1
    rw [trace, OpenScopes.trace, hstep.current_eq, ih hstep hnested.2]

theorem nested_of_trace {o : OpenScopes} {s : Scopes} (h : Orderly o s) {acts : List Act}
    (hkeys : (entered acts ++ o.live.map Prod.snd).Nodup) (htrace : s.trace acts = o.trace acts) :
    o.Nested acts := by
  induction acts generalizing o s with
  | nil => trivial
  | cons act rest ih =>
    obtain ⟨hcurrent, hrest⟩ := List.cons.inj htrace
    have hlive : (o.live.map Prod.snd).Nodup := hkeys.sublist (List.sublist_append_right _ _)
    have hact : o.InTurn act :=
      Classical.byContradiction fun hact ↦ h.current_ne hlive hact hcurrent
    refine ⟨hact, ih (h.step hact) ?_ hrest⟩
    cases act with
    | enter key => exact List.perm_middle.nodup_iff.2 hkeys
    | close number =>
      have hfewer : ((o.step (.close number)).live.map Prod.snd).Sublist (o.live.map Prod.snd) :=
        List.filter_sublist.map Prod.snd
      exact hkeys.sublist (hfewer.append_left _)
    | look => exact hkeys

theorem getElem?_opened_step {s : Scopes} {act : Act} {number : Nat} {scope : Option Scope}
    (hact : act ≠ .close number) (h : s.opened[number]? = some scope) :
    (s.step act).opened[number]? = some scope := by
  cases act with
  | enter key =>
    rw [step, List.getElem?_append_left (List.getElem?_eq_some_iff.1 h).1, h]
  | look => exact h
  | close other =>
    have hne : other ≠ number := fun heq ↦ hact (congrArg Act.close heq)
    simp only [step]
    split
    · rwa [List.getElem?_set_ne hne]
    · exact h

theorem getElem?_opened_after {s : Scopes} {acts : List Act} {number : Nat} {scope : Option Scope}
    (hacts : .close number ∉ acts) (h : s.opened[number]? = some scope) :
    (s.after acts).opened[number]? = some scope := by
  induction acts generalizing s with
  | nil => exact h
  | cons act rest ih =>
    rw [List.mem_cons, not_or] at hacts
    exact ih hacts.2 (getElem?_opened_step (fun heq ↦ hacts.1 heq.symm) h)

/-- Whatever was opened and closed in between, closing a scope makes current what was current
before it was opened. -/
theorem slot_close (s : Scopes) (key : Key) {between : List Act}
    (hbetween : .close s.opened.length ∉ between) :
    (((s.step (.enter key)).after between).step (.close s.opened.length)).slot = s.slot := by
  have hopened : (s.step (.enter key)).opened[s.opened.length]? = some (some ⟨s.slot.current⟩) :=
    List.getElem?_concat_length
  rw [step_close_of_open (getElem?_opened_after hbetween hopened)]

/-- If scopes are closed in turn, the key of the newest open scope is current after each act, and
if they have different keys, then only if they are closed in turn. In any case closing a scope makes
current what was current before it was opened. -/
theorem trace_newest (acts : List Act) :
    (({} : OpenScopes).Nested acts → ({} : Scopes).trace acts = ({} : OpenScopes).trace acts) ∧
    ((entered acts).Nodup → ({} : Scopes).trace acts = ({} : OpenScopes).trace acts →
      ({} : OpenScopes).Nested acts) ∧
    ∀ (s : Scopes) (key : Key), .close s.opened.length ∉ acts →
      (((s.step (.enter key)).after acts).step (.close s.opened.length)).slot = s.slot := by
  refine ⟨fun hnested ↦ trace_of_nested .start hnested, fun hkeys htrace ↦ ?_, ?_⟩
  · exact nested_of_trace .start (by simpa using hkeys) htrace
  · exact fun s key hacts ↦ slot_close s key hacts

/-- Two scopes that are closed in turn. -/
theorem trace_newest_two :
    ({} : OpenScopes).Nested [.enter .proxy, .enter (.numbered 1), .close 1, .close 0] ∧
      ({} : Scopes).trace [.enter .proxy, .enter (.numbered 1), .close 1, .close 0] =
        [some .proxy, some (.numbered 1), some .proxy, none] := by
  have hnested : ({} : OpenScopes).Nested
      [.enter .proxy, .enter (.numbered 1), .close 1, .close 0] := by
    simp [OpenScopes.Nested, OpenScopes.InTurn, OpenScopes.step, OpenScopes.numbers]
  exact ⟨hnested, (trace_newest _).1 hnested⟩

/-- With the older of two scopes closed first, no key is current while one is open, and one is when
none is. -/
theorem trace_out_of_turn :
    ({} : Scopes).trace [.enter (.numbered 0), .enter (.numbered 1), .close 0, .close 1] =
        [some (.numbered 0), some (.numbered 1), none, some (.numbered 0)] ∧
      ({} : OpenScopes).trace [.enter (.numbered 0), .enter (.numbered 1), .close 0, .close 1] =
        [some (.numbered 0), some (.numbered 1), some (.numbered 1), none] := by
  decide

end Scopes

end ForeignPasses
