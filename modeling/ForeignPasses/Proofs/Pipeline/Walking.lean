import ForeignPasses.Proofs.Pipeline.Places

/-!
# Walking over texts

The readers take characters off a list, and their types say that less is left each time. A cursor
that walks over the bytes of a text has to see to that itself: its loops are written down without a
reason why they end, and its offsets may be anywhere. Here is what the single steps and loops of
such a walk come to where the cursor stands between two characters.
-/

namespace ForeignPasses.Pipeline

open Text

/-- How far a text has been walked over, as an offset in bytes, and how many elements have been
begun. -/
structure Cursor where
  pos : String.Pos.Raw
  begun : Nat

/-- Nothing comes of a walk that goes on forever, or that looks at a text from inside of one of its
characters. -/
abbrev Walk := ExceptT Error (StateT Cursor Option)

/-- The characters between two offsets, if these are between characters of the text and in order. -/
def between? (text : String) (start stop : String.Pos.Raw) : Option (List Char) :=
  if h : start.IsValid text ∧ stop.IsValid text ∧ start ≤ stop then
    some (text.extract (text.pos start h.1) (text.pos stop h.2.1)).toList
  else none

namespace Walk

variable {α β : Type}

/-- The outcome of a walk, and where the cursor is then. -/
def runFrom (walk : Walk α) (c : Cursor) : Option (Except Error α × Cursor) := walk.run.run c

/-- A walk, and what is done with what comes of it. -/
abbrev andThen (walk : Walk α) (next : α → Walk β) : Walk β := walk >>= next

/-- A walk behind a first step. -/
abbrev after (walk : Walk α) (first : Walk Unit) : Walk α := first >>= fun _ ↦ walk

/-! ## Steps and loops -/

def offset : Walk String.Pos.Raw := do return (← get).pos

def advance (c : Char) : Walk Unit := modify fun cursor ↦ { cursor with pos := cursor.pos + c }

def begin : Walk Unit := modify fun cursor ↦ { cursor with begun := cursor.begun + 1 }

section Steps

variable (text : String)

/-- The characters from an offset up to the cursor. -/
def since (start : String.Pos.Raw) : Walk (List Char) := do
  liftM (between? text start (← offset))

/-- The next character. -/
def peek : Walk (Option Char) := do
  let ahead ← liftM (between? text (← offset) text.rawEndPos)
  return ahead.head?

section Skipping

variable (p : Char → Bool)

def skipWhile : Walk Unit := do
  match ← peek text with
  | some c => if p c then skipWhile.after (advance c) else return
  | none => return
partial_fixpoint

end Skipping

/-- The characters up to the next delimiter. -/
def word : Walk (List Char) := do
  let start ← offset
  skipWhile text (!isDelimiter ·)
  since text start

/-- Goes past a character, if that comes next behind blanks. The blanks are passed anyway. -/
def eat (c : Char) : Walk Bool := do
  skipWhile text isBlank
  if (← peek text) = some c then
    advance c
    return true
  else return false

/-- Goes past the parenthesis behind what has been read. -/
def closing (a : α) : Walk α := do
  if ← eat text ')' then return a
  else throw (.unbalancedParens (← offset).byteIdx)

/-- Sees to it that only blanks are left. -/
def ending (a : α) : Walk α := do
  skipWhile text isBlank
  let stop ← offset
  if stop = text.rawEndPos then return a
  else throw (.unbalancedParens stop.byteIdx)

mutual

/-- Reads one element. -/
def element : Walk Element := do
  begin
  let start ← offset
  let name := trim (← word text)
  if name = [] then throw (.emptyName start.byteIdx)
  else children.andThen fun inner ↦ return .mk (String.ofList name) inner
partial_fixpoint

/-- Reads the children of an element, if it has any. -/
def children : Walk (List Element) := do
  if ← eat text '(' then pipeline.andThen (closing text)
  else return []
partial_fixpoint

/-- Reads an element, and others as long as commas follow. -/
def pipeline : Walk (List Element) :=
  element.andThen fun first ↦ others.andThen fun elements ↦ return first :: elements
partial_fixpoint

/-- Reads elements behind commas. -/
def others : Walk (List Element) := do
  if ← eat text ',' then
    element.andThen fun next ↦ others.andThen fun elements ↦ return next :: elements
  else return []
partial_fixpoint

end

/-- Reads a whole text. -/
def whole : Walk (List Element) := (pipeline text).andThen (ending text)

end Steps

/-! ## Sequences -/

section Sequences

variable {c c' : Cursor}

theorem runFrom_liftM (a? : Option α) :
    (liftM a? : Walk α).runFrom c = a?.map fun a ↦ (.ok a, c) := by
  cases a? <;> rfl

theorem runFrom_offset : offset.runFrom c = some (.ok c.pos, c) := rfl

theorem runFrom_begin :
    begin.runFrom c = some (.ok (), { c with begun := c.begun + 1 }) := rfl

theorem runFrom_bind (walk : Walk α) (next : α → Walk β) : (walk >>= next).runFrom c =
    (walk.runFrom c).bind fun
      | (.ok a, c') => (next a).runFrom c'
      | (.error e, c') => some (.error e, c') := by
  change (walk.runFrom c).bind _ = _
  congr 1
  funext r
  rcases r with ⟨_ | a, c'⟩ <;> rfl

theorem runFrom_bind_ok {walk : Walk α} {a : α} (h : walk.runFrom c = some (.ok a, c'))
    (next : α → Walk β) : (walk >>= next).runFrom c = (next a).runFrom c' := by
  rw [runFrom_bind, h, Option.bind_some]

end Sequences

end Walk

/-! ## Between two characters -/

/-- The cursor in front of the last characters of a text. -/
def Cursor.before (text : String) (rest : List Char) (begun : Nat) : Cursor :=
  ⟨⟨byteLength text.toList - byteLength rest⟩, begun⟩

theorem between?_append (front mid back : String) :
    between? (front ++ mid ++ back) front.rawEndPos (front ++ mid).rawEndPos = some mid.toList := by
  have hstart : front.rawEndPos.IsValid (front ++ mid ++ back) :=
    String.Pos.Raw.isValid_iff_exists_append.2
      ⟨front, mid ++ back, by rw [String.append_assoc], rfl⟩
  have hstop : (front ++ mid).rawEndPos.IsValid (front ++ mid ++ back) :=
    String.Pos.Raw.isValid_iff_exists_append.2 ⟨front ++ mid, back, rfl, rfl⟩
  have hle : front.rawEndPos ≤ (front ++ mid).rawEndPos := by
    rw [String.Pos.Raw.le_iff]
    simp
  rw [between?, dif_pos ⟨hstart, hstop, hle⟩]
  congr 2
  have hsize : (front ++ mid).utf8ByteSize = (front.toByteArray ++ mid.toByteArray).size := by
    rw [← String.toByteArray_append, String.size_toByteArray]
  rw [← String.toByteArray_inj, String.toByteArray_extract]
  simp only [String.toByteArray_append, String.offset_pos, String.byteIdx_rawEndPos, hsize]
  rw [ByteArray.extract_append_size_left]
  exact ByteArray.extract_append_eq_right rfl ByteArray.size_append

section Before

variable {text : String} {mid rest : List Char} {begun : Nat}

theorem rawEndPos_ofList (cs : List Char) : (String.ofList cs).rawEndPos = ⟨byteLength cs⟩ := by
  rw [String.rawEndPos, utf8ByteSize_eq_byteLength, String.toList_ofList]

theorem before_pos {front : List Char} (h : front ++ rest = text.toList) :
    (Cursor.before text rest begun).pos = (String.ofList front).rawEndPos := by
  rw [Cursor.before, ← h, byteLength_append, Nat.add_sub_cancel_right, rawEndPos_ofList]

theorem before_nil (text : String) (begun : Nat) :
    (Cursor.before text [] begun).pos = text.rawEndPos := by
  rw [before_pos (List.append_nil text.toList), String.ofList_toList]

theorem byteLength_le_of_suffix (h : rest <:+ text.toList) :
    byteLength rest ≤ byteLength text.toList := by
  obtain ⟨front, hfront⟩ := h
  rw [← hfront, byteLength_append]
  exact Nat.le_add_left _ _

theorem before_pos_le (mid rest : List Char) (begun begun' : Nat) :
    (Cursor.before text (mid ++ rest) begun).pos ≤ (Cursor.before text rest begun').pos := by
  rw [Cursor.before, Cursor.before, String.Pos.Raw.le_iff, byteLength_append]
  dsimp only
  omega

/-- Every character has a byte. -/
theorem before_pos_lt (h : mid ++ rest <:+ text.toList) (hmid : mid ≠ []) (begun begun' : Nat) :
    (Cursor.before text (mid ++ rest) begun).pos < (Cursor.before text rest begun').pos := by
  have hle := byteLength_le_of_suffix h
  have hpos : 0 < byteLength mid := by
    obtain ⟨c, cs, rfl⟩ := List.exists_cons_of_ne_nil hmid
    rw [byteLength_cons]
    exact Nat.add_pos_left c.utf8Size_pos _
  rw [byteLength_append] at hle
  rw [Cursor.before, Cursor.before, String.Pos.Raw.lt_iff, byteLength_append]
  dsimp only
  omega

theorem between?_before (h : mid ++ rest <:+ text.toList) (begun begun' : Nat) :
    between? text (Cursor.before text (mid ++ rest) begun).pos
      (Cursor.before text rest begun').pos = some mid := by
  obtain ⟨front, hfront⟩ := h
  have hmid : front ++ mid ++ rest = text.toList := by
    rw [List.append_assoc, hfront]
  have htext : text = String.ofList front ++ String.ofList mid ++ String.ofList rest := by
    rw [← String.ofList_append, ← String.ofList_append, hmid, String.ofList_toList]
  have hbetween := between?_append (String.ofList front) (String.ofList mid) (String.ofList rest)
  rwa [← htext, ← String.ofList_append, ← before_pos hfront, ← before_pos hmid,
    String.toList_ofList] at hbetween

end Before

/-! ## Places between characters -/

section Places

variable {text : String} {p q : text.Pos}

/-- What is left of a text behind a place between two characters. -/
def remaining (p : text.Pos) : List Char := (text.sliceFrom p).copy.toList

theorem remaining_eq_of_splits {front back : String} (h : p.Splits front back) :
    remaining p = back.toList := by
  rw [remaining, p.splits.eq_right h]

theorem remaining_startPos (text : String) : remaining text.startPos = text.toList :=
  remaining_eq_of_splits text.splits_startPos

theorem sliceTo_append_remaining (p : text.Pos) :
    (text.sliceTo p).copy.toList ++ remaining p = text.toList := by
  rw [remaining, ← String.toList_append, ← p.splits.eq_append]

theorem remaining_suffix (p : text.Pos) : remaining p <:+ text.toList :=
  ⟨_, sliceTo_append_remaining p⟩

/-- Every rest of a text is what is left behind such a place. -/
theorem exists_remaining_eq {rest : List Char} (h : rest <:+ text.toList) :
    ∃ p : text.Pos, remaining p = rest := by
  obtain ⟨front, hfront⟩ := h
  have htext : text = String.ofList front ++ String.ofList rest := by
    rw [← String.ofList_append, hfront, String.ofList_toList]
  have hvalid : (String.ofList front).rawEndPos.IsValid text :=
    String.Pos.Raw.isValid_iff_exists_append.2 ⟨_, _, htext, rfl⟩
  refine ⟨text.pos _ hvalid, ?_⟩
  rw [remaining_eq_of_splits ⟨htext, String.offset_pos⟩, String.toList_ofList]

/-- Cursors in front of rests stand at these places. -/
theorem before_remaining (p : text.Pos) (begun : Nat) :
    Cursor.before text (remaining p) begun = ⟨p.offset, begun⟩ := by
  have hpos : (Cursor.before text (remaining p) begun).pos = p.offset := by
    rw [before_pos (sliceTo_append_remaining p), String.ofList_toList,
      p.splits.offset_eq_rawEndPos]
  rw [← hpos]
  rfl

theorem le_of_remaining_suffix (h : remaining q <:+ remaining p) : p ≤ q := by
  obtain ⟨mid, hmid⟩ := h
  have hle : (Cursor.before text (mid ++ remaining q) 0).pos ≤ _ := before_pos_le mid _ 0 0
  rw [hmid, before_remaining, before_remaining] at hle
  exact String.Pos.le_iff.2 hle

end Places

/-! ## What the steps and loops come to -/

namespace Walk

variable {α : Type} {text : String} {rest : List Char} {begun : Nat}

theorem runFrom_since {mid : List Char} (h : mid ++ rest <:+ text.toList) (begun begun' : Nat) :
    (since text (Cursor.before text (mid ++ rest) begun').pos).runFrom (.before text rest begun) =
      some (.ok mid, .before text rest begun) := by
  rw [since, runFrom_bind_ok runFrom_offset, runFrom_liftM, between?_before h, Option.map_some]

theorem runFrom_peek (h : rest <:+ text.toList) : (peek text).runFrom (.before text rest begun) =
    some (.ok rest.head?, .before text rest begun) := by
  have hahead : between? text (Cursor.before text rest begun).pos text.rawEndPos = some rest := by
    have hall : rest ++ [] <:+ text.toList := by rwa [List.append_nil]
    have hbetween := between?_before hall begun begun
    rwa [before_nil, List.append_nil] at hbetween
  rw [peek, runFrom_bind_ok runFrom_offset, runFrom_bind, runFrom_liftM, hahead]
  rfl

theorem runFrom_advance {c : Char} (h : c :: rest <:+ text.toList) :
    (advance c).runFrom (.before text (c :: rest) begun) =
      some (.ok (), .before text rest begun) := by
  have hle := byteLength_le_of_suffix h
  have hpos : (Cursor.before text (c :: rest) begun).pos + c =
      (Cursor.before text rest begun).pos := by
    rw [byteLength_cons] at hle
    rw [String.Pos.Raw.ext_iff, String.Pos.Raw.byteIdx_add_char, Cursor.before, Cursor.before,
      byteLength_cons]
    dsimp only
    omega
  change some (Except.ok (), Cursor.mk _ begun) = _
  rw [hpos]
  rfl

/-- Skipping ends because the text does. -/
theorem runFrom_skipWhile (p : Char → Bool) (h : rest <:+ text.toList) :
    (skipWhile text p).runFrom (.before text rest begun) =
      some (.ok (), .before text (rest.dropWhile p) begun) := by
  induction rest with
  | nil =>
    rw [skipWhile, runFrom_bind_ok (runFrom_peek h)]
    rfl
  | cons c rest ih =>
    rw [skipWhile, runFrom_bind_ok (runFrom_peek h)]
    cases hc : p c with
    | true =>
      have hrest : rest <:+ text.toList := (List.suffix_cons c rest).trans h
      dsimp only [List.head?_cons]
      rw [if_pos hc, runFrom_bind_ok (runFrom_advance h), ih hrest, List.dropWhile_cons_of_pos hc]
    | false =>
      dsimp only [List.head?_cons]
      rw [if_neg (by simp [hc]), List.dropWhile_cons_of_neg (by simp [hc])]
      rfl

theorem runFrom_word (h : rest <:+ text.toList) : (word text).runFrom (.before text rest begun) =
    some (.ok (rest.takeWhile (!isDelimiter ·)), .before text (afterName rest) begun) := by
  have hword : rest.takeWhile (!isDelimiter ·) ++ afterName rest = rest :=
    List.takeWhile_append_dropWhile
  have hsince := runFrom_since (hword.symm ▸ h) begun begun
  rw [hword] at hsince
  rw [word, runFrom_bind_ok runFrom_offset, runFrom_bind_ok (runFrom_skipWhile _ h), ← afterName,
    hsince]

theorem skipBlank_suffix (h : rest <:+ text.toList) : skipBlank rest <:+ text.toList :=
  (List.dropWhile_suffix _).trans h

theorem runFrom_eat {c : Char} {behind : List Char} (h : rest <:+ text.toList)
    (hc : skipBlank rest = c :: behind) : (eat text c).runFrom (.before text rest begun) =
      some (.ok true, .before text behind begun) := by
  have hskip : c :: behind <:+ text.toList := hc ▸ skipBlank_suffix h
  rw [eat, runFrom_bind_ok (runFrom_skipWhile isBlank h), ← skipBlank, hc,
    runFrom_bind_ok (runFrom_peek hskip), List.head?_cons, if_pos rfl,
    runFrom_bind_ok (runFrom_advance hskip)]
  rfl

theorem runFrom_eat_of_ne {c : Char} (h : rest <:+ text.toList)
    (hc : ∀ behind, skipBlank rest ≠ c :: behind) :
    (eat text c).runFrom (.before text rest begun) =
      some (.ok false, .before text (skipBlank rest) begun) := by
  have hhead : (skipBlank rest).head? ≠ some c := by
    intro hhead
    obtain ⟨behind, hbehind⟩ := List.head?_eq_some_iff.1 hhead
    exact hc behind hbehind
  rw [eat, runFrom_bind_ok (runFrom_skipWhile isBlank h), ← skipBlank,
    runFrom_bind_ok (runFrom_peek (skipBlank_suffix h)), if_neg hhead]
  rfl

theorem runFrom_ending (h : rest <:+ text.toList) (hend : skipBlank rest = []) (a : α) :
    (ending text a).runFrom (.before text rest begun) =
      some (.ok a, .before text [] begun) := by
  rw [ending, runFrom_bind_ok (runFrom_skipWhile isBlank h), ← skipBlank, hend,
    runFrom_bind_ok runFrom_offset, if_pos (before_nil text begun)]
  rfl

theorem runFrom_ending_of_ne (h : rest <:+ text.toList) (hend : skipBlank rest ≠ []) (a : α) :
    (ending text a).runFrom (.before text rest begun) =
      some (.error ((Stop.unbalanced (skipBlank rest)).error text.toList),
        .before text (skipBlank rest) begun) := by
  have hall : skipBlank rest ++ [] <:+ text.toList := by
    rw [List.append_nil]
    exact skipBlank_suffix h
  have hlt := before_pos_lt hall hend begun begun
  rw [List.append_nil, before_nil] at hlt
  rw [ending, runFrom_bind_ok (runFrom_skipWhile isBlank h), ← skipBlank,
    runFrom_bind_ok runFrom_offset, if_neg (String.Pos.Raw.ne_of_lt hlt)]
  rfl

end Walk

end ForeignPasses.Pipeline
