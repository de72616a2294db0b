import ForeignPasses.Text.Reading

/-!
# JSON values

JSON text as lexemes and as values. Only so much of a value is kept as a record can use: numbers
that are not natural are all alike, and a text that names half of a surrogate pair is `none`, for
it may stand where nobody reads it.
-/

namespace ForeignPasses.Record

inductive Lexeme where
  | mark (c : Char)
  | null
  | truth (value : Bool)
  | natural (value : Nat)
  | number
  | text (value : Option String)
  deriving DecidableEq, Repr

inductive Value where
  | null
  | truth (value : Bool)
  | natural (value : Nat)
  | number
  | text (value : Option String)
  | array (items : List Value)
  | object (fields : List (Option String × Value))
  deriving Repr

/-! ## Texts -/

/-- A character of a text, or a 16-bit unit that was written by its number. -/
inductive Piece where
  | char (c : Char)
  | unit (value : Nat)
  deriving DecidableEq, Repr

def hexDigit? (c : Char) : Option Nat :=
  if '0' ≤ c ∧ c ≤ '9' then some (c.toNat - '0'.toNat)
  else if 'a' ≤ c ∧ c ≤ 'f' then some (c.toNat - 'a'.toNat + 10)
  else if 'A' ≤ c ∧ c ≤ 'F' then some (c.toNat - 'A'.toNat + 10)
  else none

def hexUnit? (digits : List Char) : Option Nat :=
  digits.foldlM (fun n c ↦ (hexDigit? c).map (16 * n + ·)) 0

/-- What a character after a backslash stands for. -/
def escaped? : Char → Option Char
  | '"' => some '"'
  | '\\' => some '\\'
  | '/' => some '/'
  | 'b' => some '\x08'
  | 'f' => some '\x0c'
  | 'n' => some '\n'
  | 'r' => some '\r'
  | 't' => some '\t'
  | _ => none

/-- The pieces up to the closing quote. Control characters must be escaped. -/
def pieces : (cs : List Char) → Option (Reading cs (List Piece))
  | [] => none
  | '"' :: rest => some ⟨[], rest, by simp⟩
  | '\\' :: 'u' :: a :: b :: c :: d :: rest => do
    let n ← hexUnit? [a, b, c, d]
    return ((← pieces rest).map (.unit n :: ·)).widen (by simp only [List.length_cons]; omega)
  | '\\' :: c :: rest => do
    let x ← escaped? c
    return ((← pieces rest).map (.char x :: ·)).widen (by simp only [List.length_cons]; omega)
  | c :: rest => do
    if c < ' ' then none
    return ((← pieces rest).map (.char c :: ·)).widen (by simp)

/-- The character of a surrogate pair. -/
def pairChar (high low : Nat) : Char :=
  Char.ofNat (0x10000 + (high - 0xd800) * 0x400 + (low - 0xdc00))

def isHigh (n : Nat) : Bool := 0xd800 ≤ n && n ≤ 0xdbff

def isLow (n : Nat) : Bool := 0xdc00 ≤ n && n ≤ 0xdfff

/-- Puts pieces together, unless half of a pair stands alone. -/
def joinPieces : List Piece → Option (List Char)
  | [] => some []
  | .char c :: rest => (joinPieces rest).map (c :: ·)
  | .unit high :: .unit low :: rest =>
    if isHigh high then
      if isLow low then (joinPieces rest).map (pairChar high low :: ·) else none
    else if isLow high then none
    else (joinPieces (.unit low :: rest)).map (Char.ofNat high :: ·)
  | .unit n :: rest =>
    if isHigh n || isLow n then none else (joinPieces rest).map (Char.ofNat n :: ·)

/-! ## Numbers -/

/-- One or more decimal digits. -/
def digits (cs : List Char) : Option (Reading cs (List Char)) :=
  if h : cs.takeWhile Char.isDigit = [] then none
  else
    some ⟨cs.takeWhile Char.isDigit, cs.dropWhile Char.isDigit, by
      have hsum : (cs.takeWhile Char.isDigit).length + (cs.dropWhile Char.isDigit).length =
          cs.length := by
        rw [← List.length_append, List.takeWhile_append_dropWhile]
      have := List.length_pos_iff.2 h
      omega⟩

/-- The rest after a part that may be missing, and whether it is there. -/
structure Optional (cs : List Char) where
  present : Bool
  rest : List Char
  le : rest.length ≤ cs.length

def fraction : (cs : List Char) → Option (Optional cs)
  | '.' :: rest => do
    let d ← digits rest
    return ⟨true, d.rest, by have := d.shorter; simp; omega⟩
  | cs => some ⟨false, cs, Nat.le_refl _⟩

/-- Drops a sign, if there is one. -/
def unsigned : List Char → List Char
  | '+' :: rest => rest
  | '-' :: rest => rest
  | cs => cs

theorem length_unsigned_le (cs : List Char) : (unsigned cs).length ≤ cs.length := by
  unfold unsigned
  split <;> simp

def exponent : (cs : List Char) → Option (Optional cs)
  | c :: rest =>
    if c = 'e' ∨ c = 'E' then do
      let d ← digits (unsigned rest)
      return ⟨true, d.rest, by
        have := d.shorter
        have := length_unsigned_le rest
        simp
        omega⟩
    else some ⟨false, c :: rest, Nat.le_refl _⟩
  | [] => some ⟨false, [], Nat.le_refl _⟩

/-- A number without a sign. A leading zero stands alone. -/
def magnitude (cs : List Char) : Option (Reading cs Lexeme) := do
  let whole ← digits cs
  if whole.value.head? = some '0' ∧ whole.value.length > 1 then none
  let f ← fraction whole.rest
  let e ← exponent f.rest
  let lexeme :=
    if f.present || e.present then Lexeme.number
    else .natural (whole.value.foldl (fun n c ↦ 10 * n + (c.toNat - '0'.toNat)) 0)
  return ⟨lexeme, e.rest, by
    have := whole.shorter
    have := f.le
    have := e.le
    omega⟩

/-! ## Lexemes -/

def isSpace (c : Char) : Bool := c == ' ' || c == '\n' || c == '\t' || c == '\r'

def isMark (c : Char) : Bool :=
  c == '[' || c == ']' || c == '\x7b' || c == '\x7d' || c == ',' || c == ':'

/-- The lexeme at the front of a text. -/
def lexeme : (cs : List Char) → Option (Reading cs Lexeme)
  | [] => none
  | '"' :: rest => do
    let p ← pieces rest
    return (p.map fun ps ↦ .text ((joinPieces ps).map String.ofList)).widen (by simp)
  | '-' :: rest => do
    let m ← magnitude rest
    return (m.map fun _ ↦ .number).widen (by simp)
  | 'n' :: 'u' :: 'l' :: 'l' :: rest =>
    some ⟨.null, rest, by simp only [List.length_cons]; omega⟩
  | 't' :: 'r' :: 'u' :: 'e' :: rest =>
    some ⟨.truth true, rest, by simp only [List.length_cons]; omega⟩
  | 'f' :: 'a' :: 'l' :: 's' :: 'e' :: rest =>
    some ⟨.truth false, rest, by simp only [List.length_cons]; omega⟩
  | c :: rest => if isMark c then some ⟨.mark c, rest, by simp⟩ else magnitude (c :: rest)

/-- The lexemes of a text. -/
def lexemes (cs : List Char) : Option (List Lexeme) :=
  match cs with
  | [] => some []
  | c :: rest =>
    if isSpace c then lexemes rest
    else
      match lexeme (c :: rest) with
      | none => none
      | some ⟨l, rest', h⟩ =>
        have : rest'.length < rest.length + 1 := h
        (lexemes rest').map (l :: ·)
termination_by cs.length

/-! ## Values -/

mutual

def value (ls : List Lexeme) : Option (Reading ls Value) :=
  match ls with
  | .null :: rest => some ⟨.null, rest, by simp⟩
  | .truth b :: rest => some ⟨.truth b, rest, by simp⟩
  | .natural n :: rest => some ⟨.natural n, rest, by simp⟩
  | .number :: rest => some ⟨.number, rest, by simp⟩
  | .text t :: rest => some ⟨.text t, rest, by simp⟩
  | .mark '[' :: .mark ']' :: rest =>
    some ⟨.array [], rest, by simp only [List.length_cons]; omega⟩
  | .mark '\x7b' :: .mark '\x7d' :: rest =>
    some ⟨.object [], rest, by simp only [List.length_cons]; omega⟩
  | .mark '[' :: rest =>
    match items rest with
    | some r => some ((r.map .array).widen (by simp))
    | none => none
  | .mark '\x7b' :: rest =>
    match fields rest with
    | some r => some ((r.map .object).widen (by simp))
    | none => none
  | _ => none
termination_by (ls.length, 0)

/-- One or more values with commas between them, and the closing bracket. -/
def items (ls : List Lexeme) : Option (Reading ls (List Value)) :=
  match value ls with
  | none => none
  | some r =>
    match r.past? (.mark ',') with
    | none => (r.past? (.mark ']')).map (·.map ([·]))
    | some r' =>
      have := r'.shorter
      (items r'.rest).map fun r'' ↦ (r''.map (r'.value :: ·)).widen (Nat.le_of_lt r'.shorter)
termination_by (ls.length, 1)

/-- One or more fields with commas between them, and the closing brace. -/
def fields (ls : List Lexeme) : Option (Reading ls (List (Option String × Value))) :=
  match ls with
  | .text k :: .mark ':' :: rest =>
    match value rest with
    | none => none
    | some r =>
      let r := (r.map (k, ·)).widen (Nat.le_add_right _ 2)
      match r.past? (.mark ',') with
      | none => (r.past? (.mark '\x7d')).map (·.map ([·]))
      | some r' =>
        have := r'.shorter
        (fields r'.rest).map fun r'' ↦ (r''.map (r'.value :: ·)).widen (Nat.le_of_lt r'.shorter)
  | _ => none
termination_by (ls.length, 1)

end

/-- Reads a text that is one value. -/
def read? (text : String) : Option Value := do
  let ls ← lexemes text.toList
  let r ← value ls
  if r.rest.isEmpty then some r.value else none

/-! ## Writing -/

def hexChar (n : Nat) : Char := Nat.digitChar n

/-- What stands for a character in a written text. -/
def writeChar (c : Char) : List Char :=
  match c with
  | '"' => ['\\', '"']
  | '\\' => ['\\', '\\']
  | '\x08' => ['\\', 'b']
  | '\x0c' => ['\\', 'f']
  | '\n' => ['\\', 'n']
  | '\r' => ['\\', 'r']
  | '\t' => ['\\', 't']
  | c =>
    if c < ' ' then ['\\', 'u', '0', '0', hexChar (c.toNat / 16), hexChar (c.toNat % 16)] else [c]

def writeText (text : String) : String :=
  String.ofList (['"'] ++ text.toList.flatMap writeChar ++ ['"'])

end ForeignPasses.Record
