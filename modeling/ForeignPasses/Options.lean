import ForeignPasses.Level

/-!
# Command line options

The options that every tool takes: a textual pipeline, a level, and flags for link time and for
talking more. A value may be attached to its option or be the next argument, unless that looks
like an option itself.
-/

namespace ForeignPasses

structure Options where
  passes : Option String
  effort : Effort
  link : Bool
  verbose : Bool

namespace Options

/-- Why a command line is refused, or not run at all. -/
inductive Error where
  | badLevel
  | usage
  | helpOrVersion
  deriving DecidableEq, Repr

def levelMessage : String := "level must be one of '0', '1', '2', '3', 's', 'z'"

/-- One item of a command line. A word after a double dash is positional. -/
inductive Item where
  | short (name : Char)
  | long (name : String)
  | word (text : String)
  | positional (text : String)
  deriving DecidableEq, Repr

/-! ## Splitting arguments -/

/-- Flags that one character stands for. -/
def isFlag (c : Char) : Bool := c = 'v' || c = 'h' || c = 'V'

/-- Options with a value that one character stands for. -/
def takesValue (c : Char) : Bool := c = 'p' || c = 'O'

/-- Several characters behind one dash: flags, and then perhaps one option, with the rest for its
value. There is no such reading if a character is neither. -/
def cluster? : List Char → Option (List Item)
  | [] => some []
  | c :: rest =>
    if isFlag c then (cluster? rest).map (.short c :: ·)
    else if takesValue c then
      some (if rest.isEmpty then [.short c] else [.short c, .word (String.ofList rest)])
    else none

/-- Items of an argument with one dash, of which `c` is the character behind it. An equals sign
later on makes `c` an option by itself and all the rest its value; only an option of one byte can
have that. What has no reading as options is a word. -/
def shortItems (arg : String) (c : Char) (rest : List Char) : List Item :=
  match rest.span (· ≠ '=') with
  | ([], []) => [.short c]
  | (_, []) => (cluster? (c :: rest)).getD [.word arg]
  | (before, _ :: value) =>
    if c.utf8Size ≠ 1 then [.word arg]
    else if before.isEmpty then [.short c, .word (String.ofList value)]
    else [.short c, .word (String.ofList rest)]

/-- The option behind two dashes, and its value if there is an equals sign. -/
def longItems (cs : List Char) : List Item :=
  match cs.span (· ≠ '=') with
  | (name, _ :: value) => [.long (String.ofList name), .word (String.ofList value)]
  | (name, []) => [.long (String.ofList name)]

/-- The items of a command line. -/
def items : List String → List Item
  | [] => []
  | arg :: rest =>
    match arg.toList with
    | ['-', '-'] => rest.map .positional
    | '-' :: '-' :: name => longItems name ++ items rest
    | '-' :: c :: more => shortItems arg c more ++ items rest
    | _ => .word arg :: items rest

/-! ## Taking options out -/

/-- Items that are left; one that was taken leaves a gap. -/
abbrev Left := List (Option Item)

def names (short : Char) (long : Option String) : Item → Bool
  | .short c => c = short
  | .long n => long = some n
  | _ => false

/-- Takes the first option with a name, and its value, which must follow. -/
def takeValue (p : Item → Bool) : Left → Except Error (Option String × Left)
  | [] => .ok (none, [])
  | some i :: rest =>
    if p i then
      match rest with
      | some (.word value) :: rest' => .ok (some value, none :: none :: rest')
      | _ => .error .usage
    else (takeValue p rest).map fun (v, l) ↦ (v, some i :: l)
  | none :: rest => (takeValue p rest).map fun (v, l) ↦ (v, none :: l)

/-- Takes the first flag with a name. -/
def takeFlag (p : Item → Bool) : Left → Bool × Left
  | [] => (false, [])
  | some i :: rest =>
    if p i then (true, none :: rest) else ((takeFlag p rest).1, some i :: (takeFlag p rest).2)
  | none :: rest => ((takeFlag p rest).1, none :: (takeFlag p rest).2)

def levelOf? : String → Option Level
  | "0" => some .O0
  | "1" => some .O1
  | "2" => some .O2
  | "3" => some .O3
  | "s" => some .Os
  | "z" => some .Oz
  | _ => none

/-- The level that was asked for, the usual one if none was. -/
def levelOrDefault : Option String → Except Error Level
  | none => .ok .O2
  | some text =>
    match levelOf? text with
    | some level => .ok level
    | none => .error .badLevel

def parseItems (left : Left) : Except Error Options := do
  let (passes, left) ← takeValue (names 'p' (some "passes")) left
  let (level, left) ← takeValue (names 'O' none) left
  let level ← levelOrDefault level
  let (link, left) := takeFlag (· = .long "lto") left
  let (verbose, left) := takeFlag (names 'v' (some "verbose")) left
  if left.any Option.isSome then throw .usage
  return ⟨passes, level.effort, link, verbose⟩

def asksForHelp (i : Item) : Bool :=
  names 'h' (some "help") i || names 'V' (some "version") i

/-- Reads a command line. Asking for help wins over whatever else is wrong with it. -/
def parse (args : List String) : Except Error Options :=
  if (items args).any asksForHelp then .error .helpOrVersion
  else parseItems ((items args).map some)

end Options

end ForeignPasses
