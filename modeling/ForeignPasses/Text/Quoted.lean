import ForeignPasses.Text.Printable

/-!
# Quoted text

Text between double quotes, so that its ends can be seen. Quotes and backslashes get a backslash,
and characters that cannot be shown are written by their number.
-/

namespace ForeignPasses.Text

/-- The escape of a code point: its number in lower-case hexadecimal digits. -/
def numberEscape (c : Char) : List Char :=
  ['\\', 'u', '\x7b'] ++ Nat.toDigits 16 c.toNat ++ ['\x7d']

/-- What stands for a character between quotes. -/
def quoteChar (c : Char) : List Char :=
  match c with
  | '"' => ['\\', '"']
  | '\\' => ['\\', '\\']
  | '\n' => ['\\', 'n']
  | '\r' => ['\\', 'r']
  | '\t' => ['\\', 't']
  | '\x00' => ['\\', '0']
  | c => if isPrintable c then [c] else numberEscape c

def quote (text : String) : String :=
  String.ofList (['"'] ++ text.toList.flatMap quoteChar ++ ['"'])

/-- Quoted texts between brackets. -/
def quoteAll (texts : List String) : String :=
  "[" ++ String.intercalate ", " (texts.map quote) ++ "]"

end ForeignPasses.Text
