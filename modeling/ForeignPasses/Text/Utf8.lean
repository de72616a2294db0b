/-!
# Names in bytes

Foreign code hands over names as bytes. They are names only if they are well-formed UTF-8: no
overlong forms, no surrogates, nothing above U+10FFFF, no cut-off sequence.
-/

namespace ForeignPasses.Text

def decode? (bytes : ByteArray) : Option String := String.fromUTF8? bytes

theorem decode?_toUTF8 (s : String) : decode? s.toUTF8 = some s := by
  simp [decode?, String.fromUTF8?, String.toUTF8, String.fromUTF8, s.isValidUTF8]

end ForeignPasses.Text
