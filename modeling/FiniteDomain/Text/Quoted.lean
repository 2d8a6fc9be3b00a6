import FiniteDomain.Text.Extending
import FiniteDomain.Text.Ignorable
import FiniteDomain.Text.Invisible

/-!
# Quoted text

A text between quotation marks. Quotation marks and backslashes in it are written with a backslash, four
controls with a letter or digit after one, and every other character that is invisible, ignorable or a mark
on the one before it with its code point.
-/

namespace FiniteDomain.Text

/-- The character is shown as it is. -/
def isShown (c : Char) : Bool := !isInvisible c && !isExtending c && !isIgnorable c

/-- A code point in hexadecimal digits between braces. -/
def codePoint (c : Char) : List Char := "\\u\x7b".toList ++ Nat.toDigits 16 c.toNat ++ ['\x7d']

/-- A character as it stands between quotation marks. -/
def escape : Char → List Char
  | '"' => ['\\', '"']
  | '\\' => ['\\', '\\']
  | '\n' => ['\\', 'n']
  | '\t' => ['\\', 't']
  | '\r' => ['\\', 'r']
  | '\x00' => ['\\', '0']
  | c => if isShown c then [c] else codePoint c

/-- The text between quotation marks. -/
def quoted (s : String) : String := String.ofList ('"' :: s.toList.flatMap escape ++ ['"'])

end FiniteDomain.Text
