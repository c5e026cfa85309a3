import Ia32Backend.Text.GraphemeExtend
import Ia32Backend.Text.Unprintable

/-!
Quoted characters and strings. The mark that encloses a text is escaped inside it, the other mark
is not. Characters that would not show as a mark of their own are written by code point, so a
quoted text never breaks a line.
-/
namespace Ia32Backend.Quoted

/-- The number of a code point in braces, in hexadecimal digits without leading zeros. -/
def codePoint (c : Char) : List Char :=
  ['\\', 'u', '\x7b'] ++ Nat.toDigits 16 c.toNat ++ ['\x7d']

def escape (mark c : Char) : List Char :=
  if c = '\x00' then ['\\', '0']
  else if c = '\t' then ['\\', 't']
  else if c = '\r' then ['\\', 'r']
  else if c = '\n' then ['\\', 'n']
  else if c = '\\' ∨ c = mark then ['\\', c]
  else if graphemeExtend.contains c ∨ unprintable.contains c then codePoint c
  else [c]

def enclose (mark : Char) (text : List Char) : String :=
  String.ofList (mark :: text.flatMap (escape mark) ++ [mark])

def char (c : Char) : String := enclose '\'' [c]

def string (text : String) : String := enclose '"' text.toList

end Ia32Backend.Quoted
