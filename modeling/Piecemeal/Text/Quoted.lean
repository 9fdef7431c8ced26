/-
# Quoted text

A text between double quotes, written so that it shows on one line: quotes and backslashes get a
backslash, four control characters have a letter, and every other character without a form of its
own is written by its code point.
-/
import Piecemeal.Text.Unprintable

namespace Piecemeal.Quoted

/-- A code point in hexadecimal between braces. -/
def codePoint (c : Char) : String :=
  "\\u\x7b" ++ String.ofList (Nat.toDigits 16 c.toNat) ++ "\x7d"

/-- One character as it stands between the quotes. -/
def char (c : Char) : String :=
  if c = '"' then "\\\""
  else if c = '\\' then "\\\\"
  else if c = '\n' then "\\n"
  else if c = '\r' then "\\r"
  else if c = '\t' then "\\t"
  else if c.toNat = 0 then "\\0"
  else if Unprintable.contains c.toNat then codePoint c
  else String.singleton c

/-- The text in quotes. -/
def text (s : String) : String :=
  "\"" ++ String.join (s.toList.map char) ++ "\""

/-- A list of texts, each in quotes, between brackets. -/
def list (texts : List String) : String :=
  "[" ++ ", ".intercalate (texts.map text) ++ "]"

example : String.join (['"', '\\', '\n'].map char) = "\\\"\\\\\\n" := by decide

end Piecemeal.Quoted
