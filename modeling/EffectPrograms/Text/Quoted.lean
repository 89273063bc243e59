import EffectPrograms.Text.Shown

/-!
# Quoted text

Messages quote the text that they report, so that a reader sees where it ends and which characters
it holds.
-/

namespace EffectPrograms.Text

/-- A character inside quotes. What is not shown is written as its code point in hexadecimal. -/
def escape (c : Char) : String :=
  if c == '"' then "\\\""
  else if c == '\\' then "\\\\"
  else if c == '\n' then "\\n"
  else if c == '\r' then "\\r"
  else if c == '\t' then "\\t"
  else if c == '\x00' then "\\0"
  else if isShown c then c.toString
  else "\\u\x7b" ++ String.ofList (Nat.toDigits 16 c.toNat) ++ "\x7d"

/-- A text in quotes. -/
def quote (s : String) : String := "\"" ++ String.join (s.toList.map escape) ++ "\""

end EffectPrograms.Text
