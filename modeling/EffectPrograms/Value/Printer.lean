import EffectPrograms.Value

/-!
# Writing values

`Value.compact` writes a value without any blank, `Value.pretty` with one member or item a line,
indented by two blanks a level. Both keep the order of members. A string is written with the escapes
that `escape` fixes; all characters from the blank on stand as they are.
-/

namespace EffectPrograms.Value

/-- A character of a string. Controls without a short escape are written with four digits. -/
def escape (c : Char) : String :=
  if c == '"' then "\\\""
  else if c == '\\' then "\\\\"
  else if c == '\n' then "\\n"
  else if c == '\r' then "\\r"
  else if c == '\t' then "\\t"
  else if c == '\x08' then "\\b"
  else if c == '\x0c' then "\\f"
  else if c.toNat < 0x20 then
    let digits := Nat.toDigits 16 c.toNat
    "\\u" ++ String.ofList (List.replicate (4 - digits.length) '0' ++ digits)
  else c.toString

/-- A string in quotes. -/
def quoted (s : String) : String :=
  "\"" ++ String.join (s.toList.map escape) ++ "\""

/-- A truth value as text. -/
def boolText (b : Bool) : String := if b then "true" else "false"

mutual

/-- A value on one line without blanks. -/
def compact : Value → String
  | .null => "null"
  | .bool b => boolText b
  | .number n => n.text
  | .string s => quoted s
  | .array items => "[" ++ ",".intercalate (compactItems items) ++ "]"
  | .object members => "\x7b" ++ ",".intercalate (compactMembers members) ++ "\x7d"

/-- The items of a list, each on its own. -/
def compactItems : List Value → List String
  | [] => []
  | item :: rest => compact item :: compactItems rest

/-- The members of an object, each with its name. -/
def compactMembers : List (String × Value) → List String
  | [] => []
  | (name, value) :: rest => (quoted name ++ ":" ++ compact value) :: compactMembers rest

end

/-- The start of a line `level` levels in. -/
def indent (level : Nat) : String := "\n" ++ String.ofList (List.replicate (2 * level) ' ')

/-- Parts between brackets, one a line and `level` levels in; nothing between them if there are
none. -/
def block (opening closing : String) (level : Nat) (parts : List String) : String :=
  if parts.isEmpty then opening ++ closing
  else opening ++ indent (level + 1) ++ ("," ++ indent (level + 1)).intercalate parts
    ++ indent level ++ closing

mutual

/-- A value that starts `level` levels in, over several lines. -/
def prettyAt (level : Nat) : Value → String
  | .array items => block "[" "]" level (prettyItems (level + 1) items)
  | .object members => block "\x7b" "\x7d" level (prettyMembers (level + 1) members)
  | .null => "null"
  | .bool b => boolText b
  | .number n => n.text
  | .string s => quoted s

/-- The items of a list. -/
def prettyItems (level : Nat) : List Value → List String
  | [] => []
  | item :: rest => prettyAt level item :: prettyItems level rest

/-- The members of an object, each with its name. -/
def prettyMembers (level : Nat) : List (String × Value) → List String
  | [] => []
  | (name, value) :: rest =>
    (quoted name ++ ": " ++ prettyAt level value) :: prettyMembers level rest

end

/-- A value over several lines. -/
def pretty (v : Value) : String := prettyAt 0 v

/-- A string as it is, any other value in its compact form. -/
def plainText : Value → String
  | .string s => s
  | other => other.compact

end EffectPrograms.Value
