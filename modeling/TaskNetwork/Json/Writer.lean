import TaskNetwork.Json.Basic

namespace TaskNetwork

def hexText (width n : Nat) : String :=
  let digits := Nat.toDigits 16 n
  String.ofList (List.replicate (width - digits.length) '0' ++ digits)

namespace Json

def escape (c : Char) : String :=
  if c = '"' then "\\\""
  else if c = '\\' then "\\\\"
  else if c = '\x08' then "\\b"
  else if c = '\x0c' then "\\f"
  else if c = '\n' then "\\n"
  else if c = '\r' then "\\r"
  else if c = '\t' then "\\t"
  else if c.toNat < 0x20 then "\\u" ++ hexText 4 c.toNat
  else c.toString

def quoted (s : String) : String := "\"" ++ String.join (s.toList.map escape) ++ "\""

mutual

def compact : Json → String
  | .null | .broken => "null"
  | .bool b => if b then "true" else "false"
  | .nat n => toString n
  | .real text => text
  | .str s => quoted s
  | .arr items => "[" ++ ",".intercalate (compactItems items) ++ "]"
  | .obj fields => "\x7b" ++ ",".intercalate (compactFields fields) ++ "\x7d"

def compactItems : List Json → List String
  | [] => []
  | j :: js => compact j :: compactItems js

def compactFields : List (String × Json) → List String
  | [] => []
  | (name, j) :: fields => (quoted name ++ ":" ++ compact j) :: compactFields fields

end

/-- Parts on lines of their own between brackets, or the brackets alone. -/
def block (opening closing indent : String) : List String → String
  | [] => opening ++ closing
  | parts =>
    opening ++ "\n" ++ ",\n".intercalate (parts.map fun p => indent ++ "  " ++ p)
      ++ "\n" ++ indent ++ closing

mutual

/-- The text of a value with each item and field on a line of its own, two blanks further in than
what it belongs to. -/
def indented (indent : String) : Json → String
  | .arr items => block "[" "]" indent (indentedItems (indent ++ "  ") items)
  | .obj fields => block "\x7b" "\x7d" indent (indentedFields (indent ++ "  ") fields)
  | .null | .broken => "null"
  | .bool b => if b then "true" else "false"
  | .nat n => toString n
  | .real text => text
  | .str s => quoted s

def indentedItems (indent : String) : List Json → List String
  | [] => []
  | j :: js => indented indent j :: indentedItems indent js

def indentedFields (indent : String) : List (String × Json) → List String
  | [] => []
  | (name, j) :: fields =>
    (quoted name ++ ": " ++ indented indent j) :: indentedFields indent fields

end

def pretty (j : Json) : String := indented "" j

end Json

end TaskNetwork
