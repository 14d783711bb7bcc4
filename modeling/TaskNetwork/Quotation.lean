import TaskNetwork.UnseenChar

namespace TaskNetwork

def quotedChar (c : Char) : String :=
  if c = '"' then "\\\""
  else if c = '\\' then "\\\\"
  else if c = '\n' then "\\n"
  else if c = '\r' then "\\r"
  else if c = '\t' then "\\t"
  else if c = '\x00' then "\\0"
  else if isUnseen c then "\\u\x7b" ++ String.ofList (Nat.toDigits 16 c.toNat) ++ "\x7d"
  else c.toString

def quotedText (s : String) : String := "\"" ++ String.join (s.toList.map quotedChar) ++ "\""

example : quotedText "a \"b\"\uffff" = "\"a \\\"b\\\"\\u\x7bffff\x7d\"" := by decide +kernel

end TaskNetwork
