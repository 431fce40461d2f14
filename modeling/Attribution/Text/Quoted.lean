import Attribution.Text.Printable
/-!
# Quoted text

Two quoted forms of a string. `literal` escapes what cannot be shown on one
line; `jsonText` escapes what JSON forbids inside a string.
-/

namespace Attribution.Text

/-- Lower-case hexadecimal digits of `n`, without leading zeros. -/
def hex (n : Nat) : String :=
  String.ofList (Nat.toDigits 16 n)

/-- One character of a string literal: quotes, backslashes and line controls
have short escapes, and any other character that cannot stand alone on a line
is written by its number. -/
def literalChar (c : Char) : String :=
  if c = '"' then "\\\""
  else if c = '\\' then "\\\\"
  else if c = '\t' then "\\t"
  else if c = '\n' then "\\n"
  else if c = '\r' then "\\r"
  else if c = Char.ofNat 0 then "\\0"
  else if standsAlone c then c.toString
  else "\\u\x7b" ++ hex c.toNat ++ "\x7d"

def literal (s : String) : String :=
  "\"" ++ String.join (s.toList.map literalChar) ++ "\""

/-- One character of a JSON string. -/
def jsonChar (c : Char) : String :=
  if c = '"' then "\\\""
  else if c = '\\' then "\\\\"
  else if c = '\t' then "\\t"
  else if c = '\n' then "\\n"
  else if c = '\r' then "\\r"
  else if c.toNat = 8 then "\\b"
  else if c.toNat = 12 then "\\f"
  else if c.toNat < 16 then "\\u000" ++ hex c.toNat
  else if c.toNat < 32 then "\\u00" ++ hex c.toNat
  else c.toString

def jsonText (s : String) : String :=
  "\"" ++ String.join (s.toList.map jsonChar) ++ "\""

end Attribution.Text
