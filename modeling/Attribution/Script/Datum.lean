import Attribution.Error
/-!
# Data shown by a script

The results of instructions and the entries of a script's log, with their
compact JSON form, which also orders the log of several workers.
-/

namespace Attribution.Script

inductive Datum where
  | null
  | bool (b : Bool)
  | int (i : Int)
  | text (s : String)
  | list (items : List Datum)
  | error (e : Error)

namespace Datum

def ofOption {α : Type} (render : α → Datum) : Option α → Datum
  | none => .null
  | some a => render a

def nat (n : Nat) : Datum :=
  .int n

def word (i : Int64) : Datum :=
  .int i.toInt

/-- An error is an object with its tag and its message. -/
def errorJson (e : Error) : String :=
  "\x7b\"error\":" ++ Text.jsonText e.tag ++ ",\"message\":" ++ Text.jsonText e.message ++ "\x7d"

mutual

def json : Datum → String
  | .null => "null"
  | .bool b => if b then "true" else "false"
  | .int i => toString i
  | .text s => Text.jsonText s
  | .list items => "[" ++ ",".intercalate (jsonAll items) ++ "]"
  | .error e => errorJson e

def jsonAll : List Datum → List String
  | [] => []
  | d :: rest => d.json :: jsonAll rest

end

end Datum

end Attribution.Script
