import Attribution.Engine.Action
/-!
# Sheets

The schemas and models that examples are about: numbered cells that hold numbers,
with rules and hooks that are named by numbers.
-/

namespace Attribution.Engine

abbrev sheetOver (Env : Type) : Schema where
  Key := Nat
  Val _ := Nat
  order := compare
  name c := toString c
  fallback _ := 0
  sentinel _ := 99
  Rule := Nat
  Hook := Nat
  Env := Env

abbrev sheet : Schema :=
  sheetOver Unit

/-- The model with the given bodies, in which hooks and reports change nothing. -/
def Model.ofBodies {S : Schema} (body : S.Rule → Action S (Except Error Unit)) : Model S where
  body := body
  react _ _ _ env := (env, none)
  receive _ env := env

end Attribution.Engine
