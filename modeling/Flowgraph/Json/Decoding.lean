import Flowgraph.Json.Basic
/-! Reading domain values out of JSON values. -/
namespace Flowgraph.Json

/-- The fields of a record with the given names: an object, whose other fields do not matter, or an
array of the first few values in the order of the names. -/
def members? (names : List String) : Json → Option (List (Option Json))
  | .obj fields => some (names.map (Dict.get? fields))
  | .arr items =>
    if items.length ≤ names.length then
      some (items.map some ++ List.replicate (names.length - items.length) none)
    else none
  | _ => none

/-- A value that may be absent, with what stands for it then. -/
def orElse {α : Type} (v : Option Json) (missing : α) (read : Json → Option α) : Option α :=
  match v with
  | none => some missing
  | some v => read v

/-- A value that may be absent or null. -/
def optional {α : Type} (v : Option Json) (read : Json → Option α) : Option (Option α) :=
  match v with
  | none | some .null => some none
  | some v => (read v).map some

def list? {α : Type} (read : Json → Option α) (v : Json) : Option (List α) :=
  v.asArr?.bind fun items => items.mapM read

end Flowgraph.Json
