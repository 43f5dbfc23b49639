import Flowgraph.Kind.Basic
/-! Nodes that turn a property of a message from JSON text into a value, or back. -/
namespace Flowgraph.Convert

/-- Which way a node converts. -/
inductive Action
  /-- Texts become values and values become text. -/
  | toggle
  | parse
  | stringify
  deriving DecidableEq, Repr

structure Options where
  property : String
  action : Action
  pretty : Bool
  deriving DecidableEq, Repr

def options (r : Record) : Except NodeFault Options := do
  let action ← match ((r.property? "action").bind Json.asStr?).getD "" with
    | "" => .ok Action.toggle
    | "obj" => .ok .parse
    | "str" => .ok .stringify
    | other => .error (.configuration ("unknown json action: " ++ other))
  return ⟨(r.filledText? "property").getD "payload", action, r.flag "pretty"⟩

/-- The converted value; a value that already has the form asked for is left alone. -/
def convert (o : Options) (v : Json) : Except NodeFault Json :=
  match v, o.action with
  | .str s, .toggle | .str s, .parse =>
    match Json.read? s with
    | some v => .ok v
    | none => .error (.executionFailed "JSON parse error: the text is not JSON")
  | .str s, .stringify => .ok (.str s)
  | v, .parse => .ok v
  | v, .toggle | v, .stringify => .ok (.str (if o.pretty then v.pretty else v.text))

def react (o : Options) (m : Message) : Reaction :=
  match m.get? o.property with
  | none => .forward 0 m
  | some v =>
    match convert o v with
    | .ok v => .forward 0 (m.insert o.property v)
    | .error fault => .fail fault

def kind : Kind where
  metadata :=
    { description := "Convert between a JSON string and its value", category := "parser"
      inputs := [⟨"in", "message with a property to convert"⟩]
      outputs := [⟨"out", "message with the converted property"⟩] }
  create r :=
    match options r with
    | .ok o => .made (.plain "json" fun _ m => react o m) []
    | .error fault => .refused fault

end Flowgraph.Convert
