import Flowgraph.Kind.Basic
/-! Nodes that set, delete and move the properties of messages. -/
namespace Flowgraph.Change

/-- One step of a change. -/
inductive Rule
  | set (key : String) (value : Json) (kind : String)
  | delete (key : String)
  | move (source target : String)
  deriving DecidableEq

/-- The fields of a rule by its action. -/
def ruleOf? (action : String) (v : Json) : Option Rule := do
  match action with
  | "set" =>
    match ← v.members? ["p", "to", "tot"] with
    | [p, value, kind] =>
      return .set (← p.bind Json.asStr?) (value.getD .null) (← Json.orElse kind "str" Json.asStr?)
    | _ => failure
  | "delete" =>
    match ← v.members? ["p"] with
    | [p] => return .delete (← p.bind Json.asStr?)
    | _ => failure
  | "move" =>
    match ← v.members? ["p", "to"] with
    | [p, target] => return .move (← p.bind Json.asStr?) (← target.bind Json.asStr?)
    | _ => failure
  | _ => failure

/-- A rule is an object with its action under `t`, or an array that begins with it. -/
def rule? : Json → Option Rule
  | .obj fields => do
    let action ← (Dict.get? fields "t").bind Json.asStr?
    ruleOf? action (.obj fields)
  | .arr (.str action :: rest) => ruleOf? action (.arr rest)
  | _ => none

/-- The rules of a node; without a list of them its properties describe a single one. -/
def rules? (r : Record) : Option (List Rule) :=
  match r.property? "rules" with
  | some v => Json.list? rule? v
  | none =>
    some [.set ((r.filledText? "property").getD "payload") ((r.property? "value").getD .null)
      ((r.filledText? "valueType").getD "str")]

/-- The floating-point number a text holds, white space around it aside. -/
def numberOf? (text : String) : Option Json :=
  (Decimal.float? (Text.trim text.toList)).map fun x => .num (.float x)

/-- The value a rule sets, by the kind it is declared with. -/
def valueOf (setting : Lookup) (m : Message) (v : Json) : (kind : String) → Except NodeFault Json
  | "str" => .ok (.str v.plainText)
  | "num" =>
    match v with
    | .num n => .ok (.num n)
    | v =>
      match numberOf? v.plainText with
      | some n => .ok n
      | none => .error (.executionFailed ("not a number: " ++ v.plainText))
  | "bool" => .ok (.bool (v == .bool true || v.plainText == "true"))
  | "json" =>
    match v with
    | .str s =>
      match Json.read? s with
      | some v => .ok v
      | none => .error (.executionFailed "invalid JSON value: the text is not JSON")
    | v => .ok v
  | "msg" => .ok ((m.get? v.plainText).getD .null)
  | "env" => .ok ((setting v.plainText).getD .null)
  | kind => .error (.configuration ("unknown value type: " ++ kind))

def Rule.apply (setting : Lookup) (m : Message) : Rule → Except NodeFault Message
  | .set key v kind => (valueOf setting m v kind).map (m.insert key)
  | .delete key => .ok (m.erase key)
  | .move source target =>
    match m.get? source with
    | some v => .ok ((m.erase source).insert target v)
    | none => .ok m

/-- Applies rules one after the other; the first that fails spoils them all. -/
def applyAll (setting : Lookup) (rules : List Rule) (m : Message) : Except NodeFault Message :=
  rules.foldlM (fun m rule => rule.apply setting m) m

def behaviour (rules : List Rule) : Behaviour :=
  .plain "change" fun now m =>
    match applyAll now.setting rules m with
    | .ok m => .forward 0 m
    | .error fault => .fail fault

def kind : Kind where
  metadata :=
    { description := "Set, delete or move message properties", category := "function"
      inputs := [⟨"in", "message to modify"⟩], outputs := [⟨"out", "modified message"⟩] }
  create r :=
    match rules? r with
    | some rules => .made (behaviour rules) []
    | none => .refused (.configuration "invalid change rules: not a list of rules")

end Flowgraph.Change
