import Flowgraph.Kind.Basic
/-! Nodes that show what reaches them. -/
namespace Flowgraph.Debug

structure Options where
  /-- The property to show; none stands for the whole message. -/
  property : Option String
  toStatus : Bool
  deriving DecidableEq, Repr

def options (r : Record) : Options where
  property :=
    match r.filledText? "complete" with
    | some "true" => none
    | some key => some key
    | none => some "payload"
  toStatus := r.flag "tostatus"

def render (o : Options) (m : Message) : String :=
  match o.property with
  | none => m.toJson.text
  | some key =>
    match m.get? key with
    | some v => v.plainText
    | none => "undefined"

/-- As many characters from the front as fit into a number of bytes of UTF-8. -/
def fitting : (bytes : Nat) → List Char → List Char
  | _, [] => []
  | bytes, c :: cs =>
    if c.utf8Size ≤ bytes then c :: fitting (bytes - c.utf8Size) cs else []

/-- A text of more than 32 bytes is cut, and dots stand for the rest. -/
def shorten (s : String) : String :=
  if s.utf8ByteSize > 32 then String.ofList (fitting 32 s.toList) ++ "..." else s

def react (o : Options) (m : Message) : Reaction :=
  let shown := if o.toStatus then
      [Effect.status ⟨some "grey", some "dot", some (shorten (render o m))⟩]
    else []
  ⟨[], shown, .handled⟩

def kind : Kind where
  metadata :=
    { description := "Logs messages for debugging", category := "common"
      inputs := [⟨"in", "message to log"⟩], outputs := [] }
  create r := .made (.plain "debug" fun _ m => react (options r) m) []

end Flowgraph.Debug
