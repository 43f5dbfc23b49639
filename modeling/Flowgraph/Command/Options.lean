/-! Words of a command line: options by long or short name, and operands. -/
namespace Flowgraph.Command

/-- An option that a command takes. -/
structure OptionSpec where
  long : String
  short : Option Char
  /-- An option without a value is a switch. -/
  hasValue : Bool
  repeats : Bool

/-- The options and operands that were found, in their order. A switch has the empty value. -/
structure Words where
  options : List (String × String)
  operands : List String
  deriving DecidableEq, Repr

/-- Why words do not make a command. -/
inductive Refusal
  /-- They ask how commands are written. -/
  | help
  | wrong
  deriving DecidableEq, Repr

namespace Words

def none : Words := ⟨[], []⟩

def values (w : Words) (long : String) : List String :=
  (w.options.filter (·.1 == long)).map (·.2)

def value? (w : Words) (long : String) : Option String := (w.values long).head?

end Words

namespace Options

/-- The switch that every command has. -/
def verbose : OptionSpec := ⟨"verbose", some 'v', false, false⟩

/-- A word that cannot be the value of the option before it. -/
def looksLikeOption (word : String) : Bool := word.startsWith "-" && word != "-"

/-- Enters an option; one that may not be repeated must be new. -/
def enter (spec : OptionSpec) (value : String) (w : Words) : Except Refusal Words :=
  if !spec.repeats && w.options.any (·.1 == spec.long) then .error .wrong
  else .ok { w with options := w.options ++ [(spec.long, value)] }

/-- The value of an option: attached to it, or else the next word. Gives the words that are left. -/
def valueOf (attached : Option String) (rest : List String) : Except Refusal (String × List String) :=
  match attached, rest with
  | some value, rest => .ok (value, rest)
  | none, value :: rest => if looksLikeOption value then .error .wrong else .ok (value, rest)
  | none, [] => .error .wrong

/-- A name and what is attached to it by an equals sign. -/
def cut (word : List Char) : String × Option String :=
  match word.span (· != '=') with
  | (name, '=' :: value) => (String.ofList name, some (String.ofList value))
  | (name, _) => (String.ofList name, none)

/-- An option by its long name. -/
def long (specs : List OptionSpec) (word : List Char) (rest : List String) (w : Words) :
    Except Refusal (Words × List String) :=
  let (name, attached) := cut word
  if name = "help" && attached.isNone then .error .help
  else match specs.find? (·.long == name) with
    | none => .error .wrong
    | some spec =>
      if spec.hasValue then do
        let (value, rest) ← valueOf attached rest
        return (← enter spec value w, rest)
      else if attached.isSome then .error .wrong
      else (enter spec "" w).map (·, rest)

/-- Several switches by their short names, the last of which may be an option with a value. -/
def short (specs : List OptionSpec) (rest : List String) :
    List Char → Words → Except Refusal (Words × List String)
  | [], w => .ok (w, rest)
  | 'h' :: _, _ => .error .help
  | c :: cs, w =>
    match specs.find? (·.short == some c) with
    | none => .error .wrong
    | some spec =>
      if spec.hasValue then do
        let attached := match cs with
          | [] => none
          | '=' :: value | value => some (String.ofList value)
        let (value, rest) ← valueOf attached rest
        return (← enter spec value w, rest)
      else (enter spec "" w).bind fun w => short specs rest cs w

/-- Sorts words into options and operands; behind a double dash all words are operands. Every word that is
read bounds the fuel. -/
def collect (specs : List OptionSpec) : (fuel : Nat) → List String → Words → Except Refusal Words
  | 0, _, w => .ok w
  | _ + 1, [], w => .ok w
  | fuel + 1, word :: rest, w =>
    match word.toList with
    | ['-', '-'] => .ok { w with operands := w.operands ++ rest }
    | '-' :: '-' :: name => do
      let (w, rest) ← long specs name rest w
      collect specs fuel rest w
    | '-' :: c :: cs => do
      let (w, rest) ← short specs rest (c :: cs) w
      collect specs fuel rest w
    | _ => collect specs fuel rest { w with operands := w.operands ++ [word] }

def ofWords (specs : List OptionSpec) (words : List String) : Except Refusal Words :=
  collect (verbose :: specs) (words.length + 1) words .none

end Options
end Flowgraph.Command
