import Flowgraph.Kind.Basic
/-! Nodes that hold each message for a while. A message is completed only once it has been sent on; those
still held when the node stops are dropped, and the node closes when all of them are. -/
namespace Flowgraph.Delay

/-- The time to hold messages, in milliseconds. -/
def holdTime (r : Record) : Except NodeFault Nat :=
  match r.property? "delay_ms" with
  | none => .ok 1000
  | some (.num n) =>
    match n.unsigned? with
    | some ms => .ok ms
    | none =>
      .error (.configuration ("delay_ms must be a non-negative integer, got " ++ n.text))
  | some (.str s) =>
    match Decimal.unsigned64? (Text.trim s.toList) with
    | some ms => .ok ms
    | none => .error (.configuration ("delay_ms is not a number: " ++ s))
  | some v => .error (.configuration ("delay_ms is not a number: " ++ v.text))

/-- Sends a message on after the time, unless the node stops before. -/
def hold (ms : Nat) (m : Message) : Task where
  wait := .time ms
  abandons := true
  resume _ := [.send 0 m, .complete m]

def behaviour (ms : Nat) : Behaviour where
  type := "delay"
  onStart := []
  onInput now m :=
    ⟨[hold ms m], [.status ⟨some "blue", some "ring", some (Nat.repr (now.held + 1))⟩], .deferred⟩
  onRewire _ := []
  onClose _ := ([], .afterTasks)

def kind : Kind where
  metadata :=
    { description := "Delay each message for delay_ms milliseconds", category := "function"
      inputs := [⟨"in", "message to delay"⟩], outputs := [⟨"out", "the same message, later"⟩] }
  create r :=
    match holdTime r with
    | .ok ms => .made (behaviour ms) []
    | .error fault => .refused fault

end Flowgraph.Delay
