import Flowgraph.Kind.Basic
/-! Nodes that raise an error for every message. -/
namespace Flowgraph.Fail

def kind : Kind where
  metadata :=
    { description := "Raise an error for each message", category := "common"
      inputs := [⟨"in", "message to fail"⟩], outputs := [] }
  create r :=
    let text := ((r.property? "message").bind Json.asStr?).getD "failed"
    .made (.plain "fail" fun _ _ => .fail (.executionFailed text)) []

end Flowgraph.Fail
