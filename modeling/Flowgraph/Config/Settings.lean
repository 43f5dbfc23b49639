import Flowgraph.Json.Decoding
/-! The settings of a runtime. -/
namespace Flowgraph

structure Settings where
  /-- Milliseconds a stop waits for each node to close. -/
  closeTimeout : Nat
  /-- How many events are kept for a reader that falls behind. -/
  eventBuffer : Nat
  /-- Settings around all flows, consulted before the variables of the process. -/
  env : Dict Json
  deriving DecidableEq

namespace Settings

def standard : Settings := ⟨15000, 1000, []⟩

/-- The names of the fields, in their order. -/
def names : List String := ["node_close_timeout", "event_buffer_size", "env"]

/-- Every field may be missing. -/
def ofJson? (v : Json) : Option Settings := do
  match ← v.members? names with
  | [timeout, buffer, env] =>
    return ⟨← Json.orElse timeout standard.closeTimeout Json.asNat?,
      ← Json.orElse buffer standard.eventBuffer Json.asNat?,
      ← Json.orElse env standard.env Json.asObj?⟩
  | _ => failure

/-- The number of events that are really kept: the next power of two. -/
def bufferCapacity (s : Settings) : Nat := max 1 s.eventBuffer.nextPowerOfTwo

end Settings
end Flowgraph
