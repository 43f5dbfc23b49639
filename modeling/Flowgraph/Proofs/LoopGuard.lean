import Flowgraph.Proofs.ErrorReports
import Flowgraph.Proofs.Signals
/-! The guard against loops of errors. A message says itself which error it carries, so the guard has to do with every
count that a word of 64 bits can hold. -/
namespace Flowgraph
namespace Engine

variable {e : Engine} {j : LevelKey} {r : RaisedError} {m : Message} {c : Nat}

/-- What the guard does about an error when the message carries one of the same node with a count: from the limit on the
error is ignored, and before that whoever takes it is told the next count. -/
structure Guards (e : Engine) (j : LevelKey) (r : RaisedError) (m : Message) (c : Nat) : Prop where
  ignored : errorLimit.toNat ≤ c + 1 → e.Ignores j r m
  counted : c + 1 < errorLimit.toNat → e.Tells j r m (c + 1)

/-- The guard does its work for every count but the last that a word can hold: the count after it is nought, and the error
goes to whoever takes it. -/
theorem guards_iff (e : Engine) (j : LevelKey) (h : m.Carries r.origin.id c) (hc : c < 2 ^ 64) :
    (e.Guards j r m c ↔ c + 1 < 2 ^ 64 ∨ ¬e.IsTaken j r.origin (r.signal m)) ∧ (c + 1 = 2 ^ 64 → e.Tells j r m 0) := by
  have hcount : (errorCount r.origin (some m)).toNat = (c + 1) % 2 ^ 64 := by rw [h.toNat_errorCount, if_pos rfl]
  have htells := tells_errorCount e j r m
  rw [hcount] at htells
  refine ⟨⟨fun hg => ?_, fun hor => ⟨fun hlimit => ?_, fun hlimit => ?_⟩⟩, fun hlast => ?_⟩
  · refine (Nat.lt_or_ge (c + 1) (2 ^ 64)).imp_right fun hlast ⟨level, receivers, hr⟩ => ?_
    rw [show c + 1 = 2 ^ 64 from Nat.le_antisymm hc hlast] at hcount
    have hloops : loops r.origin (r.signal m) = false := Bool.eq_false_iff.mpr fun hl => by
      have hle := loops_error_iff.mp hl
      rw [hcount] at hle
      exact absurd hle (by decide)
    have htaken := (hg.ignored (Nat.le_trans (by decide) hlast)).1
    rw [raise_of_taken hloops hr] at htaken
    cases htaken
  · rcases hor with hlt | hno
    · rw [Nat.mod_eq_of_lt hlt] at hcount
      exact ignores_of_loops (loops_error_iff.mpr (hcount ▸ hlimit))
    · exact ignores_of_not_isTaken hno
  · rwa [Nat.mod_eq_of_lt (Nat.lt_trans hlimit (by decide))] at htells
  · rwa [hlast] at htells

end Engine

namespace Session
open Engine

def usageError : RaisedError := ⟨⟨"u", "subflow:s", none⟩, "boom"⟩

/-- A message that claims to have gone round as often as can be counted. -/
def lastCounted : Message := ⟨[("_msgid", .str "m"), ("error", errorDescriptor usageError.origin "boom" (2 ^ 64 - 1))]⟩

theorem usageError_isTaken (m : Message) : caughtFlow.IsTaken 0 usageError.origin (usageError.signal m) := by
  obtain ⟨-, -, -, houter, hsome⟩ := caughtFlow_run
  obtain ⟨l, hl, hactive⟩ := Option.map_eq_some_iff.mp houter
  have ht : l.receivers.targets "u" (usageError.signal m) ≠ [] := by
    rw [reachable_caughtFlow.table_eq composed_caughtFlow hl, receiverRecords_eq hactive (by decide),
      show Receivers.targets _ "u" (usageError.signal m) = ["c"] from hsome]
    exact List.cons_ne_nil _ _
  exact ⟨0, _, Comes.here.route_taken reachable_caughtFlow.layout.laid hl hl ht⟩

/-- The message is let through, and counted from nought again. -/
theorem lastCounted_let_through : lastCounted.Carries "u" (2 ^ 64 - 1) ∧
    ¬caughtFlow.Guards 0 usageError lastCounted (2 ^ 64 - 1) ∧
    caughtFlow.Tells 0 usageError lastCounted 0 := by
  have hcarries : lastCounted.Carries usageError.origin.id (2 ^ 64 - 1) := Message.carries_of_error rfl
  obtain ⟨hiff, hlast⟩ := guards_iff caughtFlow 0 hcarries (by decide)
  refine ⟨hcarries, fun hg => ?_, hlast rfl⟩
  rcases hiff.mp hg with hlt | hno
  · exact absurd hlt (by decide)
  · exact hno (usageError_isTaken lastCounted)

end Session
end Flowgraph
