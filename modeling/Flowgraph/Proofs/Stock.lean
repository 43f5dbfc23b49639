import Flowgraph.Kind.Standard
import Flowgraph.Proofs.Tables
/-! The nodes that are always at hand: those that are done with a message when they have handled it, and those that hold
each message for a while. -/
namespace Flowgraph

/-- A message is sent on, and shown, while it is handled, and nothing is left for later. -/
structure Reaction.Direct (x : Reaction) : Prop where
  tasks : x.tasks = []
  effects : ∀ f ∈ x.effects, (∃ port m, f = .send port m) ∨ ∃ status, f = .status status
  outcome : x.outcome ≠ .deferred

theorem Reaction.Direct.forward (port : Nat) (m : Message) : (Reaction.forward port m).Direct :=
  ⟨rfl, fun _ hf => .inl ⟨port, m, List.mem_singleton.mp hf⟩, nofun⟩

theorem Reaction.Direct.fail (fault : NodeFault) : (Reaction.fail fault).Direct :=
  ⟨rfl, fun _ hf => absurd hf List.not_mem_nil, nofun⟩

theorem Debug.direct_react (o : Options) (m : Message) : (react o m).Direct := by
  refine ⟨rfl, fun f hf => .inr ?_, nofun⟩
  unfold react at hf
  dsimp only at hf
  split at hf
  · exact ⟨_, List.mem_singleton.mp hf⟩
  · cases hf

theorem Convert.direct_react (o : Options) (m : Message) : (react o m).Direct := by
  unfold react
  split
  · exact .forward _ _
  · split
    · exact .forward _ _
    · exact .fail _

/-- What the kinds that are always at hand make of a record. -/
inductive Stock (r : Record) : Behaviour → Prop
  /-- A node that is done with a message when it has handled it. -/
  | direct {type : String} {react : Situation → Message → Reaction}
      (ht : r.type ∈ ["change", "debug", "json", "fail"]) (h : ∀ situation m, (react situation m).Direct) :
      Stock r (.plain type react)
  /-- A node that holds each message for a while. -/
  | holds {ms : Nat} (ht : r.type = "delay") (hms : Delay.holdTime r = .ok ms) : Stock r (Delay.behaviour ms)

theorem Registry.mem_standard {type : String} {kind : Kind} (h : Dict.get? Registry.standard type = some kind) :
    (type, kind) ∈ [("debug", Debug.kind), ("delay", Delay.kind), ("json", Convert.kind), ("change", Change.kind),
      ("fail", Fail.kind)] := by
  unfold Registry.standard at h
  rw [Dict.get?_ofList (by decide)] at h
  obtain ⟨entry, hentry, rfl⟩ := Option.map_eq_some_iff.mp h
  have hkey : entry.1 = type := by simpa using List.find?_some hentry
  rw [← hkey]
  exact List.mem_of_find?_eq_some hentry

theorem Registry.stock_standard {r : Record} {b : Behaviour} {notes : List Note}
    (h : Registry.standard.create r = .ok (b, notes)) : Stock r b := by
  unfold Registry.create at h
  split at h
  · cases h
  · rename_i kind hkind
    have hmade : kind.create r = .made b notes := by
      split at h <;> cases h
      assumption
    have hmem := Registry.mem_standard hkind
    simp only [List.mem_cons, List.not_mem_nil, or_false, Prod.mk.injEq] at hmem
    rcases hmem with ⟨ht, rfl⟩ | ⟨ht, rfl⟩ | ⟨ht, rfl⟩ | ⟨ht, rfl⟩ | ⟨ht, rfl⟩
    · cases hmade
      exact .direct (by simp [ht]) fun _ m => Debug.direct_react _ m
    · unfold Delay.kind at hmade
      dsimp only at hmade
      split at hmade
      · rename_i ms hms
        cases hmade
        exact .holds ht hms
      · cases hmade
    · unfold Convert.kind at hmade
      dsimp only at hmade
      split at hmade <;> cases hmade
      exact .direct (by simp [ht]) fun _ m => Convert.direct_react _ m
    · unfold Change.kind at hmade
      dsimp only at hmade
      split at hmade <;> cases hmade
      refine .direct (by simp [ht]) fun _ m => ?_
      split
      · exact .forward _ _
      · exact .fail _
    · unfold Fail.kind at hmade
      cases hmade
      exact .direct (by simp [ht]) fun _ _ => .fail _

/-- Whatever such a node does with a message at once, it sends and shows its status. -/
theorem Stock.effects {r : Record} {b : Behaviour} (h : Stock r b) (situation : Situation) (m : Message) :
    ∀ f ∈ (b.onInput situation m).effects, (∃ port m, f = .send port m) ∨ ∃ status, f = .status status := by
  cases h with
  | direct _ hdirect => exact (hdirect situation m).effects
  | holds => exact fun f hf => .inr ⟨_, List.mem_singleton.mp hf⟩

/-- Such a node does nothing when it starts. -/
theorem Stock.onStart_eq_nil {r : Record} {b : Behaviour} (h : Stock r b) : b.onStart = [] := by
  cases h <;> rfl

/-- Such a node never leaves its close signal to a task of its own. -/
theorem Stock.onClose_ne_later {r : Record} {b : Behaviour} (h : Stock r b) (removed : Bool) (task : Task) :
    (b.onClose removed).2 ≠ .later task := by
  cases h <;> nofun

end Flowgraph
