import Flowgraph.Proofs.Fidelity
import Flowgraph.Proofs.Handing
import Flowgraph.Proofs.Listening
/-! Flows that run, and the nodes in them: whatever is done with messages, the levels of a flow that is kept are there,
and an active node is handed what is sent to it. -/
namespace Flowgraph.Engine

variable {e e' s : Engine} {f k : LevelKey} {n : NodeKey} {node : Node} {id : NodeId} {l : Level}

/-! ## Levels that last -/

/-- A flow that runs, or that someone outside holds on to. -/
def Kept (e : Engine) (f : LevelKey) : Prop :=
  e.keptLevels.contains f = true ∨ e.global = some f ∨ e.flows.contains f = true

theorem Kept.hasLevel (h : e.Kept f) (hl : e.level? f = some l) : e.hasLevel f = true := by
  have hkeeps : e.keepsLevel f = true := by
    simp only [keepsLevel, Bool.or_eq_true, beq_iff_eq]
    rcases h with h | h | h
    · exact .inl (.inl (.inl (.inl h)))
    · exact .inl (.inl (.inl (.inr h)))
    · exact .inl (.inl (.inr h))
  have hcount : e.levelCount = e.levelCount - 1 + 1 := by
    have := (Array.getElem?_eq_some_iff.mp hl).1
    change e.levels.size = e.levels.size - 1 + 1
    omega
  rw [Engine.hasLevel, hcount, existsWithin, hl]
  simp [hkeeps]

theorem Kept.still (h : e.Kept f) (hs : e'.still = e.still) : e'.Kept f := by
  have hkept : e'.keptLevels = e.keptLevels := (congrArg Engine.keptLevels hs :)
  have hglobal : e'.global = e.global := (congrArg Engine.global hs :)
  have hflows : e'.flows = e.flows := (congrArg Engine.flows hs :)
  rw [Kept, hkept, hglobal, hflows]
  exact h

/-- A level inside a flow that runs is there, whatever is done with messages. -/
theorem Kept.inside (h : e.Kept f) (hlaid : Laid e) (hin : e.Inside f k) (hk : ∃ l, e.level? f = some l)
    (hs : e'.still = e.still) : e'.hasLevel k = true := by
  obtain ⟨l, hl⟩ := hk
  have hin' : e'.Inside f k := by
    induction hin with
    | here => exact .here
    | deeper _ hi ih => exact .deeper ih (by rw [instance?, level?_of_still hs]; exact hi)
  exact hasLevel_inside (hlaid.still hs) ((h.still hs).hasLevel (by rw [level?_of_still hs]; exact hl)) hin'

/-! ## Nodes that are active -/

/-- An active node of a level, which has not been told to stop. -/
structure Serves (e : Engine) (k : LevelKey) (n : NodeKey) (node : Node) : Prop where
  active : e.activeKey? k node.id = some n
  isNode : e.node? n = some node
  level : node.level = k
  awake : node.cancelled = false

theorem Reachable.serves (h : Reachable e) (hn : e.activeKey? k id = some n) :
    ∃ node, e.Serves k n node ∧ node.id = id := by
  obtain ⟨node, hnode, hlevel, hid⟩ := h.layout.laid.activeKey?_node hn
  exact ⟨node, ⟨hid.symm ▸ hn, hnode, hlevel, h.informed.awake n node ⟨k, id, hn⟩ hnode⟩, hid⟩

theorem Serves.still (h : e.Serves k n node) (hs : s.still = e.still) :
    ∃ node', s.Serves k n node' ∧ node'.id = node.id ∧ node'.part = node.part ∧ node'.dispatch = node.dispatch := by
  obtain ⟨node', hn', he⟩ := exists_node?_of_still hs h.isNode
  have hid : node'.id = node.id := (congrArg Node.id he :)
  refine ⟨node', ⟨?_, hn', (congrArg Node.level he).trans h.level, (congrArg Node.cancelled he).trans h.awake⟩, hid,
    (congrArg Node.part he :), (congrArg Node.dispatch he :)⟩
  rw [activeKey?, level?_of_still hs, hid]
  exact h.active

theorem Serves.handed (h : e.Serves k n node) (m : Message) : e.handed (.hand n m) = [(n, m)] := by
  simp [Engine.handed, h.isNode, h.awake]

/-- The nearest node of an id is on the level itself. -/
theorem outward?_of_active (h : e.activeKey? k id = some n) : e.outward? k id = some n := by
  obtain ⟨l, hl, ha⟩ := Option.bind_eq_some_iff.mp h
  have hcount : e.levelCount = e.levelCount - 1 + 1 := by
    have := (Array.getElem?_eq_some_iff.mp hl).1
    change e.levels.size = e.levels.size - 1 + 1
    omega
  rw [outward?, hcount, findOutward, hl]
  dsimp only
  rw [ha]

theorem inside?_of_active (ha : e.activeKey? k id = some n) : e.inside? k id = some n := by
  obtain ⟨l, hl, ha⟩ := Option.bind_eq_some_iff.mp ha
  have hcount : e.levelCount = e.levelCount - 1 + 1 := by
    have := level?_lt e k hl
    change e.levels.size = e.levels.size - 1 + 1
    omega
  rw [inside?, hcount, findInside, hl]
  dsimp only
  rw [ha]

theorem agenda_wake (e : Engine) (w : Waiter) : (e.wake w).agenda = e.agenda := by
  unfold wake
  split <;> rfl

theorem agenda_publish (e : Engine) (event : Event) : (e.publish event).agenda = e.agenda := by
  unfold publish
  dsimp only
  split
  · exact agenda_wake _ _
  · rfl

/-- The end of a closing wakes the calls that wait for it, and no more. -/
theorem agenda_signalClosed (e : Engine) (n : NodeKey) (result : CloseResult) :
    (e.signalClosed n result).agenda = e.agenda := by
  have hwake (calls : List (CallKey × Call)) (e' : Engine) :
      (calls.foldl (fun e entry => e.wake (.call entry.1)) e').agenda = e'.agenda := by
    induction calls generalizing e' with
    | nil => rfl
    | cons entry calls ih => exact (ih _).trans (agenda_wake e' _)
  exact hwake _ _

end Flowgraph.Engine
