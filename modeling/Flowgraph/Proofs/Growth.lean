import Flowgraph.Proofs.Making
import Flowgraph.Proofs.Stops
import Flowgraph.Proofs.Wires
import Flowgraph.Proofs.Reachable
/-! What never changes: a level keeps its id, its kind and its place, a node its record, its level and what
stands behind it, and what surrounds all flows stays the same. -/
namespace Flowgraph

/-- A level with the same identity. -/
structure Level.Kin (l l' : Level) : Prop where
  id : l'.id = l.id
  kind : l'.kind = l.kind
  parent : l'.parent = l.parent

/-- A node with the same identity. -/
structure Node.Kin (n n' : Node) : Prop where
  record : n'.record = n.record
  level : n'.level = n.level
  part : n'.part = n.part

theorem Level.Kin.refl (l : Level) : Level.Kin l l := ⟨rfl, rfl, rfl⟩

theorem Node.Kin.refl (n : Node) : Node.Kin n n := ⟨rfl, rfl, rfl⟩

namespace Engine

/-- What surrounds all flows. -/
def world (e : Engine) : Registry × Outside × Dict Json × Dict String × Nat :=
  (e.registry, e.outside, e.settings, e.processEnv, e.closeTimeout)

/-- A step after which everything is still there. -/
structure Grows (e e' : Engine) : Prop where
  level : ∀ k l, e.level? k = some l → ∃ l', e'.level? k = some l' ∧ Level.Kin l l'
  node : ∀ k n, e.node? k = some n → ∃ n', e'.node? k = some n' ∧ Node.Kin n n'
  world : e'.world = e.world
  nextPrivate : e.nextPrivate ≤ e'.nextPrivate

variable {e e' e'' : Engine}

namespace Grows

theorem refl (e : Engine) : Grows e e :=
  ⟨fun _ l h => ⟨l, h, .refl l⟩, fun _ n h => ⟨n, h, .refl n⟩, rfl, Nat.le_refl _⟩

theorem trans {m : Engine} (h : Grows e m) (h' : Grows m e') : Grows e e' := by
  refine ⟨fun k l hl => ?_, fun k n hn => ?_, h'.world.trans h.world, Nat.le_trans h.nextPrivate h'.nextPrivate⟩
  · obtain ⟨l', hl', hk⟩ := h.level k l hl
    obtain ⟨l'', hl'', hk'⟩ := h'.level k l' hl'
    exact ⟨l'', hl'', hk'.id.trans hk.id, hk'.kind.trans hk.kind, hk'.parent.trans hk.parent⟩
  · obtain ⟨n', hn', hk⟩ := h.node k n hn
    obtain ⟨n'', hn'', hk'⟩ := h'.node k n' hn'
    exact ⟨n'', hn'', hk'.record.trans hk.record, hk'.level.trans hk.level, hk'.part.trans hk.part⟩

/-- A node whose wiring stays is still there with it, made of the same record. -/
theorem wired (h : Grows e e') {n : NodeKey} {node : Node} (hn : e.node? n = some node)
    (hw : (e'.node? n).map (·.dispatch) = (e.node? n).map (·.dispatch)) :
    ∃ node', e'.node? n = some node' ∧ node'.record = node.record ∧ node'.dispatch = node.dispatch := by
  obtain ⟨node', hn', hkin⟩ := h.node n node hn
  rw [hn, hn'] at hw
  exact ⟨node', hn', hkin.record, Option.some.inj hw⟩

/-- Levels and nodes are the very same. -/
theorem of_eq (hl : e'.levels = e.levels) (hn : e'.nodes = e.nodes) (hw : e'.world = e.world)
    (hp : e'.nextPrivate = e.nextPrivate) : Grows e e' := by
  refine ⟨fun k l h => ⟨l, ?_, .refl l⟩, fun k n h => ⟨n, ?_, .refl n⟩, hw, Nat.le_of_eq hp.symm⟩
  · rw [level?, hl]
    exact h
  · rw [node?, hn]
    exact h

theorem still (h : e'.still = e.still) : Grows e e' := by
  refine ⟨fun k l hl => ⟨l, ?_, .refl l⟩, fun k n hn => ?_, ?_, Nat.le_of_eq ?_⟩
  · rw [level?_of_still h]
    exact hl
  · obtain ⟨n', hn', hs⟩ := exists_node?_of_still h hn
    have := congrArg Node.record hs
    have := congrArg Node.level hs
    have := congrArg Node.part hs
    exact ⟨n', hn', ‹_›, ‹_›, ‹_›⟩
  · have := congrArg Engine.world h
    exact this
  · have := congrArg Engine.nextPrivate h
    exact this.symm

theorem modifyLevel (e : Engine) (k : LevelKey) (f : Level → Level) (hf : ∀ l, Level.Kin l (f l)) :
    Grows e (e.modifyLevel k f) := by
  refine ⟨fun j l h => ?_, fun _ n h => ⟨n, h, .refl n⟩, rfl, Nat.le_refl _⟩
  by_cases hk : k = j
  · exact ⟨f l, by simp [hk, h], hf l⟩
  · exact ⟨l, by simp [hk, h], .refl l⟩

theorem modifyNode (e : Engine) (k : NodeKey) (f : Node → Node) (hf : ∀ n, Node.Kin n (f n)) :
    Grows e (e.modifyNode k f) := by
  refine ⟨fun _ l h => ⟨l, h, .refl l⟩, fun j n h => ?_, rfl, Nat.le_refl _⟩
  by_cases hk : k = j
  · exact ⟨f n, by simp [hk, h], hf n⟩
  · exact ⟨n, by simp [hk, h], .refl n⟩

theorem addLevel (e : Engine) (l : Level) : Grows e (e.addLevel l).1 := by
  refine ⟨fun j l' h => ⟨l', ?_, .refl l'⟩, fun _ n h => ⟨n, h, .refl n⟩, rfl, Nat.le_refl _⟩
  rw [level?_addLevel, if_neg (Nat.ne_of_lt (level?_lt e j h)), h]

theorem foldl {α : Type} (f : Engine → α → Engine) (h : ∀ e a, Grows e (f e a)) (xs : List α)
    (e : Engine) : Grows e (xs.foldl f e) := by
  induction xs generalizing e with
  | nil => exact refl e
  | cons x xs ih => exact (h e x).trans (ih (f e x))

end Grows

theorem Quiet.grows (h : Quiet e e') : Grows e e' := .still h.still

theorem Stops.grows (h : Stops e e') : Grows e e' := by
  refine h.invariant (P := Grows e) (fun s s' hs ht => hs.trans ?_) (.refl e)
  cases ht with
  | still h _ => exact .still h
  | phase k p => exact .modifyLevel _ _ _ fun _ => ⟨rfl, rfl, rfl⟩
  | receivers k rs => exact .modifyLevel _ _ _ fun _ => ⟨rfl, rfl, rfl⟩
  | leave k targets _ _ => exact .modifyLevel _ _ _ fun _ => ⟨rfl, rfl, rfl⟩
  | cancel n => exact .modifyNode _ _ _ fun _ => ⟨rfl, rfl, rfl⟩
  | forget k id _ => exact .modifyLevel _ _ _ fun _ => ⟨rfl, rfl, rfl⟩

/-! ## Making -/

theorem grows_enter (e : Engine) (k : LevelKey) (r : Record) (part : Part) :
    Grows e (e.enter k r part) := by
  refine ⟨fun j l h => ?_, fun j n h => ⟨n, ?_, .refl n⟩, ?_, ?_⟩
  · rw [level?_enter, h]
    split
    · exact ⟨_, rfl, rfl, rfl, rfl⟩
    · exact ⟨l, rfl, .refl l⟩
  · rw [node?_enter, if_neg (Nat.ne_of_lt (node?_lt e j h)), h]
  · unfold enter
    cases part <;> rfl
  · unfold enter
    cases part <;> exact Nat.le_refl _

theorem grows_failCreation (e : Engine) (k : LevelKey) (r : Record) (fault : NodeFault) :
    Grows e (e.failCreation k r fault) := by
  unfold failCreation
  split
  · exact .refl e
  · exact (quiet_publish _ _).grows.trans (.modifyLevel _ _ _ fun _ => ⟨rfl, rfl, rfl⟩)

theorem grows_activated (e : Engine) (k : LevelKey) (c : FlowConfig) (order : List Nat) :
    Grows e (e.activated k c order) := by
  refine Grows.trans (Grows.modifyLevel e k (fun l =>
    { l with env := Scope.evaluate (e.settingAround k) c.env }) fun _ => ⟨rfl, rfl, rfl⟩) ?_
  exact .of_eq rfl rfl rfl rfl

theorem grows_withInstance (e : Engine) (k : LevelKey) (l : Level) (b : Binding) (nodes : List Record) :
    Grows e (e.withInstance k l b nodes) := by
  have hp : Grows e { e with nextPrivate := e.nextPrivate + Binding.idsNeeded b.template } :=
    ⟨fun _ l h => ⟨l, h, .refl l⟩, fun _ n h => ⟨n, h, .refl n⟩, rfl, Nat.le_add_right _ _⟩
  exact hp.trans (.addLevel _ _)

theorem Opens.grows {k : LevelKey} {usage : Record} {t : Template} (h : Opens e k usage t e') :
    Grows e e' := by
  cases h with
  | nowhere => exact .refl e
  | breaks => exact .of_eq rfl rfl rfl rfl
  | collapses => exact (grows_withInstance _ _ _ _ _).trans (grows_failCreation _ _ _ _)
  | opens =>
    refine Grows.trans ?_ (grows_activated _ _ _ _)
    exact (grows_withInstance _ _ _ _ _).trans (.of_eq rfl rfl rfl rfl)

theorem Creates.grows {k : LevelKey} {r : Record} {templates : Templates}
    (h : Creates e k r templates e') : Grows e e' := by
  cases h with
  | present => exact .refl e
  | noTemplate => exact grows_failCreation _ _ _ _
  | usage _ _ _ ho => exact ho.grows
  | made => exact (quiet_note _ _).grows.trans (grows_enter _ _ _ _)
  | refused => exact grows_failCreation _ _ _ _

theorem grows_refresh (e : Engine) (k : LevelKey) : Grows e (e.refresh k) :=
  Stops.grows (stops_refresh e k)

theorem grows_install (e : Engine) (k : LevelKey) (usage : Record) (inst : LevelKey) :
    Grows e (e.install k usage inst) := by
  refine Grows.trans ?_ (grows_enter _ _ _ _)
  exact .modifyLevel _ _ _ fun _ => ⟨rfl, rfl, rfl⟩

theorem Rewires.grows (h : Rewires e e') : Grows e e' := by
  refine h.invariant (P := Grows e) (fun s s' hs ht => hs.trans ?_) (.refl e)
  cases ht with
  | note notes => exact (quiet_note _ _).grows
  | wires k wires => exact .modifyNode _ _ _ fun _ => ⟨rfl, rfl, rfl⟩
  | nodes inst nodes _ => exact .modifyLevel _ _ _ fun _ => ⟨rfl, rfl, rfl⟩
  | breaks => exact .of_eq rfl rfl rfl rfl

end Engine
end Flowgraph
