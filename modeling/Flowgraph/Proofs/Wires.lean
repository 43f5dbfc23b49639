import Mathlib.Logic.Relation
import Flowgraph.Engine.Clock
/-! What rewiring does to an engine, in small steps: nodes get another wiring, and the configuration of an
instance other nodes. A port number out of range breaks the engine. -/
namespace Flowgraph.Engine

/-- A small step of rewiring. -/
inductive WireStep : Engine → Engine → Prop
  | note {e : Engine} (notes : List Note) : WireStep e (e.note notes)
  | wires {e : Engine} (k : NodeKey) (wires : Wires) :
      WireStep e (e.modifyNode k fun n => { n with dispatch := .ofWires wires })
  | nodes {e : Engine} (inst : LevelKey) (nodes : List Record)
      (h : ∃ b outer, e.binding? inst = some b ∧ b.expand? outer = some nodes) :
      WireStep e (e.modifyLevel inst fun l => { l with config := { l.config with nodes } })
  | breaks {e : Engine} : WireStep e { e with broken := true, agenda := [] }

/-- Any number of small steps of rewiring. -/
def Rewires : Engine → Engine → Prop := Relation.ReflTransGen WireStep

variable {e e' e'' : Engine}

namespace Rewires

theorem refl (e : Engine) : Rewires e e := Relation.ReflTransGen.refl

theorem single (h : WireStep e e') : Rewires e e' := Relation.ReflTransGen.single h

theorem trans (h : Rewires e e') (h' : Rewires e' e'') : Rewires e e'' := Relation.ReflTransGen.trans h h'

/-- What every small step preserves is preserved by rewiring. -/
theorem invariant {P : Engine → Prop} (step : ∀ e e', P e → WireStep e e' → P e') (h : Rewires e e')
    (he : P e) : P e' := by
  induction h with
  | refl => exact he
  | tail _ ht ih => exact step _ _ ih ht

theorem foldl {α : Type} (f : Engine → α → Engine) (h : ∀ e a, Rewires e (f e a)) (xs : List α)
    (e : Engine) : Rewires e (xs.foldl f e) := by
  induction xs generalizing e with
  | nil => exact refl e
  | cons x xs ih => exact (h e x).trans (ih (f e x))

end Rewires

theorem rewires_updateWires (e : Engine) (k : NodeKey) (wires : Wires) :
    Rewires e (e.updateWires k wires) := by
  have h := Rewires.single (WireStep.wires (e := e) k wires)
  unfold updateWires
  dsimp only
  split
  · exact h.trans (.single (.note _))
  · exact h

/-- Wires one node of an instance anew, if it is active and its wiring is another one now. -/
def rewireNode (inst : LevelKey) (e : Engine) (r : Record) : Engine :=
  match e.activeKey? inst r.id with
  | none => e
  | some k =>
    if (e.node? k).map (·.dispatch.toWires) = some r.outputs then e
    else e.updateWires k r.outputs

theorem rewires_rewireNode (inst : LevelKey) (e : Engine) (r : Record) :
    Rewires e (e.rewireNode inst r) := by
  unfold rewireNode
  split
  · exact .refl e
  · split
    · exact .refl e
    · exact rewires_updateWires _ _ _

theorem levels_updateWires (e : Engine) (k : NodeKey) (wires : Wires) :
    (e.updateWires k wires).levels = e.levels := by
  unfold updateWires
  dsimp only
  split <;> rfl

theorem levels_rewireNode (inst : LevelKey) (e : Engine) (r : Record) :
    (e.rewireNode inst r).levels = e.levels := by
  unfold rewireNode
  split
  · rfl
  · split
    · rfl
    · exact levels_updateWires _ _ _

theorem levels_rewireNodes (inst : LevelKey) (rs : List Record) (e : Engine) :
    (rs.foldl (rewireNode inst) e).levels = e.levels := by
  induction rs generalizing e with
  | nil => rfl
  | cons r rs ih => rw [List.foldl_cons, ih, levels_rewireNode]

/-- The rewiring of an instance whose port numbers are in range. -/
theorem rewireInstance_eq {inst : LevelKey} {outer : Wires} {b : Binding} {nodes : List Record}
    (hb : e.binding? inst = some b) (hx : b.expand? outer = some nodes) :
    e.rewireInstance inst outer = (nodes.foldl (rewireNode inst) e).modifyLevel inst fun l =>
      { l with config := { l.config with nodes } } := by
  unfold rewireInstance
  rw [hb]
  dsimp only
  rw [hx]
  rfl

theorem rewires_rewireInstance (e : Engine) (inst : LevelKey) (outer : Wires) :
    Rewires e (e.rewireInstance inst outer) := by
  cases hb : e.binding? inst with
  | none =>
    unfold rewireInstance
    rw [hb]
    exact .refl e
  | some b =>
    cases hx : b.expand? outer with
    | none =>
      unfold rewireInstance
      rw [hb]
      dsimp only
      rw [hx]
      exact .single .breaks
    | some nodes =>
      rw [rewireInstance_eq hb hx]
      refine Rewires.trans (.foldl (rewireNode inst) (fun e r => ?_) _ e) (.single (.nodes inst _ ?_))
      · exact rewires_rewireNode inst e r
      · refine ⟨b, outer, ?_, hx⟩
        simp only [binding?, level?, levels_rewireNodes]
        exact hb

/-- Wires one node anew, with its instance if it has one. -/
def rewireOne (k : LevelKey) (config : FlowConfig) (e : Engine) (id : NodeId) : Engine :=
  match config.node? id, e.activeKey? k id with
  | some r, some n =>
    (match e.instance? k id with
      | some inst => e.rewireInstance inst r.outputs
      | none => e).updateWires n r.outputs
  | _, _ => e

/-- The ids that a diff names for nothing else than rewiring. -/
def onlyRewired (diff : Diff) : List NodeId :=
  diff.rewired.filter fun id => !diff.changed.contains id && !diff.removed.contains id

theorem rewire_eq (e : Engine) (k : LevelKey) (config : FlowConfig) (diff : Diff) :
    e.rewire k config diff = (onlyRewired diff).foldl (rewireOne k config) e := rfl

theorem rewires_rewireOne (k : LevelKey) (config : FlowConfig) (e : Engine) (id : NodeId) :
    Rewires e (e.rewireOne k config id) := by
  unfold rewireOne
  split
  · refine Rewires.trans ?_ (rewires_updateWires _ _ _)
    split
    · exact rewires_rewireInstance _ _ _
    · exact .refl e
  · exact .refl e

theorem rewires_rewire (e : Engine) (k : LevelKey) (config : FlowConfig) (diff : Diff) :
    Rewires e (e.rewire k config diff) := by
  rw [rewire_eq]
  exact .foldl _ (fun e id => rewires_rewireOne k config e id) _ _

end Flowgraph.Engine
