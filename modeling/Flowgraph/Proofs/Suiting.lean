import Flowgraph.Proofs.Layout
import Flowgraph.Proofs.Difference
import Flowgraph.Proofs.Sameness
/-! Nodes that suit a configuration: what a flow without subflows makes of the records it holds, whatever engine
runs it. -/
namespace Flowgraph

/-- What a name stands for on an outermost level. -/
def Level.see (outer : Lookup) (l : Level) : Lookup := fun name =>
  match outerSettingName? name with
  | some rest => outer rest
  | none =>
    match l.reserved? name with
    | some v => some v
    | none =>
      match l.env.get? name with
      | some v => some v
      | none => outer name

namespace FlowConfig

def kind (c : FlowConfig) : LevelKind := if c.id = Deployment.globalId then .global else .tab

/-- What a name stands for in a flow of this configuration. -/
def setting (outer : Lookup) (c : FlowConfig) : Lookup :=
  { Level.make c.kind none c with env := Scope.evaluate outer c.env }.see outer

end FlowConfig

/-- Whether a factory makes a node depends on nothing but what the difference of two generations looks at. -/
def Registry.Steady (kinds : Registry) : Prop :=
  ∀ r r' : Record, r.id = r'.id → Diff.nodeDiffers r r' = false →
    (kinds.create r).isOk = (kinds.create r').isOk

section Suited

variable (kinds : Registry) (outer : Lookup) {c c' : FlowConfig}

/-- A record of a flow that becomes a node of its own. -/
def Creatable (c : FlowConfig) (r : Record) : Prop :=
  r.templateId? = none ∧
    ((Engine.builtIn? r.type).isSome = true ∨ (kinds.create (Scope.resolveRecord (c.setting outer) r)).isOk = true)

/-- A node that a flow makes of one of its records, where it stands aside: what it has been made of, and its
wiring. -/
def Suited (c : FlowConfig) (made : Record) (wires : Wires) : Prop :=
  ∃ r ∈ c.nodes, r.disabled = false ∧ Creatable kinds outer c r ∧ made.id = r.id ∧ made.type = r.type ∧
    Json.sameFields (Diff.material made) (Diff.material (Scope.resolveRecord (c.setting outer) r)) = true ∧
    wires = r.outputs

variable {kinds outer}

theorem Creatable.renew (hk : kinds.Steady) (hs : c'.setting outer = c.setting outer) {r r' : Record}
    (hi : r'.id = r.id) (hd : Diff.nodeDiffers r r' = false) (h : Creatable kinds outer c r) :
    Creatable kinds outer c' r' := by
  obtain ⟨ht, hc, hdis, hm⟩ := Diff.nodeDiffers_eq_false.mp hd
  obtain ⟨hu, hmade⟩ := h
  refine ⟨by rwa [Record.templateId?, ← ht], ?_⟩
  rw [← ht, hs]
  refine hmade.imp_right fun hok => ?_
  have hd' : Diff.nodeDiffers (Scope.resolveRecord (c.setting outer) r)
      (Scope.resolveRecord (c.setting outer) r') = false :=
    Diff.nodeDiffers_eq_false.mpr ⟨ht, hc, hdis, Scope.sameFields_resolveRecord _ hm⟩
  exact (hk (Scope.resolveRecord (c.setting outer) r) (Scope.resolveRecord (c.setting outer) r') hi.symm hd').symm.trans
    hok

/-- A node that suits a configuration suits the next one as well, except for its wiring, if the difference names
it neither as changed nor as removed. -/
theorem Suited.renew {diff : Diff} (hk : kinds.Steady) (hs : c'.setting outer = c.setting outer)
    (hkept : ∀ r ∈ c.nodes, r.id ∉ diff.changed → r.id ∉ diff.removed → ∃ r' ∈ c'.nodes, r'.id = r.id ∧
      Diff.nodeDiffers r r' = false ∧ (r.wires = r'.wires ∨ r.id ∈ diff.rewired))
    {made : Record} {wires : Wires} (h : Suited kinds outer c made wires)
    (hc : made.id ∉ diff.changed) (hm : made.id ∉ diff.removed) :
    Suited kinds outer c' made wires ∨
      made.id ∈ Engine.onlyRewired diff ∧ ∃ wires', Suited kinds outer c' made wires' := by
  obtain ⟨r, hr, hd, hcr, hi, ht, hf, rfl⟩ := h
  obtain ⟨r', hr', hi', hdiff, hw⟩ := hkept r hr (hi ▸ hc) (hi ▸ hm)
  obtain ⟨ht', -, hdis, hf'⟩ := Diff.nodeDiffers_eq_false.mp hdiff
  have hsuits : Suited kinds outer c' made r'.outputs := by
    refine ⟨r', hr', hdis.symm.trans hd, hcr.renew hk hs hi' hdiff, hi.trans hi'.symm, ht.trans ht', ?_, rfl⟩
    rw [hs]
    exact Json.sameFields_trans hf (Scope.sameFields_resolveRecord _ hf')
  rcases hw with hw | hw
  · refine .inl ?_
    rwa [Record.outputs, hw]
  · refine .inr ⟨List.mem_filter.mpr ⟨hi ▸ hw, ?_⟩, _, hsuits⟩
    simp [hc, hm]

end Suited

end Flowgraph
