import Flowgraph.Proofs.PrivateIds
/-! The expansion of a template joins outputs, and leaves everything else of its nodes as it is. There is one
whenever the numbers of the ports can be counted on from. -/
namespace Flowgraph

/-- A record without its wiring. -/
def Record.bare (r : Record) : Record := { r with wires := none }

theorem foldlM_invariant {α β : Type} {f : β → α → Option β} {P : β → Prop}
    (step : ∀ b a b', P b → f b a = some b' → P b') {xs : List α} {b b' : β}
    (h : xs.foldlM f b = some b') (hb : P b) : P b' := by
  induction xs generalizing b with
  | nil =>
    cases h
    exact hb
  | cons x xs ih =>
    rw [List.foldlM_cons] at h
    obtain ⟨c, hc, h⟩ := Option.bind_eq_some_iff.mp h
    exact ih h (step b x c hb hc)

theorem foldlM_isSome {α β : Type} {f : β → α → Option β} {xs : List α} (step : ∀ b, ∀ a ∈ xs, ∃ b', f b a = some b')
    (b : β) : ∃ b', xs.foldlM f b = some b' := by
  induction xs generalizing b with
  | nil => exact ⟨b, rfl⟩
  | cons x xs ih =>
    obtain ⟨c, hc⟩ := step b x List.mem_cons_self
    rw [List.foldlM_cons, hc]
    exact ih (fun b a ha => step b a (List.mem_cons_of_mem _ ha)) c

/-- The port numbers behind a port have successors. -/
def Port.Countable (port : Port) : Prop := ∀ w ∈ port.wires, w.port + 1 < Nat.pow 2 64

/-- The port numbers behind every port of a template that leads out of it have successors. -/
structure Template.Countable (t : Template) : Prop where
  outputs : ∀ port ∈ t.outputs, port.Countable
  status : ∀ port ∈ t.status, port.Countable
  complete : ∀ port ∈ t.complete, port.Countable

namespace Binding

variable {b : Binding} {nodes nodes' : List Record}

theorem connect?_bare {id : NodeId} {port : Nat} {targets : List NodeId}
    (h : connect? nodes id port targets = some nodes') : nodes'.map Record.bare = nodes.map Record.bare := by
  unfold connect? at h
  split at h
  · cases h
    rfl
  · rename_i i _
    obtain ⟨r, hr, h⟩ := Option.bind_eq_some_iff.mp h
    obtain ⟨wires, -, h⟩ := Option.bind_eq_some_iff.mp h
    cases h
    refine List.ext_getElem? fun j => ?_
    rw [List.getElem?_map, List.getElem?_map, List.getElem?_set]
    obtain ⟨hi, hr⟩ := List.getElem?_eq_some_iff.mp hr
    by_cases hj : i = j
    · subst hj
      simp [hi, hr, Record.bare]
    · simp [hj]

theorem connectPort?_bare {port : Port} {targets : List NodeId}
    (h : b.connectPort? nodes port targets = some nodes') : nodes'.map Record.bare = nodes.map Record.bare :=
  foldlM_invariant (P := fun ns => ns.map Record.bare = nodes.map Record.bare)
    (fun _ _ _ hb hs => (connect?_bare hs).trans hb) h rfl

theorem connectOutput?_bare {port : Port} {targets passed : List NodeId}
    (h : b.connectOutput? nodes port targets = some (nodes', passed)) :
    nodes'.map Record.bare = nodes.map Record.bare := by
  refine foldlM_invariant (P := fun s : List Record × List NodeId => s.1.map Record.bare = nodes.map Record.bare)
    (fun s w s' hs hstep => ?_) h rfl
  dsimp only at hstep
  split at hstep
  · cases hstep
    exact hs
  · obtain ⟨ns, hns, rfl⟩ := Option.map_eq_some_iff.mp hstep
    exact (connect?_bare hns).trans hs

theorem connectOutputs?_bare {outer : Wires} {passed : List NodeId}
    (h : b.connectOutputs? outer nodes = some (nodes', passed)) :
    nodes'.map Record.bare = nodes.map Record.bare := by
  refine foldlM_invariant (P := fun s : List Record × List NodeId => s.1.map Record.bare = nodes.map Record.bare)
    (fun s p s' hs hstep => ?_) h rfl
  obtain ⟨⟨ns, more⟩, hns, hstep⟩ := Option.bind_eq_some_iff.mp hstep
  cases hstep
  exact (connectOutput?_bare hns).trans hs

theorem addSink?_bare {port : Option Port} {sink : Option NodeId} {type : String}
    (hp : port.isSome = sink.isSome) (h : b.addSink? nodes port sink type = some nodes') :
    nodes'.map Record.bare = (nodes ++ sink.toList.map fun id => b.internal id type []).map Record.bare := by
  cases port with
  | none =>
    cases sink with
    | none =>
      cases h
      simp
    | some id => cases hp
  | some port =>
    cases sink with
    | none => cases hp
    | some id =>
      obtain ⟨ns, hns, h⟩ := Option.bind_eq_some_iff.mp h
      cases h
      simp [connectPort?_bare hns]

/-- Whether a binding has an id for each sink of its template, and for no other. -/
structure Fitting (b : Binding) : Prop where
  status : b.template.status.isSome = b.statusSink.isSome
  complete : b.template.complete.isSome = b.completeSink.isSome

theorem fitting_make (t : Template) (usage : Record) (next : Nat) : (Binding.make t usage next).Fitting := by
  constructor <;> simp [make]

/-- An expansion has the nodes of the binding, whatever its outputs are joined to. -/
theorem expand?_bare {outer : Wires} (hb : b.Fitting) (h : b.expand? outer = some nodes) :
    nodes.map Record.bare = b.members.map Record.bare := by
  unfold expand? at h
  obtain ⟨⟨n₁, passed⟩, h₁, h⟩ := Option.bind_eq_some_iff.mp h
  obtain ⟨n₂, h₂, h⟩ := Option.bind_eq_some_iff.mp h
  obtain ⟨n₃, h₃, h⟩ := Option.bind_eq_some_iff.mp h
  cases h
  have hc := connectOutputs?_bare h₁
  have hs := addSink?_bare hb.status h₂
  have hl := addSink?_bare hb.complete h₃
  rw [List.map_append] at hs hl
  simp only [members, List.map_append]
  rw [hl, hs, hc, List.append_assoc, List.append_assoc]
  rfl

theorem ids_of_bare (h : nodes.map Record.bare = nodes'.map Record.bare) :
    nodes.map (·.id) = nodes'.map (·.id) := by
  have := congrArg (List.map Record.id) h
  rwa [List.map_map, List.map_map] at this

theorem expand?_ids {outer : Wires} (hb : b.Fitting) (h : b.expand? outer = some nodes) :
    nodes.map (·.id) = b.members.map (·.id) := ids_of_bare (expand?_bare hb h)

/-! ## Whether there is an expansion -/

theorem connect?_isSome {port : Nat} (hp : port + 1 < Nat.pow 2 64) (nodes : List Record) (id : NodeId)
    (targets : List NodeId) : ∃ nodes', connect? nodes id port targets = some nodes' := by
  unfold connect?
  split
  · exact ⟨nodes, rfl⟩
  · rename_i i hi
    obtain ⟨hlt, -⟩ := List.findIdx?_eq_some_iff_getElem.mp hi
    rw [List.getElem?_eq_getElem hlt]
    dsimp only [Option.bind_eq_bind, Option.bind_some]
    unfold extendPort?
    rw [if_pos hp]
    exact ⟨_, rfl⟩

theorem addSink?_isSome {port : Option Port} (hp : ∀ p ∈ port, p.Countable) (nodes : List Record)
    (sink : Option NodeId) (type : String) : ∃ nodes', b.addSink? nodes port sink type = some nodes' := by
  unfold addSink?
  split
  · rename_i port id
    obtain ⟨ns, hns⟩ := foldlM_isSome (f := fun nodes (w : PortWire) => connect? nodes (b.rename w.node) w.port [id])
      (fun ns w hw => connect?_isSome (hp port rfl w hw) ns _ _) nodes
    refine ⟨ns ++ [b.internal id type []], ?_⟩
    rw [connectPort?, hns]
    rfl
  · exact ⟨nodes, rfl⟩

theorem connectOutput?_isSome {port : Port} (hp : port.Countable) (nodes : List Record) (targets : List NodeId) :
    ∃ made, b.connectOutput? nodes port targets = some made := by
  refine foldlM_isSome (fun s w hw => ?_) _
  dsimp only
  split
  · exact ⟨_, rfl⟩
  · obtain ⟨ns, hns⟩ := connect?_isSome (hp w hw) s.1 (b.rename w.node) targets
    rw [hns]
    exact ⟨_, rfl⟩

theorem expand?_isSome (ht : b.template.Countable) (outer : Wires) : ∃ nodes, b.expand? outer = some nodes := by
  obtain ⟨⟨n₁, passed⟩, h₁⟩ : ∃ made, b.connectOutputs? outer (b.template.nodes.map b.copy) = some made := by
    refine foldlM_isSome (fun s port hport => ?_) _
    obtain ⟨made, hm⟩ := connectOutput?_isSome (b := b) (ht.outputs port.1 (List.fst_mem_of_mem_zipIdx hport)) s.1
      (outer[port.2]?.getD [])
    dsimp only
    rw [hm]
    exact ⟨_, rfl⟩
  obtain ⟨n₂, h₂⟩ := addSink?_isSome (b := b) ht.status n₁ b.statusSink statusSinkType
  obtain ⟨n₃, h₃⟩ := addSink?_isSome (b := b) ht.complete n₂ b.completeSink completeSinkType
  unfold expand?
  rw [h₁]
  dsimp only [Option.bind_eq_bind, Option.bind_some]
  rw [h₂, Option.bind_some, h₃]
  exact ⟨_, rfl⟩

end Binding
end Flowgraph
