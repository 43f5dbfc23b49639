import Flowgraph.Proofs.Copies
import Flowgraph.Proofs.Searching
import Flowgraph.Proofs.StatusPorts
/-! Wires that lead straight from the input of a template to one of its ports. Those to an output carry what the usage
node is sent, once for each wire. Those to the status or complete port carry nothing: the template would be expanded in
the same way without them. -/
namespace Flowgraph

variable {b : Binding} {nodes nodes' : List Record} {targets : List NodeId} {p : Port}

/-! ## Ports without such wires -/

/-- A port without the wires that come straight from the input of the template. -/
def Template.bypassed (t : Template) (p : Port) : Port := ⟨p.wires.filter (·.node ≠ t.id)⟩

/-- The template without these wires at its status and its complete port. -/
def Template.indirect (t : Template) : Template :=
  { t with status := t.status.map t.bypassed, complete := t.complete.map t.bypassed }

namespace Binding

/-- Nobody among these nodes has the id under which a wire names the template. -/
def Foreign (b : Binding) (nodes : List Record) : Prop := ∀ r ∈ nodes, r.id ≠ b.rename b.template.id

theorem Foreign.of_bare (h : b.Foreign nodes) (he : nodes'.map Record.bare = nodes.map Record.bare) :
    b.Foreign nodes' := by
  intro r hr
  have hid : r.id ∈ nodes.map (·.id) := ids_of_bare he ▸ List.mem_map_of_mem hr
  obtain ⟨r', hr', hid'⟩ := List.mem_map.mp hid
  exact hid' ▸ h r' hr'

/-- A wire from the input of the template finds nobody to be joined to. -/
theorem connectPort?_bypassed (h : b.Foreign nodes) (p : Port) :
    b.connectPort? nodes (b.template.bypassed p) targets = b.connectPort? nodes p targets := by
  obtain ⟨wires⟩ := p
  unfold connectPort? Template.bypassed
  induction wires generalizing nodes with
  | nil => rfl
  | cons w wires ih =>
    by_cases hself : w.node = b.template.id
    · have habsent : connect? nodes (b.rename w.node) w.port targets = some nodes := connect?_absent (hself ▸ h)
      rw [List.filter_cons_of_neg (by simpa using hself), List.foldlM_cons, habsent]
      exact ih h
    · rw [List.filter_cons_of_pos (by simpa using hself), List.foldlM_cons, List.foldlM_cons]
      cases hstep : connect? nodes (b.rename w.node) w.port targets with
      | none => rfl
      | some nodes' => exact ih (h.of_bare (connect?_bare hstep))

theorem addSink?_bypassed (h : b.Foreign nodes) (port : Option Port) (sink : Option NodeId) (type : String) :
    b.addSink? nodes (port.map b.template.bypassed) sink type = b.addSink? nodes port sink type := by
  cases port with
  | none => rfl
  | some p =>
    cases sink with
    | none => rfl
    | some s =>
      unfold addSink?
      dsimp only [Option.map_some]
      rw [connectPort?_bypassed h]

mutual
theorem renameValue_congr {b' : Binding} (h : b'.rename = b.rename) : (v : Json) → b'.renameValue v = b.renameValue v
  | .null | .bool _ | .num _ => rfl
  | .str s => congrArg Json.str (congrFun h s)
  | .arr xs => congrArg Json.arr (renameItems_congr h xs)
  | .obj xs => congrArg Json.obj (renameFields_congr h xs)

theorem renameItems_congr {b' : Binding} (h : b'.rename = b.rename) : (xs : List Json) →
    b'.renameItems xs = b.renameItems xs
  | [] => rfl
  | x :: xs => by rw [renameItems, renameItems, renameValue_congr h x, renameItems_congr h xs]

theorem renameFields_congr {b' : Binding} (h : b'.rename = b.rename) : (xs : List (String × Json)) →
    b'.renameFields xs = b.renameFields xs
  | [] => rfl
  | (k, x) :: xs => by rw [renameFields, renameFields, renameValue_congr h x, renameFields_congr h xs]
end

/-- The copy of a node is a matter of the names of an instance and its usage node. -/
theorem copy_congr {b' : Binding} (h : b'.rename = b.rename) (hu : b'.usage = b.usage) : b'.copy = b.copy := by
  funext r
  simp only [copy, h, hu, renameValue_congr h]

/-- A template has the same expansions without the wires from its input to its status and its complete port. -/
theorem expand?_indirect (hb : b.Fitting) (h : b.Foreign b.members) (outer : Wires) :
    ({ b with template := b.template.indirect } : Binding).expand? outer = b.expand? outer := by
  obtain ⟨hcopies, hmore⟩ := List.forall_mem_append.mp h
  obtain ⟨hstatus, -⟩ := List.forall_mem_append.mp hmore
  have hcopy : ({ b with template := b.template.indirect } : Binding).copy = b.copy := copy_congr rfl rfl
  unfold expand?
  rw [hcopy]
  change (b.connectOutputs? outer (b.template.nodes.map b.copy) >>= _) = _
  -- the outputs are joined as they were,
  cases hjoined : b.connectOutputs? outer (b.template.nodes.map b.copy) with
  | none => rfl
  | some joined =>
    obtain ⟨n₁, passed⟩ := joined
    have hn₁ : b.Foreign n₁ := Foreign.of_bare hcopies (connectOutputs?_bare hjoined)
    -- and so are both sinks
    change (b.addSink? n₁ (b.template.status.map b.template.bypassed) b.statusSink statusSinkType >>= _) =
      (b.addSink? n₁ b.template.status b.statusSink statusSinkType >>= _)
    rw [addSink?_bypassed hn₁]
    cases hreported : b.addSink? n₁ b.template.status b.statusSink statusSinkType with
    | none => rfl
    | some n₂ =>
      have hboth : b.Foreign (n₁ ++ b.statusSink.toList.map fun id => b.internal id statusSinkType []) :=
        List.forall_mem_append.mpr ⟨hn₁, hstatus⟩
      have hn₂ : b.Foreign n₂ := hboth.of_bare (addSink?_bare hb.status hreported)
      change (b.addSink? n₂ (b.template.complete.map b.template.bypassed) b.completeSink completeSinkType >>= _) =
        (b.addSink? n₂ b.template.complete b.completeSink completeSinkType >>= _)
      rw [addSink?_bypassed hn₂]
      rfl

/-- The nodes of an instance have private ids, so none of them goes by the name of the template. -/
theorem foreign_members {low high : Nat} (hb : b.Within low high)
    (hnodes : ∀ r ∈ b.template.nodes, r.id ≠ b.template.id) (hplain : ∀ n, b.template.id ≠ privateId n) : b.Foreign b.members := by
  intro r hr hid
  obtain ⟨n, -, -, hprivate⟩ := hb.private (List.mem_map_of_mem hr)
  have hnone : b.privateOf? b.template.id = none := by
    obtain ⟨t, usage, next, -, rfl, -⟩ := hb
    have hnone : (make t usage next).names.find? (·.1 == t.id) = none := by
      refine List.find?_eq_none.mpr fun p hp he => ?_
      have hmem : p.1 ∈ t.nodes.map (·.id) := names_make t usage next ▸ List.mem_map_of_mem hp
      obtain ⟨r', hr', hid'⟩ := List.mem_map.mp hmem
      exact hnodes r' hr' (hid'.trans (beq_iff_eq.mp he))
    exact congrArg (Option.map Prod.snd) hnone
  rw [rename, hnone, Option.getD_none] at hid
  exact hplain n (hid.symm.trans hprivate)

end Binding

namespace Engine

variable {e s : Engine} {f i j k : LevelKey} {u x : NodeId} {n n' : NodeKey} {m : Message} {base : List Action}
  {outer : Wires} {node : Node} {a : Action} {actions next rest : List Action}

/-! ## From a usage node to the wires of its input node -/

/-- Work with messages by which some actions become others. -/
def LeadsTo (e : Engine) (actions next : List Action) : Prop :=
  ∀ s base, s.still = e.still → s.agenda = actions ++ base →
    ∃ s', Reach s s' ∧ s'.still = e.still ∧ s'.agenda = next ++ base

theorem LeadsTo.trans (h : e.LeadsTo actions next) (h' : e.LeadsTo next rest) : e.LeadsTo actions rest := by
  intro s base hs ha
  obtain ⟨s₁, hreach, hs₁, ha₁⟩ := h s base hs ha
  obtain ⟨s₂, hreach', hs₂, ha₂⟩ := h' s₁ base hs₁ ha₁
  exact ⟨s₂, hreach.trans hreach', hs₂, ha₂⟩

theorem LeadsTo.act (hb : e.broken = false) (hq : a.isQuiet = true)
    (h : ∀ s : Engine, s.still = e.still → (s.act a).agenda = next ++ s.agenda) : e.LeadsTo [a] next := by
  intro s base hs ha
  have hs' : ({ s with agenda := base } : Engine).still = e.still := hs
  exact ⟨_, .single (.act ((broken_of_still hs).trans hb) ha), (quiet_act _ hq).still.trans hs', h _ hs'⟩

section Steps
variable (hb : e.broken = false)
include hb

theorem Serves.leadsTo_instance (hn : e.Serves k n node) (hpart : node.part = .standIn i) (hi : e.binding? i = some b) :
    e.LeadsTo [.hand n m] [.handAt i b.input m] := by
  refine .act hb rfl fun s hs => ?_
  obtain ⟨node', hn', -, hpart', -⟩ := hn.still hs
  change (s.hand n m).agenda = _
  rw [hand, hn'.isNode]
  dsimp only
  rw [hn'.awake, hpart', hpart]
  dsimp only
  rw [(binding?_of_still hs i).trans hi]
  rfl

theorem Serves.leadsTo_hand (hn : e.Serves k n node) : e.LeadsTo [.handAt k node.id m] [.hand n m] := by
  refine .act hb rfl fun s hs => ?_
  obtain ⟨node', hn', hid, -⟩ := hn.still hs
  change (s.handAt k node.id m).agenda = _
  rw [handAt, ← hid, hn'.active]
  rfl

theorem Serves.leadsTo_send (hn : e.Serves k n node) (hpart : node.part = .relay) :
    e.LeadsTo [.hand n m] [.effect n (.send 0 m)] := by
  refine .act hb rfl fun s hs => ?_
  obtain ⟨node', hn', -, hpart', -⟩ := hn.still hs
  change (s.hand n m).agenda = _
  rw [hand, hn'.isNode]
  dsimp only
  rw [hn'.awake, hpart', hpart]
  rfl

theorem Serves.leadsTo_wires (hn : e.Serves k n node) (hlast : ∀ s : Engine, s.still = e.still → s.hasLevel k = true) :
    e.LeadsTo [.effect n (.send 0 m)] ((outlets node 0).map fun x => .deliver k x m) := by
  refine .act hb rfl fun s hs => ?_
  obtain ⟨node', hn', -, -, hd⟩ := hn.still hs
  change (s.perform n (.send 0 m)).agenda = _
  rw [perform, hn'.isNode]
  dsimp only
  rw [hn'.level, if_pos (hlast s hs), sendFrom, hd, hn'.level]
  simp [push, outlets, Function.comp_def]

end Steps

/-! ## Instances that are fed -/

/-- An active usage node at any depth of a flow that is kept, and its instance, whose input node is active. -/
structure Feeds (e : Engine) (f k : LevelKey) (u : NodeId) (n : NodeKey) (i : LevelKey) (b : Binding) : Prop where
  kept : e.Kept f
  inside : e.Inside f k
  usage : e.activeKey? k u = some n
  inst : e.instance? k u = some i
  standsIn : ∃ node, e.node? n = some node ∧ node.part = .standIn i
  binding : e.binding? i = some b
  input : (e.activeKey? i b.input).isSome = true

/-- What the outputs with a wire straight from the input are wired to, output by output and once for each such wire. -/
def straightTargets (b : Binding) (outer : Wires) : List NodeId :=
  b.template.joined (·.node == b.template.id) fun port => outer[port]?.getD []

theorem outlets_eq_toWires (node : Node) (port : Nat) : outlets node port = node.dispatch.toWires[port]?.getD [] := by
  rw [outlets, Dispatch.targets, Dispatch.toWires, List.getElem?_map]
  cases node.dispatch.ports[port]? <;> rfl

namespace Feeds

theorem flow (hf : e.Feeds f k u n i b) : ∃ l, e.level? f = some l := by
  have hexists {j i : LevelKey} {id : NodeId} (hi : e.instance? j id = some i) : ∃ l, e.level? j = some l := by
    obtain ⟨l, hl, -⟩ := Option.bind_eq_some_iff.mp hi
    exact ⟨l, hl⟩
  have hinside {k : LevelKey} (hin : e.Inside f k) (hk : ∃ l, e.level? k = some l) : ∃ l, e.level? f = some l := by
    induction hin with
    | here => exact hk
    | deeper _ hi ih => exact ih (hexists hi)
  exact hinside hf.inside (hexists hf.inst)

variable (h : Reachable e) (hf : e.Feeds f k u n i b)
include h hf

theorem level : ∃ l, e.level? i = some l ∧ l.kind = .expansion b ∧ l.parent = some k := by
  obtain ⟨l, b', hl, hk, hp, -⟩ := h.layout.laid.isInstance hf.inst
  obtain rfl := Option.some.inj (hf.binding.symm.trans (binding?_of_kind hl hk))
  exact ⟨l, hl, hk, hp⟩

/-- The input node of the instance relays what it is handed to the wires of an expansion. -/
theorem inputNode : ∃ n' node, e.Serves i n' node ∧ node.id = b.input ∧ node.part = .relay ∧
    (∃ outer nodes, b.expand? outer = some nodes ∧ outlets node 0 = b.inputTargets ++ straightTargets b outer) ∧
    ∀ outer, WiredFor e i outer → outlets node 0 = b.inputTargets ++ straightTargets b outer := by
  obtain ⟨n', hn'⟩ := Option.isSome_iff_exists.mp hf.input
  obtain ⟨node, hserves, hid⟩ := h.serves hn'
  have hmem : b.internal b.input inputType [] ∈ b.members := by simp [Binding.members]
  obtain ⟨node', hnode', -, -, htype⟩ := h.member hf.binding hmem hn'
  obtain rfl := Option.some.inj (hserves.isNode.symm.trans hnode')
  have hpart := h.parted.nodes n' node .relay hserves.isNode (by rw [htype]; rfl)
  obtain ⟨l, hl, hk, -⟩ := hf.level h
  -- every expansion has one input node, which is wired like this
  have hmade := ((h.layout.laid i l hl).enclosed b hk).made
  have hinput {outer : Wires} {nodes : List Record} (hx : b.expand? outer = some nodes) :
      b.internal b.input inputType [b.inputTargets ++ straightTargets b outer] ∈ nodes ∧ (nodes.map (·.id)).Nodup := by
    refine ⟨?_, by rw [Binding.expand?_ids hmade.fitting hx]; exact hmade.nodup⟩
    obtain ⟨t, usage, next, -, hb, -⟩ := h.tailored.given i b hf.binding
    rw [hb] at hx ⊢
    exact Binding.input_mem_expand? hx
  refine ⟨n', node, hserves, hid, hpart, ?_, fun outer hw => ?_⟩
  · obtain ⟨outer, nodes, hx, hout⟩ := h.outlets_eq hf.binding hserves.isNode hserves.level
    obtain ⟨hin, hnodup⟩ := hinput hx
    refine ⟨outer, nodes, hx, ?_⟩
    have hwiring := wiring_of_mem hnodup hin 0
    rw [hout, hid]
    exact hwiring
  · cases hw with
    | @intro _ _ b' nodes hb' hx own _ =>
      obtain rfl := Option.some.inj (hf.binding.symm.trans hb')
      have hwires := own _ (hinput hx).1 n' hn'
      rw [hserves.isNode, Option.map_some, Option.some.injEq] at hwires
      rw [outlets_eq_toWires, hwires]
      rfl

/-- An id that no node of the instance has is looked up around it. -/
theorem outward?_around (hx : ∀ r ∈ b.members, r.id ≠ x) (hs : s.still = e.still) :
    s.outward? i x = s.outward? k x := by
  obtain ⟨l, hl, -, hp⟩ := hf.level h
  have hnone : e.activeKey? i x = none := by
    refine Option.eq_none_iff_forall_ne_some.mpr fun n' hn' => ?_
    obtain ⟨node, hnode, hlevel, hid⟩ := h.layout.laid.activeKey?_node hn'
    obtain ⟨r, hr, hrid⟩ := List.mem_map.mp (h.mem_members hnode (hlevel.symm ▸ hf.binding))
    exact hx r hr (hrid.trans hid)
  have haround : s.hasLevel k = true := hf.kept.inside h.layout.laid hf.inside hf.flow hs
  refine outward?_parent (h.layout.laid.still hs) ((level?_of_still hs i).trans hl) hp haround ?_
  rwa [activeKey?, level?_of_still hs]

end Feeds

/-- A message that is handed to a usage node goes to what the first input port of its template leads to, and then to the
outer targets of each output, once for each wire that comes to the output straight from the input; those are looked up
around the instance. The status and the complete port get nothing this way: the template is expanded as if their wires
from the input were not there. -/
theorem input_wired_straight_through (h : Reachable e) (hb : e.broken = false) (hf : e.Feeds f k u n i b)
    (ha : e.agenda = .hand n m :: base) :
    (∃ straight s, ((∃ outer nodes, b.expand? outer = some nodes ∧ straight = straightTargets b outer) ∧
        ∀ outer, WiredFor e i outer → straight = straightTargets b outer) ∧
      Reach e s ∧ s.still = e.still ∧
      s.agenda = ((b.inputTargets ++ straight).map fun x => .deliver i x m) ++ base) ∧
    (∀ x, (∀ r ∈ b.members, r.id ≠ x) → ∀ s : Engine, s.still = e.still → s.outward? i x = s.outward? k x) ∧
    ((∀ r ∈ b.template.nodes, r.id ≠ b.template.id) → (∀ number, b.template.id ≠ privateId number) →
      ∀ outer, ({ b with template := b.template.indirect } : Binding).expand? outer = b.expand? outer) := by
  obtain ⟨usage, husage, hstands⟩ := hf.standsIn
  obtain ⟨node, hnode, -⟩ := h.serves hf.usage
  obtain rfl := Option.some.inj (husage.symm.trans hnode.isNode)
  obtain ⟨n', input, hinput, hid, hrelay, ⟨outer, nodes, hx, hout⟩, hwired⟩ := hf.inputNode h
  obtain ⟨l, hl, hk, -⟩ := hf.level h
  have hlast (s : Engine) (hs : s.still = e.still) : s.hasLevel i = true :=
    hf.kept.inside h.layout.laid (.deeper hf.inside hf.inst) hf.flow hs
  have hleads : e.LeadsTo [.hand n m] ((outlets input 0).map fun x => .deliver i x m) :=
    (hnode.leadsTo_instance hb hstands hf.binding).trans <| hid ▸ (hinput.leadsTo_hand hb).trans <|
      (hinput.leadsTo_send hb hrelay).trans (hinput.leadsTo_wires hb hlast)
  obtain ⟨s, hreach, hs, hagenda⟩ := hleads e base rfl ha
  refine ⟨⟨straightTargets b outer, s, ⟨⟨outer, nodes, hx, rfl⟩, fun outer' hw => ?_⟩, hreach, hs, ?_⟩,
    fun x hx s hs => hf.outward?_around h hx hs, fun hnodes hplain outer => ?_⟩
  · exact List.append_cancel_left (hout.symm.trans (hwired outer' hw))
  · rw [← hout, hagenda]
  · exact Binding.expand?_indirect ((h.layout.laid i l hl).enclosed b hk).made.fitting
      (Binding.foreign_members (h.tailored.given i b hf.binding) hnodes hplain) outer

end Engine

namespace Session
open Engine

/-- A usage node whose template leads its input straight to an output, over two wires, and to its status port. -/
def shortcutRecords : List Json :=
  let straight : Json := .obj [("id", .str "s")]
  [.obj [("id", .str "t"), ("type", .str "tab")],
    .obj [("id", .str "n"), ("type", .str "test"), ("z", .str "t")],
    .obj [("id", .str "s"), ("out", .arr [.obj [("wires", .arr [straight, straight])]]),
      ("status", .obj [("wires", .arr [straight])]), ("type", .str "subflow")],
    .obj [("id", .str "u"), ("type", .str "subflow:s"), ("wires", .arr [.arr [.str "n"]]), ("z", .str "t")],
    .obj [("id", .str "w"), ("type", .str "status"), ("wires", .arr [.arr [.str "n"]]), ("z", .str "t")]]

def shortcutFlow : Engine :=
  (start ⟨{ ((Engine.make .instrumented .standalone [] [] 500).addLevel
    (.make .tab none (firstTab shortcutRecords))).1 with keptLevels := [0] }, some 0, .empty, []⟩ 0 none).2.engine

def shortcutMessage : Message := ⟨[("payload", .str "hi"), ("status", .obj [("text", .str "up")])]⟩

/-- The message is about to be handed to the usage node. -/
def shortcutHand : Engine := shortcutFlow.push [.hand 3 shortcutMessage]

def shortcutBinding : Binding := (shortcutHand.binding? 1).getD default

def shortcutNodes : List Record := (shortcutBinding.expand? [["n"]]).getD []

theorem shortcutHand_run : (shortcutHand.broken = false ∧ shortcutFlow.agenda.isEmpty = true ∧
      shortcutHand.keptLevels.contains 0 = true) ∧
    (shortcutHand.activeKey? 0 "u" = some 3 ∧ shortcutHand.instance? 0 "u" = some 1 ∧
      (shortcutHand.node? 3).map (isStandIn · 1) = some true ∧ shortcutHand.binding? 1 = some shortcutBinding ∧
      (shortcutHand.activeKey? 1 shortcutBinding.input).isSome = true) ∧
    shortcutBinding.expand? [["n"]] = some shortcutNodes ∧
    (∀ r ∈ shortcutNodes, (shortcutHand.activeKey? 1 r.id).all (fun n =>
        (shortcutHand.node? n).map (·.dispatch.toWires) == some r.outputs) = true ∧
      shortcutHand.instance? 1 r.id = none) ∧
    shortcutBinding.inputTargets = [] ∧ straightTargets shortcutBinding [["n"]] = ["n", "n"] ∧
    (∀ r ∈ shortcutBinding.template.nodes, r.id ≠ shortcutBinding.template.id) ∧
    shortcutBinding.template.id = "s" ∧ shortcutBinding.template.status = some ⟨[⟨"s", 0⟩]⟩ ∧
    shortcutBinding.template.indirect.status = some ⟨[]⟩ := by
  decide +kernel

theorem reachable_shortcutHand : Reachable shortcutHand := by
  have hmade : Reachable ((Engine.make .instrumented .standalone [] [] 500).addLevel
      (.make .tab none (firstTab shortcutRecords))).1 :=
    (Reachable.make _ _ _ _ _).input rfl (.flow (.inl rfl) (parsed_firstTab (by decide +kernel)))
  have hflow : Reachable shortcutFlow := reachable_start (hmade.input rfl (.keep [0] [])) rfl
  obtain ⟨⟨-, hidle, -⟩, -⟩ := shortcutHand_run
  exact hflow.input (List.isEmpty_iff.mp hidle) (.quiet (.push _ _ (by simp [Action.isQuiet])))

theorem feeds_shortcutHand : shortcutHand.Feeds 0 0 "u" 3 1 shortcutBinding := by
  obtain ⟨⟨-, -, hkept⟩, ⟨hactive, hinst, hstands, hbinding, hinput⟩, -⟩ := shortcutHand_run
  obtain ⟨node, hnode, hpart⟩ := Option.map_eq_some_iff.mp hstands
  refine ⟨.inl hkept, .here, hactive, hinst, ⟨node, hnode, ?_⟩, hbinding, hinput⟩
  unfold isStandIn at hpart
  split at hpart
  · rename_i i hi
    rw [hi, beq_iff_eq.mp hpart]
  · cases hpart

theorem wiredFor_shortcutHand : WiredFor shortcutHand 1 [["n"]] := by
  obtain ⟨-, ⟨-, -, -, hbinding, -⟩, hexpand, hnodes, -⟩ := shortcutHand_run
  refine .intro hbinding hexpand (fun r hr n hn => ?_) fun r hr i hi => ?_
  · have hwires := (hnodes r hr).1
    rw [hn] at hwires
    exact beq_iff_eq.mp hwires
  · rw [(hnodes r hr).2] at hi
    cases hi

/-- Both wires to the output carry the message on, and the wire to the status port might as well not be there. -/
theorem shortcut_misses_status : Reachable shortcutHand ∧ shortcutHand.Feeds 0 0 "u" 3 1 shortcutBinding ∧
    (∃ s, Reach shortcutHand s ∧ s.still = shortcutHand.still ∧
      s.agenda = [.deliver 1 "n" shortcutMessage, .deliver 1 "n" shortcutMessage]) ∧
    shortcutBinding.template.status = some ⟨[⟨"s", 0⟩]⟩ ∧ shortcutBinding.template.indirect.status = some ⟨[]⟩ ∧
    ({ shortcutBinding with template := shortcutBinding.template.indirect } : Binding).expand? [["n"]] =
      shortcutBinding.expand? [["n"]] := by
  obtain ⟨⟨hb, hidle, -⟩, -, -, -, htargets, hstraight, hnodes, hid, hstatus, hindirect⟩ := shortcutHand_run
  have hagenda : shortcutHand.agenda = [.hand 3 shortcutMessage] := by
    change _ ++ shortcutFlow.agenda = _
    rw [List.isEmpty_iff.mp hidle, List.append_nil]
  obtain ⟨⟨straight, s, ⟨-, hwired⟩, hreach, hs, hdeliver⟩, -, hsame⟩ :=
    input_wired_straight_through reachable_shortcutHand hb feeds_shortcutHand hagenda
  refine ⟨reachable_shortcutHand, feeds_shortcutHand, ⟨s, hreach, hs, ?_⟩, hstatus, hindirect, hsame hnodes ?_ _⟩
  · rw [hdeliver, hwired _ wiredFor_shortcutHand, htargets, hstraight]
    rfl
  · rw [hid]
    exact fun n he => absurd (twenty_le_length_privateId n) (by rw [← he]; decide)

end Session
end Flowgraph
