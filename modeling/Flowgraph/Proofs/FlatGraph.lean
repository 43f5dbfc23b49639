import Mathlib.Data.Set.Finite.List
import Mathlib.Logic.Relation
import Mathlib.Order.RelClasses
import Flowgraph.Level.Expansion
import Flowgraph.Level.Signal
import Flowgraph.Proofs.Acyclicity
/-! The flat graph of a flow: every usage node is replaced by a private copy of its template, and those inside it in
the same way. What is sent to a usage node goes where the first input port of its template leads, and what comes to an
output port of the template goes where the usage node is wired. -/
namespace Flowgraph

/-- A place of a node in the flat graph: the usage nodes whose copies lie around it, the innermost first, and its id
among the nodes of the innermost copy. -/
structure Place where
  path : List NodeId
  node : NodeId
  deriving DecidableEq, Repr

/-- The enabled node of this id. -/
def enabled? (nodes : List Record) (id : NodeId) : Option Record := nodes.find? fun r => !r.disabled && r.id == id

/-- The nodes to which an output is wired. -/
def Record.behind (r : Record) (port : Nat) : List NodeId := r.outputs[port]?.getD []

/-- What lies outside a template behind those of its output wires that are asked for, wire by wire. -/
def Template.joined {α : Type} (t : Template) (asked : PortWire → Bool) (outer : Nat → List α) : List α :=
  t.outputs.zipIdx.flatMap fun (port, i) => port.wires.flatMap fun w => if asked w then outer i else []

/-- The wires of the first input port. -/
def Template.entries (t : Template) : List PortWire := (t.inputs.head?.map (·.wires)).getD []

namespace FlowConfig
variable (c : FlowConfig)

/-- The template that a usage node stands for. -/
def templateOf? (r : Record) : Option Template := r.templateId?.bind c.templates.get?

/-- The nodes of the flow, or of the copy to which a path leads. -/
def nodesAt : (path : List NodeId) → List Record
  | [] => c.nodes
  | u :: around => (((enabled? (nodesAt around) u).bind c.templateOf?).map (·.nodes)).getD []

/-- The template that is copied for a usage node. -/
def templateAt? (u : NodeId) (around : List NodeId) : Option Template :=
  (enabled? (c.nodesAt around) u).bind c.templateOf?

def nodeAt? (p : Place) : Option Record := enabled? (c.nodesAt p.path) p.node

/-- Where an output of a node leads: its wires go to the nodes around it, and those that the template joins to its
output ports go where the usage node is wired. -/
def leads : (path : List NodeId) → (id : NodeId) → (port : Nat) → List Place
  | [], id, port => (((c.nodeAt? ⟨[], id⟩).map (·.behind port)).getD []).map (⟨[], ·⟩)
  | u :: around, id, port =>
    (((c.nodeAt? ⟨u :: around, id⟩).map (·.behind port)).getD []).map (⟨u :: around, ·⟩) ++
      ((c.templateAt? u around).map fun t =>
        t.joined (fun w => w.node == id && w.port == port) (leads around u)).getD []

/-- Where a copy leads what is sent to it: to the nodes behind the first input port, and straight on where the template
joins its input to its output ports. -/
def entry (u : NodeId) (around : List NodeId) : List Place :=
  ((c.templateAt? u around).map fun t =>
    t.entries.map (⟨u :: around, ·.node⟩) ++ t.joined (·.node == t.id) (c.leads around u)).getD []

/-- A place of an ordinary node, one that is no usage node. -/
def isOrdinary (p : Place) : Bool := (c.nodeAt? p).any fun r => (c.templateOf? r).isNone

/-- Where a message goes from a place if ordinary nodes send it on from their first output. Nobody is at the place of a
disabled node, or of one that does not exist. -/
def next (p : Place) : List Place :=
  match c.nodeAt? p with
  | none => []
  | some r => if (c.templateOf? r).isSome then c.entry p.node p.path else c.leads p.path p.node 0

/-- The flat graph has no cycles. -/
def Acyclic : Prop := ∀ p, ¬Relation.TransGen (fun p q => q ∈ c.next p) p p

/-- A wire of a node, or one behind the first input port of a copy, leads to this place, whether anybody is there or
not. -/
inductive Wired : Place → Prop
  | wire {path : List NodeId} {id x : NodeId} {r : Record} {port : Nat} (hr : c.nodeAt? ⟨path, id⟩ = some r)
      (hx : x ∈ r.behind port) : Wired ⟨path, x⟩
  | entry {u : NodeId} {path : List NodeId} {t : Template} {w : PortWire} (ht : c.templateAt? u path = some t)
      (hw : w ∈ t.entries) : Wired ⟨u :: path, w.node⟩

/-- A flow whose usage nodes name templates that exist. None of its nodes takes signals, or is of the kinds that only the
engine makes, and its wires lead to nodes of their own container, or to none at all. -/
structure Plain : Prop where
  usages : ∀ p r id, c.nodeAt? p = some r → r.templateId? = some id → ∃ t, c.templates.get? id = some t
  receivers : ∀ p r, c.nodeAt? p = some r → isReceiverType r.type = false
  internals : ∀ p r, c.nodeAt? p = some r → isInternalType r.type = false
  wires : ∀ q, c.Wired q → q.node ∈ (c.nodesAt q.path).map (·.id) ∨ q.node ∉ c.nodes.map (·.id)

/-- The way of a message from a place, wire by wire and each to its end: the ordinary nodes that it comes to, in this
order. -/
def walk (h : WellFounded fun q p => q ∈ c.next p) (p : Place) : List Place :=
  (if c.isOrdinary p then [p] else []) ++ (c.next p).attach.flatMap fun q => walk h q.1
termination_by h.wrap p
decreasing_by exact q.2

variable {c} {p : Place} {path : List NodeId} {u id : NodeId} {r : Record} {t : Template} {ids : List String}

theorem walk_eq (h : WellFounded fun q p => q ∈ c.next p) (p : Place) :
    c.walk h p = (if c.isOrdinary p then [p] else []) ++ (c.next p).flatMap (c.walk h) := by
  rw [walk, List.flatMap_subtype (g := c.walk h) fun _ _ => rfl, List.unattach_attach]

theorem mem_joined {α : Type} {asked : PortWire → Bool} {outer : Nat → List α} {x : α} (h : x ∈ t.joined asked outer) :
    ∃ i, x ∈ outer i := by
  obtain ⟨⟨port, i⟩, -, h⟩ := List.mem_flatMap.mp h
  obtain ⟨w, -, h⟩ := List.mem_flatMap.mp h
  split at h
  · exact ⟨i, h⟩
  · cases h

theorem wired_of_behind {port : Nat} {q : Place} (h : q ∈ (((c.nodeAt? ⟨path, id⟩).map (·.behind port)).getD []).map (⟨path, ·⟩)) :
    c.Wired q := by
  obtain ⟨x, hx, rfl⟩ := List.mem_map.mp h
  cases hr : c.nodeAt? ⟨path, id⟩ with
  | none =>
    rw [hr] at hx
    cases hx
  | some r =>
    rw [hr] at hx
    exact .wire hr hx

/-- All places to which messages go have wires. -/
theorem wired_of_mem_leads {port : Nat} {q : Place} (h : q ∈ c.leads path id port) : c.Wired q := by
  induction path generalizing id port with
  | nil => exact wired_of_behind h
  | cons u around ih =>
    rcases List.mem_append.mp h with h | h
    · exact wired_of_behind h
    · cases ht : c.templateAt? u around with
      | none =>
        rw [ht] at h
        cases h
      | some t =>
        rw [ht] at h
        obtain ⟨i, hi⟩ := mem_joined h
        exact ih hi

theorem wired_of_mem_entry {q : Place} (h : q ∈ c.entry u path) : c.Wired q := by
  unfold entry at h
  cases ht : c.templateAt? u path with
  | none =>
    rw [ht] at h
    cases h
  | some t =>
    rw [ht] at h
    rcases List.mem_append.mp h with h | h
    · obtain ⟨w, hw, rfl⟩ := List.mem_map.mp h
      exact .entry ht hw
    · obtain ⟨i, hi⟩ := mem_joined h
      exact wired_of_mem_leads hi

theorem wired_of_mem_next {q : Place} (h : q ∈ c.next p) : c.Wired q := by
  unfold next at h
  cases hr : c.nodeAt? p with
  | none =>
    rw [hr] at h
    cases h
  | some r =>
    rw [hr] at h
    dsimp only at h
    split at h
    · exact wired_of_mem_entry h
    · exact wired_of_mem_leads h

/-- Only ordinary nodes are on the way. -/
theorem isOrdinary_of_mem_walk (h : WellFounded fun q p => q ∈ c.next p) {q : Place} (hq : q ∈ c.walk h p) :
    c.isOrdinary q = true := by
  induction p using h.induction with
  | _ p ih =>
    rw [walk_eq, List.mem_append, List.mem_flatMap] at hq
    rcases hq with hq | ⟨p', hp', hq⟩
    · split at hq
      · rename_i ho
        rwa [List.mem_singleton.mp hq]
      · cases hq
    · exact ih p' hp' hq

/-! ## Nodes of the flat graph -/

theorem enabled?_eq_some {nodes : List Record} (h : enabled? nodes id = some r) :
    r ∈ nodes ∧ r.disabled = false ∧ r.id = id := by
  have hr := List.find?_some h
  simp only [Bool.and_eq_true, Bool.not_eq_eq_eq_not, Bool.not_true, beq_iff_eq] at hr
  exact ⟨List.mem_of_find?_eq_some h, hr⟩

/-- An id that occurs once is found. -/
theorem enabled?_of_mem {nodes : List Record} (hn : (nodes.map (·.id)).Nodup) (hr : r ∈ nodes)
    (hd : r.disabled = false) : enabled? nodes r.id = some r := by
  cases hf : enabled? nodes r.id with
  | none =>
    have := List.find?_eq_none.mp hf r hr
    simp [hd] at this
  | some r' =>
    obtain ⟨hr', -, hid⟩ := enabled?_eq_some hf
    rw [List.inj_on_of_nodup_map hn hr' hr hid]

theorem nodesAt_cons (u : NodeId) (path : List NodeId) :
    c.nodesAt (u :: path) = ((c.templateAt? u path).map (·.nodes)).getD [] := rfl

theorem nodesAt_of_templateAt? (h : c.templateAt? u path = some t) : c.nodesAt (u :: path) = t.nodes := by
  rw [nodesAt_cons, h]
  rfl

/-- A template is copied for an enabled usage node. -/
theorem templateAt?_eq_some : c.templateAt? u path = some t ↔
    ∃ r id, c.nodeAt? ⟨path, u⟩ = some r ∧ r.templateId? = some id ∧ c.templates.get? id = some t := by
  unfold templateAt? templateOf?
  simp only [Option.bind_eq_some_iff]
  exact ⟨fun ⟨r, hr, id, hid, ht⟩ => ⟨r, id, hr, hid, ht⟩, fun ⟨r, id, hr, hid, ht⟩ => ⟨r, hr, id, hid, ht⟩⟩

theorem exists_templateAt? (h : r ∈ c.nodesAt (u :: path)) : ∃ t, c.templateAt? u path = some t ∧ r ∈ t.nodes := by
  rw [nodesAt_cons] at h
  cases ht : c.templateAt? u path with
  | none =>
    rw [ht] at h
    cases h
  | some t =>
    rw [ht] at h
    exact ⟨t, rfl, h⟩

/-! ## The flat graph is finite -/

/-- The ids of the nodes of a flow and of its templates. -/
def allIds (c : FlowConfig) : List NodeId :=
  c.nodes.map (·.id) ++ c.templates.values.flatMap fun t => t.nodes.map (·.id)

theorem id_mem_allIds (h : r ∈ c.nodesAt path) : r.id ∈ c.allIds := by
  cases path with
  | nil => exact List.mem_append_left _ (List.mem_map_of_mem h)
  | cons u path =>
    obtain ⟨t, ht, hr⟩ := exists_templateAt? h
    obtain ⟨_, id, -, -, ht⟩ := templateAt?_eq_some.mp ht
    exact List.mem_append_right _ (List.mem_flatMap.mpr ⟨t, Dict.mem_values ht, List.mem_map_of_mem hr⟩)

theorem path_mem_allIds (h : r ∈ c.nodesAt path) : ∀ u ∈ path, u ∈ c.allIds := by
  induction path generalizing r with
  | nil => simp
  | cons u path ih =>
    obtain ⟨t, ht, -⟩ := exists_templateAt? h
    obtain ⟨_, -, hu, -⟩ := templateAt?_eq_some.mp ht
    obtain ⟨hmem, -, rfl⟩ := enabled?_eq_some hu
    exact List.forall_mem_cons.mpr ⟨id_mem_allIds hmem, ih hmem⟩

/-- Paths that go on through every usage node are all there are. -/
theorem mem_paths {paths : List (List NodeId)} (hstart : [] ∈ paths)
    (hclosed : ∀ path ∈ paths, ∀ r ∈ c.nodesAt path, r.disabled = false → (c.templateOf? r).isSome = true →
      r.id :: path ∈ paths) (h : r ∈ c.nodesAt path) : path ∈ paths := by
  induction path generalizing r with
  | nil => exact hstart
  | cons u path ih =>
    obtain ⟨t, ht, -⟩ := exists_templateAt? h
    obtain ⟨usage, id, husage, hid, hget⟩ := templateAt?_eq_some.mp ht
    obtain ⟨hmem, hd, rfl⟩ := enabled?_eq_some husage
    exact hclosed path (ih hmem) usage hmem hd (by rw [templateOf?, hid, Option.bind_some, hget]; rfl)

/-- Each usage node on a path takes one of the templates. -/
theorem layered_nodesAt (hl : StartOrder.Layered c.templates ids) (hu : StartOrder.UsesOnly c.templates c.nodes ids)
    (h : r ∈ c.nodesAt path) : ∃ deeper, StartOrder.Layered c.templates deeper ∧
      deeper.length + path.length ≤ ids.length ∧ StartOrder.UsesOnly c.templates (c.nodesAt path) deeper := by
  induction path generalizing r with
  | nil => exact ⟨ids, hl, Nat.le_refl _, hu⟩
  | cons u path ih =>
    obtain ⟨t, ht, -⟩ := exists_templateAt? h
    obtain ⟨usage, id, husage, hid, hget⟩ := templateAt?_eq_some.mp ht
    obtain ⟨hmem, hd, -⟩ := enabled?_eq_some husage
    obtain ⟨around, hlayered, hle, huses⟩ := ih hmem
    obtain ⟨-, deeper, hdeeper, hlt, hinner⟩ := hlayered.beneath (huses usage hmem hd id t hid hget) hget
    refine ⟨deeper, hdeeper, ?_, ?_⟩
    · rw [List.length_cons]
      omega
    · rw [nodesAt_of_templateAt? ht]
      exact hinner

theorem finite_places (hl : StartOrder.Layered c.templates ids) (hu : StartOrder.UsesOnly c.templates c.nodes ids) :
    {p | (c.nodeAt? p).isSome = true}.Finite := by
  have hpaths : ((fun path : List {u // u ∈ c.allIds} => path.map Subtype.val) ''
      {path | path.length ≤ ids.length}).Finite := (List.finite_length_le _ _).image _
  refine ((hpaths.prod (List.finite_toSet c.allIds)).image fun (path, node) => Place.mk path node).subset fun p hp => ?_
  obtain ⟨r, hr⟩ := Option.isSome_iff_exists.mp hp
  obtain ⟨hmem, -, hid⟩ := enabled?_eq_some hr
  obtain ⟨_, -, hle, -⟩ := layered_nodesAt hl hu hmem
  refine ⟨(p.path, p.node), ⟨⟨p.path.attach.map fun u => ⟨u.1, path_mem_allIds hmem u.1 u.2⟩, ?_, ?_⟩, ?_⟩, rfl⟩
  · rw [Set.mem_ofPred_eq, List.length_map, List.length_attach]
    omega
  · simp
  · exact hid ▸ id_mem_allIds hmem

theorem next_of_none (h : c.nodeAt? p = none) : c.next p = [] := by
  rw [next, h]

/-- There are no cycles where each wire leads further down. -/
theorem acyclic_of_rank (rank : Place → Nat) (h : ∀ p, ∀ q ∈ c.next p, rank q < rank p) : c.Acyclic := by
  have hdown {p q : Place} (hq : Relation.TransGen (fun p q => q ∈ c.next p) p q) : rank q < rank p := by
    induction hq with
    | single hq => exact h _ _ hq
    | tail _ hq ih => exact Nat.lt_trans (h _ _ hq) ih
  exact fun p hp => Nat.lt_irrefl _ (hdown hp)

/-- Every way comes to an end in the flat graph of a sound flow if it has no cycles. -/
theorem Acyclic.wellFounded (h : c.Acyclic) {order : List Nat} (hv : StartOrder.validate c = .ok order) :
    WellFounded fun q p => q ∈ c.next p := by
  obtain ⟨-, ids, hl, hu⟩ := StartOrder.layered_validate hv
  have := (finite_places hl hu).to_subtype
  let Beyond (q p : {p | (c.nodeAt? p).isSome = true}) : Prop := Relation.TransGen (fun p q => q ∈ c.next p) p.1 q.1
  have : IsTrans _ Beyond := ⟨fun _ _ _ h h' => h'.trans h⟩
  have : Std.Irrefl Beyond := ⟨fun p => h p.1⟩
  have hwf : WellFounded Beyond := Finite.wellFounded_of_trans_of_irrefl Beyond
  have hnone (p : Place) (hp : (c.nodeAt? p).isSome ≠ true) : Acc (fun q p => q ∈ c.next p) p := by
    refine ⟨p, fun q hq => ?_⟩
    rw [next_of_none (Option.not_isSome_iff_eq_none.mp hp)] at hq
    cases hq
  have hsome (p : {p | (c.nodeAt? p).isSome = true}) : Acc (fun q p => q ∈ c.next p) p.1 := by
    induction p using hwf.induction with
    | _ p ih =>
      refine ⟨p.1, fun q hq => ?_⟩
      by_cases hs : (c.nodeAt? q).isSome = true
      · exact ih ⟨q, hs⟩ (.single hq)
      · exact hnone q hs
  refine ⟨fun p => ?_⟩
  by_cases hs : (c.nodeAt? p).isSome = true
  · exact hsome ⟨p, hs⟩
  · exact hnone p hs

end FlowConfig
end Flowgraph
