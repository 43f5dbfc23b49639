import Flowgraph.Proofs.FlatGraph
import Flowgraph.Proofs.Population
import Flowgraph.Proofs.Serving
import Flowgraph.Proofs.Signals
/-! Who lives in the flat graph. A path of usage nodes leads to a copy, whose level has a node for every enabled node of
the template, and each is wired to the nodes of the copy, and through the stand-ins around it to what lies outside. -/
namespace Flowgraph

/-! ## Configurations that have been read -/

namespace FlowConfig

variable {c : FlowConfig} {path : List NodeId}

theorem Parsed.nodup (h : c.Parsed) : (c.nodes.map (·.id)).Nodup := by
  obtain ⟨records, d, hd, hc⟩ := h
  obtain ⟨rs, ha⟩ := Deployment.parse_arranged hd
  rcases hc with rfl | hc
  · rw [ha.global]
    exact ha.nodup.sublist (List.filter_sublist.map _)
  · rw [(ha.tabs c hc).1]
    exact ha.nodup.sublist (List.filter_sublist.map _)

theorem Parsed.apart (h : c.Parsed) {id : String} {t : Template} (ht : c.templates.get? id = some t) {r : Record}
    (hr : r ∈ t.nodes) : r.id ≠ t.id := by
  obtain ⟨records, d, hd, hc⟩ := h
  obtain ⟨rs, ha⟩ := Deployment.parse_arranged hd
  have hsame : c.templates = d.templates := by
    rcases hc with rfl | hc
    · rw [ha.global]
    · exact (ha.tabs c hc).2
  exact Deployment.parse_apart hd (hsame ▸ ht) hr

/-- The nodes of a flow have different ids, and so have those of every copy. -/
theorem Parsed.nodup_nodesAt (h : c.Parsed) (path : List NodeId) : ((c.nodesAt path).map (·.id)).Nodup := by
  cases path with
  | nil => exact h.nodup
  | cons u path =>
    cases ht : c.templateAt? u path with
    | none =>
      rw [nodesAt_cons, ht]
      exact List.nodup_nil
    | some t =>
      rw [nodesAt_of_templateAt? ht]
      obtain ⟨_, id, -, -, ht⟩ := templateAt?_eq_some.mp ht
      exact h.tidy id t ht

/-- No text that names a node is a private id. -/
structure Discreet (c : FlowConfig) : Prop where
  ids : ∀ r ∈ c.nodes, ∀ n, r.id ≠ privateId n
  wires : ∀ q, c.Wired q → ∀ n, q.node ≠ privateId n
  templates : ∀ id t, c.templates.get? id = some t → t.Avoids 0
  references : ∀ id t, c.templates.get? id = some t → t.Fresh 0

end FlowConfig

theorem Template.Avoids.mono {t : Template} {next next' : Nat} (h : t.Avoids next) (hn : next ≤ next') : t.Avoids next' :=
  ⟨fun r hr port id hid n hle => h.wires r hr port id hid n (Nat.le_trans hn hle),
    fun w hw n hle => h.inputs w hw n (Nat.le_trans hn hle),
    fun port hp w hw n hle => h.outputs port hp w hw n (Nat.le_trans hn hle)⟩

namespace Engine

variable {e : Engine} {c : FlowConfig} {i j k : LevelKey} {n : NodeKey} {node : Node} {path : List NodeId} {u id : NodeId}
  {r r' : Record} {l : Level} {b : Binding} {t : Template} {nodes : List Record} {outer : Wires}

/-! ## Copies and their nodes -/

/-- The id that a name of a node has on a level. -/
def nameAt (e : Engine) (j : LevelKey) (id : NodeId) : NodeId :=
  match e.binding? j with
  | none => id
  | some b => b.rename id

/-- A path leads to a level: each usage node on it is active, and stands for the next copy. -/
inductive CopyAt (e : Engine) (c : FlowConfig) (k : LevelKey) : List NodeId → LevelKey → Prop
  | flow : CopyAt e c k [] k
  | copy {path : List NodeId} {j i : LevelKey} {u : NodeId} {r : Record} {n : NodeKey} {node : Node}
      (h : CopyAt e c k path j) (hr : c.nodeAt? ⟨path, u⟩ = some r) (hn : e.activeKey? j (e.nameAt j u) = some n)
      (hnode : e.node? n = some node) (hpart : node.part = .standIn i) : CopyAt e c k (u :: path) i

/-- The live node of a place. -/
def LivesAt (e : Engine) (c : FlowConfig) (k : LevelKey) (p : Place) (n : NodeKey) : Prop :=
  ∃ j r, e.CopyAt c k p.path j ∧ c.nodeAt? p = some r ∧ e.activeKey? j (e.nameAt j p.node) = some n

/-- A flow as it stands when it has started: everybody is there, and is what a record makes it. -/
structure Erected (e : Engine) (c : FlowConfig) (k : LevelKey) : Prop where
  config : ∃ l, e.level? k = some l ∧ l.config = c ∧ l.kind.isOutermost = true
  enacted : ∀ path j id n, e.CopyAt c k path j → e.activeKey? j id = some n →
    ∃ node, e.node? n = some node ∧ e.Enacts e.registry c.templates j node
  manned : ∀ path j l, e.CopyAt c k path j → e.level? j = some l → ∀ r ∈ l.config.nodes, r.disabled = false →
    (∀ id, r.templateId? = some id → ∃ t, c.templates.get? id = some t) → (e.activeKey? j r.id).isSome = true

theorem builtIn?_standIn {type : String} : builtIn? type ≠ some (.standIn i) := by
  unfold builtIn?
  repeat' split
  all_goals simp

/-- A flow is still as it was when it had been activated. -/
structure Endures (since k : LevelKey) (e s : Engine) : Prop where
  registry : s.registry = e.registry
  levels : ∀ j l, Recent since k j → e.level? j = some l → s.level? j = some l
  nodes : ∀ n node, e.node? n = some node → Recent since k node.level → ∃ node', s.node? n = some node' ∧
    node'.still = node.still

/-- Work with messages leaves it so. -/
theorem Endures.still {since : LevelKey} {s s' : Engine} (h : Endures since k e s) (hs : s'.still = s.still) :
    Endures since k e s' := by
  refine ⟨(congrArg Engine.registry hs :).trans h.registry, fun j l hj hl => ?_, fun n node hn hj => ?_⟩
  · exact (level?_of_still hs j).trans (h.levels j l hj hl)
  · obtain ⟨node', hnode', he⟩ := h.nodes n node hn hj
    obtain ⟨node'', hnode'', he'⟩ := exists_node?_of_still hs hnode'
    exact ⟨node'', hnode'', he'.trans he⟩

/-- All ordinary nodes of a flow and its copies could be made. -/
def Constructs (since k : LevelKey) (e : Engine) : Prop :=
  ∀ j l, Recent since k j → e.level? j = some l → ∀ r ∈ l.config.nodes, r.disabled = false → r.Ordinary →
    l.failures.get? r.id = none

/-- A flow that has been activated, all whose ordinary nodes could be made. -/
theorem Populated.erected {since : LevelKey} {s : Engine} (h : Populated since k e.registry c.templates e [])
    (hl : e.level? k = some l) (hc : l.config = c) (hk : l.kind.isOutermost = true)
    (hmade : Constructs since k e) (hs : Endures since k e s) :
    s.Erected c k := by
  have hactive {j : LevelKey} {l : Level} (hj : Recent since k j) (hl : e.level? j = some l) (id : NodeId) :
      s.activeKey? j id = e.activeKey? j id := by
    rw [activeKey?, hs.levels j l hj hl, activeKey?, hl]
  have hcopied {i j : LevelKey} {b : Binding} (hi : since ≤ i) (hj : Recent since k j) (h : e.Copied c.templates i j b) :
      s.Copied c.templates i j b := by
    obtain ⟨l, hl, hcopy⟩ := h.level
    obtain ⟨l', r, hl', hr⟩ := h.lists
    exact ⟨⟨l, hs.levels i l (.inr hi) hl, hcopy⟩, ⟨l', r, hs.levels j l' hj hl', hr⟩, h.template⟩
  have hplace {path : List NodeId} {j : LevelKey} (hj : s.CopyAt c k path j) : Recent since k j ∧ ∃ l, e.level? j = some l := by
    induction hj with
    | flow => exact ⟨.inl rfl, l, hl⟩
    | @copy path j i u r n node _ hr hn hnode hpart ih =>
      obtain ⟨hj, l, hl⟩ := ih
      rw [hactive hj hl] at hn
      obtain ⟨node₀, hnode₀, he, hsince⟩ := h.seated j _ n hj hn
      obtain ⟨node', hnode', hstill⟩ := hs.nodes n node₀ hnode₀ (he.level ▸ hj)
      obtain rfl := Option.some.inj (hnode.symm.trans hnode')
      have hpart₀ : node₀.part = .standIn i := (congrArg Node.part hstill :).symm.trans hpart
      have hbacks := he.backs
      rw [hpart₀] at hbacks
      refine ⟨.inr (hsince i hpart₀), ?_⟩
      cases hbacks with
      | builtIn _ hb => exact absurd hb builtIn?_standIn
      | standIn hi _ =>
        obtain ⟨l, hl, -⟩ := hi.level
        exact ⟨l, hl⟩
  refine ⟨⟨l, hs.levels k l (.inl rfl) hl, hc, hk⟩, fun path j id n hj hn => ?_, fun path j l' hj hl' r hr hd ht => ?_⟩
  · obtain ⟨hj, l', hl'⟩ := hplace hj
    rw [hactive hj hl'] at hn
    obtain ⟨node, hnode, he, hsince⟩ := h.seated j id n hj hn
    obtain ⟨node', hnode', hstill⟩ := hs.nodes n node hnode (he.level ▸ hj)
    obtain ⟨l'', r, hl'', hr⟩ := he.lists
    refine ⟨node', hnode', Enacts.still ⟨he.level, ⟨l'', r, hs.levels j l'' hj hl'', hr⟩, he.wired, ?_⟩ hstill⟩
    rw [hs.registry]
    generalize hpart : node.part = part at hsince
    have hbacks := he.backs
    rw [hpart] at hbacks
    cases hbacks with
    | ordinary hu hb hc => exact .ordinary hu hb hc
    | builtIn hu hb => exact .builtIn hu hb
    | @standIn i _ hi hb => exact .standIn (hcopied (hsince i rfl) hj hi) hb
  · obtain ⟨hj, l, hl⟩ := hplace hj
    obtain rfl := Option.some.inj ((hs.levels j l hj hl).symm.trans hl')
    rw [hactive hj hl]
    rcases h.covered j l hj hl r hr hd with hcov | hcov
    · rcases hcov with ha | ⟨ts, ha⟩ | ⟨usage, inst, ha, -⟩
      · exact ha
      · cases ha
      · cases ha
    · obtain ⟨hfailed, hordinary | ⟨id, hid, hnone⟩⟩ := hcov
      · rw [hmade j l hj hl r hr hd hordinary] at hfailed
        cases hfailed
      · obtain ⟨t, ht⟩ := ht id hid
        rw [hnone] at ht
        cases ht

/-- A level has a node of this record for each node of a copy, under its name there, and no others but the engine's. -/
structure Corresponds (e : Engine) (c : FlowConfig) (path : List NodeId) (j : LevelKey) (nodes : List Record) : Prop where
  nodup : (nodes.map (·.id)).Nodup
  /-- There are only the nodes of the copy. -/
  back : ∀ r' ∈ nodes, isInternalType r'.type = true ∨
    ∃ r ∈ c.nodesAt path, r'.id = e.nameAt j r.id ∧ r'.type = r.type ∧ r'.disabled = r.disabled
  forth : ∀ r ∈ c.nodesAt path, ∃ r' ∈ nodes, r'.id = e.nameAt j r.id ∧ r'.type = r.type ∧ r'.disabled = r.disabled

theorem nameAt_of_binding? (hb : e.binding? j = some b) (id : NodeId) : e.nameAt j id = b.rename id := by
  rw [nameAt, hb]

theorem nameAt_of_none (hb : e.binding? j = none) (id : NodeId) : e.nameAt j id = id := by
  rw [nameAt, hb]

theorem binding?_of_kind (hl : e.level? i = some l) (hk : l.kind = .expansion b) : e.binding? i = some b := by
  rw [binding?, hl]
  dsimp only
  rw [hk]

theorem binding?_of_outermost (hl : e.level? k = some l) (hk : l.kind.isOutermost = true) : e.binding? k = none := by
  rw [binding?, hl]
  dsimp only
  cases hkind : l.kind with
  | tab => rfl
  | global => rfl
  | expansion b =>
    rw [hkind] at hk
    cases hk

/-- A copy of a template. -/
structure Inner (e : Engine) (c : FlowConfig) (k : LevelKey) (u : NodeId) (path : List NodeId) (i j : LevelKey)
    (b : Binding) (node : Node) (nodes : List Record) : Prop where
  around : e.CopyAt c k path j
  template : c.templateAt? u path = some b.template
  usage : b.usage = node.record
  made : ∃ next, (b.template.nodes.map (·.id)).Nodup ∧ b = .make b.template b.usage next
  serves : ∃ n, e.Serves j n node
  id : node.id = e.nameAt j u
  part : node.part = .standIn i
  wired : node.dispatch = .ofWires node.record.outputs
  level : ∃ l, e.level? i = some l ∧ l.kind = .expansion b ∧ l.parent = some j ∧ l.config.nodes = nodes
  expand : b.expand? node.record.outputs = some nodes

theorem Inner.binding? {u : NodeId} (h : e.Inner c k u path i j b node nodes) : e.binding? i = some b := by
  obtain ⟨l, hl, hk, -⟩ := h.level
  exact binding?_of_kind hl hk

/-- An expansion has the nodes of its template under their private names. -/
theorem Inner.corresponds (h : e.Inner c k u path i j b node nodes) : e.Corresponds c (u :: path) i nodes := by
  obtain ⟨next, htidy, hmade⟩ := h.made
  have hnodes := FlowConfig.nodesAt_of_templateAt? h.template
  have hname := nameAt_of_binding? h.binding?
  have hx := h.expand
  generalize b.template = t at *
  generalize b.usage = usage at *
  subst hmade
  refine ⟨?_, fun r' hr' => ?_, fun r hr => ?_⟩
  · rw [Binding.expand?_ids (Binding.fitting_make t usage next) hx]
    exact Binding.members_nodup htidy
  · obtain ⟨pos, hpos⟩ := List.mem_iff_getElem?.mp hr'
    cases Binding.stands_expand? hx hpos with
    | @copied r hr bare _ =>
      refine .inr ⟨r, hnodes ▸ List.mem_of_getElem? hr, ?_, ?_, Binding.disabled_of_bare bare⟩
      · rw [hname]
        exact Binding.id_of_bare bare
      · exact (Binding.eq_of_bare Record.type (fun _ => rfl) bare :)
    | internal _ _ _ type => exact .inl type
  · obtain ⟨pos, hpos⟩ := List.mem_iff_getElem?.mp (hnodes ▸ hr)
    obtain ⟨r', hr', bare⟩ := Binding.exists_copy hx hpos
    refine ⟨r', List.mem_of_getElem? hr', ?_, ?_, Binding.disabled_of_bare bare⟩
    · rw [hname]
      exact Binding.id_of_bare bare
    · exact (Binding.eq_of_bare Record.type (fun _ => rfl) bare :)

/-- An active usage node stands for a copy of its template. -/
theorem Erected.inner (hm : e.Erected c k) (hreach : Reachable e) (h : e.CopyAt c k path j) (hl : e.level? j = some l)
    (hcorr : e.Corresponds c path j l.config.nodes) (hr : c.nodeAt? ⟨path, u⟩ = some r)
    (hn : e.activeKey? j (e.nameAt j u) = some n) (hnode : e.node? n = some node) (hpart : node.part = .standIn i) :
    ∃ b nodes, e.Inner c k u path i j b node nodes := by
  obtain ⟨node', hnode', he⟩ := hm.enacted path j _ n h hn
  obtain rfl := Option.some.inj (hnode.symm.trans hnode')
  obtain ⟨node', hserves, hid⟩ := hreach.serves hn
  obtain rfl := Option.some.inj (hnode.symm.trans hserves.isNode)
  -- the record of the usage node is that of the flat graph
  obtain ⟨l', r', hl', hmem', -, hbecomes⟩ := he.lists
  obtain rfl := Option.some.inj (hl.symm.trans hl')
  obtain ⟨hmem, -, rfl⟩ := FlowConfig.enabled?_eq_some hr
  obtain ⟨r'', hmem'', hid'', htype, -⟩ := hcorr.forth r hmem
  obtain rfl : r' = r'' := List.inj_on_of_nodup_map hcorr.nodup hmem' hmem''
    (hbecomes.id.symm.trans ((hid : node.record.id = _).trans hid''.symm))
  have hbacks := he.backs
  rw [hpart] at hbacks
  cases hbacks with
  | builtIn _ hb => exact absurd hb builtIn?_standIn
  | @standIn _ b hi hb =>
    obtain ⟨li, hli, hk, hp, hx⟩ := hi.level
    obtain ⟨id, hu, hget⟩ := hi.template
    have hbinding := binding?_of_kind hli hk
    have hu' : r.templateId? = some id := by
      rw [Record.templateId?, ← htype, ← hbecomes.type, ← hb]
      exact hu
    obtain ⟨t, usage, next, htidy, hmade⟩ := hreach.layout.laid.made hbinding
    refine ⟨b, li.config.nodes, h, FlowConfig.templateAt?_eq_some.mpr ⟨r, id, hr, hu', hget⟩, hb, ⟨next, ?_, ?_⟩, ⟨n, hserves⟩, hid,
      hpart, he.wired, ⟨li, hli, hk, hp, rfl⟩, hb ▸ hx⟩
    · rw [hmade]
      exact htidy
    · rw [hmade]
      rfl

/-- The nodes of a level to which a path leads are those of the copy. -/
theorem CopyAt.corresponds (hm : e.Erected c k) (hreach : Reachable e) (hc : c.Parsed) (h : e.CopyAt c k path j) :
    ∃ l, e.level? j = some l ∧ e.Corresponds c path j l.config.nodes := by
  induction h with
  | flow =>
    obtain ⟨l, hl, rfl, hk⟩ := hm.config
    have hname := nameAt_of_none (binding?_of_outermost hl hk)
    exact ⟨l, hl, hc.nodup, fun r hr => .inr ⟨r, hr, (hname _).symm, rfl, rfl⟩, fun r hr => ⟨r, hr, (hname _).symm, rfl, rfl⟩⟩
  | copy h hr hn hnode hpart ih =>
    obtain ⟨l, hl, hcorr⟩ := ih
    obtain ⟨b, nodes, hi⟩ := hm.inner hreach h hl hcorr hr hn hnode hpart
    obtain ⟨li, hli, -, -, rfl⟩ := hi.level
    exact ⟨li, hli, hi.corresponds⟩

theorem CopyAt.inner (hm : e.Erected c k) (hreach : Reachable e) (hc : c.Parsed) (h : e.CopyAt c k (u :: path) i) :
    ∃ j b node nodes, e.Inner c k u path i j b node nodes := by
  cases h with
  | copy h hr hn hnode hpart =>
    obtain ⟨l, hl, hcorr⟩ := h.corresponds hm hreach hc
    obtain ⟨b, nodes, hi⟩ := hm.inner hreach h hl hcorr hr hn hnode hpart
    exact ⟨_, b, _, nodes, hi⟩

/-! ## The node of a place -/

/-- What stands behind the node of a place: a usage node stands for a copy, and all others are ordinary. -/
def Plays (c : FlowConfig) (r : Record) (part : Part) : Prop :=
  ((c.templateOf? r).isSome = true → ∃ i, part = .standIn i) ∧ ((c.templateOf? r).isSome = false → ∃ b, part = .ordinary b)

/-- The node of a place has been made of its record. -/
structure Dwells (e : Engine) (c : FlowConfig) (path : List NodeId) (j : LevelKey) (r : Record) (n : NodeKey)
    (node : Node) : Prop where
  serves : e.Serves j n node
  id : node.id = e.nameAt j r.id
  plays : Plays c r node.part
  wired : node.dispatch = .ofWires node.record.outputs
  listed : ∃ l, e.level? j = some l ∧ ∃ r' ∈ l.config.nodes, r'.Becomes node.record

theorem not_builtIn? {type : String} (h : isReceiverType type = false) (h' : isInternalType type = false) :
    builtIn? type = none := by
  unfold isInternalType at h'
  unfold builtIn?
  simp only [Bool.or_eq_false_iff, beq_eq_false_iff_ne] at h'
  simp [h, h'.1.1, h'.1.2, h'.2]

theorem Backs.plays {kinds : Registry} {made : Record} {part : Part} (h : e.Backs kinds c.templates j made part) (hb : builtIn? made.type = none) :
    Plays c made part := by
  unfold Plays FlowConfig.templateOf?
  cases h with
  | @ordinary b _ hu _ =>
    rw [hu]
    exact ⟨nofun, fun _ => ⟨b, rfl⟩⟩
  | builtIn _ hb' =>
    rw [hb] at hb'
    cases hb'
  | @standIn i b hi husage =>
    obtain ⟨id, hu, hget⟩ := hi.template
    rw [← husage, hu, Option.bind_some, hget]
    exact ⟨fun _ => ⟨i, rfl⟩, nofun⟩

theorem CopyAt.dwells_of_active (hm : e.Erected c k) (hreach : Reachable e) (hc : c.Parsed) (hplain : c.Plain)
    (h : e.CopyAt c k path j) (hr : c.nodeAt? ⟨path, id⟩ = some r) (hn : e.activeKey? j (e.nameAt j id) = some n) :
    ∃ node, e.Dwells c path j r n node := by
  obtain ⟨l, hl, hcorr⟩ := h.corresponds hm hreach hc
  obtain ⟨hmem, -, rfl⟩ := FlowConfig.enabled?_eq_some hr
  obtain ⟨node, hserves, hid⟩ := hreach.serves hn
  obtain ⟨node', hnode', he⟩ := hm.enacted path j _ n h hn
  obtain rfl := Option.some.inj (hserves.isNode.symm.trans hnode')
  obtain ⟨l', r', hl', hmem', -, hbecomes⟩ := he.lists
  obtain rfl := Option.some.inj (hl.symm.trans hl')
  obtain ⟨r'', hmem'', hid'', htype, -⟩ := hcorr.forth r hmem
  obtain rfl : r' = r'' := List.inj_on_of_nodup_map hcorr.nodup hmem' hmem''
    (hbecomes.id.symm.trans ((hid : node.record.id = _).trans hid''.symm))
  have htype' : node.record.type = r.type := hbecomes.type.trans htype
  have hbuiltIn : builtIn? node.record.type = none := by
    rw [htype']
    exact not_builtIn? (hplain.receivers _ r hr) (hplain.internals _ r hr)
  have hplays : Plays c r node.part := by
    have hsame : c.templateOf? r = c.templateOf? node.record := by
      rw [FlowConfig.templateOf?, FlowConfig.templateOf?, Record.templateId?, Record.templateId?, htype']
    rw [Plays, hsame]
    exact he.backs.plays hbuiltIn
  exact ⟨node, hserves, hid, hplays, he.wired, l, hl, r', hmem', hbecomes⟩

/-- Every place has a node. -/
theorem CopyAt.dwells (hm : e.Erected c k) (hreach : Reachable e) (hc : c.Parsed) (hplain : c.Plain)
    (h : e.CopyAt c k path j) (hr : c.nodeAt? ⟨path, id⟩ = some r) : ∃ n node, e.Dwells c path j r n node := by
  obtain ⟨l, hl, hcorr⟩ := h.corresponds hm hreach hc
  obtain ⟨hmem, hd, rfl⟩ := FlowConfig.enabled?_eq_some hr
  obtain ⟨r', hmem', hid, htype, hd'⟩ := hcorr.forth r hmem
  have htemplate (id : String) (hu : r'.templateId? = some id) : ∃ t, c.templates.get? id = some t := by
    refine hplain.usages _ r id hr ?_
    rwa [Record.templateId?, ← htype]
  obtain ⟨n, hn⟩ := Option.isSome_iff_exists.mp (hm.manned path j l h hl r' hmem' (hd'.trans hd) htemplate)
  obtain ⟨node, hdwells⟩ := h.dwells_of_active hm hreach hc hplain hr (hid ▸ hn)
  exact ⟨n, node, hdwells⟩

/-- Nobody has the name of a disabled node. -/
theorem CopyAt.inactive_of_mem (hm : e.Erected c k) (hreach : Reachable e) (hc : c.Parsed) (h : e.CopyAt c k path j)
    (hid : id ∈ (c.nodesAt path).map (·.id)) (hr : c.nodeAt? ⟨path, id⟩ = none) :
    e.activeKey? j (e.nameAt j id) = none := by
  obtain ⟨l, hl, hcorr⟩ := h.corresponds hm hreach hc
  obtain ⟨r, hmem, rfl⟩ := List.mem_map.mp hid
  obtain ⟨r', hmem', hid', -, hd'⟩ := hcorr.forth r hmem
  refine Option.eq_none_iff_forall_ne_some.mpr fun n hn => ?_
  obtain ⟨node, hnode, he⟩ := hm.enacted path j _ n h hn
  obtain ⟨node', hnode', -, hid''⟩ := hreach.layout.laid.activeKey?_node hn
  obtain rfl := Option.some.inj (hnode.symm.trans hnode')
  obtain ⟨l', r'', hl', hmem'', hd'', hbecomes⟩ := he.lists
  obtain rfl := Option.some.inj (hl.symm.trans hl')
  obtain rfl : r'' = r' := List.inj_on_of_nodup_map hcorr.nodup hmem'' hmem'
    (hbecomes.id.symm.trans ((hid'' : node.record.id = _).trans hid'.symm))
  have hsome : c.nodeAt? ⟨path, r.id⟩ = some r :=
    FlowConfig.enabled?_of_mem (hc.nodup_nodesAt path) hmem (hd'.symm.trans hd'')
  rw [hr] at hsome
  cases hsome

/-- An id that no node of the flow has is not active on the level of the flow. -/
theorem Erected.inactive (hm : e.Erected c k) (hreach : Reachable e) (hid : id ∉ c.nodes.map (·.id)) :
    e.activeKey? k id = none := by
  obtain ⟨l, hl, rfl, -⟩ := hm.config
  refine Option.eq_none_iff_forall_ne_some.mpr fun n hn => ?_
  obtain ⟨node, hnode, he⟩ := hm.enacted [] k _ n .flow hn
  obtain ⟨node', hnode', -, hid'⟩ := hreach.layout.laid.activeKey?_node hn
  obtain rfl := Option.some.inj (hnode.symm.trans hnode')
  obtain ⟨l', r, hl', hmem, -, hbecomes⟩ := he.lists
  obtain rfl := Option.some.inj (hl.symm.trans hl')
  refine hid (List.mem_map.mpr ⟨r, hmem, ?_⟩)
  exact hbecomes.id.symm.trans hid'

/-! ## Every place is one of its own -/

/-- Each enabled node of the flat graph lies in a copy. -/
theorem Erected.exists_copyAt (hm : e.Erected c k) (hreach : Reachable e) (hc : c.Parsed) (hplain : c.Plain)
    (hr : r ∈ c.nodesAt path) : ∃ j, e.CopyAt c k path j := by
  induction path generalizing r with
  | nil => exact ⟨k, .flow⟩
  | cons u path ih =>
    obtain ⟨t, ht, -⟩ := FlowConfig.exists_templateAt? hr
    obtain ⟨usage, id, hu, hid, hget⟩ := FlowConfig.templateAt?_eq_some.mp ht
    obtain ⟨hmem, -, rfl⟩ := FlowConfig.enabled?_eq_some hu
    obtain ⟨j, hj⟩ := ih hmem
    obtain ⟨n, node, hd⟩ := hj.dwells hm hreach hc hplain hu
    obtain ⟨i, hpart⟩ := hd.plays.1 (by rw [FlowConfig.templateOf?, hid, Option.bind_some, hget]; rfl)
    exact ⟨i, .copy hj hu (hd.id ▸ hd.serves.active) hd.serves.isNode hpart⟩

/-- The nodes of a copy have different names. -/
theorem CopyAt.nameAt_inj (hm : e.Erected c k) (hreach : Reachable e) (hc : c.Parsed) (h : e.CopyAt c k path j)
    {x y : NodeId} (hx : x ∈ (c.nodesAt path).map (·.id)) (hy : y ∈ (c.nodesAt path).map (·.id))
    (he : e.nameAt j x = e.nameAt j y) : x = y := by
  cases path with
  | nil =>
    cases h
    obtain ⟨l, hl, -, hk⟩ := hm.config
    rwa [nameAt_of_none (binding?_of_outermost hl hk), nameAt_of_none (binding?_of_outermost hl hk)] at he
  | cons u path =>
    obtain ⟨p, b, node, nodes, hi⟩ := h.inner hm hreach hc
    obtain ⟨next, -, hmade⟩ := hi.made
    rw [FlowConfig.nodesAt_of_templateAt? hi.template] at hx hy
    rw [nameAt_of_binding? hi.binding?, nameAt_of_binding? hi.binding?, hmade] at he
    have hprivate {x : NodeId} (hx : x ∈ b.template.nodes.map (·.id)) : ∃ i r, b.template.nodes[i]? = some r ∧ r.id = x ∧
        (Binding.make b.template b.usage next).rename x = privateId (next + i) := by
      rcases Binding.rename_cases b.template b.usage next x with ⟨-, hno⟩ | hsome
      · obtain ⟨r, hr, hid⟩ := List.mem_map.mp hx
        exact absurd hid (hno r hr)
      · exact hsome
    obtain ⟨i, r, hr, rfl, hrename⟩ := hprivate hx
    obtain ⟨i', r', hr', rfl, hrename'⟩ := hprivate hy
    have hpos : i = i' := Nat.add_left_cancel (privateId_injective ((hrename.symm.trans he).trans hrename'))
    subst hpos
    rw [Option.some.inj (hr.symm.trans hr')]

/-- A path leads to one copy. -/
theorem CopyAt.eq (h : e.CopyAt c k path j) (h' : e.CopyAt c k path i) : i = j := by
  induction h generalizing i with
  | flow =>
    cases h'
    rfl
  | copy _ _ hn hnode hpart ih =>
    cases h' with
    | copy h' _ hn' hnode' hpart' =>
      obtain rfl := ih h'
      obtain rfl := Option.some.inj (hn.symm.trans hn')
      obtain rfl := Option.some.inj (hnode.symm.trans hnode')
      cases hpart.symm.trans hpart'
      rfl

/-- Different paths lead to different copies. -/
theorem CopyAt.unique (hm : e.Erected c k) (hreach : Reachable e) (hc : c.Parsed) (h : e.CopyAt c k path j)
    {path' : List NodeId} (h' : e.CopyAt c k path' j) : path = path' := by
  have hflow {u : NodeId} {path : List NodeId} (h : e.CopyAt c k (u :: path) k) : False := by
    obtain ⟨l, hl, -, hk⟩ := hm.config
    obtain ⟨p, b, node, nodes, hi⟩ := h.inner hm hreach hc
    have hb := hi.binding?
    rw [binding?_of_outermost hl hk] at hb
    cases hb
  induction path generalizing j path' with
  | nil =>
    cases h
    cases path' with
    | nil => rfl
    | cons u path' => exact (hflow h').elim
  | cons u path ih =>
    cases path' with
    | nil =>
      cases h'
      exact (hflow h).elim
    | cons u' path' =>
      obtain ⟨p, b, node, nodes, hi⟩ := h.inner hm hreach hc
      obtain ⟨p', b', node', nodes', hi'⟩ := h'.inner hm hreach hc
      obtain rfl := Option.some.inj (hi.binding?.symm.trans hi'.binding?)
      obtain ⟨l, hl, -, hp, -⟩ := hi.level
      obtain ⟨l', hl', -, hp', -⟩ := hi'.level
      obtain rfl := Option.some.inj (hl.symm.trans hl')
      obtain rfl := Option.some.inj (hp.symm.trans hp')
      obtain rfl := ih hi.around hi'.around
      have hmem {u : NodeId} (ht : c.templateAt? u path = some b.template) : u ∈ (c.nodesAt path).map (·.id) := by
        obtain ⟨r, id, hu, -, -⟩ := FlowConfig.templateAt?_eq_some.mp ht
        obtain ⟨hr, -, rfl⟩ := FlowConfig.enabled?_eq_some hu
        exact List.mem_map_of_mem hr
      have hid : node.id = node'.id := congrArg Record.id (hi.usage.symm.trans hi'.usage)
      rw [hi.around.nameAt_inj hm hreach hc (hmem hi.template) (hmem hi'.template) (hi.id.symm.trans (hid.trans hi'.id))]

/-- A place has one node. -/
theorem LivesAt.eq {p : Place} {n' : NodeKey} (h : e.LivesAt c k p n) (h' : e.LivesAt c k p n') : n' = n := by
  obtain ⟨j, -, hj, -, hn⟩ := h
  obtain ⟨j', -, hj', -, hn'⟩ := h'
  obtain rfl := hj.eq hj'
  exact Option.some.inj (hn'.symm.trans hn)

/-- Each place has a node of its own. -/
theorem LivesAt.unique (hm : e.Erected c k) (hreach : Reachable e) (hc : c.Parsed) {p q : Place}
    (h : e.LivesAt c k p n) (h' : e.LivesAt c k q n) : p = q := by
  obtain ⟨path, x⟩ := p
  obtain ⟨path', y⟩ := q
  obtain ⟨j, r, hj, hr, hn⟩ := h
  obtain ⟨j', r', hj', hr', hn'⟩ := h'
  obtain ⟨node, hnode, rfl, hid⟩ := hreach.layout.laid.activeKey?_node hn
  obtain ⟨node', hnode', rfl, hid'⟩ := hreach.layout.laid.activeKey?_node hn'
  obtain rfl := Option.some.inj (hnode.symm.trans hnode')
  obtain rfl := hj.unique hm hreach hc hj'
  have hmem {z : NodeId} {r : Record} (hr : c.nodeAt? ⟨path, z⟩ = some r) : z ∈ (c.nodesAt path).map (·.id) := by
    obtain ⟨hmem, -, rfl⟩ := FlowConfig.enabled?_eq_some hr
    exact List.mem_map_of_mem hmem
  rw [hj.nameAt_inj hm hreach hc (hmem hr) (hmem hr') (hid.symm.trans hid')]

/-- There is a live node at a place if and only if there is an enabled node of the flat graph. -/
theorem Erected.livesAt_iff (hm : e.Erected c k) (hreach : Reachable e) (hc : c.Parsed) (hplain : c.Plain) (p : Place) :
    (∃ n, e.LivesAt c k p n) ↔ ∃ r, c.nodeAt? p = some r := by
  constructor
  · rintro ⟨n, j, r, -, hr, -⟩
    exact ⟨r, hr⟩
  · rintro ⟨r, hr⟩
    obtain ⟨path, x⟩ := p
    obtain ⟨hmem, -, rfl⟩ := FlowConfig.enabled?_eq_some hr
    obtain ⟨j, hj⟩ := hm.exists_copyAt hreach hc hplain hmem
    obtain ⟨n, node, hd⟩ := hj.dwells hm hreach hc hplain hr
    exact ⟨n, j, r, hj, hr, hd.id ▸ hd.serves.active⟩

/-! ## Where outputs lead -/

theorem behind_of_becomes (h : r'.Becomes node.record) (hd : node.dispatch = .ofWires node.record.outputs) (port : Nat) :
    outlets node port = r'.behind port := by
  rw [outlets_ofWires hd, h.outputs]
  rfl

/-- A node of the flow itself is wired as in the flat graph. -/
theorem Erected.outlets_eq (hm : e.Erected c k) (hc : c.Parsed) (hr : r ∈ c.nodes) (h : e.Dwells c [] k r n node)
    (port : Nat) : outlets node port = r.behind port := by
  obtain ⟨l, hl, rfl, hk⟩ := hm.config
  obtain ⟨l', hl', r', hmem, hbecomes⟩ := h.listed
  obtain rfl := Option.some.inj (hl.symm.trans hl')
  have hid : r'.id = r.id := hbecomes.id.symm.trans (h.id.trans (nameAt_of_none (binding?_of_outermost hl hk) _))
  obtain rfl := List.inj_on_of_nodup_map hc.nodup hmem hr hid
  exact behind_of_becomes hbecomes h.wired port

/-- A node of a copy is wired to others of the copy, and to what its usage node is wired to; behind all that come
sinks. -/
theorem Inner.outlets_eq (h : e.Inner c k u path i j b node nodes) (hc : c.Parsed) (hdiscreet : c.Discreet)
    (hr : r ∈ b.template.nodes) {n' : NodeKey} {node' : Node} (hd : e.Dwells c (u :: path) i r n' node') (port : Nat) :
    ∃ sinks, outlets node' port = (r.behind port).map b.rename ++
        b.template.joined (fun w => w.node == r.id && w.port == port) (outlets node) ++ sinks ∧
      ∀ s ∈ sinks, b.statusSink = some s ∨ b.completeSink = some s := by
  obtain ⟨next, htidy, hmade⟩ := h.made
  obtain ⟨_, id, -, -, hget⟩ := FlowConfig.templateAt?_eq_some.mp h.template
  obtain ⟨l, hl, -, -, rfl⟩ := h.level
  obtain ⟨l', hl', r', hmem, hbecomes⟩ := hd.listed
  obtain rfl := Option.some.inj (hl.symm.trans hl')
  have hself : r'.id = b.rename r.id := hbecomes.id.symm.trans (hd.id.trans (nameAt_of_binding? h.binding? _))
  have hnodup := h.corresponds.nodup
  have hx := h.expand
  have hbehind : outlets node' port = wiring l.config.nodes (b.rename r.id) port := by
    rw [← hself, wiring_of_mem hnodup hmem]
    exact behind_of_becomes hbecomes hd.wired port
  have houter : outlets node = fun i => node.record.outputs[i]?.getD [] := funext fun i => outlets_ofWires h.wired i
  rw [hmade] at hx
  obtain ⟨sinks, hw, hs⟩ := Binding.wiring_expand? hx htidy hr (hc.apart hget hr)
    ((hdiscreet.templates id _ hget).mono (Nat.zero_le _)) port
  rw [← hmade] at hw hs
  exact ⟨sinks, by rw [hbehind, hw, houter], hs⟩

/-- The node of an instance that the engine has made, with its part. -/
theorem Inner.internal (h : e.Inner c k u path i j b node nodes) (hm : e.Erected c k) (hreach : Reachable e)
    (hcopy : e.CopyAt c k (u :: path) i) {m : Record} (hmem : m ∈ b.members) (hd : m.disabled = false) {part : Part}
    (hpart : builtIn? m.type = some part) : ∃ n' node', e.Serves i n' node' ∧ node'.id = m.id ∧ node'.part = part := by
  obtain ⟨next, -, hmade⟩ := h.made
  obtain ⟨l, hl, -, -, rfl⟩ := h.level
  have hfit : b.Fitting := hmade ▸ Binding.fitting_make _ _ _
  have hbare : m.bare ∈ l.config.nodes.map Record.bare := Binding.expand?_bare hfit h.expand ▸ List.mem_map_of_mem hmem
  obtain ⟨r', hmem', he⟩ := List.mem_map.mp hbare
  have hid : r'.id = m.id := (congrArg Record.id he :)
  have hd' : r'.disabled = false := (congrArg Record.disabled he :).trans hd
  have htype : r'.type = m.type := (congrArg Record.type he :)
  have husage (id : String) (hu : r'.templateId? = some id) : ∃ t, c.templates.get? id = some t := by
    have := builtIn?_usage hu
    rw [htype, hpart] at this
    cases this
  obtain ⟨n', hn'⟩ := Option.isSome_iff_exists.mp (hm.manned (u :: path) i l hcopy hl r' hmem' hd' husage)
  rw [hid] at hn'
  obtain ⟨node', hserves, hid'⟩ := hreach.serves hn'
  obtain ⟨node'', hnode'', -, -, htype⟩ := hreach.member h.binding? hmem hn'
  obtain rfl := Option.some.inj (hserves.isNode.symm.trans hnode'')
  exact ⟨n', node', hserves, hid', hreach.parted.nodes n' node' part hserves.isNode (htype ▸ hpart)⟩

theorem Inner.sink (h : e.Inner c k u path i j b node nodes) (hm : e.Erected c k) (hreach : Reachable e)
    (hcopy : e.CopyAt c k (u :: path) i) {s : NodeId} (hs : b.statusSink = some s ∨ b.completeSink = some s) :
    ∃ n' node' port, e.Serves i n' node' ∧ node'.id = s ∧ node'.part = .sink port := by
  rcases hs with hs | hs
  · have htype : builtIn? statusSinkType = some (.sink .status) := rfl
    obtain ⟨n', node', hserves, hid, hpart⟩ := h.internal hm hreach hcopy (m := b.internal s statusSinkType [])
      (by simp [Binding.members, hs]) rfl htype
    exact ⟨n', node', _, hserves, hid, hpart⟩
  · have htype : builtIn? completeSinkType = some (.sink .complete) := rfl
    obtain ⟨n', node', hserves, hid, hpart⟩ := h.internal hm hreach hcopy (m := b.internal s completeSinkType [])
      (by simp [Binding.members, hs]) rfl htype
    exact ⟨n', node', _, hserves, hid, hpart⟩

/-- The input node of a copy leads where the first input port of the template does, and straight on. -/
theorem Inner.input (h : e.Inner c k u path i j b node nodes) (hm : e.Erected c k) (hreach : Reachable e)
    (hcopy : e.CopyAt c k (u :: path) i) : ∃ n' node', e.Serves i n' node' ∧ node'.id = b.input ∧ node'.part = .relay ∧
      outlets node' 0 = b.template.entries.map (fun w => b.rename w.node) ++
        b.template.joined (·.node == b.template.id) (outlets node) := by
  have htype : builtIn? inputType = some .relay := rfl
  obtain ⟨n', node', hserves, hid, hpart⟩ := h.internal hm hreach hcopy (m := b.internal b.input inputType [])
    (by simp [Binding.members]) rfl htype
  refine ⟨n', node', hserves, hid, hpart, ?_⟩
  obtain ⟨next, htidy, hmade⟩ := h.made
  obtain ⟨l, hl, -, -, rfl⟩ := h.level
  have hx := h.expand
  rw [hmade] at hx
  have hinput := Binding.input_mem_expand? hx
  rw [← hmade] at hinput
  obtain ⟨node'', hnode'', he⟩ := hm.enacted _ _ _ _ hcopy hserves.active
  obtain rfl := Option.some.inj (hserves.isNode.symm.trans hnode'')
  obtain ⟨l', r', hl', hmem', -, hbecomes⟩ := he.lists
  obtain rfl := Option.some.inj (hl.symm.trans hl')
  have hr' := List.inj_on_of_nodup_map h.corresponds.nodup hmem' hinput (hbecomes.id.symm.trans hid)
  have houter : outlets node = fun i => node.record.outputs[i]?.getD [] := funext fun i => outlets_ofWires h.wired i
  rw [behind_of_becomes hbecomes he.wired, hr', houter]
  rfl

end Engine
end Flowgraph
