import Flowgraph.Proofs.Searching
/-! Messages in a flow go as in its flat graph. What a node of a copy sends is relayed by the input nodes and the
stand-ins of the copies around and inside it, and comes to the nodes to which the flat graph leads, wire by wire. -/
namespace Flowgraph

/-- An ordinary node, one that its kind has made. -/
def Node.isOrdinary (n : Node) : Bool :=
  match n.part with
  | .ordinary _ => true
  | _ => false

namespace Engine

variable {e s : Engine} {c : FlowConfig} {i j k p : LevelKey} {n n' : NodeKey} {node node' : Node} {path : List NodeId}
  {u id x : NodeId} {q : Place} {l : Level} {b : Binding} {r : Record} {nodes : List Record} {m : Message}
  {xs ys : List NodeId} {ps qs : List Place} {t : Template} {a : Action} {actions : List Action}

/-! ## Where wires lead -/

/-- A name looked up from a level leads to where it leads from another one. -/
def Met (e : Engine) (j : LevelKey) (x : NodeId) (i : LevelKey) : Prop :=
  ∀ s : Engine, s.still = e.still → s.outward? j x = s.outward? i x

/-- What a name stands for that is looked up from a level: the node of a place, if there is one, or a sink. -/
inductive Heads (e : Engine) (c : FlowConfig) (k j : LevelKey) : NodeId → List Place → Prop
  | place {q : Place} {i : LevelKey} (hi : e.CopyAt c k q.path i) (hw : c.Wired q) (hle : i ≤ j)
      (hmet : e.Met j (e.nameAt i q.node) i) : Heads e c k j (e.nameAt i q.node) [q]
  | sink {path : List NodeId} {i : LevelKey} {b : Binding} {n : NodeKey} {node : Node} {port : PortKind}
      (hi : e.CopyAt c k path i) (hb : e.binding? i = some b) (hle : i ≤ j) (hs : e.Serves i n node)
      (hpart : node.part = .sink port) (hmet : e.Met j node.id i) : Heads e c k j node.id []

/-- Names stand for places one after the other. -/
inductive Tour (e : Engine) (c : FlowConfig) (k j : LevelKey) : List NodeId → List Place → Prop
  | nil : Tour e c k j [] []
  | cons {x : NodeId} {xs : List NodeId} {ps qs : List Place} (h : e.Heads c k j x ps) (rest : Tour e c k j xs qs) :
      Tour e c k j (x :: xs) (ps ++ qs)

namespace Tour

theorem append (h : e.Tour c k j xs ps) (h' : e.Tour c k j ys qs) : e.Tour c k j (xs ++ ys) (ps ++ qs) := by
  induction h with
  | nil => exact h'
  | cons hx _ ih =>
    rw [List.append_assoc]
    exact .cons hx ih

theorem flatMap {α : Type} {as : List α} {f : α → List NodeId} {g : α → List Place}
    (h : ∀ a ∈ as, e.Tour c k j (f a) (g a)) : e.Tour c k j (as.flatMap f) (as.flatMap g) := by
  induction as with
  | nil => exact .nil
  | cons a as ih =>
    obtain ⟨ha, has⟩ := List.forall_mem_cons.mp h
    exact ha.append (ih has)

theorem map {α : Type} {as : List α} {f : α → NodeId} {g : α → Place} (h : ∀ a ∈ as, e.Heads c k j (f a) [g a]) :
    e.Tour c k j (as.map f) (as.map g) := by
  induction as with
  | nil => exact .nil
  | cons a as ih =>
    obtain ⟨ha, has⟩ := List.forall_mem_cons.mp h
    exact .cons ha (ih has)

theorem sinks (h : ∀ x ∈ xs, e.Heads c k j x []) : e.Tour c k j xs [] := by
  induction xs with
  | nil => exact .nil
  | cons x xs ih =>
    obtain ⟨hx, hxs⟩ := List.forall_mem_cons.mp h
    exact .cons hx (ih hxs)

/-- What a template joins to its output ports leads where these are wired. -/
theorem joined {outer : Nat → List NodeId} {places : Nat → List Place} (asked : PortWire → Bool)
    (h : ∀ port, e.Tour c k j (outer port) (places port)) : e.Tour c k j (t.joined asked outer) (t.joined asked places) := by
  refine .flatMap fun (port, i) _ => .flatMap fun w _ => ?_
  split
  · exact h i
  · exact .nil

end Tour

namespace Flowing

theorem met_refl (e : Engine) (j : LevelKey) (x : NodeId) : e.Met j x j := fun _ _ => rfl

/-- A name that leads to something further out leads there from inside a copy too. -/
theorem heads_inner (h : e.Flowing c k) (hi : e.Inner c k u path i j b node nodes) (hx : e.Heads c k j x ps) :
    e.Heads c k i x ps := by
  obtain ⟨l, hl, -, hp, -⟩ := hi.level
  have hlt : j < i := h.laid.parent_lt hl hp
  have hup {x : NodeId} (hn : e.activeKey? i x = none) : e.Met i x j := by
    intro s hs
    refine outward?_parent (h.laid.still hs) ((level?_of_still hs i).trans hl) hp (h.hasLevel hi.around hs) ?_
    rwa [activeKey?, level?_of_still hs]
  cases hx with
  | @place q i' hi' hw hle hmet =>
    have hne : i ≠ i' := fun he => absurd (Nat.lt_of_le_of_lt hle hlt) (he ▸ Nat.lt_irrefl _)
    have hup := hup (h.inactive_elsewhere hi' hw hi.binding? hne)
    exact .place hi' hw (Nat.le_of_lt (Nat.lt_of_le_of_lt hle hlt)) fun s hs => (hup s hs).trans (hmet s hs)
  | @sink path' i' b' n node port hi' hb hle hs hpart hmet =>
    have hne : i ≠ i' := fun he => absurd (Nat.lt_of_le_of_lt hle hlt) (he ▸ Nat.lt_irrefl _)
    have hup : e.Met i node.id j := hup <| h.inactive_of_member hb (h.mem_members hb hs.active) hne fun hf => by
      obtain ⟨l', hl', hk⟩ := isFlow_iff.mp hf
      have := hi.binding?
      rw [binding?_of_outermost hl' hk] at this
      cases this
    exact .sink hi' hb (Nat.le_of_lt (Nat.lt_of_le_of_lt hle hlt)) hs hpart fun s hs => (hup s hs).trans (hmet s hs)

theorem tour_inner (h : e.Flowing c k) (hi : e.Inner c k u path i j b node nodes) (ht : e.Tour c k j xs ps) :
    e.Tour c k i xs ps := by
  induction ht with
  | nil => exact .nil
  | cons hx _ ih => exact .cons (h.heads_inner hi hx) ih

/-- The wires of a node go to the nodes around it. -/
theorem tour_behind (hj : e.CopyAt c k path j) (hr : c.nodeAt? ⟨path, r.id⟩ = some r) (port : Nat) :
    e.Tour c k j ((r.behind port).map (e.nameAt j)) ((r.behind port).map (⟨path, ·⟩)) :=
  .map fun x hx => .place (q := ⟨path, x⟩) hj (.wire hr hx) (Nat.le_refl j) (met_refl e j _)

/-- The outputs of a node lead where they do in the flat graph. -/
theorem tour_leads (h : e.Flowing c k) (hj : e.CopyAt c k path j) (hr : c.nodeAt? ⟨path, r.id⟩ = some r)
    (hd : e.Dwells c path j r n node) (port : Nat) : e.Tour c k j (outlets node port) (c.leads path r.id port) := by
  induction path generalizing j r n node port with
  | nil =>
    cases hj
    obtain ⟨l, hl, -, hk⟩ := h.erected.config
    have htour : e.Tour c k k _ _ := tour_behind .flow hr port
    rw [FlowConfig.leads, hr, h.erected.outlets_eq h.parsed (FlowConfig.enabled?_eq_some hr).1 hd]
    rwa [funext (nameAt_of_none (binding?_of_outermost hl hk)), List.map_id'] at htour
  | cons u around ih =>
    obtain ⟨i, b, usage, nodes, hi⟩ := hj.inner h.erected h.reachable h.parsed
    obtain ⟨usage', id, hu, -, -⟩ := FlowConfig.templateAt?_eq_some.mp hi.template
    obtain ⟨nu, hserves⟩ := hi.serves
    have huid := (FlowConfig.enabled?_eq_some hu).2.2
    subst huid
    have hmem : r ∈ b.template.nodes := by
      rw [← FlowConfig.nodesAt_of_templateAt? hi.template]
      exact (FlowConfig.enabled?_eq_some hr).1
    obtain ⟨sinks, hout, hsinks⟩ := hi.outlets_eq h.parsed h.discreet hmem hd port
    obtain ⟨node', hd'⟩ := hi.around.dwells_of_active h.erected h.reachable h.parsed h.plain hu (hi.id ▸ hserves.active)
    obtain rfl := Option.some.inj (hserves.isNode.symm.trans hd'.serves.isNode)
    have houter (port : Nat) : e.Tour c k j (outlets usage port) (c.leads around usage'.id port) :=
      h.tour_inner hi (ih hi.around hu hd' port)
    have htour := ((tour_behind hj hr port).append
      (.joined (t := b.template) (fun w => w.node == r.id && w.port == port) houter)).append
        (.sinks fun s hs => ?_ : e.Tour c k j sinks [])
    · rw [hout, FlowConfig.leads, hr, hi.template]
      rwa [funext (nameAt_of_binding? hi.binding?), List.append_nil] at htour
    · obtain ⟨n', node', port, hs', rfl, hpart⟩ := hi.sink h.erected h.reachable hj (hsinks s hs)
      exact .sink hj hi.binding? (Nat.le_refl j) hs' hpart (met_refl e j _)

/-- The input node of a copy leads where the copy leads what it is sent. -/
theorem tour_entry (h : e.Flowing c k) (hi : e.Inner c k u path i j b node nodes) (hcopy : e.CopyAt c k (u :: path) i) :
    ∃ n' node', e.Serves i n' node' ∧ node'.id = b.input ∧ node'.part = .relay ∧
      e.Tour c k i (outlets node' 0) (c.entry u path) := by
  obtain ⟨n', node', hs, hid, hpart, hout⟩ := hi.input h.erected h.reachable hcopy
  obtain ⟨usage', id, hu, -, -⟩ := FlowConfig.templateAt?_eq_some.mp hi.template
  obtain ⟨nu, hserves⟩ := hi.serves
  have huid := (FlowConfig.enabled?_eq_some hu).2.2
  subst huid
  obtain ⟨node'', hd⟩ := hi.around.dwells_of_active h.erected h.reachable h.parsed h.plain hu (hi.id ▸ hserves.active)
  obtain rfl := Option.some.inj (hserves.isNode.symm.trans hd.serves.isNode)
  refine ⟨n', node', hs, hid, hpart, ?_⟩
  have hentries : e.Tour c k i (b.template.entries.map fun w => b.rename w.node)
      (b.template.entries.map (⟨usage'.id :: path, ·.node⟩)) := by
    refine .map fun w hw => ?_
    rw [← nameAt_of_binding? hi.binding?]
    exact .place (q := ⟨usage'.id :: path, w.node⟩) hcopy (.entry hi.template hw) (Nat.le_refl i) (met_refl e i _)
  rw [hout, FlowConfig.entry, hi.template]
  exact hentries.append (.joined _ fun port => h.tour_inner hi (h.tour_leads hi.around hu hd port))

end Flowing
/-! ## What comes of a message -/

/-- The messages that ordinary nodes are handed. -/
def inputs (e : Engine) (given : List (NodeKey × Message)) : List (NodeKey × Message) :=
  given.filter fun x => (e.node? x.1).any Node.isOrdinary

theorem inputs_append (e : Engine) (given given' : List (NodeKey × Message)) :
    e.inputs (given ++ given') = e.inputs given ++ e.inputs given' := List.filter_append ..

/-- A message comes to the node of a place. -/
def ComesTo (e : Engine) (c : FlowConfig) (k : LevelKey) (m : Message) (q : Place) (x : NodeKey × Message) : Prop :=
  e.LivesAt c k q x.1 ∧ x.2 = m

/-- Actions that come to an end; ordinary nodes are handed the message at these places, in this order. -/
def Yields (e : Engine) (c : FlowConfig) (k : LevelKey) (m : Message) (actions : List Action) (places : List Place) : Prop :=
  ∀ s base, s.still = e.still → s.agenda = actions ++ base →
    ∃ given s', Hands base s given s' ∧ List.Forall₂ (e.ComesTo c k m) places (e.inputs given)

namespace Yields

theorem nil : e.Yields c k m [] [] := fun s _ _ ha => ⟨[], s, .done ha, .nil⟩

theorem append {actions actions' : List Action} (h : e.Yields c k m actions ps) (h' : e.Yields c k m actions' qs) :
    e.Yields c k m (actions ++ actions') (ps ++ qs) := by
  intro s base hs ha
  obtain ⟨given, s₁, hh, hc⟩ := h s (actions' ++ base) hs (by rw [ha, List.append_assoc])
  obtain ⟨hs₁, ha₁⟩ := hh.still
  obtain ⟨given', s', hh', hc'⟩ := h' s₁ base (hs₁.trans hs) ha₁
  exact ⟨given ++ given', s', hh.append hh', inputs_append e given given' ▸ List.rel_append hc hc'⟩

theorem cons (h : e.Yields c k m [a] ps) (h' : e.Yields c k m actions qs) : e.Yields c k m (a :: actions) (ps ++ qs) :=
  h.append h'

/-- Work of which nothing comes. -/
theorem after (h : e.Yields c k m actions []) {actions' : List Action} (h' : e.Yields c k m actions' ps) :
    e.Yields c k m (actions ++ actions') ps := h.append h'

theorem flatMap {α : Type} {as : List α} {f : α → List Action} {g : α → List Place}
    (h : ∀ a ∈ as, e.Yields c k m (f a) (g a)) : e.Yields c k m (as.flatMap f) (as.flatMap g) := by
  induction as with
  | nil => exact nil
  | cons a as ih =>
    obtain ⟨ha, has⟩ := List.forall_mem_cons.mp h
    exact ha.append (ih has)

/-- An action with what it leads to. -/
theorem act (hb : e.broken = false) (hq : a.isQuiet = true)
    (hown : ∀ s : Engine, s.still = e.still → List.Forall₂ (e.ComesTo c k m) ps (e.inputs (s.handed a)))
    (hact : ∀ s : Engine, s.still = e.still → ∃ next, (s.act a).agenda = next ++ s.agenda ∧ e.Yields c k m next qs) :
    e.Yields c k m [a] (ps ++ qs) := by
  intro s base hs ha
  obtain ⟨next, hagenda, hnext⟩ := hact { s with agenda := base } hs
  have hs' : (({ s with agenda := base } : Engine).act a).still = e.still := (quiet_act _ hq).still.trans hs
  obtain ⟨given, s', hh, hc⟩ := hnext _ base hs' hagenda
  refine ⟨_, s', .first ((broken_of_still hs).trans hb) ha hq hh, ?_⟩
  rw [inputs_append]
  exact List.rel_append (hown s hs) hc

/-- An action that hands nothing to an ordinary node itself. -/
theorem pass (hb : e.broken = false) (hq : a.isQuiet = true)
    (hown : ∀ s : Engine, s.still = e.still → e.inputs (s.handed a) = [])
    (hact : ∀ s : Engine, s.still = e.still → ∃ next, (s.act a).agenda = next ++ s.agenda ∧ e.Yields c k m next qs) :
    e.Yields c k m [a] qs := by
  have hown (s : Engine) (hs : s.still = e.still) : List.Forall₂ (e.ComesTo c k m) [] (e.inputs (s.handed a)) := by
    rw [hown s hs]
    exact .nil
  exact act hb hq hown hact

end Yields

/-- What a node is handed, if it is no ordinary one. -/
theorem Serves.inputs_hand (hs : e.Serves j n node) (ho : node.isOrdinary = false) (s : Engine) (m : Message) :
    e.inputs (s.handed (.hand n m)) = [] := by
  have hnone : ((e.node? n).any Node.isOrdinary) = false := by
    rw [hs.isNode]
    exact ho
  unfold Engine.handed
  dsimp only
  split
  · rfl
  · simp [inputs, hnone]

namespace Flowing

variable (h : e.Flowing c k)
include h

theorem unbroken : e.broken = false := h.composed.unbroken

/-! ## Nodes of the engine -/

/-- A relay sends the message over its wires. -/
theorem yields_send (hj : e.CopyAt c k path j) (hs : e.Serves j n node)
    (hnext : e.Yields c k m ((outlets node 0).map fun x => .deliver j x m) ps) :
    e.Yields c k m [.effect n (.send 0 m)] ps := by
  refine .pass h.unbroken rfl (fun _ _ => rfl) fun s hstill => ⟨_, ?_, hnext⟩
  obtain ⟨node', hs', -, -, hd⟩ := hs.still hstill
  change (s.perform n (.send 0 m)).agenda = _
  rw [perform, hs'.isNode]
  dsimp only
  rw [hs'.level, if_pos (h.hasLevel hj hstill), sendFrom, hd, hs'.level]
  simp [push, outlets, Function.comp_def]

theorem yields_relay (hj : e.CopyAt c k path j) (hs : e.Serves j n node) (hpart : node.part = .relay)
    (hnext : e.Yields c k m ((outlets node 0).map fun x => .deliver j x m) ps) : e.Yields c k m [.hand n m] ps := by
  refine .pass h.unbroken rfl (fun s _ => hs.inputs_hand (by rw [Node.isOrdinary, hpart]) s m) fun s hstill =>
    ⟨_, ?_, h.yields_send hj hs hnext⟩
  obtain ⟨node', hs', -, hpart', -⟩ := hs.still hstill
  change (s.hand n m).agenda = _
  rw [Engine.hand, hs'.isNode]
  dsimp only
  rw [hs'.awake, hpart', hpart]
  rfl

/-- The level around a copy is one of the flow. -/
theorem around_of_enclosing? (hstill : s.still = e.still) (hj : e.CopyAt c k path j) (hp : s.enclosing? j = some p) :
    ∃ path', e.CopyAt c k path' p := by
  rw [enclosing?, level?_of_still hstill] at hp
  obtain ⟨l, hl, hparent⟩ := Option.bind_eq_some_iff.mp (Option.filter_eq_some_iff.mp hp).1
  cases path with
  | nil =>
    cases hj
    obtain ⟨l', hl', -, hk⟩ := h.erected.config
    obtain rfl := Option.some.inj (hl.symm.trans hl')
    rw [(h.laid _ l hl).outermost hk] at hparent
    cases hparent
  | cons u path =>
    obtain ⟨p', b, node, nodes, hi⟩ := hj.inner h.erected h.reachable h.parsed
    obtain ⟨l', hl', -, hp', -⟩ := hi.level
    obtain rfl := Option.some.inj (hl.symm.trans hl')
    obtain rfl := Option.some.inj (hparent.symm.trans hp')
    exact ⟨path, hi.around⟩

/-- What comes to a status or complete port of a copy is heard by nobody. -/
theorem agenda_reportPort (hstill : s.still = e.still) (hj : e.CopyAt c k path j) (port : PortKind) (m : Message) :
    (s.reportPort j port m).agenda = s.agenda := by
  unfold reportPort
  split
  · rename_i b p _ hp
    obtain ⟨path', hp'⟩ := h.around_of_enclosing? hstill hj hp
    cases s.level? p with
    | none => rfl
    | some around =>
      cases port with
      | status =>
        have hs' : (s.publish (.nodeStatus around.id (Origin.ofRecord b.usage).id (.ofMessage m))).still = e.still :=
          (quiet_publish _ _).still.trans hstill
        exact (h.agenda_raise hs' hp' _ _).trans (agenda_publish _ _)
      | complete => exact h.agenda_raise hstill hp' _ _
  · rfl

/-- A sink ends the way of a message. -/
theorem yields_sink (hj : e.CopyAt c k path j) (hs : e.Serves j n node) {port : PortKind} (hpart : node.part = .sink port) :
    e.Yields c k m [.hand n m] [] := by
  refine .pass h.unbroken rfl (fun s _ => hs.inputs_hand (by rw [Node.isOrdinary, hpart]) s m) fun s hstill =>
    ⟨[], ?_, .nil⟩
  obtain ⟨node', hs', -, hpart', -⟩ := hs.still hstill
  change (s.hand n m).agenda = s.agenda
  rw [Engine.hand, hs'.isNode]
  dsimp only
  rw [hs'.awake, hpart', hpart, hs'.level]
  simp only [Bool.false_eq_true, if_false]
  rw [if_pos (h.hasLevel hj hstill)]
  exact h.agenda_reportPort hstill hj port m

/-! ## Wires -/

theorem yields_found (hfound : ∀ s : Engine, s.still = e.still → s.outward? j x = some n)
    (hnext : e.Yields c k m [.hand n m] ps) : e.Yields c k m [.deliver j x m] ps := by
  refine .pass h.unbroken rfl (fun _ _ => rfl) fun s hstill => ⟨_, ?_, hnext⟩
  change (s.deliver j x m).agenda = _
  rw [Engine.deliver, hfound s hstill]
  rfl

theorem yields_lost (hlost : ∀ s : Engine, s.still = e.still → s.outward? j x = none) :
    e.Yields c k m [.deliver j x m] [] := by
  refine .pass h.unbroken rfl (fun _ _ => rfl) fun s hstill => ⟨[], ?_, .nil⟩
  change (s.deliver j x m).agenda = s.agenda
  rw [Engine.deliver, hlost s hstill]

/-- A message for the node of a place comes to it from wherever the name leads there, and to nobody if there is none. -/
theorem yields_place (hj : e.CopyAt c k q.path j) (hw : c.Wired q) (hmet : e.Met i (e.nameAt j q.node) j)
    (hnode : ∀ r n node, c.nodeAt? q = some r → e.Dwells c q.path j r n node → e.Yields c k m [.hand n m] ps)
    (hnone : c.nodeAt? q = none → ps = []) : e.Yields c k m [.deliver i (e.nameAt j q.node) m] ps := by
  cases hr : c.nodeAt? q with
  | none =>
    rw [hnone hr]
    exact h.yields_lost fun s hstill => (hmet s hstill).trans
      (h.outward?_none hstill hj fun i hf => h.inactive_everywhere hj hw hr i hf)
  | some r =>
    obtain ⟨n, node, hd⟩ := hj.dwells h.erected h.reachable h.parsed h.plain hr
    have hid : r.id = q.node := (FlowConfig.enabled?_eq_some hr).2.2
    refine h.yields_found (fun s hstill => (hmet s hstill).trans (outward?_of_active ?_)) (hnode r n node hr hd)
    rw [activeKey?, level?_of_still hstill, ← hid, ← hd.id]
    exact hd.serves.active

/-- Messages for one name after the other go where the names lead. -/
theorem yields_tour {walk : Place → List Place} (ht : e.Tour c k j xs ps)
    (hplace : ∀ q ∈ ps, ∀ i j', e.CopyAt c k q.path j' → c.Wired q → e.Met i (e.nameAt j' q.node) j' →
      e.Yields c k m [.deliver i (e.nameAt j' q.node) m] (walk q)) :
    e.Yields c k m (xs.map fun x => .deliver j x m) (ps.flatMap walk) := by
  induction ht with
  | nil => exact .nil
  | @cons x xs ps qs hx _ ih =>
    rw [List.flatMap_append]
    refine .cons ?_ (ih fun q hq => hplace q (List.mem_append_right _ hq))
    cases hx with
    | @place q i hi hw hle hmet =>
      rw [List.flatMap_singleton]
      exact hplace q List.mem_cons_self j i hi hw hmet
    | @sink path i b n node port hi hb hle hs hpart hmet =>
      refine h.yields_found (fun s hstill => (hmet s hstill).trans (outward?_of_active ?_)) (h.yields_sink hi hs hpart)
      rw [activeKey?, level?_of_still hstill]
      exact hs.active

/-! ## Nodes of the flow -/

/-- What a node does besides sending leads to no work: nobody hears its signals. -/
theorem agenda_perform (hstill : s.still = e.still) (hj : e.CopyAt c k path j) (hs : e.Serves j n node) {effect : Effect}
    (heffect : ∀ port m, effect ≠ .send port m) : (s.perform n effect).agenda = s.agenda := by
  obtain ⟨node', hs', -⟩ := hs.still hstill
  rw [perform, hs'.isNode]
  cases effect with
  | note => rfl
  | closed result => exact agenda_signalClosed s n result
  | send port m => exact absurd rfl (heffect port m)
  | status status =>
    dsimp only
    rw [hs'.level]
    split
    · rename_i l _ _
      have hp : (s.publish (.nodeStatus l.id node'.id status)).still = e.still := (quiet_publish _ _).still.trans hstill
      exact (h.agenda_raise hp hj _ _).trans (agenda_publish _ _)
    · rfl
  | error text about =>
    dsimp only
    rw [hs'.level, if_pos (h.hasLevel hj hstill)]
    exact h.agenda_raise hstill hj _ _
  | complete m =>
    dsimp only
    rw [hs'.level, if_pos (h.hasLevel hj hstill)]
    exact h.agenda_raise hstill hj _ _

theorem yields_effects (hj : e.CopyAt c k path j) (hs : e.Serves j n node) {effects : List Effect}
    (heffects : ∀ x ∈ effects, ∀ port m', x ≠ .send port m') : e.Yields c k m (effects.map (.effect n)) [] := by
  induction effects with
  | nil => exact .nil
  | cons x effects ih =>
    obtain ⟨hx, hall⟩ := List.forall_mem_cons.mp heffects
    have heffect : e.Yields c k m [.effect n x] [] :=
      .pass h.unbroken rfl (fun _ _ => rfl) fun s hstill => ⟨[], h.agenda_perform hstill hj hs hx, .nil⟩
    exact heffect.cons (ih hall)

/-- Nobody hears how the handling of a message ends. -/
theorem yields_conclude (hj : e.CopyAt c k path j) (hs : e.Serves j n node) (outcome : Outcome) :
    e.Yields c k m [.conclude n m outcome] [] := by
  refine .pass h.unbroken rfl (fun _ _ => rfl) fun s hstill => ⟨[], ?_, .nil⟩
  change (s.conclude n m outcome).agenda = s.agenda
  unfold conclude
  cases outcome with
  | deferred => rfl
  | handled =>
    dsimp only
    split
    · split
      · exact h.agenda_perform hstill hj hs nofun
      · rfl
    · rfl
  | failed fault => exact h.agenda_perform hstill hj hs nofun

/-- An ordinary node takes the message and sends it on. -/
theorem yields_ordinary (hj : e.CopyAt c k path j) (hs : e.Serves j n node) {b : Behaviour}
    (hpart : node.part = .ordinary b) (hforwards : b.Forwards) (hlives : e.LivesAt c k q n)
    (hnext : e.Yields c k m ((outlets node 0).map fun x => .deliver j x m) ps) :
    e.Yields c k m [.hand n m] (q :: ps) := by
  have hown (s : Engine) (hstill : s.still = e.still) :
      List.Forall₂ (e.ComesTo c k m) [q] (e.inputs (s.handed (.hand n m))) := by
    obtain ⟨node', hs', -⟩ := hs.still hstill
    rw [hs'.handed, inputs, List.filter_cons_of_pos, List.filter_nil]
    · exact .cons ⟨hlives, rfl⟩ .nil
    · rw [hs.isNode]
      simp [Node.isOrdinary, hpart]
  refine .act h.unbroken rfl hown fun s hstill => ?_
  · obtain ⟨node', hs', -, hpart', -⟩ := hs.still hstill
    obtain ⟨htasks, before, after, heffects, hbesides⟩ := hforwards ⟨s.nodeSetting node', (s.tasksOf n).length⟩ m
    have hact : s.act (.hand n m) = s.push
        ((b.onInput ⟨s.nodeSetting node', (s.tasksOf n).length⟩ m).effects.map (.effect n) ++
          [.conclude n m (b.onInput ⟨s.nodeSetting node', (s.tasksOf n).length⟩ m).outcome]) := by
      change s.hand n m = _
      rw [Engine.hand, hs'.isNode]
      dsimp only
      rw [hs'.awake, hpart', hpart]
      simp only [Bool.false_eq_true, if_false]
      rw [htasks]
      rfl
    refine ⟨_, congrArg Engine.agenda hact, ?_⟩
    rw [heffects, List.map_append, List.map_cons, List.append_assoc, List.cons_append]
    refine (h.yields_effects hj hs fun x hx => hbesides x (List.mem_append_left _ hx)).after ?_
    rw [← List.append_nil ps]
    refine .cons (h.yields_send hj hs hnext) (.after ?_ (h.yields_conclude hj hs _))
    exact h.yields_effects hj hs fun x hx => hbesides x (List.mem_append_right _ hx)

/-- A stand-in hands the message to the input node of its copy, which sends it on. -/
theorem yields_standIn (hi : e.Inner c k u path i j b node nodes) (hs : e.Serves j n node)
    (hcopy : e.CopyAt c k (u :: path) i) (hinput : e.Serves i n' node') (hid : node'.id = b.input)
    (hrelay : node'.part = .relay) (hnext : e.Yields c k m ((outlets node' 0).map fun x => .deliver i x m) ps) :
    e.Yields c k m [.hand n m] ps := by
  have hat : e.Yields c k m [.handAt i b.input m] ps := by
    refine .pass h.unbroken rfl (fun _ _ => rfl) fun s hstill => ⟨_, ?_, h.yields_relay hcopy hinput hrelay hnext⟩
    obtain ⟨node'', hs', hid', -⟩ := hinput.still hstill
    change (s.handAt i b.input m).agenda = _
    rw [Engine.handAt, ← hid, ← hid', hs'.active]
    rfl
  refine .pass h.unbroken rfl (fun s _ => hs.inputs_hand (by rw [Node.isOrdinary, hi.part]) s m) fun s hstill =>
    ⟨_, ?_, hat⟩
  obtain ⟨node'', hs', -, hpart', -⟩ := hs.still hstill
  have hbinding : s.binding? i = some b := (binding?_of_still hstill i).trans hi.binding?
  change (s.hand n m).agenda = _
  rw [Engine.hand, hs'.isNode]
  dsimp only
  rw [hs'.awake, hpart', hi.part]
  dsimp only
  rw [hbinding]
  rfl

/-- A message for the node of a place takes its way through the flat graph: it is handed to the node itself, if that is
ordinary, and goes on from there. -/
theorem yields_walk (hwf : WellFounded fun q p => q ∈ c.next p) {p : Place} (hj : e.CopyAt c k p.path j)
    (hr : c.nodeAt? p = some r) (hd : e.Dwells c p.path j r n node) : e.Yields c k m [.hand n m] (c.walk hwf p) := by
  induction p using hwf.induction generalizing j r n node with
  | _ p ih =>
    have hid : r.id = p.node := (FlowConfig.enabled?_eq_some hr).2.2
    have hactive : e.activeKey? j (e.nameAt j p.node) = some n := by
      rw [← hid, ← hd.id]
      exact hd.serves.active
    have hplace (q : Place) (hq : q ∈ c.next p) (i j' : LevelKey) (hj' : e.CopyAt c k q.path j') (hw : c.Wired q)
        (hmet : e.Met i (e.nameAt j' q.node) j') : e.Yields c k m [.deliver i (e.nameAt j' q.node) m] (c.walk hwf q) := by
      refine h.yields_place hj' hw hmet (fun r n node hr hd => ih q hq hj' hr hd) fun hnone => ?_
      rw [FlowConfig.walk_eq, FlowConfig.isOrdinary, hnone, FlowConfig.next_of_none hnone]
      rfl
    rw [FlowConfig.walk_eq, FlowConfig.isOrdinary, hr]
    cases ht : c.templateOf? r with
    | none =>
      -- an ordinary node, which sends the message on
      obtain ⟨b, hpart⟩ := hd.plays.2 (by rw [ht]; rfl)
      have hlives : e.LivesAt c k p n := ⟨j, r, hj, hr, hactive⟩
      have hnext : c.next p = c.leads p.path r.id 0 := by
        rw [FlowConfig.next, hr, hid]
        dsimp only
        rw [ht]
        rfl
      rw [hnext] at hplace ⊢
      have hforwards := h.forwards p n node b hlives hd.serves.isNode hpart
      simp only [Option.any_some, ht, Option.isNone_none, if_true]
      exact h.yields_ordinary hj hd.serves hpart hforwards hlives
        (h.yields_tour (h.tour_leads hj (hid ▸ hr) hd 0) hplace)
    | some t =>
      -- a usage node, which stands for a copy
      obtain ⟨i, hpart⟩ := hd.plays.1 (by rw [ht]; rfl)
      have hcopy : e.CopyAt c k (p.node :: p.path) i := .copy hj hr hactive hd.serves.isNode hpart
      obtain ⟨l, hl, hcorr⟩ := hj.corresponds h.erected h.reachable h.parsed
      obtain ⟨b, nodes, hi⟩ := h.erected.inner h.reachable hj hl hcorr hr hactive hd.serves.isNode hpart
      obtain ⟨n', node', hs', hid', hrelay, htour⟩ := h.tour_entry hi hcopy
      have hnext : c.next p = c.entry p.node p.path := by
        rw [FlowConfig.next, hr]
        dsimp only
        rw [ht]
        rfl
      rw [hnext] at hplace ⊢
      simp only [Option.any_some, ht, Option.isNone_some, Bool.false_eq_true, if_false, List.nil_append]
      exact h.yields_standIn hi hd.serves hcopy hs' hid' hrelay (h.yields_tour htour hplace)

end Flowing
end Engine
end Flowgraph
