import Flowgraph.Proofs.Loading
import Flowgraph.Proofs.Transparency
/-! A flow that has just been started is its flat graph. Each enabled node of the graph has a live node of its own, and
a message that one of them is handed comes to the others in the order in which the graph is walked from there. -/
namespace Flowgraph

namespace Engine
open Session (turnOf tick_turn tick_turnOf agenda_turnOf call?_turnOf)

variable {e s E : Engine} {c : FlowConfig} {k : LevelKey} {key : CallKey} {l : Level} {order : List Nat}

/-! ## Flows that have been started -/

/-- The engine in which the nodes of a flow are made, with what a start does then. -/
def launching (e : Engine) (key : CallKey) (k : LevelKey) (c : FlowConfig) : Engine :=
  (e.rewired k c none).push [.announce k, .resume key]

theorem level?_launching (key : CallKey) (c : FlowConfig) (hl : e.level? k = some l) :
    (e.launching key k c).level? k = some { l with phase := .started } := by
  change (e.modifyLevel k _).level? k = _
  rw [level?_modifyLevel, if_pos rfl, hl]
  rfl

theorem apply_eq (key : CallKey) (hl : e.level? k = some l) (ho : StartOrder.resolve l.config.nodes = .ok order) :
    e.apply key k l.config none = (e.launching key k l.config).activated k l.config order :=
  apply_of_activate (activate_ok (level?_launching key l.config hl) ho)

/-- A flow that had no nodes has been activated, from all of its configuration and to the end. -/
structure Started (e : Engine) (key : CallKey) (k : LevelKey) (l : Level) (E : Engine) : Prop where
  unbroken : e.broken = false
  level : e.level? k = some l
  outermost : l.kind.isOutermost = true
  vacant : ∀ id, e.activeKey? k id = none
  sound : ∃ order, StartOrder.validate l.config = .ok order
  works : ∃ steps, Works (.announce k :: .resume key :: e.agenda) (e.apply key k l.config none) steps E
  ended : E.agenda = .announce k :: .resume key :: e.agenda

/-- The templates of a flow whose texts name no private ids can be expanded. -/
theorem ready_of_discreet (hcount : ∀ id t, c.templates.get? id = some t → t.Countable) (hdiscreet : c.Discreet)
    (next : Nat) : Ready c.templates next := fun id t ht =>
  ⟨hcount id t ht, (hdiscreet.references id t ht).mono (Nat.zero_le next)⟩

/-- A flow that has been started is there with all its copies, as long as it is left as it is. -/
theorem Started.erected (h : Started e key k l E) (hready : Ready l.config.templates e.nextPrivate)
    (hmade : Constructs e.levels.size k E) (hs : Endures e.levels.size k E s) : s.Erected l.config k := by
  obtain ⟨order, hv⟩ := h.sound
  obtain ⟨steps, hworks⟩ := h.works
  have hlevel := level?_launching key l.config h.level
  have hvacant (id : NodeId) : (e.launching key k l.config).activeKey? k id = none := by
    have := h.vacant id
    rw [activeKey?, h.level, Option.bind_some] at this
    rw [activeKey?, hlevel]
    exact this
  rw [apply_eq key h.level (StartOrder.layered_validate hv).1] at hworks
  have hb : (e.launching key k l.config).broken = false := h.unbroken
  have hsize : (e.launching key k l.config).levels.size = e.levels.size := Array.size_modify
  have hpopulated := activation_populates hb hlevel hv hready hvacant hworks h.ended
  obtain ⟨-, hregistry, l', hl', hconfig, hkind⟩ := activation_keeps hb hlevel hv hready hworks
  rw [hsize, ← hregistry] at hpopulated
  exact hpopulated.erected hl' hconfig (hkind ▸ h.outermost) hmade hs

/-- Where all kinds make nodes that forward, all ordinary nodes do. -/
theorem Erected.forwards (h : s.Erected c k) (hkinds : ∀ r b notes, s.registry.create r = .ok (b, notes) → b.Forwards)
    {p : Place} {n : NodeKey} {node : Node} {b : Behaviour} (hn : s.LivesAt c k p n) (hnode : s.node? n = some node)
    (hpart : node.part = .ordinary b) : b.Forwards := by
  obtain ⟨j, r, hj, -, hactive⟩ := hn
  obtain ⟨node', hnode', he⟩ := h.enacted p.path j _ n hj hactive
  obtain rfl := Option.some.inj (hnode.symm.trans hnode')
  have hbacks := he.backs
  rw [hpart] at hbacks
  cases hbacks with
  | ordinary _ _ hc => exact hkinds _ _ _ hc
  | builtIn _ hb =>
    unfold builtIn? at hb
    repeat' split at hb
    all_goals cases hb

/-! ## A start by itself -/

/-- The engine in which the start of a flow applies the configuration. -/
def starting (e : Engine) (key : CallKey) (k : LevelKey) (c : FlowConfig) : Engine :=
  (((e.taken key [] []).modifyLevel k fun l => { l with failures := [] }).proceed key [.apply k c none]).taken key [] []

variable {call : Call} {stage : Stage} {rest : List Stage}

/-- A call whose turn it is takes up its next stage. -/
theorem tick_stage (hb : e.broken = false) (ha : e.agenda = [.resume key]) (hc : e.call? key = some call)
    (hw : call.waiting = []) (hs : call.stages = stage :: rest) : Tick e ((e.taken key [] rest).runStage key stage) := by
  have hresume : ({ e with agenda := [] } : Engine).act (.resume key) = (e.taken key [] rest).runStage key stage :=
    resume_stage hc hw hs
  exact hresume ▸ Tick.act hb ha

/-- A start that is accepted applies the configuration of its flow. -/
theorem reach_starting (hb : e.broken = false) (ha : e.agenda = [.resume key]) (hcall : e.call? key = some call)
    (hw : call.waiting = []) (hs : call.stages = [.start k none]) (hl : e.level? k = some l)
    (hc : checkStart l none = .ok ()) : Reach e ((e.starting key k l.config).apply key k l.config none) := by
  let begun := (e.taken key [] []).modifyLevel k fun l => { l with failures := [] }
  have htaken : begun.call? key = some { call with stages := [] } := by
    change (e.taken key [] []).call? key = _
    rw [taken, call?_modifyCall, if_pos rfl]
    exact congrArg _ hcall
  have hchecked : (e.taken key [] []).runStage key (.start k none) = begun.proceed key [.apply k l.config none] := by
    have hl' : (e.taken key [] []).level? k = some l := hl
    change (e.taken key [] []).start key k none = _
    rw [Engine.start, hl']
    dsimp only
    rw [hc]
  have hfirst := tick_stage hb ha hcall hw hs
  rw [hchecked] at hfirst
  exact (Reach.single hfirst).tail (tick_stage (e := begun.proceed key [.apply k l.config none]) hb rfl
    (call?_proceed htaken _) hw rfl)

/-- When a start by itself has come to its end, its flow is as it was when it had been activated. -/
theorem Started.endures (h : Started e key k l E) (hready : Ready l.config.templates e.nextPrivate) (hbase : e.agenda = [])
    (hcall : e.call? key = some call) (hw : call.waiting = []) (hs : call.stages = []) {fuel : Nat}
    (hend : (finishWithin fuel (e.apply key k l.config none)).agenda = []) :
    Endures e.levels.size k E (finishWithin fuel (e.apply key k l.config none)) := by
  obtain ⟨order, hv⟩ := h.sound
  obtain ⟨n, hworks⟩ := h.works
  obtain ⟨steps, hsteps⟩ := hworks.finishWithin
  have hlevel := level?_launching key l.config h.level
  rw [apply_eq key h.level (StartOrder.layered_validate hv).1] at hworks
  have hb : (e.launching key k l.config).broken = false := h.unbroken
  obtain ⟨hunbroken, -⟩ := activation_keeps hb hlevel hv hready hworks
  have hready : Ready l.config.templates ((e.launching key k l.config).environed k l.config).nextPrivate := hready
  have hregister : E.register = _ := (underway_activated hb hlevel hv).register hready hworks
  have hcalls : E.calls = e.calls := congrArg (·.1) hregister
  have hagenda : E.agenda = [.announce k, .resume key] := by rw [h.ended, hbase]
  -- the flow is announced
  let announced := ({ E with agenda := [.resume key] } : Engine).act (.announce k)
  have hstill : announced.still = E.still := (quiet_act { E with agenda := [.resume key] } (a := .announce k) rfl).still
  have hannounced : announced.agenda = [.resume key] := by
    change (Engine.announce _ k).agenda = _
    unfold Engine.announce
    split
    · rfl
    · exact agenda_publish _ _
  -- and the call ends
  have hcall' : ({ announced with agenda := [] } : Engine).call? key = some call := by
    rw [← hcall]
    exact call?_of_calls ((calls_of_still hstill).trans hcalls) key
  have hends : ({ announced with agenda := [] } : Engine).act (.resume key) = _ := resume_ends hcall' hw hs
  have hfinish (fuel : Nat) : finishWithin (2 + fuel) E = ({ announced with agenda := [] } : Engine).act (.resume key) := by
    rw [Nat.add_comm, finishWithin_succ _ hunbroken hagenda,
      finishWithin_succ _ ((broken_of_still hstill).trans hunbroken) hannounced, hends]
    exact finishWithin_idle rfl fuel
  have hsame : finishWithin fuel (e.apply key k l.config none) = ({ announced with agenda := [] } : Engine).act (.resume key) := by
    rw [← hfinish fuel, ← hsteps, Nat.add_comm 2, ← Nat.add_assoc, Nat.add_comm steps, Nat.add_assoc, finishWithin_add,
      finishWithin_idle hend]
  rw [hsame, hends]
  refine ⟨?_, fun j l' _ hl' => ?_, fun n node hn _ => ?_⟩
  · exact (congrArg Engine.registry hstill :)
  · exact (level?_of_still hstill j).trans hl'
  · exact exists_node?_of_still hstill hn

/-- Messages in a flow take the ways of its flat graph. This holds of every flow that has been started from its whole
configuration and is left as it is, when nothing else is under way and all its ordinary nodes send on what they are
handed. Each enabled node of the graph has a live node, and one of its own; an id of the flow itself is where messages
can be injected. Whatever message one of them is handed, and whatever else is still to be done, the work that comes of it
ends and leaves the flow as it is, and the ordinary nodes are handed this message one after the other as the graph is
walked: wire by wire, each to its end. -/
theorem messages_walk_flat_graph (h : Started e key k l E) (hparsed : l.config.Parsed) (hplain : l.config.Plain)
    (hdiscreet : l.config.Discreet) (hacyclic : l.config.Acyclic)
    (hcount : ∀ id t, l.config.templates.get? id = some t → t.Countable) (hmade : Constructs e.levels.size k E)
    (hs : Endures e.levels.size k E s) (hreach : Reachable s) (hcomposed : Composed s) (hkept : s.Kept k) (halone : s.Alone l.config k)
    (hforwards : ∀ p n node b, s.LivesAt l.config k p n → s.node? n = some node → node.part = .ordinary b → b.Forwards) :
    ∃ hwf : WellFounded fun q p => q ∈ l.config.next p,
      (∀ p, (∃ n, s.LivesAt l.config k p n) ↔ ∃ r, l.config.nodeAt? p = some r) ∧
      (∀ p q n n', s.LivesAt l.config k p n → s.LivesAt l.config k q n' → (p = q ↔ n = n')) ∧
      (∀ id n, s.LivesAt l.config k ⟨[], id⟩ n → s.inside? k id = some n) ∧
      ∀ p n m base, s.LivesAt l.config k p n → s.agenda = .hand n m :: base →
        ∃ given s', Hands base s given s' ∧
          (∀ given' s'', Hands base s given' s'' → given' = given ∧ s'' = s') ∧ s'.still = s.still ∧
          List.Forall₂ (s.ComesTo l.config k m) (l.config.walk hwf p) (s.inputs given) := by
  have herected := h.erected (ready_of_discreet hcount hdiscreet _) hmade hs
  have hflowing : s.Flowing l.config k := ⟨hreach, hcomposed, hkept, herected, hparsed, hplain, hdiscreet, halone, hforwards⟩
  obtain ⟨order, hv⟩ := h.sound
  have hwf := hacyclic.wellFounded hv
  refine ⟨hwf, herected.livesAt_iff hreach hparsed hplain, fun p q n n' hp hq => ⟨?_, ?_⟩, fun id n hn => ?_,
    fun p n m base hp ha => ?_⟩
  · rintro rfl
    exact hq.eq hp
  · rintro rfl
    exact hp.unique herected hreach hparsed hq
  · obtain ⟨j, r, hj, -, hactive⟩ := hn
    cases hj
    obtain ⟨l', hl', -, hk⟩ := herected.config
    rw [nameAt_of_none (binding?_of_outermost hl' hk)] at hactive
    exact inside?_of_active hactive
  · obtain ⟨j, r, hj, hr, hn⟩ := hp
    obtain ⟨node, hd⟩ := hj.dwells_of_active herected hreach hparsed hplain hr hn
    obtain ⟨given, s', hhands, hall⟩ := hflowing.yields_walk hwf hj hr hd s base rfl ha
    exact ⟨given, s', hhands, fun _ _ h' => hhands.unique h', hhands.still.1, hall⟩

end Engine

namespace Session
open Engine

/-- A kind whose nodes forward what they are handed. -/
def forwarding : Registry :=
  [("pass", ⟨.unspecified, fun _ => .made (.plain "pass" fun _ m => .forward 0 m) []⟩)]

theorem create_forwarding {r : Record} {b : Behaviour} {notes : List Note} (h : forwarding.create r = .ok (b, notes)) :
    b = .plain "pass" fun _ m => .forward 0 m := by
  unfold Registry.create forwarding at h
  rw [Dict.get?_cons] at h
  split at h
  · cases h
  · rename_i kind hkind
    split at hkind
    · cases hkind
      cases h
      rfl
    · cases hkind

/-- A tab with a usage node between two nodes, and a disabled one. The template of the usage node also passes on straight
what it is sent, and has a usage node of its own inside. -/
def relayedRecords : List Json := [
  .obj [("id", .str "t"), ("type", .str "tab")],
  .obj [("id", .str "a"), ("type", .str "pass"), ("wires", .arr [.arr [.str "u", .str "d"]]), ("z", .str "t")],
  .obj [("d", .bool true), ("id", .str "d"), ("type", .str "pass"), ("wires", .arr [.arr [.str "z"]]), ("z", .str "t")],
  .obj [("id", .str "u"), ("type", .str "subflow:s"), ("wires", .arr [.arr [.str "z"]]), ("z", .str "t")],
  .obj [("id", .str "z"), ("type", .str "pass"), ("wires", .arr []), ("z", .str "t")],
  .obj [("id", .str "s"), ("in", .arr [.obj [("wires", .arr [.obj [("id", .str "p")]])]]),
    ("out", .arr [.obj [("wires", .arr [.obj [("id", .str "v"), ("port", .nat 0)], .obj [("id", .str "s")]])]]),
    ("type", .str "subflow")],
  .obj [("id", .str "p"), ("type", .str "pass"), ("wires", .arr [.arr [.str "v"]]), ("z", .str "s")],
  .obj [("id", .str "v"), ("type", .str "subflow:q"), ("wires", .arr []), ("z", .str "s")],
  .obj [("id", .str "q"), ("in", .arr [.obj [("wires", .arr [.obj [("id", .str "x")]])]]),
    ("out", .arr [.obj [("wires", .arr [.obj [("id", .str "x"), ("port", .nat 0)]])]]), ("type", .str "subflow")],
  .obj [("id", .str "x"), ("type", .str "pass"), ("wires", .arr []), ("z", .str "q")]]

def relayedTab : FlowConfig := firstTab relayedRecords

/-- The copies in the flat graph of the tab. -/
def relayedPaths : List (List NodeId) := [[], ["u"], ["v", "u"]]

/-- The places of the flat graph, with those to which wires lead behind those from which they come. -/
def relayedPlaces : List Place := [⟨[], "a"⟩, ⟨[], "u"⟩, ⟨["u"], "p"⟩, ⟨["u"], "v"⟩, ⟨["v", "u"], "x"⟩, ⟨[], "z"⟩]

def relayedRank (p : Place) : Nat := relayedPlaces.length - relayedPlaces.idxOf p

def Short (id : NodeId) : Prop := id.toList.length < 20

theorem Short.ne_privateId {id : NodeId} (h : Short id) (n : Nat) : id ≠ privateId n := by
  rintro rfl
  exact absurd (twenty_le_length_privateId n) (Nat.not_le_of_lt h)

instance (id : NodeId) : Decidable (Short id) := inferInstanceAs (Decidable (_ < _))

/-- What the records of the tab and its templates are. -/
theorem relayedTab_checks : ((Deployment.parse relayedRecords).isOk = true ∧ (StartOrder.validate relayedTab).isOk = true ∧
      (relayedTab.nodeAt? ⟨[], "a"⟩).isSome = true) ∧
    (∀ path ∈ relayedPaths, ∀ r ∈ relayedTab.nodesAt path,
      (r.disabled = false → (relayedTab.templateOf? r).isSome = true → r.id :: path ∈ relayedPaths) ∧
      ((r.templateId?).all fun id => (relayedTab.templates.get? id).isSome) = true ∧ isReceiverType r.type = false ∧
      isInternalType r.type = false ∧ Short r.id ∧
      (∀ port ∈ r.outputs, ∀ x ∈ port, Short x ∧ x ∈ (relayedTab.nodesAt path).map (·.id)) ∧
      ∀ q ∈ relayedTab.next ⟨path, r.id⟩, relayedRank q < relayedRank ⟨path, r.id⟩) ∧
    ∀ t ∈ relayedTab.templates.values, (∀ w ∈ t.entries, Short w.node ∧ w.node ∈ t.nodes.map (·.id)) ∧
      (∀ port ∈ t.outputs, ∀ w ∈ port.wires, Short w.node ∧ w.port + 1 < Nat.pow 2 64) ∧ t.status = none ∧
      t.complete = none ∧ ∀ r ∈ t.nodes, (∀ port ∈ r.outputs, ∀ x ∈ port, Short x) ∧ ∀ s ∈ r.references, Short s := by
  decide +kernel

theorem mem_behind {r : Record} {port : Nat} {x : NodeId} (h : x ∈ r.behind port) : ∃ ids ∈ r.outputs, x ∈ ids := by
  unfold Record.behind at h
  cases hids : r.outputs[port]? with
  | none =>
    rw [hids] at h
    cases h
  | some ids =>
    rw [hids] at h
    exact ⟨ids, List.mem_of_getElem? hids, h⟩

theorem mem_relayedPaths {path : List NodeId} {r : Record} (h : r ∈ relayedTab.nodesAt path) : path ∈ relayedPaths :=
  FlowConfig.mem_paths (by decide) (fun path hp r hr => (relayedTab_checks.2.1 path hp r hr).1) h

theorem plain_relayedTab : relayedTab.Plain := by
  have hchecks := relayedTab_checks.2.1
  have hnode {p : Place} {r : Record} (hr : relayedTab.nodeAt? p = some r) : r ∈ relayedTab.nodesAt p.path :=
    (FlowConfig.enabled?_eq_some hr).1
  refine ⟨fun p r id hr hid => ?_, fun p r hr => ?_, fun p r hr => ?_, fun q hq => .inl ?_⟩
  · obtain ⟨-, htemplate, -⟩ := hchecks _ (mem_relayedPaths (hnode hr)) r (hnode hr)
    rw [hid] at htemplate
    exact Option.isSome_iff_exists.mp htemplate
  · exact (hchecks _ (mem_relayedPaths (hnode hr)) r (hnode hr)).2.2.1
  · exact (hchecks _ (mem_relayedPaths (hnode hr)) r (hnode hr)).2.2.2.1
  · cases hq with
    | wire hr hx =>
      obtain ⟨ids, hids, hx⟩ := mem_behind hx
      exact ((hchecks _ (mem_relayedPaths (hnode hr)) _ (hnode hr)).2.2.2.2.2.1 ids hids _ hx).2
    | entry ht hw =>
      rw [FlowConfig.nodesAt_of_templateAt? ht]
      obtain ⟨_, id, -, -, hget⟩ := FlowConfig.templateAt?_eq_some.mp ht
      exact ((relayedTab_checks.2.2 _ (Dict.mem_values hget)).1 _ hw).2

theorem discreet_relayedTab : relayedTab.Discreet := by
  obtain ⟨-, hnodes, htemplates⟩ := relayedTab_checks
  refine ⟨fun r hr => ?_, fun q hq => ?_, fun id t ht => ?_, fun id t ht r hr s hs n _ => ?_⟩
  · exact ((hnodes [] (by decide) r hr).2.2.2.2.1).ne_privateId
  · cases hq with
    | wire hr hx =>
      obtain ⟨ids, hids, hx⟩ := mem_behind hx
      have hmem := (FlowConfig.enabled?_eq_some hr).1
      exact ((hnodes _ (mem_relayedPaths hmem) _ hmem).2.2.2.2.2.1 ids hids _ hx).1.ne_privateId
    | entry ht hw =>
      obtain ⟨_, id, -, -, hget⟩ := FlowConfig.templateAt?_eq_some.mp ht
      exact ((htemplates _ (Dict.mem_values hget)).1 _ hw).1.ne_privateId
  · obtain ⟨hentries, houtputs, -, -, hrecords⟩ := htemplates t (Dict.mem_values ht)
    refine ⟨fun r hr port x hx n _ => ?_, fun w hw n _ => (hentries w hw).1.ne_privateId n,
      fun port hp w hw n _ => (houtputs port hp w hw).1.ne_privateId n⟩
    obtain ⟨ids, hids, hx⟩ := mem_behind hx
    exact ((hrecords r hr).1 ids hids x hx).ne_privateId n
  · exact ((htemplates t (Dict.mem_values ht)).2.2.2.2 r hr |>.2 s hs).ne_privateId n

theorem countable_relayedTab (id : String) (t : Template) (ht : relayedTab.templates.get? id = some t) : t.Countable := by
  obtain ⟨-, houtputs, hstatus, hcomplete, -⟩ := relayedTab_checks.2.2 t (Dict.mem_values ht)
  exact ⟨fun port hp w hw => (houtputs port hp w hw).2, by simp [hstatus], by simp [hcomplete]⟩

theorem acyclic_relayedTab : relayedTab.Acyclic := by
  refine FlowConfig.acyclic_of_rank relayedRank fun p q hq => ?_
  cases hr : relayedTab.nodeAt? p with
  | none =>
    rw [FlowConfig.next_of_none hr] at hq
    cases hq
  | some r =>
    obtain ⟨path, id⟩ := p
    obtain ⟨hmem, -, rfl⟩ := FlowConfig.enabled?_eq_some hr
    exact (relayedTab_checks.2.1 path (mem_relayedPaths hmem) r hmem).2.2.2.2.2.2 q hq

/-- Where the places of the tab lead, and which of them are those of ordinary nodes. -/
theorem relayedTab_next : (relayedPlaces ++ [(⟨[], "d"⟩ : Place)]).map (fun p => (relayedTab.isOrdinary p, relayedTab.next p)) =
    [(true, [⟨[], "u"⟩, ⟨[], "d"⟩]), (false, [⟨["u"], "p"⟩, ⟨[], "z"⟩]), (true, [⟨["u"], "v"⟩]),
      (false, [⟨["v", "u"], "x"⟩]), (true, [⟨[], "z"⟩]), (true, []), (false, [])] := by decide +kernel

/-- The walk goes through both copies, and then passes on straight what was sent to the outer one. -/
theorem walk_relayedTab (h : WellFounded fun q p => q ∈ relayedTab.next p) : relayedTab.walk h ⟨[], "a"⟩ =
    [⟨[], "a"⟩, ⟨["u"], "p"⟩, ⟨["v", "u"], "x"⟩, ⟨[], "z"⟩, ⟨[], "z"⟩] := by
  have hnext := relayedTab_next
  simp only [relayedPlaces, List.map_cons, List.cons_append, List.nil_append, List.map_nil, List.cons.injEq, Prod.mk.injEq] at hnext
  obtain ⟨⟨oa, na⟩, ⟨ou, nu⟩, ⟨op, np⟩, ⟨ov, nv⟩, ⟨ox, nx⟩, ⟨oz, nz⟩, ⟨od, nd⟩, -⟩ := hnext
  have walk_to {p : Place} {own : Bool} {qs : List Place} (ho : relayedTab.isOrdinary p = own) (hn : relayedTab.next p = qs) :
      relayedTab.walk h p = (if own then [p] else []) ++ qs.flatMap (relayedTab.walk h) := by
    rw [FlowConfig.walk_eq, ho, hn]
  have wz : relayedTab.walk h ⟨[], "z"⟩ = [⟨[], "z"⟩] := walk_to oz nz
  have wd : relayedTab.walk h ⟨[], "d"⟩ = [] := walk_to od nd
  simp [walk_to oa na, walk_to ou nu, walk_to op np, walk_to ov nv, walk_to ox nx, wz, wd]

def relayedEngine : Engine :=
  { ((Engine.make forwarding .standalone [] [] 500).addLevel (.make .tab none relayedTab)).1 with keptLevels := [0] }

/-- The tab is about to be started. -/
def relayedTurn : Engine := turnOf (relayedEngine.begin [.start 0 none]).1 0

def relayedStart : Engine := relayedTurn.starting 0 0 relayedTab

/-- The tab has been started. -/
def relayedFlow : Engine := Engine.finishWithin 40 (relayedStart.apply 0 0 relayedTab none)

/-- A message is about to be handed to the first node. -/
def relayedHand : Engine := relayedFlow.push [.hand 0 ⟨[("payload", .str "hello")]⟩]

theorem relayedHand_run : (relayedHand.broken = false ∧ relayedHand.plan.isEmpty = true ∧
      relayedHand.calls.all (fun entry => entry.2.waiting.isEmpty) = true ∧ relayedHand.keptLevels.contains 0 = true ∧
      relayedHand.outside = .standalone) ∧
    (relayedFlow.agenda.isEmpty = true ∧ relayedFlow.levels.toList.all (fun l => l.failures.isEmpty) = true) ∧
    relayedHand.activeKey? 0 "a" = some 0 ∧ relayedHand.binding? 0 = none := by decide +kernel

theorem sound_relayedTab : ∃ order, StartOrder.validate relayedTab = .ok order := by
  have hok := relayedTab_checks.1.2.1
  cases hv : StartOrder.validate relayedTab with
  | error fault =>
    rw [hv] at hok
    cases hok
  | ok order => exact ⟨order, rfl⟩

theorem reachable_relayedFlow : Reachable relayedFlow := by
  have hmade : Reachable ((Engine.make forwarding .standalone [] [] 500).addLevel (.make .tab none relayedTab)).1 :=
    (Reachable.make _ _ _ _ _).input rfl (.flow (.inl rfl) (parsed_firstTab relayedTab_checks.1.1))
  have hengine : Reachable relayedEngine := hmade.input rfl (.keep [0] [])
  have hturn : Reachable relayedTurn := (hengine.input rfl (.call (.start 0 none))).tick (tick_turn rfl rfl (ready_begin _ _))
  have hcheck : checkStart (.make .tab none relayedTab) none = .ok () :=
    checkStart_ok sound_relayedTab (by decide) fun _ => rfl
  have hstart := reach_starting (e := relayedTurn) (l := .make .tab none relayedTab) rfl rfl rfl rfl rfl rfl hcheck
  exact (hturn.reach hstart).reach (reach_finishWithin _ _)

theorem ready_relayedTab : Ready relayedTab.templates relayedStart.nextPrivate :=
  ready_of_discreet countable_relayedTab discreet_relayedTab _

/-- The activation of the tab comes to its end, and all nodes can be made. -/
theorem started_relayedTab : ∃ E, Started relayedStart 0 0 (.make .tab none relayedTab) E ∧
    Constructs relayedStart.levels.size 0 E ∧ E.registry = forwarding ∧ Endures relayedStart.levels.size 0 E relayedFlow := by
  obtain ⟨⟨-, -⟩, ⟨hidle, hfailures⟩, -⟩ := relayedHand_run
  obtain ⟨order, hv⟩ := sound_relayedTab
  have hl : relayedStart.level? 0 = some (.make .tab none relayedTab) := rfl
  have hlaunching := level?_launching 0 relayedTab hl
  have hkinds : (relayedStart.launching 0 0 relayedTab).registry.Idle := fun r b notes h => by rw [create_forwarding h]; rfl
  have hb : (relayedStart.launching 0 0 relayedTab).broken = false := rfl
  obtain ⟨steps, E, hworks, hend⟩ := activation_ends hb hlaunching hv ready_relayedTab hkinds
  obtain ⟨-, hregistry, -⟩ := activation_keeps hb hlaunching hv ready_relayedTab hworks
  have happly := apply_eq 0 hl (StartOrder.layered_validate hv).1
  have hstarted : Started relayedStart 0 0 (.make .tab none relayedTab) E :=
    ⟨rfl, hl, rfl, fun _ => rfl, ⟨order, hv⟩, ⟨steps, happly ▸ hworks⟩, hend⟩
  have hended : (Engine.finishWithin 40 (relayedStart.apply 0 0 relayedTab none)).agenda = [] := List.isEmpty_iff.mp hidle
  have hendures := hstarted.endures ready_relayedTab rfl rfl rfl rfl hended
  refine ⟨E, hstarted, fun j l hj hl r _ _ _ => ?_, hregistry, hendures⟩
  have hmem : l ∈ relayedFlow.levels.toList := Array.mem_toList_iff.mpr (Array.mem_of_getElem? (hendures.levels j l hj hl))
  rw [List.isEmpty_iff.mp (List.all_eq_true.mp hfailures l hmem)]
  rfl

/-- A message goes through both copies and around them, and past the disabled node. -/
theorem message_walks_nested_copies : Reachable relayedHand ∧ ∃ given s', Hands [] relayedHand given s' ∧
    List.Forall₂ (relayedHand.ComesTo relayedTab 0 ⟨[("payload", .str "hello")]⟩)
      [⟨[], "a"⟩, ⟨["u"], "p"⟩, ⟨["v", "u"], "x"⟩, ⟨[], "z"⟩, ⟨[], "z"⟩] (relayedHand.inputs given) := by
  obtain ⟨⟨hb, hplan, hcalls, hkept, houtside⟩, ⟨hidle, -⟩, hactive, hbinding⟩ := relayedHand_run
  obtain ⟨E, hstarted, hmade, hregistered, hendures⟩ := started_relayedTab
  have hidle : relayedFlow.agenda = [] := List.isEmpty_iff.mp hidle
  have hpush : Quiet relayedFlow relayedHand := .push _ _ (by simp [Action.isQuiet])
  have hreach : Reachable relayedHand := reachable_relayedFlow.input hidle (.quiet hpush)
  have hcomposed : Composed relayedHand := ⟨hb, List.isEmpty_iff.mp hplan, fun key c hc =>
    List.isEmpty_iff.mp (List.all_eq_true.mp hcalls _ (mem_calls_of_call? hc))⟩
  have hs : Endures relayedStart.levels.size 0 E relayedHand := hendures.still hpush.still
  have halone : relayedHand.Alone relayedTab 0 := fun hshared => by cases houtside.symm.trans hshared
  have hregistry : relayedHand.registry = forwarding := hs.registry.trans hregistered
  have hforwards (p : Place) (n : NodeKey) (node : Node) (b : Behaviour) (hn : relayedHand.LivesAt relayedTab 0 p n)
      (hnode : relayedHand.node? n = some node) (hpart : node.part = .ordinary b) : b.Forwards := by
    refine (hstarted.erected ready_relayedTab hmade hs).forwards (fun r b notes h => ?_) hn hnode hpart
    rw [hregistry] at h
    rw [create_forwarding h]
    exact fun _ _ => ⟨rfl, [], [], rfl, fun _ hm => absurd hm List.not_mem_nil⟩
  obtain ⟨hwf, -, -, -, hwalk⟩ := messages_walk_flat_graph hstarted (parsed_firstTab relayedTab_checks.1.1) plain_relayedTab
    discreet_relayedTab acyclic_relayedTab countable_relayedTab hmade hs hreach hcomposed (.inl hkept) halone hforwards
  have hlives : relayedHand.LivesAt relayedTab 0 ⟨[], "a"⟩ 0 := by
    have hnode : (relayedTab.nodeAt? ⟨[], "a"⟩).isSome = true := relayedTab_checks.1.2.2
    obtain ⟨r, hr⟩ := Option.isSome_iff_exists.mp hnode
    exact ⟨0, r, .flow, hr, by rw [nameAt_of_none hbinding]; exact hactive⟩
  have hagenda : relayedHand.agenda = [.hand 0 ⟨[("payload", .str "hello")]⟩] := by
    change _ ++ relayedFlow.agenda = _
    rw [hidle]
    rfl
  obtain ⟨given, s', hhands, -, -, hall⟩ := hwalk _ _ _ _ hlives hagenda
  exact ⟨hreach, given, s', hhands, walk_relayedTab hwf ▸ hall⟩

end Session
end Flowgraph
