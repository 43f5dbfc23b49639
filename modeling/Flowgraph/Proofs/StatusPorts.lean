import Flowgraph.Proofs.Serving
import Flowgraph.Proofs.Signals
/-! Statuses that leave instances through status ports. Each level outward the status is that of the usage node, whose
own receiver gets it, once, until it comes to the tab. -/
namespace Flowgraph

/-! ## A status as a message -/

/-- The fields of a status as a message holds them. -/
def statusFields (origin : Origin) (status : Status) : Dict Json :=
  Dict.ofList (status.fields ++ [("source", origin.toJson)])

theorem get?_statusFields (origin : Origin) (status : Status) :
    (statusFields origin status).get? "fill" = status.fill.map .str ∧
    (statusFields origin status).get? "shape" = status.shape.map .str ∧
    (statusFields origin status).get? "text" = status.text.map .str ∧
    (statusFields origin status).get? "source" = some origin.toJson := by
  have hnodup : ((status.fields ++ [("source", origin.toJson)]).map (·.1)).Nodup := by
    rcases status with ⟨_ | fill, _ | shape, _ | text⟩ <;> simp [Status.fields]
  refine ⟨?_, ?_, ?_, ?_⟩ <;>
    (rw [statusFields, Dict.get?_ofList hnodup]
     rcases status with ⟨_ | fill, _ | shape, _ | text⟩ <;> simp [Status.fields])

theorem get?_statusMessage (fresh : String) (origin : Origin) (status : Status) :
    (statusMessage fresh origin status).get? "status" = some (.obj (statusFields origin status)) := by
  rw [statusMessage, Message.get?, Message.insert, Dict.get?_insert, if_pos rfl]
  rfl

/-- What a message says of a status can be read from it. -/
theorem ofMessage_statusMessage (fresh : String) (origin : Origin) (status : Status) :
    Status.ofMessage (statusMessage fresh origin status) = status := by
  obtain ⟨hfill, hshape, htext, -⟩ := get?_statusFields origin status
  have hread : Status.ofJson? (.obj (statusFields origin status)) = some status := by
    unfold Status.ofJson?
    simp only [Json.members?, List.map_cons, List.map_nil, hfill, hshape, htext]
    rcases status with ⟨_ | fill, _ | shape, _ | text⟩ <;> rfl
  rw [Status.ofMessage, get?_statusMessage, Option.bind_some, hread]

/-- A message that tells of the status of a node. -/
def Reports (origin : Origin) (status : Status) (m : Message) : Prop := ∃ fresh, m = statusMessage fresh origin status

theorem Reports.ofMessage {origin : Origin} {status : Status} {m : Message} (h : Reports origin status m) :
    Status.ofMessage m = status := by
  obtain ⟨fresh, rfl⟩ := h
  exact ofMessage_statusMessage fresh origin status

/-- The node that a message names as the source of its status. -/
def SourceOf (m : Message) (origin : Origin) : Prop :=
  ∃ fields : Dict Json, m.get? "status" = some (.obj fields) ∧ fields.get? "source" = some origin.toJson

theorem sourceOf_statusMessage (fresh : String) (origin : Origin) (status : Status) :
    SourceOf (statusMessage fresh origin status) origin :=
  ⟨_, get?_statusMessage fresh origin status, (get?_statusFields origin status).2.2.2⟩

namespace Engine

variable {e e' s s' : Engine} {f k p : LevelKey} {n : NodeKey} {node : Node} {o : Origin} {status : Status} {m : Message}
  {id : NodeId} {l : Level} {b : Binding} {base : List Action} {others : Action → Prop}
  {P : List (NodeKey × Message) → Prop}

/-! ## Nodes that pass messages on -/

/-- A receiver that is handed a message sends it over its wires. -/
theorem hands_relay (hb : e.broken = false) (hn : e.Serves k n node) (hpart : node.part = .relay)
    (hlast : ∀ s : Engine, s.still = e.still → s.hasLevel k = true) (hs : s.still = e.still)
    (ha : s.agenda = .handAt k node.id m :: base)
    (hnext : ∀ s : Engine, s.still = e.still → s.agenda = ((outlets node 0).map fun id => .deliver k id m) ++ base →
      ∃ given s' list, Hands base s given s' ∧ P list ∧ Amid (Aside e others) list given) :
    ∃ given s' list, Hands base s given s' ∧ P list ∧ Amid (Aside e others) ((n, m) :: list) given := by
  have hbroken {s : Engine} (hs : s.still = e.still) : s.broken = false := (broken_of_still hs).trans hb
  -- The message is handed to the receiver,
  let s₁ : Engine := ({ s with agenda := base } : Engine).push [.hand n m]
  have hs₁ : s₁.still = e.still := hs
  have h₁ : ({ s with agenda := base } : Engine).act (.handAt k node.id m) = s₁ := by
    obtain ⟨node', hn', hid, -⟩ := hn.still (s := { s with agenda := base }) hs
    change ({ s with agenda := base } : Engine).handAt k node.id m = s₁
    rw [handAt, ← hid, hn'.active]
  -- which sends it,
  let s₂ : Engine := ({ s₁ with agenda := base } : Engine).push [.effect n (.send 0 m)]
  have hs₂ : s₂.still = e.still := hs
  have h₂ : ({ s₁ with agenda := base } : Engine).act (.hand n m) = s₂ := by
    obtain ⟨node', hn', -, hpart', -⟩ := hn.still (s := { s₁ with agenda := base }) hs
    change ({ s₁ with agenda := base } : Engine).hand n m = s₂
    rw [hand, hn'.isNode]
    dsimp only
    rw [hn'.awake, hpart', hpart]
    rfl
  -- over each of its wires.
  let s₃ : Engine := ({ s₂ with agenda := base } : Engine).push ((outlets node 0).map fun id => .deliver k id m)
  have hs₃ : s₃.still = e.still := hs
  have h₃ : ({ s₂ with agenda := base } : Engine).act (.effect n (.send 0 m)) = s₃ := by
    obtain ⟨node', hn', -, -, hd⟩ := hn.still (s := { s₂ with agenda := base }) hs
    change ({ s₂ with agenda := base } : Engine).perform n (.send 0 m) = s₃
    rw [perform, hn'.isNode]
    dsimp only
    rw [hn'.level, if_pos (hlast { s₂ with agenda := base } hs), sendFrom, hd, hn'.level]
    simp [s₃, outlets, Function.comp_def]
  obtain ⟨given, s', list, hh, hmain, ham⟩ := hnext s₃ hs₃ rfl
  have hsend : Hands base s₂ given s' := .first (hbroken hs₂) rfl rfl (h₃ ▸ hh)
  have hhand : Hands base s₁ ((n, m) :: given) s' := by
    obtain ⟨node', hn', -⟩ := hn.still hs₁
    have h : Hands base s₁ (s₁.handed (.hand n m) ++ given) s' := .first (hbroken hs₁) rfl rfl (h₂ ▸ hsend)
    rwa [hn'.handed m] at h
  exact ⟨_, s', list, .first (hbroken hs) ha rfl (h₁ ▸ hhand), hmain, .main _ ham⟩

/-- What a sink of statuses is handed is a status of the usage node. -/
theorem hands_sink (hb : e.broken = false) (hn : e.Serves k n node) (hpart : node.part = .sink .status)
    (hlast : ∀ s : Engine, s.still = e.still → s.hasLevel k = true ∧ s.hasLevel p = true) (hbinding : e.binding? k = some b)
    (hparent : (e.level? k).bind (·.parent) = some p) (hm : Status.ofMessage m = status) (hs : s.still = e.still)
    (ha : s.agenda = .deliver k node.id m :: base)
    (hnext : ∀ s : Engine, s.still = e.still → s.agenda = base → ∃ given s' list,
      Hands base (s.raise p (.ofRecord b.usage) (.status status)).1 given s' ∧ P list ∧
        Amid (Aside e others) list given) :
    ∃ given s' list, Hands base s given s' ∧ P list ∧ Amid (Aside e others) ((n, m) :: list) given := by
  have hbroken {s : Engine} (hs : s.still = e.still) : s.broken = false := (broken_of_still hs).trans hb
  -- The message is handed to the sink,
  let s₁ : Engine := ({ s with agenda := base } : Engine).push [.hand n m]
  have hs₁ : s₁.still = e.still := hs
  have h₁ : ({ s with agenda := base } : Engine).act (.deliver k node.id m) = s₁ := by
    obtain ⟨node', hn', hid, -⟩ := hn.still (s := { s with agenda := base }) hs
    change ({ s with agenda := base } : Engine).deliver k node.id m = s₁
    rw [deliver, ← hid, outward?_of_active hn'.active]
  -- which raises it around the instance.
  let s₂ : Engine := { s₁ with agenda := base }
  have hs₂ : s₂.still = e.still := hs
  obtain ⟨around, haround⟩ := level?_of_hasLevel (hlast s₂ hs₂).2
  let s₃ : Engine := s₂.publish (.nodeStatus around.id b.usage.id status)
  have hs₃ : s₃.still = e.still := (quiet_publish _ _).still.trans hs₂
  have h₂ : s₂.act (.hand n m) = (s₃.raise p (.ofRecord b.usage) (.status status)).1 := by
    obtain ⟨node', hn', -, hpart', -⟩ := hn.still hs₂
    have hbinding' : s₂.binding? k = some b := (binding?_of_still hs₂ k).trans hbinding
    have hparent' : s₂.enclosing? k = some p := by
      rw [enclosing?, level?_of_still hs₂, hparent, Option.filter_some, if_pos (hlast s₂ hs₂).2]
    change s₂.hand n m = _
    rw [hand, hn'.isNode]
    dsimp only
    rw [hn'.awake, hpart', hpart, hn'.level]
    simp only [Bool.false_eq_true, if_false]
    rw [if_pos (hlast s₂ hs₂).1, reportPort, hbinding', hparent']
    dsimp only
    rw [haround]
    dsimp only
    rw [hm]
    rfl
  have hagenda : s₃.agenda = base := agenda_publish s₂ _
  obtain ⟨given, s', list, hh, hmain, ham⟩ := hnext s₃ hs₃ hagenda
  have hhand : Hands base s₁ ((n, m) :: given) s' := by
    obtain ⟨node', hn', -⟩ := hn.still hs₁
    have h : Hands base s₁ (s₁.handed (.hand n m) ++ given) s' := .first (hbroken hs₁) rfl rfl (h₂.symm ▸ hh)
    rwa [hn'.handed m] at h
  exact ⟨_, s', list, .first (hbroken hs) ha rfl (h₁ ▸ hhand), hmain, .main _ ham⟩

/-! ## Who gets a status -/

/-- An active receiver of statuses of a level, which hears of what is reported under an id. -/
def HearsOf (e : Engine) (k : LevelKey) (n : NodeKey) (id : NodeId) : Prop :=
  ∃ node, e.Serves k n node ∧ node.record.type = statusType ∧ (Receiver.ofRecord node.record).hears id = true

theorem HearsOf.relay (h : Reachable e) (hn : e.HearsOf k n id) :
    ∃ node, e.Serves k n node ∧ node.part = .relay := by
  obtain ⟨node, hs, htype, -⟩ := hn
  exact ⟨node, hs, h.parted.nodes n node .relay hs.isNode (by rw [htype]; rfl)⟩

/-- With no start and no stop under way, it is among those whom its level selects. -/
theorem HearsOf.selected (h : Reachable e) (hq : Composed e) (hl : e.level? k = some l) (hn : e.HearsOf k n id) :
    ∃ node, e.Serves k n node ∧ node.id ∈ l.receivers.statusTargets id := by
  obtain ⟨node, hs, htype, hhears⟩ := hn
  refine ⟨node, hs, ?_⟩
  have hactive : l.active.get? node.id = some n := by
    have := hs.active
    rwa [activeKey?, hl, Option.bind_some] at this
  have hmem : node.record ∈ e.receiverRecords l := by
    refine mem_receiverRecords.mpr ⟨n, Dict.mem_values hactive, by rw [hs.isNode]; rfl, ?_⟩
    rw [htype]
    rfl
  rw [h.table_eq hq hl]
  refine List.mem_map.mpr ⟨.ofRecord node.record, List.mem_filter.mpr ⟨?_, hhears⟩, rfl⟩
  exact List.mem_map_of_mem (List.mem_filter.mpr ⟨hmem, by simp [htype]⟩)

/-- A level that has receivers for a status hands it to one after the other. -/
theorem raise_selected (hlaid : Laid s) (hl : s.level? k = some l) (hid : id ∈ l.receivers.statusTargets o.id)
    (status : Status) : ∃ before m after, Reports o status m ∧
      (s.raise k o (.status status)).1.agenda = before ++ .handAt k id m :: after ++ s.agenda ∧
      ∀ a ∈ before ++ after, ∃ id' m', a = .handAt k id' m' ∧ id' ∈ (l.receivers.statusTargets o.id).erase id ∧
        Reports o status m' := by
  have hroute : s.route k o (.status status) = .taken k (l.receivers.statusTargets o.id) :=
    Comes.here.route_taken hlaid hl hl (List.ne_nil_of_mem hid)
  obtain ⟨ids, ids', -, heq, herase⟩ := List.exists_erase_eq hid
  let hand (entry : NodeId × Nat) : Action :=
    .handAt k entry.1 (statusMessage (Message.idText (s.nextMessage + entry.2)) o status)
  have hother {entries : List (NodeId × Nat)} (hin : ∀ entry ∈ entries, entry.1 ∈ ids ++ ids') :
      ∀ a ∈ entries.map hand, ∃ id' m', a = .handAt k id' m' ∧ id' ∈ (l.receivers.statusTargets o.id).erase id ∧
        Reports o status m' := by
    intro a ha
    obtain ⟨entry, hentry, rfl⟩ := List.mem_map.mp ha
    exact ⟨entry.1, _, rfl, herase ▸ hin entry hentry, _, rfl⟩
  refine ⟨ids.zipIdx.map hand, _, (ids'.zipIdx (ids.length + 1)).map hand,
    ⟨Message.idText (s.nextMessage + ids.length), rfl⟩, ?_, fun a ha => ?_⟩
  · rw [raise_of_taken rfl hroute, heq]
    change (ids ++ id :: ids').zipIdx.map hand ++ s.agenda = _
    rw [List.zipIdx_append, List.map_append, List.zipIdx_cons, List.map_cons, Nat.zero_add]
  · rcases List.mem_append.mp ha with ha | ha
    · exact hother (fun entry he => List.mem_append_left _ (List.fst_mem_of_mem_zipIdx he)) a ha
    · exact hother (fun entry he => List.mem_append_right _ (List.fst_mem_of_mem_zipIdx he)) a ha

/-! ## Chains of status ports -/

/-- One instance on the way of a status outward. -/
structure Hop where
  binding : Binding
  /-- The receiver's id in the template. -/
  inner : NodeId
  receiver : NodeKey
  sinkId : NodeId
  sink : NodeKey

/-- The usage node of the instance, as the source of statuses. -/
def Hop.origin (hop : Hop) : Origin := .ofRecord hop.binding.usage

/-- The template of an instance wires one receiver of statuses, which has no scope, to its status port. Receiver and
sink are active in the instance. -/
structure Ported (e : Engine) (k p : LevelKey) (hop : Hop) : Prop where
  binding : e.binding? k = some hop.binding
  inst : e.instance? p hop.binding.usage.id = some k
  port : hop.binding.template.status = some ⟨[⟨hop.inner, 0⟩]⟩
  inner : ∃ r ∈ hop.binding.template.nodes, r.id = hop.inner ∧ r.type = statusType
  receiver : e.activeKey? k (hop.binding.rename hop.inner) = some hop.receiver
  unscoped : ∀ node, e.node? hop.receiver = some node → (Receiver.ofRecord node.record).scope = none
  sinkId : hop.binding.statusSink = some hop.sinkId
  sink : e.activeKey? k hop.sinkId = some hop.sink

/-- Instances inside each other, outward to a level where a receiver hears of the status of the outermost usage node. -/
inductive Carries (e : Engine) (f : LevelKey) (n : NodeKey) : LevelKey → Origin → List Hop → Prop
  | here {o : Origin} (h : e.HearsOf f n o.id) : Carries e f n f o []
  | out {k p : LevelKey} {o : Origin} {hop : Hop} {hops : List Hop} (hp : e.Ported k p hop)
      (h : Carries e f n p hop.origin hops) : Carries e f n k o (hop :: hops)

/-- What receivers and sinks on the way of a status are handed: each one message, and each level one whose source is
the usage node inside it. -/
inductive Passed (status : Status) (n : NodeKey) : Origin → List Hop → List (NodeKey × Message) → Prop
  | here {o : Origin} {m : Message} (hm : Reports o status m) : Passed status n o [] [(n, m)]
  | out {o : Origin} {hop : Hop} {hops : List Hop} {m : Message} {list : List (NodeKey × Message)}
      (hm : Reports o status m) (h : Passed status n hop.origin hops list) :
      Passed status n o (hop :: hops) ((hop.receiver, m) :: (hop.sink, m) :: list)

/-- What else comes of a status of a node at the level of a receiver: other receivers hear of it, and the receiver is
wired to others than the sink. -/
inductive Besides (e : Engine) (status : Status) (o : Origin) (n : NodeKey) (sink : Option NodeId) : Action → Prop
  | heard {node : Node} {l : Level} {id : NodeId} {m : Message} (hn : e.node? n = some node)
      (hl : e.level? node.level = some l) (hid : id ∈ (l.receivers.statusTargets o.id).erase node.id)
      (hm : Reports o status m) : Besides e status o n sink (.handAt node.level id m)
  | wired {node : Node} {id : NodeId} {m : Message} (hn : e.node? n = some node)
      (hid : id ∈ (outlets node 0).diff sink.toList) (hm : Reports o status m) :
      Besides e status o n sink (.deliver node.level id m)

/-- What else comes of the status anywhere on its way. -/
inductive Bystands (e : Engine) (status : Status) (n : NodeKey) : Origin → List Hop → Action → Prop
  | here {o : Origin} {a : Action} (h : e.Besides status o n none a) : Bystands e status n o [] a
  | level {o : Origin} {hop : Hop} {hops : List Hop} {a : Action} (h : e.Besides status o hop.receiver (some hop.sinkId) a) :
      Bystands e status n o (hop :: hops) a
  | out {o : Origin} {hop : Hop} {hops : List Hop} {a : Action} (h : Bystands e status n hop.origin hops a) :
      Bystands e status n o (hop :: hops) a

theorem Bystands.of_nil {a : Action} (h : e.Bystands status n o [] a) : e.Besides status o n none a := by
  cases h with
  | here h => exact h

theorem Bystands.of_cons {hop : Hop} {hops : List Hop} {a : Action} (h : e.Bystands status n o (hop :: hops) a) :
    e.Besides status o hop.receiver (some hop.sinkId) a ∨ e.Bystands status n hop.origin hops a := by
  cases h with
  | level h => exact .inl h
  | out h => exact .inr h

theorem Ported.hearsOf (h : Reachable e) {hop : Hop} (hp : e.Ported k p hop) (id : NodeId) :
    e.HearsOf k hop.receiver id := by
  obtain ⟨r, hr, hid, htype⟩ := hp.inner
  have hmember : hop.binding.copy r ∈ hop.binding.members := List.mem_append_left _ (List.mem_map_of_mem hr)
  have hcopy : (hop.binding.copy r).id = hop.binding.rename hop.inner := by rw [← hid]; rfl
  obtain ⟨node, hnode, -, hid', htype'⟩ := h.member hp.binding hmember (hcopy ▸ hp.receiver)
  obtain ⟨node', hs, -⟩ := h.serves hp.receiver
  obtain rfl := Option.some.inj (hnode.symm.trans hs.isNode)
  refine ⟨node, hs, htype'.trans htype, ?_⟩
  rw [Receiver.hears, hp.unscoped node hnode]

/-- The sink of an instance. -/
theorem Ported.serves_sink (h : Reachable e) {hop : Hop} (hp : e.Ported k p hop) :
    ∃ node, e.Serves k hop.sink node ∧ node.id = hop.sinkId ∧ node.part = .sink .status := by
  obtain ⟨node, hs, hid⟩ := h.serves hp.sink
  have hmember : hop.binding.internal hop.sinkId statusSinkType [] ∈ hop.binding.members := by
    refine List.mem_append_right _ (List.mem_append_left _ ?_)
    rw [hp.sinkId]
    exact List.mem_singleton.mpr rfl
  obtain ⟨node', hnode', -, -, htype⟩ := h.member hp.binding hmember hp.sink
  obtain rfl := Option.some.inj (hnode'.symm.trans hs.isNode)
  exact ⟨node', hs, hid, h.parted.nodes hop.sink node' _ hnode' (by rw [htype]; rfl)⟩

/-- The receiver of an instance is wired to the sink. -/
theorem Ported.mem_outlets (h : Reachable e) {hop : Hop} (hp : e.Ported k p hop) (hs : e.Serves k hop.receiver node) :
    hop.sinkId ∈ outlets node 0 := by
  obtain ⟨node', hs', hid⟩ := h.serves hp.receiver
  obtain rfl := Option.some.inj (hs.isNode.symm.trans hs'.isNode)
  obtain ⟨r, hr, hr', -⟩ := hp.inner
  have hcopies : node.id ∈ (hop.binding.template.nodes.map hop.binding.copy).map (·.id) := by
    rw [hid, ← hr']
    exact List.mem_map_of_mem (f := (·.id)) (List.mem_map_of_mem (f := hop.binding.copy) hr)
  obtain ⟨outer, nodes, hx, hw⟩ := h.outlets_eq hp.binding hs.isNode hs.level
  obtain ⟨joined, passed, -, hsinks⟩ := Binding.wiring_sinks hx hcopies 0
  rw [hw, hsinks, hp.port, hp.sinkId]
  exact List.mem_append_right _ (List.mem_append_left _ (by simp [Binding.sunk, hid]))

/-! ## The way of a status -/

/-- A status at a level one of whose receivers hears of it: the receiver is handed it and sends it over its wires. -/
theorem hands_raised (h : Reachable e) (hq : Composed e) (hn : e.HearsOf k n o.id)
    (hlast : ∀ s : Engine, s.still = e.still → s.hasLevel k = true) (hall : ∀ a, others a → e.Settles a)
    (sink : Option NodeId) (hother : ∀ a, e.Besides status o n sink a → others a)
    (hnext : ∀ node m, e.Serves k n node → Reports o status m → ∀ s : Engine, s.still = e.still → ∀ base,
      s.agenda = ((outlets node 0).map fun id => .deliver k id m) ++ base →
        ∃ given s' list, Hands base s given s' ∧ P ((n, m) :: list) ∧ Amid (Aside e others) list given)
    (hs : s.still = e.still) :
    ∃ given s' list, Hands s.agenda (s.raise k o (.status status)).1 given s' ∧ P list ∧
      Amid (Aside e others) list given := by
  obtain ⟨l, hl⟩ : ∃ l, e.level? k = some l := level?_of_hasLevel (hlast e rfl)
  obtain ⟨node, hserves, hid⟩ := hn.selected h hq hl
  obtain ⟨node', hserves', hpart⟩ := hn.relay h
  obtain rfl := Option.some.inj (hserves.isNode.symm.trans hserves'.isNode)
  obtain ⟨before, m, after, hm, hagenda, hbeside⟩ :=
    raise_selected (h.layout.laid.still hs) (level?_of_still hs k ▸ hl) hid status
  have hstill : (s.raise k o (.status status)).1.still = e.still := (quiet_raise s k o _).still.trans hs
  have hbystander (a : Action) (ha : a ∈ before ++ after) : others a := by
    obtain ⟨id', m', rfl, hid', hm'⟩ := hbeside a ha
    have hb : e.Besides status o n sink (.handAt node.level id' m') :=
      .heard hserves.isNode (hserves.level.symm ▸ hl) hid' hm'
    exact hother _ (hserves.level ▸ hb)
  have hconveys : e.Conveys others (.handAt k node.id m) P := by
    intro s₁ base hs₁ ha₁
    obtain ⟨given, s', list, hh, hmain, ham⟩ :=
      hands_relay (P := fun list => P ((n, m) :: list)) hq.unbroken hserves hpart hlast hs₁ ha₁
        fun s₂ hs₂ ha₂ => hnext node m hserves hm s₂ hs₂ base ha₂
    exact ⟨given, s', _, hh, hmain, ham⟩
  exact hconveys.among hall (fun a ha => hbystander a (List.mem_append_left _ ha))
    (fun a ha => hbystander a (List.mem_append_right _ ha)) hstill hagenda

variable {hops : List Hop}

theorem Ported.parent (hlaid : Laid e) {hop : Hop} (hp : e.Ported k p hop) : (e.level? k).bind (·.parent) = some p := by
  obtain ⟨l, b, hl, -, hparent, -⟩ := hlaid.isInstance hp.inst
  rw [hl]
  exact hparent

theorem Carries.inside (h : e.Carries f n k o hops) : e.Inside f k := by
  induction h with
  | here => exact .here
  | out hp _ ih => exact .deeper ih hp.inst

theorem Carries.level (h : e.Carries f n k o hops) : ∃ l, e.level? f = some l := by
  induction h with
  | here h =>
    obtain ⟨node, hs, -⟩ := h
    obtain ⟨l, hl, -⟩ := Option.bind_eq_some_iff.mp hs.active
    exact ⟨l, hl⟩
  | out _ _ ih => exact ih

/-- A status that is raised at a level goes from instance to instance outward. -/
theorem Carries.hands (h : Reachable e) (hq : Composed e) (hf : e.Kept f) (hc : e.Carries f n k o hops)
    (hall : ∀ a, e.Bystands status n o hops a → e.Settles a) (hs : s.still = e.still) :
    ∃ given s' list, Hands s.agenda (s.raise k o (.status status)).1 given s' ∧ Passed status n o hops list ∧
      Amid (Aside e (e.Bystands status n o hops)) list given := by
  have hlaid := h.layout.laid
  have hlast {k : LevelKey} {o : Origin} {hops : List Hop} (hc : e.Carries f n k o hops) (s : Engine)
      (hs : s.still = e.still) : s.hasLevel k = true := hf.inside hlaid hc.inside (hc.level) hs
  induction hc generalizing s with
  | @here o hn =>
    refine hands_raised h hq hn (hlast (.here hn)) hall none (fun a ha => .here ha)
      (fun node m hserves hm s hs base ha => ?_) hs
    have hwired : ∀ a ∈ (outlets node 0).map fun id => Action.deliver f id m, e.Bystands status n o [] a := by
      intro a ha
      obtain ⟨id, hid, rfl⟩ := List.mem_map.mp ha
      have hb : e.Besides status o n none (.deliver node.level id m) := .wired hserves.isNode hid hm
      exact .here (hserves.level ▸ hb)
    obtain ⟨given, s', hh, ham⟩ := hands_others hall hwired hs ha
    exact ⟨given, s', [], hh, .here hm, ham⟩
  | @out k p o hop hops hp hc ih =>
    have hinner (a : Action) (ha : e.Bystands status n hop.origin hops a) : e.Settles a := hall a (.out ha)
    refine hands_raised h hq (hp.hearsOf h o.id) (hlast (.out (o := o) hp hc)) hall (some hop.sinkId)
      (fun a ha => .level ha) (fun node m hserves hm s hs base ha => ?_) hs
    obtain ⟨before, after, -, heq, herase⟩ := List.exists_erase_eq (hp.mem_outlets h hserves)
    obtain ⟨sink, hsink, hsinkId, hpart⟩ := hp.serves_sink h
    have hdeliver {ids : List NodeId} (hin : ∀ id ∈ ids, id ∈ before ++ after) :
        ∀ a ∈ ids.map fun id => Action.deliver k id m, e.Bystands status n o (hop :: hops) a := by
      intro a ha
      obtain ⟨id, hid, rfl⟩ := List.mem_map.mp ha
      have hrest : id ∈ (outlets node 0).diff (some hop.sinkId).toList := by
        rw [Option.toList_some, List.diff_cons, List.diff_nil, herase]
        exact hin id hid
      have hb : e.Besides status o hop.receiver (some hop.sinkId) (.deliver node.level id m) :=
        .wired hserves.isNode hrest hm
      exact .level (hserves.level ▸ hb)
    have hconveys : e.Conveys (e.Bystands status n o (hop :: hops)) (.deliver k hop.sinkId m)
        fun list => Passed status n o (hop :: hops) ((hop.receiver, m) :: list) := by
      intro s₁ base hs₁ ha₁
      have houter (s₂ : Engine) (hs₂ : s₂.still = e.still) (ha₂ : s₂.agenda = base) : ∃ given s' list,
          Hands base (s₂.raise p hop.origin (.status status)).1 given s' ∧ Passed status n hop.origin hops list ∧
            Amid (Aside e (e.Bystands status n o (hop :: hops))) list given := by
        obtain ⟨given, s', list, hh, hpassed, ham⟩ := ih hinner hs₂
        exact ⟨given, s', list, ha₂ ▸ hh, hpassed, ham.mono fun given hg => hg.mono fun a ha => .out ha⟩
      obtain ⟨given, s', list, hh, hpassed, ham⟩ := hands_sink hq.unbroken hsink hpart
        (fun s hs => ⟨hlast (.out (o := o) hp hc) s hs, hlast hc s hs⟩) hp.binding (hp.parent hlaid) hm.ofMessage hs₁
        (hsinkId ▸ ha₁) houter
      exact ⟨given, s', _, hh, .out hm hpassed, ham⟩
    rw [heq, List.map_append, List.map_cons] at ha
    exact hconveys.among hall (hdeliver fun id hid => List.mem_append_left _ hid)
      (hdeliver fun id hid => List.mem_append_right _ hid) hs ha

/-! ## Whom the status comes to -/

/-- The nodes that are handed the status on its way, in their order. -/
def stations (n : NodeKey) : List Hop → List NodeKey
  | [] => [n]
  | hop :: hops => hop.receiver :: hop.sink :: stations n hops

theorem Passed.stations {list : List (NodeKey × Message)} (h : Passed status n o hops list) :
    list.map (·.1) = stations n hops := by
  induction h with
  | here => rfl
  | out _ _ ih => rw [List.map_cons, List.map_cons, ih]; rfl

/-- The nodes on the way lie on levels further and further out. -/
theorem Carries.levels (h : Reachable e) (hc : e.Carries f n k o hops) :
    ∀ m ∈ stations n hops, ∃ node, e.node? m = some node ∧ node.level ≤ k := by
  induction hc with
  | here hn =>
    obtain ⟨node, hs, -⟩ := hn
    intro m hm
    rw [List.mem_singleton.mp hm]
    exact ⟨node, hs.isNode, Nat.le_of_eq hs.level⟩
  | @out k p o hop hops hp hc ih =>
    intro m hm
    rcases List.mem_cons.mp hm with rfl | hm
    · obtain ⟨node, hs, -⟩ := hp.hearsOf h ""
      exact ⟨node, hs.isNode, Nat.le_of_eq hs.level⟩
    · rcases List.mem_cons.mp hm with rfl | hm
      · obtain ⟨node, hs, -⟩ := hp.serves_sink h
        exact ⟨node, hs.isNode, Nat.le_of_eq hs.level⟩
      · obtain ⟨node, hnode, hle⟩ := ih m hm
        exact ⟨node, hnode, Nat.le_trans hle (Nat.le_of_lt (h.layout.laid.lt_instance hp.inst))⟩

theorem Carries.nodup (h : Reachable e) (hc : e.Carries f n k o hops) : (stations n hops).Nodup := by
  induction hc with
  | here => exact List.nodup_singleton _
  | @out k p o hop hops hp hc ih =>
    obtain ⟨receiver, hreceiver, hrelay⟩ := (hp.hearsOf h "").relay h
    obtain ⟨sink, hsink, -, hpart⟩ := hp.serves_sink h
    have hbelow (m : NodeKey) (hm : m ∈ stations n hops) : ∃ node, e.node? m = some node ∧ node.level < k := by
      obtain ⟨node, hnode, hle⟩ := hc.levels h m hm
      exact ⟨node, hnode, Nat.lt_of_le_of_lt hle (h.layout.laid.lt_instance hp.inst)⟩
    refine List.nodup_cons.mpr ⟨fun hm => ?_, List.nodup_cons.mpr ⟨fun hm => ?_, ih⟩⟩
    · rcases List.mem_cons.mp hm with heq | hm
      · obtain rfl := Option.some.inj ((heq ▸ hreceiver.isNode).symm.trans hsink.isNode)
        rw [hpart] at hrelay
        cases hrelay
      · obtain ⟨node, hnode, hlt⟩ := hbelow _ hm
        obtain rfl := Option.some.inj (hreceiver.isNode.symm.trans hnode)
        exact absurd hreceiver.level (Nat.ne_of_lt hlt)
    · obtain ⟨node, hnode, hlt⟩ := hbelow _ hm
      obtain rfl := Option.some.inj (hsink.isNode.symm.trans hnode)
      exact absurd hsink.level (Nat.ne_of_lt hlt)

/-- The usage nodes on the way have ids that no node of a level further in has. -/
theorem Carries.usage_apart (h : Reachable e) (hc : e.Carries f n k o hops)
    (hplain : ∀ id i, e.instance? f id = some i → ∀ n, id ≠ privateId n) {i : LevelKey} (hi : k ≤ i)
    (hb : e.binding? i = some b) : ∀ hop ∈ hops, hop.origin.id ∉ b.members.map (·.id) := by
  induction hc with
  | here => simp
  | @out k p o hop hops hp hc ih =>
    have hlt : p < k := h.layout.laid.lt_instance hp.inst
    intro hop' hmem
    rcases List.mem_cons.mp hmem with rfl | hmem
    · cases hc with
      | here =>
        intro hid
        obtain ⟨m, -, -, he⟩ := (h.tailored.given i b hb).private hid
        exact hplain _ _ hp.inst m he
      | @out _ q _ outer _ hp' =>
        obtain ⟨l, hl, hkind⟩ := level?_of_binding? hp'.binding
        have hinst : l.instances.get? hop'.binding.usage.id = some k := by
          have := hp.inst
          rwa [instance?, hl, Option.bind_some] at this
        have hid := ((h.layout.laid p l hl).enclosed _ hkind).instances _ _ hinst
        exact h.tailored.apart p i _ b (Nat.ne_of_lt (Nat.lt_of_lt_of_le hlt hi)) hp'.binding hb _ hid
    · exact ih (Nat.le_trans (Nat.le_of_lt hlt) hi) hop' hmem

/-- A node of an instance has one of its private ids. -/
theorem Reachable.mem_members (h : Reachable e) {node : Node} (hn : e.node? n = some node)
    (hb : e.binding? node.level = some b) : node.id ∈ b.members.map (·.id) := by
  obtain ⟨outer, nodes, r, hx, hmem, hid, -⟩ := h.wired n node hn b hb
  obtain ⟨l, hl, hkind⟩ := level?_of_binding? hb
  rw [← Binding.expand?_ids ((h.layout.laid _ l hl).enclosed b hkind).made.fitting hx, ← hid]
  exact List.mem_map_of_mem hmem

/-- A status that a node of an instance raises, and that instances pass on to the tab through ports: the receiver and
the sink of each instance, and the receiver of the tab, are handed it, each once and in this order; each message tells
the same status, and names as its source the node that raised it on the level itself, and the usage node of the
instance further in on all others. All else that is handed out comes of those that also hear of the status, or are also
wired to a receiver of it. -/
theorem status_rises_through_ports (h : Reachable e) (hq : Composed e) (hf : e.Kept f) {raiser : NodeKey} {node : Node}
    (hn : e.node? raiser = some node) (hc : e.Carries f n node.level node.origin hops) (status : Status)
    (hsettle : ∀ a, e.Bystands status n node.origin hops a → e.Settles a)
    (ha : e.agenda = .effect raiser (.status status) :: base) :
    (∀ fresh origin status, Status.ofMessage (statusMessage fresh origin status) = status ∧
      SourceOf (statusMessage fresh origin status) origin) ∧
    ∃ given e' list, Hands base e given e' ∧ (∀ given' e'', Hands base e given' e'' → given' = given ∧ e'' = e') ∧
      Passed status n node.origin hops list ∧ list.map (·.1) = stations n hops ∧ (stations n hops).Nodup ∧
      Amid (Aside e (e.Bystands status n node.origin hops)) list given ∧
      ((∀ more, e.Aside (e.Bystands status n node.origin hops) more → ∀ x ∈ more, x.1 ∉ stations n hops) →
        given.filter (fun x => x.1 ∈ stations n hops) = list) ∧
      ((∀ id i, e.instance? f id = some i → ∀ n, id ≠ privateId n) → ∀ hop ∈ hops, hop.origin.id ≠ node.id) := by
  refine ⟨fun fresh origin status =>
    ⟨ofMessage_statusMessage fresh origin status, sourceOf_statusMessage fresh origin status⟩, ?_⟩
  -- The effect raises the status on the level of the node,
  let s : Engine := { e with agenda := base }
  have hlevel : s.hasLevel node.level = true := hf.inside h.layout.laid hc.inside hc.level rfl
  obtain ⟨l, hl⟩ := level?_of_hasLevel hlevel
  let s' : Engine := s.publish (.nodeStatus l.id node.id status)
  have hs' : s'.still = e.still := (quiet_publish _ _).still.trans rfl
  have hact : s.act (.effect raiser (.status status)) = (s'.raise node.level node.origin (.status status)).1 := by
    have hn' : s.node? raiser = some node := hn
    change s.perform raiser (.status status) = _
    rw [perform, hn']
    dsimp only
    rw [hl, hlevel]
  -- from where it goes outward.
  obtain ⟨given, e', list, hh, hpassed, ham⟩ := hc.hands h hq hf hsettle hs'
  have hagenda : s'.agenda = base := agenda_publish s _
  have hrun : Hands base e given e' := by
    have h : Hands base e (e.handed (.effect raiser (.status status)) ++ given) e' :=
      .first hq.unbroken ha rfl (hact.symm ▸ hagenda ▸ hh)
    exact h
  refine ⟨given, e', list, hrun, fun given' e'' h' => hrun.unique h', hpassed, hpassed.stations, hc.nodup h, ham,
    fun hout => ham.filter _ (fun x hx => hpassed.stations ▸ List.mem_map_of_mem hx) hout, fun hplain hop hop' he => ?_⟩
  cases hc with
  | here => cases hop'
  | @out _ p _ hop₀ hops₀ hp hc' =>
    have hid := h.mem_members hn hp.binding
    exact (Carries.out (o := node.origin) hp hc').usage_apart h hplain (Nat.le_refl _) hp.binding hop hop' (he ▸ hid)

end Engine

namespace Session
open Engine

/-- A tab with a receiver of the statuses of a usage node. The template of that has a usage node of its own, and both
templates wire a receiver to their status ports. -/
def portedRecords : List Json := [
  .obj [("id", .str "t"), ("type", .str "tab")],
  .obj [("id", .str "w"), ("scope", .arr [.str "u"]), ("type", .str "status"), ("z", .str "t")],
  .obj [("id", .str "s"), ("status", .obj [("wires", .arr [.obj [("id", .str "r"), ("port", .nat 0)]])]),
    ("type", .str "subflow")],
  .obj [("id", .str "r"), ("type", .str "status"), ("z", .str "s")],
  .obj [("id", .str "v"), ("type", .str "subflow:q"), ("z", .str "s")],
  .obj [("id", .str "q"), ("status", .obj [("wires", .arr [.obj [("id", .str "p"), ("port", .nat 0)]])]),
    ("type", .str "subflow")],
  .obj [("id", .str "p"), ("type", .str "status"), ("z", .str "q")],
  .obj [("id", .str "b"), ("type", .str "test"), ("z", .str "q")],
  .obj [("id", .str "u"), ("type", .str "subflow:s"), ("z", .str "t")]]

def portedFlow : Engine :=
  (start ⟨{ ((Engine.make .instrumented .standalone [] [] 500).addLevel
    (.make .tab none (firstTab portedRecords))).1 with keptLevels := [0] }, some 0, .empty, []⟩ 0 none).2.engine

def portedStatus : Status := ⟨some "green", none, some "on"⟩

/-- The node of the inner instance is about to show a status. -/
def portedRaise : Engine := portedFlow.push [.effect 0 (.status portedStatus)]

/-- An instance on the way of the status. -/
def portedHop (k : LevelKey) (inner : NodeId) (receiver sink : NodeKey) : Hop :=
  let b := (portedRaise.binding? k).getD default
  ⟨b, inner, receiver, b.statusSink.getD "", sink⟩

def innerHop : Hop := portedHop 2 "p" 1 2
def outerHop : Hop := portedHop 1 "r" 5 6

theorem reachable_portedRaise : Reachable portedRaise := by
  have hmade : Reachable ((Engine.make .instrumented .standalone [] [] 500).addLevel
      (.make .tab none (firstTab portedRecords))).1 :=
    (Reachable.make _ _ _ _ _).input rfl (.flow (.inl rfl) (parsed_firstTab (by decide +kernel)))
  have hflow : Reachable portedFlow := reachable_start (hmade.input rfl (.keep [0] [])) rfl
  have hidle : portedFlow.agenda.isEmpty = true := by decide +kernel
  exact hflow.input (List.isEmpty_iff.mp hidle) (.quiet (.push _ _ (by simp [Action.isQuiet])))

/-- What the flow is when the status is about to be raised. -/
theorem portedRaise_run : (portedRaise.broken = false ∧ portedRaise.plan.isEmpty = true ∧
      portedRaise.calls.all (fun entry => entry.2.waiting.isEmpty) = true ∧ portedRaise.keptLevels.contains 0 = true) ∧
    (portedRaise.node? 0).map (fun node => (node.level, node.record.type)) = some (2, "test") ∧
    ((portedRaise.node? 9).map fun node => (portedRaise.activeKey? 0 node.id, node.level, node.cancelled,
      node.record.type, (Receiver.ofRecord node.record).hears "u")) = some (some 9, 0, false, "status", true) ∧
    ∀ x ∈ [(2, 1, innerHop), (1, 0, outerHop)], portedRaise.binding? x.1 = some x.2.2.binding ∧
      portedRaise.instance? x.2.1 x.2.2.binding.usage.id = some x.1 ∧
      x.2.2.binding.template.status = some ⟨[⟨x.2.2.inner, 0⟩]⟩ ∧
      (∃ r ∈ x.2.2.binding.template.nodes, r.id = x.2.2.inner ∧ r.type = statusType) ∧
      portedRaise.activeKey? x.1 (x.2.2.binding.rename x.2.2.inner) = some x.2.2.receiver ∧
      (portedRaise.node? x.2.2.receiver).map (fun node => (Receiver.ofRecord node.record).scope) = some none ∧
      x.2.2.binding.statusSink = some x.2.2.sinkId ∧ portedRaise.activeKey? x.1 x.2.2.sinkId = some x.2.2.sink := by
  decide +kernel

theorem composed_portedRaise : Composed portedRaise := by
  obtain ⟨⟨hb, hp, hw, -⟩, -⟩ := portedRaise_run
  refine ⟨hb, List.isEmpty_iff.mp hp, fun key c hc => ?_⟩
  exact List.isEmpty_iff.mp (List.all_eq_true.mp hw _ (mem_calls_of_call? hc))

/-- The usage node of the outer instance is that of the tab. -/
theorem outerHop_origin : outerHop.origin.id = "u" := by decide +kernel

/-- The status goes from the inner instance to the tab. -/
theorem carries_portedRaise {o : Origin} : portedRaise.Carries 0 9 2 o [innerHop, outerHop] := by
  obtain ⟨-, -, hw, hports⟩ := portedRaise_run
  have hported (k p : LevelKey) (hop : Hop) (hmem : (k, p, hop) ∈ [(2, 1, innerHop), (1, 0, outerHop)]) :
      portedRaise.Ported k p hop := by
    obtain ⟨hb, hi, hp, hin, hr, hs, hid, hsink⟩ := hports _ hmem
    refine ⟨hb, hi, hp, hin, hr, fun node hn => ?_, hid, hsink⟩
    rw [hn] at hs
    exact Option.some.inj hs
  obtain ⟨node, hn, he⟩ := Option.map_eq_some_iff.mp hw
  obtain ⟨ha, hlevel, hc, htype, hhears⟩ := by simpa only [Prod.mk.injEq] using he
  exact .out (hported 2 1 innerHop (by simp)) (.out (hported 1 0 outerHop (by simp))
    (.here ⟨node, ⟨ha, hn, hlevel, hc⟩, htype, outerHop_origin ▸ hhears⟩))

/-- The receivers of a level whose active nodes are these, listed in the order of their creation. -/
theorem receiverRecords_of_perm {e : Engine} {l : Level} {keys : List NodeKey} (ha : l.active.values.Perm keys)
    (hs : keys.Pairwise fun a b => decide (a ≤ b) = true) : e.receiverRecords l = receiversAmong e keys := by
  have htotal (a b : NodeKey) : (decide (a ≤ b) || decide (b ≤ a)) = true := by
    simp only [Bool.or_eq_true, decide_eq_true_eq]
    exact Nat.le_total a b
  have htrans (a b c : NodeKey) (h : decide (a ≤ b) = true) (h' : decide (b ≤ c) = true) : decide (a ≤ c) = true := by
    simp only [decide_eq_true_eq] at h h' ⊢
    exact Nat.le_trans h h'
  have hsorted : l.active.values.mergeSort (· ≤ ·) = keys := by
    refine ((List.mergeSort_perm _ _).trans ha).eq_of_pairwise (fun a b _ _ h h' => ?_)
      (List.pairwise_mergeSort htrans htotal _) hs
    simp only [decide_eq_true_eq] at h h'
    exact Nat.le_antisymm h h'
  rw [receiverRecords, hsorted]
  rfl

/-- Nobody but the receiver hears of a status, and it is wired to nobody but the sink. -/
theorem not_besides {e : Engine} (h : Reachable e) (hq : Composed e) {status : Status} {o : Origin} {n : NodeKey}
    {sink : Option NodeId} (keys : List NodeKey)
    (hnode : (e.node? n).map (fun node => ((e.level? node.level).map fun l => l.active.values.isPerm keys,
      ((Receivers.ofRecords (receiversAmong e keys)).statusTargets o.id).erase node.id,
      (outlets node 0).diff sink.toList)) = some (some true, [], []))
    (hs : keys.Pairwise fun a b => decide (a ≤ b) = true) (a : Action) : ¬e.Besides status o n sink a := by
  obtain ⟨node, hn, he⟩ := Option.map_eq_some_iff.mp hnode
  obtain ⟨hkeys, htargets, houtlets⟩ := by simpa only [Prod.mk.injEq] using he
  intro hb
  cases hb with
  | @heard node' l id m hn' hl hid =>
    obtain rfl := Option.some.inj (hn.symm.trans hn')
    rw [hl] at hkeys
    have hperm := List.isPerm_iff.mp (Option.some.inj hkeys)
    rw [h.table_eq hq hl, receiverRecords_of_perm hperm hs, htargets] at hid
    cases hid
  | @wired node' id m hn' hid =>
    obtain rfl := Option.some.inj (hn.symm.trans hn')
    rw [houtlets] at hid
    cases hid

/-- The node of the inner instance, as the source of its status. -/
def portedOrigin : Origin := ((portedRaise.node? 0).map Node.origin).getD default

/-- Nobody else hears of the status anywhere. -/
theorem portedRaise_alone (a : Action) : ¬portedRaise.Bystands portedStatus 9 portedOrigin [innerHop, outerHop] a := by
  have hr := reachable_portedRaise
  have hq := composed_portedRaise
  intro hb
  rcases hb.of_cons with hb | hb
  · exact not_besides hr hq [0, 1, 2, 3] (by decide +kernel) (by decide) a hb
  · rcases hb.of_cons with hb | hb
    · exact not_besides hr hq [4, 5, 6, 7] (by decide +kernel) (by decide) a hb
    · exact not_besides hr hq [8, 9] (by decide +kernel) (by decide) a hb.of_nil

/-- The receivers of both instances and that of the tab are handed the status, each once. -/
theorem nested_status_rises : Reachable portedRaise ∧ Composed portedRaise ∧
    ∃ node given e' list, portedRaise.node? 0 = some node ∧ Hands [] portedRaise given e' ∧
      Passed portedStatus 9 node.origin [innerHop, outerHop] list ∧
      given.filter (fun x => x.1 ∈ [1, 2, 5, 6, 9]) = list ∧ outerHop.origin.id = "u" := by
  obtain ⟨⟨-, -, -, hkept⟩, hraiser, -⟩ := portedRaise_run
  obtain ⟨node, hn, he⟩ := Option.map_eq_some_iff.mp hraiser
  have hlevel : node.level = 2 := congrArg Prod.fst he
  have horigin : portedOrigin = node.origin := by
    rw [portedOrigin, hn]
    rfl
  have hcarries : portedRaise.Carries 0 9 node.level node.origin [innerHop, outerHop] := hlevel ▸ carries_portedRaise
  have halone (a : Action) : ¬portedRaise.Bystands portedStatus 9 node.origin [innerHop, outerHop] a :=
    horigin ▸ portedRaise_alone a
  have hidle : portedFlow.agenda = [] := List.isEmpty_iff.mp (by decide +kernel)
  have hagenda : portedRaise.agenda = [.effect 0 (.status portedStatus)] := by
    change _ ++ portedFlow.agenda = _
    rw [hidle, List.append_nil]
  obtain ⟨-, given, e', list, hh, -, hpassed, -, -, -, hfilter, -⟩ :=
    status_rises_through_ports reachable_portedRaise composed_portedRaise (.inl hkept) hn hcarries portedStatus
      (fun a ha => absurd ha (halone a)) hagenda
  refine ⟨reachable_portedRaise, composed_portedRaise, node, given, e', list, hn, hh, hpassed, ?_, outerHop_origin⟩
  exact hfilter fun more ⟨a, _, _, _, ha, _⟩ => absurd ha (halone a)

end Session
end Flowgraph
