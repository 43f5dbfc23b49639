import Flowgraph.Proofs.Inlining
import Flowgraph.Proofs.Precedence
/-! In which order a start makes nodes. At the tab and in every instance the nodes stand in line as the dependencies
ask for that their records declare, and each gets the next creation index when its turn comes. Config nodes come first,
so what tokens stand for never makes another node come too early. Among config nodes it has no say: one may come before
another that only a token gave it. -/
namespace Flowgraph

theorem Scope.isConfigNode_resolveRecord (lookup : Lookup) (r : Record) :
    (Scope.resolveRecord lookup r).isConfigNode = r.isConfigNode := by
  have hkeys (key : String) :
      Dict.contains (Scope.resolveRecord lookup r).properties key = Dict.contains r.properties key := by
    simp [Dict.contains, Scope.resolveRecord, Function.comp_def]
  unfold Record.isConfigNode
  rw [hkeys, hkeys]
  rfl

/-- The node that an action makes, or goes on making when its instance is there. -/
def Action.made? : Action → Option (LevelKey × NodeId)
  | .create j r _ => some (j, r.id)
  | .install j usage _ => some (j, usage.id)
  | _ => none

namespace StartOrder

variable {nodes : List Record} {order : List Nat} {pos : Nat} {r : Record}

theorem idAt_of_getElem? (hr : nodes[pos]? = some r) : idAt nodes pos = r.id := by
  rw [idAt, hr]
  rfl

/-- The ids of the nodes in an order. -/
theorem map_id_filterMap (h : ∀ pos ∈ order, Enabled nodes pos) :
    (order.filterMap fun pos => nodes[pos]?).map (·.id) = order.map (idAt nodes) := by
  induction order with
  | nil => rfl
  | cons pos order ih =>
    obtain ⟨r, hr, -⟩ := h pos List.mem_cons_self
    rw [List.filterMap_cons_some hr, List.map_cons, List.map_cons, idAt_of_getElem? hr,
      ih fun p hp => h p (List.mem_cons_of_mem _ hp)]

/-- In a list without repeats, what holds of all in their order holds of the earlier of two and the later. -/
theorem rel_of_idxOf_lt {R : Nat → Nat → Prop} {xs : List Nat} (h : xs.Pairwise R) {p q : Nat} (hq : q ∈ xs)
    (hlt : xs.idxOf p < xs.idxOf q) : R p q := by
  have hq' := List.idxOf_lt_length_of_mem hq
  have hp := List.pairwise_iff_getElem.mp h _ _ (Nat.lt_trans hlt hq') hq' hlt
  rwa [List.getElem_idxOf, List.getElem_idxOf] at hp

end StartOrder

namespace Engine
open StartOrder (idAt)

variable {e e' E : Engine} {i j k since : LevelKey} {mark n : NodeKey} {id : NodeId} {r : Record} {p q base : List Action}
  {nodes : List Record} {done todo order : List Nat} {pos steps : Nat} {l : Level}

/-! ## Nodes in line -/

/-- A node has been made of a record, with what the tokens in its properties stand for. -/
def MadeOf (e : Engine) (r : Record) (n : NodeKey) : Prop :=
  ∃ node lookup, e.node? n = some node ∧ node.record = Scope.resolveRecord lookup r

/-- The nodes of a level stand in line. Those whose turn has come have been made in this order, as far as they have been
made since a mark. -/
structure InLine (mark : NodeKey) (e : Engine) (j : LevelKey) (nodes : List Record) (done todo : List Nat) : Prop where
  distinct : (nodes.map (·.id)).Nodup
  order : done ++ todo = [] ∨ StartOrder.resolve nodes = .ok (done ++ todo)
  known : ∀ id n, e.activeKey? j id = some n → mark ≤ n →
    ∃ pos ∈ done, ∃ r, nodes[pos]? = some r ∧ r.id = id ∧ e.MadeOf r n
  rising : done.Pairwise fun p q => ∀ n n', e.activeKey? j (idAt nodes p) = some n → mark ≤ n →
    e.activeKey? j (idAt nodes q) = some n' → mark ≤ n' → n < n'

/-- A node of a level has been made of one of its records, with what the tokens in the properties stand for, and it has
come behind the other active config nodes of the level. If it is a config node itself, this goes for those that its
record names. -/
def ComesBehind (e : Engine) (j : LevelKey) (nodes : List Record) (id : NodeId) (n : NodeKey) : Prop :=
  ∃ r ∈ nodes, ∃ node lookup, r.id = id ∧ e.node? n = some node ∧ node.record = Scope.resolveRecord lookup r ∧
    ∀ other m config, e.activeKey? j other = some m → e.node? m = some config → config.record.isConfigNode = true →
      other ≠ id → node.record.isConfigNode = false ∨ r.Mentions other → m < n

theorem MadeOf.keeps (h : e.MadeOf r n) (hn : KeepsNodes e e') : e'.MadeOf r n := by
  obtain ⟨node, lookup, hnode, hrecord⟩ := h
  obtain ⟨node', hnode', hs⟩ := hn n node hnode
  exact ⟨node', lookup, hnode', (congrArg Node.record hs :).trans hrecord⟩

theorem MadeOf.lt_size (h : e.MadeOf r n) : n < e.nodes.size := by
  obtain ⟨node, -, hnode, -⟩ := h
  exact node?_lt e n hnode

namespace InLine

theorem enabled (h : InLine mark e j nodes done todo) (hpos : pos ∈ done ++ todo) : StartOrder.Enabled nodes pos := by
  rcases h.order with hempty | horder
  · rw [hempty] at hpos
    cases hpos
  · exact (StartOrder.mem_resolve horder).mp hpos

theorem nodup (h : InLine mark e j nodes done todo) : (done ++ todo).Nodup := by
  rcases h.order with hempty | horder
  · rw [hempty]
    exact List.nodup_nil
  · exact (StartOrder.ordered_resolve horder).nodup

theorem keeps (h : InLine mark e j nodes done todo) (hactive : ∀ id, e'.activeKey? j id = e.activeKey? j id)
    (hn : KeepsNodes e e') : InLine mark e' j nodes done todo := by
  refine ⟨h.distinct, h.order, fun id n ha hm => ?_, ?_⟩
  · obtain ⟨pos, hpos, r, hr, hid, hmade⟩ := h.known id n (hactive id ▸ ha) hm
    exact ⟨pos, hpos, r, hr, hid, hmade.keeps hn⟩
  · simp only [hactive]
    exact h.rising

/-- The node whose turn it is has not been made since the mark. -/
theorem unknown (h : InLine mark e j nodes done (pos :: todo)) (ha : e.activeKey? j (idAt nodes pos) = some n) :
    n < mark := by
  by_contra hm
  obtain ⟨q, hq, r, hr, hid, -⟩ := h.known _ n ha (Nat.le_of_not_lt hm)
  obtain ⟨r', hr', -⟩ := h.enabled (List.mem_append_right done List.mem_cons_self)
  rw [StartOrder.idAt_of_getElem? hr'] at hid
  obtain rfl := StartOrder.eq_of_same_id h.distinct hr hr' hid
  exact (List.nodup_append.mp h.nodup).2.2 q hq q List.mem_cons_self rfl

/-- At first all wait for their turn. -/
theorem fresh (hd : (nodes.map (·.id)).Nodup) (ho : order = [] ∨ StartOrder.resolve nodes = .ok order)
    (hold : ∀ id n, e.activeKey? j id = some n → n < mark) : InLine mark e j nodes [] order :=
  ⟨hd, ho, fun id n ha hm => absurd hm (Nat.not_le_of_lt (hold id n ha)), List.Pairwise.nil⟩

/-- A turn passes, and no node is made. -/
theorem pass (h : InLine mark e j nodes done (pos :: todo)) : InLine mark e j nodes (done ++ [pos]) todo := by
  refine ⟨h.distinct, ?_, fun id n ha hm => ?_, List.pairwise_append.mpr ⟨h.rising, List.pairwise_singleton _ _,
    fun q _ p hp n n' _ _ ha' hm' => ?_⟩⟩
  · rw [List.append_assoc]
    exact h.order
  · obtain ⟨q, hq, hmade⟩ := h.known id n ha hm
    exact ⟨q, List.mem_append_left _ hq, hmade⟩
  · obtain rfl := List.mem_singleton.mp hp
    exact absurd hm' (Nat.not_le_of_lt (h.unknown ha'))

/-- The node whose turn it is enters its level. -/
theorem enter (h : InLine mark e j nodes done (pos :: todo)) (hl : e.level? j = some l) (hr : nodes[pos]? = some r)
    (lookup : Lookup) (part : Part) :
    InLine mark (e.enter j (Scope.resolveRecord lookup r) part) j nodes (done ++ [pos]) todo := by
  have hpos : idAt nodes pos = r.id := StartOrder.idAt_of_getElem? hr
  have hactive (id : NodeId) : (e.enter j (Scope.resolveRecord lookup r) part).activeKey? j id =
      if r.id = id then some e.nodes.size else e.activeKey? j id := by
    rw [activeKey?_enter, if_pos rfl, hl, Option.bind_some, activeKey?, hl]
    rfl
  -- an id of those before is not that of the node which enters
  have hbefore {q : Nat} (hq : q ∈ done) : r.id ≠ idAt nodes q := by
    obtain ⟨r', hr', -⟩ := h.enabled (List.mem_append_left _ hq)
    rw [StartOrder.idAt_of_getElem? hr']
    intro hid
    obtain rfl := StartOrder.eq_of_same_id h.distinct hr hr' hid
    exact (List.nodup_append.mp h.nodup).2.2 pos hq pos List.mem_cons_self rfl
  refine ⟨h.distinct, ?_, fun id n ha hm => ?_, List.pairwise_append.mpr ⟨?_, List.pairwise_singleton _ _, ?_⟩⟩
  · rw [List.append_assoc]
    exact h.order
  · rw [hactive] at ha
    split at ha
    · rename_i hid
      cases ha
      exact ⟨pos, List.mem_append_right _ List.mem_cons_self, r, hr, hid, _, lookup, by rw [node?_enter, if_pos rfl],
        rfl⟩
    · obtain ⟨q, hq, r', hr', hid, hmade⟩ := h.known id n ha hm
      exact ⟨q, List.mem_append_left _ hq, r', hr', hid, hmade.keeps (.enter e j _ part)⟩
  · refine List.Pairwise.imp_of_mem (fun {q q'} hq hq' hrise n n' ha hm ha' hm' => ?_) h.rising
    rw [hactive, if_neg (hbefore hq)] at ha
    rw [hactive, if_neg (hbefore hq')] at ha'
    exact hrise n n' ha hm ha' hm'
  · intro q hq p hp n n' ha hm ha' _
    obtain rfl := List.mem_singleton.mp hp
    rw [hactive, if_neg (hbefore hq)] at ha
    rw [hactive, if_pos hpos.symm] at ha'
    cases ha'
    obtain ⟨-, -, r', -, -, hmade⟩ := h.known _ n ha hm
    exact hmade.lt_size

/-- A node that has been made since the mark has come behind the config nodes. -/
theorem comesBehind (h : InLine mark e j nodes done todo) (hn : e.activeKey? j id = some n) (hm : mark ≤ n) :
    e.ComesBehind j nodes id n := by
  obtain ⟨pos, hpos, r, hr, rfl, node, lookup, hnode, hrecord⟩ := h.known id n hn hm
  refine ⟨r, List.mem_of_getElem? hr, node, lookup, rfl, hnode, hrecord, fun other m config hother hconfig hc hne hwhy => ?_⟩
  -- a config node that was there before the mark is older anyway
  by_cases hold : m < mark
  · exact Nat.lt_of_lt_of_le hold hm
  have hm' : mark ≤ m := Nat.le_of_not_lt hold
  obtain ⟨pos', hpos', r', hr', rfl, config', lookup', hconfig', hrecord'⟩ := h.known other m hother hm'
  obtain rfl := Option.some.inj (hconfig.symm.trans hconfig')
  rw [hrecord', Scope.isConfigNode_resolveRecord] at hc
  rw [hrecord, Scope.isConfigNode_resolveRecord] at hwhy
  have horder : StartOrder.resolve nodes = .ok (done ++ todo) :=
    h.order.resolve_left fun hempty => List.ne_nil_of_mem (List.mem_append_left todo hpos) hempty
  have hrespects := StartOrder.resolve_respects h.distinct horder
  obtain ⟨r₁, hr₁, henabled⟩ := h.enabled (List.mem_append_left todo hpos)
  obtain rfl := Option.some.inj (hr.symm.trans hr₁)
  obtain ⟨r₂, hr₂, henabled'⟩ := h.enabled (List.mem_append_left todo hpos')
  obtain rfl := Option.some.inj (hr'.symm.trans hr₂)
  have hbefore : (done ++ todo).idxOf pos' < (done ++ todo).idxOf pos := by
    rcases hwhy with hplain | hmentions
    · exact hrespects.configsFirst pos' pos ⟨r', hr', henabled', hc⟩ ⟨r, hr, henabled, hplain⟩
    · refine hrespects.named pos pos' ⟨r, hr, henabled⟩ ⟨r', hr', henabled', hc⟩ ⟨?_, r, r', hr, hr', hmentions⟩
      rintro rfl
      exact hne (congrArg Record.id (Option.some.inj (hr'.symm.trans hr)))
  rw [List.idxOf_append_of_mem hpos, List.idxOf_append_of_mem hpos'] at hbefore
  refine StartOrder.rel_of_idxOf_lt h.rising hpos hbefore m n ?_ hm' ?_ hm
  · rwa [StartOrder.idAt_of_getElem? hr']
  · rwa [StartOrder.idAt_of_getElem? hr]

end InLine

/-! ## What is still to be made -/

/-- The nodes of a level that a plan has still to make, in their order. -/
def upcoming (j : LevelKey) (p : List Action) : List NodeId :=
  p.filterMap fun a => a.made?.bind fun (i, id) => if i = j then some id else none

theorem upcoming_append (j : LevelKey) (p q : List Action) : upcoming j (p ++ q) = upcoming j p ++ upcoming j q :=
  List.filterMap_append

theorem upcoming_cons_of_none {a : Action} (ha : a.made? = none) (j : LevelKey) (p : List Action) :
    upcoming j (a :: p) = upcoming j p := by
  rw [upcoming, List.filterMap_cons_none (by rw [ha]; rfl)]
  rfl

theorem upcoming_cons_self {a : Action} (ha : a.made? = some (j, id)) (p : List Action) :
    upcoming j (a :: p) = id :: upcoming j p := by
  rw [upcoming, List.filterMap_cons_some (by rw [ha]; exact if_pos rfl)]
  rfl

theorem upcoming_cons_of_ne {a : Action} (ha : a.made? = some (i, id)) (h : i ≠ j) (p : List Action) :
    upcoming j (a :: p) = upcoming j p := by
  rw [upcoming, List.filterMap_cons_none (by rw [ha]; exact if_neg h)]
  rfl

/-- The nodes of a level come in its order. -/
theorem upcoming_creations {c : FlowConfig} (h : ∀ pos ∈ order, StartOrder.Enabled c.nodes pos) :
    upcoming j (creations j c order) = order.map (idAt c.nodes) := by
  rw [← StartOrder.map_id_filterMap h, upcoming, creations, List.filterMap_map]
  refine Eq.trans (List.filterMap_congr fun r _ => ?_) (congrFun List.filterMap_eq_map _)
  exact if_pos rfl

theorem upcoming_creations_of_ne {c : FlowConfig} (h : i ≠ j) (order : List Nat) :
    upcoming j (creations i c order) = [] := by
  refine List.filterMap_eq_nil_iff.mpr fun a ha => ?_
  obtain ⟨r, -, rfl⟩ := mem_creations ha
  exact if_neg h

/-- The nodes of an instance come in its order. -/
theorem upcoming_instance {c : FlowConfig} {usage : Record} (h : ∀ pos ∈ order, StartOrder.Enabled c.nodes pos) (hj : j ≠ i)
    (hp : upcoming i p = []) :
    upcoming i (creations i c order ++ .refresh i :: .install j usage i :: p) = order.map (idAt c.nodes) := by
  have hrest : upcoming i (.refresh i :: .install j usage i :: p) = [] :=
    (upcoming_cons_of_none rfl i _).trans ((upcoming_cons_of_ne rfl hj p).trans hp)
  rw [upcoming_append, upcoming_creations h, hrest, List.append_nil]

/-- At other levels the usage node keeps its turn. -/
theorem upcoming_behind {c : FlowConfig} {usage : Record} {inst : LevelKey} {templates : Templates} (hid : usage.id = r.id)
    (hi : inst ≠ i) : upcoming i (creations inst c order ++ .refresh inst :: .install j usage inst :: p) =
      upcoming i (.create j r templates :: p) := by
  rw [upcoming_append, upcoming_creations_of_ne hi, List.nil_append]
  refine (upcoming_cons_of_none rfl i _).trans ?_
  by_cases hj : j = i
  · subst hj
    rw [upcoming_cons_self rfl, upcoming_cons_self rfl, hid]
  · rw [upcoming_cons_of_ne rfl hj, upcoming_cons_of_ne rfl hj]

/-- What is still to be made has been declared by its level. -/
def Sourced (e : Engine) : Action → Prop
  | .create j r templates =>
    Tidy templates ∧ ∃ l, e.level? j = some l ∧ l.config.templates = templates ∧ r ∈ l.config.nodes
  | .install j usage _ =>
    ∃ l r lookup, e.level? j = some l ∧ r ∈ l.config.nodes ∧ usage = Scope.resolveRecord lookup r
  | .refresh _ => True
  | _ => False

/-- The nodes of a level stand in line, and those whose turn is still to come are those that a plan has to make. -/
def InLineFor (mark : NodeKey) (e : Engine) (p : List Action) (j : LevelKey) (nodes : List Record) : Prop :=
  ∃ done todo, InLine mark e j nodes done todo ∧ upcoming j p = todo.map (idAt nodes)

/-- At all levels of a flow the nodes stand in line. -/
structure LinedUp (since k : LevelKey) (mark : NodeKey) (e : Engine) (p : List Action) : Prop where
  sourced : ∀ a ∈ p, e.Sourced a
  inLine : ∀ j l, Recent since k j → e.level? j = some l → InLineFor mark e p j l.config.nodes

theorem Sourced.resembles {a : Action} (h : e.Sourced a) (hr : ∀ i, Resembles i e e') : e'.Sourced a := by
  cases a with
  | create =>
    obtain ⟨htidy, l, hl, htemplates, hmem⟩ := h
    obtain ⟨l', hl', ha⟩ := hr _ l hl
    exact ⟨htidy, l', hl', ha.config ▸ htemplates, ha.config ▸ hmem⟩
  | install =>
    obtain ⟨l, r, lookup, hl, hmem, hu⟩ := h
    obtain ⟨l', hl', ha⟩ := hr _ l hl
    exact ⟨l', r, lookup, hl', ha.config ▸ hmem, hu⟩
  | _ => exact h

/-- Nothing is planned at a level that is still to come. -/
theorem upcoming_of_size_le (h : ∀ a ∈ p, e.Sourced a) (hj : e.levels.size ≤ j) : upcoming j p = [] := by
  refine List.filterMap_eq_nil_iff.mpr fun a ha => ?_
  have hne {i : LevelKey} {l : Level} (hl : e.level? i = some l) : i ≠ j :=
    Nat.ne_of_lt (Nat.lt_of_lt_of_le (level?_lt e i hl) hj)
  cases a with
  | create =>
    obtain ⟨-, l, hl, -⟩ := h _ ha
    exact if_neg (hne hl)
  | install =>
    obtain ⟨l, -, -, hl, -⟩ := h _ ha
    exact if_neg (hne hl)
  | _ => rfl

theorem activeKey?_of_active (h : (e'.level? j).map Level.active = (e.level? j).map Level.active) (id : NodeId) :
    e'.activeKey? j id = e.activeKey? j id := by
  have hget (l? : Option Level) : (l?.bind fun l => l.active.get? id) = (l?.map Level.active).bind (·.get? id) := by
    cases l? <;> rfl
  rw [activeKey?, activeKey?, hget, hget, h]

/-- A new level leaves the others as they are. -/
theorem resembles_of_new (h : ∀ i, i ≠ e.levels.size → e'.level? i = e.level? i) (i : LevelKey) : Resembles i e e' :=
  fun l hl => ⟨l, (h i (Nat.ne_of_lt (level?_lt e i hl))).trans hl, .refl l⟩

theorem InLineFor.keeps (h : InLineFor mark e p j nodes) (hactive : ∀ id, e'.activeKey? j id = e.activeKey? j id)
    (hn : KeepsNodes e e') (hq : upcoming j q = upcoming j p) : InLineFor mark e' q j nodes := by
  obtain ⟨done, todo, hline, htodo⟩ := h
  exact ⟨done, todo, hline.keeps hactive hn, hq.trans htodo⟩

namespace LinedUp

/-- A step after which the nodes of the levels before stand in line, and those of the new ones. -/
theorem step (h : LinedUp since k mark e p) (hr : ∀ i, Resembles i e e') (hsourced : ∀ a ∈ q, a ∈ p ∨ e'.Sourced a)
    (hold : ∀ j l, e.level? j = some l → InLineFor mark e p j l.config.nodes → InLineFor mark e' q j l.config.nodes)
    (hnew : ∀ j l', e.levels.size ≤ j → e'.level? j = some l' → InLineFor mark e' q j l'.config.nodes) :
    LinedUp since k mark e' q := by
  refine ⟨fun a ha => (hsourced a ha).elim (fun ha => (h.sourced a ha).resembles hr) fun hs => hs, fun j l' hj hl' => ?_⟩
  by_cases hlt : j < e.levels.size
  · have hl : e.level? j = some e.levels[j] := Array.getElem?_eq_getElem hlt
    obtain ⟨l'', hl'', ha⟩ := hr j _ hl
    obtain rfl := Option.some.inj (hl'.symm.trans hl'')
    rw [ha.config]
    exact hold j _ hl (h.inLine j _ hj hl)
  · exact hnew j l' (Nat.le_of_not_lt hlt) hl'

/-- A step that makes neither nodes nor levels. -/
theorem within (h : LinedUp since k mark e p) (hr : ∀ i, Resembles i e e') (hn : KeepsNodes e e')
    (hsize : e'.levels.size = e.levels.size)
    (hactive : ∀ j, (e'.level? j).map Level.active = (e.level? j).map Level.active)
    (hq : ∀ a ∈ q, a ∈ p) (hsame : ∀ j, upcoming j q = upcoming j p) : LinedUp since k mark e' q :=
  h.step hr (fun a ha => .inl (hq a ha)) (fun j _ _ hline => hline.keeps (activeKey?_of_active (hactive j)) hn (hsame j))
    fun j l' hj hl' => absurd (level?_lt e' j hl') (by omega)

/-- Work with messages. -/
theorem quiet (h : LinedUp since k mark e p) (hs : e'.still = e.still) : LinedUp since k mark e' p :=
  h.within (fun i => .of_level? (level?_of_still hs i)) (fun _ _ hn => exists_node?_of_still hs hn)
    (by rw [levels_of_still hs]) (fun j => by rw [level?_of_still hs]) (fun _ ha => ha) fun _ => rfl

/-- A table is built anew. -/
theorem refresh (h : LinedUp since k mark e (.refresh j :: p)) : LinedUp since k mark (e.refresh j) p := by
  refine h.within (fun i => resembles_makes (a := .refresh j) rfl) (.of_node? fun n => node?_refresh e n j) ?_ (fun i => ?_)
    (fun a ha => List.mem_cons_of_mem _ ha) fun i => (upcoming_cons_of_none rfl i p).symm
  · unfold Engine.refresh
    split
    · rfl
    · exact Array.size_modify
  · obtain ⟨rs, hrs⟩ := level?_refresh e i j
    rw [hrs]
    split
    · cases e.level? i <;> rfl
    · rfl

/-- The node whose turn it is does not come. -/
theorem skip {ts : Templates} (h : LinedUp since k mark e (.create j r ts :: p)) : LinedUp since k mark e p := by
  refine h.step (fun i => .refl e) (fun a ha => .inl (List.mem_cons_of_mem _ ha)) (fun i l _ hline => ?_)
    fun i l' hi hl' => absurd (level?_lt e i hl') (Nat.not_lt_of_le hi)
  obtain ⟨done, todo, hline, htodo⟩ := hline
  by_cases hi : j = i
  · subst hi
    rw [upcoming_cons_self rfl] at htodo
    cases todo with
    | nil => cases htodo
    | cons pos todo =>
      exact ⟨done ++ [pos], todo, hline.pass, (List.cons.inj htodo).2⟩
  · rw [upcoming_cons_of_ne rfl hi] at htodo
    exact ⟨done, todo, hline, htodo⟩

theorem failCreation (h : LinedUp since k mark e p) (j : LevelKey) (r : Record) (fault : NodeFault) :
    LinedUp since k mark (e.failCreation j r fault) p := by
  refine h.within (fun i => resembles_failCreation e j r fault) (.of_node? fun n => by simp)
    (levelCount_failCreation e j r fault) (fun i => ?_) (fun _ ha => ha) fun _ => rfl
  rw [level?_failCreation]
  split
  · cases e.level? i <;> rfl
  · rfl

/-- The node whose turn it is enters its level. -/
theorem enter {a : Action} (h : LinedUp since k mark e (a :: p)) (ha : a.made? = some (j, r.id)) (hl : e.level? j = some l)
    (hmem : r ∈ l.config.nodes) (lookup : Lookup) (part : Part) :
    LinedUp since k mark (e.enter j (Scope.resolveRecord lookup r) part) p := by
  refine h.step (fun i => resembles_enter e j _ part) (fun a ha => .inl (List.mem_cons_of_mem _ ha))
    (fun i l' hl' hline => ?_) fun i l' hi hl' => absurd (level?_lt _ i hl') (by rw [levelCount_enter]; omega)
  by_cases hi : j = i
  · subst hi
    obtain rfl := Option.some.inj (hl.symm.trans hl')
    obtain ⟨done, todo, hline, htodo⟩ := hline
    rw [upcoming_cons_self ha] at htodo
    cases todo with
    | nil => cases htodo
    | cons pos todo =>
      obtain ⟨hid, hrest⟩ := List.cons.inj htodo
      obtain ⟨r', hr', -⟩ := hline.enabled (List.mem_append_right done List.mem_cons_self)
      obtain ⟨pos', hpos'⟩ := List.mem_iff_getElem?.mp hmem
      rw [StartOrder.idAt_of_getElem? hr'] at hid
      obtain rfl := StartOrder.eq_of_same_id hline.distinct hpos' hr' hid
      exact ⟨done ++ [pos'], todo, hline.enter hl hpos' lookup part, hrest⟩
  · refine hline.keeps (fun id => ?_) (.enter e j _ part) (upcoming_cons_of_ne ha hi p).symm
    rw [activeKey?_enter, if_neg hi]

/-- A usage node with its instance enters its level. -/
theorem install {usage : Record} (h : LinedUp since k mark e (.install j usage i :: p)) :
    LinedUp since k mark (e.install j usage i) p := by
  obtain ⟨l, r, lookup, hl, hmem, rfl⟩ := h.sourced _ List.mem_cons_self
  have hm : LinedUp since k mark (e.modifyLevel j fun l => { l with instances := l.instances.insert r.id i })
      (.install j (Scope.resolveRecord lookup r) i :: p) := by
    refine h.within (fun i' => .modifyLevel e j fun _ _ => ⟨⟨rfl, rfl, rfl⟩, rfl, rfl⟩) (.of_node? fun _ => rfl)
      Array.size_modify (fun i' => ?_) (fun _ ha => ha) fun _ => rfl
    rw [level?_modifyLevel]
    split
    · cases e.level? i' <;> rfl
    · rfl
  exact hm.enter (r := r) (l := { l with instances := l.instances.insert r.id i }) rfl
    (by rw [level?_modifyLevel, if_pos rfl, hl]; rfl) hmem lookup (.standIn i)

/-- A level comes into being whose nodes stand in line. -/
theorem grow (h : LinedUp since k mark e p) (hlevel : ∀ i, i ≠ e.levels.size → e'.level? i = e.level? i)
    (hn : KeepsNodes e e') (hsourced : ∀ a ∈ q, a ∈ p ∨ e'.Sourced a)
    (hsame : ∀ i, i ≠ e.levels.size → upcoming i q = upcoming i p)
    (hnew : ∀ l', e'.level? e.levels.size = some l' → InLineFor mark e' q e.levels.size l'.config.nodes) :
    LinedUp since k mark e' q := by
  refine h.step (resembles_of_new hlevel) hsourced (fun i l hl hline => ?_) fun i l' hi hl' => ?_
  · have hi : i ≠ e.levels.size := Nat.ne_of_lt (level?_lt e i hl)
    exact hline.keeps (activeKey?_of_active (by rw [hlevel i hi])) hn (hsame i hi)
  · by_cases hi' : i = e.levels.size
    · subst hi'
      exact hnew l' hl'
    · rw [hlevel i hi'] at hl'
      exact absurd (level?_lt e i hl') (Nat.not_lt_of_le hi)

end LinedUp

/-! ## Steps that make nodes -/

namespace LinedUp

variable {t : Template} {usage : Record} {outer : Wires} {next : Nat} {ts : Templates}

theorem nodup_expand? (ht : (t.nodes.map (·.id)).Nodup) (hx : (Binding.make t usage next).expand? outer = some nodes) :
    (nodes.map (·.id)).Nodup := by
  rw [Binding.expand?_ids (Binding.fitting_make t usage next) hx]
  exact Binding.members_nodup ht

/-- An instance whose nodes have no order has no nodes. -/
theorem collapse (h : LinedUp since k mark e p) (ht : (t.nodes.map (·.id)).Nodup)
    (hx : (Binding.make t usage next).expand? outer = some nodes) :
    LinedUp since k mark (e.withInstance j l (.make t usage next) nodes) p := by
  have hlevel (i : LevelKey) := level?_withInstance e j l (.make t usage next) nodes i
  refine h.grow (fun i hi => by rw [hlevel, if_neg hi]) (.of_node? fun _ => rfl) (fun a ha => .inl ha) (fun _ _ => rfl)
    fun l' hl' => ⟨[], [], ?_, upcoming_of_size_le h.sourced (Nat.le_refl _)⟩
  rw [hlevel, if_pos rfl] at hl'
  cases hl'
  refine .fresh (nodup_expand? ht hx) (.inl rfl) fun id n ha => ?_
  rw [activeKey?, hlevel, if_pos rfl] at ha
  cases ha

/-- The nodes of an instance line up, and the usage node keeps its turn behind them. -/
theorem opened (h : LinedUp since k mark e (.create j r ts :: p)) (hl : e.level? j = some l)
    (ht : (t.nodes.map (·.id)).Nodup) (hx : (Binding.make t (e.resolvedAt j r) next).expand? outer = some nodes)
    (ho : StartOrder.resolve nodes = .ok order) :
    ∃ pushed, (e.opened j l (.make t (e.resolvedAt j r) next) nodes order).agenda = pushed ++ e.agenda ∧
      LinedUp since k mark (e.opened j l (.make t (e.resolvedAt j r) next) nodes order) (loud pushed ++ p) := by
  let c := (instanceLevel j l (.make t (e.resolvedAt j r) next) nodes).config
  obtain ⟨env, hlevel⟩ := level?_opened e j l (.make t (e.resolvedAt j r) next) nodes order
  have hothers (i : LevelKey) (hi : i ≠ e.levels.size) := (hlevel i).trans (if_neg hi)
  have hnew := (hlevel e.levels.size).trans (if_pos rfl)
  obtain ⟨htidy, l', hl', htemplates, hmem⟩ := h.sourced _ List.mem_cons_self
  obtain rfl := Option.some.inj (hl.symm.trans hl')
  have hagenda : (e.opened j l (.make t (e.resolvedAt j r) next) nodes order).agenda =
      creations e.levels.size c order ++ [.refresh e.levels.size] ++ [.install j (e.resolvedAt j r) e.levels.size] ++
        e.agenda := by
    rw [List.append_assoc]
    rfl
  have hloud : loud (creations e.levels.size c order ++ [.refresh e.levels.size] ++
      [.install j (e.resolvedAt j r) e.levels.size]) = creations e.levels.size c order ++
        .refresh e.levels.size :: [.install j (e.resolvedAt j r) e.levels.size] := by
    rw [loud_append, loud, filter_creations, List.append_assoc]
    rfl
  refine ⟨_, hagenda, ?_⟩
  rw [hloud, List.append_assoc]
  refine h.grow hothers (.of_node? fun _ => rfl) (fun a ha => ?_) (fun i hi => upcoming_behind rfl (Ne.symm hi))
    fun l' hl' => ?_
  · rcases List.mem_append.mp ha with ha | ha
    · obtain ⟨r', hr', rfl⟩ := mem_creations ha
      exact .inr ⟨htemplates ▸ htidy, _, hnew, rfl, hr'⟩
    · rcases List.mem_cons.mp ha with rfl | ha
      · exact .inr trivial
      · rcases List.mem_cons.mp ha with rfl | ha
        · have hsourced : e.Sourced (.install j (e.resolvedAt j r) e.levels.size) := ⟨l, r, e.setting j, hl, hmem, rfl⟩
          exact .inr (hsourced.resembles (resembles_of_new hothers))
        · exact .inl (List.mem_cons_of_mem _ ha)
  · obtain rfl := Option.some.inj (hnew.symm.trans hl')
    have hrest : upcoming e.levels.size p = [] :=
      upcoming_of_size_le (fun a ha => h.sourced a (List.mem_cons_of_mem _ ha)) (Nat.le_refl _)
    refine ⟨[], order, .fresh (nodup_expand? ht hx) (.inr ho) fun id n ha => ?_, ?_⟩
    · rw [activeKey?, hnew] at ha
      cases ha
    · exact upcoming_instance (fun pos hpos => (StartOrder.mem_resolve ho).mp hpos) (Nat.ne_of_lt (level?_lt e j hl)) hrest

/-- Whatever the making of a node comes to, the nodes stand in line. -/
theorem create (h : LinedUp since k mark e (.create j r ts :: p)) :
    ∃ pushed, LinedUp since k mark (e.create j r ts) (loud pushed ++ p) ∧
      ((e.create j r ts).broken = false → (e.create j r ts).agenda = pushed ++ e.agenda) := by
  obtain ⟨htidy, l, hl, -, hmem⟩ := h.sourced _ List.mem_cons_self
  have hc := creates_create e j r ts
  generalize e.create j r ts = s at hc ⊢
  cases hc with
  | present => exact ⟨[], h.skip, fun _ => rfl⟩
  | noTemplate => exact ⟨[], h.skip.failCreation _ _ _, fun _ => agenda_failCreation _ _ _ _⟩
  | refused => exact ⟨[], h.skip.failCreation _ _ _, fun _ => agenda_failCreation _ _ _ _⟩
  | @made part notes _ _ hb =>
    obtain ⟨pushed, hpushed, hloud, -⟩ := agenda_enter hb (e.note notes) j
    refine ⟨pushed, ?_, fun _ => hpushed⟩
    rw [hloud]
    exact (h.quiet (quiet_note e notes).still).enter rfl hl hmem (e.setting j) part
  | @usage id t s _ _ ht ho =>
    cases ho with
    | nowhere hl' =>
      rw [hl] at hl'
      cases hl'
    | breaks =>
      refine ⟨[], ?_, fun hb => by cases hb⟩
      exact h.skip.within (fun _ => .of_level? rfl) (.of_node? fun _ => rfl) rfl (fun _ => rfl) (fun _ ha => ha)
        fun _ => rfl
    | collapses _ hx _ =>
      exact ⟨[], (h.skip.collapse (htidy id t ht) hx).failCreation _ _ _, fun _ => agenda_failCreation _ _ _ _⟩
    | opens hl' hx ho =>
      obtain ⟨pushed, hpushed, hs⟩ := h.opened hl' (htidy id t ht) hx ho
      exact ⟨pushed, hs, fun _ => hpushed⟩

/-- What is made next. -/
theorem make {a : Action} (h : LinedUp since k mark e (a :: p)) :
    ∃ pushed, LinedUp since k mark (e.act a) (loud pushed ++ p) ∧
      ((e.act a).broken = false → (e.act a).agenda = pushed ++ e.agenda) := by
  cases a with
  | create => exact h.create
  | install => exact ⟨[], h.install, fun _ => rfl⟩
  | refresh j => exact ⟨[], h.refresh, fun _ => Stops.agenda (stops_refresh e j)⟩
  | _ => exact (h.sourced _ List.mem_cons_self).elim

/-- The nodes of a flow stand in line as long as it is being made. -/
theorem works (h : LinedUp since k mark e p) (ha : ∃ above, e.agenda = above ++ base ∧ loud above = p)
    (hw : Works base e steps E) :
    ∃ p, LinedUp since k mark E p ∧ (E.broken = false → ∃ above, E.agenda = above ++ base ∧ loud above = p) := by
  induction hw with
  | refl => exact ⟨p, h, fun _ => ha⟩
  | @quiet n m a above _ hb ha' hq ih =>
    obtain ⟨p, hp, hplan⟩ := ih
    obtain ⟨above', hagenda, rfl⟩ := hplan hb
    obtain rfl : a :: above = above' := List.append_cancel_right (ha'.symm.trans hagenda)
    have hquiet := quiet_act { m with agenda := above ++ base } hq
    obtain ⟨pushed, hpushed, hall⟩ := hquiet.pushes
    rw [loud_cons_of_quiet hq] at hp
    refine ⟨loud above, hp.quiet hquiet.still, fun _ => ⟨pushed ++ above, by rw [hpushed, List.append_assoc], ?_⟩⟩
    rw [loud_append, loud_of_quiet hall, List.nil_append]
  | @make n m a above _ hb ha' hq ih =>
    obtain ⟨p, hp, hplan⟩ := ih
    obtain ⟨above', hagenda, rfl⟩ := hplan hb
    obtain rfl : a :: above = above' := List.append_cancel_right (ha'.symm.trans hagenda)
    rw [loud_cons hq] at hp
    obtain ⟨pushed, hs, hpushed⟩ := LinedUp.make (e := { m with agenda := above ++ base }) (hp.quiet rfl)
    refine ⟨_, hs, fun hb' => ⟨pushed ++ above, by rw [hpushed hb', List.append_assoc], loud_append _ _⟩⟩

end LinedUp

/-! ## Starts -/

variable {key : CallKey} {call : Call} {rest : List Stage}

/-- The engine in which a start that has been accepted applies the configuration of its flow. -/
def accepted (e : Engine) (key : CallKey) (base : List Action) (rest : List Stage) (k : LevelKey) (c : FlowConfig) :
    Engine :=
  (((e.taken key base rest).modifyLevel k fun l => { l with failures := [] }).proceed key [.apply k c none]).taken key
    base rest

/-- A start that is accepted goes on to make the nodes of its flow. -/
theorem reach_accepted (hb : e.broken = false) (ha : e.agenda = .resume key :: base) (hcall : e.call? key = some call)
    (hw : call.waiting = []) (hs : call.stages = .start k none :: rest) (hl : e.level? k = some l)
    (hc : checkStart l none = .ok ()) : Reach e ((e.accepted key base rest k l.config).apply key k l.config none) := by
  let cleared := (e.taken key base rest).modifyLevel k fun l => { l with failures := [] }
  have hstart : ({ e with agenda := base } : Engine).act (.resume key) = cleared.proceed key [.apply k l.config none] := by
    refine (act_resume hcall hw hs).trans ?_
    have hl' : (e.taken key base rest).level? k = some l := hl
    change (e.taken key base rest).start key k none = _
    rw [Engine.start, hl']
    dsimp only
    rw [hc]
  have hcall' : (cleared.proceed key [.apply k l.config none]).call? key =
      some { call with stages := .apply k l.config none :: rest } := by
    refine call?_proceed (c := { call with stages := rest }) ?_ _
    change (e.taken key base rest).call? key = _
    rw [taken, call?_modifyCall, if_pos rfl]
    exact congrArg _ hcall
  have happly : ({ cleared.proceed key [.apply k l.config none] with agenda := base } : Engine).act (.resume key) =
      (e.accepted key base rest k l.config).apply key k l.config none := act_resume hcall' hw rfl
  have hfirst : Tick e _ := .act hb ha
  rw [hstart] at hfirst
  have hagain : (cleared.proceed key [.apply k l.config none]).agenda = .resume key :: base := rfl
  have hsecond : Tick (cleared.proceed key [.apply k l.config none]) _ := .act hb hagain
  rw [happly] at hsecond
  exact (Reach.single hfirst).tail hsecond

theorem sound_of_checkStart {diff : Option Diff} (hc : checkStart l diff = .ok ()) : l.config.Sound := by
  unfold checkStart at hc
  split at hc
  · cases hc
  · rename_i order hv
    exact ⟨order, hv⟩

/-- The nodes of a flow that is to be activated line up. -/
theorem linedUp_activated (hl : e.level? k = some l) (hd : (l.config.nodes.map (·.id)).Nodup) (ht : Tidy l.config.templates)
    (ho : StartOrder.resolve l.config.nodes = .ok order) (hold : ∀ id n, e.activeKey? k id = some n → n < mark) :
    LinedUp e.levels.size k mark (e.activated k l.config order) (creations k l.config order ++ [.refresh k]) := by
  have hlevel (j : LevelKey) := level?_activated e k l.config order j
  have hsize : (e.activated k l.config order).levels.size = e.levels.size := Array.size_modify
  have hk : (e.activated k l.config order).level? k =
      some { l with env := Scope.evaluate (e.settingAround k) l.config.env } := by
    rw [hlevel, if_pos rfl, hl]
    rfl
  have hactive : ((e.activated k l.config order).level? k).map Level.active = (e.level? k).map Level.active := by
    rw [hk, hl]
    rfl
  refine ⟨fun a ha => ?_, fun j l' hj hl' => ?_⟩
  · rcases List.mem_append.mp ha with ha | ha
    · obtain ⟨r, hr, rfl⟩ := mem_creations ha
      exact ⟨ht, _, hk, rfl, hr⟩
    · obtain rfl := List.mem_singleton.mp ha
      trivial
  · obtain rfl : j = k := hj.resolve_right fun hj => Nat.not_lt_of_le hj (hsize ▸ level?_lt _ j hl')
    rw [hk] at hl'
    cases hl'
    refine ⟨[], order, .fresh hd (.inr ho) fun id n ha => hold id n (activeKey?_of_active hactive id ▸ ha), ?_⟩
    rw [upcoming_append, upcoming_creations fun pos hpos => (StartOrder.mem_resolve ho).mp hpos]
    exact List.append_nil _

/-- A start that is accepted makes the nodes of its flow behind the config nodes. It goes on to make them, and at each
moment until the flow is announced this holds at the level of the flow and in every instance that has come since: a node
that the start has made, of a record with what its tokens stand for, has a larger creation index than any other active
config node of its level, unless it is itself a config node. Then it has if the record names that config node. -/
theorem made_behind_config_nodes (hreach : Reachable e) (hb : e.broken = false) (ha : e.agenda = .resume key :: base)
    (hcall : e.call? key = some call) (hw : call.waiting = []) (hs : call.stages = .start k none :: rest)
    (hl : e.level? k = some l) (hparsed : l.config.Parsed) (hc : checkStart l none = .ok ()) :
    Reach e ((e.accepted key base rest k l.config).apply key k l.config none) ∧
    ∀ steps E, Works (.announce k :: .resume key :: base)
        ((e.accepted key base rest k l.config).apply key k l.config none) steps E →
      ∀ j l' id n, Recent e.levels.size k j → E.level? j = some l' → E.activeKey? j id = some n → e.nodes.size ≤ n →
        E.ComesBehind j l'.config.nodes id n := by
  refine ⟨reach_accepted hb ha hcall hw hs hl hc, fun steps E hworks j l' id n hj hl' hn hm => ?_⟩
  obtain ⟨order, hv⟩ := sound_of_checkStart hc
  have ho := (StartOrder.layered_validate hv).1
  let s := e.accepted key base rest k l.config
  have hls : s.level? k = some { l with failures := [] } := by
    change (Engine.modifyLevel _ k _).level? k = _
    rw [level?_modifyLevel, if_pos rfl]
    exact congrArg (Option.map _) hl
  have hlaunching := level?_launching key l.config hls
  have hsize : (s.launching key k l.config).levels.size = e.levels.size := Array.size_modify.trans Array.size_modify
  have hactive : ((s.launching key k l.config).level? k).map Level.active = (e.level? k).map Level.active := by
    rw [hlaunching, hl]
    rfl
  have hold (id : NodeId) (n : NodeKey) (hn : (s.launching key k l.config).activeKey? k id = some n) :
      n < e.nodes.size :=
    hreach.layout.laid.activeKey?_lt (activeKey?_of_active hactive id ▸ hn)
  have hlined := linedUp_activated hlaunching hparsed.nodup hparsed.tidy ho hold
  rw [hsize] at hlined
  rw [apply_eq key hls ho] at hworks
  obtain ⟨p, hp, -⟩ := hlined.works ⟨_, rfl, filter_creations k l.config order⟩ hworks
  obtain ⟨done, todo, hline, -⟩ := hp.inLine j l' hj hl'
  exact hline.comesBehind hn hm

end Engine

namespace Session
open Engine

/-- A tab whose variable stands for a config node. A node and another config node have a token for it. -/
def tokenRecords : List Json := [
  .obj [("env", .arr [.obj [("name", .str "CFG"), ("value", .str "c2")]]), ("id", .str "t"), ("type", .str "tab")],
  .obj [("id", .str "n"), ("server", .str "$(CFG)"), ("type", .str "pass"), ("wires", .arr []), ("z", .str "t")],
  .obj [("cfg", .arr [.str "$(CFG)"]), ("id", .str "c1"), ("type", .str "pass"), ("z", .str "t")],
  .obj [("id", .str "c2"), ("type", .str "pass"), ("z", .str "t")]]

def tokenTab : FlowConfig := firstTab tokenRecords

def tokenEngine : Engine :=
  { ((Engine.make forwarding .standalone [] [] 500).addLevel (.make .tab none tokenTab)).1 with keptLevels := [0] }

/-- The tab is about to be started. -/
def tokenTurn : Engine := turnOf (tokenEngine.begin [.start 0 none]).1 0

def tokenStart : Engine := tokenTurn.accepted 0 [] [] 0 tokenTab

/-- The tab has been started. -/
def tokenFlow : Engine := Engine.finishWithin 40 (tokenStart.apply 0 0 tokenTab none)

theorem tokenTab_checks : (Deployment.parse tokenRecords).isOk = true ∧ StartOrder.validate tokenTab = .ok [1, 2, 0] ∧
    tokenTab.templates.isEmpty = true ∧
    ∀ r ∈ tokenTab.nodes, r.id = "n" → r.references.contains "c2" = false := by
  decide +kernel

theorem tokenFlow_run : (tokenFlow.agenda.isEmpty = true ∧
      (tokenFlow.level? 0).map (·.active) = some [("c1", 0), ("c2", 1), ("n", 2)]) ∧
    (tokenFlow.node? 0).map (fun node => node.record.refersTo "c2") = some true ∧
    (tokenFlow.node? 1).map (fun node => node.record.isConfigNode) = some true ∧
    (tokenFlow.node? 2).map (fun node => (node.record.isConfigNode, node.record.refersTo "c2")) = some (false, true) := by
  decide +kernel

theorem reachable_tokenTurn : Reachable tokenTurn := by
  have hmade : Reachable ((Engine.make forwarding .standalone [] [] 500).addLevel (.make .tab none tokenTab)).1 :=
    (Reachable.make _ _ _ _ _).input rfl (.flow (.inl rfl) (parsed_firstTab tokenTab_checks.1))
  have hengine : Reachable tokenEngine := hmade.input rfl (.keep [0] [])
  exact (hengine.input rfl (.call (.start 0 none))).tick (tick_turn rfl rfl (ready_begin _ _))

theorem checkStart_tokenTab : checkStart (.make .tab none tokenTab) none = .ok () :=
  checkStart_ok ⟨_, tokenTab_checks.2.1⟩ (by decide) fun _ => rfl

theorem reach_tokenStart : Reach tokenTurn (tokenStart.apply 0 0 tokenTab none) :=
  reach_accepted (l := .make .tab none tokenTab) rfl rfl rfl rfl rfl rfl checkStart_tokenTab

/-- The tab has been activated: the two config nodes have come first, as they are declared. -/
theorem activated_tokenTab : ∃ steps E, Works [.announce 0, .resume 0] (tokenStart.apply 0 0 tokenTab none) steps E ∧
    E.agenda = [.announce 0, .resume 0] ∧ (∃ l, E.level? 0 = some l ∧ l.config = tokenTab) ∧
    (E.activeKey? 0 "c1" = some 0 ∧ E.activeKey? 0 "c2" = some 1 ∧ E.activeKey? 0 "n" = some 2) ∧
    (∃ c1, E.node? 0 = some c1 ∧ c1.record.Mentions "c2") ∧
    (∃ c2, E.node? 1 = some c2 ∧ c2.record.isConfigNode = true) ∧
    ∃ n, E.node? 2 = some n ∧ n.record.isConfigNode = false ∧ n.record.Mentions "c2" := by
  obtain ⟨⟨hidle, hactive⟩, hc1, hc2, hn⟩ := tokenFlow_run
  have hv := tokenTab_checks.2.1
  have hl : tokenStart.level? 0 = some (.make .tab none tokenTab) := rfl
  have hlaunching := level?_launching 0 tokenTab hl
  have happly := apply_eq 0 hl (StartOrder.layered_validate hv).1
  have hready : Ready tokenTab.templates tokenStart.nextPrivate := fun id t ht => by
    rw [List.isEmpty_iff.mp tokenTab_checks.2.2.1] at ht
    cases ht
  have hkinds : (tokenStart.launching 0 0 tokenTab).registry.Idle := fun r b notes h => by rw [create_forwarding h]; rfl
  obtain ⟨steps, E, hworks, hend⟩ := activation_ends rfl hlaunching hv hready hkinds
  obtain ⟨-, -, l, hlevel, hconfig, -⟩ := activation_keeps rfl hlaunching hv hready hworks
  have hstarted : Started tokenStart 0 0 (.make .tab none tokenTab) E :=
    ⟨rfl, hl, rfl, fun _ => rfl, ⟨_, hv⟩, ⟨steps, happly ▸ hworks⟩, hend⟩
  have hendures := hstarted.endures hready rfl rfl rfl rfl (List.isEmpty_iff.mp hidle)
  have hreach : Reachable E := (reachable_tokenTurn.reach reach_tokenStart).reach (happly ▸ hworks).reach
  have hkey (id : NodeId) : E.activeKey? 0 id = Dict.get? [("c1", 0), ("c2", 1), ("n", 2)] id := by
    have hl' : tokenFlow.level? 0 = some l := hendures.levels 0 l (.inl rfl) hlevel
    rw [hl'] at hactive
    have hactive : l.active = [("c1", 0), ("c2", 1), ("n", 2)] := Option.some.inj hactive
    rw [activeKey?, hlevel, Option.bind_some, hactive]
  -- a node of the started tab is that of the activated one
  have hnode {id : NodeId} {n : NodeKey} (hk : E.activeKey? 0 id = some n) :
      ∃ node node', E.node? n = some node ∧ tokenFlow.node? n = some node' ∧ node'.record = node.record := by
    rw [activeKey?, hlevel] at hk
    obtain ⟨node, hnode, hat, -⟩ := (hreach.layout.laid 0 l hlevel).active id n hk
    obtain ⟨node', hnode', hs⟩ := hendures.nodes n node hnode (.inl hat)
    exact ⟨node, node', hnode, hnode', (congrArg Node.record hs :)⟩
  have h0 : E.activeKey? 0 "c1" = some 0 := hkey "c1"
  have h1 : E.activeKey? 0 "c2" = some 1 := hkey "c2"
  have h2 : E.activeKey? 0 "n" = some 2 := hkey "n"
  obtain ⟨c1, c1', hnode₀, hnode₀', hr₀⟩ := hnode h0
  obtain ⟨c2, c2', hnode₁, hnode₁', hr₁⟩ := hnode h1
  obtain ⟨n, n', hnode₂, hnode₂', hr₂⟩ := hnode h2
  rw [hnode₀'] at hc1
  rw [hnode₁'] at hc2
  rw [hnode₂'] at hn
  obtain ⟨hplain, hmentions⟩ := Prod.mk.inj (Option.some.inj hn)
  exact ⟨steps, E, happly ▸ hworks, hend, ⟨l, hlevel, hconfig⟩, ⟨h0, h1, h2⟩,
    ⟨c1, hnode₀, hr₀ ▸ (Record.refersTo_iff.mp (Option.some.inj hc1)).2⟩, ⟨c2, hnode₁, hr₁ ▸ Option.some.inj hc2⟩,
    n, hnode₂, hr₂ ▸ hplain, hr₂ ▸ (Record.refersTo_iff.mp hmentions).2⟩

/-- The node that only a token gives the config node has come behind it. -/
theorem token_user_made_behind : checkStart (.make .tab none tokenTab) none = .ok () ∧
    ∃ steps E, Works [.announce 0, .resume 0] (tokenStart.apply 0 0 tokenTab none) steps E ∧
      E.activeKey? 0 "c2" = some 1 ∧ E.activeKey? 0 "n" = some 2 ∧
      ∃ r ∈ tokenTab.nodes, ∃ node, r.id = "n" ∧ E.node? 2 = some node ∧ node.record.Mentions "c2" ∧ ¬r.Mentions "c2" ∧
        (1 : NodeKey) < 2 := by
  obtain ⟨steps, E, hworks, -, ⟨l, hl, hconfig⟩, ⟨-, h1, h2⟩, -, ⟨c2, hc2, hc⟩, n, hn, hplain, hmentions⟩ :=
    activated_tokenTab
  have hcall : tokenTurn.call? 0 = some (Call.make [.start 0 none] tokenEngine.now) := rfl
  have hlevel : tokenTurn.level? 0 = some (.make .tab none tokenTab) := rfl
  have hagenda : tokenTurn.agenda = [.resume 0] := rfl
  obtain ⟨-, hall⟩ := made_behind_config_nodes reachable_tokenTurn rfl hagenda hcall rfl rfl hlevel
    (parsed_firstTab tokenTab_checks.1) checkStart_tokenTab
  obtain ⟨r, hr, node, lookup, hid, hnode, hrecord, hbehind⟩ :=
    hall steps E hworks 0 l "n" 2 (.inl rfl) hl h2 (Nat.zero_le 2)
  obtain rfl := Option.some.inj (hn.symm.trans hnode)
  rw [hconfig] at hr
  refine ⟨checkStart_tokenTab, steps, E, hworks, h1, h2, r, hr, n, hid, hn, hmentions, fun hm => ?_,
    hbehind "c2" 1 c2 h1 hc2 hc (by decide) (.inl hplain)⟩
  have hrefers : r.refersTo "c2" = true := Record.refersTo_iff.mpr ⟨by rw [hid]; decide, hm⟩
  rw [Record.refersTo, tokenTab_checks.2.2.2 r hr hid, Bool.and_false] at hrefers
  cases hrefers

/-- A config node has been made before the one that its token stands for. -/
theorem token_config_made_before : Reachable tokenTurn ∧ tokenTurn.broken = false ∧ tokenTurn.agenda = [.resume 0] ∧
    (∃ call, tokenTurn.call? 0 = some call ∧ call.waiting = [] ∧ call.stages = [.start 0 none]) ∧
    tokenTurn.level? 0 = some (.make .tab none tokenTab) ∧ checkStart (.make .tab none tokenTab) none = .ok () ∧
    Reach tokenTurn (tokenStart.apply 0 0 tokenTab none) ∧
    ∃ steps E, Works [.announce 0, .resume 0] (tokenStart.apply 0 0 tokenTab none) steps E ∧
      E.agenda = [.announce 0, .resume 0] ∧ ∃ n m node config, E.activeKey? 0 "c1" = some n ∧ E.activeKey? 0 "c2" = some m ∧
        E.node? n = some node ∧ E.node? m = some config ∧ config.record.isConfigNode = true ∧
        node.record.Mentions "c2" ∧ ¬m < n := by
  obtain ⟨steps, E, hworks, hend, -, ⟨h0, h1, -⟩, ⟨c1, hc1, hmentions⟩, ⟨c2, hc2, hc⟩, -⟩ := activated_tokenTab
  have hcall : tokenTurn.call? 0 = some (Call.make [.start 0 none] tokenEngine.now) := rfl
  have hlevel : tokenTurn.level? 0 = some (.make .tab none tokenTab) := rfl
  refine ⟨reachable_tokenTurn, rfl, rfl, ⟨_, hcall, rfl, rfl⟩, hlevel, checkStart_tokenTab, reach_tokenStart, ?_⟩
  exact ⟨steps, E, hworks, hend, 0, 1, c1, c2, h0, h1, hc1, hc2, hc, hmentions, Nat.not_lt_zero 1⟩

end Session
end Flowgraph
