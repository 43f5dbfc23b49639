import Flowgraph.Proofs.Dockets
import Flowgraph.Proofs.Usage
/-! Who leaves when a stop begins. Each node that leaves is given one order to close, as the stop was asked for: the
nodes of its own level, and with a usage node everything in its instance. -/
namespace Flowgraph

/-- The stop is asked for a node of this id, if there is one. -/
def StopRequest.Covers (r : StopRequest) (id : NodeId) : Prop := ∀ ids, r.filter = some ids → id ∈ ids

/-- The stop takes an entry out of its own level, or with a usage node out of its instance. What is inside goes
as the usage node does. -/
inductive StopRequest.Takes (r : StopRequest) (e : Engine) : LevelKey → NodeId → Bool → Prop
  | own {id : NodeId} (hc : r.Covers id) : Takes r e r.level id (r.removal.holds id)
  | nested {u : NodeId} {i j : LevelKey} {id : NodeId} (hc : r.Covers u) (hi : e.instance? r.level u = some i)
      (hin : e.Inside i j) : Takes r e j id (r.removal.holds u)

namespace Engine

variable {e e' e'' : Engine} {i j k : LevelKey} {id : NodeId} {n : NodeKey}

/-- A node is among the active ones of its level. -/
def IsActive (e : Engine) (n : NodeKey) : Prop := ∃ j id, e.activeKey? j id = some n

/-! ## Stops only take away -/

namespace Dwindles

theorem isActive (h : Dwindles e e') (hn : e'.IsActive n) : e.IsActive n := by
  obtain ⟨j, id, hn⟩ := hn
  exact ⟨j, id, h.active j id n hn⟩

theorem inside (h : Dwindles e e') (hi : e'.Inside i j) : e.Inside i j := by
  induction hi with
  | here => exact .here
  | deeper _ hi ih => exact .deeper ih (h.inst _ _ _ hi)

theorem takes (h : Dwindles e e') {r : StopRequest} {removed : Bool} (ht : r.Takes e' j id removed) :
    r.Takes e j id removed := by
  cases ht with
  | own hc => exact .own hc
  | nested hc hi hin => exact .nested hc (h.inst _ _ _ hi) (h.inside hin)

end Dwindles

/-! ## The nodes of the stop's own level -/

theorem mem_stopTargets (hl : Laid e) {r : StopRequest} {l : Level} (hlevel : e.level? r.level = some l) :
    n ∈ e.stopTargets l r.filter ↔ ∃ id, e.activeKey? r.level id = some n ∧ r.Covers id := by
  have hget (id : NodeId) : e.activeKey? r.level id = l.active.get? id := by rw [activeKey?, hlevel, Option.bind_some]
  unfold stopTargets StopRequest.Covers
  rw [List.mem_mergeSort]
  cases r.filter with
  | none =>
    constructor
    · intro hn
      obtain ⟨id, hid⟩ := Dict.exists_key_of_mem_values (hl _ l hlevel).sortedActive hn
      exact ⟨id, (hget id).trans hid, by simp⟩
    · rintro ⟨id, hid, -⟩
      exact Dict.mem_values ((hget id).symm.trans hid)
  | some ids =>
    simp only [List.mem_filterMap, List.mem_eraseDups, Option.some.injEq, forall_eq', hget]
    constructor
    · rintro ⟨id, hm, hid⟩
      exact ⟨id, hid, hm⟩
    · rintro ⟨id, hid, hm⟩
      exact ⟨id, hm, hid⟩

theorem LevelLaid.node_inj {l : Level} (h : LevelLaid e k l) {id id' : NodeId} (hn : l.active.get? id = some n)
    (hn' : l.active.get? id' = some n) : id = id' := by
  obtain ⟨node, hnode, -, rfl⟩ := h.active id n hn
  obtain ⟨node', hnode', -, rfl⟩ := h.active id' n hn'
  rw [hnode] at hnode'
  cases hnode'
  rfl

theorem nodup_stopTargets {l : Level} (h : LevelLaid e k l) (filter : Option (List NodeId)) :
    (e.stopTargets l filter).Nodup := by
  unfold stopTargets
  rw [(List.mergeSort_perm _ _).nodup_iff]
  cases filter with
  | none =>
    refine (List.nodup_map_iff_inj_on h.sortedActive.nodup.of_map).mpr fun entry he entry' he' hv => ?_
    have hn : l.active.get? entry.1 = some entry.2 := Dict.get?_of_mem h.sortedActive he
    have hn' : l.active.get? entry'.1 = some entry'.2 := Dict.get?_of_mem h.sortedActive he'
    rw [← hv] at hn'
    exact Prod.ext (h.node_inj hn hn') hv
  | some ids =>
    exact List.Nodup.filterMap (fun id id' n hn hn' => h.node_inj hn hn') (nodup_eraseDups ids)

/-! ## Departures -/

/-- The nodes that leave, each with its order to close. -/
structure Departs (e e' : Engine) (orders : List Order) : Prop where
  stops : Stops e e'
  once : (orders.map (·.node)).Nodup
  left : ∀ n, n ∈ orders.map (·.node) ↔ e.IsActive n ∧ ¬e'.IsActive n

namespace Departs

variable {os os' : List Order}

/-- Nobody leaves. -/
theorem nobody (hs : Stops e e') (hn : ∀ j id, e'.activeKey? j id = e.activeKey? j id) : Departs e e' [] := by
  refine ⟨hs, List.nodup_nil, fun n => ⟨fun h => absurd h List.not_mem_nil, fun ⟨⟨j, id, ha⟩, hna⟩ => ?_⟩⟩
  exact absurd ⟨j, id, (hn j id).trans ha⟩ hna

theorem silent (h : Silent e e') : Departs e e' [] :=
  nobody h.stops fun j id => by rw [activeKey?, activeKey?, level?_of_still h.still]

theorem trans (hl : Laid e) (h : Departs e e' os) (h' : Departs e' e'' os') : Departs e e'' (os ++ os') := by
  have hd := h.stops.dwindles hl
  have hd' := h'.stops.dwindles (h.stops.laid hl)
  refine ⟨h.stops.trans h'.stops, ?_, fun n => ?_⟩
  · rw [List.map_append, List.nodup_append]
    refine ⟨h.once, h'.once, fun n hn m hm hnm => ?_⟩
    subst hnm
    exact ((h.left n).mp hn).2 ((h'.left n).mp hm).1
  · rw [List.map_append, List.mem_append, h.left, h'.left]
    constructor
    · rintro (⟨ha, hn⟩ | ⟨ha, hn⟩)
      · exact ⟨ha, fun hn' => hn (hd'.isActive hn')⟩
      · exact ⟨hd.isActive ha, hn⟩
    · rintro ⟨ha, hn⟩
      by_cases hm : e'.IsActive n
      · exact .inr ⟨hm, hn⟩
      · exact .inl ⟨ha, hm⟩

end Departs

/-! ## The nodes of the stop's own level leave at once -/

theorem activeKey?_withdraw (hl : Laid e) (k : LevelKey) (targets : List NodeKey) (j : LevelKey) (id : NodeId) :
    (e.withdraw k targets).activeKey? j id =
      if k = j then (e.activeKey? j id).filter fun n => !targets.contains n else e.activeKey? j id := by
  rw [activeKey?, level?_withdraw]
  split
  · rw [activeKey?]
    cases hj : e.level? j with
    | none => rfl
    | some l => exact Dict.get?_filter (hl j l hj).sortedActive _ id
  · rfl

theorem instance?_withdraw (k : LevelKey) (targets : List NodeKey) (j : LevelKey) (id : NodeId) :
    (e.withdraw k targets).instance? j id = e.instance? j id := by
  rw [instance?, level?_withdraw]
  split
  · rw [instance?]
    cases e.level? j <;> rfl
  · rfl

variable {r : StopRequest} {l : Level}

theorem activeKey?_vacated (hl : Laid e) (j : LevelKey) (id : NodeId) : (e.vacated l r).activeKey? j id =
    if r.level = j then (e.activeKey? j id).filter fun n => !(e.stopTargets l r.filter).contains n
    else e.activeKey? j id := by
  unfold vacated
  split
  · have hp : Stops e (e.modifyLevel r.level fun l => { l with phase := .stopping }) := StopsWithin.single (.phase _ _)
    have ha : (e.modifyLevel r.level fun l => { l with phase := .stopping }).activeKey? j id = e.activeKey? j id := by
      rw [activeKey?_modifyLevel]
      split <;> rfl
    rw [activeKey?_withdraw (hp.laid hl), ha]
  · exact activeKey?_withdraw hl _ _ _ _

theorem instance?_vacated (j : LevelKey) (id : NodeId) : (e.vacated l r).instance? j id = e.instance? j id := by
  unfold vacated
  split
  · rw [instance?_withdraw, instance?_modifyLevel]
    split <;> rfl
  · exact instance?_withdraw _ _ _ _

theorem isActive_vacated (hl : Laid e) (hlevel : e.level? r.level = some l) :
    (e.vacated l r).IsActive n ↔ e.IsActive n ∧ n ∉ e.stopTargets l r.filter := by
  constructor
  · rintro ⟨j, id, hn⟩
    rw [activeKey?_vacated hl] at hn
    split at hn
    · obtain ⟨hn, hout⟩ := Option.filter_eq_some_iff.mp hn
      exact ⟨⟨j, id, hn⟩, by simpa using hout⟩
    · rename_i hj
      refine ⟨⟨j, id, hn⟩, fun hm => ?_⟩
      obtain ⟨id', hn', -⟩ := (mem_stopTargets hl hlevel).mp hm
      exact hj (hl.activeKey?_inj hn' hn).1
  · rintro ⟨⟨j, id, hn⟩, hout⟩
    refine ⟨j, id, ?_⟩
    rw [activeKey?_vacated hl, hn]
    split
    · simp [Option.filter, hout]
    · rfl

/-- The order that a stop gives to a node of its own level. -/
def ordered (e : Engine) (r : StopRequest) (n : NodeKey) : Order :=
  ⟨n, r.removal.holds (((e.node? n).map (·.id)).getD "")⟩

theorem map_node_ordered (e : Engine) (r : StopRequest) (ns : List NodeKey) :
    (ns.map (e.ordered r)).map (·.node) = ns := by
  rw [List.map_map]
  exact List.map_id ns

theorem departs_vacated (hl : Laid e) (hlevel : e.level? r.level = some l) :
    Departs e (e.vacated l r) ((e.stopTargets l r.filter).map (e.ordered r)) := by
  refine ⟨stops_vacated hlevel fun _ _ _ _ _ _ => trivial, ?_, fun n => ?_⟩
  · rw [map_node_ordered]
    exact nodup_stopTargets (hl _ l hlevel) r.filter
  · rw [map_node_ordered, isActive_vacated hl hlevel]
    constructor
    · intro hm
      obtain ⟨id, hn, -⟩ := (mem_stopTargets hl hlevel).mp hm
      exact ⟨⟨_, id, hn⟩, fun h => h.2 hm⟩
    · rintro ⟨ha, hn⟩
      by_contra hm
      exact hn ⟨ha, hm⟩

/-! ## What is inside leaves with its usage node -/

/-- The order goes to a node in the instance of this usage node. -/
def NestedIn (e : Engine) (level : LevelKey) (n : NodeKey) (o : Order) : Prop :=
  ∃ node inst j id, e.node? n = some node ∧ e.instance? level node.id = some inst ∧
    e.activeKey? j id = some o.node ∧ e.Inside inst j

theorem NestedIn.before {o : Order} (hs : Stops e e') (hl : Laid e) (h : e'.NestedIn k n o) : e.NestedIn k n o := by
  obtain ⟨node, inst, j, id, hnode, hi, ha, hin⟩ := h
  have hd := hs.dwindles hl
  have hr := StopsWithin.record hs n
  rw [hnode] at hr
  obtain ⟨node', hnode', hrec⟩ := Option.map_eq_some_iff.mp hr.symm
  have hid : node'.id = node.id := congrArg Record.id hrec
  exact ⟨node', inst, j, id, hnode', hid ▸ hd.inst _ _ _ hi, hd.active _ _ _ ha, hd.inside hin⟩

theorem Inside.trans (h : e.Inside i j) (h' : e.Inside j k) : e.Inside i k := by
  induction h' with
  | here => exact h
  | deeper _ hi ih => exact .deeper ih hi

theorem Inside.of_instance (hi : e.instance? k id = some i) (h : e.Inside i j) : e.Inside k j :=
  Inside.trans (.deeper .here hi) h

/-- The stop of an instance with all that is inside, the nodes of which are all told the same. -/
def Empties (stopInner : Engine → StopRequest → Engine × Stopping) : Prop :=
  ∀ (e : Engine) (inst : LevelKey) (removed : Bool), Laid e → ∀ removal, removal = (if removed then .all else .none) →
    ∃ orders served, Departs e (stopInner e ⟨inst, none, removal⟩).1 orders ∧
      Serving e (stopInner e ⟨inst, none, removal⟩).1 orders (stopInner e ⟨inst, none, removal⟩).2.orders
        (e.idsOfOrders orders) ((stopInner e ⟨inst, none, removal⟩).2.docket e.idsOf) served ∧
      ∀ o ∈ orders, o.removed = removed ∧ ∃ j id, e.activeKey? j id = some o.node ∧ e.Inside inst j

/-- The close of a node begins: everything in its instance leaves, if it has one. -/
theorem begins_beginClosing {stopInner : Engine → StopRequest → Engine × Stopping} (hs : Empties stopInner)
    (hl : Laid e) (call : CallKey) (level : LevelKey) (k : NodeKey) (removed : Bool) :
    ∃ nested served, Departs e (beginClosing stopInner call e level k removed).1 nested ∧
      Serving e (beginClosing stopInner call e level k removed).1 (nested ++ [⟨k, removed⟩])
        (beginClosing stopInner call e level k removed).2.orders (e.idsOfOrders (nested ++ [⟨k, removed⟩]))
        ((beginClosing stopInner call e level k removed).2.docket e.idsOf) served ∧
      ∀ o ∈ nested, o.removed = removed ∧ e.NestedIn level k o := by
  have hids (nested : List Order) : e.idsOfOrders (nested ++ [⟨k, removed⟩]) =
      e.idsOfOrders nested ++ e.idsOf k := by
    rw [idsOfOrders, List.flatMap_append, List.flatMap_singleton]
    rfl
  simp only [hids]
  unfold beginClosing
  cases hn : e.node? k with
  | none =>
    have hids : e.idsOf k = [] := by simp [idsOf, hn]
    refine ⟨[], [⟨k, removed⟩], .silent (.refl e), ?_, by simp⟩
    rw [hids]
    exact ⟨.refl e, .refl _, .refl _, by simp [closeNotes, hn]⟩
  | some node =>
    dsimp only
    cases hi : e.instance? level node.id with
    | none =>
      have hidle : Serving e e [] [] [] StopReport.empty.stopped [] := .idle (.refl e) rfl (.refl _)
      obtain ⟨served, ha⟩ := hidle.ask call k removed
      exact ⟨[], served, .silent (silent_askToClose _ _ _ _ _), ha, by simp⟩
    | some inst =>
      dsimp only
      have hforget : Stops e (e.modifyLevel level fun l => { l with instances := l.instances.erase node.id }) :=
        StopsWithin.single (.forget level node.id trivial)
      have hd₀ : Departs e (e.modifyLevel level fun l => { l with instances := l.instances.erase node.id }) [] := by
        refine .nobody hforget fun j id => ?_
        rw [activeKey?_modifyLevel]
        split <;> rfl
      obtain ⟨nested, served, hd, hserve, hin⟩ := hs _ inst removed (hforget.laid hl) _ rfl
      have hdw := hforget.dwindles hl
      have hidle : Serving e (e.modifyLevel level fun l => { l with instances := l.instances.erase node.id }) nested
        nested (e.idsOfOrders nested) (e.idsOfOrders nested) [] := .idle hforget rfl (.refl _)
      have hserve := hidle.trans hserve
      have hdep := hd₀.trans hl hd
      have hnested : ∀ o ∈ nested, o.removed = removed ∧ e.NestedIn level k o := by
        intro o ho
        obtain ⟨hr, j, id, ha, hins⟩ := hin o ho
        exact ⟨hr, node, inst, j, id, hn, hi, hdw.active j id _ ha, hdw.inside hins⟩
      split
      · rename_i hr
        rw [hr] at hserve hdep
        obtain ⟨served', ha⟩ := hserve.ask call k removed
        refine ⟨nested, served', ?_, ha, hnested⟩
        simpa using hdep.trans hl (.silent (silent_askToClose _ _ _ _ _))
      · rename_i m s _ hr
        rw [hr] at hserve hdep
        exact ⟨nested, _, hdep, hserve.append (.idle (.refl m) rfl (.refl _)), hnested⟩

theorem StopsWithin.ordered {may : LevelKey → NodeId → Prop} (h : StopsWithin may e e') (r : StopRequest) :
    e'.ordered r = e.ordered r := by
  funext n
  have hid := congrArg (Option.map Record.id) (h.record n)
  rw [Option.map_map, Option.map_map] at hid
  unfold Engine.ordered
  rw [show (e'.node? n).map (·.id) = (e.node? n).map (·.id) from hid]

/-- The closes of a stop begin one after the other. -/
theorem begins_beginAll {stopInner : Engine → StopRequest → Engine × Stopping} (hs : Empties stopInner)
    (call : CallKey) (r : StopRequest) (targets : List NodeKey) (e : Engine) (begun : List Closing) (hl : Laid e) :
    ∃ nested served closings, (beginAll stopInner call r (e, begun) targets).2 = begun ++ closings ∧
      Departs e (beginAll stopInner call r (e, begun) targets).1 nested ∧
      Serving e (beginAll stopInner call r (e, begun) targets).1 (targets.map (e.ordered r) ++ nested)
        (Stopping.ordersOf closings) (e.idsOfOrders (targets.map (e.ordered r) ++ nested))
        (Stopping.docketOf e.idsOf closings) served ∧
      ∀ o ∈ nested, ∃ n ∈ targets, o.removed = (e.ordered r n).removed ∧ e.NestedIn r.level n o := by
  induction targets generalizing e begun with
  | nil => exact ⟨[], [], [], (List.append_nil _).symm, .silent (.refl _), .idle (.refl _) rfl (.refl _), by simp⟩
  | cons n ns ih =>
    obtain ⟨nested, served, hd, hserve, hin⟩ := begins_beginClosing hs hl call r.level n (e.ordered r n).removed
    obtain ⟨nested', served', closings, hcs, hd', hserve', hin'⟩ :=
      ih (beginClosing stopInner call e r.level n (e.ordered r n).removed).1
        (begun ++ [(beginClosing stopInner call e r.level n (e.ordered r n).removed).2]) (hd.stops.laid hl)
    rw [StopsWithin.ordered hd.stops, StopsWithin.idsOf hd.stops, StopsWithin.idsOfOrders hd.stops] at hserve'
    refine ⟨nested ++ nested', served ++ served',
      (beginClosing stopInner call e r.level n (e.ordered r n).removed).2 :: closings, ?_, hd.trans hl hd', ?_,
      fun o ho => ?_⟩
    · exact hcs.trans (by simp)
    · have happ := hserve.append hserve'
      rw [idsOfOrders, idsOfOrders, ← List.flatMap_append] at happ
      refine Serving.regroup (m := e) happ ?_
      rw [List.perm_iff_count]
      intro o
      have heq : (⟨n, (e.ordered r n).removed⟩ : Order) = e.ordered r n := rfl
      simp only [heq, List.map_cons, List.count_append, List.count_cons, List.count_nil]
      omega
    · rcases List.mem_append.mp ho with ho | ho
      · exact ⟨n, List.mem_cons_self, hin o ho⟩
      · obtain ⟨m, hm, hr, hnest⟩ := hin' o ho
        rw [StopsWithin.ordered hd.stops] at hr
        exact ⟨m, List.mem_cons_of_mem n hm, hr, hnest.before hd.stops hl⟩

theorem departs_finishStop (hl : Laid e) (k : LevelKey) (full : Bool) (previous : Phase) (backward : Bool)
    (closings : List Closing) : Departs e (e.finishStop k full previous backward closings).1 [] := by
  have hs : StopsWithin (fun _ _ => ¬True) e (e.finishStop k full previous backward closings).1 :=
    stops_finishStop _ _ _ _ _ _
  have hspares : Spares (fun _ _ => True) e (e.finishStop k full previous backward closings).1 := hs.spares hl.placed
  exact .nobody hs.stops fun j id => hspares.active j id trivial

theorem notes_vacated (e : Engine) (l : Level) (r : StopRequest) : (e.vacated l r).notes = e.notes := by
  have hcancel (e : Engine) (n : NodeKey) : (e.cancel n).notes = e.notes := by
    unfold cancel
    refine List.foldlRecOn _ _ (motive := fun s : Engine => s.notes = e.notes) rfl fun s hs p _ => ?_
    rw [notes_wake, hs]
  unfold vacated withdraw
  refine List.foldlRecOn _ _ (motive := fun s : Engine => s.notes = e.notes) ?_ fun s hs n _ => (hcancel s n).trans hs
  split <;> rfl

/-- A stop begins: whoever leaves is given one order to close, as the stop takes out its entry. -/
theorem begins_beginStop (call : CallKey) (fuel : Nat) (e : Engine) (hl : Laid e) (r : StopRequest) :
    ∃ orders served, Departs e (beginStop call fuel e r).1 orders ∧
      Serving e (beginStop call fuel e r).1 orders (beginStop call fuel e r).2.orders (e.idsOfOrders orders)
        ((beginStop call fuel e r).2.docket e.idsOf) served ∧
      ∀ o ∈ orders, ∃ j id, e.activeKey? j id = some o.node ∧ r.Takes e j id o.removed := by
  induction fuel generalizing e r with
  | zero => exact ⟨[], [], .silent (.refl _), .idle (.refl _) rfl (.refl _), by simp⟩
  | succ fuel ih =>
    cases hlevel : e.level? r.level with
    | none =>
      unfold beginStop
      rw [hlevel]
      exact ⟨[], [], .silent (.refl _), .idle (.refl _) rfl (.refl _), by simp⟩
    | some l =>
      have hs : Empties (beginStop call fuel) := by
        intro m inst removed hm removal hr
        obtain ⟨orders, served, hd, hserve, hall⟩ := ih m hm ⟨inst, none, removal⟩
        have hholds (id : NodeId) : removal.holds id = removed := by
          subst hr
          cases removed <;> rfl
        refine ⟨orders, served, hd, hserve, fun o ho => ?_⟩
        obtain ⟨j, id, ha, ht⟩ := hall o ho
        obtain ⟨node, told⟩ := o
        cases ht with
        | own => exact ⟨hholds _, inst, id, ha, .here⟩
        | nested _ hi hin => exact ⟨hholds _, j, id, ha, .of_instance hi hin⟩
      rw [beginStop_eq call fuel hlevel]
      have hv := departs_vacated hl hlevel
      have hlv := hv.stops.laid hl
      obtain ⟨nested, served, closings, hcs, hd, hserve, hin⟩ :=
        begins_beginAll hs call r (e.stopTargets l r.filter) (e.vacated l r) [] hlv
      rw [StopsWithin.ordered hv.stops, StopsWithin.idsOf hv.stops, StopsWithin.idsOfOrders hv.stops] at hserve
      have hserve := ((Serving.idle hv.stops (notes_vacated e l r) (.refl _)).trans hserve).trans
        (serving_finishStop _ r.level r.filter.isNone l.phase false closings e.idsOf)
      have hdep := (hv.trans hl hd).trans hl
        (departs_finishStop (hd.stops.laid hlv) r.level r.filter.isNone l.phase false closings)
      rw [List.append_nil] at hdep
      rw [hcs, List.nil_append]
      refine ⟨(e.stopTargets l r.filter).map (e.ordered r) ++ nested, _, hdep, hserve, fun o ho => ?_⟩
      have hnode (n : NodeKey) (hn : n ∈ e.stopTargets l r.filter) : ∃ node, e.node? n = some node ∧
          e.activeKey? r.level node.id = some n ∧ r.Covers node.id ∧ e.ordered r n = ⟨n, r.removal.holds node.id⟩ := by
        obtain ⟨id, hn, hc⟩ := (mem_stopTargets hl hlevel).mp hn
        have ha : l.active.get? id = some n := by rwa [activeKey?, hlevel] at hn
        obtain ⟨node, hnode, -, rfl⟩ := (hl _ l hlevel).active id n ha
        exact ⟨node, hnode, hn, hc, by simp [Engine.ordered, hnode]⟩
      rcases List.mem_append.mp ho with ho | ho
      · obtain ⟨n, hn, rfl⟩ := List.mem_map.mp ho
        obtain ⟨node, -, ha, hc, hord⟩ := hnode n hn
        rw [hord]
        exact ⟨r.level, node.id, ha, .own hc⟩
      · obtain ⟨n, hn, hr, hnest⟩ := hin o ho
        obtain ⟨node, hk, -, hc, hord⟩ := hnode n hn
        obtain ⟨node', inst, j, id, hk', hi, ha, hins⟩ := hnest.before hv.stops hl
        obtain rfl := Option.some.inj (hk.symm.trans hk')
        rw [StopsWithin.ordered hv.stops, hord] at hr
        refine ⟨j, id, ha, ?_⟩
        rw [hr]
        exact .nested hc hi hins

end Engine
end Flowgraph
