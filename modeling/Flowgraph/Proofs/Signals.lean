import Flowgraph.Proofs.Routing
import Flowgraph.Proofs.Stopped
/-! Whom signals reach: with nothing under way the receivers that the nearest level selects, and at all other times
those as well, unless a stop of that level is not over. -/
namespace Flowgraph
namespace Engine

variable {e e' : Engine} {f j k : LevelKey} {id : NodeId}

/-- No start and no stop is under way. -/
structure Composed (e : Engine) : Prop where
  unbroken : e.broken = false
  made : e.plan = []
  waits : ∀ key c, e.call? key = some c → c.waiting = []

theorem Composed.not_underStop (h : Composed e) : ¬e.UnderStop j := by
  rintro ⟨key, c, hc, s, hs, -⟩
  rw [h.waits key c hc] at hs
  cases hs

/-- With no start and no stop under way, all tables are up to date. -/
theorem Reachable.table_eq (h : Reachable e) (hq : Composed e) {l : Level} (hl : e.level? j = some l) :
    l.receivers = .ofRecords (e.receiverRecords l) := by
  rcases h.informed.tuned hq.unbroken j with ht | ht | ht
  · exact ht _ _ (by rw [hearing?, hl]; rfl)
  · rw [hq.made] at ht
    cases ht
  · exact absurd ht hq.not_underStop

/-- What a signal comes to at the level where its way ends. -/
inductive Concludes (e : Engine) (j : LevelKey) (l : Level) (reporting : NodeId) (origin : Origin) (signal : Signal) :
    Engine × Bool → Prop
  /-- All receivers that the level selects are given the signal in their order, and each sends on what it is given. -/
  | taken (h : l.receivers.targets reporting signal ≠ [])
      (hr : ∀ e' : Engine, e'.still = e.still → ∀ id ∈ l.receivers.targets reporting signal, e'.Listens j id) :
      Concludes e j l reporting origin signal
        (e.handedOver j origin signal (l.receivers.targets reporting signal), true)
  | intercepted {b : Binding} (h : l.receivers.targets reporting signal = []) (hk : l.kind = .expansion b)
      (hb : b.Stops signal) : Concludes e j l reporting origin signal (e, false)
  /-- What is around a flow hears of the signal once. -/
  | leaves (h : l.receivers.targets reporting signal = []) (hs : ∀ b, l.kind = .expansion b → ¬b.Stops signal)
      (hp : l.parent = none)
      (shared : e.outside = .shared → (e.leave origin signal).events = e.events ++ unhandled origin signal ∧
        (e.leave origin signal).notes = e.notes)
      (standalone : e.outside = .standalone → (e.leave origin signal).notes = e.notes ++ [farewell origin signal] ∧
        (e.leave origin signal).events = e.events) :
      Concludes e j l reporting origin signal (e.leave origin signal, false)

theorem Concludes.heard {l : Level} {reporting : NodeId} {origin : Origin} {signal : Signal} {outcome : Engine × Bool}
    (h : e.Concludes j l reporting origin signal outcome) (ht : outcome.2 = true) :
    l.receivers.targets reporting signal ≠ [] ∧
      ∀ e' : Engine, e'.still = e.still → ∀ id ∈ l.receivers.targets reporting signal, e'.Listens j id := by
  cases h with
  | taken h hr => exact ⟨h, hr⟩
  | intercepted => cases ht
  | leaves => cases ht

/-- With no start and no stop under way, a signal that is raised inside a flow goes outward to the first level that
has receivers for the id under which it is reported there. All of them get it, and nobody else does. It ends at the
first level whose template has a port for it, and leaves the flow if there is neither. -/
theorem signal_goes_outward (h : Reachable e) (hq : Composed e) (hf : e.hasLevel f = true)
    (ho : ∀ l, e.level? f = some l → l.parent = none) (hin : e.Inside f k) (origin : Origin) (signal : Signal)
    (hg : loops origin signal = false) :
    (∀ i l, e.level? i = some l → l.receivers = .ofRecords (e.receiverRecords l)) ∧
    ∃ j reporting l, e.Comes signal k origin.id j reporting ∧ e.Inside f j ∧ e.level? j = some l ∧
      e.Concludes j l reporting origin signal (e.raise k origin signal) := by
  have hl := h.layout.laid
  refine ⟨fun i l hi => h.table_eq hq hi, ?_⟩
  have hr := raises_raise hl k origin signal
  generalize e.raise k origin signal = outcome at hr
  cases hr with
  | dropped hd =>
    rw [hg] at hd
    cases hd
  | nowhere hn =>
    obtain ⟨l, hk⟩ := level?_of_hasLevel (hasLevel_inside hl hf hin)
    rw [hn] at hk
    cases hk
  | @taken j reporting l hc hj ht =>
    refine ⟨j, reporting, l, hc, hc.inside hl hin ho, hj, .taken ht fun e' hs id hid => ?_⟩
    exact ((h.listens hj hid).resolve_right hq.not_underStop).still hs
  | intercepted hc hj ht hk hb => exact ⟨_, _, _, hc, hc.inside hl hin ho, hj, .intercepted ht hk hb⟩
  | leaves hc hj ht hs hp =>
    exact ⟨_, _, _, hc, hc.inside hl hin ho, hj,
      .leaves ht hs hp (fun h => leave_shared h _ _) fun h => leave_standalone h _ _⟩
  | @lost j p reporting l hc hj ht hs hp hx =>
    -- The level around a level inside a flow that exists exists as well.
    have hpar := (hc.inside hl hin ho).parent hl hj hp ho
    rw [hasLevel_inside hl hf hpar] at hx
    cases hx

/-- At any time, a signal is said to be taken only if it is given to the receivers of a level on its way outward, and
not said to be taken only if it went outward to a port, to a level that is gone or out of the flow, or was dropped for
being one too many. Whoever it is given to is active, has not been told to stop and sends it on, unless a stop of that
level is under way. -/
theorem signal_taken_is_heard (h : Reachable e) (k : LevelKey) (origin : Origin) (signal : Signal) :
    Raises e k origin signal (e.raise k origin signal) ∧
    ∀ j reporting l, e.Comes signal k origin.id j reporting → e.level? j = some l →
      ∀ id ∈ l.receivers.targets reporting signal, e.Listens j id ∨ e.UnderStop j :=
  ⟨raises_raise h.layout.laid k origin signal, fun _ _ _ _ hl _ hid => h.listens hl hid⟩

/-! ## A level while its stop waits -/

theorem silent_beginAll (stopInner : Engine → StopRequest → Engine × Stopping) (call : CallKey) (request : StopRequest)
    (targets : List NodeKey) (s : Engine × List Closing)
    (hi : ∀ n ∈ targets, ∀ node, s.1.node? n = some node → s.1.instance? request.level node.id = none) :
    Silent s.1 (beginAll stopInner call request s targets).1 := by
  induction targets generalizing s with
  | nil => exact .refl _
  | cons n ns ih =>
    have hfirst (removed : Bool) : Silent s.1 (beginClosing stopInner call s.1 request.level n removed).1 := by
      unfold beginClosing
      split
      · exact .refl _
      · rename_i node hn
        rw [hi n List.mem_cons_self node hn]
        exact silent_askToClose _ _ _ _ _
    have hstep := hfirst (request.removal.holds (((s.1.node? n).map (·.id)).getD ""))
    refine hstep.trans (ih (_, s.2 ++ [_]) fun m hm node hnode => ?_)
    obtain ⟨node', hn', he⟩ := exists_node?_of_still hstep.still.symm hnode
    rw [instance?, level?_of_still hstep.still]
    have hid : node.id = node'.id := (congrArg Node.id he).symm
    rw [hid]
    exact hi m (List.mem_cons_of_mem _ hm) node' hn'

/-- The closes with which a stop of these nodes of a level begins. -/
def closesOf (e : Engine) (call : CallKey) (fuel : Nat) (request : StopRequest) (targets : List NodeKey) :
    Engine × List Closing :=
  beginAll (beginStop call fuel) call request (e.withdraw request.level targets, []) targets

/-- A stop of some nodes of a level that has to wait has taken them out of the level, and has left its table as it
was. -/
theorem level?_of_waits (call : CallKey) (fuel : Nat) {request : StopRequest} {l : Level} {targets : List NodeKey}
    (hl : e.level? request.level = some l) (hf : request.filter.isNone = false)
    (ht : e.stopTargets l request.filter = targets)
    (hi : ∀ n ∈ targets, ∀ node, e.node? n = some node → e.instance? request.level node.id = none)
    (hw : (finishStop (e.closesOf call fuel request targets).1 request.level false l.phase false
      (e.closesOf call fuel request targets).2).2.levels ≠ []) :
    (beginStop call (fuel + 1) e request).1.level? request.level =
      some { l with active := l.active.filter fun entry => !targets.contains entry.2 } := by
  subst ht
  have hst : Stops e (e.vacated l request) := stops_vacated hl fun _ _ _ _ _ _ => trivial
  have hv : e.vacated l request = e.withdraw request.level (e.stopTargets l request.filter) := by
    rw [vacated, hf]
    rfl
  have hsilent := silent_beginAll (beginStop call fuel) call request (e.stopTargets l request.filter)
    (e.vacated l request, []) fun n hn node hnode => by
      have hrec := hst.record n
      rw [hnode] at hrec
      obtain ⟨node', hn', he⟩ := Option.map_eq_some_iff.mp hrec.symm
      have hid : node.id = node'.id := (congrArg Record.id he).symm
      rw [hv, instance?_withdraw, hid]
      exact hi n hn node' hn'
  rw [closesOf, ← hv] at hw
  rw [beginStop_eq call fuel hl, hf]
  unfold finishStop at hw ⊢
  dsimp only at hw ⊢
  split at hw
  · rename_i h
    rw [if_pos h, level?_of_still hsilent.still, hv, level?_withdraw, if_pos rfl, hl]
    rfl
  · exact absurd rfl hw

theorem level?_afterStops (key : CallKey) (stops : List Stopping) :
    (e.afterStops key stops).level? j = e.level? j := by
  have h := proceeds_afterStops e key stops
  generalize e.afterStops key stops = s at h
  cases h with
  | waits _ hs => exact level?_of_still hs.still j
  | done => rfl

end Engine

namespace Session
open Engine

def fault : Signal := .error "boom" none

/-- The records of the receivers among some nodes. -/
def receiversAmong (e : Engine) (keys : List NodeKey) : List Record :=
  keys.filterMap fun k => ((e.node? k).map (·.record)).filter fun r => isReceiverType r.type

/-- The receivers of a level whose active nodes are listed in the order of their creation. -/
theorem receiverRecords_eq {e : Engine} {l : Level} {keys : List NodeKey} (ha : l.active.values = keys)
    (hs : keys.Pairwise fun a b => decide (a ≤ b) = true) : e.receiverRecords l = receiversAmong e keys := by
  rw [receiverRecords, ha, List.mergeSort_of_pairwise hs]
  rfl

/-- A tab with a receiver of errors and the usage node of a template with one node. -/
def caughtRecords : List Json := [
  .obj [("id", .str "t"), ("type", .str "tab")],
  .obj [("id", .str "c"), ("type", .str "catch"), ("z", .str "t")],
  .obj [("id", .str "s"), ("type", .str "subflow")],
  .obj [("id", .str "b"), ("type", .str "test"), ("z", .str "s")],
  .obj [("id", .str "u"), ("type", .str "subflow:s"), ("z", .str "t")]]

def caughtFlow : Engine :=
  (start ⟨{ ((Engine.make .instrumented .standalone [] [] 500).addLevel
    (.make .tab none (firstTab caughtRecords))).1 with keptLevels := [0] }, some 0, .empty, []⟩ 0 none).2.engine

/-- The node inside the instance. -/
def innerOrigin : Origin := ((caughtFlow.node? 1).map Node.origin).getD default

theorem reachable_caughtFlow : Reachable caughtFlow := by
  have hmade : Reachable ((Engine.make .instrumented .standalone [] [] 500).addLevel
      (.make .tab none (firstTab caughtRecords))).1 :=
    (Reachable.make _ _ _ _ _).input rfl (.flow (.inl rfl) (parsed_firstTab (by decide +kernel)))
  exact reachable_start (hmade.input rfl (.keep [0] [])) rfl

/-- What the run of the tab comes to. -/
theorem caughtFlow_run : (caughtFlow.broken = false ∧ caughtFlow.plan.isEmpty = true ∧
      caughtFlow.calls.all (fun entry => entry.2.waiting.isEmpty) = true) ∧
    (caughtFlow.hasLevel 0 = true ∧ (caughtFlow.level? 0).map (·.parent) = some none ∧
      caughtFlow.instance? 0 "u" = some 1 ∧ loops innerOrigin fault = false) ∧
    ((caughtFlow.level? 1).map (fun l => (l.active.values, l.parent, l.kind.reportsAs innerOrigin.id)) =
        some ([1, 2], some 0, "u") ∧
      (Receivers.ofRecords (receiversAmong caughtFlow [1, 2])).targets innerOrigin.id fault = []) ∧
    ((caughtFlow.level? 0).map (·.active.values) = some [0, 3] ∧
      (Receivers.ofRecords (receiversAmong caughtFlow [0, 3])).targets "u" fault = ["c"]) := by
  decide +kernel

theorem composed_caughtFlow : Composed caughtFlow := by
  obtain ⟨⟨hb, hp, hw⟩, -⟩ := caughtFlow_run
  refine ⟨hb, List.isEmpty_iff.mp hp, fun key c hc => ?_⟩
  exact List.isEmpty_iff.mp (List.all_eq_true.mp hw _ (mem_calls_of_call? hc))

/-- An error of the node inside the instance is taken by the receiver outside, which listens. -/
theorem inner_error_is_caught : Reachable caughtFlow ∧ Composed caughtFlow ∧ caughtFlow.Inside 0 1 ∧
    caughtFlow.raise 1 innerOrigin fault = (caughtFlow.handedOver 0 innerOrigin fault ["c"], true) ∧
    caughtFlow.Listens 0 "c" := by
  obtain ⟨-, ⟨hf, hparent, hi, hg⟩, ⟨hinner, hnone⟩, houter, hsome⟩ := caughtFlow_run
  have hin : caughtFlow.Inside 0 1 := .deeper .here hi
  have ho (l : Level) (hl : caughtFlow.level? 0 = some l) : l.parent = none := by
    rw [hl] at hparent
    exact Option.some.inj hparent
  obtain ⟨htables, j, reporting, l, hc, -, hl, hends⟩ :=
    signal_goes_outward reachable_caughtFlow composed_caughtFlow hf ho hin innerOrigin fault hg
  have hlaid := reachable_caughtFlow.layout.laid
  obtain ⟨l₁, hl₁, he⟩ := Option.map_eq_some_iff.mp hinner
  obtain ⟨hactive₁, hparent₁, hreports⟩ := Prod.mk.inj he |>.imp_right Prod.mk.inj
  obtain ⟨l₀, hl₀, hactive₀⟩ := Option.map_eq_some_iff.mp houter
  -- The instance has no receivers, and the tab has one: this is where the way of the error ends.
  have ht₁ : l₁.receivers.targets innerOrigin.id fault = [] := by
    rw [htables 1 l₁ hl₁, receiverRecords_eq hactive₁ (by decide)]
    exact hnone
  have ht₀ : l₀.receivers.targets "u" fault = ["c"] := by
    rw [htables 0 l₀ hl₀, receiverRecords_eq hactive₀ (by decide)]
    exact hsome
  have hcomes : caughtFlow.Comes fault 1 innerOrigin.id 0 "u" := by
    rw [← hreports]
    exact .outward .here hl₁ ht₁ (fun _ _ h => by cases h) hparent₁ hf
  have hroute := hcomes.route_taken hlaid hl₁ hl₀ (by rw [ht₀]; decide)
  have hraise : caughtFlow.raise 1 innerOrigin fault = (caughtFlow.handedOver 0 innerOrigin fault ["c"], true) :=
    raise_of_taken hg (ht₀ ▸ hroute)
  refine ⟨reachable_caughtFlow, composed_caughtFlow, hin, hraise, ?_⟩
  obtain ⟨h, hr⟩ := hends.heard (congrArg Prod.snd hraise)
  obtain ⟨rfl, htargets⟩ := Route.taken.inj (hroute.symm.trans (hc.route_taken hlaid hl₁ hl h))
  exact hr _ rfl "c" (by rw [← htargets, ht₀]; exact List.mem_cons_self)

/-- The targets of a stop whose ids are listed in the order in which the nodes close. -/
theorem stopTargets_eq {e : Engine} {l : Level} {ids : List NodeId} {keys : List NodeKey}
    (hk : ids.eraseDups.filterMap l.active.get? = keys) (hs : keys.Pairwise fun a b => e.closesBefore a b = true) :
    e.stopTargets l (some ids) = keys := by
  unfold stopTargets
  dsimp only
  rw [hk, List.mergeSort_of_pairwise hs]

theorem level?_turnOf_begin (e : Engine) (stages : List Stage) (key : CallKey) (j : LevelKey) :
    ((turnOf (e.begin stages).1 key).taken key [] []).level? j = e.level? j :=
  level?_of_still (quiet_wake _ _).still j

/-- The turn of a call whose only stage is a stop. -/
theorem level?_act_stop {e : Engine} {key : CallKey} {c : Call} {request : StopRequest} (hc : e.call? key = some c)
    (hw : c.waiting = []) (hs : c.stages = [.stop [request]]) (j : LevelKey) :
    (Engine.act { e with agenda := [] } (.resume key)).level? j =
      (beginStop key ((e.taken key [] []).levelCount + 1) (e.taken key [] []) request).1.level? j := by
  rw [act_resume hc hw hs]
  exact level?_afterStops key _

/-- A tab with a receiver of errors and a node that takes its time to close. -/
def deafRecords : List Json := [
  .obj [("id", .str "t"), ("type", .str "tab")],
  .obj [("id", .str "a"), ("type", .str "catch"), ("z", .str "t")],
  .obj [("closeDelay", .int 50), ("id", .str "b"), ("type", .str "testAsync"), ("z", .str "t")]]

def deafFlow : Engine :=
  (start ⟨((Engine.make .instrumented .standalone [] [] 500).addLevel
    (.make .tab none (firstTab deafRecords))).1, some 0, .empty, []⟩ 0 none).2.engine

/-- Both nodes are to stop. -/
def deafRequest : StopRequest := ⟨0, some ["a", "b"], .none⟩

def deafTurn : Engine := turnOf (deafFlow.begin [.stop [deafRequest]]).1 deafFlow.nextCall

/-- The stop is about to begin. -/
def deafBegin : Engine := deafTurn.taken deafFlow.nextCall [] []

/-- The stop has begun, and waits for the slow node. -/
def deafened : Engine := { deafTurn with agenda := [] }.act (.resume deafFlow.nextCall)

/-- What the run of the tab comes to until the stop begins, and with what closes it begins. -/
theorem deafFlow_run : (deafFlow.broken = false ∧ deafFlow.plan.isEmpty = true ∧
      deafFlow.calls.all (fun entry => entry.2.waiting.isEmpty) = true ∧ deafFlow.agenda = []) ∧
    ((deafFlow.begin [.stop [deafRequest]]).1.broken = false ∧ (deafFlow.begin [.stop [deafRequest]]).1.agenda = [] ∧
      Waiter.call deafFlow.nextCall ∈ (deafFlow.begin [.stop [deafRequest]]).1.ready ∧ deafTurn.broken = false) ∧
    ((deafFlow.level? 0).map (fun l => (l.active.values, l.phase)) = some ([0, 1], .started) ∧
      (deafFlow.level? 0).map (fun l => ["a", "b"].eraseDups.filterMap l.active.get?) = some [0, 1] ∧
      (deafFlow.level? 0).map (·.instances.isEmpty) = some true ∧
      deafBegin.closesBefore 0 1 = true ∧
      (Receivers.ofRecords (receiversAmong deafFlow [0, 1])).targets "b" fault = ["a"]) ∧
    (finishStop (deafBegin.closesOf deafFlow.nextCall deafBegin.levelCount deafRequest [0, 1]).1 deafRequest.level false
      .started false (deafBegin.closesOf deafFlow.nextCall deafBegin.levelCount deafRequest [0, 1]).2).2.levels = [0] := by
  decide +kernel

theorem reachable_deafFlow : Reachable deafFlow := by
  have hmade : Reachable ((Engine.make .instrumented .standalone [] [] 500).addLevel
      (.make .tab none (firstTab deafRecords))).1 :=
    (Reachable.make _ _ _ _ _).input rfl (.flow (.inl rfl) (parsed_firstTab (by decide +kernel)))
  exact reachable_start hmade rfl

/-- While the slow node is closing, the tab is as it was but for the nodes that have left it: its table still has the
receiver. -/
theorem level?_deafened : ∃ l, deafened.level? 0 = some l ∧ l.active = [] ∧
    l.receivers.targets "b" fault = ["a"] := by
  obtain ⟨⟨hb, hp, hw, -⟩, -, ⟨hlevel, hkeys, hinstances, hcloses, htargets⟩, hwaits⟩ := deafFlow_run
  obtain ⟨l, hl, he⟩ := Option.map_eq_some_iff.mp hlevel
  obtain ⟨hvalues, hphase⟩ := Prod.mk.inj he
  rw [hl, Option.map_some] at hkeys hinstances
  have hcomposed : Composed deafFlow := ⟨hb, List.isEmpty_iff.mp hp, fun key c hc =>
    List.isEmpty_iff.mp (List.all_eq_true.mp hw _ (mem_calls_of_call? hc))⟩
  have hbegin : deafBegin.level? 0 = some l := (level?_turnOf_begin deafFlow _ _ 0).trans hl
  have hsorted : [0, 1].Pairwise fun a b => deafBegin.closesBefore a b = true := by
    simpa using hcloses
  have hnone (id : NodeId) : deafBegin.instance? 0 id = none := by
    rw [instance?, hbegin, Option.bind_some, List.isEmpty_iff.mp (Option.some.inj hinstances)]
    rfl
  have hstop := level?_of_waits deafFlow.nextCall deafBegin.levelCount
    (show deafBegin.level? deafRequest.level = some l from hbegin) rfl
    (stopTargets_eq (Option.some.inj hkeys) hsorted) (fun _ _ _ _ => hnone _)
    (by rw [hphase]; exact fun h => by rw [h] at hwaits; cases hwaits)
  have hcall : deafTurn.call? deafFlow.nextCall = some (.make [.stop [deafRequest]] deafFlow.now) := by
    rw [deafTurn, call?_turnOf, call?_begin reachable_deafFlow.keysBelow, if_pos rfl]
  have hafter : deafened.level? 0 =
      some { l with active := l.active.filter fun entry => !([0, 1] : List NodeKey).contains entry.2 } :=
    (level?_act_stop hcall rfl rfl 0).trans hstop
  refine ⟨_, hafter, ?_, ?_⟩
  · dsimp only
    rw [List.filter_eq_nil_iff]
    intro entry hm
    have hmem : entry.2 ∈ l.active.values := List.mem_map_of_mem hm
    rw [hvalues] at hmem
    simpa [or_iff_not_imp_left] using hmem
  · rw [reachable_deafFlow.table_eq hcomposed hl, receiverRecords_eq hvalues (by decide)]
    exact htargets

/-- While the slow node is closing, an error is said to be taken although the receiver is no longer active. -/
theorem stopped_receiver_takes_error : Reachable deafened ∧
    (∃ engine, deafened.raise 0 ⟨"b", "testAsync", none⟩ fault = (engine, true)) ∧
    deafened.activeKey? 0 "a" = none ∧ deafened.UnderStop 0 := by
  obtain ⟨⟨-, -, -, ha⟩, ⟨hb, ha', hready, hb'⟩, -⟩ := deafFlow_run
  obtain ⟨l, hl, hactive, htargets⟩ := level?_deafened
  have hr : Reachable deafened :=
    ((reachable_deafFlow.input ha (.call (.stop _))).tick (tick_turn hb ha' hready)).tick (tick_turnOf ha' hb')
  have hgone : deafened.activeKey? 0 "a" = none := by
    rw [activeKey?, hl, Option.bind_some, hactive]
    rfl
  have hroute : deafened.route 0 ⟨"b", "testAsync", none⟩ fault = _ :=
    Comes.here.route_taken hr.layout.laid hl hl (by rw [htargets]; decide)
  refine ⟨hr, ⟨_, raise_of_taken (by decide +kernel) hroute⟩, hgone, ?_⟩
  refine ((signal_taken_is_heard hr 0 ⟨"b", "testAsync", none⟩ fault).2 0 "b" l .here hl "a"
    (by rw [htargets]; exact List.mem_cons_self)).resolve_left ?_
  rintro ⟨n, node, hn, -⟩
  rw [hgone] at hn
  cases hn

end Session
end Flowgraph
