import Mathlib.Logic.Relation
import Flowgraph.Proofs.Quiet
/-! What a stop does to an engine, in small steps: nodes leave their level and are told to stop, instances are
let go, phases and receivers change. Nothing comes into being, and no wiring changes. -/
namespace Flowgraph.Engine

/-- A small step of a stop that may take these nodes out of their levels. -/
inductive StopStep (may : LevelKey → NodeId → Prop) : Engine → Engine → Prop
  | still {e e' : Engine} (h : e'.still = e.still) (ha : e'.agenda = e.agenda) : StopStep may e e'
  | phase {e : Engine} (k : LevelKey) (p : Phase) :
      StopStep may e (e.modifyLevel k fun l => { l with phase := p })
  | receivers {e : Engine} (k : LevelKey) (rs : Receivers) :
      StopStep may e (e.modifyLevel k fun l => { l with receivers := rs })
  | leave {e : Engine} (k : LevelKey) (targets : List NodeKey)
      (h : ∀ n ∈ targets, ∃ l, e.level? k = some l ∧ n ∈ l.active.values)
      (hm : ∀ n ∈ targets, ∀ node, e.node? n = some node → may k node.id) :
      StopStep may e
        (e.modifyLevel k fun l => { l with active := l.active.filter fun entry => !targets.contains entry.2 })
  | cancel {e : Engine} (n : NodeKey) :
      StopStep may e (e.modifyNode n fun n => { n with cancelled := true })
  | forget {e : Engine} (k : LevelKey) (id : NodeId) (hm : may k id) :
      StopStep may e (e.modifyLevel k fun l => { l with instances := l.instances.erase id })

/-- Any number of small steps of stops that may take these nodes out of their levels. -/
def StopsWithin (may : LevelKey → NodeId → Prop) : Engine → Engine → Prop :=
  Relation.ReflTransGen (StopStep may)

/-- Any number of small steps of stops. -/
def Stops : Engine → Engine → Prop := StopsWithin fun _ _ => True

variable {may : LevelKey → NodeId → Prop} {e e' e'' : Engine}

namespace StopsWithin

theorem refl (e : Engine) : StopsWithin may e e := Relation.ReflTransGen.refl

theorem single (h : StopStep may e e') : StopsWithin may e e' := Relation.ReflTransGen.single h

theorem trans (h : StopsWithin may e e') (h' : StopsWithin may e' e'') : StopsWithin may e e'' :=
  Relation.ReflTransGen.trans h h'

theorem still (h : e'.still = e.still) (ha : e'.agenda = e.agenda) : StopsWithin may e e' :=
  .single (.still h ha)

/-- What every small step preserves is preserved by stops. -/
theorem invariant {P : Engine → Prop} (step : ∀ e e', P e → StopStep may e e' → P e')
    (h : StopsWithin may e e') (he : P e) : P e' := by
  induction h with
  | refl => exact he
  | tail _ ht ih => exact step _ _ ih ht

theorem foldl {α β : Type} (f : Engine × β → α → Engine × β)
    (h : ∀ s x, StopsWithin may s.1 (f s x).1) (xs : List α) (s : Engine × β) :
    StopsWithin may s.1 (xs.foldl f s).1 := by
  induction xs generalizing s with
  | nil => exact refl s.1
  | cons x xs ih => exact (h s x).trans (ih (f s x))

theorem mono {may' : LevelKey → NodeId → Prop} (hm : ∀ k id, may k id → may' k id)
    (h : StopsWithin may e e') : StopsWithin may' e e' := by
  refine h.invariant (P := StopsWithin may' e) (fun s s' hs ht => hs.trans (.single ?_)) (.refl e)
  cases ht with
  | still h ha => exact .still h ha
  | phase k p => exact .phase k p
  | receivers k rs => exact .receivers k rs
  | leave k targets h hn => exact .leave k targets h fun n hmem node hnode => hm _ _ (hn n hmem node hnode)
  | cancel n => exact .cancel n
  | forget k id h => exact .forget k id (hm _ _ h)

theorem stops (h : StopsWithin may e e') : Stops e e' := h.mono fun _ _ _ => trivial

end StopsWithin

namespace Stops

theorem refl (e : Engine) : Stops e e := StopsWithin.refl e

theorem trans (h : Stops e e') (h' : Stops e' e'') : Stops e e'' := StopsWithin.trans h h'

theorem still (h : e'.still = e.still) (ha : e'.agenda = e.agenda) : Stops e e' := StopsWithin.still h ha

theorem invariant {P : Engine → Prop} (step : ∀ e e', P e → StopStep (fun _ _ => True) e e' → P e')
    (h : Stops e e') (he : P e) : P e' := StopsWithin.invariant step h he

end Stops

/-! ## Closing one node -/

theorem wake_agenda (e : Engine) (w : Waiter) : (e.wake w).agenda = e.agenda := by
  unfold wake
  split <;> rfl

/-- A step that does nothing but publish, set timers and leave traces of work. -/
structure Silent (e e' : Engine) : Prop where
  still : e'.still = e.still
  agenda : e'.agenda = e.agenda

namespace Silent

theorem refl (e : Engine) : Silent e e := ⟨rfl, rfl⟩

theorem trans {m : Engine} (h : Silent e m) (h' : Silent m e') : Silent e e' :=
  ⟨h'.still.trans h.still, h'.agenda.trans h.agenda⟩

theorem stops (h : Silent e e') : StopsWithin may e e' := .still h.still h.agenda

end Silent

theorem silent_publish (e : Engine) (event : Event) : Silent e (e.publish event) := by
  refine ⟨(quiet_publish e event).still, ?_⟩
  unfold publish
  dsimp only
  split
  · exact wake_agenda _ _
  · rfl

theorem agenda_failCreation (e : Engine) (k : LevelKey) (r : Record) (fault : NodeFault) :
    (e.failCreation k r fault).agenda = e.agenda := by
  unfold failCreation
  split
  · rfl
  · exact (silent_publish _ _).agenda

theorem broken_failCreation (e : Engine) (k : LevelKey) (r : Record) (fault : NodeFault) :
    (e.failCreation k r fault).broken = e.broken := by
  unfold failCreation
  split
  · rfl
  · change (e.publish _).broken = e.broken
    exact broken_of_still (silent_publish _ _).still

theorem silent_closeBySignal (e : Engine) (k : NodeKey) (removed : Bool) (report : StopReport)
    (result : CloseResult) : Silent e (e.closeBySignal k removed report result).1 := by
  unfold closeBySignal
  split
  · exact .refl e
  · split
    · exact silent_publish _ _
    · exact .refl e

theorem silent_closeByDeadline (e : Engine) (k : NodeKey) (report : StopReport) :
    Silent e (e.closeByDeadline k report).1 := by
  unfold closeByDeadline
  split
  · exact .refl e
  · exact silent_publish _ _

theorem silent_pollAsked (e : Engine) (k : NodeKey) (removed : Bool) (deadline : Nat)
    (report : StopReport) : Silent e (e.pollAsked k removed deadline report).1 := by
  unfold pollAsked
  split
  · exact .refl e
  · rename_i room _
    have hr : Silent e { e with room } := ⟨rfl, rfl⟩
    split
    · exact hr.trans (silent_closeBySignal _ _ _ _ _)
    · split
      · exact hr.trans (silent_closeByDeadline _ _ _)
      · exact .refl e

theorem silent_await (e : Engine) (call : CallKey) (k : NodeKey) (removed : Bool)
    (report : StopReport) : Silent e (e.await call k removed report).1 := by
  unfold await
  refine Silent.trans (m := { e with timers := e.timers ++
    [⟨e.now + e.closeTimeout, .deadline call k⟩] }) ⟨rfl, rfl⟩ ?_
  exact silent_pollAsked _ _ _ _ _

theorem silent_noteSignal (e : Engine) (k : NodeKey) (result : CloseResult) :
    Silent e (e.noteSignal k result) := ⟨(quiet_noteSignal e k result).still, rfl⟩

theorem silent_startTask (e : Engine) (owner : NodeKey) (task : Task) :
    Silent e (e.startTask owner task) := by
  refine ⟨(quiet_startTask e owner task).still, ?_⟩
  unfold startTask
  rw [wake_agenda]
  rfl

theorem silent_askToClose (e : Engine) (call : CallKey) (k : NodeKey) (removed : Bool)
    (report : StopReport) : Silent e (e.askToClose call k removed report).1 := by
  unfold askToClose
  split
  · exact .refl e
  · split
    · rename_i b _
      have hn : Silent e (e.note (b.onClose removed).1) := ⟨rfl, rfl⟩
      dsimp only
      split
      · exact hn.trans ((silent_noteSignal _ _ _).trans (silent_await _ _ _ _ _))
      · exact hn.trans (silent_closeBySignal _ _ _ _ _)
      · exact hn.trans (silent_await _ _ _ _ _)
      · exact hn.trans ((silent_startTask _ _ _).trans (silent_await _ _ _ _ _))
      · split
        · exact hn.trans ((silent_startTask _ _ _).trans (silent_await _ _ _ _ _))
        · exact hn.trans ((silent_noteSignal _ _ _).trans (silent_await _ _ _ _ _))
    · exact (silent_noteSignal _ _ _).trans (silent_await _ _ _ _ _)

/-! ## Stopping levels -/

theorem stops_refresh (e : Engine) (k : LevelKey) : StopsWithin may e (e.refresh k) := by
  unfold refresh
  split
  · exact .refl e
  · exact .single (.receivers k _)

theorem stops_cancel (e : Engine) (k : NodeKey) : StopsWithin may e (e.cancel k) := by
  have hw (ps : List Pending) (e : Engine) :
      Silent e (ps.foldl (fun e p => e.wake (.task p.key)) e) := by
    induction ps generalizing e with
    | nil => exact .refl e
    | cons p ps ih => exact Silent.trans ⟨(quiet_wake e _).still, wake_agenda e _⟩ (ih _)
  exact (StopsWithin.single (.cancel k)).trans (hw _ _).stops

theorem stops_withdraw {k : LevelKey} {targets : List NodeKey}
    (h : ∀ n ∈ targets, ∃ l, e.level? k = some l ∧ n ∈ l.active.values)
    (hm : ∀ n ∈ targets, ∀ node, e.node? n = some node → may k node.id) :
    StopsWithin may e (e.withdraw k targets) := by
  have hc (ns : List NodeKey) (e : Engine) :
      StopsWithin may e (ns.foldl (fun e n => e.cancel n) e) := by
    induction ns generalizing e with
    | nil => exact .refl e
    | cons n ns ih => exact (stops_cancel e n).trans (ih _)
  exact (StopsWithin.single (.leave k targets h hm)).trans (hc _ _)

theorem stops_finishStop (e : Engine) (k : LevelKey) (full : Bool) (previous : Phase) (backward : Bool)
    (closings : List Closing) :
    StopsWithin may e (e.finishStop k full previous backward closings).1 := by
  unfold finishStop
  dsimp only
  split
  · exact .refl e
  · split
    · exact (stops_refresh e k).trans
        ((StopsWithin.single (.phase k .stopped)).trans (silent_publish _ _).stops)
    · exact (stops_refresh e k).trans (.single (.phase k previous))

/-- A stop that may take a usage node out of its level may take everything out of its instance. -/
def Closed (may : LevelKey → NodeId → Prop) (e : Engine) : Prop :=
  ∀ k l id inst, e.level? k = some l → l.instances.get? id = some inst → may k id → ∀ id', may inst id'

theorem StopsWithin.closed (h : StopsWithin may e e') (hc : Closed may e) : Closed may e' := by
  refine h.invariant (P := Closed may) (fun s s' hs ht => ?_) hc
  have hlevel (j : LevelKey) (f : Level → Level) (hf : ∀ l id inst, (f l).instances.get? id = some inst →
      l.instances.get? id = some inst) : Closed may (s.modifyLevel j f) := by
    intro k l id inst hl hi hm
    rw [level?, modifyLevel, Array.getElem?_modify] at hl
    split at hl
    · obtain ⟨l', hl', rfl⟩ := Option.map_eq_some_iff.mp hl
      exact hs k l' id inst hl' (hf l' id inst hi) hm
    · exact hs k l id inst hl hi hm
  cases ht with
  | still h _ =>
    intro k l id inst hl
    rw [level?_of_still h] at hl
    exact hs k l id inst hl
  | phase k p => exact hlevel k _ fun _ _ _ h => h
  | receivers k rs => exact hlevel k _ fun _ _ _ h => h
  | leave k targets _ _ => exact hlevel k _ fun _ _ _ h => h
  | cancel n => exact hs
  | forget k id _ =>
    refine hlevel k _ fun l id' inst h => ?_
    rw [Dict.get?_erase] at h
    split at h
    · cases h
    · exact h

/-- Stops leave the records of all nodes as they are. -/
theorem StopsWithin.record (h : StopsWithin may e e') (n : NodeKey) :
    (e'.node? n).map (·.record) = (e.node? n).map (·.record) := by
  refine h.invariant (P := fun s => (s.node? n).map (·.record) = (e.node? n).map (·.record))
    (fun s s' hs ht => ?_) rfl
  cases ht with
  | still h _ =>
    have hn := congrArg (Option.map Node.record) (node?_of_still h n)
    rw [Option.map_map, Option.map_map] at hn
    exact Eq.trans hn hs
  | cancel m =>
    rw [node?, modifyNode, Array.getElem?_modify]
    split
    · rw [Option.map_map]
      exact hs
    · exact hs
  | _ => exact hs

theorem StopsWithin.permits {may' : LevelKey → NodeId → Prop} (h : StopsWithin may' e e') {k : LevelKey}
    {ns : List NodeKey} (hm : ∀ n ∈ ns, ∀ node, e.node? n = some node → may k node.id) :
    ∀ n ∈ ns, ∀ node, e'.node? n = some node → may k node.id := by
  intro n hn node hnode
  have hr := h.record n
  rw [hnode] at hr
  obtain ⟨node', hnode', hrec⟩ := Option.map_eq_some_iff.mp hr.symm
  have := hm n hn node' hnode'
  rwa [Node.id, hrec] at this

theorem stops_beginClosing {stopInner : Engine → StopRequest → Engine × Stopping}
    (hs : ∀ e inst removal, Closed may e → (∀ id, may inst id) →
      StopsWithin may e (stopInner e ⟨inst, none, removal⟩).1)
    (call : CallKey) (hc : Closed may e) {level : LevelKey} {k : NodeKey}
    (hm : ∀ n, e.node? k = some n → may level n.id) (removed : Bool) :
    StopsWithin may e (beginClosing stopInner call e level k removed).1 := by
  unfold beginClosing
  split
  · exact .refl e
  · rename_i n hn
    split
    · exact (silent_askToClose _ _ _ _ _).stops
    · rename_i inst hinst
      have hf : StopsWithin may e
          (e.modifyLevel level fun l => { l with instances := l.instances.erase n.id }) :=
        .single (.forget level n.id (hm n hn))
      have hall (id : NodeId) : may inst id := by
        obtain ⟨l, hl, hi⟩ := Option.bind_eq_some_iff.mp hinst
        exact hc level l n.id inst hl hi (hm n hn) id
      have hi := hf.trans (hs _ inst (if removed then .all else .none) (hf.closed hc) hall)
      dsimp only
      split
      · rename_i hr
        rw [hr] at hi
        exact hi.trans (silent_askToClose _ _ _ _ _).stops
      · rename_i hr
        rw [hr] at hi
        exact hi

theorem mem_active_of_mem_stopTargets {l : Level} {filter : Option (List NodeId)} {n : NodeKey}
    (h : n ∈ e.stopTargets l filter) : n ∈ l.active.values := by
  unfold stopTargets at h
  rw [List.mem_mergeSort] at h
  cases filter with
  | none => exact h
  | some ids =>
    obtain ⟨id, -, hid⟩ := List.mem_filterMap.mp h
    simp only [Dict.get?, Option.map_eq_some_iff] at hid
    obtain ⟨entry, he, rfl⟩ := hid
    exact List.mem_map.mpr ⟨entry, List.mem_of_find?_eq_some he, rfl⟩

/-- The nodes that a stop is asked to take out of its level may be taken out. -/
def Permits (may : LevelKey → NodeId → Prop) (e : Engine) (request : StopRequest) : Prop :=
  ∀ l, e.level? request.level = some l → ∀ n ∈ e.stopTargets l request.filter,
    ∀ node, e.node? n = some node → may request.level node.id

/-- What is left of a level when the nodes of a stop have left it. -/
def vacated (e : Engine) (l : Level) (request : StopRequest) : Engine :=
  (if request.filter.isNone then e.modifyLevel request.level fun l => { l with phase := .stopping }
    else e).withdraw request.level (e.stopTargets l request.filter)

/-- The closes of a stop begin one after the other. -/
def beginAll (stopInner : Engine → StopRequest → Engine × Stopping) (call : CallKey) (request : StopRequest)
    (s : Engine × List Closing) (targets : List NodeKey) : Engine × List Closing :=
  targets.foldl (fun (e, closings) k =>
    let removed := request.removal.holds (((e.node? k).map (·.id)).getD "")
    let (e, closing) := beginClosing stopInner call e request.level k removed
    (e, closings ++ [closing])) s

theorem beginStop_eq (call : CallKey) (fuel : Nat) {request : StopRequest} {l : Level}
    (hl : e.level? request.level = some l) : beginStop call (fuel + 1) e request = finishStop
      (beginAll (beginStop call fuel) call request (e.vacated l request, [])
        (e.stopTargets l request.filter)).1 request.level request.filter.isNone l.phase false
      (beginAll (beginStop call fuel) call request (e.vacated l request, [])
        (e.stopTargets l request.filter)).2 := by
  rw [beginStop, hl]
  rfl

theorem stops_vacated {l : Level} {request : StopRequest} (hl : e.level? request.level = some l)
    (hm : Permits may e request) : StopsWithin may e (e.vacated l request) := by
  unfold vacated
  -- the phase changes before the nodes leave, which are those of the level before
  split
  · refine (StopsWithin.single (.phase request.level .stopping)).trans (stops_withdraw ?_ (hm l hl))
    intro n hn
    refine ⟨{ l with phase := .stopping }, ?_, mem_active_of_mem_stopTargets hn⟩
    simp only [level?] at hl
    simp [level?, modifyLevel, Array.getElem?_modify, hl]
  · exact stops_withdraw (fun n hn => ⟨l, hl, mem_active_of_mem_stopTargets hn⟩) (hm l hl)

theorem stops_beginAll {stopInner : Engine → StopRequest → Engine × Stopping}
    (hs : ∀ e inst removal, Closed may e → (∀ id, may inst id) →
      StopsWithin may e (stopInner e ⟨inst, none, removal⟩).1)
    (call : CallKey) (request : StopRequest) (targets : List NodeKey) (s : Engine × List Closing)
    (hc : Closed may s.1)
    (hm : ∀ n ∈ targets, ∀ node, s.1.node? n = some node → may request.level node.id) :
    StopsWithin may s.1 (beginAll stopInner call request s targets).1 := by
  induction targets generalizing s with
  | nil => exact .refl _
  | cons n ns ih =>
    have hstep := stops_beginClosing hs call hc (hm n List.mem_cons_self)
      (request.removal.holds (((s.1.node? n).map (·.id)).getD ""))
    have hrest := ih (_, s.2 ++ [(beginClosing stopInner call s.1 request.level n
      (request.removal.holds (((s.1.node? n).map (·.id)).getD ""))).2]) (hstep.closed hc)
      (hstep.permits fun m hmem => hm m (List.mem_cons_of_mem _ hmem))
    exact hstep.trans hrest

theorem stopsWithin_beginStop (call : CallKey) (fuel : Nat) (e : Engine) (request : StopRequest)
    (hc : Closed may e) (hm : Permits may e request) :
    StopsWithin may e (beginStop call fuel e request).1 := by
  induction fuel generalizing e request with
  | zero => exact .refl e
  | succ fuel ih =>
    cases hl : e.level? request.level with
    | none =>
      unfold beginStop
      rw [hl]
      exact .refl e
    | some l =>
      rw [beginStop_eq call fuel hl]
      have hv := stops_vacated hl hm
      refine StopsWithin.trans (hv.trans ?_) (stops_finishStop _ _ _ _ _ _)
      refine stops_beginAll (fun e inst removal hc hall => ?_) call request _ (e.vacated l request, [])
        (hv.closed hc) (hv.permits (hm l hl))
      exact ih e _ hc fun _ _ _ _ node _ => hall node.id

theorem stops_beginStop (call : CallKey) (fuel : Nat) (e : Engine) (request : StopRequest) :
    Stops e (beginStop call fuel e request).1 :=
  stopsWithin_beginStop _ _ _ _ (fun _ _ _ _ _ _ _ _ => trivial) fun _ _ _ _ _ _ => trivial

theorem stops_stop (e : Engine) (call : CallKey) (request : StopRequest) :
    Stops e (e.stop call request).1 := stops_beginStop _ _ _ _

/-! ## Going on with stops -/

mutual
theorem stops_pollClosing (call : CallKey) (e : Engine) :
    (c : Closing) → StopsWithin may e (pollClosing call e c).1
  | .done report => .refl e
  | .asked k removed deadline report => (silent_pollAsked e k removed deadline report).stops
  | .inner k removed inner => by
    have hi := stops_pollStop call e inner
    unfold pollClosing
    split
    · rename_i hr
      rw [hr] at hi
      exact hi.trans (silent_askToClose _ _ _ _ _).stops
    · rename_i hr
      rw [hr] at hi
      exact hi

/-- Nothing leaves its level any more when a stop goes on. -/
theorem stops_pollStop (call : CallKey) (e : Engine) :
    (s : Stopping) → StopsWithin may e (pollStop call e s).1
  | .finished report => .refl e
  | .running k full previous backward closings => by
    have hb := stops_pollBackward call e closings
    have hf := stops_pollClosings call e closings
    unfold pollStop
    cases backward with
    | true => exact hb.trans (stops_finishStop _ _ _ _ _ _)
    | false => exact hf.trans (stops_finishStop _ _ _ _ _ _)

theorem stops_pollClosings (call : CallKey) (e : Engine) :
    (cs : List Closing) → StopsWithin may e (pollClosings call e cs).1
  | [] => .refl e
  | c :: cs => by
    have hc := stops_pollClosing call e c
    exact hc.trans (stops_pollClosings call _ cs)

theorem stops_pollBackward (call : CallKey) (e : Engine) :
    (cs : List Closing) → StopsWithin may e (pollBackward call e cs).1
  | [] => .refl e
  | c :: cs => by
    have hcs := stops_pollBackward call e cs
    exact hcs.trans (stops_pollClosing call _ c)
end

end Flowgraph.Engine
