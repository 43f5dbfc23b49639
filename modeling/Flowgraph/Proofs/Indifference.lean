import Flowgraph.Proofs.Accounting
import Flowgraph.Proofs.Calls
/-! Stops do not look at configurations. Whatever configuration a level is given before a stop begins, the stop does the
same, and leaves the level with that configuration. -/
namespace Flowgraph.Engine

variable {e : Engine} {key : CallKey} {α : Type} (k : LevelKey) (config : FlowConfig)

/-- An engine in which one of the levels has been given another configuration. -/
def configured (k : LevelKey) (config : FlowConfig) (e : Engine) : Engine := e.modifyLevel k fun l => { l with config }

theorem level?_configured (e : Engine) (j : LevelKey) :
    (e.configured k config).level? j = (e.level? j).map fun l => if k = j then { l with config } else l := by
  rw [configured, level?_modifyLevel]
  split
  · rfl
  · exact Option.map_id'.symm

/-- What is read of a level besides its configuration is the same. -/
theorem map_level?_configured {f : Level → α} (hf : ∀ l, f { l with config } = f l) (j : LevelKey) :
    ((e.configured k config).level? j).map f = (e.level? j).map f := by
  rw [level?_configured, Option.map_map]
  refine congrArg (Option.map · (e.level? j)) (funext fun l => ?_)
  by_cases h : k = j <;> simp [h, hf]

theorem instance?_configured (j : LevelKey) (id : NodeId) : (e.configured k config).instance? j id = e.instance? j id := by
  simp only [instance?, level?_configured, Option.bind_map]
  refine congrArg (Option.bind (e.level? j)) (funext fun l => ?_)
  by_cases h : k = j <;> simp [h]

theorem activeKey?_configured (j : LevelKey) (id : NodeId) :
    (e.configured k config).activeKey? j id = e.activeKey? j id := by
  simp only [activeKey?, level?_configured, Option.bind_map]
  refine congrArg (Option.bind (e.level? j)) (funext fun l => ?_)
  by_cases h : k = j <;> simp [h]

theorem binding?_configured (j : LevelKey) : (e.configured k config).binding? j = e.binding? j := by
  rw [binding?, binding?, level?_configured]
  cases e.level? j with
  | none => rfl
  | some l => by_cases h : k = j <;> simp [h]

/-- A change to a level that leaves its configuration alone. -/
theorem modifyLevel_configured {f : Level → Level} (hf : ∀ l, f { l with config } = { f l with config }) (j : LevelKey) :
    (e.configured k config).modifyLevel j f = (e.modifyLevel j f).configured k config := by
  have hlevels : (e.levels.modify k fun l => { l with config }).modify j f =
      (e.levels.modify j f).modify k fun l => { l with config } := by
    refine Array.ext_getElem? fun i => ?_
    simp only [Array.getElem?_modify]
    by_cases hj : j = i <;> by_cases hk : k = i <;> simp [hj, hk, Function.comp_def, hf]
  exact congrArg (fun levels => { e with levels }) hlevels

theorem wake_configured (e : Engine) (w : Waiter) : (e.configured k config).wake w = (e.wake w).configured k config := by
  have hready : (e.configured k config).ready = e.ready := rfl
  unfold wake
  rw [hready]
  split <;> rfl

theorem publish_configured (e : Engine) (event : Event) :
    (e.configured k config).publish event = (e.publish event).configured k config := by
  have hreader : (e.configured k config).reader = e.reader := rfl
  unfold publish
  dsimp only
  rw [hreader]
  split
  · exact wake_configured k config { e with events := e.events ++ [event] } .reader
  · rfl

/-! ## One node -/

theorem closeBySignal_configured (e : Engine) (n : NodeKey) (removed : Bool) (report : StopReport) (result : CloseResult) :
    (e.configured k config).closeBySignal n removed report result =
      Prod.map (configured k config) id (e.closeBySignal n removed report result) := by
  have hnode : (e.configured k config).node? n = e.node? n := rfl
  unfold closeBySignal
  rw [hnode]
  cases e.node? n with
  | none => rfl
  | some node =>
    cases result with
    | ok u =>
      dsimp only
      rw [map_level?_configured k config (f := (·.id)) fun _ => rfl, publish_configured k config]
      rfl
    | error fault => rfl

theorem closeByDeadline_configured (e : Engine) (n : NodeKey) (report : StopReport) :
    (e.configured k config).closeByDeadline n report =
      Prod.map (configured k config) id (e.closeByDeadline n report) := by
  have hnode : (e.configured k config).node? n = e.node? n := rfl
  unfold closeByDeadline
  rw [hnode]
  cases e.node? n with
  | none => rfl
  | some node =>
    dsimp only
    rw [map_level?_configured k config (f := (·.id)) fun _ => rfl]
    exact congrArg (·, _) (publish_configured k config e _)

theorem pollAsked_configured (e : Engine) (n : NodeKey) (removed : Bool) (deadline : Nat) (report : StopReport) :
    (e.configured k config).pollAsked n removed deadline report =
      Prod.map (configured k config) id (e.pollAsked n removed deadline report) := by
  have hnode : (e.configured k config).node? n = e.node? n := rfl
  have hroom : (e.configured k config).room = e.room := rfl
  have hnow : (e.configured k config).now = e.now := rfl
  unfold pollAsked
  rw [hnode, hroom]
  cases e.room with
  | zero => rfl
  | succ room =>
    cases (e.node? n).bind (·.signal) with
    | some result => exact closeBySignal_configured k config { e with room } n removed report result
    | none =>
      dsimp only
      rw [hnow]
      split
      · exact closeByDeadline_configured k config { e with room } n report
      · rfl

theorem await_configured (e : Engine) (n : NodeKey) (removed : Bool) (report : StopReport) :
    (e.configured k config).await key n removed report =
      Prod.map (configured k config) id (e.await key n removed report) :=
  pollAsked_configured k config { e with timers := e.timers ++ [⟨e.now + e.closeTimeout, .deadline key n⟩] } n removed
    (e.now + e.closeTimeout) report

theorem startTask_configured (e : Engine) (n : NodeKey) (task : Task) :
    (e.configured k config).startTask n task = (e.startTask n task).configured k config := by
  unfold startTask
  exact wake_configured k config (modifyNode { e with
    nextTask := e.nextTask + 1, tasks := e.tasks ++ [⟨e.nextTask, n, task, none⟩] } n
      fun n => { n with hasTasks := true }) (.task e.nextTask)

theorem askToClose_configured (e : Engine) (n : NodeKey) (removed : Bool) (report : StopReport) :
    (e.configured k config).askToClose key n removed report =
      Prod.map (configured k config) id (e.askToClose key n removed report) := by
  have hnode : (e.configured k config).node? n = e.node? n := rfl
  have htask (e : Engine) (task : Task) : ((e.configured k config).startTask n task).await key n removed report =
      Prod.map (configured k config) id ((e.startTask n task).await key n removed report) := by
    rw [startTask_configured k config]
    exact await_configured k config _ n removed report
  unfold askToClose
  rw [hnode]
  cases e.node? n with
  | none => rfl
  | some node =>
    dsimp only
    cases node.part with
    | ordinary b =>
      dsimp only
      cases (b.onClose removed).2 with
      | signalled result => exact await_configured k config ((e.note (b.onClose removed).1).noteSignal n result) n removed report
      | panicked => exact closeBySignal_configured k config (e.note (b.onClose removed).1) n removed report _
      | never => exact await_configured k config (e.note (b.onClose removed).1) n removed report
      | later task => exact htask (e.note (b.onClose removed).1) task
      | afterTasks =>
        dsimp only
        split
        · exact htask (e.note (b.onClose removed).1) signalWhenIdle
        · exact await_configured k config ((e.note (b.onClose removed).1).noteSignal n _) n removed report
    | _ => exact await_configured k config (e.noteSignal n _) n removed report

/-! ## One level -/

theorem cancel_configured (e : Engine) (n : NodeKey) :
    (e.configured k config).cancel n = (e.cancel n).configured k config := by
  have hfold (ps : List Pending) (e : Engine) : ps.foldl (fun e p => e.wake (.task p.key)) (e.configured k config) =
      (ps.foldl (fun e p => e.wake (.task p.key)) e).configured k config := by
    induction ps generalizing e with
    | nil => rfl
    | cons p ps ih =>
      rw [List.foldl_cons, List.foldl_cons, wake_configured k config]
      exact ih _
  exact hfold _ (e.modifyNode n fun n => { n with cancelled := true })

theorem withdraw_configured (e : Engine) (j : LevelKey) (targets : List NodeKey) :
    (e.configured k config).withdraw j targets = (e.withdraw j targets).configured k config := by
  have hfold (ns : List NodeKey) (e : Engine) : ns.foldl (fun e n => e.cancel n) (e.configured k config) =
      (ns.foldl (fun e n => e.cancel n) e).configured k config := by
    induction ns generalizing e with
    | nil => rfl
    | cons n ns ih =>
      rw [List.foldl_cons, List.foldl_cons, cancel_configured k config]
      exact ih _
  unfold withdraw
  rw [modifyLevel_configured k config fun _ => rfl]
  exact hfold _ _

theorem refresh_configured (e : Engine) (j : LevelKey) :
    (e.configured k config).refresh j = (e.refresh j).configured k config := by
  unfold refresh
  rw [level?_configured]
  cases e.level? j with
  | none => rfl
  | some l =>
    have hrs (config : FlowConfig) : (e.configured k config).receiverRecords { l with config } = e.receiverRecords l := rfl
    dsimp only [Option.map_some]
    split
    · rw [modifyLevel_configured k config fun _ => rfl]
      rfl
    · rw [modifyLevel_configured k config fun _ => rfl]
      rfl

theorem finishStop_configured (e : Engine) (j : LevelKey) (full : Bool) (previous : Phase) (backward : Bool)
    (closings : List Closing) : (e.configured k config).finishStop j full previous backward closings =
      Prod.map (configured k config) id (e.finishStop j full previous backward closings) := by
  unfold finishStop
  dsimp only
  split
  · rfl
  · rw [refresh_configured k config]
    cases full with
    | true =>
      simp only [if_true]
      rw [modifyLevel_configured k config fun _ => rfl, map_level?_configured k config (f := (·.id)) fun _ => rfl, publish_configured k config]
      rfl
    | false =>
      simp only [Bool.false_eq_true, if_false]
      rw [modifyLevel_configured k config fun _ => rfl]
      rfl

theorem beginClosing_configured (key : CallKey) {stopInner : Engine → StopRequest → Engine × Stopping}
    (hs : ∀ e request, stopInner (e.configured k config) request =
      Prod.map (configured k config) id (stopInner e request)) (e : Engine) (j : LevelKey) (n : NodeKey) (removed : Bool) :
    beginClosing stopInner key (e.configured k config) j n removed =
      Prod.map (configured k config) id (beginClosing stopInner key e j n removed) := by
  have hnode : (e.configured k config).node? n = e.node? n := rfl
  unfold beginClosing
  rw [hnode]
  cases e.node? n with
  | none => rfl
  | some node =>
    dsimp only
    rw [instance?_configured k config]
    cases e.instance? j node.id with
    | none => exact askToClose_configured k config e n removed .empty
    | some inst =>
      dsimp only
      rw [modifyLevel_configured k config fun _ => rfl, hs]
      cases stopInner (e.modifyLevel j fun l => { l with instances := l.instances.erase node.id })
        ⟨inst, none, if removed then .all else .none⟩ with
      | mk m stop =>
        cases stop with
        | finished report => exact askToClose_configured k config m n removed report
        | running => rfl

theorem beginAll_configured (key : CallKey) (stopInner : Engine → StopRequest → Engine × Stopping)
    (hs : ∀ e request, stopInner (e.configured k config) request =
      Prod.map (configured k config) id (stopInner e request)) (request : StopRequest) (targets : List NodeKey)
    (s : Engine × List Closing) : beginAll stopInner key request (Prod.map (configured k config) id s) targets =
      Prod.map (configured k config) id (beginAll stopInner key request s targets) := by
  induction targets generalizing s with
  | nil => rfl
  | cons n ns ih =>
    obtain ⟨e, closings⟩ := s
    have hstep := beginClosing_configured k config key hs e request.level n
      (request.removal.holds (((e.node? n).map (·.id)).getD ""))
    refine Eq.trans ?_ (ih ((beginClosing stopInner key e request.level n
      (request.removal.holds (((e.node? n).map (·.id)).getD ""))).1, closings ++ [(beginClosing stopInner key e
      request.level n (request.removal.holds (((e.node? n).map (·.id)).getD ""))).2]))
    exact congrArg (fun p : Engine × Closing => beginAll stopInner key request (p.1, closings ++ [p.2]) ns) hstep

/-- The nodes that a stop takes out are those that are active. -/
theorem stopTargets_configured (e : Engine) {l l' : Level} (ha : l'.active = l.active) (filter : Option (List NodeId)) :
    (e.configured k config).stopTargets l' filter = e.stopTargets l filter := by
  unfold stopTargets
  rw [ha]
  rfl

theorem vacated_configured (e : Engine) {l l' : Level} (ha : l'.active = l.active) (request : StopRequest) :
    (e.configured k config).vacated l' request = (e.vacated l request).configured k config := by
  unfold vacated
  rw [stopTargets_configured k config e ha]
  split
  · rw [modifyLevel_configured k config fun _ => rfl, withdraw_configured k config]
  · rw [withdraw_configured k config]

theorem beginStop_configured (key : CallKey) (fuel : Nat) (e : Engine) (request : StopRequest) :
    beginStop key fuel (e.configured k config) request =
      Prod.map (configured k config) id (beginStop key fuel e request) := by
  induction fuel generalizing e request with
  | zero => rfl
  | succ fuel ih =>
    have hlevel := level?_configured k config e request.level
    cases hl : e.level? request.level with
    | none =>
      rw [hl] at hlevel
      unfold beginStop
      rw [hl, hlevel]
      rfl
    | some l =>
      rw [hl, Option.map_some] at hlevel
      have hactive : (if k = request.level then { l with config } else l).active = l.active := by split <;> rfl
      have hphase : (if k = request.level then { l with config } else l).phase = l.phase := by split <;> rfl
      have hall := beginAll_configured k config key (beginStop key fuel) ih request (e.stopTargets l request.filter)
        (e.vacated l request, [])
      rw [beginStop_eq key fuel hl, beginStop_eq key fuel hlevel, stopTargets_configured k config e hactive,
        vacated_configured k config e hactive, hphase]
      exact (congrArg (fun s : Engine × List Closing => s.1.finishStop request.level request.filter.isNone l.phase false s.2)
        hall).trans (finishStop_configured k config _ _ _ _ _ _)

/-- Stops that begin side by side do not look at the configuration of any level. -/
theorem beginStops_configured (key : CallKey) (requests : List StopRequest) (s : Engine × List Stopping) :
    beginStops key (Prod.map (configured k config) id s) requests =
      Prod.map (configured k config) id (beginStops key s requests) := by
  induction requests generalizing s with
  | nil => rfl
  | cons request requests ih =>
    obtain ⟨e, stops⟩ := s
    have hsize : (e.configured k config).levelCount = e.levelCount := Array.size_modify
    have hstep : (e.configured k config).stop key request = Prod.map (configured k config) id (e.stop key request) := by
      unfold stop
      rw [hsize]
      exact beginStop_configured k config key _ e request
    refine Eq.trans ?_ (ih ((e.stop key request).1, stops ++ [(e.stop key request).2]))
    exact congrArg (fun p : Engine × Stopping => beginStops key (p.1, stops ++ [p.2]) requests) hstep

/-! ## Accounts of stops do not look at configurations -/

variable {e' : Engine} {may kept : LevelKey → NodeId → Prop} {r : StopRequest} {i j : LevelKey} {id : NodeId}

theorem StopsWithin.configured (h : StopsWithin may e e') :
    StopsWithin may (e.configured k config) (e'.configured k config) := by
  refine h.invariant (P := fun s => StopsWithin may (e.configured k config) (s.configured k config))
    (fun s s' hs ht => hs.trans (.single ?_)) (.refl _)
  cases ht with
  | still h ha =>
    have hstill := congrArg (Engine.configured k config) h
    exact .still hstill ha
  | phase j p =>
    rw [← modifyLevel_configured k config fun _ => rfl]
    exact .phase j p
  | receivers j rs =>
    rw [← modifyLevel_configured k config fun _ => rfl]
    exact .receivers j rs
  | leave j targets ht hm =>
    rw [← modifyLevel_configured k config fun _ => rfl]
    refine .leave j targets (fun n hn => ?_) hm
    obtain ⟨l, hl, hn⟩ := ht n hn
    rw [level?_configured, hl]
    refine ⟨_, rfl, ?_⟩
    split <;> exact hn
  | cancel n => exact .cancel n
  | forget j id hm =>
    rw [← modifyLevel_configured k config fun _ => rfl]
    exact .forget j id hm

theorem Inside.configured (h : e.Inside i j) : (e.configured k config).Inside i j := by
  induction h with
  | here => exact .here
  | deeper _ hi ih => exact .deeper ih ((instance?_configured k config _ _).trans hi)

theorem inside_configured : (e.configured k config).Inside i j ↔ e.Inside i j := by
  refine ⟨fun h => ?_, .configured k config⟩
  induction h with
  | here => exact .here
  | deeper _ hi ih => exact .deeper ih ((instance?_configured k config _ _).symm.trans hi)

theorem takes_configured {removed : Bool} : r.Takes (e.configured k config) j id removed ↔ r.Takes e j id removed := by
  constructor <;> intro h
  · cases h with
    | own hc => exact .own hc
    | nested hc hi hin =>
      exact .nested hc ((instance?_configured k config _ _).symm.trans hi) ((inside_configured k config).mp hin)
  · cases h with
    | own hc => exact .own hc
    | nested hc hi hin => exact .nested hc ((instance?_configured k config _ _).trans hi) (.configured k config hin)

theorem Spares.configured (h : Spares kept e e') : Spares kept (e.configured k config) (e'.configured k config) := by
  refine ⟨fun j id hk => ?_, fun j id hk => ?_, fun j id n hk hn => ?_⟩
  · rw [activeKey?_configured, activeKey?_configured, h.active j id hk]
  · rw [instance?_configured, instance?_configured, h.inst j id hk]
  · exact h.wiring j id n hk ((activeKey?_configured k config j id).symm.trans hn)

theorem Placed.configured (h : Placed e) : Placed (e.configured k config) :=
  h.of_active (.modifyLevel _ _ _ fun _ => ⟨rfl, rfl, rfl⟩) (map_level?_configured k config fun _ => rfl)

theorem Commences.configured {stop : Stopping} {given served : List Order} (h : Commences e r e' stop given served) :
    Commences (e.configured k config) r (e'.configured k config) stop given served where
  given o := by simp only [activeKey?_configured, takes_configured, h.given]
  once := h.once
  serving := ⟨StopsWithin.configured k config h.serving.stops, h.serving.orders, h.serving.ids, h.serving.notes⟩
  emptied j id removed ht := by
    rw [activeKey?_configured, instance?_configured]
    exact h.emptied j id removed ((takes_configured k config).mp ht)
  spares := (h.spares.configured k config).mono fun _ _ hk removed ht => hk removed ((takes_configured k config).mpr ht)

theorem Opening.configured {requests : List StopRequest} {stops : List Stopping} {given served : List Order}
    (h : Opening e requests e' stops given served) :
    Opening (e.configured k config) requests (e'.configured k config) stops given served := by
  induction h with
  | nil => exact .nil _
  | cons h _ ih => exact .cons (h.configured k config) ih

end Flowgraph.Engine
