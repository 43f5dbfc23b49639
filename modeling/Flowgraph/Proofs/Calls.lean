import Flowgraph.Proofs.Growth
/-! Calls step by step: what going on with a call comes to, and what every stage leaves as it is. -/
namespace Flowgraph.Engine

variable {e e' e'' : Engine} {key : CallKey} {c : Call}

/-! ## Looking calls up -/

theorem call?_modifyCall (e : Engine) (key : CallKey) (f : Call → Call) (j : CallKey) :
    (e.modifyCall key f).call? j = if key = j then (e.call? j).map f else e.call? j := by
  unfold call? modifyCall
  induction e.calls with
  | nil => simp
  | cons entry rest ih =>
    obtain ⟨i, c⟩ := entry
    simp only [List.map_cons]
    by_cases hi : i = key
    · subst hi
      by_cases hj : i = j
      · subst hj
        simp
      · simpa [List.find?_cons, hj] using ih
    · by_cases hj : i = j
      · subst hj
        simp [hi, Ne.symm hi]
      · simpa [List.find?_cons, hi, hj] using ih

theorem call?_of_calls (h : e'.calls = e.calls) (j : CallKey) : e'.call? j = e.call? j := by
  simp only [call?, h]

theorem call?_push (e : Engine) (actions : List Action) (j : CallKey) : (e.push actions).call? j = e.call? j := rfl

theorem call?_activated (e : Engine) (k : LevelKey) (c : FlowConfig) (order : List Nat) (j : CallKey) :
    (e.activated k c order).call? j = e.call? j := rfl

theorem broken_activated (e : Engine) (k : LevelKey) (c : FlowConfig) (order : List Nat) :
    (e.activated k c order).broken = e.broken := rfl

theorem mem_calls_of_call? {j : CallKey} (h : e.call? j = some c) : (j, c) ∈ e.calls := by
  simp only [call?, Option.map_eq_some_iff] at h
  obtain ⟨entry, hf, rfl⟩ := h
  have := List.find?_some hf
  have hj : entry.1 = j := by simpa using this
  rw [← hj]
  exact List.mem_of_find?_eq_some hf

/-- A new call is found under its key, provided the key is new. -/
theorem call?_begin (hk : ∀ entry ∈ e.calls, entry.1 < e.nextCall) (stages : List Stage)
    (j : CallKey) : (e.begin stages).1.call? j =
      if j = e.nextCall then some (.make stages e.now) else e.call? j := by
  have hcalls : (e.begin stages).1.calls = e.calls ++ [(e.nextCall, Call.make stages e.now)] := by
    unfold begin
    exact calls_of_still (quiet_wake _ _).still
  unfold call?
  rw [hcalls, List.find?_append]
  by_cases hj : j = e.nextCall
  · subst hj
    have : e.calls.find? (·.1 == e.nextCall) = none := by
      rw [List.find?_eq_none]
      intro entry hm
      simpa using Nat.ne_of_lt (hk entry hm)
    simp [this]
  · cases hf : e.calls.find? (·.1 == j) with
    | none => simp [hj, Ne.symm hj]
    | some entry => simp [hj]

theorem level?_begin (e : Engine) (stages : List Stage) (k : LevelKey) :
    (e.begin stages).1.level? k = e.level? k := by
  unfold begin
  exact level?_of_still (quiet_wake _ _).still k

theorem node?_begin (e : Engine) (stages : List Stage) (n : NodeKey) :
    (e.begin stages).1.node? n = e.node? n := by
  unfold begin wake
  dsimp only
  split <;> rfl

/-! ## What lies around levels and nodes -/

/-- An engine without its levels and nodes and what is under way. -/
def shell (e : Engine) : Engine := { e.still with levels := #[], nodes := #[] }

theorem shell_of_still (h : e'.still = e.still) : e'.shell = e.shell := by
  unfold shell
  rw [h]

/-- Stops touch nothing but levels and nodes. -/
theorem Stops.frame (h : Stops e e') : e'.shell = e.shell ∧ e'.agenda = e.agenda := by
  refine h.invariant (P := fun s => s.shell = e.shell ∧ s.agenda = e.agenda) (fun s s' hs ht => ?_)
    ⟨rfl, rfl⟩
  cases ht with
  | still h ha => exact ⟨(shell_of_still h).trans hs.1, ha.trans hs.2⟩
  | _ => exact hs

theorem Stops.shell (h : Stops e e') : e'.shell = e.shell := h.frame.1

theorem Stops.agenda (h : Stops e e') : e'.agenda = e.agenda := h.frame.2

theorem calls_of_shell (h : e'.shell = e.shell) : e'.calls = e.calls := by
  have := congrArg Engine.calls h
  exact this

theorem call?_of_shell (h : e'.shell = e.shell) (j : CallKey) : e'.call? j = e.call? j :=
  call?_of_calls (calls_of_shell h) j

/-! ## Going on with a call -/

/-- What going on with a call comes to. -/
inductive Resumes (e : Engine) (key : CallKey) : Engine → Prop
  | unknown (h : e.call? key = none) : Resumes e key e
  | ends {c : Call} (h : e.call? key = some c) (hw : c.waiting = []) (hs : c.stages = []) :
      Resumes e key
        (e.modifyCall key fun c => { c with ended := c.ended <|> some e.now, holds := [] })
  | stage {c : Call} {stage : Stage} {rest : List Stage} (h : e.call? key = some c)
      (hw : c.waiting = []) (hs : c.stages = stage :: rest) :
      Resumes e key ((e.modifyCall key fun c => { c with stages := rest }).runStage key stage)
  | waits {c : Call} (h : e.call? key = some c) (hw : c.waiting ≠ []) :
      Resumes e key (e.pollAll key c.waiting)

theorem resumes_resume (e : Engine) (key : CallKey) : Resumes e key (e.resume key) := by
  unfold resume
  cases h : e.call? key with
  | none => exact .unknown h
  | some c =>
    dsimp only
    cases hw : c.waiting with
    | nil =>
      cases hs : c.stages with
      | nil => exact .ends h hw hs
      | cons stage rest => exact .stage h hw hs
    | cons s stops =>
      have := Resumes.waits h (by rw [hw]; simp)
      rw [hw] at this
      exact this

/-- The reports of the stops that have finished. -/
def reports (stops : List Stopping) : List StopReport :=
  stops.filterMap fun
    | .finished report => some report
    | .running .. => none

/-- A call goes on when its stops have finished, and waits for them otherwise. -/
inductive Proceeds (e : Engine) (key : CallKey) (stops : List Stopping) : Engine → Prop
  | waits {e' : Engine} (h : (reports stops).length < stops.length)
      (hs : Silent (e.modifyCall key fun c => { c with waiting := stops }) e') :
      Proceeds e key stops e'
  | done (h : ¬(reports stops).length < stops.length) :
      Proceeds e key stops ((e.modifyCall key fun c =>
        { c with waiting := [], report := (reports stops).foldl (· ++ ·) c.report }).push [.resume key])

theorem proceeds_afterStops (e : Engine) (key : CallKey) (stops : List Stopping) :
    Proceeds e key stops (e.afterStops key stops) := by
  by_cases h : (reports stops).length < stops.length
  · have he : e.afterStops key stops =
        if (e.modifyCall key fun c => { c with waiting := stops }).room = 0 then
          { e.modifyCall key fun c => { c with waiting := stops } with
            putOff := .call key :: (e.modifyCall key fun c => { c with waiting := stops }).putOff }
        else e.modifyCall key fun c => { c with waiting := stops } := if_pos h
    rw [he]
    split
    · exact .waits h ⟨rfl, rfl⟩
    · exact .waits h (.refl _)
  · have he : e.afterStops key stops = (e.modifyCall key fun c =>
        { c with waiting := [], report := (reports stops).foldl (· ++ ·) c.report }).push
          [.resume key] := if_neg h
    rw [he]
    exact .done h

/-- Stops that begin side by side. -/
def beginStops (key : CallKey) (s : Engine × List Stopping) (requests : List StopRequest) :
    Engine × List Stopping :=
  requests.foldl (fun (e, stops) request =>
    let (e, s) := e.stop key request
    (e, stops ++ [s])) s

/-- Stops that are gone on with side by side. -/
def pollStops (key : CallKey) (s : Engine × List Stopping) (stops : List Stopping) :
    Engine × List Stopping :=
  stops.foldl (fun (e, stops) s =>
    let (e, s) := pollStop key e s
    (e, stops ++ [s])) s

theorem stopAll_eq (e : Engine) (key : CallKey) (requests : List StopRequest) :
    e.stopAll key requests =
      (beginStops key (e, []) requests).1.afterStops key (beginStops key (e, []) requests).2 := rfl

theorem pollAll_eq (e : Engine) (key : CallKey) (stops : List Stopping) :
    e.pollAll key stops = (pollStops key (e, []) stops).1.afterStops key (pollStops key (e, []) stops).2 :=
  rfl

theorem stops_beginStops (key : CallKey) (s : Engine × List Stopping) (requests : List StopRequest) :
    Stops s.1 (beginStops key s requests).1 := by
  refine StopsWithin.foldl _ (fun s request => ?_) requests s
  exact stops_stop s.1 key request

theorem stopsWithin_pollStops {may : LevelKey → NodeId → Prop} (key : CallKey) (s : Engine × List Stopping)
    (stops : List Stopping) : StopsWithin may s.1 (pollStops key s stops).1 := by
  refine StopsWithin.foldl _ (fun s stop => ?_) stops s
  exact stops_pollStop key s.1 stop

theorem stops_pollStops (key : CallKey) (s : Engine × List Stopping) (stops : List Stopping) :
    Stops s.1 (pollStops key s stops).1 := stopsWithin_pollStops key s stops

/-- The flows that a call has gathered. -/
def gathered (e : Engine) (key : CallKey) : List LevelKey := ((e.call? key).map (·.gathered)).getD []

theorem runStage_enlistGathered (e : Engine) (key : CallKey) :
    e.runStage key .enlistGathered = ({ e with flows := e.gathered key } : Engine).proceed key [] := by
  unfold runStage gathered
  cases e.call? key <;> rfl

/-- The engine as a start finds it when the configuration is applied. -/
def rewired (e : Engine) (k : LevelKey) (config : FlowConfig) (diff : Option Diff) : Engine :=
  (match diff with
    | some d => e.rewire k config d
    | none => e).modifyLevel k fun l => { l with phase := .started }

/-- What the application of a configuration comes to. -/
inductive Applies (e : Engine) (key : CallKey) (k : LevelKey) (config : FlowConfig) (diff : Option Diff) :
    Engine → Prop
  | nowhere (hl : (e.rewired k config diff).level? k = none) :
      Applies e key k config diff ((e.rewired k config diff).push [.announce k, .resume key])
  | activates {l : Level} {order : List Nat} (hl : (e.rewired k config diff).level? k = some l)
      (ho : StartOrder.resolve l.config.nodes = .ok order) :
      Applies e key k config diff
        (((e.rewired k config diff).push [.announce k, .resume key]).activated k l.config order)
  | refused {l : Level} {fault : ConfigFault} (hl : (e.rewired k config diff).level? k = some l)
      (ho : StartOrder.resolve l.config.nodes = .error fault) :
      Applies e key k config diff ((e.rewired k config diff).refuse key (.config fault))

theorem apply_of_activate {m : Engine} {key : CallKey} {k : LevelKey} {config : FlowConfig} {diff : Option Diff}
    (hm : ((e.rewired k config diff).push [.announce k, .resume key]).activate k = .ok m) :
    e.apply key k config diff = m := by
  cases diff <;> (simp only [apply]; erw [hm])

theorem applies_apply (e : Engine) (key : CallKey) (k : LevelKey) (config : FlowConfig)
    (diff : Option Diff) : Applies e key k config diff (e.apply key k config diff) := by
  have herror (fault : ConfigFault)
      (hm : ((e.rewired k config diff).push [.announce k, .resume key]).activate k = .error fault) :
      e.apply key k config diff = (e.rewired k config diff).refuse key (.config fault) := by
    cases diff <;> (simp only [apply]; erw [hm]; rfl)
  cases hl : (e.rewired k config diff).level? k with
  | none =>
    rw [apply_of_activate (activate_none (by simpa using hl))]
    exact .nowhere hl
  | some l =>
    have hl' : ((e.rewired k config diff).push [.announce k, .resume key]).level? k = some l := by
      simpa using hl
    cases ho : StartOrder.resolve l.config.nodes with
    | ok order =>
      rw [apply_of_activate (activate_ok hl' ho)]
      exact .activates hl ho
    | error fault =>
      rw [herror _ (activate_error hl' ho)]
      exact .refused hl ho

/-- What a start comes to before anything is applied. -/
inductive Starts (e : Engine) (key : CallKey) (k : LevelKey) (diff : Option Diff) : Engine → Prop
  | nowhere (hl : e.level? k = none) : Starts e key k diff (e.proceed key [])
  | refused {l : Level} {fault : FlowFault} (hl : e.level? k = some l)
      (hc : checkStart l diff = .error fault) : Starts e key k diff (e.refuse key fault)
  | fresh {l : Level} (hl : e.level? k = some l) (hd : diff = none) (hc : checkStart l diff = .ok ()) :
      Starts e key k diff ((e.modifyLevel k fun l => { l with failures := [] }).proceed key
        [.apply k l.config none])
  | again {l : Level} {d : Diff} (hl : e.level? k = some l) (hd : diff = some d)
      (hc : checkStart l diff = .ok ()) :
      Starts e key k diff (e.proceed key
        ((if ((d.changed ++ d.removed).filter l.active.contains).isEmpty then [] else
          [Stage.stop [⟨k, some ((d.changed ++ d.removed).filter l.active.contains), .ids d.removed⟩]]) ++
        [.apply k l.config (some d)]))

theorem starts_start (e : Engine) (key : CallKey) (k : LevelKey) (diff : Option Diff) :
    Starts e key k diff (e.start key k diff) := by
  unfold start
  cases hl : e.level? k with
  | none => exact .nowhere hl
  | some l =>
    dsimp only
    cases hc : checkStart l diff with
    | error fault => exact .refused hl hc
    | ok _ =>
      cases diff with
      | none => exact .fresh hl rfl hc
      | some d => exact .again hl rfl hc

/-! ## Deployments -/

/-- The running flows that go on in the next generation. -/
def keptFlows (e : Engine) (previous next : Deployment) : List LevelKey :=
  e.flows.filter fun k => survives previous next (e.flowId k)

/-- The running flows that end with this generation. -/
def droppedFlows (e : Engine) (previous next : Deployment) : List LevelKey :=
  e.flows.filter fun k => !survives previous next (e.flowId k)

/-- What becomes of a tab of the next generation. -/
def tabStages (e : Engine) (kept : List LevelKey) (diff : Diff) (tab : FlowConfig) : List Stage :=
  match kept.find? fun k => e.flowId k == tab.id with
  | some k => [Stage.update k tab, .start k (some diff), .gather k]
  | none => [.startTab tab false]

/-- What becomes of the global flow. -/
def globalStages (config : FlowConfig) (diff : Diff) (k : LevelKey) : List Stage :=
  [.update k config, .start k (some diff)]

/-- What a deployment in place goes through. -/
def deployStages (e : Engine) (previous next : Deployment) (diff : Diff) : List Stage :=
  [.stop ((e.droppedFlows previous next).map fun k => ⟨k, none, .ids diff.removed⟩),
      .stopAmong (e.keptFlows previous next) (diff.changed ++ diff.removed) diff.removed,
      .stopAmong e.global.toList (diff.changed ++ diff.removed) diff.removed] ++
    e.global.toList.flatMap (globalStages next.global diff) ++
    next.tabs.flatMap (e.tabStages (e.keptFlows previous next) diff) ++
    [.enlistGathered, .commit next]

theorem deployNodes_eq (e : Engine) (key : CallKey) (previous next : Deployment) (diff : Diff) :
    e.deployNodes key previous next diff =
      (e.hold key (e.flows ++ e.global.toList)).proceed key (e.deployStages previous next diff) := by
  unfold deployNodes
  rw [List.partition_eq_filter_filter]
  rfl

/-- The stages by which a generation replaces the one that is deployed, and the difference it makes. -/
inductive Deploys (e : Engine) (next : Deployment) : DeployKind → List Stage × Diff → Prop
  | endless {kind : DeployKind} (hd : Diff.between? (e.deployed.getD .empty) next = none) :
      Deploys e next kind ([.stuck], default)
  | first {kind : DeployKind} {diff : Diff} (hp : e.deployed = none)
      (hd : Diff.between? .empty next = some diff) : Deploys e next kind ([.startAll next], diff)
  | full {previous : Deployment} {diff : Diff} (hp : e.deployed = some previous)
      (hd : Diff.between? previous next = some diff) :
      Deploys e next .full ([.stopAll, .withdraw, .startAll next], diff)
  | nodes {previous : Deployment} {diff : Diff} (hp : e.deployed = some previous)
      (hd : Diff.between? previous next = some diff) :
      Deploys e next .nodes ([.deployNodes previous next diff], diff)

/-- A deployment is refused for what is wrong with its records, and otherwise has its stages. -/
theorem stagesOfDeploy_cases (e : Engine) (records : List Json) (kind : DeployKind) :
    (∃ fault, Deployment.parse records = .error fault ∧
      e.stagesOfDeploy records kind = .error (.config fault)) ∨
    ∃ next, Deployment.parse records = .ok next ∧
      ((∃ fault, StartOrder.validateAll next = .error fault ∧
        e.stagesOfDeploy records kind = .error (.config fault)) ∨
      (StartOrder.validateAll next = .ok () ∧
        ∃ result, Deploys e next kind result ∧ e.stagesOfDeploy records kind = .ok result)) := by
  unfold stagesOfDeploy
  cases hp : Deployment.parse records with
  | error fault => exact .inl ⟨fault, rfl, rfl⟩
  | ok next =>
    refine .inr ⟨next, rfl, ?_⟩
    cases hv : StartOrder.validateAll next with
    | error fault =>
      refine .inl ⟨fault, rfl, ?_⟩
      change ((StartOrder.validateAll next).mapError FlowFault.config).bind _ = _
      rw [hv]
      rfl
    | ok u =>
      refine .inr ⟨rfl, ?_⟩
      change ∃ result, _ ∧ ((StartOrder.validateAll next).mapError FlowFault.config).bind _ = _
      rw [hv]
      change ∃ result, _ ∧ Except.bind (.ok u) _ = _
      dsimp only [Except.bind]
      cases hd : Diff.between? (e.deployed.getD .empty) next with
      | none => exact ⟨_, .endless hd, rfl⟩
      | some diff =>
        cases he : e.deployed with
        | none =>
          rw [he] at hd
          exact ⟨_, .first he hd, rfl⟩
        | some previous =>
          rw [he] at hd
          cases kind with
          | full => exact ⟨_, .full he hd, rfl⟩
          | nodes => exact ⟨_, .nodes he hd, rfl⟩

/-! ## Everything is still there afterwards -/

theorem grows_modifyCall (e : Engine) (key : CallKey) (f : Call → Call) : Grows e (e.modifyCall key f) :=
  .of_eq rfl rfl rfl rfl

theorem grows_proceed (e : Engine) (key : CallKey) (stages : List Stage) :
    Grows e (e.proceed key stages) := .of_eq rfl rfl rfl rfl

theorem grows_refuse (e : Engine) (key : CallKey) (fault : FlowFault) : Grows e (e.refuse key fault) :=
  .of_eq rfl rfl rfl rfl

theorem Proceeds.grows {stops : List Stopping} (h : Proceeds e key stops e') : Grows e e' := by
  cases h with
  | waits _ hs => exact (grows_modifyCall _ _ _).trans (.still hs.still)
  | done _ => exact .of_eq rfl rfl rfl rfl

theorem grows_afterStops (e : Engine) (key : CallKey) (stops : List Stopping) :
    Grows e (e.afterStops key stops) := (proceeds_afterStops e key stops).grows

theorem grows_stopAll (e : Engine) (key : CallKey) (requests : List StopRequest) :
    Grows e (e.stopAll key requests) :=
  (stops_beginStops key (e, []) requests).grows.trans (grows_afterStops _ _ _)

theorem grows_rewired (e : Engine) (k : LevelKey) (config : FlowConfig) (diff : Option Diff) :
    Grows e (e.rewired k config diff) := by
  unfold rewired
  refine Grows.trans ?_ (.modifyLevel _ _ _ fun _ => ⟨rfl, rfl, rfl⟩)
  cases diff with
  | none => exact .refl e
  | some d => exact (rewires_rewire _ _ _ _).grows

theorem Applies.grows {k : LevelKey} {config : FlowConfig} {diff : Option Diff}
    (h : Applies e key k config diff e') : Grows e e' := by
  cases h with
  | nowhere => exact (grows_rewired _ _ _ _).trans (.of_eq rfl rfl rfl rfl)
  | activates =>
    refine Grows.trans ?_ (grows_activated _ _ _ _)
    exact (grows_rewired _ _ _ _).trans (.of_eq rfl rfl rfl rfl)
  | refused => exact (grows_rewired _ _ _ _).trans (grows_refuse _ _ _)

theorem Starts.grows {k : LevelKey} {diff : Option Diff} (h : Starts e key k diff e') : Grows e e' := by
  cases h with
  | nowhere => exact grows_proceed _ _ _
  | refused => exact grows_refuse _ _ _
  | fresh =>
    refine Grows.trans ?_ (grows_proceed _ _ _)
    exact .modifyLevel _ _ _ fun _ => ⟨rfl, rfl, rfl⟩
  | again => exact grows_proceed _ _ _

theorem grows_startAll (e : Engine) (key : CallKey) (next : Deployment) :
    Grows e (e.startAll key next) := by
  unfold startAll
  split
  · exact grows_refuse _ _ _
  · exact (Grows.addLevel e (.make .global none next.global)).trans (.of_eq rfl rfl rfl rfl)

theorem grows_startTab (e : Engine) (key : CallKey) (config : FlowConfig) (listed : Bool) :
    Grows e (e.startTab key config listed) := by
  unfold startTab
  split
  · exact grows_proceed _ _ _
  · exact (Grows.addLevel e (.make .tab none config)).trans (.of_eq rfl rfl rfl rfl)

theorem grows_runStage (e : Engine) (key : CallKey) (stage : Stage) : Grows e (e.runStage key stage) := by
  cases stage with
  | stop requests => exact grows_stopAll _ _ _
  | stopAmong levels ids removed => exact grows_stopAll _ _ _
  | start k diff => exact (starts_start e key k diff).grows
  | apply k config diff => exact (applies_apply e key k config diff).grows
  | update k config =>
    refine Grows.trans ?_ (grows_proceed _ _ _)
    exact .modifyLevel _ _ _ fun _ => ⟨rfl, rfl, rfl⟩
  | deployNodes previous next diff => exact .of_eq rfl rfl rfl rfl
  | stopAll => exact .of_eq rfl rfl rfl rfl
  | startAll next => exact grows_startAll _ _ _
  | startTab config listed => exact grows_startTab _ _ _ _
  | enlist k => exact .of_eq rfl rfl rfl rfl
  | gather k => exact .of_eq rfl rfl rfl rfl
  | enlistGathered => exact .of_eq rfl rfl rfl rfl
  | commit next => exact .of_eq rfl rfl rfl rfl
  | withdraw => exact .of_eq rfl rfl rfl rfl
  | stuck => exact .of_eq rfl rfl rfl rfl

theorem Resumes.grows (h : Resumes e key e') : Grows e e' := by
  cases h with
  | unknown => exact .refl e
  | ends => exact grows_modifyCall _ _ _
  | stage => exact (grows_modifyCall _ _ _).trans (grows_runStage _ _ _)
  | waits => exact (stops_pollStops key (e, []) _).grows.trans (grows_afterStops _ _ _)

theorem Tick.grows (h : Tick e e') : Grows e e' := by
  rcases h.kinds with ⟨hs, -⟩ | ⟨_, -, hs, -⟩ | ⟨a, rest, -, hq, -, rfl⟩
  · exact .still hs
  · exact .still hs
  · refine Grows.trans (m := { e with agenda := rest }) (.of_eq rfl rfl rfl rfl) ?_
    cases a with
    | create k r templates => exact (creates_create _ _ _ _).grows
    | install k r inst => exact grows_install _ _ _ _
    | refresh k => exact grows_refresh _ _
    | resume key => exact (resumes_resume _ _).grows
    | _ => simp [Action.isQuiet] at hq

theorem Reach.grows (h : Reach e e') : Grows e e' :=
  h.invariant (P := Grows e) (fun _ _ hg ht => hg.trans ht.grows) (.refl e)

theorem Input.grows (h : Input e e') : Grows e e' := by
  cases h with
  | call =>
    unfold begin
    refine Grows.trans ?_ (quiet_wake _ _).grows
    exact .of_eq rfl rfl rfl rfl
  | quiet h => exact h.grows
  | keep => exact .of_eq rfl rfl rfl rfl
  | flow => exact .addLevel _ _
  | update => exact .modifyLevel _ _ _ fun _ => ⟨rfl, rfl, rfl⟩

/-! ## What the making of nodes leaves alone -/

/-- The calls, and what runs as flows of which deployment. -/
def register (e : Engine) :
    List (CallKey × Call) × CallKey × Option Deployment × Option LevelKey × List LevelKey :=
  (e.calls, e.nextCall, e.deployed, e.global, e.flows)

theorem register_of_shell (h : e'.shell = e.shell) : e'.register = e.register := by
  have := congrArg Engine.register h
  exact this

theorem register_of_still (h : e'.still = e.still) : e'.register = e.register :=
  register_of_shell (shell_of_still h)

theorem calls_of_register (h : e'.register = e.register) : e'.calls = e.calls := by
  have := congrArg (·.1) h
  exact this

theorem register_enter (e : Engine) (k : LevelKey) (r : Record) (part : Part) :
    (e.enter k r part).register = e.register := by
  unfold enter
  cases part <;> rfl

theorem register_failCreation (e : Engine) (k : LevelKey) (r : Record) (fault : NodeFault) :
    (e.failCreation k r fault).register = e.register := by
  unfold failCreation
  split
  · rfl
  · rename_i l _
    have h := register_of_still (quiet_publish e (.nodeFailed l.id r.id r.type fault)).still
    exact h

theorem Opens.register {k : LevelKey} {usage : Record} {t : Template} (h : Opens e k usage t e') :
    e'.register = e.register := by
  cases h with
  | collapses => exact register_failCreation _ _ _ _
  | _ => rfl

theorem Creates.register {k : LevelKey} {r : Record} {templates : Templates}
    (h : Creates e k r templates e') : e'.register = e.register := by
  cases h with
  | present => rfl
  | noTemplate => exact register_failCreation _ _ _ _
  | refused => exact register_failCreation _ _ _ _
  | made => exact register_enter _ _ _ _
  | usage _ _ _ ho => exact ho.register

theorem Rewires.register (h : Rewires e e') : e'.register = e.register := by
  refine h.invariant (P := fun s => s.register = e.register) (fun s s' hs ht => ?_) rfl
  cases ht <;> exact hs

/-- Nothing but the next step of a call changes the calls and the flows. -/
theorem register_act {a : Action} (h : ∀ key, a ≠ .resume key) : (e.act a).register = e.register := by
  cases a with
  | resume key => exact absurd rfl (h key)
  | create k r templates => exact (creates_create e k r templates).register
  | install k r inst => exact register_enter _ _ _ _
  | refresh k => exact register_of_shell (Stops.shell (stops_refresh e k))
  | _ => exact register_of_still (quiet_act e rfl).still

/-! ## The other calls -/

/-- The keys of all calls and the next one, and all calls but one. -/
def besides (key : CallKey) (e : Engine) : List CallKey × CallKey × List (CallKey × Call) :=
  (e.calls.map (·.1), e.nextCall, e.calls.filter (·.1 != key))

theorem besides_modifyCall (e : Engine) (key : CallKey) (f : Call → Call) :
    (e.modifyCall key f).besides key = e.besides key := by
  simp only [besides, modifyCall, List.map_map, Prod.mk.injEq, true_and]
  constructor
  · refine List.map_congr_left fun entry _ => ?_
    simp only [Function.comp_apply]
    split
    · rename_i h
      exact h.symm
    · rfl
  · induction e.calls with
    | nil => rfl
    | cons entry rest ih =>
      by_cases hk : entry.1 = key
      · simpa [hk] using ih
      · simpa [hk] using ih

theorem besides_of_register (h : e'.register = e.register) (key : CallKey) :
    e'.besides key = e.besides key := by
  have := congrArg (fun r => (r.1.map (·.1), r.2.1, r.1.filter (·.1 != key))) h
  exact this

theorem besides_of_shell (h : e'.shell = e.shell) (key : CallKey) : e'.besides key = e.besides key :=
  besides_of_register (register_of_shell h) key

theorem besides_push (e : Engine) (actions : List Action) :
    (e.push actions).besides key = e.besides key := rfl

theorem besides_proceed (e : Engine) (key : CallKey) (stages : List Stage) :
    (e.proceed key stages).besides key = e.besides key :=
  (besides_push _ _).trans (besides_modifyCall e key fun c => { c with stages := stages ++ c.stages })

theorem besides_refuse (e : Engine) (key : CallKey) (fault : FlowFault) :
    (e.refuse key fault).besides key = e.besides key :=
  (besides_push _ _).trans
    (besides_modifyCall e key fun c => { c with stages := [], fault := some fault })

theorem besides_hold (e : Engine) (key : CallKey) (levels : List LevelKey) :
    (e.hold key levels).besides key = e.besides key := besides_modifyCall _ _ _

theorem Proceeds.besides {stops : List Stopping} (h : Proceeds e key stops e') :
    e'.besides key = e.besides key := by
  cases h with
  | waits _ hs => exact (besides_of_shell (shell_of_still hs.still) key).trans (besides_modifyCall _ _ _)
  | done _ => exact (besides_push _ _).trans (besides_modifyCall _ _ _)

theorem Applies.besides {k : LevelKey} {config : FlowConfig} {diff : Option Diff}
    (h : Applies e key k config diff e') : e'.besides key = e.besides key := by
  have hr : (e.rewired k config diff).besides key = e.besides key := by
    cases diff with
    | none => rfl
    | some d => exact besides_of_register (rewires_rewire e k config d).register key
  cases h with
  | nowhere => exact hr
  | activates => exact hr
  | refused => exact (besides_refuse _ _ _).trans hr

theorem Starts.besides {k : LevelKey} {diff : Option Diff} (h : Starts e key k diff e') :
    e'.besides key = e.besides key := by
  cases h with
  | nowhere => exact besides_proceed _ _ _
  | refused => exact besides_refuse _ _ _
  | fresh => exact besides_proceed _ _ _
  | again => exact besides_proceed _ _ _

theorem besides_runStage (e : Engine) (key : CallKey) (stage : Stage) :
    (e.runStage key stage).besides key = e.besides key := by
  have hstop (requests : List StopRequest) : (e.stopAll key requests).besides key = e.besides key :=
    (proceeds_afterStops _ _ _).besides.trans (besides_of_shell (stops_beginStops key (e, []) _).shell key)
  cases stage with
  | stop requests => exact hstop _
  | stopAmong levels ids removed => exact hstop _
  | start k diff => exact (starts_start e key k diff).besides
  | apply k config diff => exact (applies_apply e key k config diff).besides
  | update k config => exact besides_proceed _ _ _
  | deployNodes previous next diff => exact (besides_proceed _ _ _).trans (besides_hold _ _ _)
  | stopAll =>
    exact (besides_proceed _ _ _).trans (besides_hold { e with flows := [], global := none } _ _)
  | startAll next =>
    change (e.startAll key next).besides key = _
    unfold Engine.startAll
    split
    · exact besides_refuse _ _ _
    · exact (besides_proceed _ _ _).trans (besides_hold _ _ _)
  | startTab config listed =>
    change (e.startTab key config listed).besides key = _
    unfold Engine.startTab
    split
    · exact besides_proceed _ _ _
    · exact (besides_proceed _ _ _).trans (besides_hold _ _ _)
  | enlist k => exact besides_proceed _ _ _
  | gather k => exact (besides_proceed _ _ _).trans (besides_modifyCall _ _ _)
  | enlistGathered => exact besides_proceed _ _ _
  | commit next => exact besides_proceed _ _ _
  | withdraw => exact besides_proceed _ _ _
  | stuck => exact besides_modifyCall _ _ _

/-- Going on with a call leaves all others alone. -/
theorem Resumes.besides (h : Resumes e key e') : e'.besides key = e.besides key := by
  cases h with
  | unknown => rfl
  | ends => exact besides_modifyCall _ _ _
  | stage => exact (besides_runStage _ _ _).trans (besides_modifyCall _ _ _)
  | waits =>
    exact (proceeds_afterStops _ _ _).besides.trans
      (besides_of_shell (stops_pollStops key (e, []) _).shell key)

theorem call?_of_besides (h : e'.besides key = e.besides key) {j : CallKey} (hj : j ≠ key) :
    e'.call? j = e.call? j := by
  have hf (e : Engine) : e.call? j = ((e.calls.filter (·.1 != key)).find? (·.1 == j)).map (·.2) := by
    unfold call?
    rw [List.find?_filter]
    congr 2
    funext entry
    by_cases he : entry.1 = j
    · simp [he, hj]
    · simp [he]
  rw [hf e', hf e, show e'.calls.filter (·.1 != key) = e.calls.filter (·.1 != key) from
    congrArg (·.2.2) h]

/-! ## The keys of calls -/

/-- A step begins no call. -/
theorem Tick.callKeys (h : Tick e e') :
    e'.calls.map (·.1) = e.calls.map (·.1) ∧ e'.nextCall = e.nextCall := by
  have hk (key : CallKey) {e e' : Engine} (h : e'.besides key = e.besides key) :
      e'.calls.map (·.1) = e.calls.map (·.1) ∧ e'.nextCall = e.nextCall :=
    ⟨congrArg (·.1) h, congrArg (·.2.1) h⟩
  rcases h.kinds with ⟨hs, -⟩ | ⟨_, -, hs, -⟩ | ⟨a, rest, -, -, -, rfl⟩
  · exact hk 0 (besides_of_shell (shell_of_still hs) 0)
  · exact hk 0 (besides_of_shell (shell_of_still hs) 0)
  · by_cases hr : ∃ key, a = .resume key
    · obtain ⟨key, rfl⟩ := hr
      exact hk key (resumes_resume { e with agenda := rest } key).besides
    · have h := register_act (e := { e with agenda := rest }) fun key ha => hr ⟨key, ha⟩
      exact hk 0 (besides_of_register h 0)

/-- The keys of all calls are below the next one. -/
def KeysBelow (e : Engine) : Prop := ∀ entry ∈ e.calls, entry.1 < e.nextCall

theorem KeysBelow.of_callKeys (h : KeysBelow e)
    (hk : e'.calls.map (·.1) = e.calls.map (·.1) ∧ e'.nextCall = e.nextCall) : KeysBelow e' := by
  obtain ⟨hc, hn⟩ := hk
  intro entry hm
  have hm' : entry.1 ∈ e.calls.map (·.1) := by
    rw [← hc]
    exact List.mem_map_of_mem hm
  obtain ⟨entry', hm', he⟩ := List.mem_map.mp hm'
  rw [hn, ← he]
  exact h entry' hm'

theorem calls_begin (e : Engine) (stages : List Stage) :
    (e.begin stages).1.calls = e.calls ++ [(e.nextCall, Call.make stages e.now)] ∧
      (e.begin stages).1.nextCall = e.nextCall + 1 := by
  unfold begin
  exact ⟨calls_of_still (quiet_wake _ _).still, by unfold wake; dsimp only; split <;> rfl⟩

theorem Reachable.keysBelow (h : Reachable e) : KeysBelow e := by
  refine h.invariant (P := KeysBelow) (fun _ _ _ _ _ _ hm => (List.not_mem_nil hm).elim)
    (fun e e' _ hk ht => hk.of_callKeys ht.callKeys) fun e e' _ hk _ hi => ?_
  cases hi with
  | @call stages ho =>
    obtain ⟨hc, hn⟩ := calls_begin e stages
    intro entry hm
    rw [hc] at hm
    rw [hn]
    rcases List.mem_append.mp hm with hm | hm
    · exact Nat.lt_succ_of_lt (hk entry hm)
    · obtain rfl := List.mem_singleton.mp hm
      exact Nat.lt_succ_self _
  | quiet h =>
    have hr := register_of_still h.still
    exact hk.of_callKeys ⟨congrArg (·.1.map (·.1)) hr, congrArg (·.2.1) hr⟩
  | _ => exact hk

end Flowgraph.Engine
