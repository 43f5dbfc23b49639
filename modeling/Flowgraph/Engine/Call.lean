import Flowgraph.Engine.Closing
/-! Calls on flows: their stages one after the other. A call whose stage waits for stops goes on when all of
them have finished; a stage that fails ends the call. -/
namespace Flowgraph.Engine

def modifyCall (e : Engine) (key : CallKey) (f : Call → Call) : Engine :=
  { e with calls := e.calls.map fun entry => if entry.1 = key then (key, f entry.2) else entry }

/-- Puts stages before those that are left, and goes on. -/
def proceed (e : Engine) (key : CallKey) (stages : List Stage) : Engine :=
  (e.modifyCall key fun c => { c with stages := stages ++ c.stages }).push [.resume key]

/-- Gives up the stages that are left. -/
def refuse (e : Engine) (key : CallKey) (fault : FlowFault) : Engine :=
  (e.modifyCall key fun c => { c with stages := [], fault := some fault }).push [.resume key]

/-- Keeps levels alive until the call ends. -/
def hold (e : Engine) (key : CallKey) (levels : List LevelKey) : Engine :=
  e.modifyCall key fun c => { c with holds := levels ++ c.holds }

/-! ## Waiting for stops -/

/-- Goes on if all stops have finished, with their reports in the order in which they were asked for. -/
def afterStops (e : Engine) (key : CallKey) (stops : List Stopping) : Engine :=
  let reports := stops.filterMap fun
    | .finished report => some report
    | .running .. => none
  if reports.length < stops.length then
    let e := e.modifyCall key fun c => { c with waiting := stops }
    if e.room = 0 then { e with putOff := .call key :: e.putOff } else e
  else
    (e.modifyCall key fun c =>
      { c with waiting := [], report := reports.foldl (· ++ ·) c.report }).push [.resume key]

def stopAll (e : Engine) (key : CallKey) (requests : List StopRequest) : Engine :=
  let (e, stops) := requests.foldl (fun (e, stops) request =>
    let (e, s) := e.stop key request
    (e, stops ++ [s])) (e, [])
  e.afterStops key stops

def pollAll (e : Engine) (key : CallKey) (stops : List Stopping) : Engine :=
  let (e, stops) := stops.foldl (fun (e, stops) s =>
    let (e, s) := pollStop key e s
    (e, stops ++ [s])) (e, [])
  e.afterStops key stops

/-! ## Wiring -/

/-- Replaces the wiring of a live node. -/
def updateWires (e : Engine) (k : NodeKey) (wires : Wires) : Engine :=
  let e := e.modifyNode k fun n => { n with dispatch := .ofWires wires }
  match (e.node? k).map (·.part) with
  | some (Part.ordinary b) => e.note (b.onRewire wires)
  | _ => e

/-- Wires the outputs of an instance anew: those of its nodes whose wiring is another one now. -/
def rewireInstance (e : Engine) (inst : LevelKey) (outer : Wires) : Engine :=
  match e.binding? inst with
  | none => e
  | some b =>
    match b.expand? outer with
    | none => { e with broken := true, agenda := [] }
    | some nodes =>
      let e := nodes.foldl (fun e r =>
        match e.activeKey? inst r.id with
        | none => e
        | some k =>
          if (e.node? k).map (·.dispatch.toWires) = some r.outputs then e
          else e.updateWires k r.outputs) e
      e.modifyLevel inst fun l => { l with config := { l.config with nodes } }

/-- Rewires in place the nodes that a diff names for nothing else. -/
def rewire (e : Engine) (k : LevelKey) (config : FlowConfig) (diff : Diff) : Engine :=
  (diff.rewired.filter fun id => !diff.changed.contains id && !diff.removed.contains id).foldl
    (fun e id =>
      match config.node? id, e.activeKey? k id with
      | some r, some n =>
        let e := match e.instance? k id with
          | some inst => e.rewireInstance inst r.outputs
          | none => e
        e.updateWires n r.outputs
      | _, _ => e) e

/-! ## Starting -/

/-- Checks a start before anything is touched. -/
def checkStart (l : Level) (diff : Option Diff) : Except FlowFault Unit :=
  match StartOrder.validate l.config with
  | .error fault => .error (.config fault)
  | .ok _ =>
    match l.phase, diff with
    | .stopping, _ => .error (.stopping l.id)
    | .started, none => .error (.alreadyStarted l.id)
    | _, _ => .ok ()

/-- Stops what a diff makes stale, and then applies the configuration. -/
def start (e : Engine) (key : CallKey) (k : LevelKey) (diff : Option Diff) : Engine :=
  match e.level? k with
  | none => e.proceed key []
  | some l =>
    match checkStart l diff with
    | .error fault => e.refuse key fault
    | .ok _ =>
      match diff with
      | none =>
        (e.modifyLevel k fun l => { l with failures := [] }).proceed key [.apply k l.config none]
      | some d =>
        let stale := (d.changed ++ d.removed).filter l.active.contains
        let stop := if stale.isEmpty then [] else
          [Stage.stop [⟨k, some stale, .ids d.removed⟩]]
        e.proceed key (stop ++ [.apply k l.config (some d)])

/-- Rewires nodes in place and creates those that are missing. -/
def apply (e : Engine) (key : CallKey) (k : LevelKey) (config : FlowConfig) (diff : Option Diff) :
    Engine :=
  let e := match diff with
    | some d => e.rewire k config d
    | none => e
  let e := e.modifyLevel k fun l => { l with phase := .started }
  match (e.push [.announce k, .resume key]).activate k with
  | .ok e => e
  | .error fault => e.refuse key (.config fault)

/-! ## Deployments -/

/-- Whether a running tab goes on in the next generation: it is still there, enabled, and its own settings
are the same. -/
def survives (previous next : Deployment) (flow : String) : Bool :=
  match previous.flow? flow, next.flow? flow with
  | some old, some new => !new.disabled && old.label == new.label && Diff.sameEnv old.env new.env
  | _, _ => false

def flowId (e : Engine) (k : LevelKey) : String := ((e.level? k).map (·.id)).getD ""

/-- Stops what the diff touches across all flows, then lets each surviving flow apply it and replaces the
others. Users of global config nodes live in the tabs, so tabs stop first. -/
def deployNodes (e : Engine) (key : CallKey) (previous next : Deployment) (diff : Diff) : Engine :=
  let (keep, restart) := e.flows.partition fun k => survives previous next (e.flowId k)
  let stale := diff.changed ++ diff.removed
  let global := e.global.toList
  let tabs := next.tabs.flatMap fun tab =>
    match keep.find? fun k => e.flowId k == tab.id with
    | some k => [Stage.update k tab, .start k (some diff), .gather k]
    | none => [.startTab tab false]
  (e.hold key (e.flows ++ global)).proceed key <|
    [.stop (restart.map fun k => ⟨k, none, .ids diff.removed⟩),
      .stopAmong keep stale diff.removed, .stopAmong global stale diff.removed] ++
    (global.flatMap fun k => [.update k next.global, .start k (some diff)]) ++
    tabs ++ [.enlistGathered, .commit next]

/-- Makes the flows of a deployment, the global one first. -/
def startAll (e : Engine) (key : CallKey) (next : Deployment) : Engine :=
  match StartOrder.validateAll next with
  | .error fault => e.refuse key (.config fault)
  | .ok _ =>
    let (e, k) := e.addLevel (.make .global none next.global)
    ({ e with global := some k }.hold key [k]).proceed key <|
      [Stage.start k none] ++ next.tabs.map (Stage.startTab · true) ++ [Stage.commit next]

def startTab (e : Engine) (key : CallKey) (config : FlowConfig) (listed : Bool) : Engine :=
  if config.disabled then e.proceed key []
  else
    let (e, k) := e.addLevel (.make .tab none config)
    (e.hold key [k]).proceed key [.start k none, if listed then .enlist k else .gather k]

/-- Takes all flows out of the runtime and stops them, the tabs side by side and the global flow last. -/
def takeDown (e : Engine) (key : CallKey) : Engine :=
  let request (k : LevelKey) : StopRequest := ⟨k, none, .none⟩
  let flows := e.flows
  let global := e.global.toList
  ({ e with flows := [], global := none }.hold key (flows ++ global)).proceed key
    [.stop (flows.map request), .stop (global.map request)]

/-! ## Stages -/

def runStage (e : Engine) (key : CallKey) : Stage → Engine
  | .stop requests => e.stopAll key requests
  | .stopAmong levels ids removed =>
    e.stopAll key <| levels.map fun k =>
      ⟨k, some (ids.filter fun id => (e.activeKey? k id).isSome), .ids removed⟩
  | .start k diff => e.start key k diff
  | .apply k config diff => e.apply key k config diff
  | .update k config => (e.modifyLevel k fun l => { l with config }).proceed key []
  | .deployNodes previous next diff => e.deployNodes key previous next diff
  | .stopAll => e.takeDown key
  | .startAll next => e.startAll key next
  | .startTab config listed => e.startTab key config listed
  | .enlist k => { e with flows := e.flows ++ [k] }.proceed key []
  | .gather k =>
    (e.modifyCall key fun c => { c with gathered := c.gathered ++ [k] }).proceed key []
  | .enlistGathered =>
    let gathered := match e.call? key with
      | some c => c.gathered
      | none => []
    { e with flows := gathered }.proceed key []
  | .commit next => { e with deployed := some next }.proceed key []
  | .withdraw => { e with deployed := none }.proceed key []
  | .stuck => e.modifyCall key fun c => { c with stages := .stuck :: c.stages }

/-- Goes on with a call: with the stops it waits for, or with its next stage. -/
def resume (e : Engine) (key : CallKey) : Engine :=
  match e.call? key with
  | none => e
  | some c =>
    match c.waiting, c.stages with
    | [], [] => e.modifyCall key fun c => { c with ended := c.ended <|> some e.now, holds := [] }
    | [], stage :: rest => (e.modifyCall key fun c => { c with stages := rest }).runStage key stage
    | stops, _ => e.pollAll key stops

/-! ## The calls -/

/-- Begins a call; it runs when it is woken. -/
def begin (e : Engine) (stages : List Stage) : Engine × CallKey :=
  let key := e.nextCall
  let calls := e.calls ++ [(key, Call.make stages e.now)]
  ({ e with nextCall := key + 1, calls }.wake (.call key), key)

def stagesOfLoad (e : Engine) (records : List Json) : Except FlowFault (List Stage) :=
  if e.deployed.isSome then .error .alreadyDeployed
  else
    match Deployment.parse records with
    | .error fault => .error (.config fault)
    | .ok next => .ok [.startAll next]

/-- How a deployment is replaced. -/
inductive DeployKind
  /-- All stops and the new generation starts. -/
  | full
  /-- Only what changed is restarted, and the rest is rewired in place. -/
  | nodes
  deriving DecidableEq, Repr

/-- The stages of a deployment and the difference it makes. The new generation is validated before anything
is touched. -/
def stagesOfDeploy (e : Engine) (records : List Json) (kind : DeployKind) :
    Except FlowFault (List Stage × Diff) := do
  let next ← (Deployment.parse records).mapError .config
  let _ ← (StartOrder.validateAll next).mapError .config
  match Diff.between? (e.deployed.getD .empty) next with
  | none => return ([.stuck], default)
  | some diff =>
    match e.deployed, kind with
    | none, _ => return ([.startAll next], diff)
    | some _, .full => return ([.stopAll, .withdraw, .startAll next], diff)
    | some previous, .nodes => return ([.deployNodes previous next diff], diff)

def stagesOfStopAll : List Stage := [.stopAll, .withdraw]

end Flowgraph.Engine
