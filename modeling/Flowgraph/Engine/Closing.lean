import Flowgraph.Engine.Activation
/-! Stopping nodes. All nodes of a stop leave their level at once and are asked to close side by side, ordinary
nodes before config nodes; each has the same time to signal. A usage node is asked after its instance has
stopped. -/
namespace Flowgraph

def StopReport.ofClosed (id : NodeId) : StopReport := ⟨[id], [], []⟩
def StopReport.ofTimedOut (id : NodeId) : StopReport := ⟨[], [id], []⟩
def StopReport.ofFailed (id : NodeId) (fault : NodeFault) : StopReport := ⟨[], [], [(id, fault)]⟩

namespace Engine

/-! ## One node -/

/-- Ends the close of a node by its signal. -/
def closeBySignal (e : Engine) (k : NodeKey) (removed : Bool) (report : StopReport)
    (result : CloseResult) : Engine × Closing :=
  match e.node? k with
  | none => (e, .done report)
  | some n =>
    match result with
    | .ok _ =>
      let flow := ((e.level? n.level).map (·.id)).getD ""
      (e.publish (.nodeClosed flow n.id removed), .done (report ++ .ofClosed n.id))
    | .error fault => (e, .done (report ++ .ofFailed n.id fault))

/-- Ends the close of a node whose time is over. -/
def closeByDeadline (e : Engine) (k : NodeKey) (report : StopReport) : Engine × Closing :=
  match e.node? k with
  | none => (e, .done report)
  | some n =>
    let flow := ((e.level? n.level).map (·.id)).getD ""
    (e.publish (.nodeCloseTimedOut flow n.id e.closeTimeout), .done (report ++ .ofTimedOut n.id))

/-- Looks after a node that has been asked to close. A signal counts as long as it comes first. When the turn
has no room left, the node has to wait for the next one. -/
def pollAsked (e : Engine) (k : NodeKey) (removed : Bool) (deadline : Nat) (report : StopReport) :
    Engine × Closing :=
  match e.room with
  | 0 => (e, .asked k removed deadline report)
  | room + 1 =>
    match (e.node? k).bind (·.signal) with
    | some result => { e with room }.closeBySignal k removed report result
    | none =>
      if deadline ≤ e.now then { e with room }.closeByDeadline k report
      else (e, .asked k removed deadline report)

/-- Waits for the signal of a node, up to the close timeout. -/
def await (e : Engine) (call : CallKey) (k : NodeKey) (removed : Bool) (report : StopReport) :
    Engine × Closing :=
  let deadline := e.now + e.closeTimeout
  let timer : Timer := ⟨deadline, .deadline call k⟩
  { e with timers := e.timers ++ [timer] }.pollAsked k removed deadline report

/-- A task that signals once all others of its node have finished. -/
def signalWhenIdle : Task where
  wait := .others
  abandons := false
  resume _ := [.closed (.ok ())]

/-- Asks a node to close. -/
def askToClose (e : Engine) (call : CallKey) (k : NodeKey) (removed : Bool) (report : StopReport) :
    Engine × Closing :=
  match e.node? k with
  | none => (e, .done report)
  | some n =>
    match n.part with
    | .ordinary b =>
      let (notes, answer) := b.onClose removed
      let e := e.note notes
      match answer with
      | .signalled result => (e.noteSignal k result).await call k removed report
      | .panicked => e.closeBySignal k removed report (.error (.close "close handler panicked"))
      | .never => e.await call k removed report
      | .later task => (e.startTask k task).await call k removed report
      | .afterTasks =>
        if n.hasTasks then (e.startTask k signalWhenIdle).await call k removed report
        else (e.noteSignal k (.ok ())).await call k removed report
    | _ => (e.noteSignal k (.ok ())).await call k removed report

/-! ## One level -/

/-- Tells a node to stop, which wakes its tasks that are abandoned then. -/
def cancel (e : Engine) (k : NodeKey) : Engine :=
  ((e.tasksOf k).filter (·.task.abandons)).foldl (fun e p => e.wake (.task p.key))
    (e.modifyNode k fun n => { n with cancelled := true })

/-- Ordinary nodes before config nodes, and each group in the order of creation. -/
def closesBefore (e : Engine) (a b : NodeKey) : Bool :=
  let isConfig (k : NodeKey) := ((e.node? k).map (·.record.isConfigNode)).getD false
  match isConfig a, isConfig b with
  | false, true => true
  | true, false => false
  | _, _ => a ≤ b

/-- The active nodes a stop takes out of its level; ids that are repeated or not active add nothing. -/
def stopTargets (e : Engine) (l : Level) (filter : Option (List NodeId)) : List NodeKey :=
  let keys := match filter with
    | none => l.active.values
    | some ids => ids.eraseDups.filterMap l.active.get?
  keys.mergeSort e.closesBefore

/-- Takes nodes out of their level and tells all of them to stop. -/
def withdraw (e : Engine) (k : LevelKey) (targets : List NodeKey) : Engine :=
  targets.foldl (fun e n => e.cancel n) <| e.modifyLevel k fun l =>
    { l with active := l.active.filter fun entry => !targets.contains entry.2 }

/-- A stop of more nodes than this goes through those that were left over from one turn in the opposite
direction in the next. -/
def manyClosings : Nat := 30

/-- Ends a stop when all its nodes are done. Only then the receivers of the level are those that are left. -/
def finishStop (e : Engine) (k : LevelKey) (full : Bool) (previous : Phase) (backward : Bool)
    (closings : List Closing) : Engine × Stopping :=
  let reports := closings.filterMap fun
    | .done report => some report
    | _ => none
  if reports.length < closings.length then
    let turned := e.room == 0 && closings.length > manyClosings && !backward
    (e, .running k full previous turned closings)
  else
    let report := reports.foldl (· ++ ·) .empty
    let e := e.refresh k
    if full then
      let flow := ((e.level? k).map (·.id)).getD ""
      ((e.modifyLevel k fun l => { l with phase := .stopped }).publish
        (.flowStopped flow report.closed.length report.timedOut.length), .finished report)
    else (e.modifyLevel k fun l => { l with phase := previous }, .finished report)

/-- Begins the close of a node: its instance, if it has one, stops first. -/
def beginClosing (stopInner : Engine → StopRequest → Engine × Stopping) (call : CallKey)
    (e : Engine) (level : LevelKey) (k : NodeKey) (removed : Bool) : Engine × Closing :=
  match e.node? k with
  | none => (e, .done .empty)
  | some n =>
    match e.instance? level n.id with
    | none => e.askToClose call k removed .empty
    | some inst =>
      let e := e.modifyLevel level fun l => { l with instances := l.instances.erase n.id }
      match stopInner e ⟨inst, none, if removed then .all else .none⟩ with
      | (e, .finished report) => e.askToClose call k removed report
      | (e, stop) => (e, .inner k removed stop)

/-- Begins a stop, and goes on as far as no node has to be waited for. -/
def beginStop (call : CallKey) : (fuel : Nat) → Engine → StopRequest → Engine × Stopping
  | 0, e, _ => (e, .finished .empty)
  | fuel + 1, e, request =>
    match e.level? request.level with
    | none => (e, .finished .empty)
    | some l =>
      let full := request.filter.isNone
      let targets := e.stopTargets l request.filter
      let e := if full then e.modifyLevel request.level fun l => { l with phase := .stopping } else e
      let e := e.withdraw request.level targets
      let (e, closings) := targets.foldl (fun (e, closings) k =>
        let removed := request.removal.holds (((e.node? k).map (·.id)).getD "")
        let (e, closing) := beginClosing (beginStop call fuel) call e request.level k removed
        (e, closings ++ [closing])) (e, [])
      e.finishStop request.level full l.phase false closings

/-- The instances in each other are no more than the levels. -/
def stop (e : Engine) (call : CallKey) (request : StopRequest) : Engine × Stopping :=
  beginStop call (e.levelCount + 1) e request

/-! ## Going on with a stop -/

mutual
def pollClosing (call : CallKey) (e : Engine) : Closing → Engine × Closing
  | .done report => (e, .done report)
  | .asked k removed deadline report => e.pollAsked k removed deadline report
  | .inner k removed inner =>
    match pollStop call e inner with
    | (e, .finished report) => e.askToClose call k removed report
    | (e, inner) => (e, .inner k removed inner)
termination_by structural c => c

/-- Looks after the nodes of a stop one by one. -/
def pollStop (call : CallKey) (e : Engine) : Stopping → Engine × Stopping
  | .finished report => (e, .finished report)
  | .running k full previous backward closings =>
    let (e, closings) :=
      if backward then pollBackward call e closings else pollClosings call e closings
    e.finishStop k full previous backward closings
termination_by structural s => s

def pollClosings (call : CallKey) (e : Engine) : List Closing → Engine × List Closing
  | [] => (e, [])
  | c :: cs =>
    let (e, c) := pollClosing call e c
    let (e, cs) := pollClosings call e cs
    (e, c :: cs)
termination_by structural cs => cs

/-- The same from the back. -/
def pollBackward (call : CallKey) (e : Engine) : List Closing → Engine × List Closing
  | [] => (e, [])
  | c :: cs =>
    let (e, cs) := pollBackward call e cs
    let (e, c) := pollClosing call e c
    (e, c :: cs)
termination_by structural cs => cs
end

end Engine
end Flowgraph
