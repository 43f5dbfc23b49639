import Flowgraph.Engine.Call
/-! The engine runs. At each moment it does all that can be done; time moves only when nothing is left to do
at the present moment, and then straight to the next timer. -/
namespace Flowgraph.Engine

/-! ## Steps -/

/-- One action. -/
def act (e : Engine) : Action → Engine
  | .hand k m => e.hand k m
  | .handAt k id m => e.handAt k id m
  | .deliver k id m => e.deliver k id m
  | .effect k effect => e.perform k effect
  | .conclude k m outcome => e.conclude k m outcome
  | .create k r templates => e.create k r templates
  | .install k r inst => e.install k r inst
  | .refresh k => e.refresh k
  | .announce k => e.announce k
  | .finishTask key => e.finishTask key
  | .resume key => e.resume key

/-- Lets a task that has been woken resume or go on waiting. -/
def runTask (e : Engine) (p : Pending) : Engine :=
  let cancelled := ((e.node? p.owner).map (·.cancelled)).getD true
  let resume := e.push ((p.task.resume cancelled).map (.effect p.owner) ++ [.finishTask p.key])
  if p.task.abandons && cancelled then e.finishTask p.key
  else match p.task.wait with
    | .others => if (e.tasksOf p.owner).length ≤ 1 then resume else e
    | .time ms =>
      if (p.due.getD (e.now + ms)) ≤ e.now then resume
      else
        let due := e.now + ms
        if p.due.isSome then e
        else { e with
          tasks := e.tasks.map fun q => if q.key = p.key then { q with due := some due } else q
          timers := e.timers ++ [⟨due, .task p.key⟩] }

/-- The reader reads what fits into one turn. -/
def readEvents (e : Engine) : Engine :=
  match e.reader with
  | none => e
  | some r =>
    if r.behind then e
    else if r.capacity < e.events.length then { e with reader := some { r with behind := true } }
    else
      let e := { e with
        reader := some { r with read := r.read ++ e.events.take turnRoom }
        events := e.events.drop turnRoom }
      if e.events.isEmpty then e else { e with putOff := .reader :: e.putOff }

def runWaiter (e : Engine) : Waiter → Engine
  | .call key => e.push [.resume key]
  | .reader => e.readEvents
  | .task key =>
    match e.tasks.find? (·.key == key) with
    | some p => e.runTask p
    | none => e

/-- More steps than any run takes whose messages do not go round for ever. -/
def patience : Nat := Nat.pow 2 40

/-- Does what is on the agenda, with all that comes of it. -/
def finishWithin : (fuel : Nat) → Engine → Engine
  | 0, e => e
  | fuel + 1, e =>
    if e.broken then e
    else match e.agenda with
      | [] => e
      | action :: rest => finishWithin fuel ({ e with agenda := rest }.act action)

def finish (e : Engine) : Engine := finishWithin patience e

/-- One turn of what has been woken. -/
def takeTurn (e : Engine) (w : Waiter) : Engine :=
  finish ({ e with ready := e.ready.filter (· != w), room := turnRoom }.runWaiter w)

/-- How many turns in a row others may take before it is the turn of the call in front. -/
def burst : Nat := 61

/-- Wakes what ran out of room, the last one first. -/
def wakePutOff (e : Engine) : Engine :=
  e.putOff.foldl wake { e with putOff := [] }

/-- Whose turn it is, and how many turns others may take after that. A round begins with the call in front, if
it has been woken, and lasts until nothing else is left to do. Nobody takes a turn before the turn of another
has come to its end. -/
def next? (front : Option CallKey) (turns : Nat) (e : Engine) : Option (Waiter × Nat × Engine) :=
  let isFront (w : Waiter) : Bool := front.any fun key => w == .call key
  if e.broken || !e.agenda.isEmpty then none
  else
    match turns, e.ready.filter (!isFront ·) with
    | turns + 1, w :: _ => some (w, turns, e)
    | _, _ =>
      let e := e.wakePutOff
      match e.ready.find? isFront, e.ready with
      | some w, _ => some (w, burst, e)
      | none, w :: _ => some (w, burst - 1, e)
      | none, [] => none

def hasEnded (e : Engine) (key : CallKey) : Bool :=
  ((e.call? key).map (·.ended.isSome)).getD true

def settleWithin (front : Option CallKey) : (fuel turns : Nat) → Engine → Engine
  | 0, _, e => e
  | fuel + 1, turns, e =>
    match e.next? front turns with
    | none => e
    | some (w, turns, e) =>
      let e := e.takeTurn w
      if front.any e.hasEnded then e else settleWithin front fuel turns e

/-- Lets all that has been woken take turns until nothing is left to do at this moment, or until the call in
front has ended. -/
def settle (front : Option CallKey) (e : Engine) : Engine := settleWithin front patience 0 e

/-! ## Time -/

/-- Whether anyone still waits for a timer. -/
def isAwaited (e : Engine) (t : Timer) : Bool :=
  match t.alarm with
  | .task key => e.tasks.any (·.key == key)
  | .deadline key k => ((e.call? key).map fun c => c.waiting.any fun s => s.nodes.contains k).getD false

def alarmWaiter : Alarm → Waiter
  | .task key => .task key
  | .deadline key _ => .call key

/-- The moment of the next timer. -/
def nextDue? (e : Engine) : Option Nat :=
  ((e.timers.filter e.isAwaited).map (·.due)).min?

/-- Moves the clock and wakes what was waiting for it, in the order in which the timers were set. Time does
not move within a turn. -/
def moveTo (e : Engine) (moment : Nat) : Engine :=
  if !e.agenda.isEmpty then e
  else
    let awaited := e.timers.filter e.isAwaited
    let (due, later) := awaited.partition (·.due ≤ moment)
    due.foldl (fun e t => e.wake (alarmWaiter t.alarm)) { e with now := moment, timers := later }

/-- Lets time pass until a moment. -/
def passUntil (moment : Nat) : (fuel : Nat) → Engine → Engine
  | 0, e => e
  | fuel + 1, e =>
    let e := e.settle none
    match e.nextDue?.filter (· ≤ moment) with
    | some due => passUntil moment fuel (e.moveTo due)
    | none => (e.moveTo (max e.now moment)).settle none

def advance (e : Engine) (ms : Nat) : Engine := passUntil (e.now + ms) patience e

/-- Lets time pass until all of these calls have ended, or nothing can happen any more. -/
def awaitWithin (front : Option CallKey) (calls : List CallKey) : (fuel : Nat) → Engine → Engine
  | 0, e => e
  | fuel + 1, e =>
    let e := e.settle front
    if calls.all e.hasEnded then e
    else match e.nextDue? with
      | some due => awaitWithin front calls fuel (e.moveTo due)
      | none => e

/-- Waits for calls that have begun. -/
def awaitCalls (e : Engine) (calls : List CallKey) : Engine := awaitWithin none calls patience e

/-- Begins a call and waits for its end. It goes before everything else whenever it can go on. -/
def complete (e : Engine) (stages : List Stage) : Engine × CallKey :=
  let (e, key) := e.begin stages
  (awaitWithin (some key) [key] patience e, key)

/-- Does something with all that comes of it, before anything that has been woken takes a turn. -/
def doNow (e : Engine) (actions : List Action) : Engine := (e.push actions).finish

end Flowgraph.Engine
