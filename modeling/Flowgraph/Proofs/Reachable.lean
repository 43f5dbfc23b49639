import Flowgraph.Proofs.Runs
/-! The engines that can come about. Between two turns someone begins a call, makes a flow, gives a flow another
configuration, keeps nodes from outside, or has messages and signals dealt with; in between the engine runs. -/
namespace Flowgraph

/-- A configuration that comes from a list of records. -/
def FlowConfig.Parsed (c : FlowConfig) : Prop :=
  ∃ records d, Deployment.parse records = .ok d ∧ (c = d.global ∨ c ∈ d.tabs)

/-- A call that has nothing left to do. -/
def Call.over (c : Call) : Bool := c.stages.isEmpty && c.waiting.isEmpty

namespace Engine

/-- The calls that can be begun: those of a runtime, and stops and starts of single levels. -/
inductive Offers (e : Engine) : List Stage → Prop
  | load {records : List Json} {stages : List Stage} (h : e.stagesOfLoad records = .ok stages) :
      Offers e stages
  | deploy {records : List Json} {kind : DeployKind} {stages : List Stage} {diff : Diff}
      (h : e.stagesOfDeploy records kind = .ok (stages, diff)) : Offers e stages
  | stopAll : Offers e stagesOfStopAll
  | stop (requests : List StopRequest) : Offers e [.stop requests]
  | start (k : LevelKey) (diff : Option Diff) : Offers e [.start k diff]

/-- Something that is asked of an engine between two turns. -/
inductive Input : Engine → Engine → Prop
  | call {e : Engine} {stages : List Stage} (h : e.Offers stages) : Input e (e.begin stages).1
  /-- Messages, effects and signals from outside, and the reading of notes and events. -/
  | quiet {e e' : Engine} (h : Quiet e e') : Input e e'
  | keep {e : Engine} (levels : List LevelKey) (nodes : Dict NodeKey) :
      Input e { e with keptLevels := levels, keptNodes := nodes }
  /-- A flow of its own. -/
  | flow {e : Engine} {kind : LevelKind} {config : FlowConfig} (hk : kind = .tab ∨ kind = .global)
      (hc : config.Parsed) : Input e (e.addLevel (.make kind none config)).1
  | update {e : Engine} {k : LevelKey} {config : FlowConfig}
      (hk : ∀ l, e.level? k = some l → l.parent = none) (hc : config.Parsed) :
      Input e (e.modifyLevel k fun l => { l with config })

/-- The engines that can come about. -/
inductive Reachable : Engine → Prop
  | make (registry : Registry) (outside : Outside) (settings : Dict Json)
      (processEnv : Dict String) (closeTimeout : Nat) :
      Reachable (make registry outside settings processEnv closeTimeout)
  | tick {e e' : Engine} (h : Reachable e) (ht : Tick e e') : Reachable e'
  | input {e e' : Engine} (h : Reachable e) (ha : e.agenda = []) (hi : Input e e') : Reachable e'

/-- Nothing is under way: the last turn has come to its end, and no call has anything left to do. -/
structure AtRest (e : Engine) : Prop where
  unbroken : e.broken = false
  idle : e.agenda = []
  calls : ∀ entry ∈ e.calls, entry.2.over = true

variable {e e' : Engine}

theorem Reachable.reach (h : Reachable e) (hr : Reach e e') : Reachable e' :=
  hr.invariant (fun _ _ h ht => h.tick ht) h

/-- What holds at first and is preserved by every step and every input holds of all of them. -/
theorem Reachable.invariant {P : Engine → Prop}
    (init : ∀ r o s v t, P (Engine.make r o s v t))
    (step : ∀ e e', Reachable e → P e → Tick e e' → P e')
    (input : ∀ e e', Reachable e → P e → e.agenda = [] → Input e e' → P e') (h : Reachable e) : P e := by
  induction h with
  | make r o s v t => exact init r o s v t
  | tick h ht ih => exact step _ _ h ih ht
  | input h ha hi ih => exact input _ _ h ih ha hi

instance (e : Engine) : Decidable (AtRest e) :=
  decidable_of_iff (e.broken = false ∧ e.agenda.isEmpty = true ∧
      e.calls.all (fun entry => entry.2.over) = true) <| by
    constructor
    · rintro ⟨hb, ha, hc⟩
      exact ⟨hb, List.isEmpty_iff.mp ha, List.all_eq_true.mp hc⟩
    · rintro ⟨hb, ha, hc⟩
      exact ⟨hb, List.isEmpty_iff.mpr ha, List.all_eq_true.mpr hc⟩

end Engine

/-! ## Sessions reach such engines only -/

namespace Session
open Engine

variable {s : Session}

theorem reachable_call {stages : List Stage} (h : Reachable s.engine) (ha : s.engine.agenda = [])
    (ho : s.engine.Offers stages) : Reachable (s.call stages).2.engine :=
  (h.input ha (.call ho)).reach (reach_complete _ _)

theorem reachable_load {records : List Json} (h : Reachable s.engine) (ha : s.engine.agenda = []) :
    Reachable (s.load records).2.engine := by
  unfold load
  split
  · exact h
  · rename_i stages hs
    exact reachable_call h ha (.load hs)

theorem reachable_deploy {records : List Json} {kind : DeployKind} (h : Reachable s.engine)
    (ha : s.engine.agenda = []) : Reachable (s.deploy records kind).2.engine := by
  unfold deploy
  split
  · exact h
  · rename_i stages diff hs
    exact reachable_call h ha (.deploy hs)

theorem reachable_start {k : LevelKey} {diff : Option Diff} (h : Reachable s.engine)
    (ha : s.engine.agenda = []) : Reachable (s.start k diff).2.engine :=
  reachable_call h ha (.start k diff)

theorem reachable_beginCall {stages : List Stage} (h : Reachable s.engine) (ha : s.engine.agenda = [])
    (ho : s.engine.Offers stages) : Reachable (s.beginCall stages).engine :=
  (h.input ha (.call ho)).reach (reach_settle none _)

end Session
end Flowgraph
