import Mathlib.Logic.Basic
import Flowgraph.Kind.Probe
import Flowgraph.Proofs.Refusals
/-! A load or a deployment happens as a whole or not at all: the records alone decide whether it is refused, and
one that is refused leaves everything as it was. -/
namespace Flowgraph

/-- Records that do not describe a deployment, or one of which some flow has no order to start in. -/
def Rejected (records : List Json) : Prop :=
  (∃ fault, Deployment.parse records = .error fault) ∨
    ∃ d, Deployment.parse records = .ok d ∧
      ∃ c ∈ d.global :: d.tabs, ∃ fault, StartOrder.validate c = .error fault

theorem rejected_of_parse {records : List Json} {d : Deployment} (h : Deployment.parse records = .ok d) :
    Rejected records ↔ ¬d.Sound := by
  unfold Rejected Deployment.Sound FlowConfig.Sound
  rw [h]
  constructor
  · rintro (⟨fault, h⟩ | ⟨d', hd, c, hc, fault, hv⟩) hs
    · cases h
    · cases hd
      obtain ⟨order, ho⟩ := hs c hc
      rw [hv] at ho
      cases ho
  · intro hs
    obtain ⟨c, hs⟩ := not_forall.mp hs
    obtain ⟨hc, hv⟩ := Classical.not_imp.mp hs
    refine .inr ⟨d, rfl, c, hc, ?_⟩
    cases ho : StartOrder.validate c with
    | ok order => exact absurd ⟨order, ho⟩ hv
    | error fault => exact ⟨fault, rfl⟩

namespace Engine

variable {e e' : Engine} {key : CallKey}

/-- Nothing differs but which calls have been made and whose turn is next: every level and every node is as it
was, nothing has been noted or published, and nothing else has been begun. -/
def Untouched (e e' : Engine) : Prop :=
  e' = { e with
    nextCall := e'.nextCall, calls := e'.calls, ready := e'.ready, room := e'.room, putOff := e'.putOff }

theorem Untouched.refl (e : Engine) : Untouched e e := rfl

theorem Untouched.trans {m : Engine} (h : Untouched e m) (h' : Untouched m e') : Untouched e e' := by
  unfold Untouched at *
  rw [h', h]

/-! ## The turn of a call that is refused -/

theorem mem_ready_wake (e : Engine) (w : Waiter) : w ∈ (e.wake w).ready := by
  unfold wake
  split
  · rename_i h
    simpa using h
  · simp

theorem ready_wake (e : Engine) {w w' : Waiter} (h : w ∈ e.ready) : w ∈ (e.wake w').ready := by
  unfold wake
  split
  · exact h
  · exact List.mem_append_left _ h

theorem ready_wakePutOff (e : Engine) {w : Waiter} (h : w ∈ e.ready) : w ∈ e.wakePutOff.ready := by
  have hw (ws : List Waiter) (e : Engine) (h : w ∈ e.ready) : w ∈ (ws.foldl wake e).ready := by
    induction ws generalizing e with
    | nil => exact h
    | cons w' ws ih => exact ih _ (ready_wake e h)
  exact hw _ _ h

theorem untouched_wake (e : Engine) (w : Waiter) : Untouched e (e.wake w) := by
  unfold wake
  split
  · exact .refl e
  · rfl

theorem untouched_wakePutOff (e : Engine) : Untouched e e.wakePutOff := by
  have hw (ws : List Waiter) (e : Engine) : Untouched e (ws.foldl wake e) := by
    induction ws generalizing e with
    | nil => exact .refl e
    | cons w ws ih => exact (untouched_wake e w).trans (ih _)
  exact Untouched.trans (m := { e with putOff := [] }) rfl (hw _ _)

/-- The call in front goes first if it has been woken. -/
theorem next?_front (hb : e.broken = false) (ha : e.agenda = []) (hw : .call key ∈ e.ready) :
    e.next? (some key) 0 = some (.call key, burst, e.wakePutOff) := by
  have hm := ready_wakePutOff e hw
  have hf : (e.wakePutOff.ready.find? fun w => (some key).any fun key => w == .call key) =
      some (.call key) := by
    cases hf : e.wakePutOff.ready.find? fun w => (some key).any fun key => w == .call key with
    | none =>
      rw [List.find?_eq_none] at hf
      exact absurd (hf _ hm) (by simp)
    | some w =>
      have hw := List.find?_some hf
      obtain rfl : w = .call key := by simpa using hw
      rfl
  unfold next?
  dsimp only
  rw [if_neg (by simp [hb, ha])]
  rw [hf]

/-- A turn that runs one action, then another, and comes to its end. -/
theorem finish_two {a a' : Action} {s t : Engine} (hb : e.broken = false) (ha : e.agenda = [a])
    (hs : ({ e with agenda := [] } : Engine).act a = s) (hbs : s.broken = false)
    (has : s.agenda = [a']) (ht : ({ s with agenda := [] } : Engine).act a' = t)
    (hat : t.agenda = []) : e.finish = t := by
  obtain ⟨n, hn⟩ : ∃ n, patience = n + 1 + 1 + 1 := ⟨patience - 3, by decide⟩
  unfold finish
  rw [hn, finishWithin_succ _ hb ha, hs, finishWithin_succ _ hbs has, ht]
  unfold finishWithin
  split
  · rfl
  · rw [hat]

theorem resume_stage {c : Call} {stage : Stage} {rest : List Stage} (hc : e.call? key = some c)
    (hw : c.waiting = []) (hs : c.stages = stage :: rest) :
    e.resume key = (e.modifyCall key fun c => { c with stages := rest }).runStage key stage := by
  unfold resume
  rw [hc]
  dsimp only
  rw [hw, hs]

theorem resume_ends {c : Call} (hc : e.call? key = some c) (hw : c.waiting = []) (hs : c.stages = []) :
    e.resume key = e.modifyCall key fun c => { c with ended := c.ended <|> some e.now, holds := [] } := by
  unfold resume
  rw [hc]
  dsimp only
  rw [hw, hs]

/-- A call whose only stage refuses it. -/
theorem resume_refused {stage : Stage} {fault : FlowFault} {c : Call} (hc : e.call? key = some c)
    (hw : c.waiting = []) (hs : c.stages = [stage])
    (hr : ∀ s : Engine, s.levels = e.levels → s.runStage key stage = s.refuse key fault) :
    ∃ e₁ : Engine, e.resume key = e₁.push [.resume key] ∧ e₁.agenda = e.agenda ∧ Untouched e e₁ ∧
      e₁.call? key = some { c with stages := [], fault := some fault } := by
  refine ⟨(e.modifyCall key fun c => { c with stages := [] }).modifyCall key fun c =>
    { c with stages := [], fault := some fault }, ?_, rfl, rfl, ?_⟩
  · rw [resume_stage hc hw hs, hr (e.modifyCall key fun c => { c with stages := [] }) rfl]
    rfl
  · rw [call?_modifyCall, if_pos rfl, call?_modifyCall, if_pos rfl, hc]
    rfl

/-- The turn of a call begins. -/
def turnBegun (e : Engine) (key : CallKey) : Engine :=
  { e with ready := e.ready.filter (· != Waiter.call key), room := turnRoom }.push [.resume key]

/-- A call that is refused by its only stage ends in the same turn, in two steps, and touches nothing. -/
theorem takeTurn_refused {stage : Stage} {fault : FlowFault} {c : Call} (hb : e.broken = false)
    (ha : e.agenda = []) (hc : e.call? key = some c) (hw : c.waiting = []) (hs : c.stages = [stage])
    (hr : ∀ s : Engine, s.levels = e.levels → s.runStage key stage = s.refuse key fault) :
    Untouched e (e.takeTurn (.call key)) ∧
      (∃ c', (e.takeTurn (.call key)).call? key = some c' ∧ c'.fault = some fault ∧ c'.ended.isSome = true) ∧
      ∃ s, s = Engine.act { e.turnBegun key with agenda := [] } (.resume key) ∧ s.agenda = [.resume key] ∧
        s.broken = false ∧ s.call? key = some { c with stages := [], fault := some fault } ∧
        e.takeTurn (.call key) = Engine.act { s with agenda := [] } (.resume key) := by
  obtain ⟨e₀, he₀⟩ : ∃ e₀ : Engine, e₀ =
    { e with ready := e.ready.filter (· != Waiter.call key), room := turnRoom } := ⟨_, rfl⟩
  have hu₀ : Untouched e e₀ := by rw [he₀]; rfl
  have hb₀ : e₀.broken = false := by rw [he₀]; exact hb
  have ha₀ : e₀.agenda = [] := by rw [he₀]; exact ha
  have hc₀ : e₀.call? key = some c := by rw [he₀]; exact hc
  have hl₀ : e₀.levels = e.levels := by rw [he₀]
  have hbegun : e.turnBegun key = e₀.push [.resume key] := by rw [he₀]; rfl
  have hturn : e.takeTurn (.call key) = (e₀.push [.resume key]).finish := by rw [he₀]; rfl
  obtain ⟨e₁, h₁, ha₁, hu₁, hc₁⟩ := resume_refused hc₀ hw hs fun s hl => hr s (hl.trans hl₀)
  rw [ha₀] at ha₁
  have hb₁ : e₁.broken = false := by rw [hu₁]; exact hb₀
  have hpop (e : Engine) (ha : e.agenda = []) :
      ({ e.push [.resume key] with agenda := [] } : Engine) = e := by rw [push, ← ha]
  have hfirst : Engine.act { e₀.push [.resume key] with agenda := [] } (.resume key) = e₁.push [.resume key] := by
    rw [hpop e₀ ha₀]
    exact h₁
  have hlast : Engine.act { e₁.push [.resume key] with agenda := [] } (.resume key) =
      e₁.modifyCall key fun c => { c with ended := c.ended <|> some e₁.now, holds := [] } := by
    rw [hpop e₁ ha₁]
    exact resume_ends hc₁ hw rfl
  have hpushed : (e₁.push [.resume key]).agenda = [.resume key] := by rw [push, ha₁]; rfl
  have hfin := finish_two (e := e₀.push [.resume key]) hb₀ (by rw [push, ha₀]; rfl) hfirst hb₁ hpushed hlast ha₁
  have hc₂ : (e₁.modifyCall key fun c =>
      { c with ended := c.ended <|> some e₁.now, holds := [] }).call? key = some { c with
        stages := [], fault := some fault, ended := c.ended <|> some e₁.now, holds := [] } := by
    rw [call?_modifyCall, if_pos rfl, hc₁]
    rfl
  rw [hturn, hfin]
  refine ⟨(hu₀.trans hu₁).trans rfl, ⟨_, hc₂, rfl, ?_⟩, e₁.push [.resume key], ?_, hpushed, hb₁, hc₁, hlast.symm⟩
  · cases c.ended <;> rfl
  · rw [hbegun, hfirst]

theorem ready_begin (e : Engine) (stages : List Stage) : .call e.nextCall ∈ (e.begin stages).1.ready :=
  mem_ready_wake _ _

theorem untouched_begin (e : Engine) (stages : List Stage) : Untouched e (e.begin stages).1 := by
  unfold begin
  exact Untouched.trans (m := { e with
    nextCall := e.nextCall + 1, calls := e.calls ++ [(e.nextCall, Call.make stages e.now)] })
    rfl (untouched_wake _ _)

/-- A call that ends in its first turn is waited for no longer. -/
theorem complete_of_turn {stages : List Stage} (hb : e.broken = false) (ha : e.agenda = [])
    (hend : ((e.begin stages).1.wakePutOff.takeTurn (.call e.nextCall)).hasEnded e.nextCall = true) :
    (e.complete stages).1 = (e.begin stages).1.wakePutOff.takeTurn (.call e.nextCall) := by
  obtain ⟨e₁, he₁⟩ : ∃ e₁, (e.begin stages).1 = e₁ := ⟨_, rfl⟩
  have hbegin := he₁ ▸ untouched_begin e stages
  have hstart : (e.complete stages).1 = awaitWithin (some e.nextCall) [e.nextCall] patience e₁ := by rw [← he₁]; rfl
  have hready : .call e.nextCall ∈ e₁.ready := he₁ ▸ ready_begin e stages
  rw [he₁] at hend ⊢
  obtain ⟨n, hn⟩ : ∃ n, patience = n + 1 := ⟨patience - 1, by decide⟩
  have hs : e₁.settle (some e.nextCall) = e₁.wakePutOff.takeTurn (.call e.nextCall) := by
    unfold settle settleWithin
    rw [hn]
    dsimp only
    rw [next?_front (by rw [hbegin]; exact hb) (by rw [hbegin]; exact ha) hready]
    dsimp only
    rw [if_pos (by simpa using hend)]
  rw [hstart, hn, awaitWithin]
  rw [hs, if_pos (by simpa using hend)]

theorem call?_wakePutOff (e : Engine) (j : CallKey) : e.wakePutOff.call? j = e.call? j :=
  call?_of_calls (calls_of_still (quiet_wakePutOff e).still) j

/-- A call that is refused by its only stage ends in its first turn. -/
theorem complete_refused {stage : Stage} {fault : FlowFault} (hb : e.broken = false) (ha : e.agenda = [])
    (hk : KeysBelow e)
    (hr : ∀ s : Engine, s.levels = e.levels → s.runStage e.nextCall stage = s.refuse e.nextCall fault) :
    Untouched e (e.complete [stage]).1 ∧
      (∃ c, (e.complete [stage]).1.call? e.nextCall = some c ∧ c.fault = some fault) ∧
      ∃ s, s = Engine.act { (e.begin [stage]).1.wakePutOff.turnBegun e.nextCall with agenda := [] } (.resume e.nextCall) ∧
        s.agenda = [.resume e.nextCall] ∧ s.broken = false ∧
        s.call? e.nextCall = some { Call.make [stage] e.now with stages := [], fault := some fault } ∧
        (e.complete [stage]).1 = Engine.act { s with agenda := [] } (.resume e.nextCall) := by
  have hput := (untouched_begin e [stage]).trans (untouched_wakePutOff _)
  have hlevels : (e.begin [stage]).1.wakePutOff.levels = e.levels := by rw [hput]
  have hc : (e.begin [stage]).1.wakePutOff.call? e.nextCall = some (.make [stage] e.now) := by
    rw [call?_wakePutOff, call?_begin hk, if_pos rfl]
  obtain ⟨hu, ⟨c, hc', hf, hended⟩, hsteps⟩ := takeTurn_refused (by rw [hput]; exact hb) (by rw [hput]; exact ha) hc rfl
    rfl fun s hl => hr s (hl.trans hlevels)
  have hend : ((e.begin [stage]).1.wakePutOff.takeTurn (.call e.nextCall)).hasEnded e.nextCall = true := by
    unfold hasEnded
    rw [hc']
    exact hended
  rw [complete_of_turn hb ha hend]
  exact ⟨hput.trans hu, ⟨c, hc', hf⟩, hsteps⟩

/-- Flows that have no order to start in are not made. -/
theorem startAll_refused {next : Deployment} {fault : ConfigFault} (hv : StartOrder.validateAll next = .error fault)
    (e : Engine) (key : CallKey) : e.runStage key (.startAll next) = e.refuse key (.config fault) := by
  change e.startAll key next = _
  unfold startAll
  rw [hv]

end Engine

namespace Session
open Engine

variable {s : Session}

theorem call_unrefused (h : Reachable s.engine) (hr : AtRest s.engine) {stages : List Stage}
    (ho : s.engine.Offers stages) (hfit : Fits s.engine.config? stages) (hn : NoFresh stages) :
    outcome (s.call stages).1 = .ok () := by
  have hu := (unrefused_begin h hr ho hfit hn).reach (reach_complete s.engine stages)
  obtain ⟨c, hc, hs⟩ := hu.call
  have he : (s.call stages).1 =
      (((s.engine.complete stages).1.call? s.engine.nextCall).getD (.make [] _)) := rfl
  rw [he, hc]
  unfold outcome
  rw [Option.getD_some, hs.fault]

/-- A deployment of sound records is not refused. -/
theorem deploy_sound (h : Reachable s.engine) (hr : AtRest s.engine) {records : List Json}
    {kind : DeployKind} {stages : List Stage} {diff : Diff}
    (hd : s.engine.stagesOfDeploy records kind = .ok (stages, diff)) :
    ∀ fault, (s.deploy records kind).1 ≠ .error fault := by
  have hfit : Fits s.engine.config? stages ∧ NoFresh stages := by
    rcases stagesOfDeploy_cases s.engine records kind with
      ⟨fault, -, hs⟩ | ⟨next, -, ⟨fault, -, hs⟩ | ⟨hv, result, hcase, hs⟩⟩
    · rw [hs] at hd
      cases hd
    · rw [hs] at hd
      cases hd
    · rw [hs] at hd
      cases hd
      have hsound := validateAll_ok.mp hv
      cases hcase with
      | endless => exact ⟨trivial, by simp [NoFresh]⟩
      | first => exact ⟨⟨hsound, trivial⟩, by simp [NoFresh]⟩
      | full => exact ⟨⟨hsound, trivial⟩, by simp [NoFresh]⟩
      | nodes => exact ⟨⟨hsound, rfl⟩, by simp [NoFresh]⟩
  have hc := call_unrefused h hr (.deploy hd) hfit.1 hfit.2
  intro fault
  unfold deploy
  rw [hd]
  dsimp only
  rw [hc]
  simp [Except.map]

/-- A deployment is refused for its records alone, and then nothing is touched. -/
theorem deploy_cases (h : Reachable s.engine) (hr : AtRest s.engine) (records : List Json)
    (kind : DeployKind) :
    (Rejected records ∧ (∃ fault, (s.deploy records kind).1 = .error fault) ∧ (s.deploy records kind).2 = s) ∨
      ¬Rejected records ∧ ∀ fault, (s.deploy records kind).1 ≠ .error fault := by
  have hrefused {fault : FlowFault} (hs : s.engine.stagesOfDeploy records kind = .error fault) :
      s.deploy records kind = (.error fault, s) := by
    unfold deploy
    rw [hs]
  rcases stagesOfDeploy_cases s.engine records kind with
    ⟨fault, hp, hs⟩ | ⟨next, hp, ⟨fault, hv, hs⟩ | ⟨hv, result, hcase, hs⟩⟩
  · rw [hrefused hs]
    exact .inl ⟨.inl ⟨fault, hp⟩, ⟨_, rfl⟩, rfl⟩
  · rw [hrefused hs]
    refine .inl ⟨(rejected_of_parse hp).mpr fun hsound => ?_, ⟨_, rfl⟩, rfl⟩
    rw [validateAll_ok.mpr hsound] at hv
    cases hv
  · obtain ⟨stages, diff⟩ := result
    refine .inr ⟨fun hrej => ?_, deploy_sound h hr hs⟩
    exact (rejected_of_parse hp).mp hrej (validateAll_ok.mp hv)

/-- A load is refused for its records, or because a deployment is running, and then nothing is touched. -/
theorem load_cases (h : Reachable s.engine) (hr : AtRest s.engine) (records : List Json) :
    ((s.engine.deployed.isSome = true ∨ Rejected records) ∧
        (∃ fault, (s.load records).1 = .error fault) ∧ Untouched s.engine (s.load records).2.engine) ∨
      (¬(s.engine.deployed.isSome = true ∨ Rejected records) ∧
        ∀ fault, (s.load records).1 ≠ .error fault) := by
  have hrefused {fault : FlowFault} (hs : s.engine.stagesOfLoad records = .error fault) :
      s.load records = (.error fault, s) := by
    unfold load
    rw [hs]
  by_cases hd : s.engine.deployed.isSome = true
  · have hs : s.engine.stagesOfLoad records = .error .alreadyDeployed := if_pos hd
    rw [hrefused hs]
    exact .inl ⟨.inl hd, ⟨_, rfl⟩, .refl _⟩
  · cases hp : Deployment.parse records with
    | error fault =>
      have hs : s.engine.stagesOfLoad records = .error (.config fault) := by
        unfold stagesOfLoad
        rw [if_neg hd, hp]
      rw [hrefused hs]
      exact .inl ⟨.inr (.inl ⟨fault, hp⟩), ⟨_, rfl⟩, .refl _⟩
    | ok next =>
      have hs : s.engine.stagesOfLoad records = .ok [.startAll next] := by
        unfold stagesOfLoad
        rw [if_neg hd, hp]
      have hload : s.load records =
          (outcome (s.call [.startAll next]).1, (s.call [.startAll next]).2) := by
        unfold load
        rw [hs]
      rw [hload]
      cases hv : StartOrder.validateAll next with
      | error fault =>
        have hrej : Rejected records := by
          refine (rejected_of_parse hp).mpr fun hsound => ?_
          rw [validateAll_ok.mpr hsound] at hv
          cases hv
        obtain ⟨hu, ⟨c, hc, hf⟩, -⟩ := complete_refused hr.unbroken hr.idle h.keysBelow
          fun s _ => startAll_refused hv s _
        refine .inl ⟨.inr hrej, ⟨.config fault, ?_⟩, hu⟩
        have he : (s.call [.startAll next]).1 = c := by
          have : (s.call [.startAll next]).1 =
            ((s.engine.complete [.startAll next]).1.call? s.engine.nextCall).getD (.make [] _) := rfl
          rw [this, hc]
          rfl
        rw [he, outcome, hf]
      | ok u =>
        have hsound := validateAll_ok.mp hv
        have hc := call_unrefused h hr (.load hs) ⟨hsound, trivial⟩ (by simp [NoFresh])
        refine .inr ⟨?_, fun fault => by rw [hc]; simp⟩
        rintro (hd' | hrej)
        · exact hd hd'
        · exact (rejected_of_parse hp).mp hrej hsound

/-- Loads and deployments happen as a whole or not at all. With no stop and no other call under way, a
deployment of either kind is refused exactly when the records do not describe a deployment or one of its flows
has no order to start in, and a load also when a deployment is running. What is refused leaves everything as
it was. -/
theorem all_or_nothing (h : Reachable s.engine) (hr : AtRest s.engine) (records : List Json) :
    (∀ kind, ((∃ fault, (s.deploy records kind).1 = .error fault) ↔ Rejected records) ∧
      ((∃ fault, (s.deploy records kind).1 = .error fault) → (s.deploy records kind).2 = s)) ∧
    ((∃ fault, (s.load records).1 = .error fault) ↔
      s.engine.deployed.isSome = true ∨ Rejected records) ∧
    ((∃ fault, (s.load records).1 = .error fault) → Untouched s.engine (s.load records).2.engine) := by
  refine ⟨fun kind => ?_, ?_⟩
  · rcases deploy_cases h hr records kind with ⟨hrej, herr, hsame⟩ | ⟨hrej, herr⟩
    · exact ⟨⟨fun _ => hrej, fun _ => herr⟩, fun _ => hsame⟩
    · exact ⟨⟨fun ⟨fault, hf⟩ => absurd hf (herr fault), fun h => absurd h hrej⟩,
        fun ⟨fault, hf⟩ => absurd hf (herr fault)⟩
  · rcases load_cases h hr records with ⟨hrej, herr, hsame⟩ | ⟨hrej, herr⟩
    · exact ⟨⟨fun _ => hrej, fun _ => herr⟩, fun _ => hsame⟩
    · exact ⟨⟨fun ⟨fault, hf⟩ => absurd hf (herr fault), fun h => absurd h hrej⟩,
        fun ⟨fault, hf⟩ => absurd hf (herr fault)⟩

/-- A running tab of two nodes. -/
def twoNodes : Session :=
  ((onRuntime (.make .instrumented .shared [] [] 500)).load [
    .obj [("id", .str "t"), ("type", .str "tab")],
    .obj [("id", .str "a"), ("type", .str "test"), ("wires", .arr [.arr [.str "b"]]), ("z", .str "t")],
    .obj [("id", .str "b"), ("type", .str "test"), ("wires", .arr [.arr []]), ("z", .str "t")]]).2

/-- A template that contains itself, and a tab that uses it. -/
def selfContained : List Json := [
  .obj [("id", .str "s"), ("type", .str "subflow")],
  .obj [("id", .str "n"), ("type", .str "subflow:s"), ("z", .str "s")],
  .obj [("id", .str "t"), ("type", .str "tab")],
  .obj [("id", .str "u"), ("type", .str "subflow:s"), ("z", .str "t")]]

theorem reachable_twoNodes : Reachable twoNodes.engine := reachable_load (.make _ _ _ _ _) rfl

/-- A template that contains itself is found before a running node is touched. -/
theorem selfContained_touches_nothing : AtRest twoNodes.engine ∧ twoNodes.engine.flows ≠ [] ∧
    Rejected selfContained ∧ (∃ fault, (twoNodes.deploy selfContained .nodes).1 = .error fault) ∧
    (twoNodes.deploy selfContained .nodes).2 = twoNodes ∧
    Untouched twoNodes.engine (twoNodes.load selfContained).2.engine := by
  have hr : AtRest twoNodes.engine := by decide +kernel
  have hrej : Rejected selfContained := by
    cases hd : Deployment.parse selfContained with
    | error fault => exact .inl ⟨fault, hd⟩
    | ok d =>
      refine (rejected_of_parse hd).mpr fun hs => ?_
      have hv := validateAll_ok.mpr hs
      have : ((Deployment.parse selfContained).toOption.map fun d =>
        (StartOrder.validateAll d).isOk) = some false := by decide +kernel
      rw [hd] at this
      simp [Except.toOption, hv, Except.isOk, Except.toBool] at this
  obtain ⟨hd, hl, hu⟩ := all_or_nothing reachable_twoNodes hr selfContained
  obtain ⟨herr, hsame⟩ := hd .nodes
  refine ⟨hr, by decide +kernel, hrej, herr.mpr hrej, hsame (herr.mpr hrej), hu (hl.mpr (.inr hrej))⟩

end Session
end Flowgraph
