import Flowgraph.Proofs.Accounting
import Flowgraph.Proofs.Validation
/-! A load of a deployment that has been checked is gone through to its end: every stage of its call is followed by the
next, and the activations that they begin come to an end, if the messages do that start hooks send. -/
namespace Flowgraph

namespace Engine
open Session (turnOf tick_turn agenda_turnOf call?_turnOf)

variable {d : Deployment} {e e' m e₀ : Engine} {k : LevelKey} {key : CallKey} {stage : Stage} {stages rest : List Stage}
  {base : List Action} {n : Nat} {c : FlowConfig}

/-! ## One stage after the other -/

/-- Whatever messages are under way in the course of a turn come to an end, with all that they lead to. -/
def Quietens (e : Engine) : Prop := ∀ n m, Works [] e n m → Subsides [] m

/-- The load is about to run the next of these stages. Nothing else is to be done, and start hooks do nothing, or the
messages that they send come to an end. -/
structure Poised (d : Deployment) (e₀ : Engine) (key : CallKey) (stages : List Stage) (e : Engine) : Prop where
  loads : LoadsAlone d e₀ key e
  unrefused : Unrefused e key
  calm : e₀.registry.Idle ∨ Quietens e
  agenda : e.agenda = [.resume key]
  call : ∃ c, e.call? key = some c ∧ c.waiting = [] ∧ c.stages = stages

/-- The engine works on until the load is about to run these stages. -/
def Arrives (d : Deployment) (e₀ : Engine) (key : CallKey) (stages : List Stage) (e : Engine) : Prop :=
  ∃ n e', Works [] e n e' ∧ Poised d e₀ key stages e'

theorem Works.trans {n' : Nat} (h : Works base e n m) (h' : Works base m n' e') : Works base e (n + n') e' :=
  Works.append h (show Works ([] ++ base) m n' e' from h')

theorem Arrives.then (h : Arrives d e₀ key stages e) {goal : Engine → Prop}
    (hg : ∀ m, Poised d e₀ key stages m → ∃ n e', Works [] m n e' ∧ goal e') : ∃ n e', Works [] e n e' ∧ goal e' := by
  obtain ⟨n, m, hw, hm⟩ := h
  obtain ⟨n', e', hw', hgoal⟩ := hg m hm
  exact ⟨n + n', e', hw.trans hw', hgoal⟩

namespace Poised

theorem moves (hp : Loadable d e₀) (h : Poised d e₀ key stages e) {stages' : List Stage} (hw : Works [] e n e')
    (ha : e'.agenda = [.resume key]) (hc : ∃ c, e'.call? key = some c ∧ c.waiting = [] ∧ c.stages = stages') :
    Poised d e₀ key stages' e' :=
  ⟨hw.reach.invariant (fun _ _ hl ht => hl.tick hp ht) h.loads, h.unrefused.reach hw.reach,
    h.calm.imp_right fun hq _ m hw' => hq _ m (hw.trans hw'), ha, hc⟩

/-- The stage is run. -/
theorem runs (h : Poised d e₀ key (stage :: rest) e) :
    Works [] e 1 ((e.taken key [] rest).runStage key stage) := by
  obtain ⟨c, hc, hw, hs⟩ := h.call
  have hresume : ({ e with agenda := [] } : Engine).act (.resume key) = (e.taken key [] rest).runStage key stage :=
    resume_stage hc hw hs
  rw [← hresume]
  exact .make .refl h.loads.unbroken (show e.agenda = .resume key :: ([] ++ []) from h.agenda) rfl

/-- The call as it finds itself when the stage is run. -/
theorem taken_call (h : Poised d e₀ key (stage :: rest) e) :
    ∃ c, (e.taken key [] rest).call? key = some c ∧ c.waiting = [] ∧ c.stages = rest := by
  obtain ⟨c, hc, hw, -⟩ := h.call
  refine ⟨{ c with stages := rest }, ?_, hw, rfl⟩
  rw [taken, call?_modifyCall, if_pos rfl]
  exact (congrArg _ hc).trans rfl

/-- A stage that only puts others before those that are left. -/
theorem proceeds (hp : Loadable d e₀) (h : Poised d e₀ key (stage :: rest) e) (m : Engine) (stages : List Stage)
    (hstage : (e.taken key [] rest).runStage key stage = m.proceed key stages) (ha : m.agenda = [])
    (hc : (m.call? key).map (fun c => (c.waiting, c.stages)) =
      ((e.taken key [] rest).call? key).map fun c => (c.waiting, c.stages)) :
    Works [] e 1 (m.proceed key stages) ∧ Poised d e₀ key (stages ++ rest) (m.proceed key stages) := by
  refine ⟨hstage ▸ h.runs, h.moves hp (hstage ▸ h.runs) ?_ ?_⟩
  · exact congrArg (Action.resume key :: ·) ha
  · obtain ⟨c, hc₀, hw, hs⟩ := h.taken_call
    rw [hc₀] at hc
    obtain ⟨c', hc', hsame⟩ := Option.map_eq_some_iff.mp hc
    obtain ⟨hw', hs'⟩ := Prod.mk.inj hsame
    exact ⟨_, call?_proceed hc' stages, hw'.trans hw, congrArg (stages ++ ·) (hs'.trans hs)⟩

/-- The checks of the load find nothing. -/
theorem unrefused_taken (h : Poised d e₀ key (stage :: rest) e) :
    Fits e.config? (stage :: rest) ∧ Fresh e (stage :: rest) := by
  obtain ⟨c, hc, -, hs⟩ := h.call
  obtain ⟨c', hc', hsmooth⟩ := h.unrefused.call
  obtain rfl := Option.some.inj (hc.symm.trans hc')
  exact ⟨hs ▸ hsmooth.fits, hs ▸ hsmooth.fresh⟩

/-- What a call keeps alive is nothing to its stages. -/
theorem sameStages_hold (e : Engine) (key : CallKey) (levels : List LevelKey) :
    ((e.hold key levels).call? key).map (fun c => (c.waiting, c.stages)) =
      (e.call? key).map fun c => (c.waiting, c.stages) := by
  rw [hold, call?_modifyCall, if_pos rfl, Option.map_map]
  rfl

/-! ### Single stages -/

theorem commit (hp : Loadable d e₀) {next : Deployment} (h : Poised d e₀ key (.commit next :: rest) e) :
    ∃ e', Works [] e 1 e' ∧ Poised d e₀ key rest e' ∧ e'.deployed = some next := by
  obtain ⟨hw, hpoised⟩ := h.proceeds hp { e.taken key [] rest with deployed := some next } [] rfl rfl rfl
  exact ⟨_, hw, hpoised, rfl⟩

theorem enlist (hp : Loadable d e₀) (h : Poised d e₀ key (.enlist k :: rest) e) : Arrives d e₀ key rest e :=
  ⟨1, _, h.proceeds hp { e.taken key [] rest with flows := e.flows ++ [k] } [] rfl rfl rfl⟩

theorem start (hp : Loadable d e₀) (h : Poised d e₀ key (.start k none :: rest) e) :
    ∃ l, e.level? k = some l ∧ Arrives d e₀ key (.apply k l.config none :: rest) e := by
  obtain ⟨⟨⟨config, hk, hsound⟩, -⟩, ⟨l, hl, hphase⟩, -⟩ := h.unrefused_taken
  obtain ⟨l', hl', -, rfl⟩ := config?_eq_some.mp hk
  obtain rfl := Option.some.inj (hl.symm.trans hl')
  have hcheck : checkStart l none = .ok () := checkStart_ok hsound (by rw [hphase]; decide) fun _ => hphase
  refine ⟨l, hl, 1, _, h.proceeds hp ((e.taken key [] rest).modifyLevel k fun l => { l with failures := [] })
    [.apply k l.config none] ?_ rfl rfl⟩
  change Engine.start _ key k none = _
  unfold Engine.start
  have hl' : (e.taken key [] rest).level? k = some l := hl
  rw [hl']
  dsimp only
  rw [hcheck]

end Poised

/-- While a level is activated, calls and flows stay as they are. -/
theorem Underway.register (hready : Ready c.templates e₀.nextPrivate) (h : Underway e₀ k c base 0 e)
    (hw : Works base e n e') : e'.register = e.register := by
  induction hw with
  | refl => rfl
  | @quiet n m a above hw hb ha hq ih =>
    have hstep : ({ m with agenda := above ++ base }.act a).register = m.register :=
      register_act fun key => by rintro rfl; cases hq
    exact hstep.trans ih
  | @make n m a above hw hb ha hq ih =>
    obtain ⟨above', hagenda, hu, -⟩ := h.works hready hw
    obtain rfl : a :: above = above' := List.append_cancel_right (ha.symm.trans hagenda)
    rw [loud_cons hq] at hu
    obtain ⟨left, hplanned, -⟩ := hu.planned
    have hstep : ({ m with agenda := above ++ base }.act a).register = m.register :=
      register_act fun key => by rintro rfl; cases hplanned
    exact hstep.trans ih

theorem Subsides.anywhere (h : Subsides [] e) (base : List Action) : Subsides base e := fun messages rest ha hq =>
  List.append_nil (rest ++ base) ▸ h messages (rest ++ base) (ha.trans (by rw [List.append_nil])) hq

namespace Poised

/-- The flow is activated, and then announced. -/
theorem apply (hp : Loadable d e₀) {config : FlowConfig} (h : Poised d e₀ key (.apply k config none :: rest) e) :
    Arrives d e₀ key rest e := by
  obtain ⟨⟨⟨c, hk, order, hv⟩, -⟩, -⟩ := h.unrefused_taken
  obtain ⟨l, hl, -, rfl⟩ := config?_eq_some.mp hk
  have hsize : e₀.levels.size ≤ k := by
    obtain ⟨c, hc, -, hstages⟩ := h.call
    obtain ⟨c', hc', -, hload⟩ := h.loads.call
    obtain rfl := Option.some.inj (hc.symm.trans hc')
    rw [hstages] at hload
    cases hload _ List.mem_cons_self with
    | apply hk => exact hk
  have htemplates : l.config.templates = d.templates := (h.loads.levels k l hsize hl).vetted.templates
  let started := (e.taken key [] rest).rewired k config none
  let pushed := started.push [.announce k, .resume key]
  have hlevel : pushed.level? k = some { l with phase := .started } := by
    change ((e.taken key [] rest).modifyLevel k fun l => { l with phase := .started }).level? k = _
    rw [level?_modifyLevel, if_pos rfl]
    exact congrArg _ hl
  have hactivates : (e.taken key [] rest).runStage key (.apply k config none) = pushed.activated k l.config order :=
    apply_of_activate (activate_ok hlevel (StartOrder.layered_validate hv).1)
  have hworks : Works [] e 1 (pushed.activated k l.config order) := hactivates ▸ h.runs
  have hready : Ready l.config.templates (pushed.environed k l.config).nextPrivate :=
    htemplates ▸ hp.ready.mono h.loads.grows.nextPrivate
  have hunder := underway_activated (e := pushed) (l := { l with phase := .started }) h.loads.unbroken hlevel hv
  have hsub (n : Nat) (m : Engine) (hw : Works pushed.agenda (pushed.activated k l.config order) n m) :
      Subsides pushed.agenda m := by
    rcases h.calm with hidle | hquiet
    · exact (hunder.works hready hw).subsides (registry_of_world h.loads.grows.world ▸ hidle)
    · exact (hquiet _ m (Works.append hworks (show Works (pushed.agenda ++ []) _ n m from hw))).anywhere _
  obtain ⟨n, m, hw, hbase⟩ := hunder.ends hready hsub
  have hreached : Works [] e (1 + n) m := Works.append hworks (show Works (pushed.agenda ++ []) _ n m from hw)
  have hunbroken : m.broken = false :=
    (hreached.reach.invariant (P := LoadsAlone d e₀ key) (fun _ _ hl ht => hl.tick hp ht) h.loads).unbroken
  have hannounced : Works [] e (1 + n) ({ m with agenda := [.resume key] }.act (.announce k)) :=
    .quiet hreached hunbroken (show m.agenda = .announce k :: ([.resume key] ++ []) from hbase) rfl
  have hactivation : m.register = (pushed.activated k l.config order).register := hunder.register hready hw
  have hannounce : ({ m with agenda := [.resume key] }.act (.announce k)).register = m.register :=
    register_act fun _ ha => by cases ha
  have hregister : ({ m with agenda := [.resume key] }.act (.announce k)).register = (e.taken key [] rest).register :=
    hannounce.trans hactivation
  refine ⟨1 + n, _, hannounced, h.moves hp hannounced ?_ ?_⟩
  · change (Engine.announce _ k).agenda = _
    unfold Engine.announce
    split
    · rfl
    · exact (silent_publish _ _).agenda
  · rw [call?_of_calls (congrArg (·.1) hregister)]
    exact h.taken_call

/-- A new flow starts. -/
theorem startFlow (hp : Loadable d e₀) (h : Poised d e₀ key (.start k none :: rest) e) : Arrives d e₀ key rest e := by
  obtain ⟨l, -, hstart⟩ := h.start hp
  exact hstart.then fun m hm => hm.apply hp

theorem startTab (hp : Loadable d e₀) {tab : FlowConfig} (h : Poised d e₀ key (.startTab tab true :: rest) e) :
    Arrives d e₀ key rest e := by
  by_cases hd : tab.disabled = true
  · exact ⟨1, _, h.proceeds hp (e.taken key [] rest) [] (if_pos hd) rfl rfl⟩
  · have hmade : Arrives d e₀ key (.start e.levels.size none :: .enlist e.levels.size :: rest) e := by
      exact ⟨1, _, h.proceeds hp (((e.taken key [] rest).addLevel (.make .tab none tab)).1.hold key [e.levels.size])
        [.start e.levels.size none, .enlist e.levels.size] (if_neg hd) rfl (sameStages_hold _ _ _)⟩
    exact hmade.then fun m hm => (hm.startFlow hp).then fun m' hm' => hm'.enlist hp

theorem startTabs (hp : Loadable d e₀) {tabs : List FlowConfig} (h : Poised d e₀ key (tabs.map (.startTab · true) ++ rest) e) :
    Arrives d e₀ key rest e := by
  induction tabs generalizing e with
  | nil => exact ⟨0, e, .refl, h⟩
  | cons tab tabs ih =>
    have htab := h.startTab hp
    exact htab.then fun m hm => ih hm

theorem startAll (hp : Loadable d e₀) (h : Poised d e₀ key [.startAll d] e) : Arrives d e₀ key [.commit d] e := by
  have hmade := h.proceeds hp
    ({ ((e.taken key [] []).addLevel (.make .global none d.global)).1 with global := some e.levels.size }.hold key
      [e.levels.size])
    ([.start e.levels.size none] ++ d.tabs.map (.startTab · true) ++ [.commit d])
    (by
      change Engine.startAll _ key d = _
      unfold Engine.startAll
      rw [validateAll_ok.mpr hp.clean.sound]
      rfl)
    rfl (sameStages_hold _ _ _)
  rw [List.append_nil] at hmade
  exact Arrives.then ⟨1, _, hmade⟩ fun m hm => (hm.startFlow hp).then fun m' hm' => hm'.startTabs hp

/-- The call comes to its end when no stage is left. -/
theorem ends (h : Poised d e₀ key [] e) : ∃ e', Works [] e 1 e' ∧ e'.agenda = [] ∧ e'.deployed = e.deployed ∧
    ∃ c, e'.call? key = some c ∧ c.ended.isSome = true ∧ c.fault = none := by
  obtain ⟨c, hc, hw, hs⟩ := h.call
  obtain ⟨c', hc', hsmooth⟩ := h.unrefused.call
  obtain rfl := Option.some.inj (hc.symm.trans hc')
  have hends : ({ e with agenda := [] } : Engine).act (.resume key) = ({ e with agenda := [] } : Engine).modifyCall key
      fun c => { c with ended := c.ended <|> some e.now, holds := [] } := resume_ends hc hw hs
  refine ⟨_, .make .refl h.loads.unbroken (show e.agenda = .resume key :: ([] ++ []) from h.agenda) rfl, ?_⟩
  change (({ e with agenda := [] } : Engine).act (.resume key)).agenda = [] ∧ _ ∧ _
  rw [List.nil_append, hends]
  refine ⟨rfl, rfl, { c with ended := c.ended <|> some e.now, holds := [] }, ?_, ?_, hsmooth.fault⟩
  · rw [call?_modifyCall, if_pos rfl]
    exact congrArg _ hc
  · cases c.ended <;> rfl

end Poised

/-! ## The turn of a load -/

/-- The turn in which the load of a deployment begins. -/
def loadTurn (e : Engine) (d : Deployment) : Engine := turnOf (e.begin [.startAll d]).1.wakePutOff e.nextCall

theorem poised_loadTurn (h : Reachable e) (hr : AtRest e) (hu : e.Undeployed) (hload : e.Offers [.startAll d])
    (hp : Loadable d e)
    (hcalm : e.registry.Idle ∨ Quietens (e.loadTurn d)) : Poised d e e.nextCall [.startAll d] (e.loadTurn d) := by
  have huntouched := (untouched_begin e [.startAll d]).trans (untouched_wakePutOff _)
  have hb : (e.begin [.startAll d]).1.wakePutOff.broken = false := by rw [huntouched]; exact hr.unbroken
  have ha : (e.begin [.startAll d]).1.wakePutOff.agenda = [] := by rw [huntouched]; exact hr.idle
  have ha' : (e.begin [.startAll d]).1.agenda = [] := by rw [untouched_begin]; exact hr.idle
  have hreach : Reach (e.begin [.startAll d]).1 (e.loadTurn d) :=
    (Reach.single (.wake ha')).tail (tick_turn hb ha (ready_wakePutOff _ (ready_begin e _)))
  refine ⟨hreach.invariant (fun _ _ hl ht => hl.tick hp ht) (loadsAlone_begin h hr hu),
    (unrefused_begin h hr hload ⟨hp.clean.sound, trivial⟩ (by simp [NoFresh])).reach hreach, hcalm,
    agenda_turnOf ha _, .make [.startAll d] e.now, ?_, rfl, rfl⟩
  rw [loadTurn, call?_turnOf, call?_wakePutOff, call?_begin h.keysBelow, if_pos rfl]

/-- Nothing is left to do, the call has ended without a fault, and the deployment is the one that runs. -/
structure Finished (d : Deployment) (key : CallKey) (e : Engine) : Prop where
  idle : e.agenda = []
  deployed : e.deployed = some d
  ended : ∃ c, e.call? key = some c ∧ c.ended.isSome = true ∧ c.fault = none

/-- The load is gone through to its end. -/
theorem Poised.finishes (hp : Loadable d e₀) (h : Poised d e₀ key [.startAll d] e) :
    ∃ n e', Works [] e n e' ∧ Finished d key e' := by
  refine (h.startAll hp).then fun m hm => ?_
  obtain ⟨m', hw, hm', hdeployed⟩ := hm.commit hp
  obtain ⟨e', hw', hidle, hsame, hended⟩ := hm'.ends
  exact ⟨1 + 1, e', hw.trans hw', hidle, hsame.trans hdeployed, hended⟩

/-- What the engine works through it also works through with enough fuel. -/
theorem Works.finishWithin (h : Works base e n e') : ∃ steps, ∀ fuel, finishWithin (steps + fuel) e = finishWithin fuel e' := by
  induction h with
  | refl => exact ⟨0, fun fuel => by rw [Nat.zero_add]⟩
  | quiet _ hb ha _ ih | make _ hb ha _ ih =>
    obtain ⟨steps, hsteps⟩ := ih
    refine ⟨steps + 1, fun fuel => ?_⟩
    rw [Nat.add_assoc, Nat.add_comm 1 fuel, hsteps, finishWithin_succ fuel hb ha]

/-- However much fuel there is beyond some number of steps, the load is done. -/
theorem exists_steps_finished (h : Reachable e) (hr : AtRest e) (hu : e.Undeployed) (hload : e.Offers [.startAll d])
    (hp : Loadable d e) (hcalm : e.registry.Idle ∨ Quietens (e.loadTurn d)) :
    ∃ steps, ∀ fuel, steps ≤ fuel → Finished d e.nextCall (finishWithin fuel (e.loadTurn d)) := by
  obtain ⟨n, e', hw, hfinished⟩ := (poised_loadTurn h hr hu hload hp hcalm).finishes hp
  obtain ⟨steps, hsteps⟩ := hw.finishWithin
  refine ⟨steps, fun fuel hle => ?_⟩
  have hrun := hsteps (fuel - steps)
  rw [Nat.add_sub_cancel' hle, finishWithin_idle hfinished.idle] at hrun
  rwa [hrun]

end Engine

namespace Session
open Engine
variable {s : Session} {records : List Json} {d : Deployment}

/-- The check is sound for loads. If it finds nothing wrong with records, whose kinds refuse no node for what the check
looks for and whose templates can be expanded, then the records are loaded where nothing is deployed, nothing breaks,
and in all that runs then, at any depth, no node has failed for an unknown type, for a template that does not exist
or for a circular dependency. The load comes to its end, unless the messages never do that start hooks send. -/
theorem validated_load_succeeds (h : Reachable s.engine) (hr : AtRest s.engine) (hu : s.engine.Undeployed)
    (hd : Deployment.parse records = .ok d) (hp : Command.Answer.problems s.engine.registry d = [])
    (hcandid : s.engine.registry.Candid) (hready : Ready d.templates s.engine.nextPrivate) :
    (s.load records).1 = .ok () ∧ (s.load records).2.engine.broken = false ∧
    (∀ k, (s.load records).2.engine.global = some k ∨ k ∈ (s.load records).2.engine.flows →
      ∀ j l, (s.load records).2.engine.Inside k j → (s.load records).2.engine.level? j = some l →
        ∀ id fault, l.failures.get? id = some fault → ¬fault.Structural) ∧
    (s.engine.registry.Idle ∨ Quietens (s.engine.loadTurn d) → ∃ steps,
      (∀ fuel, steps ≤ fuel → Finished d s.engine.nextCall (finishWithin fuel (s.engine.loadTurn d))) ∧
      (steps ≤ patience → (s.load records).2.engine = finishWithin patience (s.engine.loadTurn d))) := by
  obtain ⟨rs, ha⟩ := Deployment.parse_arranged hd
  have hclean := clean_of_problems hp
  have hload : Loadable d s.engine := ⟨hclean, fun c hc => hclean.vets ha hc, hcandid, hready⟩
  have hstages : s.engine.stagesOfLoad records = .ok [.startAll d] := by
    unfold stagesOfLoad
    rw [hu.deployed, hd]
    rfl
  have hcall : s.load records = (outcome (s.call [.startAll d]).1, (s.call [.startAll d]).2) := by
    unfold load
    rw [hstages]
  have hloads : LoadsAlone d s.engine s.engine.nextCall (s.load records).2.engine := by
    rw [hcall]
    exact (reach_complete s.engine [.startAll d]).invariant (fun _ _ hl ht => hl.tick hload ht)
      (loadsAlone_begin h hr hu)
  refine ⟨?_, hloads.unbroken, fun k hk j l hin hl => ?_, fun hcalm => ?_⟩
  · rw [hcall]
    exact call_unrefused h hr (.load hstages) ⟨hclean.sound, trivial⟩ (by simp [NoFresh])
  · have hlaid : Laid (s.load records).2.engine := (reachable_load h hr.idle).layout.laid
    exact (hloads.levels j l (Nat.le_trans (hloads.flows k hk) (hlaid.le_inside hin)) hl).faultless
  · obtain ⟨steps, hsteps⟩ := exists_steps_finished h hr hu (.load hstages) hload hcalm
    refine ⟨steps, hsteps, fun hle => ?_⟩
    obtain ⟨c, hc, hended, -⟩ := (hsteps patience hle).ended
    rw [hcall]
    refine complete_of_turn hr.unbroken hr.idle ?_
    change (finishWithin patience (s.engine.loadTurn d)).hasEnded _ = true
    unfold hasEnded
    rw [hc]
    exact hended

/-- A tab that uses a template with another inside; in the inner one a node refers to a config node behind it. -/
def layeredRecords : List Json := [
  .obj [("id", .str "t"), ("type", .str "tab")],
  .obj [("id", .str "outer"), ("type", .str "subflow")],
  .obj [("id", .str "inner"), ("type", .str "subflow")],
  .obj [("id", .str "u"), ("type", .str "subflow:outer"), ("wires", .arr []), ("z", .str "t")],
  .obj [("id", .str "v"), ("type", .str "subflow:inner"), ("wires", .arr []), ("z", .str "outer")],
  .obj [("id", .str "a"), ("server", .str "c"), ("type", .str "json"), ("wires", .arr []), ("z", .str "inner")],
  .obj [("id", .str "c"), ("type", .str "debug"), ("z", .str "inner")]]

/-- What the records describe. -/
def layeredDeployment : Deployment := ((Deployment.parse layeredRecords).toOption).getD .empty

def standardRuntime : Session := onRuntime (.make .standard .shared [] [] 500)

theorem ready_layeredDeployment : Ready layeredDeployment.templates standardRuntime.engine.nextPrivate := by
  have hall : ∀ t ∈ layeredDeployment.templates.values,
      (∀ port ∈ t.outputs, ∀ w ∈ port.wires, w.port + 1 < Nat.pow 2 64) ∧ t.status = none ∧ t.complete = none ∧
        ∀ r ∈ t.nodes, ∀ s ∈ r.references, s.toList.length < 20 := by
    decide +kernel
  intro id t ht
  obtain ⟨hports, hstatus, hcomplete, hnames⟩ := hall t (Dict.mem_values ht)
  refine ⟨⟨hports, by simp [hstatus], by simp [hcomplete]⟩, fun r hr s hs n _ he => ?_⟩
  have := hnames r hr s hs
  rw [he] at this
  exact absurd (twenty_le_length_privateId n) (Nat.not_le_of_lt this)

/-- The tab is checked, loaded and started with everything that is inside. -/
theorem layeredRecords_load : Command.Answer.problems .standard layeredDeployment = [] ∧
    (standardRuntime.load layeredRecords).1 = .ok () ∧
    ∃ steps, ∀ fuel, steps ≤ fuel →
      Finished layeredDeployment 0 (finishWithin fuel (standardRuntime.engine.loadTurn layeredDeployment)) := by
  have hd : Deployment.parse layeredRecords = .ok layeredDeployment := by decide +kernel
  have hp : Command.Answer.problems .standard layeredDeployment = [] := by decide +kernel
  obtain ⟨hok, -, -, hends⟩ := validated_load_succeeds (s := standardRuntime) (.make _ _ _ _ _) (by decide)
    ⟨rfl, rfl, rfl⟩ hd hp Registry.candid_standard ready_layeredDeployment
  obtain ⟨steps, hsteps, -⟩ := hends (.inl Registry.idle_standard)
  exact ⟨hp, hok, steps, hsteps⟩

end Session

end Flowgraph
