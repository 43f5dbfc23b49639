import Flowgraph.Proofs.Lending
import Flowgraph.Proofs.Serving
import Flowgraph.Proofs.Unfolding
/-! What actions put on the agenda. An action of messages and tasks only passes messages on, unless a node takes one up;
a call and the making of nodes plan nothing but the like. So the agenda never mixes the two. -/
namespace Flowgraph

/-- The actions of calls and of the making of nodes, and what they publish. -/
def Action.plans : Action → Bool
  | .create .. | .install .. | .refresh _ | .announce _ | .resume _ => true
  | _ => false

/-- A message is handed to somebody, or on its way there. -/
inductive Action.Conveys : Action → Prop
  | hand (n : NodeKey) (m : Message) : Conveys (.hand n m)
  | handAt (j : LevelKey) (id : NodeId) (m : Message) : Conveys (.handAt j id m)
  | deliver (j : LevelKey) (id : NodeId) (m : Message) : Conveys (.deliver j id m)

/-- A message is passed on. -/
inductive Action.Passes : Action → Prop
  | hand (n : NodeKey) (m : Message) : Passes (.hand n m)
  | handAt (j : LevelKey) (id : NodeId) (m : Message) : Passes (.handAt j id m)
  | deliver (j : LevelKey) (id : NodeId) (m : Message) : Passes (.deliver j id m)
  | send (n : NodeKey) (port : Nat) (m : Message) : Passes (.effect n (.send port m))

theorem Action.Conveys.passes {a : Action} (h : a.Conveys) : a.Passes := by
  cases h with
  | hand n m => exact .hand n m
  | handAt j id m => exact .handAt j id m
  | deliver j id m => exact .deliver j id m

theorem Action.isQuiet_of_plans {a : Action} (h : a.plans = false) : a.isQuiet = true := by
  cases a <;> first | rfl | cases h

theorem Action.Passes.plans {a : Action} (h : a.Passes) : a.plans = false := by
  cases h <;> rfl

namespace Engine

variable {e e' e'' : Engine} {k : NodeKey} {m : Message} {key : CallKey}

/-! ## Messages -/

/-- A step that puts nothing on the agenda but messages that are passed on. -/
def PassesOn (e e' : Engine) : Prop := ∃ pushed, e'.agenda = pushed ++ e.agenda ∧ ∀ a ∈ pushed, a.Passes

/-- A step that only conveys messages. -/
def ConveysOn (e e' : Engine) : Prop := ∃ pushed, e'.agenda = pushed ++ e.agenda ∧ ∀ a ∈ pushed, a.Conveys

theorem ConveysOn.passesOn (h : ConveysOn e e') : PassesOn e e' := by
  obtain ⟨pushed, ha, hp⟩ := h
  exact ⟨pushed, ha, fun a hm => (hp a hm).passes⟩

theorem ConveysOn.of_agenda (h : e'.agenda = e.agenda) : ConveysOn e e' := ⟨[], h, nofun⟩

theorem ConveysOn.push (e : Engine) {actions : List Action} (h : ∀ a ∈ actions, a.Conveys) : ConveysOn e (e.push actions) :=
  ⟨actions, rfl, h⟩

theorem ConveysOn.single (e : Engine) {a : Action} (h : a.Conveys) : ConveysOn e (e.push [a]) :=
  .push e fun b hb => by
    obtain rfl := List.mem_singleton.mp hb
    exact h

theorem agenda_leave (e : Engine) (origin : Origin) (signal : Signal) : (e.leave origin signal).agenda = e.agenda := by
  unfold leave
  split
  · rfl
  · rfl
  · rfl
  · exact agenda_publish _ _
  · rfl

theorem conveysOn_raise (e : Engine) (j : LevelKey) (origin : Origin) (signal : Signal) :
    ConveysOn e (e.raise j origin signal).1 := by
  unfold raise
  split
  · exact .of_agenda rfl
  · split
    · rename_i level receivers _
      refine ⟨_, rfl, fun a ha => ?_⟩
      obtain ⟨x, -, rfl⟩ := List.mem_map.mp ha
      exact .handAt _ _ _
    · exact .of_agenda (agenda_leave e origin signal)
    · exact .of_agenda rfl
    · exact .of_agenda rfl

theorem conveysOn_publish_raise (e : Engine) (event : Event) (j : LevelKey) (origin : Origin) (signal : Signal) :
    ConveysOn e ((e.publish event).raise j origin signal).1 := by
  obtain ⟨pushed, ha, hp⟩ := conveysOn_raise (e.publish event) j origin signal
  exact ⟨pushed, by rw [ha, agenda_publish], hp⟩

/-- Whatever a node does, messages are passed on at most. -/
theorem conveysOn_perform (e : Engine) (k : NodeKey) (effect : Effect) : ConveysOn e (e.perform k effect) := by
  unfold perform
  cases e.node? k with
  | none => exact .of_agenda rfl
  | some n =>
    cases effect with
    | note entry => exact .of_agenda rfl
    | closed result => exact .of_agenda (agenda_signalClosed _ _ _)
    | send port m =>
      dsimp only
      split
      · refine .push e fun a ha => ?_
        obtain ⟨t, -, rfl⟩ := List.mem_map.mp ha
        exact .deliver _ _ _
      · exact .of_agenda rfl
    | status status =>
      dsimp only
      split
      · exact conveysOn_publish_raise _ _ _ _ _
      · exact .of_agenda rfl
    | error text about =>
      dsimp only
      split
      · exact conveysOn_raise _ _ _ _
      · exact .of_agenda rfl
    | complete m =>
      dsimp only
      split
      · exact conveysOn_raise _ _ _ _
      · exact .of_agenda rfl

theorem conveysOn_reportPort (e : Engine) (inst : LevelKey) (port : PortKind) (m : Message) :
    ConveysOn e (e.reportPort inst port m) := by
  unfold reportPort
  split
  · rename_i p _ _
    cases e.level? p with
    | none => exact .of_agenda rfl
    | some around =>
      cases port with
      | status => exact conveysOn_publish_raise _ _ _ _ _
      | complete => exact conveysOn_raise _ _ _ _
  · exact .of_agenda rfl

theorem conveysOn_conclude (e : Engine) (k : NodeKey) (m : Message) (outcome : Outcome) :
    ConveysOn e (e.conclude k m outcome) := by
  cases outcome with
  | handled =>
    unfold conclude
    dsimp only
    split
    · split
      · exact conveysOn_perform _ _ _
      · exact .of_agenda rfl
    · exact .of_agenda rfl
  | deferred => exact .of_agenda rfl
  | failed fault => exact conveysOn_perform e k (.error fault.message (some m))

/-! ## Taking a message up -/

/-- A node that has a behaviour of its own takes a message up; it has not been told to stop. -/
structure TakesUp (e : Engine) (k : NodeKey) (node : Node) (b : Behaviour) : Prop where
  there : e.node? k = some node
  awake : node.cancelled = false
  part : node.part = .ordinary b

/-- What the node sees besides the message. -/
def situation (e : Engine) (k : NodeKey) (node : Node) : Situation := ⟨e.nodeSetting node, (e.tasksOf k).length⟩

theorem TakesUp.hand_eq {node : Node} {b : Behaviour} (h : TakesUp e k node b) (m : Message) :
    e.hand k m = ((b.onInput (e.situation k node) m).tasks.foldl (fun e task => e.startTask k task) e).push
      ((b.onInput (e.situation k node) m).effects.map (.effect k) ++
        [.conclude k m (b.onInput (e.situation k node) m).outcome]) := by
  unfold hand
  rw [h.there]
  dsimp only
  rw [h.awake, h.part]
  rfl

/-- A node that passes on what it is handed. -/
structure Relays (e : Engine) (k : NodeKey) (m : Message) (e' : Engine) : Prop where
  relay : ∃ node, e.node? k = some node ∧ node.part = .relay
  sends : e' = e.push [.effect k (.send 0 m)]

/-- Everybody else only conveys the message, or sends it on, and starts no task. -/
theorem conveysOn_hand (e : Engine) (k : NodeKey) (m : Message) (h : ∀ node b, ¬TakesUp e k node b) :
    (ConveysOn e (e.hand k m) ∨ Relays e k m (e.hand k m)) ∧ ∀ P, Lends P e (e.hand k m) := by
  have hsame : (ConveysOn e e ∨ Relays e k m e) ∧ ∀ P, Lends P e e := ⟨.inl (.of_agenda rfl), fun _ => .refl e⟩
  have hlends (a : Action) (P : Pending → Prop) : Lends P e (e.push [a]) := .of_lent rfl rfl (fun _ h => h) fun _ h => h
  unfold hand
  cases hn : e.node? k with
  | none => exact hsame
  | some node =>
    dsimp only
    split
    · exact hsame
    · rename_i hc
      split
      · rename_i b hp
        exact absurd ⟨hn, by simpa using hc, hp⟩ (h node b)
      · rename_i hp
        exact ⟨.inr ⟨⟨node, hn, hp⟩, rfl⟩, hlends _⟩
      · split
        · exact ⟨.inl (.single e (.handAt _ _ _)), hlends _⟩
        · exact hsame
      · split
        · exact ⟨.inl (conveysOn_reportPort _ _ _ _), fun _ => lends_reportPort _ _ _ _⟩
        · exact hsame

/-- An action of messages and tasks conveys messages, unless a node takes one up or a node that passes them on is handed
one. -/
theorem conveysOn_act (e : Engine) {a : Action} (hp : a.plans = false)
    (h : ∀ k m, a = .hand k m → ∀ node b, ¬TakesUp e k node b) :
    ConveysOn e (e.act a) ∨ ∃ k m, a = .hand k m ∧ Relays e k m (e.act a) := by
  cases a with
  | hand k m => exact (conveysOn_hand e k m (h k m rfl)).1.imp id fun hr => ⟨k, m, rfl, hr⟩
  | handAt j id m =>
    change ConveysOn e (e.handAt j id m) ∨ _
    unfold handAt
    split
    · exact .inl (.single e (.hand _ _))
    · exact .inl (.of_agenda rfl)
  | deliver j id m =>
    change ConveysOn e (e.deliver j id m) ∨ _
    unfold deliver
    split
    · exact .inl (.single e (.hand _ _))
    · exact .inl (.of_agenda rfl)
  | effect k effect => exact .inl (conveysOn_perform e k effect)
  | conclude k m outcome => exact .inl (conveysOn_conclude e k m outcome)
  | finishTask key => exact .inl (.of_agenda (finishTask_frame e key).1)
  | _ => cases hp

theorem Relays.passesOn (h : Relays e k m e') : PassesOn e e' := by
  refine ⟨[.effect k (.send 0 m)], by rw [h.sends]; rfl, fun b hb => ?_⟩
  obtain rfl := List.mem_singleton.mp hb
  exact .send _ _ _

/-- An action of messages and tasks passes messages on, unless a node takes one up. -/
theorem passesOn_act (e : Engine) {a : Action} (hp : a.plans = false)
    (h : ∀ k m, a = .hand k m → ∀ node b, ¬TakesUp e k node b) : PassesOn e (e.act a) := by
  rcases conveysOn_act e hp h with hc | ⟨k, m, -, hr⟩
  · exact hc.passesOn
  · exact hr.passesOn

/-! ## Plans -/

/-- A step that puts nothing new on the agenda but plans. -/
def Plots (e e' : Engine) : Prop := ∀ a ∈ e'.agenda, a ∈ e.agenda ∨ a.plans = true

namespace Plots

theorem of_agenda (h : e'.agenda = e.agenda) : Plots e e' := fun _ ha => .inl (h ▸ ha)

theorem trans (h : Plots e e') (h' : Plots e' e'') : Plots e e'' := fun a ha => (h' a ha).elim (h a) .inr

theorem push (e : Engine) {actions : List Action} (h : ∀ a ∈ actions, a.plans = true) : Plots e (e.push actions) :=
  fun a ha => (List.mem_append.mp ha).elim (fun ha => .inr (h a ha)) .inl

end Plots

theorem plots_activated (e : Engine) (j : LevelKey) (c : FlowConfig) (order : List Nat) :
    Plots e (e.activated j c order) := by
  have hlevel : Plots e (e.modifyLevel j fun l => { l with env := Scope.evaluate (e.settingAround j) c.env }) :=
    .of_agenda rfl
  refine hlevel.trans (.push _ fun a ha => ?_)
  rcases List.mem_append.mp ha with ha | ha
  · obtain ⟨r, -, rfl⟩ := mem_creations ha
    rfl
  · obtain rfl := List.mem_singleton.mp ha
    rfl

theorem Opens.plots {j : LevelKey} {usage : Record} {t : Template} (h : Opens e j usage t e') : Plots e e' := by
  cases h with
  | nowhere => exact .of_agenda rfl
  | breaks => exact fun _ ha => absurd ha List.not_mem_nil
  | collapses => exact .of_agenda (agenda_failCreation _ _ _ _)
  | opens =>
    refine Plots.trans (.push _ fun a ha => ?_) (plots_activated _ _ _ _)
    obtain rfl := List.mem_singleton.mp ha
    rfl

/-- Where start hooks do nothing, the making of nodes plans nothing but to make others. -/
theorem plots_makes (h : e.registry.Idle) {a : Action} (hm : a.makes = true) : Plots e (e.act a) := by
  cases a with
  | create j r templates =>
    have hc := creates_create e j r templates
    change Plots e (e.create j r templates)
    generalize e.create j r templates = e' at hc ⊢
    cases hc with
    | present => exact .of_agenda rfl
    | noTemplate => exact .of_agenda (agenda_failCreation _ _ _ _)
    | refused => exact .of_agenda (agenda_failCreation _ _ _ _)
    | @made part notes hn hu hb =>
      obtain ⟨pushed, ha, -, hidle⟩ := agenda_enter hb (e.note notes) j
      rw [hidle h] at ha
      exact .of_agenda ha
    | usage _ _ _ ho => exact ho.plots
  | install j r inst => exact .of_agenda rfl
  | refresh j => exact .of_agenda (Stops.agenda (stops_refresh e j))
  | _ => cases hm

theorem plots_proceed (e : Engine) (key : CallKey) (stages : List Stage) : Plots e (e.proceed key stages) :=
  fun _ ha => (List.mem_cons.mp ha).elim (fun h => .inr (h ▸ rfl)) .inl

theorem plots_refuse (e : Engine) (key : CallKey) (fault : FlowFault) : Plots e (e.refuse key fault) :=
  fun _ ha => (List.mem_cons.mp ha).elim (fun h => .inr (h ▸ rfl)) .inl

theorem Rewires.plots (h : Rewires e e') : Plots e e' := by
  refine h.invariant (P := Plots e) (fun s s' hs ht => ?_) (.of_agenda rfl)
  cases ht with
  | breaks => exact fun _ ha => absurd ha List.not_mem_nil
  | _ => exact hs

theorem plots_runStage (e : Engine) (key : CallKey) {stage : Stage} (hs : stage.requests? e = none) :
    Plots e (e.runStage key stage) := by
  cases stage with
  | stop requests => cases hs
  | stopAmong levels ids removed => cases hs
  | start j diff =>
    have h := starts_start e key j diff
    change Plots e (e.start key j diff)
    generalize e.start key j diff = e' at h ⊢
    cases h with
    | nowhere => exact plots_proceed _ _ _
    | refused => exact plots_refuse _ _ _
    | fresh => exact plots_proceed _ _ _
    | again => exact plots_proceed _ _ _
  | apply j config diff =>
    have h := applies_apply e key j config diff
    have hrewired : Plots e (e.rewired j config diff) := by
      cases diff with
      | none => exact .of_agenda rfl
      | some d => exact (rewires_rewire e j config d).plots
    have hpush : Plots (e.rewired j config diff) ((e.rewired j config diff).push [.announce j, .resume key]) :=
      .push _ (by simp [Action.plans])
    change Plots e (e.apply key j config diff)
    generalize e.apply key j config diff = e' at h ⊢
    cases h with
    | nowhere => exact hrewired.trans hpush
    | activates => exact hrewired.trans (hpush.trans (plots_activated _ _ _ _))
    | refused => exact hrewired.trans (plots_refuse _ _ _)
  | startAll next =>
    change Plots e (e.startAll key next)
    unfold startAll
    split
    · exact plots_refuse _ _ _
    · exact plots_proceed _ _ _
  | startTab config listed =>
    change Plots e (e.startTab key config listed)
    unfold startTab
    split
    · exact plots_proceed _ _ _
    · exact plots_proceed _ _ _
  | enlistGathered =>
    rw [runStage_enlistGathered]
    exact plots_proceed _ _ _
  | stuck => exact .of_agenda rfl
  | _ => exact plots_proceed _ _ _

/-- A call that goes on plans to go on, or to make nodes. -/
theorem plots_resume (e : Engine) (key : CallKey) : Plots e (e.resume key) := by
  have hafter {s s' : Engine} {stops : List Stopping} (h : Proceeds s key stops s') : Plots s s' := by
    cases h with
    | waits _ hs => exact .of_agenda hs.agenda
    | done => exact fun _ ha => (List.mem_cons.mp ha).elim (fun h => .inr (h ▸ rfl)) .inl
  have hres := resumes_resume e key
  generalize e.resume key = e' at hres ⊢
  cases hres with
  | unknown => exact .of_agenda rfl
  | ends => exact .of_agenda rfl
  | @stage c stage stages hc hw hs =>
    have hmodify : Plots e (e.modifyCall key fun c => { c with stages }) := .of_agenda rfl
    cases hrq : stage.requests? (e.modifyCall key fun c => { c with stages }) with
    | none => exact hmodify.trans (plots_runStage _ key hrq)
    | some requests =>
      rw [runStage_of_requests? hrq, stopAll_eq]
      have hstops := stops_beginStops key (e.modifyCall key fun c => { c with stages }, []) requests
      exact hmodify.trans (Plots.trans (.of_agenda hstops.agenda) (hafter (proceeds_afterStops _ _ _)))
  | waits hc hw =>
    rw [pollAll_eq]
    exact Plots.trans (.of_agenda (stops_pollStops key (e, []) _).agenda) (hafter (proceeds_afterStops _ _ _))

theorem plots_act (h : e.registry.Idle) {a : Action} (hp : a.plans = true) : Plots e (e.act a) := by
  cases a with
  | create j r templates => exact plots_makes h rfl
  | install j r inst => exact plots_makes h rfl
  | refresh j => exact plots_makes h rfl
  | resume key => exact plots_resume e key
  | announce j =>
    change Plots e (e.announce j)
    unfold announce
    split
    · exact .of_agenda rfl
    · exact .of_agenda (agenda_publish _ _)
  | _ => cases hp

end Engine
end Flowgraph
