import Flowgraph.Engine.Clock
/-! What messages leave as it is. Whatever nodes do with messages, the levels, the nodes and their wiring, the
calls and the flows stay the same; only a call and the making of nodes touch them. -/
namespace Flowgraph

/-- A node without the traces of its work. -/
def Node.still (n : Node) : Node := { n with signal := none, hasTasks := false }

/-- Actions that belong to messages and tasks. -/
def Action.isQuiet : Action → Bool
  | .create .. | .install .. | .refresh _ | .resume _ => false
  | _ => true

namespace Engine

/-- An engine without what is under way and what has been published. -/
def still (e : Engine) : Engine :=
  { e with
    nodes := e.nodes.map Node.still, agenda := [], tasks := [], nextTask := 0, timers := []
    ready := [], room := 0, putOff := [], now := 0, notes := [], events := [], reader := none
    nextMessage := 0 }

/-- A step that leaves everything but messages and tasks as it is. -/
structure Quiet (e e' : Engine) : Prop where
  still : e'.still = e.still
  pushes : ∃ pushed, e'.agenda = pushed ++ e.agenda ∧ ∀ a ∈ pushed, a.isQuiet = true

variable {e e' e'' : Engine}

namespace Quiet

theorem refl (e : Engine) : Quiet e e := ⟨rfl, [], rfl, by simp⟩

theorem trans {m : Engine} (h : Quiet e m) (h' : Quiet m e') : Quiet e e' := by
  obtain ⟨p, hp, hq⟩ := h.pushes
  obtain ⟨p', hp', hq'⟩ := h'.pushes
  refine ⟨h'.still.trans h.still, p' ++ p, by rw [hp', hp, List.append_assoc], ?_⟩
  intro a ha
  rcases List.mem_append.mp ha with ha | ha
  · exact hq' a ha
  · exact hq a ha

/-- A step that does not even touch the agenda. -/
theorem of_still (h : e'.still = e.still) (ha : e'.agenda = e.agenda) : Quiet e e' :=
  ⟨h, [], ha, by simp⟩

theorem push (e : Engine) (actions : List Action) (h : ∀ a ∈ actions, a.isQuiet = true) :
    Quiet e (e.push actions) := ⟨rfl, actions, rfl, h⟩

theorem foldl {α : Type} (f : Engine → α → Engine) (h : ∀ e a, Quiet e (f e a)) (xs : List α)
    (e : Engine) : Quiet e (xs.foldl f e) := by
  induction xs generalizing e with
  | nil => exact refl e
  | cons x xs ih => exact (h e x).trans (ih (f e x))

end Quiet

/-! ## What a still engine shows -/

theorem levels_of_still (h : e'.still = e.still) : e'.levels = e.levels := by
  have := congrArg Engine.levels h
  exact this

theorem level?_of_still (h : e'.still = e.still) (k : LevelKey) : e'.level? k = e.level? k := by
  simp only [level?, levels_of_still h]

theorem calls_of_still (h : e'.still = e.still) : e'.calls = e.calls := by
  have := congrArg Engine.calls h
  exact this

theorem call?_of_still (h : e'.still = e.still) (k : CallKey) : e'.call? k = e.call? k := by
  simp only [call?, calls_of_still h]

theorem broken_of_still (h : e'.still = e.still) : e'.broken = e.broken := by
  have := congrArg Engine.broken h
  exact this

theorem nodes_of_still (h : e'.still = e.still) :
    e'.nodes.map Node.still = e.nodes.map Node.still := by
  have := congrArg Engine.nodes h
  exact this

theorem node?_of_still (h : e'.still = e.still) (k : NodeKey) :
    (e'.node? k).map Node.still = (e.node? k).map Node.still := by
  have := congrArg (fun ns : Array Node => ns[k]?) (nodes_of_still h)
  simpa [node?] using this

/-- A node of the one engine is there in the other, up to the traces of its work. -/
theorem exists_node?_of_still (h : e'.still = e.still) {k : NodeKey} {n : Node}
    (hn : e.node? k = some n) : ∃ n', e'.node? k = some n' ∧ n'.still = n.still := by
  have hk := node?_of_still h k
  rw [hn] at hk
  cases hn' : e'.node? k with
  | none => rw [hn'] at hk; simp at hk
  | some n' => rw [hn'] at hk; exact ⟨n', rfl, by simpa using hk⟩

/-! ## Quiet steps -/

theorem quiet_note (e : Engine) (notes : List Note) : Quiet e (e.note notes) := .of_still rfl rfl

theorem quiet_wake (e : Engine) (w : Waiter) : Quiet e (e.wake w) := by
  unfold wake
  split
  · exact .refl e
  · exact .of_still rfl rfl

theorem quiet_publish (e : Engine) (event : Event) : Quiet e (e.publish event) := by
  have h : Quiet e { e with events := e.events ++ [event] } := .of_still rfl rfl
  unfold publish
  dsimp only
  split
  · exact h.trans (quiet_wake _ _)
  · exact h

/-- A change to the traces of a node's work. -/
theorem quiet_modifyNode (e : Engine) (k : NodeKey) (f : Node → Node)
    (hf : ∀ n, (f n).still = n.still) : Quiet e (e.modifyNode k f) := by
  have hn : (e.nodes.modify k f).map Node.still = e.nodes.map Node.still := by
    apply Array.ext_getElem?
    intro i
    by_cases h : k = i
    · simp [Array.getElem?_modify, h, Function.comp_def, hf]
    · simp [Array.getElem?_modify, h]
  refine .of_still ?_ rfl
  simp only [still, modifyNode, hn]

theorem quiet_startTask (e : Engine) (owner : NodeKey) (task : Task) :
    Quiet e (e.startTask owner task) := by
  unfold startTask
  refine Quiet.trans (m := { e with nextTask := e.nextTask + 1, tasks := e.tasks ++
    [⟨e.nextTask, owner, task, none⟩] }) (.of_still rfl rfl) ?_
  refine Quiet.trans ?_ (quiet_wake _ _)
  exact quiet_modifyNode _ _ _ fun _ => rfl

theorem quiet_finishTask (e : Engine) (key : TaskKey) : Quiet e (e.finishTask key) := by
  unfold finishTask
  split
  · exact .refl e
  · refine Quiet.trans (m := { e with tasks := e.tasks.filter (·.key != key) }) (.of_still rfl rfl) ?_
    exact .foldl _ (fun e key => quiet_wake e _) _ _

theorem quiet_noteSignal (e : Engine) (k : NodeKey) (result : CloseResult) :
    Quiet e (e.noteSignal k result) := quiet_modifyNode _ _ _ fun _ => rfl

theorem quiet_signalClosed (e : Engine) (k : NodeKey) (result : CloseResult) :
    Quiet e (e.signalClosed k result) := by
  unfold signalClosed
  exact (quiet_noteSignal e k result).trans (.foldl _ (fun e entry => quiet_wake e _) _ _)

theorem quiet_sendFrom (e : Engine) (n : Node) (port : Nat) (m : Message) :
    Quiet e (e.sendFrom n port m) := by
  refine .push _ _ fun a ha => ?_
  obtain ⟨t, -, rfl⟩ := List.mem_map.mp ha
  rfl

theorem quiet_leave (e : Engine) (origin : Origin) (signal : Signal) :
    Quiet e (e.leave origin signal) := by
  unfold leave
  split
  · exact quiet_note _ _
  · exact quiet_note _ _
  · exact quiet_note _ _
  · exact quiet_publish _ _
  · exact .refl e

theorem quiet_raise (e : Engine) (k : LevelKey) (origin : Origin) (signal : Signal) :
    Quiet e (e.raise k origin signal).1 := by
  unfold raise
  split
  · exact .refl e
  · split
    · rename_i level receivers _
      refine Quiet.trans (m := { e with nextMessage := e.nextMessage + receivers.length })
        (.of_still rfl rfl) (.push _ _ fun a ha => ?_)
      simp only [signalMessages, List.mem_map] at ha
      obtain ⟨x, -, rfl⟩ := ha
      rfl
    · exact quiet_leave _ _ _
    · exact .refl e
    · exact .refl e

theorem quiet_perform (e : Engine) (k : NodeKey) (effect : Effect) : Quiet e (e.perform k effect) := by
  unfold perform
  cases e.node? k with
  | none => exact .refl e
  | some n =>
    cases effect with
    | note entry => exact quiet_note _ _
    | closed result => exact quiet_signalClosed _ _ _
    | send port m =>
      dsimp only
      split
      · exact quiet_sendFrom _ _ _ _
      · exact .refl e
    | status status =>
      dsimp only
      split
      · exact (quiet_publish _ _).trans (quiet_raise _ _ _ _)
      · exact .refl e
    | error text about =>
      dsimp only
      split
      · exact quiet_raise _ _ _ _
      · exact .refl e
    | complete m =>
      dsimp only
      split
      · exact quiet_raise _ _ _ _
      · exact .refl e

theorem quiet_reportPort (e : Engine) (inst : LevelKey) (port : PortKind) (m : Message) :
    Quiet e (e.reportPort inst port m) := by
  unfold reportPort
  split
  · rename_i p _ _
    cases e.level? p with
    | none => exact .refl e
    | some around =>
      cases port with
      | status => exact (quiet_publish _ _).trans (quiet_raise _ _ _ _)
      | complete => exact quiet_raise _ _ _ _
  · exact .refl e

theorem quiet_push_single (e : Engine) {a : Action} (h : a.isQuiet = true) : Quiet e (e.push [a]) :=
  .push e [a] (by simp [h])

theorem quiet_hand (e : Engine) (k : NodeKey) (m : Message) : Quiet e (e.hand k m) := by
  unfold hand
  cases e.node? k with
  | none => exact .refl e
  | some n =>
    dsimp only
    split
    · exact .refl e
    · split
      · refine Quiet.trans (.foldl _ (fun e task => quiet_startTask e k task) _ _) (.push _ _ ?_)
        intro a ha
        rcases List.mem_append.mp ha with ha | ha
        · obtain ⟨x, -, rfl⟩ := List.mem_map.mp ha
          rfl
        · obtain rfl := List.mem_singleton.mp ha
          rfl
      · exact quiet_push_single e rfl
      · split
        · exact quiet_push_single e rfl
        · exact .refl e
      · split
        · exact quiet_reportPort _ _ _ _
        · exact .refl e

theorem quiet_handAt (e : Engine) (k : LevelKey) (id : NodeId) (m : Message) :
    Quiet e (e.handAt k id m) := by
  unfold handAt
  split
  · exact quiet_push_single e rfl
  · exact .refl e

theorem quiet_deliver (e : Engine) (k : LevelKey) (id : NodeId) (m : Message) :
    Quiet e (e.deliver k id m) := by
  unfold deliver
  split
  · exact quiet_push_single e rfl
  · exact .refl e

theorem quiet_conclude (e : Engine) (k : NodeKey) (m : Message) (outcome : Outcome) :
    Quiet e (e.conclude k m outcome) := by
  cases outcome with
  | handled =>
    unfold conclude
    dsimp only
    split
    · split
      · exact quiet_perform _ _ _
      · exact .refl e
    · exact .refl e
  | deferred => exact .refl e
  | failed fault =>
    unfold conclude
    exact quiet_perform _ _ _

theorem quiet_announce (e : Engine) (k : LevelKey) : Quiet e (e.announce k) := by
  unfold announce
  split
  · exact .refl e
  · exact quiet_publish _ _

/-- Actions of messages and tasks leave everything else as it is. -/
theorem quiet_act (e : Engine) {a : Action} (h : a.isQuiet = true) : Quiet e (e.act a) := by
  cases a with
  | hand k m => exact quiet_hand e k m
  | handAt k id m => exact quiet_handAt e k id m
  | deliver k id m => exact quiet_deliver e k id m
  | effect k effect => exact quiet_perform e k effect
  | conclude k m outcome => exact quiet_conclude e k m outcome
  | announce k => exact quiet_announce e k
  | finishTask key => exact quiet_finishTask e key
  | create k r templates => simp [Action.isQuiet] at h
  | install k r inst => simp [Action.isQuiet] at h
  | refresh k => simp [Action.isQuiet] at h
  | resume key => simp [Action.isQuiet] at h

/-! ## What is woken, and the clock -/

theorem quiet_runTask (e : Engine) (p : Pending) : Quiet e (e.runTask p) := by
  have hr (cancelled : Bool) : Quiet e (e.push
      ((p.task.resume cancelled).map (.effect p.owner) ++ [.finishTask p.key])) := by
    refine .push _ _ fun a ha => ?_
    rcases List.mem_append.mp ha with ha | ha
    · obtain ⟨x, -, rfl⟩ := List.mem_map.mp ha
      rfl
    · obtain rfl := List.mem_singleton.mp ha
      rfl
  unfold runTask
  dsimp only
  split
  · exact quiet_finishTask _ _
  · split
    · split
      · exact hr _
      · exact .refl e
    · split
      · exact hr _
      · split
        · exact .refl e
        · exact .of_still rfl rfl

theorem quiet_readEvents (e : Engine) : Quiet e e.readEvents := by
  unfold readEvents
  split
  · exact .refl e
  · split
    · exact .refl e
    · split
      · exact .of_still rfl rfl
      · dsimp only
        split
        · exact .of_still rfl rfl
        · exact .of_still rfl rfl

theorem quiet_wakePutOff (e : Engine) : Quiet e e.wakePutOff := by
  unfold wakePutOff
  refine Quiet.trans (m := { e with putOff := [] }) (.of_still rfl rfl) ?_
  exact .foldl _ quiet_wake _ _

theorem quiet_moveTo (e : Engine) (moment : Nat) : Quiet e (e.moveTo moment) := by
  unfold moveTo
  split
  · exact .refl e
  · refine Quiet.trans (m := { e with now := moment, timers :=
      ((e.timers.filter e.isAwaited).partition (·.due ≤ moment)).2 }) (.of_still rfl rfl) ?_
    exact .foldl _ (fun e t => quiet_wake e _) _ _

end Engine
end Flowgraph
