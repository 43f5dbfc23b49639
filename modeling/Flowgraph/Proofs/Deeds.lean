import Flowgraph.Proofs.Passing
/-! Runs of an engine as histories of deeds: each step is an action of the agenda, a turn of somebody who has been woken, a
rest in which time passes, or something that is asked from outside. -/
namespace Flowgraph.Engine

/-- What an engine does in one step. -/
inductive Deed
  | act (a : Action)
  | turn (w : Waiter)
  /-- Time passes, or those who ran out of room are woken. -/
  | rest
  | asked

/-- What is asked of an engine between two turns. -/
inductive Asked (e : Engine) : Engine → Prop
  | call {stages : List Stage} (h : e.Offers stages) : Asked e (e.begin stages).1
  | hand (k : NodeKey) (m : Message) : Asked e (e.push [.hand k m])
  | effect (k : NodeKey) (effect : Effect) : Asked e (e.push [.effect k effect])
  | signal (j : LevelKey) (origin : Origin) (signal : Signal) : Asked e (e.raise j origin signal).1
  | keep (levels : List LevelKey) (nodes : Dict NodeKey) : Asked e { e with keptLevels := levels, keptNodes := nodes }
  | flow {kind : LevelKind} {config : FlowConfig} (hk : kind = .tab ∨ kind = .global) (hc : config.Parsed) :
      Asked e (e.addLevel (.make kind none config)).1
  | update {j : LevelKey} {config : FlowConfig} (hk : ∀ l, e.level? j = some l → l.parent = none)
      (hc : config.Parsed) : Asked e (e.modifyLevel j fun l => { l with config })
  /-- Notes and events are read, somebody else begins to read, or an id is taken for a message. -/
  | read (notes : List Note) (events : List Event) (reader : Option Reader) (nextMessage : Nat) :
      Asked e { e with notes, events, reader, nextMessage }

/-- One step of an engine. A turn begins, and something is asked, when nothing is left on the agenda; time does not run
backwards. -/
inductive Does : Engine → Deed → Engine → Prop
  | act {e : Engine} {a : Action} {agenda : List Action} (hb : e.broken = false) (ha : e.agenda = a :: agenda) :
      Does e (.act a) (Engine.act { e with agenda } a)
  | turn {e : Engine} {w : Waiter} (hb : e.broken = false) (ha : e.agenda = []) (hw : w ∈ e.ready) :
      Does e (.turn w) ({ e with ready := e.ready.filter (· != w), room := turnRoom }.runWaiter w)
  | wake {e : Engine} (ha : e.agenda = []) : Does e .rest e.wakePutOff
  | time {e : Engine} (moment : Nat) (ha : e.agenda = []) (hm : e.now ≤ moment) : Does e .rest (e.moveTo moment)
  | asked {e e' : Engine} (ha : e.agenda = []) (h : Asked e e') : Does e .asked e'

variable {e e' e'' : Engine} {k : NodeKey} {m : Message} {d : Deed} {a : Action} {key : TaskKey} {p : Pending}

theorem Asked.input (h : Asked e e') : Input e e' := by
  cases h with
  | call h => exact .call h
  | hand k m => exact .quiet (.push e _ (by simp [Action.isQuiet]))
  | effect k effect => exact .quiet (.push e _ (by simp [Action.isQuiet]))
  | signal j origin signal => exact .quiet (quiet_raise e j origin signal)
  | keep levels nodes => exact .keep levels nodes
  | flow hk hc => exact .flow hk hc
  | update hk hc => exact .update hk hc
  | read notes events reader nextMessage => exact .quiet (.of_still rfl rfl)

theorem Does.reachable (h : Does e d e') (hr : Reachable e) : Reachable e' := by
  cases h with
  | act hb ha => exact hr.tick (.act hb ha)
  | turn hb ha hw => exact hr.tick (.turn hb ha hw)
  | wake ha => exact hr.tick (.wake ha)
  | time moment => exact hr.tick (.time moment)
  | asked ha h => exact hr.input ha h.input

theorem Does.grows (h : Does e d e') : Grows e e' := by
  cases h with
  | act hb ha => exact (Tick.act hb ha).grows
  | turn hb ha hw => exact (Tick.turn hb ha hw).grows
  | wake ha => exact (Tick.wake ha).grows
  | time moment => exact (Tick.time moment).grows
  | asked ha h => exact h.input.grows

/-- As long as something is on the agenda, it is done. -/
theorem Does.of_agenda (h : Does e d e') {agenda : List Action} (ha : e.agenda = a :: agenda) :
    d = .act a ∧ e' = Engine.act { e with agenda } a := by
  cases h with
  | act hb ha' =>
    rw [ha] at ha'
    obtain ⟨rfl, rfl⟩ := List.cons.inj ha'
    exact ⟨rfl, rfl⟩
  | turn hb ha' => rw [ha] at ha'; cases ha'
  | wake ha' => rw [ha] at ha'; cases ha'
  | time _ ha' => rw [ha] at ha'; cases ha'
  | asked ha' => rw [ha] at ha'; cases ha'

theorem Does.exists_agenda (h : Does e (.act a) e') : ∃ agenda, e.agenda = a :: agenda := by
  cases h with
  | act hb ha => exact ⟨_, ha⟩

/-! ## The turn of a task -/

/-- The node of a task has been told to stop. -/
def isCancelled (e : Engine) (k : NodeKey) : Bool := ((e.node? k).map (·.cancelled)).getD true

/-- What the turn of a task comes to. -/
inductive RunsTask (e : Engine) (p : Pending) : Engine → Prop
  /-- It is given up, since its node has been told to stop. -/
  | drops (ha : p.task.abandons = true) (hc : e.isCancelled p.owner = true) : RunsTask e p (e.finishTask p.key)
  | resumes (hk : (p.task.abandons && e.isCancelled p.owner) = false) :
      RunsTask e p (e.push ((p.task.resume (e.isCancelled p.owner)).map (.effect p.owner) ++ [.finishTask p.key]))
  /-- It has been woken too early. -/
  | dozes (hk : (p.task.abandons && e.isCancelled p.owner) = false)
      (hw : ∀ ms, p.task.wait = .time ms → ∃ due, p.due = some due ∧ e.now < due) : RunsTask e p e
  /-- It begins to wait. -/
  | sleeps {ms : Nat} (hk : (p.task.abandons && e.isCancelled p.owner) = false) (hw : p.task.wait = .time ms)
      (hpos : 0 < ms) (hd : p.due = none) :
      RunsTask e p { e with
        tasks := e.tasks.map fun q => if q.key = p.key then { q with due := some (e.now + ms) } else q
        timers := e.timers ++ [⟨e.now + ms, .task p.key⟩] }

theorem runsTask_runTask (e : Engine) (p : Pending) : RunsTask e p (e.runTask p) := by
  unfold runTask
  change RunsTask e p (if p.task.abandons && e.isCancelled p.owner then _ else _)
  cases hk : p.task.abandons && e.isCancelled p.owner with
  | true =>
    obtain ⟨ha, hc⟩ := Bool.and_eq_true_iff.mp hk
    exact .drops ha hc
  | false =>
    rw [if_neg Bool.false_ne_true]
    split
    · rename_i hw
      split
      · exact .resumes hk
      · exact .dozes hk fun ms h => by rw [hw] at h; cases h
    · rename_i ms hw
      split
      · exact .resumes hk
      · rename_i hlate
        cases hd : p.due with
        | some due =>
          rw [hd] at hlate
          exact .dozes hk fun ms' _ => ⟨due, hd, Nat.lt_of_not_le hlate⟩
        | none =>
          rw [hd] at hlate
          exact .sleeps hk hw (Nat.pos_of_lt_add_right (Nat.lt_of_not_le hlate)) hd

/-- What the turn of somebody who has been woken comes to. -/
inductive Turns (e : Engine) : Waiter → Engine → Prop
  | call (key : CallKey) : Turns e (.call key) (e.push [.resume key])
  | reader {e' : Engine} (hl : e'.lent = e.lent) (ht : Tranquil [] e e') (ha : e'.agenda = e.agenda) :
      Turns e .reader e'
  | nobody {key : TaskKey} (h : e.tasks.find? (·.key == key) = none) : Turns e (.task key) e
  | task {key : TaskKey} {p : Pending} {e' : Engine} (h : e.tasks.find? (·.key == key) = some p)
      (hr : RunsTask e p e') : Turns e (.task key) e'

theorem turns_runWaiter (e : Engine) (w : Waiter) : Turns e w (e.runWaiter w) := by
  cases w with
  | call key => exact .call key
  | reader =>
    have hframe : e.readEvents.lent = e.lent ∧ e.readEvents.agenda = e.agenda := by
      unfold readEvents
      split
      · exact ⟨rfl, rfl⟩
      · split
        · exact ⟨rfl, rfl⟩
        · split
          · exact ⟨rfl, rfl⟩
          · dsimp only
            split <;> exact ⟨rfl, rfl⟩
    exact .reader hframe.1 (tranquil_readEvents e) hframe.2
  | task key =>
    unfold runWaiter
    dsimp only
    split
    · rename_i p hp
      exact .task hp (runsTask_runTask e p)
    · rename_i hnone
      exact .nobody hnone

/-- The engine in which somebody has a turn. -/
def turned (e : Engine) (w : Waiter) : Engine := { e with ready := e.ready.filter (· != w), room := turnRoom }

theorem Does.turns {w : Waiter} (h : Does e (.turn w) e') :
    e.broken = false ∧ e.agenda = [] ∧ w ∈ e.ready ∧ Turns (e.turned w) w e' := by
  cases h with
  | turn hb ha hw => exact ⟨hb, ha, hw, turns_runWaiter _ w⟩

/-! ## What each deed puts on the agenda -/

/-- Plans and messages are never on the agenda together. -/
def Unmixed (e : Engine) : Prop := (∀ a ∈ e.agenda, a.plans = true) ∨ ∀ a ∈ e.agenda, a.plans = false

theorem Unmixed.of_plan (h : Unmixed e) (ha : a ∈ e.agenda) (hp : a.plans = true) : ∀ b ∈ e.agenda, b.plans = true :=
  h.resolve_right fun hall => by
    rw [hall a ha] at hp
    cases hp

theorem Unmixed.of_message (h : Unmixed e) (ha : a ∈ e.agenda) (hp : a.plans = false) :
    ∀ b ∈ e.agenda, b.plans = false :=
  h.resolve_left fun hall => by
    rw [hall a ha] at hp
    cases hp

/-- What an action of messages and tasks puts on the agenda: messages that are passed on, or what a node does with the
message that it takes up, and the end of its handling. -/
inductive Pushes (e : Engine) : Action → List Action → Prop
  | passes {a : Action} {pushed : List Action} (h : ∀ k m, a = .hand k m → ∀ node b, ¬TakesUp e k node b)
      (hp : ∀ b ∈ pushed, b.Passes) : Pushes e a pushed
  | takes {k : NodeKey} {m : Message} {node : Node} {b : Behaviour} (h : TakesUp e k node b) :
      Pushes e (.hand k m) ((b.onInput (e.situation k node) m).effects.map (.effect k) ++
        [.conclude k m (b.onInput (e.situation k node) m).outcome])

theorem Pushes.plans {pushed : List Action} (h : Pushes e a pushed) : ∀ b ∈ pushed, b.plans = false := by
  intro b hb
  cases h with
  | passes _ hp => exact (hp b hb).plans
  | takes =>
    rcases List.mem_append.mp hb with hb | hb
    · obtain ⟨x, -, rfl⟩ := List.mem_map.mp hb
      rfl
    · obtain rfl := List.mem_singleton.mp hb
      rfl

theorem agenda_foldl_startTask (k : NodeKey) (tasks : List Task) (e : Engine) :
    (tasks.foldl (fun e task => e.startTask k task) e).agenda = e.agenda :=
  List.foldlRecOn tasks _ (motive := fun s => s.agenda = e.agenda) rfl
    fun s hs task _ => (silent_startTask s k task).agenda.trans hs

theorem pushes_act (e : Engine) (hp : a.plans = false) : ∃ pushed, (e.act a).agenda = pushed ++ e.agenda ∧ Pushes e a pushed := by
  by_cases h : ∃ k m node b, a = .hand k m ∧ TakesUp e k node b
  · obtain ⟨k, m, node, b, rfl, ht⟩ := h
    refine ⟨_, ?_, .takes ht⟩
    change (e.hand k m).agenda = _
    rw [ht.hand_eq m]
    exact congrArg (_ ++ ·) (agenda_foldl_startTask k _ e)
  · have hno (k : NodeKey) (m : Message) (he : a = .hand k m) (node : Node) (b : Behaviour) : ¬TakesUp e k node b :=
      fun ht => h ⟨k, m, node, b, he, ht⟩
    obtain ⟨pushed, ha, hpass⟩ := passesOn_act e hp hno
    exact ⟨pushed, ha, .passes hno hpass⟩

/-- What a deed puts on an agenda on which there are no plans. -/
inductive Brought (e : Engine) : Deed → List Action → Prop
  | nothing (d : Deed) : Brought e d []
  | act {a : Action} {pushed : List Action} (h : Pushes { e with agenda := e.agenda.tail } a pushed) :
      Brought e (.act a) pushed
  | call (key : CallKey) : Brought e (.turn (.call key)) [.resume key]
  | task {key : TaskKey} {p : Pending} (h : e.tasks.find? (·.key == key) = some p)
      (hk : (p.task.abandons && e.isCancelled p.owner) = false) :
      Brought e (.turn (.task key))
        ((p.task.resume (e.isCancelled p.owner)).map (.effect p.owner) ++ [.finishTask p.key])
  | asked {pushed : List Action} (h : ∀ b ∈ pushed, b.Passes ∨ ∃ k effect, b = .effect k effect) :
      Brought e .asked pushed

theorem Asked.brought (h : Asked e e') : ∃ pushed, e'.agenda = pushed ++ e.agenda ∧ Brought e .asked pushed := by
  cases h with
  | call h => exact ⟨[], agenda_wake _ _, .nothing _⟩
  | hand k m => exact ⟨_, rfl, .asked fun b hb => .inl (List.mem_singleton.mp hb ▸ .hand k m)⟩
  | effect k effect => exact ⟨_, rfl, .asked fun b hb => .inr ⟨k, effect, List.mem_singleton.mp hb⟩⟩
  | signal j origin signal =>
    obtain ⟨pushed, ha, hp⟩ := (conveysOn_raise e j origin signal).passesOn
    exact ⟨pushed, ha, .asked fun b hb => .inl (hp b hb)⟩
  | keep => exact ⟨[], rfl, .nothing _⟩
  | flow => exact ⟨[], rfl, .nothing _⟩
  | update => exact ⟨[], rfl, .nothing _⟩
  | read => exact ⟨[], rfl, .nothing _⟩

theorem Turns.brought {w : Waiter} (h : Turns (e.turned w) w e') :
    ∃ pushed, e'.agenda = pushed ++ e.agenda ∧ Brought e (.turn w) pushed := by
  cases h with
  | call key => exact ⟨_, rfl, .call key⟩
  | reader _ _ ha => exact ⟨[], ha, .nothing _⟩
  | nobody => exact ⟨[], rfl, .nothing _⟩
  | task h hr =>
    cases hr with
    | drops => exact ⟨[], (finishTask_frame _ _).1, .nothing _⟩
    | resumes hk => exact ⟨_, rfl, .task h hk⟩
    | dozes => exact ⟨[], rfl, .nothing _⟩
    | sleeps => exact ⟨[], rfl, .nothing _⟩

theorem moveTo_frame (e : Engine) (moment : Nat) : (e.moveTo moment).agenda = e.agenda ∧ (e.moveTo moment).lent = e.lent := by
  unfold moveTo
  split
  · exact ⟨rfl, rfl⟩
  · exact foldl_wake_frame (fun t : Timer => alarmWaiter t.alarm) _ _

theorem wakePutOff_frame (e : Engine) : e.wakePutOff.agenda = e.agenda ∧ e.wakePutOff.lent = e.lent :=
  foldl_wake_frame (fun w : Waiter => w) e.putOff { e with putOff := [] }

theorem Does.brought (h : Does e d e') (hm : ∀ a ∈ e.agenda, a.plans = false) :
    ∃ pushed, e'.agenda = pushed ++ e.agenda.tail ∧ Brought e d pushed := by
  cases h with
  | @act a agenda hb ha =>
    obtain ⟨pushed, hpush, hp⟩ := pushes_act { e with agenda } (hm a (ha ▸ List.mem_cons_self))
    have htail : e.agenda.tail = agenda := by rw [ha]; rfl
    exact ⟨pushed, htail ▸ hpush, .act (htail ▸ hp)⟩
  | turn hb ha hw =>
    obtain ⟨pushed, hpush, hp⟩ := (turns_runWaiter (e.turned _) _).brought
    exact ⟨pushed, by rw [ha, List.tail_nil, ← ha]; exact hpush, hp⟩
  | wake ha => exact ⟨[], by rw [ha, List.tail_nil, (wakePutOff_frame e).1, ha]; rfl, .nothing _⟩
  | time moment ha => exact ⟨[], by rw [ha, List.tail_nil, (moveTo_frame e moment).1, ha]; rfl, .nothing _⟩
  | asked ha h =>
    obtain ⟨pushed, hpush, hp⟩ := h.brought
    exact ⟨pushed, by rw [ha, List.tail_nil, ← ha]; exact hpush, hp⟩

/-- Plans lead to plans. -/
theorem Does.plots (h : Does e d e') (hi : e.registry.Idle) (hne : e.agenda ≠ [])
    (hp : ∀ a ∈ e.agenda, a.plans = true) : ∀ b ∈ e'.agenda, b.plans = true := by
  obtain ⟨a, agenda, ha⟩ := List.exists_cons_of_ne_nil hne
  obtain ⟨-, rfl⟩ := h.of_agenda ha
  rw [ha] at hp
  have hplots := plots_act (e := { e with agenda }) hi (hp a List.mem_cons_self)
  exact fun b hb => (hplots b hb).elim (fun hb => hp b (List.mem_cons_of_mem _ hb)) id

theorem Does.unmixed (h : Does e d e') (hi : e.registry.Idle) (hu : Unmixed e) : Unmixed e' := by
  by_cases hm : ∀ a ∈ e.agenda, a.plans = false
  · obtain ⟨pushed, ha, hb⟩ := h.brought hm
    have hrest (hp : ∀ b ∈ pushed, b.plans = false) : Unmixed e' := .inr fun b hb => by
      rw [ha] at hb
      exact (List.mem_append.mp hb).elim (hp b) fun hb => hm b (List.mem_of_mem_tail hb)
    cases hb with
    | nothing => exact hrest nofun
    | act hp => exact hrest hp.plans
    | call key =>
      have hnone : e.agenda = [] := h.turns.2.1
      exact .inl (by simp [ha, hnone, Action.plans])
    | task =>
      refine hrest fun b hb => ?_
      rcases List.mem_append.mp hb with hb | hb
      · obtain ⟨x, -, rfl⟩ := List.mem_map.mp hb
        rfl
      · obtain rfl := List.mem_singleton.mp hb
        rfl
    | asked hp =>
      refine hrest fun b hb => ?_
      rcases hp b hb with hp | ⟨k, effect, rfl⟩
      · exact hp.plans
      · rfl
  · have hne : e.agenda ≠ [] := fun hnone => hm (by simp [hnone])
    exact .inl (h.plots hi hne (hu.resolve_right hm))

end Flowgraph.Engine
