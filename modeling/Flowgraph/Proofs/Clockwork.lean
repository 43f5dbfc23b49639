import Flowgraph.Proofs.AllOrNothing
import Flowgraph.Proofs.Outset
/-! What keeps a stop going. Whatever happens beside it, no signal of a node that it waits for is missed, and no timer
is lost; so the call is roused when there is something to be done about its nodes. -/
namespace Flowgraph.Engine

variable {e e' e'' m : Engine} {i j k : LevelKey} {n : NodeKey} {key : CallKey} {ns : List NodeKey}

/-! ## Nobody gives a signal -/

theorem tranquil_push (e : Engine) (actions : List Action) : Tranquil ns e (e.push actions) :=
  .of_signals rfl (Nat.le_refl _) (fun _ h => h) (fun _ h => h) (fun _ h => h) fun _ => rfl

theorem tranquil_modifyCall (e : Engine) (key : CallKey) (f : Call → Call) : Tranquil ns e (e.modifyCall key f) :=
  .of_signals rfl (Nat.le_refl _) (fun _ h => h) (fun _ h => h) (fun _ h => h) fun _ => rfl

theorem tranquil_finishTask (e : Engine) (key : TaskKey) : Tranquil ns e (e.finishTask key) := by
  unfold finishTask
  split
  · exact .refl ns e
  · have hgone : Tranquil ns e { e with tasks := e.tasks.filter (·.key != key) } :=
      .of_signals rfl (Nat.le_refl _) (fun _ h => h) (fun _ h => h) (fun _ h => h) fun _ => rfl
    exact hgone.trans (.foldl _ (fun e key => tranquil_wake e _) _ _)

theorem tranquil_leave (e : Engine) (origin : Origin) (signal : Signal) : Tranquil ns e (e.leave origin signal) := by
  unfold leave
  split
  · exact tranquil_note _ _
  · exact tranquil_note _ _
  · exact tranquil_note _ _
  · exact tranquil_publish _ _
  · exact .refl ns e

theorem tranquil_raise (e : Engine) (k : LevelKey) (origin : Origin) (signal : Signal) :
    Tranquil ns e (e.raise k origin signal).1 := by
  unfold raise
  split
  · exact .refl ns e
  · split
    · rename_i level receivers _
      have hid : Tranquil ns e { e with nextMessage := e.nextMessage + receivers.length } :=
        .of_signals rfl (Nat.le_refl _) (fun _ h => h) (fun _ h => h) (fun _ h => h) fun _ => rfl
      exact hid.trans (tranquil_push _ _)
    · exact tranquil_leave _ _ _
    · exact .refl ns e
    · exact .refl ns e

/-- What a node does gives no signal, unless it is its close signal. -/
theorem tranquil_perform (e : Engine) (k : NodeKey) {effect : Effect} (h : ∀ result, effect ≠ .closed result) :
    Tranquil ns e (e.perform k effect) := by
  unfold perform
  cases e.node? k with
  | none => exact .refl ns e
  | some n =>
    cases effect with
    | note entry => exact tranquil_note _ _
    | closed result => exact absurd rfl (h result)
    | send port m =>
      dsimp only
      split
      · exact tranquil_push _ _
      · exact .refl ns e
    | status status =>
      dsimp only
      split
      · exact (tranquil_publish _ _).trans (tranquil_raise _ _ _ _)
      · exact .refl ns e
    | error text about =>
      dsimp only
      split
      · exact tranquil_raise _ _ _ _
      · exact .refl ns e
    | complete m =>
      dsimp only
      split
      · exact tranquil_raise _ _ _ _
      · exact .refl ns e

theorem tranquil_reportPort (e : Engine) (inst : LevelKey) (port : PortKind) (m : Message) :
    Tranquil ns e (e.reportPort inst port m) := by
  unfold reportPort
  split
  · rename_i p _ _
    cases e.level? p with
    | none => exact .refl ns e
    | some around =>
      cases port with
      | status => exact (tranquil_publish _ _).trans (tranquil_raise _ _ _ _)
      | complete => exact tranquil_raise _ _ _ _
  · exact .refl ns e

theorem tranquil_hand (e : Engine) (k : NodeKey) (m : Message) : Tranquil ns e (e.hand k m) := by
  unfold hand
  cases e.node? k with
  | none => exact .refl ns e
  | some n =>
    dsimp only
    split
    · exact .refl ns e
    · split
      · exact Tranquil.trans (.foldl _ (fun e task => tranquil_startTask e k task) _ _) (tranquil_push _ _)
      · exact tranquil_push _ _
      · split
        · exact tranquil_push _ _
        · exact .refl ns e
      · split
        · exact tranquil_reportPort _ _ _ _
        · exact .refl ns e

theorem tranquil_conclude (e : Engine) (k : NodeKey) (m : Message) (outcome : Outcome) :
    Tranquil ns e (e.conclude k m outcome) := by
  cases outcome with
  | handled =>
    unfold conclude
    dsimp only
    split
    · split
      · exact tranquil_perform _ _ fun _ h => by cases h
      · exact .refl ns e
    · exact .refl ns e
  | deferred => exact .refl ns e
  | failed fault =>
    unfold conclude
    exact tranquil_perform _ _ fun _ h => by cases h

/-- No action of messages and tasks gives a signal, unless it is the close signal of a node. -/
theorem tranquil_act (e : Engine) {a : Action} (hq : a.isQuiet = true)
    (h : ∀ k result, a ≠ .effect k (.closed result)) :
    Tranquil ns e (e.act a) := by
  cases a with
  | hand k m => exact tranquil_hand e k m
  | handAt k id m =>
    change Tranquil ns e (e.handAt k id m)
    unfold handAt
    split
    · exact tranquil_push _ _
    · exact .refl ns e
  | deliver k id m =>
    change Tranquil ns e (e.deliver k id m)
    unfold deliver
    split
    · exact tranquil_push _ _
    · exact .refl ns e
  | effect k effect => exact tranquil_perform e k fun result he => h k result (he ▸ rfl)
  | conclude k m outcome => exact tranquil_conclude e k m outcome
  | announce k =>
    change Tranquil ns e (e.announce k)
    unfold announce
    split
    · exact .refl ns e
    · exact tranquil_publish _ _
  | finishTask key => exact tranquil_finishTask e key
  | create k r templates => cases hq
  | install k r inst => cases hq
  | refresh k => cases hq
  | resume key => cases hq

/-! ## The making of nodes -/

/-- Everything on the agenda stays there, unless the engine breaks. -/
def Remembers (e e' : Engine) : Prop := e'.broken = false → ∀ a ∈ e.agenda, a ∈ e'.agenda

theorem Remembers.of_eq (h : e'.agenda = e.agenda) : Remembers e e' := fun _ _ ha => h ▸ ha

theorem Remembers.push (e : Engine) (actions : List Action) : Remembers e (e.push actions) := fun _ _ ha =>
  List.mem_append_right _ ha

theorem tranquil_failCreation (e : Engine) (k : LevelKey) (r : Record) (fault : NodeFault) :
    Tranquil ns e (e.failCreation k r fault) := by
  unfold failCreation
  split
  · exact .refl ns e
  · exact (tranquil_publish _ _).trans (tranquil_modifyLevel _ _ _)

theorem tranquil_enter (e : Engine) (k : LevelKey) (r : Record) (part : Part) : Tranquil ns e (e.enter k r part) := by
  have hsignal (n : NodeKey) : (e.enter k r part).signal? n = e.signal? n := by
    unfold signal?
    rw [node?_enter]
    split
    · rename_i hn
      have hnone : e.node? n = none := by simp [node?, hn]
      rw [hnone]
      rfl
    · rfl
  unfold enter at *
  cases part <;> exact .of_signals rfl (Nat.le_refl _) (fun _ h => h) (fun _ h => h) (fun _ h => h) hsignal

theorem remembers_enter (e : Engine) (k : LevelKey) (r : Record) (part : Part) : Remembers e (e.enter k r part) := by
  unfold enter
  cases part with
  | ordinary b => exact fun _ a ha => List.mem_append_right _ ha
  | _ => exact .of_eq rfl

theorem tranquil_activated (e : Engine) (k : LevelKey) (c : FlowConfig) (order : List Nat) :
    Tranquil ns e (e.activated k c order) := (tranquil_modifyLevel e k _).trans (tranquil_push _ _)

theorem tranquil_withInstance (e : Engine) (k : LevelKey) (l : Level) (b : Binding) (nodes : List Record) :
    Tranquil ns e (e.withInstance k l b nodes) :=
  .of_signals rfl (Nat.le_refl _) (fun _ h => h) (fun _ h => h) (fun _ h => h) fun _ => rfl

theorem Opens.tranquil {usage : Record} {t : Template} (h : Opens e k usage t e') :
    Tranquil ns e e' ∧ Remembers e e' := by
  cases h with
  | nowhere => exact ⟨.refl ns e, .of_eq rfl⟩
  | breaks =>
    exact ⟨.of_signals rfl (Nat.le_refl _) (fun _ h => h) (fun _ h => h) (fun _ h => h) fun _ => rfl,
      fun hb => by cases hb⟩
  | collapses hl hx ho =>
    exact ⟨(tranquil_withInstance e k _ _ _).trans (tranquil_failCreation _ _ _ _),
      .of_eq (agenda_failCreation _ _ _ _)⟩
  | opens hl hx ho =>
    exact ⟨((tranquil_withInstance e k _ _ _).trans (tranquil_push _ _)).trans (tranquil_activated _ _ _ _),
      fun _ a ha => List.mem_append_right _ (List.mem_cons_of_mem _ ha)⟩

theorem Creates.tranquil {r : Record} {templates : Templates} (h : Creates e k r templates e') :
    Tranquil ns e e' ∧ Remembers e e' := by
  cases h with
  | present => exact ⟨.refl ns e, .of_eq rfl⟩
  | noTemplate => exact ⟨tranquil_failCreation _ _ _ _, .of_eq (agenda_failCreation _ _ _ _)⟩
  | refused => exact ⟨tranquil_failCreation _ _ _ _, .of_eq (agenda_failCreation _ _ _ _)⟩
  | @made part notes =>
    exact ⟨(tranquil_note e notes).trans (tranquil_enter _ _ _ _), remembers_enter (e.note notes) _ _ _⟩
  | usage _ _ _ ho => exact ho.tranquil

/-- The making of nodes gives no signals and forgets nothing that is to be done. -/
theorem tranquil_makes (e : Engine) {a : Action} (hm : a.makes = true) :
    Tranquil ns e (e.act a) ∧ Remembers e (e.act a) := by
  cases a with
  | create k r templates => exact (creates_create e k r templates).tranquil
  | install k r i =>
    have hl : Tranquil ns e (e.modifyLevel k fun l => { l with instances := l.instances.insert r.id i }) :=
      tranquil_modifyLevel e k _
    exact ⟨hl.trans (tranquil_enter _ k r (.standIn i)), remembers_enter (e.modifyLevel k fun l =>
      { l with instances := l.instances.insert r.id i }) k r (.standIn i)⟩
  | refresh k => exact ⟨tranquil_refresh e k, .of_eq (Stops.agenda (stops_refresh e k))⟩
  | _ => cases hm

/-! ## Calls that stop nothing -/

theorem Rewires.tranquil (h : Rewires e e') : Tranquil ns e e' := by
  refine h.invariant (P := Tranquil ns e) (fun s s' hs ht => hs.trans ?_) (.refl ns e)
  cases ht with
  | note notes => exact tranquil_note _ _
  | wires k wires => exact tranquil_modifyNode (f := fun n => { n with dispatch := .ofWires wires }) (fun _ => rfl) _ _
  | nodes => exact tranquil_modifyLevel _ _ _
  | breaks => exact .of_signals rfl (Nat.le_refl _) (fun _ h => h) (fun _ h => h) (fun _ h => h) fun _ => rfl

theorem tranquil_rewired (e : Engine) (k : LevelKey) (config : FlowConfig) (diff : Option Diff) :
    Tranquil ns e (e.rewired k config diff) := by
  cases diff with
  | none => exact tranquil_modifyLevel e k _
  | some d => exact ((rewires_rewire e k config d).tranquil).trans (tranquil_modifyLevel _ k _)

theorem tranquil_proceed (e : Engine) (key : CallKey) (stages : List Stage) : Tranquil ns e (e.proceed key stages) :=
  (tranquil_modifyCall e key _).trans (tranquil_push _ _)

theorem tranquil_refuse (e : Engine) (key : CallKey) (fault : FlowFault) : Tranquil ns e (e.refuse key fault) :=
  (tranquil_modifyCall e key _).trans (tranquil_push _ _)

theorem Starts.tranquil {diff : Option Diff} (h : Starts e key k diff e') : Tranquil ns e e' := by
  cases h with
  | nowhere => exact tranquil_proceed _ _ _
  | refused => exact tranquil_refuse _ _ _
  | fresh => exact (tranquil_modifyLevel e k _).trans (tranquil_proceed _ _ _)
  | again => exact tranquil_proceed _ _ _

theorem Applies.tranquil {config : FlowConfig} {diff : Option Diff} (h : Applies e key k config diff e') :
    Tranquil ns e e' := by
  have hr : Tranquil ns e (e.rewired k config diff) := tranquil_rewired e k config diff
  cases h with
  | nowhere => exact hr.trans (tranquil_push _ _)
  | activates => exact (hr.trans (tranquil_push _ _)).trans (tranquil_activated _ _ _ _)
  | refused => exact hr.trans (tranquil_refuse _ _ _)

/-- A stage of a call that stops nothing gives no signals. -/
theorem tranquil_runStage (e : Engine) (key : CallKey) {stage : Stage} (hs : stage.requests? e = none) :
    Tranquil ns e (e.runStage key stage) := by
  have hsame {s : Engine} (hn : s.nodes = e.nodes) (hw : s.now = e.now) (hr : s.room = e.room)
      (ht : s.timers = e.timers)
      (hready : s.ready = e.ready) (hp : s.putOff = e.putOff) : Tranquil ns e (s.proceed key []) := by
    have hst : Tranquil ns e s := .of_signals hw (Nat.le_of_eq hr) (fun _ h => ht ▸ h) (fun _ h => hready ▸ h)
      (fun _ h => hp ▸ h) fun n => by rw [signal?, signal?, node?, node?, hn]
    exact hst.trans (tranquil_proceed _ _ _)
  cases stage with
  | stop requests => cases hs
  | stopAmong levels ids removed => cases hs
  | start k diff => exact (starts_start e key k diff).tranquil
  | apply k config diff => exact (applies_apply e key k config diff).tranquil
  | update k config => exact (tranquil_modifyLevel e k _).trans (tranquil_proceed _ _ _)
  | deployNodes previous next diff => exact (tranquil_modifyCall e key _).trans (tranquil_proceed _ _ _)
  | stopAll =>
    have hst : Tranquil ns e { e with flows := [], global := none } :=
      .of_signals rfl (Nat.le_refl _) (fun _ h => h) (fun _ h => h) (fun _ h => h) fun _ => rfl
    exact (hst.trans (tranquil_modifyCall _ key _)).trans (tranquil_proceed _ _ _)
  | startAll next =>
    change Tranquil ns e (e.startAll key next)
    unfold startAll
    split
    · exact tranquil_refuse _ _ _
    · have hst : Tranquil ns e { (e.addLevel (.make .global none next.global)).1 with
          global := some (e.addLevel (.make .global none next.global)).2 } :=
        .of_signals rfl (Nat.le_refl _) (fun _ h => h) (fun _ h => h) (fun _ h => h) fun _ => rfl
      exact (hst.trans (tranquil_modifyCall _ key _)).trans (tranquil_proceed _ _ _)
  | startTab config listed =>
    change Tranquil ns e (e.startTab key config listed)
    unfold startTab
    split
    · exact tranquil_proceed _ _ _
    · have hst : Tranquil ns e (e.addLevel (.make .tab none config)).1 :=
        .of_signals rfl (Nat.le_refl _) (fun _ h => h) (fun _ h => h) (fun _ h => h) fun _ => rfl
      exact (hst.trans (tranquil_modifyCall _ key _)).trans (tranquil_proceed _ _ _)
  | enlist k => exact hsame (s := { e with flows := e.flows ++ [k] }) rfl rfl rfl rfl rfl rfl
  | gather k => exact (tranquil_modifyCall e key _).trans (tranquil_proceed _ _ _)
  | enlistGathered =>
    rw [runStage_enlistGathered]
    exact hsame (s := { e with flows := e.gathered key }) rfl rfl rfl rfl rfl rfl
  | commit next => exact hsame (s := { e with deployed := some next }) rfl rfl rfl rfl rfl rfl
  | withdraw => exact hsame (s := { e with deployed := none }) rfl rfl rfl rfl rfl rfl
  | stuck => exact tranquil_modifyCall e key fun c => { c with stages := .stuck :: c.stages }

/-! ## Calls that stop something -/

theorem tranquil_pollStops (key : CallKey) (stops : List Stopping) (s : Engine × List Stopping) :
    Tranquil ((stops.flatMap Stopping.orders).map (·.node)) s.1 (pollStops key s stops).1 := by
  induction stops generalizing s with
  | nil => exact .refl _ s.1
  | cons stop stops ih =>
    rw [List.flatMap_cons, List.map_append]
    have hs := tranquil_pollStop key s.1 stop
    exact (hs.mono (List.subset_append_left _ _)).trans
      ((ih ((pollStop key s.1 stop).1, s.2 ++ [(pollStop key s.1 stop).2])).mono (List.subset_append_right _ _))

theorem tranquil_afterStops (e : Engine) (key : CallKey) (stops : List Stopping) :
    Tranquil ns e (e.afterStops key stops) := by
  unfold afterStops
  dsimp only
  split
  · have hm : Tranquil ns e (e.modifyCall key fun c => { c with waiting := stops }) := tranquil_modifyCall e key _
    split
    · exact hm.trans (.of_signals rfl (Nat.le_refl _) (fun _ h => h) (fun _ h => h)
        (fun _ h => List.mem_cons_of_mem _ h) fun _ => rfl)
    · exact hm
  · exact (tranquil_modifyCall e key _).trans (tranquil_push _ _)

/-! ## Calls that are roused -/

/-- The call goes on before time does. -/
def Roused (e : Engine) (key : CallKey) : Prop :=
  .call key ∈ e.ready ∨ .call key ∈ e.putOff ∨ .resume key ∈ e.agenda

/-- Nothing is missed that concerns these nodes, for which the call waits. -/
structure Heeds (key : CallKey) (ns : List NodeKey) (e e' : Engine) : Prop where
  now : e'.now = e.now
  timers : ∀ t ∈ e.timers, t ∈ e'.timers
  kept : ∀ n r, e.signal? n = some r → e'.signal? n = some r
  roused : e.Roused key → e'.Roused key
  heard : ∀ n ∈ ns, e'.signal? n = e.signal? n ∨ e'.Roused key

theorem Tranquil.heeds {qs : List NodeKey} (h : Tranquil qs e e') (hd : ∀ n ∈ ns, n ∉ qs)
    (ha : .resume key ∈ e.agenda → .resume key ∈ e'.agenda) : Heeds key ns e e' :=
  ⟨h.now, h.timers, h.kept, Or.imp (h.ready _) (Or.imp (h.putOff _) ha), fun n hn => .inl (h.frame n (hd n hn))⟩

/-- The call waits for these nodes. -/
def Attends (e : Engine) (key : CallKey) (ns : List NodeKey) : Prop :=
  ∀ n ∈ ns, ∃ c, e.call? key = some c ∧ ∃ s ∈ c.waiting, n ∈ s.nodes

/-- Everyone in a list is woken. -/
theorem mem_ready_foldl_wake {α : Type} (f : α → Waiter) (xs : List α) (e : Engine) {w : Waiter}
    (h : w ∈ e.ready ∨ w ∈ xs.map f) : w ∈ (xs.foldl (fun e x => e.wake (f x)) e).ready := by
  induction xs generalizing e with
  | nil => exact h.resolve_right List.not_mem_nil
  | cons x xs ih =>
    have hst : Tranquil [] e (e.wake (f x)) := tranquil_wake _ _
    refine ih (e.wake (f x)) ?_
    rcases h with h | h
    · exact .inl (hst.ready w h)
    · rcases List.mem_cons.mp h with rfl | h
      · exact .inl (mem_ready_wake _ _)
      · exact .inr h

/-- The signal of a node rouses the calls that wait for it. -/
theorem heeds_signalClosed (e : Engine) (k : NodeKey) (result : CloseResult) (h : e.Attends key ns) :
    Heeds key ns e (e.signalClosed k result) := by
  have hnoted : Tranquil [k] e (e.noteSignal k result) := tranquil_noteSignal e k result
  have hst : Tranquil [k] e (e.signalClosed k result) := hnoted.trans (.foldl _ (fun e entry => tranquil_wake e _) _ _)
  refine ⟨hst.now, hst.timers, hst.kept, Or.imp (hst.ready _) (Or.imp (hst.putOff _) fun ha => ?_), fun n hn => ?_⟩
  · have hq := quiet_signalClosed e k result
    obtain ⟨pushed, hpush, -⟩ := hq.pushes
    rw [hpush]
    exact List.mem_append_right _ ha
  · by_cases hk : n = k
    · subst hk
      obtain ⟨c, hc, s, hs, hmem⟩ := h n hn
      refine .inr (.inl (mem_ready_foldl_wake (fun entry : CallKey × Call => .call entry.1) _ _ (.inr ?_)))
      refine List.mem_map.mpr ⟨(key, c), List.mem_filter.mpr ⟨mem_calls_of_call? hc, ?_⟩, rfl⟩
      exact List.any_eq_true.mpr ⟨s, hs, by simpa using hmem⟩
    · exact .inl (hst.frame n (by simpa using hk))

/-- No action of messages and tasks is missed. -/
theorem heeds_act {a : Action} (hq : a.isQuiet = true) (h : e.Attends key ns) : Heeds key ns e (e.act a) := by
  by_cases hc : ∃ k result, a = .effect k (.closed result)
  · obtain ⟨k, result, rfl⟩ := hc
    change Heeds key ns e (e.perform k (.closed result))
    unfold perform
    split
    · exact Tranquil.heeds (.refl [] e) (fun _ _ => List.not_mem_nil) id
    · exact heeds_signalClosed e k result h
  · have hst : Tranquil [] e (e.act a) := tranquil_act e hq fun k result he => hc ⟨k, result, he⟩
    obtain ⟨pushed, hpush, -⟩ := (quiet_act e hq).pushes
    refine hst.heeds (fun _ _ => List.not_mem_nil) fun ha => ?_
    rw [hpush]
    exact List.mem_append_right _ ha

/-- Another call is gone on with. Whatever it stops, it stops other nodes. -/
theorem heeds_resume {b : Book} {agenda : List Action} (hj : j ≠ key) (hr : Reachable e) (hb : Ledger e b)
    (hns : ∀ n ∈ ns, n ∈ (b.given key).map (·.node)) (ha : e.agenda = .resume j :: agenda) :
    Heeds key ns e (Engine.act { e with agenda } (.resume j)) := by
  have hp := hr.accounted.orderly
  rw [plan_pop ha rfl] at hp
  have hnot : Action.resume key ∉ e.agenda := fun hm => by
    rw [ha] at hm
    rcases List.mem_cons.mp hm with he | hm
    · cases he
      exact hj rfl
    · have hmem : Action.resume key ∈ ({ e with agenda } : Engine).plan := by simpa [plan, Action.isQuiet] using hm
      rw [show ({ e with agenda } : Engine).plan = [] from hp] at hmem
      cases hmem
  -- it is enough that the nodes that give signals are others
  have htranquil {s : Engine} {qs : List NodeKey} (hst : Tranquil qs { e with agenda } s) (hd : ∀ n ∈ ns, n ∉ qs) :
      Heeds key ns e s :=
    ⟨hst.now, hst.timers, hst.kept, Or.imp (hst.ready _) (Or.imp (hst.putOff _) fun hm => absurd hm hnot),
      fun n hn => .inl (hst.frame n (hd n hn))⟩
  have hres := resumes_resume { e with agenda } j
  change Resumes { e with agenda } j (Engine.act { e with agenda } (.resume j)) at hres
  generalize Engine.act { e with agenda } (.resume j) = e' at hres ⊢
  cases hres with
  | unknown => exact htranquil (.refl [] _) fun _ _ => List.not_mem_nil
  | ends =>
    have hst : Tranquil [] ({ e with agenda } : Engine) (({ e with agenda } : Engine).modifyCall j fun c =>
      { c with ended := c.ended <|> some e.now, holds := [] }) := tranquil_modifyCall _ _ _
    exact htranquil hst fun _ _ => List.not_mem_nil
  | @stage c stage stages hc hw hs =>
    have hst : Tranquil [] ({ e with agenda } : Engine) (e.taken j agenda stages) := tranquil_modifyCall _ _ _
    cases hrq : stage.requests? (e.taken j agenda stages) with
    | none => exact htranquil (hst.trans (tranquil_runStage _ j hrq)) fun _ _ => List.not_mem_nil
    | some requests =>
      have hstands := stands_taken e j agenda stages
      have hlm := hr.layout.laid.taken j agenda stages
      obtain ⟨stops, given, served, -, ho, hg, -⟩ := asks_beginStops j requests (e.taken j agenda stages, []) hlm
        (hstands.housed hr.books.1.housed) (hr.manned.stands hstands)
      change Heeds key ns e ((e.taken j agenda stages).runStage j stage)
      rw [runStage_of_requests? hrq, stopAll_eq]
      refine htranquil ((hst.mono (List.nil_subset _)).trans (hg.tranquil.trans (tranquil_afterStops _ _ _)))
        fun n hn hmem => ?_
      have hactive : e.IsActive n := by
        obtain ⟨i, id, hact⟩ := (((ho.departs hlm).left n).mp hmem).1
        exact ⟨i, id, (hstands.active i id).symm.trans hact⟩
      exact ((hb.left n).mp ⟨key, hns n hn⟩).2 hactive
  | @waits c hc hw =>
    rw [pollAll_eq]
    refine htranquil ((tranquil_pollStops j c.waiting ({ e with agenda }, [])).trans (tranquil_afterStops _ _ _))
      fun n hn hmem => ?_
    have hgiven : n ∈ (b.given j).map (·.node) :=
      ((hb.served j c hc).map _).subset (by rw [List.map_append]; exact List.mem_append_right _ hmem)
    exact hj (hb.apart j key n hgiven (hns n hn))

/-- The making of nodes goes on, and nothing is missed. -/
theorem heeds_makes {a : Action} (hm : a.makes = true) (hu : (e.act a).broken = false) : Heeds key ns e (e.act a) := by
  obtain ⟨hst, hr⟩ : Tranquil [] e (e.act a) ∧ Remembers e (e.act a) := tranquil_makes e hm
  exact hst.heeds (fun _ _ => List.not_mem_nil) (hr hu _)

/-- The next action is taken up; it is not that the call goes on. -/
theorem heeds_pop {a : Action} {agenda : List Action} (ha : e.agenda = a :: agenda) (hne : a ≠ .resume key)
    (h : Heeds key ns { e with agenda } e') : Heeds key ns e e' := by
  refine ⟨h.now, h.timers, h.kept, fun hr => h.roused ?_, h.heard⟩
  refine hr.imp id (Or.imp id fun hm => ?_)
  rw [ha] at hm
  exact (List.mem_cons.mp hm).resolve_left hne.symm

/-! ## Turns -/

theorem tranquil_readEvents (e : Engine) : Tranquil ns e e.readEvents := by
  have hsame {s : Engine} (hr : s.ready = e.ready) (hn : s.now = e.now) (ho : s.room = e.room)
      (ht : s.timers = e.timers) (hp : ∀ w ∈ e.putOff, w ∈ s.putOff) (hs : s.nodes = e.nodes) : Tranquil ns e s :=
    .of_signals hn (Nat.le_of_eq ho) (fun _ h => ht ▸ h) (fun _ h => hr ▸ h) hp
      fun n => by unfold signal? node?; rw [hs]
  unfold readEvents
  split
  · exact .refl ns e
  · split
    · exact .refl ns e
    · split
      · exact hsame rfl rfl rfl rfl (fun _ h => h) rfl
      · dsimp only
        split
        · exact hsame rfl rfl rfl rfl (fun _ h => h) rfl
        · exact hsame rfl rfl rfl rfl (fun _ h => List.mem_cons_of_mem _ h) rfl

theorem tranquil_runTask (e : Engine) (p : Pending) : Tranquil ns e (e.runTask p) := by
  unfold runTask
  dsimp only
  split
  · exact tranquil_finishTask _ _
  · split
    · split
      · exact tranquil_push _ _
      · exact .refl ns e
    · split
      · exact tranquil_push _ _
      · split
        · exact .refl ns e
        · exact .of_signals rfl (Nat.le_refl _) (fun _ h => List.mem_append_left _ h) (fun _ h => h) (fun _ h => h)
            fun _ => rfl

/-- Whoever has a turn, nothing is missed. -/
theorem heeds_turn (ha : e.agenda = []) (w : Waiter) :
    Heeds key ns e ({ e with ready := e.ready.filter (· != w), room := turnRoom }.runWaiter w) := by
  have hother {s : Engine} (hst : Tranquil [] { e with ready := e.ready.filter (· != w), room := turnRoom } s)
      (hw : w ≠ .call key) : Heeds key ns e s := by
    refine ⟨hst.now, hst.timers, hst.kept, ?_, fun n _ => .inl (hst.frame n List.not_mem_nil)⟩
    refine Or.imp (fun hm => hst.ready _ ?_) (Or.imp (hst.putOff _) fun hm => ?_)
    · exact List.mem_filter.mpr ⟨hm, by simpa using hw.symm⟩
    · rw [ha] at hm
      cases hm
  cases w with
  | call j =>
    have hst : Tranquil [] { e with ready := e.ready.filter (· != .call j), room := turnRoom }
      ({ e with ready := e.ready.filter (· != Waiter.call j), room := turnRoom }.push [.resume j]) := tranquil_push _ _
    by_cases hj : j = key
    · subst hj
      exact ⟨rfl, fun _ h => h, fun _ _ h => h, fun _ => .inr (.inr List.mem_cons_self), fun _ _ => .inl rfl⟩
    · exact hother hst fun h => hj (Waiter.call.inj h)
  | reader => exact hother (tranquil_readEvents _) nofun
  | task key =>
    refine hother ?_ nofun
    unfold runWaiter
    dsimp only
    split
    · exact tranquil_runTask _ _
    · exact .refl _ _

/-- Those who were put off are woken. -/
theorem heeds_wakePutOff (ha : e.agenda = []) : Heeds key ns e e.wakePutOff := by
  have hst : Tranquil [] { e with putOff := [] } e.wakePutOff :=
    .foldl _ (fun e w => tranquil_wake e w) _ _
  refine ⟨hst.now, hst.timers, hst.kept, fun hr => .inl ?_, fun n _ => .inl (hst.frame n List.not_mem_nil)⟩
  refine mem_ready_foldl_wake (fun w : Waiter => w) e.putOff { e with putOff := [] } ?_
  rw [List.map_id']
  exact hr.imp id fun hm => hm.resolve_right fun hm => by
    rw [ha] at hm
    cases hm

/-! ## Time -/

/-- Time moves. What is known of the nodes stays, and timers that are awaited either stay or wake their waiters. -/
structure Moves (moment : Nat) (e e' : Engine) : Prop where
  now : e'.now = moment
  signals : ∀ n, e'.signal? n = e.signal? n
  roused : ∀ key, e.Roused key → e'.Roused key
  timers : ∀ t ∈ e.timers, e.isAwaited t = true →
    if t.due ≤ moment then alarmWaiter t.alarm ∈ e'.ready else t ∈ e'.timers

theorem moves_moveTo (ha : e.agenda = []) (moment : Nat) : Moves moment e (e.moveTo moment) := by
  have he : e.moveTo moment = ((e.timers.filter e.isAwaited).partition (·.due ≤ moment)).1.foldl
      (fun e t => e.wake (alarmWaiter t.alarm))
      { e with now := moment, timers := ((e.timers.filter e.isAwaited).partition (·.due ≤ moment)).2 } := by
    unfold moveTo
    rw [ha]
    rfl
  have hst : Tranquil [] { e with
      now := moment, timers := ((e.timers.filter e.isAwaited).partition (·.due ≤ moment)).2 } (e.moveTo moment) := by
    rw [he]
    exact .foldl _ (fun e t => tranquil_wake e _) _ _
  refine ⟨hst.now, fun n => hst.frame n List.not_mem_nil, fun key => ?_, fun t ht haw => ?_⟩
  · refine Or.imp (hst.ready _) (Or.imp (hst.putOff _) fun hm => ?_)
    rw [ha] at hm
    cases hm
  · have hmem : t ∈ e.timers.filter e.isAwaited := List.mem_filter.mpr ⟨ht, haw⟩
    split
    · rename_i hd
      rw [he]
      refine mem_ready_foldl_wake (fun t : Timer => alarmWaiter t.alarm) _ _ (.inr (List.mem_map_of_mem ?_))
      rw [List.partition_eq_filter_filter]
      exact List.mem_filter.mpr ⟨hmem, by simpa using hd⟩
    · rename_i hd
      refine hst.timers t ?_
      rw [List.partition_eq_filter_filter]
      exact List.mem_filter.mpr ⟨hmem, by simpa using hd⟩

end Flowgraph.Engine
