import Flowgraph.Proofs.Clockwork
import Flowgraph.Proofs.Crafting
import Flowgraph.Proofs.Stock
/-! Which tasks there are. A node starts a task for a message that it holds, and one that is told to close starts a task
that waits for the others; a task stays until it is finished, and no key is given twice. -/
namespace Flowgraph.Engine

variable {e e' e'' m : Engine} {k : NodeKey} {key : CallKey} {P Q : Pending → Prop} {ns : List NodeKey}

/-- All ordinary nodes are of kinds that are always at hand. -/
def Stocked (e : Engine) : Prop :=
  ∀ n node b, e.node? n = some node → node.part = .ordinary b → Stock node.record b

theorem Reachable.stocked (h : Reachable e) (hk : e.registry = Registry.standard) : Stocked e := by
  intro n node b hn hp
  have hc := h.crafted.nodes n node hn
  rw [hp, hk] at hc
  cases hc with
  | ordinary _ _ hc => exact Registry.stock_standard hc
  | builtIn _ hb =>
    unfold builtIn? at hb
    split_ifs at hb <;> cases hb

theorem Stocked.of_face (h : Stocked e) (hf : ∀ n, (e'.node? n).map Node.face = (e.node? n).map Node.face) :
    Stocked e' := by
  intro n node b hn hp
  have hface := hf n
  rw [hn] at hface
  obtain ⟨node', hn', he⟩ := Option.map_eq_some_iff.mp hface.symm
  obtain ⟨hrec, -, hpart⟩ := Prod.mk.inj he |>.imp_right Prod.mk.inj
  rw [← hrec]
  exact h n node' b hn' (hpart.trans hp)

theorem Stops.stocked (hs : Stops e e') (h : Stocked e) : Stocked e' := h.of_face (StopsWithin.face hs)

/-! ## What is lent -/

/-- The tasks that there are, and the key that is given next. -/
def lent (e : Engine) : TaskKey × List Pending := (e.nextTask, e.tasks)

/-- Every task that was there stays and is not forgotten; the new ones have new keys and are woken. -/
structure Lends (P : Pending → Prop) (e e' : Engine) : Prop where
  tasks : ∃ new, e'.tasks = e.tasks ++ new ∧ e'.nextTask = e.nextTask + new.length ∧
    new.map (·.key) = List.range' e.nextTask new.length ∧ ∀ p ∈ new, P p ∧ p.due = none ∧ .task p.key ∈ e'.ready
  now : e'.now = e.now
  timers : ∀ t ∈ e.timers, t ∈ e'.timers
  ready : ∀ w ∈ e.ready, w ∈ e'.ready

namespace Lends

theorem of_lent (hl : e'.lent = e.lent) (hn : e'.now = e.now) (ht : ∀ t ∈ e.timers, t ∈ e'.timers)
    (hr : ∀ w ∈ e.ready, w ∈ e'.ready) : Lends P e e' := by
  obtain ⟨hnext, htasks⟩ := Prod.mk.inj hl
  exact ⟨⟨[], by rw [htasks, List.append_nil], hnext, rfl, nofun⟩, hn, ht, hr⟩

theorem refl (e : Engine) : Lends P e e := of_lent rfl rfl (fun _ h => h) fun _ h => h

theorem trans (h : Lends P e m) (h' : Lends P m e') : Lends P e e' := by
  obtain ⟨new, htasks, hnext, hkeys, hnew⟩ := h.tasks
  obtain ⟨new', htasks', hnext', hkeys', hnew'⟩ := h'.tasks
  refine ⟨⟨new ++ new', by rw [htasks', htasks, List.append_assoc], ?_, ?_, fun p hp => ?_⟩, h'.now.trans h.now,
    fun t ht => h'.timers t (h.timers t ht), fun w hw => h'.ready w (h.ready w hw)⟩
  · rw [hnext', hnext, List.length_append, Nat.add_assoc]
  · rw [List.map_append, hkeys, hkeys', hnext, List.length_append, List.range'_append_1]
  · rcases List.mem_append.mp hp with hp | hp
    · obtain ⟨hP, hdue, hready⟩ := hnew p hp
      exact ⟨hP, hdue, h'.ready _ hready⟩
    · exact hnew' p hp

theorem mono (h : Lends P e e') (hpq : ∀ p, P p → Q p) : Lends Q e e' := by
  obtain ⟨new, htasks, hnext, hkeys, hnew⟩ := h.tasks
  exact ⟨⟨new, htasks, hnext, hkeys, fun p hp => (hnew p hp).imp_left (hpq p)⟩, h.now, h.timers, h.ready⟩

theorem foldl {α : Type} (f : Engine → α → Engine) (h : ∀ e a, Lends P e (f e a)) (xs : List α) (e : Engine) :
    Lends P e (xs.foldl f e) :=
  List.foldlRecOn xs f (motive := fun s => Lends P e s) (.refl e) fun _ hs a _ => hs.trans (h _ a)

end Lends

theorem Tranquil.lends (h : Tranquil [] e e') (hl : e'.lent = e.lent) : Lends P e e' :=
  .of_lent hl h.now h.timers h.ready

theorem lent_wake (e : Engine) (w : Waiter) : (e.wake w).lent = e.lent := by
  unfold wake
  split <;> rfl

theorem lends_wake (e : Engine) (w : Waiter) : Lends P e (e.wake w) :=
  Tranquil.lends (tranquil_wake e w) (lent_wake e w)

theorem lent_publish (e : Engine) (event : Event) : (e.publish event).lent = e.lent := by
  unfold publish
  dsimp only
  split
  · exact lent_wake _ _
  · rfl

theorem lends_publish (e : Engine) (event : Event) : Lends P e (e.publish event) :=
  Tranquil.lends (tranquil_publish e event) (lent_publish e event)

theorem lent_startTask (e : Engine) (k : NodeKey) (task : Task) :
    (e.startTask k task).lent = (e.nextTask + 1, e.tasks ++ [⟨e.nextTask, k, task, none⟩]) := lent_wake _ _

/-- The task that is started is the only new one. -/
theorem lends_startTask (e : Engine) (k : NodeKey) (task : Task) :
    Lends (· = ⟨e.nextTask, k, task, none⟩) e (e.startTask k task) := by
  have ht : Tranquil [] e (e.startTask k task) := tranquil_startTask e k task
  refine ⟨⟨[⟨e.nextTask, k, task, none⟩], ?_, ?_, rfl, fun p hp => ?_⟩, ht.now, ht.timers, ht.ready⟩
  · exact congrArg (·.2) (lent_startTask e k task)
  · exact congrArg (·.1) (lent_startTask e k task)
  · obtain rfl := List.mem_singleton.mp hp
    exact ⟨rfl, rfl, mem_ready_wake _ _⟩

/-! ## Stops -/

/-- A task that waits for the others of its node, to signal that it has closed. -/
def SignalsClose (p : Pending) : Prop := p.task = signalWhenIdle

theorem lends_closeBySignal (e : Engine) (k : NodeKey) (removed : Bool) (report : StopReport) (result : CloseResult) :
    Lends P e (e.closeBySignal k removed report result).1 := by
  unfold closeBySignal
  split
  · exact .refl e
  · split
    · exact lends_publish _ _
    · exact .refl e

theorem lends_closeByDeadline (e : Engine) (k : NodeKey) (report : StopReport) :
    Lends P e (e.closeByDeadline k report).1 := by
  unfold closeByDeadline
  split
  · exact .refl e
  · exact lends_publish _ _

theorem lends_pollAsked (e : Engine) (k : NodeKey) (removed : Bool) (deadline : Nat) (report : StopReport) :
    Lends P e (e.pollAsked k removed deadline report).1 := by
  unfold pollAsked
  split
  · exact .refl e
  · rename_i room _
    have hroom : Lends P e { e with room } := .of_lent rfl rfl (fun _ h => h) fun _ h => h
    split
    · exact hroom.trans (lends_closeBySignal _ _ _ _ _)
    · split
      · exact hroom.trans (lends_closeByDeadline _ _ _)
      · exact .refl e

theorem lends_await (e : Engine) (call : CallKey) (k : NodeKey) (removed : Bool) (report : StopReport) :
    Lends P e (e.await call k removed report).1 := by
  have htimer : Lends P e { e with timers := e.timers ++ [⟨e.now + e.closeTimeout, .deadline call k⟩] } :=
    .of_lent rfl rfl (fun _ h => List.mem_append_left _ h) fun _ h => h
  exact htimer.trans (lends_pollAsked _ _ _ _ _)

theorem lends_askToClose (h : Stocked e) (call : CallKey) (k : NodeKey) (removed : Bool) (report : StopReport) :
    Lends SignalsClose e (e.askToClose call k removed report).1 := by
  have hnote (e : Engine) (notes : List Note) : Lends SignalsClose e (e.note notes) :=
    .of_lent rfl rfl (fun _ h => h) fun _ h => h
  have hsignal (e : Engine) (result : CloseResult) : Lends SignalsClose e (e.noteSignal k result) :=
    .of_lent rfl rfl (fun _ h => h) fun _ h => h
  unfold askToClose
  split
  · exact .refl e
  · rename_i node hn
    split
    · rename_i b hp
      dsimp only
      split
      · exact (hnote _ _).trans ((hsignal _ _).trans (lends_await _ _ _ _ _))
      · exact (hnote _ _).trans (lends_closeBySignal _ _ _ _ _)
      · exact (hnote _ _).trans (lends_await _ _ _ _ _)
      · rename_i task ht
        exact absurd ht ((h k node b hn hp).onClose_ne_later removed task)
      · split
        · have htask : Lends SignalsClose (e.note (b.onClose removed).1)
              ((e.note (b.onClose removed).1).startTask k signalWhenIdle) :=
            (lends_startTask _ k signalWhenIdle).mono fun _ hp => hp ▸ rfl
          exact (hnote _ _).trans (htask.trans (lends_await _ _ _ _ _))
        · exact (hnote _ _).trans ((hsignal _ _).trans (lends_await _ _ _ _ _))
    · exact (hsignal _ _).trans (lends_await _ _ _ _ _)

theorem lends_modifyLevel (e : Engine) (j : LevelKey) (f : Level → Level) : Lends P e (e.modifyLevel j f) :=
  .of_lent rfl rfl (fun _ h => h) fun _ h => h

theorem lends_refresh (e : Engine) (j : LevelKey) : Lends P e (e.refresh j) := by
  unfold refresh
  split
  · exact .refl e
  · exact lends_modifyLevel _ _ _

theorem lends_withdraw (e : Engine) (j : LevelKey) (targets : List NodeKey) : Lends P e (e.withdraw j targets) := by
  have hcancel (e : Engine) (n : NodeKey) : Lends P e (e.cancel n) := by
    have hmark : Lends P e (e.modifyNode n fun node => { node with cancelled := true }) :=
      .of_lent rfl rfl (fun _ h => h) fun _ h => h
    exact hmark.trans (.foldl _ (fun e p => lends_wake e _) _ _)
  exact (lends_modifyLevel e j _).trans (.foldl _ hcancel _ _)

theorem lends_vacated (e : Engine) (l : Level) (request : StopRequest) : Lends P e (e.vacated l request) := by
  unfold vacated
  split
  · exact (lends_modifyLevel _ _ _).trans (lends_withdraw _ _ _)
  · exact lends_withdraw _ _ _

theorem lends_finishStop (e : Engine) (j : LevelKey) (full : Bool) (previous : Phase) (backward : Bool)
    (closings : List Closing) : Lends P e (e.finishStop j full previous backward closings).1 := by
  unfold finishStop
  dsimp only
  split
  · exact .refl e
  · split
    · exact (lends_refresh e j).trans ((lends_modifyLevel _ _ _).trans (lends_publish _ _))
    · exact (lends_refresh e j).trans (lends_modifyLevel _ _ _)

theorem lends_beginClosing {stopInner : Engine → StopRequest → Engine × Stopping}
    (hstop : ∀ e r, Stops e (stopInner e r).1) (hlend : ∀ e r, Stocked e → Lends SignalsClose e (stopInner e r).1)
    (call : CallKey) (h : Stocked e) (j : LevelKey) (k : NodeKey) (removed : Bool) :
    Lends SignalsClose e (beginClosing stopInner call e j k removed).1 := by
  unfold beginClosing
  split
  · exact .refl e
  · rename_i node hn
    split
    · exact lends_askToClose h _ _ _ _
    · rename_i inst hi
      have hforget : Stops e (e.modifyLevel j fun l => { l with instances := l.instances.erase node.id }) :=
        .single (.forget j node.id trivial)
      have hs := hstop (e.modifyLevel j fun l => { l with instances := l.instances.erase node.id })
        ⟨inst, none, if removed then .all else .none⟩
      have hl := (lends_modifyLevel e j _).trans (hlend (e.modifyLevel j fun l =>
        { l with instances := l.instances.erase node.id }) ⟨inst, none, if removed then .all else .none⟩
        (hforget.stocked h))
      dsimp only
      split
      · rename_i e' report hr
        rw [hr] at hs hl
        exact hl.trans (lends_askToClose (hs.stocked (hforget.stocked h)) _ _ _ _)
      · rename_i e' stop hr
        rw [hr] at hl
        exact hl

theorem lends_beginStop (call : CallKey) (fuel : Nat) (h : Stocked e) (request : StopRequest) :
    Lends SignalsClose e (beginStop call fuel e request).1 := by
  induction fuel generalizing e request with
  | zero => exact .refl e
  | succ fuel ih =>
    cases hlevel : e.level? request.level with
    | none =>
      unfold beginStop
      rw [hlevel]
      exact .refl e
    | some l =>
      rw [beginStop_eq call fuel hlevel]
      refine Lends.trans ((lends_vacated e l request).trans ?_) (lends_finishStop _ _ _ _ _ _)
      -- the closes begin one after the other
      have hall (targets : List NodeKey) (s : Engine × List Closing) (hs : Stocked s.1) :
          Lends SignalsClose s.1 (beginAll (beginStop call fuel) call request s targets).1 := by
        induction targets generalizing s with
        | nil => exact .refl s.1
        | cons n ns ihs =>
          have hst : Stops s.1 (beginClosing (beginStop call fuel) call s.1 request.level n
              (request.removal.holds (((s.1.node? n).map (·.id)).getD ""))).1 :=
            stops_beginClosing (fun e inst removal _ _ => stops_beginStop call fuel e _) call
              (fun _ _ _ _ _ _ _ _ => trivial) (fun _ _ => trivial) _
          have hfirst := lends_beginClosing (stops_beginStop call fuel) (fun e r he => ih he r) call hs request.level n
            (request.removal.holds (((s.1.node? n).map (·.id)).getD ""))
          have hrest := ihs (_, s.2 ++ [(beginClosing (beginStop call fuel) call s.1 request.level n
            (request.removal.holds (((s.1.node? n).map (·.id)).getD ""))).2]) (hst.stocked hs)
          exact hfirst.trans hrest
      have hvacated : Stops e (e.vacated l request) := stops_vacated hlevel fun _ _ _ _ _ _ => trivial
      exact hall _ (e.vacated l request, []) (hvacated.stocked h)

theorem lends_beginStops (key : CallKey) (requests : List StopRequest) (s : Engine × List Stopping)
    (h : Stocked s.1) : Lends SignalsClose s.1 (beginStops key s requests).1 := by
  induction requests generalizing s with
  | nil => exact .refl s.1
  | cons request requests ih =>
    exact (lends_beginStop key _ h request).trans
      (ih ((s.1.stop key request).1, s.2 ++ [(s.1.stop key request).2]) ((stops_stop s.1 key request).stocked h))

mutual
theorem lends_pollClosing (call : CallKey) (e : Engine) (h : Stocked e) :
    (c : Closing) → Lends SignalsClose e (pollClosing call e c).1
  | .done report => .refl e
  | .asked k removed deadline report => lends_pollAsked e k removed deadline report
  | .inner k removed inner => by
    have hl := lends_pollStop call e h inner
    have hs : Stops e (pollStop call e inner).1 := stops_pollStop call e inner
    unfold pollClosing
    split
    · rename_i hr
      rw [hr] at hl hs
      exact hl.trans (lends_askToClose (hs.stocked h) _ _ _ _)
    · rename_i hr
      rw [hr] at hl
      exact hl

theorem lends_pollStop (call : CallKey) (e : Engine) (h : Stocked e) :
    (s : Stopping) → Lends SignalsClose e (pollStop call e s).1
  | .finished report => .refl e
  | .running j full previous backward closings => by
    have hb := lends_pollBackward call e h closings
    have hf := lends_pollClosings call e h closings
    unfold pollStop
    cases backward with
    | true => exact hb.trans (lends_finishStop _ _ _ _ _ _)
    | false => exact hf.trans (lends_finishStop _ _ _ _ _ _)

theorem lends_pollClosings (call : CallKey) (e : Engine) (h : Stocked e) :
    (cs : List Closing) → Lends SignalsClose e (pollClosings call e cs).1
  | [] => .refl e
  | c :: cs => by
    have hs : Stops e (pollClosing call e c).1 := stops_pollClosing call e c
    exact (lends_pollClosing call e h c).trans (lends_pollClosings call _ (hs.stocked h) cs)

theorem lends_pollBackward (call : CallKey) (e : Engine) (h : Stocked e) :
    (cs : List Closing) → Lends SignalsClose e (pollBackward call e cs).1
  | [] => .refl e
  | c :: cs => by
    have hs : Stops e (pollBackward call e cs).1 := stops_pollBackward call e cs
    exact (lends_pollBackward call e h cs).trans (lends_pollClosing call _ (hs.stocked h) c)
end

theorem lends_pollStops (key : CallKey) (stops : List Stopping) (s : Engine × List Stopping) (h : Stocked s.1) :
    Lends SignalsClose s.1 (pollStops key s stops).1 := by
  induction stops generalizing s with
  | nil => exact .refl s.1
  | cons stop stops ih =>
    have hs : Stops s.1 (pollStop key s.1 stop).1 := stops_pollStop key s.1 stop
    exact (lends_pollStop key s.1 h stop).trans
      (ih ((pollStop key s.1 stop).1, s.2 ++ [(pollStop key s.1 stop).2]) (hs.stocked h))

theorem lent_afterStops (e : Engine) (key : CallKey) (stops : List Stopping) : (e.afterStops key stops).lent = e.lent := by
  unfold afterStops
  dsimp only
  split
  · split <;> rfl
  · rfl

/-! ## The making of nodes -/

theorem lent_failCreation (e : Engine) (j : LevelKey) (r : Record) (fault : NodeFault) :
    (e.failCreation j r fault).lent = e.lent := by
  unfold failCreation
  split
  · rfl
  · exact lent_publish _ _

theorem lent_enter (e : Engine) (j : LevelKey) (r : Record) (part : Part) : (e.enter j r part).lent = e.lent := by
  unfold enter
  cases part <;> rfl

theorem Opens.lent {j : LevelKey} {usage : Record} {t : Template} (h : Opens e j usage t e') : e'.lent = e.lent := by
  cases h with
  | collapses => exact lent_failCreation _ _ _ _
  | _ => rfl

theorem Creates.lent {j : LevelKey} {r : Record} {templates : Templates} (h : Creates e j r templates e') :
    e'.lent = e.lent := by
  cases h with
  | present => rfl
  | noTemplate => exact lent_failCreation _ _ _ _
  | refused => exact lent_failCreation _ _ _ _
  | made => exact lent_enter _ _ _ _
  | usage _ _ _ ho => exact ho.lent

/-- The making of nodes starts no task. -/
theorem lends_makes (e : Engine) {a : Action} (hm : a.makes = true) : Lends P e (e.act a) := by
  have ht : Tranquil [] e (e.act a) := (tranquil_makes e hm).1
  refine ht.lends ?_
  cases a with
  | create j r templates => exact (creates_create e j r templates).lent
  | install j r inst => exact lent_enter _ j r (.standIn inst)
  | refresh j =>
    change (e.refresh j).lent = e.lent
    unfold refresh
    split <;> rfl
  | _ => cases hm

/-! ## Calls -/

theorem Rewires.lent (h : Rewires e e') : e'.lent = e.lent := by
  refine h.invariant (P := fun s => s.lent = e.lent) (fun s s' hs ht => ?_) rfl
  cases ht <;> exact hs

theorem lent_runStage (e : Engine) (key : CallKey) {stage : Stage} (hs : stage.requests? e = none) :
    (e.runStage key stage).lent = e.lent := by
  cases stage with
  | stop requests => cases hs
  | stopAmong levels ids removed => cases hs
  | start j diff =>
    have h := starts_start e key j diff
    change (e.start key j diff).lent = _
    generalize e.start key j diff = e' at h ⊢
    cases h <;> rfl
  | apply j config diff =>
    have h := applies_apply e key j config diff
    have hrewired : (e.rewired j config diff).lent = e.lent := by
      cases diff with
      | none => rfl
      | some d => exact (rewires_rewire e j config d).lent
    change (e.apply key j config diff).lent = _
    generalize e.apply key j config diff = e' at h ⊢
    cases h <;> exact hrewired
  | startAll next =>
    change (e.startAll key next).lent = _
    unfold startAll
    split <;> rfl
  | startTab config listed =>
    change (e.startTab key config listed).lent = _
    unfold startTab
    split <;> rfl
  | enlistGathered =>
    rw [runStage_enlistGathered]
    rfl
  | _ => rfl

/-- A call that goes on starts tasks for the nodes alone that it tells to close. -/
theorem lends_resume (h : Stocked e) (key : CallKey) : Lends SignalsClose e (e.resume key) := by
  have hmodify (f : Call → Call) : Lends SignalsClose e (e.modifyCall key f) :=
    .of_lent rfl rfl (fun _ h => h) fun _ h => h
  have hafter (s : Engine × List Stopping) : Lends SignalsClose s.1 (s.1.afterStops key s.2) :=
    Tranquil.lends (tranquil_afterStops _ _ _) (lent_afterStops _ _ _)
  have hres := resumes_resume e key
  generalize e.resume key = e' at hres ⊢
  cases hres with
  | unknown => exact .refl e
  | ends => exact hmodify _
  | @stage c stage stages hc hw hs =>
    have hstocked : Stocked (e.modifyCall key fun c => { c with stages }) := h
    cases hrq : stage.requests? (e.modifyCall key fun c => { c with stages }) with
    | none =>
      have ht : Tranquil [] (e.modifyCall key fun c => { c with stages }) _ := tranquil_runStage _ key hrq
      exact (hmodify _).trans (ht.lends (lent_runStage _ key hrq))
    | some requests =>
      rw [runStage_of_requests? hrq, stopAll_eq]
      have hbegin := lends_beginStops key requests (e.modifyCall key fun c => { c with stages }, []) hstocked
      exact (hmodify fun c => { c with stages }).trans (hbegin.trans (hafter _))
  | waits hc hw =>
    rw [pollAll_eq]
    exact (lends_pollStops key _ (e, []) h).trans (hafter _)

/-! ## Messages -/

theorem lent_raise (e : Engine) (j : LevelKey) (origin : Origin) (signal : Signal) :
    (e.raise j origin signal).1.lent = e.lent := by
  have hleave : (e.leave origin signal).lent = e.lent := by
    unfold leave
    split
    · rfl
    · rfl
    · rfl
    · exact lent_publish _ _
    · rfl
  unfold raise
  split
  · rfl
  · split
    · rfl
    · exact hleave
    · rfl
    · rfl

theorem lends_raise (e : Engine) (j : LevelKey) (origin : Origin) (signal : Signal) :
    Lends P e (e.raise j origin signal).1 :=
  Tranquil.lends (tranquil_raise e j origin signal) (lent_raise e j origin signal)

/-- What a node does starts no task. -/
theorem lends_perform (e : Engine) (k : NodeKey) (effect : Effect) : Lends P e (e.perform k effect) := by
  have hpush (e : Engine) (actions : List Action) : Lends P e (e.push actions) :=
    .of_lent rfl rfl (fun _ h => h) fun _ h => h
  unfold perform
  cases e.node? k with
  | none => exact .refl e
  | some n =>
    cases effect with
    | note entry => exact .of_lent rfl rfl (fun _ h => h) fun _ h => h
    | closed result =>
      have hnoted : Lends P e (e.noteSignal k result) := .of_lent rfl rfl (fun _ h => h) fun _ h => h
      exact hnoted.trans (.foldl _ (fun e entry => lends_wake e _) _ _)
    | send port m =>
      dsimp only
      split
      · exact hpush _ _
      · exact .refl e
    | status status =>
      dsimp only
      split
      · exact (lends_publish _ _).trans (lends_raise _ _ _ _)
      · exact .refl e
    | error text about =>
      dsimp only
      split
      · exact lends_raise _ _ _ _
      · exact .refl e
    | complete m =>
      dsimp only
      split
      · exact lends_raise _ _ _ _
      · exact .refl e

theorem lends_reportPort (e : Engine) (inst : LevelKey) (port : PortKind) (m : Message) :
    Lends P e (e.reportPort inst port m) := by
  unfold reportPort
  split
  · rename_i p _ _
    cases e.level? p with
    | none => exact .refl e
    | some around =>
      cases port with
      | status => exact (lends_publish _ _).trans (lends_raise _ _ _ _)
      | complete => exact lends_raise _ _ _ _
  · exact .refl e

theorem lends_conclude (e : Engine) (k : NodeKey) (m : Message) (outcome : Outcome) :
    Lends P e (e.conclude k m outcome) := by
  cases outcome with
  | handled =>
    unfold conclude
    dsimp only
    split
    · split
      · exact lends_perform _ _ _
      · exact .refl e
    · exact .refl e
  | deferred => exact .refl e
  | failed fault => exact lends_perform e k (.error fault.message (some m))

/-! ## The end of a task -/

theorem foldl_wake_frame {α : Type} (f : α → Waiter) (xs : List α) (e : Engine) :
    (xs.foldl (fun e x => e.wake (f x)) e).agenda = e.agenda ∧ (xs.foldl (fun e x => e.wake (f x)) e).lent = e.lent :=
  List.foldlRecOn xs _ (motive := fun s => s.agenda = e.agenda ∧ s.lent = e.lent) ⟨rfl, rfl⟩
    fun s hs _ _ => ⟨(wake_agenda s _).trans hs.1, (lent_wake s _).trans hs.2⟩

/-- A task that is finished is there no more; nothing else changes but that others are woken. -/
theorem finishTask_frame (e : Engine) (key : TaskKey) : (e.finishTask key).agenda = e.agenda ∧
    (e.finishTask key).lent = (e.nextTask, e.tasks.filter (·.key != key)) ∧
    Tranquil [] e (e.finishTask key) := by
  suffices h : (e.finishTask key).agenda = e.agenda ∧
      (e.finishTask key).lent = (e.nextTask, e.tasks.filter (·.key != key)) from
    ⟨h.1, h.2, tranquil_finishTask e key⟩
  unfold finishTask
  split
  · rename_i hnone
    have hall : e.tasks.filter (·.key != key) = e.tasks := List.filter_eq_self.mpr fun p hp => by
      simpa using List.find?_eq_none.mp hnone p hp
    exact ⟨rfl, by rw [hall]; rfl⟩
  · exact foldl_wake_frame Waiter.task _ { e with tasks := e.tasks.filter (·.key != key) }

end Flowgraph.Engine
