import Flowgraph.Proofs.Ledger
import Flowgraph.Proofs.Stopped
/-! The books of an engine step by step. Nobody leaves but by a stop that begins, which enters its orders, and a stop
that goes on enters what it has served. -/
namespace Flowgraph
namespace Engine

variable {e e' e'' m : Engine} {key j : CallKey} {n : NodeKey} {b b' : Book} {c : Call}

/-! ## Stops that begin side by side -/

/-- Stops begin one after the other, with their orders and those of them that are served at once. -/
inductive Opening : Engine → List StopRequest → Engine → List Stopping → List Order → List Order → Prop
  | nil (e : Engine) : Opening e [] e [] [] []
  | cons {e m e' : Engine} {r : StopRequest} {rs : List StopRequest} {s : Stopping} {stops : List Stopping}
      {given given' served served' : List Order} (h : Commences e r m s given served)
      (hs : Opening m rs e' stops given' served') :
      Opening e (r :: rs) e' (s :: stops) (given ++ given') (served ++ served')

namespace Opening

variable {requests : List StopRequest} {stops : List Stopping} {given served : List Order}

theorem departs (h : Opening e requests e' stops given served) (hl : Laid e) : Departs e e' given := by
  induction h with
  | nil e => exact .silent (.refl e)
  | cons h _ ih =>
    have hd : Departs _ _ _ := ⟨h.stops, h.once, fun n => h.left hl⟩
    exact hd.trans hl (ih (h.stops.laid hl))

theorem serving (h : Opening e requests e' stops given served) : Serving e e' given (stops.flatMap Stopping.orders)
    (e.idsOfOrders given) (stops.flatMap (Stopping.docket e.idsOf)) served := by
  induction h with
  | nil e => exact .idle (.refl e) rfl (.refl _)
  | cons h _ ih =>
    rw [StopsWithin.idsOf h.stops, StopsWithin.idsOfOrders h.stops] at ih
    rw [idsOfOrders, List.flatMap_append]
    exact h.serving.append ih

theorem housed (h : Opening e requests e' stops given served) (hl : Laid e) (hh : Housed e) : Housed e' := by
  induction h with
  | nil e => exact hh
  | cons h _ ih => exact ih (h.stops.laid hl) (h.housed hl hh)

/-- There is one stop only. -/
theorem single {r : StopRequest} (h : Opening e [r] e' stops given served) : ∃ s, Commences e r e' s given served := by
  cases h with
  | cons h hs =>
    cases hs
    rw [List.append_nil, List.append_nil]
    exact ⟨_, h⟩

end Opening

theorem opening_beginStops (key : CallKey) (requests : List StopRequest) (s : Engine × List Stopping) (hl : Laid s.1)
    (hh : Housed s.1) : ∃ stops given served, (beginStops key s requests).2 = s.2 ++ stops ∧
      Opening s.1 requests (beginStops key s requests).1 stops given served ∧ ∀ stop ∈ stops, Known s.1 stop.nodes := by
  induction requests generalizing s with
  | nil => exact ⟨[], [], [], (List.append_nil _).symm, .nil _, by simp⟩
  | cons r rs ih =>
    obtain ⟨given, served, hc⟩ := commences_stop hl hh key r
    obtain ⟨stops, given', served', hs, ho, hk⟩ :=
      ih ((s.1.stop key r).1, s.2 ++ [(s.1.stop key r).2]) (hc.stops.laid hl) (hc.housed hl hh)
    refine ⟨(s.1.stop key r).2 :: stops, _, _, ?_, .cons hc ho, fun stop hm => ?_⟩
    · exact hs.trans (by simp)
    · rcases List.mem_cons.mp hm with rfl | hm
      · exact known_beginStop _ _ _ _
      · intro n hn
        rw [← size_of_face (StopsWithin.face hc.stops)]
        exact hk stop hm n hn

/-- Stops go on one after the other. -/
theorem serving_pollStops (key : CallKey) (stops : List Stopping) (s : Engine × List Stopping) :
    ∃ stops' served, (pollStops key s stops).2 = s.2 ++ stops' ∧
      Serving s.1 (pollStops key s stops).1 (stops.flatMap Stopping.orders) (stops'.flatMap Stopping.orders)
        (stops.flatMap (Stopping.docket s.1.idsOf)) (stops'.flatMap (Stopping.docket s.1.idsOf)) served ∧
      ∀ stop' ∈ stops', ∃ stop ∈ stops, stop'.nodes ⊆ stop.nodes := by
  induction stops generalizing s with
  | nil => exact ⟨[], [], (List.append_nil _).symm, .idle (.refl _) rfl (.refl _), by simp⟩
  | cons stop stops ih =>
    obtain ⟨served, hs⟩ := serving_pollStop key s.1 stop
    obtain ⟨stops', served', hstops, hserve, hnodes⟩ :=
      ih ((pollStop key s.1 stop).1, s.2 ++ [(pollStop key s.1 stop).2])
    rw [StopsWithin.idsOf hs.stops] at hserve
    refine ⟨(pollStop key s.1 stop).2 :: stops', _, hstops.trans (by simp), hs.append hserve, fun stop' hm => ?_⟩
    rcases List.mem_cons.mp hm with rfl | hm
    · exact ⟨stop, List.mem_cons_self, nodes_pollStop key s.1 stop⟩
    · obtain ⟨stop₀, hm₀, hn⟩ := hnodes stop' hm
      exact ⟨stop₀, List.mem_cons_of_mem _ hm₀, hn⟩

/-! ## What a step enters -/

/-- A call has taken up its next stage. -/
def taken (e : Engine) (key : CallKey) (agenda : List Action) (stages : List Stage) : Engine :=
  { e with agenda }.modifyCall key fun c => { c with stages }

/-- What a step enters in the books. -/
inductive Entry (e e' : Engine) (b : Book) : Book → Prop
  /-- Nobody leaves, and no stop goes on. -/
  | nothing (h : Retains e e') : Entry e e' b b
  /-- A call begins stops. -/
  | begins {key : CallKey} {c : Call} {agenda : List Action} {stage : Stage} {stages : List Stage}
      {requests : List StopRequest} {m : Engine} {stops : List Stopping} {given served : List Order}
      (ha : e.agenda = .resume key :: agenda) (hc : e.call? key = some c) (hw : c.waiting = [])
      (hs : c.stages = stage :: stages) (hr : stage.requests? e = some requests)
      (ho : Opening (e.taken key agenda stages) requests m stops given served) (hp : Proceeds m key stops e') :
      Entry e e' b (b.add key given served)
  /-- A call goes on with its stops. Nothing comes or goes by that. -/
  | goesOn {key : CallKey} {c : Call} {agenda : List Action} {m : Engine} {stops : List Stopping}
      {served : List Order} (ha : e.agenda = .resume key :: agenda) (hc : e.call? key = some c) (hw : c.waiting ≠ [])
      (hs : Serving { e with agenda } m (c.waiting.flatMap Stopping.orders) (stops.flatMap Stopping.orders)
        (c.waiting.flatMap (Stopping.docket e.idsOf)) (stops.flatMap (Stopping.docket e.idsOf)) served)
      (hspares : Spares (fun _ _ => True) { e with agenda } m) (hp : Proceeds m key stops e') :
      Entry e e' b (b.add key [] served)

theorem stands_agenda (e : Engine) (agenda : List Action) : Stands e { e with agenda } :=
  .of_levels (fun _ => rfl) (fun _ => rfl) fun _ => rfl

theorem stands_taken (e : Engine) (key : CallKey) (agenda : List Action) (stages : List Stage) :
    Stands e (e.taken key agenda stages) :=
  (stands_agenda e agenda).trans (.modifyCall _ _ _ fun _ => ⟨rfl, rfl⟩)

theorem requests?_taken (key : CallKey) (agenda : List Action) (stages : List Stage) (stage : Stage) :
    stage.requests? (e.taken key agenda stages) = stage.requests? e := by
  cases stage <;> rfl

theorem runStage_of_requests? {stage : Stage} {requests : List StopRequest} (h : stage.requests? e = some requests) :
    e.runStage key stage = e.stopAll key requests := by
  cases stage with
  | stop rs =>
    cases h
    rfl
  | stopAmong levels ids removed =>
    cases h
    rfl
  | _ => cases h

theorem Proceeds.noInstalls {stops : List Stopping} (h : Proceeds e key stops e') (hp : e.plan = []) :
    NoInstalls e' := by
  cases h with
  | waits _ hs =>
    intro a ha
    have hplan : e'.plan = e.plan := by
      unfold plan
      rw [hs.agenda]
      rfl
    rw [hplan, hp] at ha
    cases ha
  | done => exact noInstalls_resume hp

theorem Proceeds.housed {stops : List Stopping} (h : Proceeds e key stops e') (hh : Housed e) : Housed e' := by
  cases h with
  | waits _ hs =>
    have hstill (k : LevelKey) : e'.level? k = e.level? k := level?_of_still hs.still k
    intro k u i hi
    rw [instance?, hstill] at hi
    rw [activeKey?, hstill]
    exact hh k u i hi
  | done => exact hh

theorem Stops.plan (h : Stops e e') : e'.plan = e.plan := by
  unfold Engine.plan
  rw [h.agenda]

/-- A call begins the stops of its next stage. -/
theorem Ledger.begins (h : Ledger e b) (hl : Laid e) (hreg : Housed e) {agenda : List Action}
    (hp : ({ e with agenda } : Engine).plan = []) (hc : e.call? key = some c) (hw : c.waiting = []) {stage : Stage}
    {requests : List StopRequest} (hr : stage.requests? e = some requests) (stages : List Stage) :
    ∃ m stops given served, Opening (e.taken key agenda stages) requests m stops given served ∧
      Proceeds m key stops ((e.taken key agenda stages).runStage key stage) ∧
      Ledger ((e.taken key agenda stages).runStage key stage) (b.add key given served) ∧
      Registered ((e.taken key agenda stages).runStage key stage) := by
  have hst := stands_taken e key agenda stages
  have hlaid : Laid (e.taken key agenda stages) := hl.of_levels (.of_eq rfl rfl rfl rfl) fun _ => rfl
  have hhoused : Housed (e.taken key agenda stages) := hst.housed hreg
  obtain ⟨stops, given, served, hstops, ho, hk⟩ :=
    opening_beginStops key requests (e.taken key agenda stages, []) hlaid hhoused
  rw [List.nil_append] at hstops
  have hp' := proceeds_afterStops (beginStops key (e.taken key agenda stages, []) requests).1 key
    (beginStops key (e.taken key agenda stages, []) requests).2
  rw [← stopAll_eq, hstops] at hp'
  rw [runStage_of_requests? ((requests?_taken _ _ _ _).trans hr)]
  have hcall : (e.taken key agenda stages).call? key = some { c with stages } := by
    rw [taken, call?_modifyCall, if_pos rfl]
    exact congrArg (Option.map _) hc
  have hd := ho.departs hlaid
  refine ⟨_, stops, given, served, ho, hp', ?_, .of_noInstalls (hp'.housed (ho.housed hlaid hhoused)) (hp'.noInstalls ?_)⟩
  · refine (h.retains hst.retains).proceeds hlaid hcall hd ?_ hk (calls_of_shell hd.stops.shell) hp'
    simp only [hw, List.flatMap_nil, List.nil_append]
    exact ho.serving
  · exact hd.stops.plan.trans hp

/-- A call goes on with its stops. -/
theorem Ledger.goesOn (h : Ledger e b) (hl : Laid e) (hreg : Housed e) {agenda : List Action}
    (ha : e.agenda = .resume key :: agenda) (hp : ({ e with agenda } : Engine).plan = [])
    (hc : e.call? key = some c) (hw : c.waiting ≠ []) :
    ∃ b', Entry e (({ e with agenda } : Engine).pollAll key c.waiting) b b' ∧
      Ledger (({ e with agenda } : Engine).pollAll key c.waiting) b' ∧
      Registered (({ e with agenda } : Engine).pollAll key c.waiting) := by
  have hst := stands_agenda e agenda
  have hlaid : Laid ({ e with agenda } : Engine) := hl.of_levels (.of_eq rfl rfl rfl rfl) fun _ => rfl
  obtain ⟨stops, served, hstops, hs, hnodes⟩ := serving_pollStops key c.waiting ({ e with agenda }, [])
  rw [List.nil_append] at hstops
  have hwithin : StopsWithin (fun _ _ => ¬True) ({ e with agenda } : Engine)
      (pollStops key ({ e with agenda }, []) c.waiting).1 := stopsWithin_pollStops key ({ e with agenda }, []) c.waiting
  have hspares : Spares (fun _ _ => True) ({ e with agenda } : Engine)
      (pollStops key ({ e with agenda }, []) c.waiting).1 := hwithin.spares hlaid.placed
  have hp' := proceeds_afterStops (pollStops key ({ e with agenda }, []) c.waiting).1 key
    (pollStops key ({ e with agenda }, []) c.waiting).2
  rw [← pollAll_eq, hstops] at hp'
  have hhoused : Housed (pollStops key ({ e with agenda }, []) c.waiting).1 := by
    intro k u i hi
    rw [hspares.inst k u trivial] at hi
    rw [hspares.active k u trivial]
    exact hst.housed hreg k u i hi
  have hd : Departs ({ e with agenda } : Engine) (pollStops key ({ e with agenda }, []) c.waiting).1 [] :=
    .nobody hs.stops fun j id => hspares.active j id trivial
  refine ⟨_, .goesOn ha hc hw hs hspares hp', ?_, .of_noInstalls (hp'.housed hhoused) (hp'.noInstalls ?_)⟩
  · refine (h.retains hst.retains).proceeds hlaid hc hd ?_ (fun s hm n hn => ?_) (calls_of_shell hs.stops.shell) hp'
    · simp only [List.append_nil, idsOfOrders, List.flatMap_nil]
      exact hs
    · obtain ⟨s₀, hs₀, hsub⟩ := hnodes s hm
      exact h.known key c hc s₀ hs₀ n (hsub hn)
  · exact hs.stops.plan.trans hp

/-- A call is gone on with. -/
theorem Ledger.resume (h : Ledger e b) (hl : Laid e) (hreg : Housed e) {agenda : List Action}
    (ha : e.agenda = .resume key :: agenda) (hp : ({ e with agenda } : Engine).plan = [])
    (hr : Resumes { e with agenda } key e') : ∃ b', Entry e e' b b' ∧ Ledger e' b' ∧ Registered e' := by
  have hstands {s : Engine} (hs : Stands e s) (hn : NoInstalls s) : ∃ b', Entry e s b b' ∧ Ledger s b' ∧ Registered s :=
    ⟨b, .nothing hs.retains, h.retains hs.retains, .of_noInstalls (hs.housed hreg) hn⟩
  have hnone {s : Engine} (hs : s.plan = []) : NoInstalls s := by
    intro a ha
    rw [hs] at ha
    cases ha
  cases hr with
  | unknown => exact hstands (stands_agenda e agenda) (hnone hp)
  | ends =>
    exact hstands ((stands_agenda e agenda).trans (.modifyCall _ _ _ fun _ => ⟨rfl, rfl⟩)) (hnone hp)
  | @stage c stage stages hc hw hs =>
    cases hrq : stage.requests? e with
    | some requests =>
      obtain ⟨m, stops, given, served, ho, hp', hb, hreg'⟩ := h.begins hl hreg hp hc hw hrq stages
      exact ⟨_, .begins ha hc hw hs hrq ho hp', hb, hreg'⟩
    | none =>
      obtain ⟨hst, hn⟩ := stands_runStage (e := e.taken key agenda stages) hp key ((requests?_taken _ _ _ _).trans hrq)
      exact hstands ((stands_taken e key agenda stages).trans hst) hn
  | waits hc hw => exact h.goesOn hl hreg ha hp hc hw

theorem plan_pop {a : Action} {agenda : List Action} (ha : e.agenda = a :: agenda) (hq : a.isQuiet = false) :
    e.plan = a :: ({ e with agenda } : Engine).plan := by
  simp [plan, ha, hq]

theorem Registered.pop {a : Action} {agenda : List Action} (h : Registered e) (ha : e.agenda = a :: agenda)
    (hq : a.isQuiet = false) : Registered { e with agenda } ∧
      ∀ k, a.makesIn? = some k → Precedes { e with agenda } k := by
  have hplan := plan_pop ha hq
  have hdeeper := h.deeper
  rw [hplan, List.pairwise_cons] at hdeeper
  refine ⟨⟨(stands_agenda e agenda).housed h.housed, fun k r i hm => h.vacant k r i ?_, hdeeper.2⟩,
    fun k hk b hb k' hk' => hdeeper.1 b hb k k' hk hk'⟩
  rw [hplan]
  exact List.mem_cons_of_mem _ hm

/-- The books are kept with every step. -/
theorem Ledger.tick (hr : Reachable e) (hreg : Registered e) (h : Ledger e b) (ht : Tick e e') :
    ∃ b', Entry e e' b b' ∧ Ledger e' b' ∧ Registered e' := by
  rcases ht.kinds with ⟨hs, hp⟩ | ⟨key, ha, hs, ha'⟩ | ⟨a, agenda, -, hq, ha, rfl⟩
  · have hst : Stands e e' := .still hs
    exact ⟨b, .nothing hst.retains, h.retains hst.retains, hreg.stands hst hp⟩
  · have hst : Stands e e' := .still hs
    refine ⟨b, .nothing hst.retains, h.retains hst.retains, .of_noInstalls (hst.housed hreg.housed) fun a hm => ?_⟩
    have hm := (List.mem_filter.mp hm).1
    rw [ha'] at hm
    obtain rfl := List.mem_singleton.mp hm
    rfl
  · have hmem : a ∈ e.plan := by simp [plan, ha, hq]
    by_cases hres : ∃ key, a = .resume key
    · obtain ⟨key, rfl⟩ := hres
      have ho := hr.accounted.orderly
      rw [plan_pop ha hq] at ho
      exact h.resume hr.layout.laid hreg.housed ha ho (resumes_resume _ _)
    · have hmakes : a.makes = true := by
        cases a with
        | resume key => exact absurd ⟨key, rfl⟩ hres
        | create k r templates => rfl
        | install k r inst => rfl
        | refresh k => rfl
        | _ => cases hq
      have hpop := hreg.pop ha hq
      have hapt : ({ e with agenda } : Engine).Apt a :=
        (show Grows e { e with agenda } from .of_eq rfl rfl rfl rfl).apt (hr.layout.makes a hmem)
      obtain ⟨hret, hreg'⟩ := registered_makes hpop.1 hmakes hapt
        (fun k r i hi => hreg.vacant k r i (hi ▸ hmem)) hpop.2
      have hret' := (stands_agenda e agenda).retains.trans hret
      exact ⟨b, .nothing hret', h.retains hret', hreg'⟩

/-! ## What is asked between two turns -/

theorem KeysBelow.unknown (h : KeysBelow e) : e.call? e.nextCall = none := by
  cases hc : e.call? e.nextCall with
  | none => rfl
  | some c => exact absurd (h _ (mem_calls_of_call? hc)) (Nat.lt_irrefl _)

/-- A new call has nothing to account for. -/
theorem Ledger.begin (h : Ledger e b) (hk : KeysBelow e) (stages : List Stage) : Ledger (e.begin stages).1 b := by
  have hcall := call?_begin hk stages
  have hface (n : NodeKey) : ((e.begin stages).1.node? n).map Node.face = (e.node? n).map Node.face := by
    rw [node?_begin]
  have hsize := size_of_face hface
  have hids : (e.begin stages).1.idsOf = e.idsOf := funext fun n => idsOf_of_face (hface n)
  have hnew := h.unknown _ hk.unknown
  have hactive (n : NodeKey) : (e.begin stages).1.IsActive n ↔ e.IsActive n := by
    simp only [IsActive, activeKey?, level?_begin]
  refine ⟨h.once, h.apart, fun n => by rw [hactive, hsize]; exact h.left n, fun j c hc => ?_, fun j c hc => ?_,
    fun j c hc => ?_, fun j hc => ?_⟩
  · rw [hids, show (e.begin stages).1.idsOfOrders = e.idsOfOrders by unfold idsOfOrders; rw [hids]]
    rw [hcall] at hc
    split at hc
    · rename_i hj
      cases hc
      rw [hj, hnew.1]
      exact .refl _
    · exact h.reported j c hc
  · rw [hcall] at hc
    split at hc
    · rename_i hj
      cases hc
      rw [hj, hnew.1, hnew.2]
      exact .refl _
    · exact h.served j c hc
  · intro s hs n hn
    rw [hsize]
    rw [hcall] at hc
    split at hc
    · cases hc
      cases hs
    · exact h.known j c hc s hs n hn
  · rw [hcall] at hc
    split at hc
    · cases hc
    · exact h.unknown j hc

/-- The books are not touched by what is asked between two turns. -/
theorem Ledger.input (h : Ledger e b) (hk : KeysBelow e) (hi : Input e e') : Ledger e' b := by
  cases hi with
  | @call stages ho => exact h.begin hk stages
  | quiet hq =>
    have hst : Stands e e' := .still hq.still
    exact h.retains hst.retains
  | keep levels nodes =>
    have hst : Stands e { e with keptLevels := levels, keptNodes := nodes } :=
      .of_levels (fun _ => rfl) (fun _ => rfl) fun _ => rfl
    exact h.retains hst.retains
  | flow => exact h.retains (Stands.addLevel e rfl rfl).retains
  | @update k config =>
    exact h.retains (Stands.modifyLevel e k (fun l => { l with config }) fun _ => ⟨rfl, rfl⟩).retains

theorem Registered.input (h : Registered e) (ha : e.agenda = []) (hi : Input e e') : Registered e' := by
  have hp : e.plan = [] := by
    rw [plan, ha]
    rfl
  have hnone {s : Engine} (hs : s.plan = []) : NoInstalls s := by
    intro a ha
    rw [hs] at ha
    cases ha
  cases hi with
  | @call stages ho =>
    refine .of_noInstalls (fun k u i hi => ?_) (hnone ?_)
    · rw [instance?, level?_begin] at hi
      rw [activeKey?, level?_begin]
      exact h.housed k u i hi
    · have hplan : (e.begin stages).1.plan = _ := (quiet_wake _ (.call e.nextCall)).plan
      exact hplan.trans hp
  | quiet hq =>
    have hst : Stands e e' := .still hq.still
    exact .of_noInstalls (hst.housed h.housed) (hnone (hq.plan.trans hp))
  | keep levels nodes => exact .of_noInstalls h.housed (hnone hp)
  | flow => exact .of_noInstalls ((Stands.addLevel e rfl rfl).housed h.housed) (hnone hp)
  | @update k config =>
    have hst : Stands e (e.modifyLevel k fun l => { l with config }) := .modifyLevel _ _ _ fun _ => ⟨rfl, rfl⟩
    exact .of_noInstalls (hst.housed h.housed) (hnone hp)

/-! ## Whole runs -/

theorem ledger_make (registry : Registry) (outside : Outside) (settings : Dict Json) (processEnv : Dict String)
    (closeTimeout : Nat) : Ledger (make registry outside settings processEnv closeTimeout) .blank := by
  have hnone (j : CallKey) (c : Call) : (make registry outside settings processEnv closeTimeout).call? j ≠ some c := by
    simp [call?, make]
  refine ⟨fun _ => List.nodup_nil, fun _ _ _ hn => absurd hn List.not_mem_nil,
    fun n => ⟨fun h => absurd h.choose_spec List.not_mem_nil, fun h => absurd h.1 (Nat.not_lt_zero _)⟩, fun j c hc => absurd hc (hnone j c), fun j c hc => absurd hc (hnone j c),
    fun j c hc => absurd hc (hnone j c), fun _ _ => ⟨rfl, rfl⟩⟩

/-- Every engine that can come about has right books. -/
theorem Reachable.books (h : Reachable e) : Registered e ∧ ∃ b, Ledger e b := by
  refine h.invariant (P := fun e => Registered e ∧ ∃ b, Ledger e b) (fun r o s v t => ?_)
    (fun e e' hr ⟨hreg, b, hb⟩ ht => ?_) fun e e' hr ⟨hreg, b, hb⟩ ha hi =>
      ⟨hreg.input ha hi, b, hb.input hr.keysBelow hi⟩
  · have hnone (k : LevelKey) (u : NodeId) : (Engine.make r o s v t).instance? k u = none := rfl
    refine ⟨.of_noInstalls (fun k u i hi => ?_) fun _ ha => absurd ha List.not_mem_nil, .blank, ledger_make _ _ _ _ _⟩
    rw [hnone] at hi
    cases hi
  · obtain ⟨b', -, hb', hreg'⟩ := hb.tick hr hreg ht
    exact ⟨hreg', b', hb'⟩

/-- What may come of an engine, whatever is asked of it meanwhile. -/
inductive Later (e : Engine) : Engine → Prop
  | refl : Later e e
  | tick {s s' : Engine} (h : Later e s) (ht : Tick s s') : Later e s'
  | input {s s' : Engine} (h : Later e s) (ha : s.agenda = []) (hi : Input s s') : Later e s'

namespace Later

theorem reachable (h : Later e e') (hr : Reachable e) : Reachable e' := by
  induction h with
  | refl => exact hr
  | tick _ ht ih => exact ih.tick ht
  | input _ ha hi ih => exact ih.input ha hi

theorem grows (h : Later e e') : Grows e e' := by
  induction h with
  | refl => exact .refl e
  | tick _ ht ih => exact ih.trans ht.grows
  | input _ _ hi ih => exact ih.trans hi.grows

end Later

/-- A call without stages gets none. -/
theorem Tick.stages (ht : Tick e e') (hc : e.call? key = some c) (hs : c.stages = []) :
    ∃ c', e'.call? key = some c' ∧ c'.stages = [] := by
  rcases ht.kinds with ⟨hst, -⟩ | ⟨_, -, hst, -⟩ | ⟨a, agenda, -, -, -, rfl⟩
  · exact ⟨c, (call?_of_still hst key).trans hc, hs⟩
  · exact ⟨c, (call?_of_still hst key).trans hc, hs⟩
  by_cases hr : ∃ j, a = .resume j
  · obtain ⟨j, rfl⟩ := hr
    have hres := resumes_resume { e with agenda } j
    have hother (hj : key ≠ j) : ∃ c', (Engine.act { e with agenda } (.resume j)).call? key = some c' ∧ c'.stages = [] :=
      ⟨c, (call?_of_besides hres.besides hj).trans hc, hs⟩
    by_cases hj : key = j
    · subst hj
      change Resumes { e with agenda } key (Engine.act { e with agenda } (.resume key)) at hres
      generalize Engine.act { e with agenda } (.resume key) = e' at hres ⊢
      cases hres with
      | unknown => exact ⟨c, hc, hs⟩
      | ends =>
        refine ⟨{ c with ended := c.ended <|> some e.now, holds := [] }, ?_, hs⟩
        rw [call?_modifyCall, if_pos rfl]
        exact congrArg (Option.map _) hc
      | stage hc' _ hs' =>
        obtain rfl := Option.some.inj (hc.symm.trans hc')
        rw [hs] at hs'
        cases hs'
      | waits hc' hw =>
        obtain rfl := Option.some.inj (hc.symm.trans hc')
        have hst := stops_pollStops key ({ e with agenda }, []) c.waiting
        obtain ⟨c', hc'', hs', -⟩ := (proceeds_afterStops _ key _).call_account ((call?_of_shell hst.shell key).trans hc)
        exact ⟨c', hc'', hs'.trans hs⟩
    · exact hother hj
  · have hreg := register_act (e := { e with agenda }) fun j ha => hr ⟨j, ha⟩
    exact ⟨c, (call?_of_calls (calls_of_register hreg) key).trans hc, hs⟩

/-- A call whose last stage has begun gives no more orders. -/
theorem Ledger.later (h : Ledger e b) (hr : Reachable e) (hc : e.call? key = some c) (hs : c.stages = [])
    (hl : Later e e') : ∃ b' c', Ledger e' b' ∧ b'.given key = b.given key ∧ e'.call? key = some c' ∧ c'.stages = [] := by
  induction hl with
  | refl => exact ⟨b, c, h, rfl, hc, hs⟩
  | @tick s s' hl ht ih =>
    obtain ⟨b', c', hb, hg, hc', hs'⟩ := ih
    have hreach := hl.reachable hr
    obtain ⟨b'', hentry, hb', -⟩ := hb.tick hreach hreach.books.1 ht
    obtain ⟨c'', hc'', hs''⟩ := ht.stages hc' hs'
    refine ⟨b'', c'', hb', .trans ?_ hg, hc'', hs''⟩
    cases hentry with
    | nothing => rfl
    | @begins j _ _ _ _ _ _ _ _ _ _ hcj _ hsj =>
      refine Book.given_add_of_ne ?_
      rintro rfl
      obtain rfl := Option.some.inj (hc'.symm.trans hcj)
      rw [hs'] at hsj
      cases hsj
    | @goesOn j =>
      by_cases hj : key = j
      · subst hj
        rw [Book.given_add_self, List.append_nil]
      · exact Book.given_add_of_ne hj
  | input hl _ hi ih =>
    obtain ⟨b', c', hb, hg, hc', hs'⟩ := ih
    have hk := (hl.reachable hr).keysBelow
    exact ⟨b', c', hb.input hk hi, hg, call?_input hc' hk hi, hs'⟩

theorem Grows.idsOfOrders (h : Grows e e') {os : List Order} (hos : ∀ o ∈ os, o.node < e.nodes.size) :
    e'.idsOfOrders os = e.idsOfOrders os := by
  refine idsOfOrders_congr fun o ho => ?_
  obtain ⟨node, hnode⟩ := Option.isSome_iff_exists.mp ((lt_size_iff e _).mp (hos o ho))
  obtain ⟨node', hnode', hkin⟩ := h.node _ node hnode
  have hid : node'.id = node.id := congrArg Record.id hkin.record
  simp [idsOf, hnode, hnode', hid]

theorem act_resume {agenda : List Action} {stage : Stage} {stages : List Stage} (hc : e.call? key = some c)
    (hw : c.waiting = []) (hs : c.stages = stage :: stages) :
    Engine.act { e with agenda } (.resume key) = (e.taken key agenda stages).runStage key stage := by
  have hc' : ({ e with agenda } : Engine).call? key = some c := hc
  change resume { e with agenda } key = _
  unfold resume
  rw [hc']
  dsimp only
  rw [hw, hs]
  rfl

/-- Stops account for every node exactly once. Books can be kept of all engines that come about: each node that is not
active any more has got one order to close, from one call, and is reported by that call once, among those that have
closed, run out of time or failed. A step enters in them what the stops that begin or go on with it do, and what is
asked meanwhile enters nothing. And when the last stage of a call begins some stops, the call will have reported just
the nodes that these stops took out when they began, whatever is asked of the engine until then. -/
theorem stops_account_for_every_node (h : Reachable e) :
    (∃ b, Ledger e b) ∧ ∀ b, Ledger e b →
      (∀ e', Tick e e' → ∃ b', Entry e e' b b' ∧ Ledger e' b') ∧
      (∀ e', e.agenda = [] → Input e e' → Ledger e' b) ∧
      ∀ key c agenda stage requests, e.broken = false → e.agenda = .resume key :: agenda →
        e.call? key = some c → c.waiting = [] → c.stages = [stage] → stage.requests? e = some requests →
        ∃ m stops given served, Opening (e.taken key agenda []) requests m stops given served ∧
          Proceeds m key stops (Engine.act { e with agenda } (.resume key)) ∧
          ∀ e', Later (Engine.act { e with agenda } (.resume key)) e' → ∃ c', e'.call? key = some c' ∧
            (c'.report.stopped ++ c'.waiting.flatMap (Stopping.docket e'.idsOf)).Perm
              (c.report.stopped ++ e'.idsOfOrders given) := by
  refine ⟨h.books.2, fun b hb => ⟨fun e' ht => ?_, fun e' _ hi => hb.input h.keysBelow hi, ?_⟩⟩
  · obtain ⟨b', hentry, hb', -⟩ := hb.tick h h.books.1 ht
    exact ⟨b', hentry, hb'⟩
  intro key c agenda stage requests hbroken ha hc hw hs hr
  have hp := h.accounted.orderly
  rw [plan_pop ha rfl] at hp
  obtain ⟨m, stops, given, served, ho, hp', hb₁, -⟩ := hb.begins h.layout.laid h.books.1.housed hp hc hw hr []
  have hstep : Tick e (Engine.act { e with agenda } (.resume key)) := .act hbroken ha
  rw [← act_resume hc hw hs] at hp' hb₁
  refine ⟨m, stops, given, served, ho, hp', fun e' hl => ?_⟩
  have hlaid : Laid (e.taken key agenda []) := h.layout.laid.of_levels (.of_eq rfl rfl rfl rfl) fun _ => rfl
  have hcall : m.call? key = some { c with stages := [] } := by
    rw [call?_of_shell (ho.departs hlaid).stops.shell, taken, call?_modifyCall, if_pos rfl]
    exact congrArg (Option.map _) hc
  obtain ⟨c₁, hc₁, hs₁, -⟩ := hp'.call_account hcall
  obtain ⟨b', c', hb', hg, hc', -⟩ := hb₁.later (h.tick hstep) hc₁ hs₁ hl
  have hrep := hb'.reported key c' hc'
  have hbefore := hb.reported key c hc
  rw [hg, Book.given_add_self, idsOfOrders, List.flatMap_append] at hrep
  rw [hw, List.flatMap_nil, List.append_nil, ← (hstep.grows.trans hl.grows).idsOfOrders fun o ho => hb.given_lt ho]
    at hbefore
  exact ⟨c', hc', hrep.trans (hbefore.symm.append_right _)⟩

end Engine

namespace Session
open Engine

/-- A tab with a usage node, and the template that it uses. -/
def usageRecords : List Json := [
  .obj [("id", .str "t"), ("type", .str "tab")],
  .obj [("id", .str "s"), ("type", .str "subflow")],
  .obj [("id", .str "n"), ("type", .str "test"), ("z", .str "s")],
  .obj [("id", .str "u"), ("type", .str "subflow:s"), ("z", .str "t")]]

def usageFlow : Session :=
  (start ⟨((Engine.make .instrumented .standalone [] [] 500).addLevel (.make .tab none (firstTab usageRecords))).1,
    some 0, .empty, []⟩ 0 none).2

/-- The usage node is being deleted. Its id is listed twice, and there is no other node. -/
def usageStop : List StopRequest := [⟨0, some ["u", "u", "x"], .ids ["u"]⟩]

theorem agenda_turnOf {e : Engine} (ha : e.agenda = []) (key : CallKey) : (turnOf e key).agenda = [.resume key] := by
  change .resume key :: e.agenda = _
  rw [ha]

theorem call?_turnOf (e : Engine) (key j : CallKey) : (turnOf e key).call? j = e.call? j := rfl

/-- The turn in which the stop comes. -/
def usageTurn : Engine := turnOf (usageFlow.engine.begin [.stop usageStop]).1 usageFlow.engine.nextCall

theorem usageTurn_run : (usageFlow.engine.agenda = [] ∧
      (usageFlow.engine.begin [.stop usageStop]).1.broken = false ∧
      (usageFlow.engine.begin [.stop usageStop]).1.agenda = [] ∧
      Waiter.call usageFlow.engine.nextCall ∈ (usageFlow.engine.begin [.stop usageStop]).1.ready ∧
      usageTurn.broken = false) ∧
    usageTurn.activeKey? 0 "u" = some 2 ∧ usageTurn.instance? 0 "u" = some 1 ∧
    ((usageTurn.node? 0).bind fun n => usageTurn.activeKey? 1 n.id) = some 0 ∧
    ((usageTurn.node? 1).bind fun n => usageTurn.activeKey? 1 n.id) = some 1 := by
  decide +kernel

theorem reachable_usageFlow : Reachable usageFlow.engine := by
  have hmade : Reachable ((Engine.make .instrumented .standalone [] [] 500).addLevel
      (.make .tab none (firstTab usageRecords))).1 :=
    (Reachable.make _ _ _ _ _).input rfl (.flow (.inl rfl) (parsed_firstTab (by decide +kernel)))
  exact reachable_start hmade rfl

/-- The usage node and both nodes of its instance are told that they are being deleted, and whatever comes of it, the
stop reports each of them once. -/
theorem deleted_usage_node_accounted : ∃ given : List Order,
    (⟨2, true⟩ ∈ given ∧ ⟨0, true⟩ ∈ given ∧ ⟨1, true⟩ ∈ given) ∧
    ∀ e', Later (Engine.act { usageTurn with agenda := [] } (.resume usageFlow.engine.nextCall)) e' →
      ∃ c', e'.call? usageFlow.engine.nextCall = some c' ∧
        (c'.report.stopped ++ c'.waiting.flatMap (Stopping.docket e'.idsOf)).Perm (e'.idsOfOrders given) := by
  obtain ⟨⟨ha, hb, ha', hw, hb'⟩, hu, hi, h₀, h₁⟩ := usageTurn_run
  have hr : Reachable usageTurn := by
    rw [usageTurn]
    exact (reachable_usageFlow.input ha (.call (.stop _))).tick (tick_turn hb ha' hw)
  have hagenda : usageTurn.agenda = [.resume usageFlow.engine.nextCall] := by
    rw [usageTurn, agenda_turnOf ha']
  have hc : usageTurn.call? usageFlow.engine.nextCall = some (.make [.stop usageStop] usageFlow.engine.now) := by
    rw [usageTurn, call?_turnOf, call?_begin reachable_usageFlow.keysBelow, if_pos rfl]
  obtain ⟨⟨b, hbooks⟩, hall⟩ := stops_account_for_every_node hr
  obtain ⟨m, stops, given, served, ho, -, hlater⟩ := (hall b hbooks).2.2 usageFlow.engine.nextCall _ [] _ _ hb' hagenda
    hc rfl rfl rfl
  obtain ⟨s, h⟩ := ho.single
  have hst := stands_taken usageTurn usageFlow.engine.nextCall [] []
  refine ⟨given, ?_, fun e' hl => ?_⟩
  · have hcovers : StopRequest.Covers ⟨0, some ["u", "u", "x"], .ids ["u"]⟩ "u" := by
      rintro ids hids
      cases hids
      exact List.mem_cons_self
    have hnested {n : NodeKey} (hn : ((usageTurn.node? n).bind fun node => usageTurn.activeKey? 1 node.id) = some n) :
        (⟨n, true⟩ : Order) ∈ given := by
      obtain ⟨node, -, hact⟩ := Option.bind_eq_some_iff.mp hn
      exact (h.given _).mpr ⟨1, node.id, (hst.active _ _).trans hact, .nested hcovers ((hst.inst _ _).trans hi) .here⟩
    exact ⟨(h.given _).mpr ⟨0, "u", (hst.active _ _).trans hu, .own hcovers⟩, hnested h₀, hnested h₁⟩
  · obtain ⟨c', hc', hp⟩ := hlater e' hl
    exact ⟨c', hc', hp⟩

end Session
end Flowgraph
