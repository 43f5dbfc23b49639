import Flowgraph.Proofs.Accounting
import Flowgraph.Proofs.Listening
import Flowgraph.Proofs.Outset
/-! Nodes that have been taken out. Whoever leaves its level is told to stop in the same step, and stays told; so a node
that has not been told to stop is active. -/
namespace Flowgraph.Engine

variable {e e' e'' m : Engine} {k : LevelKey} {n : NodeKey} {call key : CallKey}

/-- Every node that has not been told to stop is active. -/
def Hushed (e : Engine) : Prop := ∀ n node, e.node? n = some node → node.cancelled = false → e.IsActive n

namespace Hushed

/-- Nobody leaves, and nobody is told anything. -/
theorem of_active (h : Hushed e) (ha : ∀ n, e.IsActive n → e'.IsActive n)
    (hc : ∀ n, (e'.node? n).map (·.cancelled) = (e.node? n).map (·.cancelled)) : Hushed e' := by
  intro n node hn hnode
  have hcn := hc n
  rw [hn] at hcn
  obtain ⟨node', hn', he⟩ := Option.map_eq_some_iff.mp hcn.symm
  exact ha n (h n node' hn' (he.trans hnode))

theorem still (h : Hushed e) (hs : e'.still = e.still) : Hushed e' :=
  h.of_active (fun n => (isActive_of_levels (level?_of_still hs) n).mpr) fun n => cancelled_of_still hs n

theorem of_stands (h : Hushed e) (hs : Stands e e')
    (hc : ∀ n, (e'.node? n).map (·.cancelled) = (e.node? n).map (·.cancelled)) : Hushed e' :=
  h.of_active (fun _ ⟨j, id, hn⟩ => ⟨j, id, (hs.active j id).trans hn⟩) hc

theorem modifyLevel (h : Hushed e) (k : LevelKey) (f : Level → Level) (hf : ∀ l, (f l).active = l.active) :
    Hushed (e.modifyLevel k f) := by
  refine h.of_active (fun n ⟨j, id, hn⟩ => ⟨j, id, ?_⟩) fun _ => rfl
  rw [activeKey?_modifyLevel]
  split
  · simpa only [hf, activeKey?] using hn
  · exact hn

theorem refresh (h : Hushed e) (k : LevelKey) : Hushed (e.refresh k) :=
  h.of_stands (.refresh e k) fun n => by rw [node?_refresh]

end Hushed

/-! ## Stops that begin -/

theorem cancelled_withdraw (k : LevelKey) {targets : List NodeKey} (hn : n ∈ targets) {node : Node}
    (h : (e.withdraw k targets).node? n = some node) : node.cancelled = true := by
  -- once told, a node stays told
  have hkept (ns : List NodeKey) (e : Engine) (he : ∀ node, e.node? n = some node → node.cancelled = true) :
      ∀ node, (ns.foldl (fun e m => e.cancel m) e).node? n = some node → node.cancelled = true := by
    induction ns generalizing e with
    | nil => exact he
    | cons m ns ih =>
      refine ih (e.cancel m) fun node hnode => ?_
      rw [node?_cancel] at hnode
      split at hnode
      · obtain ⟨node', -, rfl⟩ := Option.map_eq_some_iff.mp hnode
        rfl
      · exact he node hnode
  have htold (ns : List NodeKey) (e : Engine) (hn : n ∈ ns) :
      ∀ node, (ns.foldl (fun e m => e.cancel m) e).node? n = some node → node.cancelled = true := by
    induction ns generalizing e with
    | nil => cases hn
    | cons m ns ih =>
      rcases List.mem_cons.mp hn with rfl | hn
      · refine hkept ns (e.cancel n) fun node hnode => ?_
        rw [node?_cancel, if_pos rfl] at hnode
        obtain ⟨node', -, rfl⟩ := Option.map_eq_some_iff.mp hnode
        rfl
      · exact ih (e.cancel m) hn
  exact htold targets _ hn node h

theorem hushed_vacated (hl : Laid e) {r : StopRequest} {l : Level} (hlevel : e.level? r.level = some l) (h : Hushed e) :
    Hushed (e.vacated l r) := by
  intro n node hn hc
  by_cases hm : n ∈ e.stopTargets l r.filter
  · unfold vacated at hn
    rw [cancelled_withdraw _ hm hn] at hc
    cases hc
  · refine (isActive_vacated hl hlevel).mpr ⟨h n node ?_ hc, hm⟩
    unfold vacated at hn
    split at hn
    · rwa [node?_withdraw _ _ hm, node?_modifyLevel] at hn
    · rwa [node?_withdraw _ _ hm] at hn

theorem hushed_finishStop (h : Hushed e) (k : LevelKey) (full : Bool) (previous : Phase) (backward : Bool)
    (closings : List Closing) : Hushed (e.finishStop k full previous backward closings).1 := by
  have hphase (p : Phase) : Hushed ((e.refresh k).modifyLevel k fun l => { l with phase := p }) :=
    (h.refresh k).modifyLevel k (fun l => { l with phase := p }) fun _ => rfl
  rcases finishStop_eq e k full previous backward closings with ⟨turned, -, hf⟩ | ⟨report, s, -, hs, hf⟩
  · rw [hf]
    exact h
  · rw [hf]
    exact (hphase _).still hs

theorem hushed_beginClosing {stopInner : Engine → StopRequest → Engine × Stopping}
    (hs : ∀ e r, Laid e → Hushed e → Hushed (stopInner e r).1) (call : CallKey) (level : LevelKey) (k : NodeKey)
    (removed : Bool) (hl : Laid e) (h : Hushed e) : Hushed (beginClosing stopInner call e level k removed).1 := by
  unfold beginClosing
  split
  · exact h
  · rename_i node hn
    split
    · exact h.still (silent_askToClose _ _ _ _ _).still
    · rename_i inst hi
      have hlaid : Laid (e.modifyLevel level fun l => { l with instances := l.instances.erase node.id }) :=
        Stops.laid (StopsWithin.single (.forget level node.id trivial)) hl
      have hin := hs _ ⟨inst, none, if removed then .all else .none⟩ hlaid
        (h.modifyLevel level (fun l => { l with instances := l.instances.erase node.id }) fun _ => rfl)
      dsimp only
      split
      · rename_i e' report hr
        rw [hr] at hin
        exact hin.still (silent_askToClose _ _ _ _ _).still
      · rename_i e' stop hr
        rw [hr] at hin
        exact hin

theorem hushed_beginStop (call : CallKey) (fuel : Nat) (e : Engine) (r : StopRequest) (hl : Laid e) (h : Hushed e) :
    Hushed (beginStop call fuel e r).1 := by
  induction fuel generalizing e r with
  | zero => exact h
  | succ fuel ih =>
    cases hlevel : e.level? r.level with
    | none =>
      unfold beginStop
      rw [hlevel]
      exact h
    | some l =>
      rw [beginStop_eq call fuel hlevel]
      refine hushed_finishStop ?_ _ _ _ _ _
      -- the closes begin one after the other
      have hall (targets : List NodeKey) (s : Engine × List Closing) (hl : Laid s.1) (h : Hushed s.1) :
          Hushed (beginAll (beginStop call fuel) call r s targets).1 := by
        induction targets generalizing s with
        | nil => exact h
        | cons n ns ihs =>
          have hst : Stops s.1 (beginClosing (beginStop call fuel) call s.1 r.level n
              (r.removal.holds (((s.1.node? n).map (·.id)).getD ""))).1 :=
            stops_beginClosing (fun e inst removal _ _ => stops_beginStop call fuel e _) call (fun _ _ _ _ _ _ _ _ => trivial)
              (fun _ _ => trivial) _
          exact ihs _ (hst.laid hl) (hushed_beginClosing (fun e r => ih e r) call r.level n _ hl h)
      have hst : Stops e (e.vacated l r) := stops_vacated hlevel fun _ _ _ _ _ _ => trivial
      exact hall _ _ (hst.laid hl) (hushed_vacated hl hlevel h)

theorem hushed_beginStops (key : CallKey) (requests : List StopRequest) (s : Engine × List Stopping) (hl : Laid s.1)
    (h : Hushed s.1) : Hushed (beginStops key s requests).1 := by
  induction requests generalizing s with
  | nil => exact h
  | cons r rs ih => exact ih _ ((stops_stop s.1 key r).laid hl) (hushed_beginStop key _ s.1 r hl h)

/-! ## Stops that go on -/

/-- A stop that goes on tells some nodes to stop, and takes nobody out. -/
theorem StopsWithin.cancelled {may : LevelKey → NodeId → Prop} (h : StopsWithin may e e') {node' : Node}
    (hn : e'.node? n = some node') (hc : node'.cancelled = false) :
    ∃ node, e.node? n = some node ∧ node.cancelled = false := by
  refine h.invariant (P := fun s => ∀ node', s.node? n = some node' → node'.cancelled = false →
    ∃ node, e.node? n = some node ∧ node.cancelled = false) (fun s s' hs ht node' hn hc => ?_)
    (fun node' hn hc => ⟨node', hn, hc⟩) node' hn hc
  cases ht with
  | still hst _ =>
    have hcn := cancelled_of_still hst n
    rw [hn] at hcn
    obtain ⟨node, hn', he⟩ := Option.map_eq_some_iff.mp hcn.symm
    exact hs node hn' (he.trans hc)
  | cancel m =>
    rw [node?_modifyNode] at hn
    split at hn
    · obtain ⟨node, -, rfl⟩ := Option.map_eq_some_iff.mp hn
      cases hc
    · exact hs node' hn hc
  | _ => exact hs node' hn hc

theorem hushed_pollStops (hl : Laid e) (h : Hushed e) (key : CallKey) (stops : List Stopping) :
    Hushed (pollStops key (e, []) stops).1 := by
  have hwithin : StopsWithin (fun _ _ => ¬True) e (pollStops key (e, []) stops).1 :=
    stopsWithin_pollStops key (e, []) stops
  have hspares : Spares (fun _ _ => True) e (pollStops key (e, []) stops).1 := hwithin.spares hl.placed
  intro n node' hn hc
  obtain ⟨node, hn', hc'⟩ := hwithin.cancelled hn hc
  obtain ⟨j, id, ha⟩ := h n node hn' hc'
  exact ⟨j, id, (hspares.active j id trivial).trans ha⟩

/-! ## Everything else -/

theorem Rewires.cancelled (h : Rewires e e') (n : NodeKey) :
    (e'.node? n).map (·.cancelled) = (e.node? n).map (·.cancelled) := by
  refine h.invariant (P := fun s => (s.node? n).map (·.cancelled) = (e.node? n).map (·.cancelled))
    (fun s s' hs ht => ?_) rfl
  cases ht with
  | wires k wires =>
    rw [node?_modifyNode]
    split
    · rw [Option.map_map]
      exact hs
    · exact hs
  | _ => exact hs

/-- A stage that stops nothing tells nobody to stop. -/
theorem cancelled_runStage (key : CallKey) {stage : Stage} (hs : stage.requests? e = none) (n : NodeKey) :
    ((e.runStage key stage).node? n).map (·.cancelled) = (e.node? n).map (·.cancelled) := by
  cases stage with
  | stop requests => cases hs
  | stopAmong levels ids removed => cases hs
  | start k diff =>
    have h := starts_start e key k diff
    change ((e.start key k diff).node? n).map (·.cancelled) = _
    generalize e.start key k diff = e' at h ⊢
    cases h <;> rfl
  | apply k config diff =>
    have h := applies_apply e key k config diff
    have hrewired : ((e.rewired k config diff).node? n).map (·.cancelled) = (e.node? n).map (·.cancelled) := by
      cases diff with
      | none => rfl
      | some d => exact (rewires_rewire e k config d).cancelled n
    change ((e.apply key k config diff).node? n).map (·.cancelled) = _
    generalize e.apply key k config diff = e' at h ⊢
    cases h <;> exact hrewired
  | startAll next =>
    change ((e.startAll key next).node? n).map (·.cancelled) = _
    unfold startAll
    split <;> rfl
  | startTab config listed =>
    change ((e.startTab key config listed).node? n).map (·.cancelled) = _
    unfold startTab
    split <;> rfl
  | enlistGathered =>
    rw [runStage_enlistGathered]
    rfl
  | _ => rfl

theorem Opens.cancelled {usage : Record} {t : Template} (h : Opens e k usage t e') (n : NodeKey) :
    (e'.node? n).map (·.cancelled) = (e.node? n).map (·.cancelled) := by
  cases h with
  | nowhere => rfl
  | breaks => rfl
  | collapses => rw [node?_failCreation]; rfl
  | opens => rfl

/-- The making of nodes tells nobody to stop. -/
theorem cancelled_makes {a : Action} (hm : a.makes = true) (hn : n < e.nodes.size) :
    ((e.act a).node? n).map (·.cancelled) = (e.node? n).map (·.cancelled) := by
  cases a with
  | create k r templates =>
    have h := creates_create e k r templates
    change ((e.create k r templates).node? n).map (·.cancelled) = _
    generalize e.create k r templates = e' at h ⊢
    cases h with
    | present => rfl
    | noTemplate => rw [node?_failCreation]
    | refused => rw [node?_failCreation]
    | usage _ _ _ ho => exact ho.cancelled n
    | made =>
      rw [node?_enter]
      exact congrArg _ (if_neg (Nat.ne_of_lt hn))
  | install k r i =>
    change ((e.install k r i).node? n).map (·.cancelled) = _
    rw [install, node?_enter]
    exact congrArg _ (if_neg (Nat.ne_of_lt hn))
  | refresh k =>
    change ((e.refresh k).node? n).map (·.cancelled) = _
    rw [node?_refresh]
  | _ => cases hm

/-- New nodes are active, and nobody leaves. -/
theorem Hushed.retains (h : Hushed e) (hr : Retains e e')
    (hc : ∀ n < e.nodes.size, (e'.node? n).map (·.cancelled) = (e.node? n).map (·.cancelled)) : Hushed e' := by
  intro n node hn hnode
  by_cases hlt : n < e.nodes.size
  · have hcn := hc n hlt
    rw [hn] at hcn
    obtain ⟨node', hn', he⟩ := Option.map_eq_some_iff.mp hcn.symm
    exact (hr.active n hlt).mpr (h n node' hn' (he.trans hnode))
  · exact hr.entered n (Nat.le_of_not_lt hlt) (node?_lt e' n hn)

/-- Nobody leaves by an action that is no call's. -/
theorem Reachable.retains_act (hr : Reachable e) {a : Action} {agenda : List Action} (ha : e.agenda = a :: agenda)
    (hq : a.isQuiet = false) (hne : ∀ key, a ≠ .resume key) :
    a.makes = true ∧ Retains { e with agenda } (Engine.act { e with agenda } a) := by
  have hreg := hr.books.1
  have hpop := hreg.pop ha hq
  have hmem : a ∈ e.plan := by simp [plan, ha, hq]
  have hmakes : a.makes = true := by
    cases a with
    | resume key => exact absurd rfl (hne key)
    | create k r templates => rfl
    | install k r inst => rfl
    | refresh k => rfl
    | _ => cases hq
  have hapt : ({ e with agenda } : Engine).Apt a :=
    (show Grows e { e with agenda } from .of_eq rfl rfl rfl rfl).apt (hr.layout.makes a hmem)
  exact ⟨hmakes, (registered_makes hpop.1 hmakes hapt (fun k r i hi => hreg.vacant k r i (hi ▸ hmem)) hpop.2).1⟩

theorem Hushed.tick (hr : Reachable e) (h : Hushed e) (ht : Tick e e') : Hushed e' := by
  rcases ht.kinds with ⟨hs, -⟩ | ⟨_, -, hs, -⟩ | ⟨a, agenda, -, hq, ha, rfl⟩
  · exact h.still hs
  · exact h.still hs
  have hm : Hushed { e with agenda } := h.of_stands (stands_agenda e agenda) fun _ => rfl
  by_cases hres : ∃ j, a = .resume j
  · obtain ⟨j, rfl⟩ := hres
    have hlaid : Laid ({ e with agenda } : Engine) := hr.layout.laid.of_levels (.of_eq rfl rfl rfl rfl) fun _ => rfl
    have hcalls (f : Call → Call) : Hushed (({ e with agenda } : Engine).modifyCall j f) :=
      hm.of_active (fun _ h => h) fun _ => rfl
    have hproceeds {s s' : Engine} {stops : List Stopping} (h : Hushed s) (hp : Proceeds s j stops s') : Hushed s' := by
      have hwaits : Hushed (s.modifyCall j fun c => { c with waiting := stops }) :=
        h.of_active (fun _ h => h) fun _ => rfl
      cases hp with
      | waits _ hs => exact hwaits.still hs.still
      | done => exact h.of_active (fun _ h => h) fun _ => rfl
    have hresumes := resumes_resume { e with agenda } j
    change Resumes { e with agenda } j (Engine.act { e with agenda } (.resume j)) at hresumes
    generalize Engine.act { e with agenda } (.resume j) = e' at hresumes ⊢
    cases hresumes with
    | unknown => exact hm
    | ends => exact hcalls _
    | @stage c stage stages hc hw hs =>
      have ho := hr.accounted.orderly
      rw [plan_pop ha hq] at ho
      cases hrq : stage.requests? (e.taken j agenda stages) with
      | none =>
        exact (hcalls fun c => { c with stages }).of_stands (stands_runStage (e := e.taken j agenda stages) ho j hrq).1
          (cancelled_runStage j hrq)
      | some requests =>
        change Hushed ((e.taken j agenda stages).runStage j stage)
        rw [runStage_of_requests? hrq, stopAll_eq]
        exact hproceeds (hushed_beginStops j requests (_, []) (hr.layout.laid.taken j agenda stages)
          (hcalls fun c => { c with stages }))
          (proceeds_afterStops _ _ _)
    | waits hc hw =>
      rw [pollAll_eq]
      exact hproceeds (hushed_pollStops hlaid hm j _) (proceeds_afterStops _ _ _)
  · obtain ⟨hmakes, hret⟩ := hr.retains_act ha hq fun key h => hres ⟨key, h⟩
    exact hm.retains hret fun n hn => cancelled_makes hmakes hn

theorem Hushed.input (h : Hushed e) (hi : Input e e') : Hushed e' := by
  have haddLevel (l : Level) (ha : l.active = []) : Hushed (e.addLevel l).1 := by
    refine h.of_active (fun n ⟨j, id, hn⟩ => ⟨j, id, ?_⟩) fun _ => rfl
    rw [activeKey?, level?_addLevel]
    split
    · rename_i hj
      obtain ⟨l', hl', -⟩ := Option.bind_eq_some_iff.mp hn
      exact absurd (level?_lt e j hl') (hj ▸ Nat.lt_irrefl _)
    · exact hn
  cases hi with
  | call ho =>
    exact h.of_active (fun n ⟨j, id, hn⟩ => ⟨j, id, by rwa [activeKey?, level?_begin]⟩) fun n => by rw [node?_begin]
  | quiet hq => exact h.still hq.still
  | keep => exact h.of_active (fun _ h => h) fun _ => rfl
  | flow => exact haddLevel _ rfl
  | update => exact h.modifyLevel _ _ fun _ => rfl

/-- Whoever has been taken out has been told to stop. -/
theorem Reachable.hushed (h : Reachable e) : Hushed e :=
  h.invariant (P := Hushed) (fun _ _ _ _ _ n node hn _ => by simp [node?, Engine.make] at hn)
    (fun _ _ hr hh ht => hh.tick hr ht) fun _ _ _ hh _ hi => hh.input hi

end Flowgraph.Engine
