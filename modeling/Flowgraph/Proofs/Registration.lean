import Flowgraph.Proofs.Clearance
/-! How nodes come to be active. A node stays at its entry until a stop takes it out: new nodes are entered where there
is none, and an instance is entered together with its usage node. -/
namespace Flowgraph

/-- The level in which an action enters a usage node. -/
def Action.installsIn? : Action → Option LevelKey
  | .install k .. => some k
  | _ => none

/-- The stops that a stage of a call begins. -/
def Stage.requests? (e : Engine) : Stage → Option (List StopRequest)
  | .stop requests => some requests
  | .stopAmong levels ids removed => some <| levels.map fun k =>
    ⟨k, some (ids.filter fun id => (e.activeKey? k id).isSome), .ids removed⟩
  | _ => none

namespace Engine

variable {e e' e'' : Engine} {i j k : LevelKey} {id : NodeId} {n : NodeKey} {key : CallKey}

/-- What a call has reported, and the stops that it waits for. -/
def account? (e : Engine) (j : CallKey) : Option (StopReport × List Stopping) :=
  (e.call? j).map fun c => (c.report, c.waiting)

/-! ## Steps in which nobody comes or goes -/

/-- No node and no instance comes or goes, and the calls have the same to account for. -/
structure Stands (e e' : Engine) : Prop where
  active : ∀ j id, e'.activeKey? j id = e.activeKey? j id
  inst : ∀ j id, e'.instance? j id = e.instance? j id
  face : ∀ n, (e'.node? n).map Node.face = (e.node? n).map Node.face
  account : ∀ j, e'.account? j = e.account? j

namespace Stands

theorem refl (e : Engine) : Stands e e := ⟨fun _ _ => rfl, fun _ _ => rfl, fun _ => rfl, fun _ => rfl⟩

theorem trans (h : Stands e e') (h' : Stands e' e'') : Stands e e'' :=
  ⟨fun j id => (h'.active j id).trans (h.active j id), fun j id => (h'.inst j id).trans (h.inst j id),
    fun n => (h'.face n).trans (h.face n), fun j => (h'.account j).trans (h.account j)⟩

theorem of_levels (hl : ∀ k, e'.level? k = e.level? k) (hf : ∀ n, (e'.node? n).map Node.face = (e.node? n).map Node.face)
    (hc : ∀ j, e'.account? j = e.account? j) : Stands e e' :=
  ⟨fun j id => by rw [activeKey?, activeKey?, hl], fun j id => by rw [instance?, instance?, hl], hf, hc⟩

theorem still (h : e'.still = e.still) : Stands e e' :=
  of_levels (level?_of_still h) (face_of_still h) fun j => by rw [account?, account?, call?_of_still h]

theorem modifyLevel (e : Engine) (k : LevelKey) (f : Level → Level)
    (hf : ∀ l, (f l).active = l.active ∧ (f l).instances = l.instances) : Stands e (e.modifyLevel k f) := by
  refine ⟨fun j id => ?_, fun j id => ?_, fun _ => rfl, fun _ => rfl⟩
  · rw [activeKey?_modifyLevel]
    split
    · rw [activeKey?]
      simp only [(hf _).1]
    · rfl
  · rw [instance?_modifyLevel]
    split
    · rw [instance?]
      simp only [(hf _).2]
    · rfl

theorem modifyCall (e : Engine) (key : CallKey) (f : Call → Call)
    (hf : ∀ c, (f c).report = c.report ∧ (f c).waiting = c.waiting) : Stands e (e.modifyCall key f) := by
  refine of_levels (fun _ => rfl) (fun _ => rfl) fun j => ?_
  rw [account?, account?, call?_modifyCall]
  split
  · rw [Option.map_map]
    congr 1
    funext c
    exact Prod.ext (hf c).1 (hf c).2
  · rfl

theorem addLevel (e : Engine) {l : Level} (ha : l.active = []) (hi : l.instances = []) :
    Stands e (e.addLevel l).1 := by
  have hnone : e.level? e.levels.size = none := Array.getElem?_eq_none (Nat.le_refl _)
  refine ⟨fun j id => ?_, fun j id => ?_, fun _ => rfl, fun _ => rfl⟩
  · rw [activeKey?, activeKey?, level?_addLevel]
    split
    · rename_i hj
      rw [hj, hnone, Option.bind_some, ha]
      rfl
    · rfl
  · rw [instance?, instance?, level?_addLevel]
    split
    · rename_i hj
      rw [hj, hnone, Option.bind_some, hi]
      rfl
    · rfl

theorem rewires (h : Rewires e e') : Stands e e' := by
  refine ⟨fun j id => (h.entries j id).1, fun j id => (h.entries j id).2, fun n => ?_, fun j => ?_⟩
  · refine h.invariant (P := fun s => (s.node? n).map Node.face = (e.node? n).map Node.face) (fun s s' hs ht => ?_) rfl
    cases ht with
    | wires k wires =>
      rw [node?_modifyNode]
      split
      · rw [Option.map_map]
        exact hs
      · exact hs
    | _ => exact hs
  · rw [account?, account?, call?_of_calls h.frame.1]

theorem proceed (e : Engine) (key : CallKey) (stages : List Stage) : Stands e (e.proceed key stages) :=
  (modifyCall e key (fun c => { c with stages := stages ++ c.stages }) fun _ => ⟨rfl, rfl⟩).trans
    (of_levels (fun _ => rfl) (fun _ => rfl) fun _ => rfl)

theorem refuse (e : Engine) (key : CallKey) (fault : FlowFault) : Stands e (e.refuse key fault) :=
  (modifyCall e key (fun c => { c with stages := [], fault := some fault }) fun _ => ⟨rfl, rfl⟩).trans
    (of_levels (fun _ => rfl) (fun _ => rfl) fun _ => rfl)

theorem hold (e : Engine) (key : CallKey) (levels : List LevelKey) : Stands e (e.hold key levels) :=
  modifyCall e key _ fun _ => ⟨rfl, rfl⟩

theorem activated (e : Engine) (k : LevelKey) (c : FlowConfig) (order : List Nat) :
    Stands e (e.activated k c order) :=
  (modifyLevel e k (fun l => { l with env := Scope.evaluate (e.settingAround k) c.env }) fun _ => ⟨rfl, rfl⟩).trans
    (of_levels (fun _ => rfl) (fun _ => rfl) fun _ => rfl)

theorem failCreation (e : Engine) (k : LevelKey) (r : Record) (fault : NodeFault) :
    Stands e (e.failCreation k r fault) := by
  unfold Engine.failCreation
  split
  · exact .refl e
  · exact (still (quiet_publish _ _).still).trans (.modifyLevel _ _ _ fun _ => ⟨rfl, rfl⟩)

theorem withInstance (e : Engine) (k : LevelKey) (l : Level) (b : Binding) (nodes : List Record) :
    Stands e (e.withInstance k l b nodes) := by
  have h : Stands e { e with nextPrivate := e.nextPrivate + Binding.idsNeeded b.template } :=
    of_levels (fun _ => rfl) (fun _ => rfl) fun _ => rfl
  exact h.trans (addLevel _ rfl rfl)

theorem refresh (e : Engine) (k : LevelKey) : Stands e (e.refresh k) := by
  unfold Engine.refresh
  split
  · exact .refl e
  · exact .modifyLevel _ _ _ fun _ => ⟨rfl, rfl⟩

theorem rewired (e : Engine) (k : LevelKey) (config : FlowConfig) (diff : Option Diff) :
    Stands e (e.rewired k config diff) := by
  unfold Engine.rewired
  refine Stands.trans ?_ (.modifyLevel _ _ _ fun _ => ⟨rfl, rfl⟩)
  cases diff with
  | none => exact .refl e
  | some d => exact rewires (rewires_rewire _ _ _ _)

end Stands

/-! ## The stages of a call that stop nothing -/

/-- No usage node is about to be entered. -/
def NoInstalls (e : Engine) : Prop := ∀ a ∈ e.plan, a.installsIn? = none

theorem noInstalls_resume (hp : e.plan = []) : NoInstalls (e.push [.resume key]) := by
  intro a ha
  rw [plan_push, hp, List.append_nil] at ha
  obtain rfl := List.mem_singleton.mp (List.mem_filter.mp ha).1
  rfl

theorem Starts.stands {diff : Option Diff} (h : Starts e key k diff e') (hp : e.plan = []) :
    Stands e e' ∧ NoInstalls e' := by
  cases h with
  | nowhere => exact ⟨.proceed _ _ _, noInstalls_resume hp⟩
  | refused => exact ⟨.refuse _ _ _, noInstalls_resume hp⟩
  | fresh =>
    exact ⟨(Stands.modifyLevel e k (fun l => { l with failures := [] }) fun _ => ⟨rfl, rfl⟩).trans (.proceed _ _ _),
      noInstalls_resume hp⟩
  | again => exact ⟨.proceed _ _ _, noInstalls_resume hp⟩

theorem Applies.stands {config : FlowConfig} {diff : Option Diff} (h : Applies e key k config diff e')
    (hp : e.plan = []) : Stands e e' ∧ NoInstalls e' := by
  have hr := Stands.rewired e k config diff
  have hpr := plan_rewired hp k config diff
  have hpush : Stands (e.rewired k config diff) ((e.rewired k config diff).push [.announce k, .resume key]) :=
    .of_levels (fun _ => rfl) (fun _ => rfl) fun _ => rfl
  have hplan : ((e.rewired k config diff).push [.announce k, .resume key]).plan = [.resume key] := by
    rw [plan_push, hpr]
    rfl
  cases h with
  | nowhere =>
    refine ⟨hr.trans hpush, fun a ha => ?_⟩
    rw [hplan] at ha
    obtain rfl := List.mem_singleton.mp ha
    rfl
  | activates =>
    refine ⟨(hr.trans hpush).trans (.activated _ _ _ _), fun a ha => ?_⟩
    rw [plan_activated, hplan] at ha
    rcases List.mem_append.mp ha with ha | ha
    · rcases List.mem_append.mp ha with ha | ha
      · obtain ⟨r, -, rfl⟩ := mem_creations ha
        rfl
      · obtain rfl := List.mem_singleton.mp ha
        rfl
    · obtain rfl := List.mem_singleton.mp ha
      rfl
  | refused => exact ⟨hr.trans (.refuse _ _ _), noInstalls_resume hpr⟩

theorem stands_startAll (hp : e.plan = []) (key : CallKey) (next : Deployment) :
    Stands e (e.startAll key next) ∧ NoInstalls (e.startAll key next) := by
  unfold startAll
  split
  · exact ⟨.refuse _ _ _, noInstalls_resume hp⟩
  · have hl : Stands e (e.addLevel (.make .global none next.global)).1 := .addLevel e rfl rfl
    have hg : Stands (e.addLevel (.make .global none next.global)).1
        { (e.addLevel (.make .global none next.global)).1 with
          global := some (e.addLevel (.make .global none next.global)).2 } :=
      .of_levels (fun _ => rfl) (fun _ => rfl) fun _ => rfl
    exact ⟨((hl.trans hg).trans (.hold _ _ _)).trans (.proceed _ _ _), noInstalls_resume hp⟩

theorem stands_startTab (hp : e.plan = []) (key : CallKey) (config : FlowConfig) (listed : Bool) :
    Stands e (e.startTab key config listed) ∧ NoInstalls (e.startTab key config listed) := by
  unfold startTab
  split
  · exact ⟨.proceed _ _ _, noInstalls_resume hp⟩
  · have hl : Stands e (e.addLevel (.make .tab none config)).1 := .addLevel e rfl rfl
    exact ⟨(hl.trans (.hold _ _ _)).trans (.proceed _ _ _), noInstalls_resume hp⟩

/-- Nobody comes or goes by a stage that begins no stops. -/
theorem stands_runStage (hp : e.plan = []) (key : CallKey) {stage : Stage} (hs : stage.requests? e = none) :
    Stands e (e.runStage key stage) ∧ NoInstalls (e.runStage key stage) := by
  have hsame {s : Engine} (hl : s.levels = e.levels) (hn : s.nodes = e.nodes) (hc : s.calls = e.calls)
      (ha : s.agenda = e.agenda) (stages : List Stage) :
      Stands e (s.proceed key stages) ∧ NoInstalls (s.proceed key stages) := by
    have hst : Stands e s := .of_levels (fun k => by rw [level?, level?, hl]) (fun n => by rw [node?, node?, hn])
      fun j => by rw [account?, account?, call?_of_calls hc]
    refine ⟨hst.trans (.proceed _ _ _), noInstalls_resume (e := s.modifyCall key _) ?_⟩
    change s.agenda.filter _ = []
    rw [ha]
    exact hp
  cases stage with
  | stop requests => cases hs
  | stopAmong levels ids removed => cases hs
  | start k diff => exact (starts_start e key k diff).stands hp
  | apply k config diff => exact (applies_apply e key k config diff).stands hp
  | update k config =>
    exact ⟨(Stands.modifyLevel e k (fun l => { l with config }) fun _ => ⟨rfl, rfl⟩).trans (.proceed _ _ _),
      noInstalls_resume hp⟩
  | deployNodes previous next diff =>
    exact ⟨(Stands.hold e key _).trans (.proceed _ _ _), noInstalls_resume hp⟩
  | stopAll =>
    have hst : Stands e { e with flows := [], global := none } := .of_levels (fun _ => rfl) (fun _ => rfl) fun _ => rfl
    exact ⟨(hst.trans (.hold _ key _)).trans (.proceed _ _ _), noInstalls_resume hp⟩
  | startAll next => exact stands_startAll hp key next
  | startTab config listed => exact stands_startTab hp key config listed
  | enlist k => exact hsame (s := { e with flows := e.flows ++ [k] }) rfl rfl rfl rfl []
  | gather k =>
    exact ⟨(Stands.modifyCall e key (fun c => { c with gathered := c.gathered ++ [k] }) fun _ => ⟨rfl, rfl⟩).trans
      (.proceed _ _ _), noInstalls_resume hp⟩
  | enlistGathered =>
    rw [runStage_enlistGathered]
    exact hsame (s := { e with flows := e.gathered key }) rfl rfl rfl rfl []
  | commit next => exact hsame (s := { e with deployed := some next }) rfl rfl rfl rfl []
  | withdraw => exact hsame (s := { e with deployed := none }) rfl rfl rfl rfl []
  | stuck =>
    refine ⟨.modifyCall e key (fun c => { c with stages := .stuck :: c.stages }) fun _ => ⟨rfl, rfl⟩, fun a ha => ?_⟩
    change a ∈ e.plan at ha
    rw [hp] at ha
    cases ha

/-! ## Steps in which nobody leaves -/

/-- Everyone who was there still is, and everyone who has come is active. -/
structure Retains (e e' : Engine) : Prop where
  active : ∀ n, n < e.nodes.size → (e'.IsActive n ↔ e.IsActive n)
  entered : ∀ n, e.nodes.size ≤ n → n < e'.nodes.size → e'.IsActive n
  face : ∀ n, n < e.nodes.size → (e'.node? n).map Node.face = (e.node? n).map Node.face
  size : e.nodes.size ≤ e'.nodes.size
  account : ∀ j, e'.account? j = e.account? j

theorem Retains.trans (h : Retains e e') (h' : Retains e' e'') : Retains e e'' := by
  refine ⟨fun n hn => (h'.active n (Nat.lt_of_lt_of_le hn h.size)).trans (h.active n hn), fun n hn hn' => ?_,
    fun n hn => (h'.face n (Nat.lt_of_lt_of_le hn h.size)).trans (h.face n hn), Nat.le_trans h.size h'.size,
    fun j => (h'.account j).trans (h.account j)⟩
  by_cases hm : n < e'.nodes.size
  · exact (h'.active n hm).mpr (h.entered n hn hm)
  · exact h'.entered n (Nat.le_of_not_lt hm) hn'

/-- Nobody comes, either. -/
theorem Retains.of_active (ha : ∀ j id, e'.activeKey? j id = e.activeKey? j id)
    (hf : ∀ n, (e'.node? n).map Node.face = (e.node? n).map Node.face) (hc : ∀ j, e'.account? j = e.account? j) :
    Retains e e' := by
  have hsize := size_of_face hf
  refine ⟨fun n _ => ?_, fun n hn hn' => ?_, fun n _ => hf n, Nat.le_of_eq hsize.symm, hc⟩
  · unfold IsActive
    simp only [ha]
  · rw [hsize] at hn'
    exact absurd hn' (Nat.not_lt_of_le hn)

theorem Stands.retains (h : Stands e e') : Retains e e' := .of_active h.active h.face h.account

theorem size_enter (e : Engine) (k : LevelKey) (r : Record) (part : Part) :
    (e.enter k r part).nodes.size = e.nodes.size + 1 := by
  unfold enter
  cases part <;> exact Array.size_push _

/-- A node is entered where there is none. -/
theorem retains_enter {r : Record} (hk : e.Admits k r.id) (hn : e.activeKey? k r.id = none) (part : Part) :
    Retains e (e.enter k r part) := by
  obtain ⟨l, hlevel, -⟩ := hk
  have hnew : (e.enter k r part).activeKey? k r.id = some e.nodes.size := by
    rw [activeKey?_enter, if_pos rfl, hlevel, Option.bind_some, if_pos rfl]
  have hold {j : LevelKey} {id : NodeId} (hne : ¬(k = j ∧ r.id = id)) :
      (e.enter k r part).activeKey? j id = e.activeKey? j id := by
    rw [activeKey?_enter]
    split
    · rename_i hj
      rw [activeKey?]
      simp only [if_neg fun hid => hne ⟨hj, hid⟩]
    · rfl
  refine ⟨fun m hm => ⟨?_, ?_⟩, fun m hm hm' => ?_, fun m hm => ?_, ?_, fun j => ?_⟩
  · rintro ⟨j, id, ha⟩
    by_cases he : k = j ∧ r.id = id
    · obtain ⟨rfl, rfl⟩ := he
      rw [hnew] at ha
      cases ha
      exact absurd hm (Nat.lt_irrefl _)
    · exact ⟨j, id, (hold he).symm.trans ha⟩
  · rintro ⟨j, id, ha⟩
    refine ⟨j, id, (hold ?_).trans ha⟩
    rintro ⟨rfl, rfl⟩
    rw [hn] at ha
    cases ha
  · rw [size_enter] at hm'
    obtain rfl := Nat.le_antisymm (Nat.le_of_lt_succ hm') hm
    exact ⟨k, r.id, hnew⟩
  · rw [node?_enter, if_neg (Nat.ne_of_lt hm)]
  · rw [size_enter]
    exact Nat.le_succ _
  · rw [account?, account?, call?_of_calls (calls_of_register (register_enter _ _ _ _))]

/-! ## Instances and their usage nodes come together -/

/-- Instances belong to active usage nodes, and usage nodes that are about to be entered find their entries free: what
comes before is made further inside. -/
structure Registered (e : Engine) : Prop where
  housed : Housed e
  vacant : ∀ k r i, .install k r i ∈ e.plan → e.activeKey? k r.id = none
  deeper : e.plan.Pairwise fun a b => ∀ j k, a.makesIn? = some j → b.installsIn? = some k → k < j

theorem Registered.of_noInstalls (hh : Housed e) (hn : NoInstalls e) : Registered e := by
  refine ⟨hh, fun k r i ha => ?_, ?_⟩
  · cases hn _ ha
  · refine List.Pairwise.imp_of_mem (fun {a b} _ hb _ j k _ hk => ?_) (List.pairwise_of_forall (R := fun _ _ => True)
      fun _ _ => trivial)
    rw [hn b hb] at hk
    cases hk

theorem Stands.housed (h : Stands e e') (hh : Housed e) : Housed e' := fun k u i hi => by
  rw [h.active]
  exact hh k u i ((h.inst k u).symm.trans hi)

theorem Registered.stands (h : Registered e) (hs : Stands e e') (hp : e'.plan = e.plan) : Registered e' := by
  refine ⟨hs.housed h.housed, fun k r i ha => ?_, hp ▸ h.deeper⟩
  rw [hs.active]
  exact h.vacant k r i (hp ▸ ha)

/-- What is entered meanwhile is further inside than the usage nodes that are about to be entered. -/
def Precedes (e : Engine) (k : LevelKey) : Prop := ∀ b ∈ e.plan, ∀ k', b.installsIn? = some k' → k' < k

theorem registered_enter (h : Registered e) (hp : Precedes e k) (r : Record) (part : Part) :
    Registered (e.enter k r part) := by
  refine ⟨fun k' u i hi => ?_, fun k' r' i ha => ?_, ?_⟩
  · rw [instance?_enter] at hi
    have hu := h.housed k' u i hi
    rw [activeKey?_enter]
    split
    · cases hl : e.level? k' with
      | none =>
        rw [activeKey?, hl] at hu
        cases hu
      | some l =>
        rw [activeKey?, hl] at hu
        rw [Option.bind_some]
        split
        · rfl
        · exact hu
    · exact hu
  · rw [plan_enter] at ha
    have hlt := hp _ ha k' rfl
    rw [activeKey?_enter, if_neg fun hk => Nat.ne_of_lt hlt hk.symm]
    exact h.vacant k' r' i ha
  · rw [plan_enter]
    exact h.deeper

/-- A usage node is entered together with its instance. -/
theorem registered_install (h : Registered e) (hp : Precedes e k) {r : Record} (ha : e.Admits k r.id)
    (hn : e.activeKey? k r.id = none) (i : LevelKey) :
    Retains e (e.install k r i) ∧ Registered (e.install k r i) := by
  have hactive (j : LevelKey) (id : NodeId) : (e.modifyLevel k fun l =>
      { l with instances := l.instances.insert r.id i }).activeKey? j id = e.activeKey? j id := by
    rw [activeKey?_modifyLevel]
    split <;> rfl
  have hretains : Retains e (e.modifyLevel k fun l => { l with instances := l.instances.insert r.id i }) :=
    .of_active hactive (fun _ => rfl) fun _ => rfl
  have hadmits : (e.modifyLevel k fun l => { l with instances := l.instances.insert r.id i }).Admits k r.id := by
    have hg : Grows e (e.modifyLevel k fun l => { l with instances := l.instances.insert r.id i }) :=
      .modifyLevel _ _ _ fun _ => ⟨rfl, rfl, rfl⟩
    exact hg.admits ha
  obtain ⟨l, hl, -⟩ := ha
  unfold install
  refine ⟨hretains.trans (retains_enter hadmits ((hactive _ _).trans hn) _), fun k' u i' hi => ?_,
    fun k' r' i' hm => ?_, ?_⟩
  · rw [instance?_enter, instance?_modifyLevel] at hi
    rw [activeKey?_enter, level?_modifyLevel]
    split
    · rename_i hk
      subst hk
      rw [if_pos rfl, hl, Option.bind_some] at hi
      rw [hl, Option.map_some, Option.bind_some]
      split
      · rfl
      · rename_i hne
        rw [Dict.get?_insert, if_neg hne] at hi
        have hu := h.housed k u i' (by rw [instance?, hl, Option.bind_some, hi])
        rwa [activeKey?, hl] at hu
    · rename_i hk
      rw [if_neg hk] at hi
      rw [hactive]
      exact h.housed k' u i' hi
  · rw [plan_enter] at hm
    have hlt := hp _ hm k' rfl
    rw [activeKey?_enter, if_neg fun hk => Nat.ne_of_lt hlt hk.symm, hactive]
    exact h.vacant k' r' i' hm
  · rw [plan_enter]
    exact h.deeper

/-- Nobody is entered when the making of an instance begins. -/
theorem Opens.stands {usage : Record} {t : Template} (ho : Opens e k usage t e') : Stands e e' := by
  cases ho with
  | nowhere => exact .refl e
  | breaks => exact .of_levels (fun _ => rfl) (fun _ => rfl) fun _ => rfl
  | @collapses l nodes fault =>
    exact (Stands.withInstance e k l (Binding.make t usage e.nextPrivate) nodes).trans
      (.failCreation _ k usage (.construction fault.message))
  | @opens l nodes order =>
    refine Stands.trans ?_ (.activated _ _ _ _)
    exact (Stands.withInstance e k l (Binding.make t usage e.nextPrivate) nodes).trans
      (.of_levels (fun _ => rfl) (fun _ => rfl) fun _ => rfl)

theorem Opens.registered {usage : Record} {t : Template} (ho : Opens e k usage t e') (h : Registered e)
    (hn : e.activeKey? k usage.id = none) (hp : Precedes e k) : Stands e e' ∧ Registered e' := by
  have hs := ho.stands
  cases ho with
  | nowhere => exact ⟨hs, h⟩
  | breaks => exact ⟨hs, .of_noInstalls (hs.housed h.housed) fun _ ha => absurd ha List.not_mem_nil⟩
  | collapses => exact ⟨hs, h.stands hs (plan_failCreation _ _ _ _)⟩
  | @opens l nodes order hl hx hr =>
    have hplan : (e.opened k l (Binding.make t usage e.nextPrivate) nodes order).plan =
        creations e.levels.size (instanceLevel k l (Binding.make t usage e.nextPrivate) nodes).config order ++
          [.refresh e.levels.size] ++ .install k usage e.levels.size :: e.plan := by
      unfold opened
      rw [plan_activated, plan_push]
      rfl
    have hk : k < e.levels.size := level?_lt e k hl
    refine ⟨hs, hs.housed h.housed, fun k' r' i ha => ?_, ?_⟩
    · rw [hs.active]
      rw [hplan] at ha
      rcases List.mem_append.mp ha with ha | ha
      · rcases List.mem_append.mp ha with ha | ha
        · obtain ⟨r, -, hr⟩ := mem_creations ha
          cases hr
        · cases List.mem_singleton.mp ha
      · rcases List.mem_cons.mp ha with ha | ha
        · cases ha
          exact hn
        · exact h.vacant k' r' i ha
    · rw [hplan, List.pairwise_append]
      have hinner : ∀ a ∈ creations e.levels.size (instanceLevel k l (Binding.make t usage e.nextPrivate) nodes).config
          order ++ [.refresh e.levels.size], a.installsIn? = none ∧ ∀ j, a.makesIn? = some j → j = e.levels.size := by
        intro a ha
        rcases List.mem_append.mp ha with ha | ha
        · obtain ⟨r, -, rfl⟩ := mem_creations ha
          exact ⟨rfl, fun j hj => (Option.some.inj hj).symm⟩
        · obtain rfl := List.mem_singleton.mp ha
          exact ⟨rfl, fun j hj => by cases hj⟩
      refine ⟨?_, List.pairwise_cons.mpr ⟨fun b hb j k' hj hk' => ?_, h.deeper⟩, fun a ha b hb j k' hj hk' => ?_⟩
      · refine List.Pairwise.imp_of_mem (fun {a b} _ hb _ j k' _ hk' => ?_)
          (List.pairwise_of_forall (R := fun _ _ => True) fun _ _ => trivial)
        rw [(hinner b hb).1] at hk'
        cases hk'
      · cases hj
        exact hp b hb k' hk'
      · rw [(hinner a ha).2 j hj]
        rcases List.mem_cons.mp hb with rfl | hb
        · cases hk'
          exact hk
        · exact Nat.lt_trans (hp b hb k' hk') hk

theorem Creates.registered {r : Record} {templates : Templates} (hc : Creates e k r templates e') (h : Registered e)
    (ha : e.Admits k r.id) (hp : Precedes e k) : Retains e e' ∧ Registered e' := by
  have hfail (r : Record) (fault : NodeFault) : Retains e (e.failCreation k r fault) ∧
      Registered (e.failCreation k r fault) := by
    have hs := Stands.failCreation e k r fault
    exact ⟨hs.retains, h.stands hs (plan_failCreation _ _ _ _)⟩
  cases hc with
  | present => exact ⟨(Stands.refl e).retains, h⟩
  | noTemplate => exact hfail _ _
  | refused => exact hfail _ _
  | @made part notes hn hu hb =>
    have hs : Stands e (e.note notes) := .still (quiet_note _ _).still
    exact ⟨hs.retains.trans (retains_enter (e := e.note notes) (r := e.resolvedAt k r) ha hn part),
      registered_enter (h.stands hs rfl) hp (e.resolvedAt k r) part⟩
  | usage hn hu ht ho =>
    obtain ⟨hs, hr⟩ := ho.registered h hn hp
    exact ⟨hs.retains, hr⟩

/-- Whoever comes when nodes are made is the next to be counted. -/
theorem activeKey?_makes {a : Action} (hm : a.makes = true) {j : LevelKey} {id : NodeId} {n : NodeKey}
    (hn : (e.act a).activeKey? j id = some n) : e.activeKey? j id = some n ∨ n = e.nodes.size := by
  have henter (s : Engine) (hs : ∀ j id, s.activeKey? j id = e.activeKey? j id) (hsize : s.nodes.size = e.nodes.size)
      (k : LevelKey) (r : Record) (part : Part) (hn : (s.enter k r part).activeKey? j id = some n) :
      e.activeKey? j id = some n ∨ n = e.nodes.size := by
    rw [activeKey?_enter] at hn
    split at hn
    · obtain ⟨l, hl, hn⟩ := Option.bind_eq_some_iff.mp hn
      split at hn
      · cases hn
        exact .inr hsize
      · exact .inl ((hs j id).symm.trans (Option.bind_eq_some_iff.mpr ⟨l, hl, hn⟩))
    · exact .inl ((hs j id).symm.trans hn)
  cases a with
  | create k r templates =>
    have hcreates := creates_create e k r templates
    change Creates e k r templates (e.act (.create k r templates)) at hcreates
    generalize e.act (.create k r templates) = e' at hcreates hn
    cases hcreates with
    | present => exact .inl hn
    | noTemplate => exact .inl (((Stands.failCreation _ _ _ _).active j id).symm.trans hn)
    | refused => exact .inl (((Stands.failCreation _ _ _ _).active j id).symm.trans hn)
    | @made part notes => exact henter (e.note notes) (fun _ _ => rfl) rfl k (e.resolvedAt k r) part hn
    | usage _ _ _ ho => exact .inl ((ho.stands.active j id).symm.trans hn)
  | install k r i =>
    refine henter (e.modifyLevel k fun l => { l with instances := l.instances.insert r.id i }) (fun j id => ?_) rfl k r
      (.standIn i) hn
    rw [activeKey?_modifyLevel]
    split <;> rfl
  | refresh k => exact .inl (((Stands.refresh e k).active j id).symm.trans hn)
  | _ => cases hm

/-- Nobody leaves when nodes are made. -/
theorem registered_makes (h : Registered e) {a : Action} (hm : a.makes = true) (ha : e.Apt a)
    (hv : ∀ k r i, a = .install k r i → e.activeKey? k r.id = none)
    (hp : ∀ k, a.makesIn? = some k → Precedes e k) : Retains e (e.act a) ∧ Registered (e.act a) := by
  cases a with
  | create k r templates => exact (creates_create e k r templates).registered h ha.2 (hp k rfl)
  | install k r i => exact registered_install h (hp k rfl) ha.1 (hv k r i rfl) i
  | refresh k =>
    have hs := Stands.refresh e k
    refine ⟨hs.retains, h.stands hs ?_⟩
    have hr : Stops e (e.refresh k) := stops_refresh e k
    unfold plan
    exact congrArg (List.filter _) hr.agenda
  | _ => cases hm

end Engine
end Flowgraph
