import Flowgraph.Proofs.Environments
/-! When environments are evaluated and records resolved. The environment of a level is what its definitions gave when
the level was activated, seen from around it at that moment, and a node is made of its record as its level saw it when
the node was made. -/
namespace Flowgraph

namespace Engine

variable {e e' e'' : Engine} {i j k p : LevelKey} {l : Level} {n : NodeKey} {key : CallKey} {r : Record}

/-! ## Steps that evaluate no environment -/

/-- Levels keep their environments, and new ones have none. -/
structure KeepsEnv (e e' : Engine) : Prop where
  there : ∀ k, e'.level? k = none → e.level? k = none
  env : ∀ k l', e'.level? k = some l' →
    (∃ l, e.level? k = some l ∧ l'.env = l.env) ∨ e.level? k = none ∧ l'.env = []

namespace KeepsEnv

theorem trans (h : KeepsEnv e e') (h' : KeepsEnv e' e'') : KeepsEnv e e'' := by
  refine ⟨fun k hk => h.there k (h'.there k hk), fun k l'' hl'' => ?_⟩
  rcases h'.env k l'' hl'' with ⟨l', hl', he'⟩ | ⟨hn, he'⟩
  · rcases h.env k l' hl' with ⟨l, hl, he⟩ | ⟨hn, he⟩
    · exact .inl ⟨l, hl, he'.trans he⟩
    · exact .inr ⟨hn, he'.trans he⟩
  · exact .inr ⟨h.there k hn, he'⟩

/-- Every level is what some change has made of it that leaves environments alone. -/
theorem of_map {f : LevelKey → Level → Level} (h : ∀ k, e'.level? k = (e.level? k).map (f k))
    (hf : ∀ k l, (f k l).env = l.env) : KeepsEnv e e' := by
  refine ⟨fun k hk => ?_, fun k l' hl' => ?_⟩
  · rwa [h, Option.map_eq_none_iff] at hk
  · rw [h] at hl'
    obtain ⟨l, hl, rfl⟩ := Option.map_eq_some_iff.mp hl'
    exact .inl ⟨l, hl, hf k l⟩

/-- One level changes. -/
theorem of_ite {f : Level → Level} (h : ∀ j, e'.level? j = if k = j then (e.level? j).map f else e.level? j)
    (hf : ∀ l, (f l).env = l.env) : KeepsEnv e e' := by
  refine of_map (f := fun j => if k = j then f else id) (fun j => ?_) fun j l => ?_
  · rw [h]
    split
    · rfl
    · rw [Option.map_id_fun, id]
  · split
    · exact hf l
    · rfl

theorem of_level? (h : ∀ k, e'.level? k = e.level? k) : KeepsEnv e e' :=
  of_map (f := fun _ => id) (fun k => by rw [h, Option.map_id_fun, id]) fun _ _ => rfl

theorem refl (e : Engine) : KeepsEnv e e := of_level? fun _ => rfl

theorem modifyLevel (e : Engine) (k : LevelKey) (f : Level → Level) (hf : ∀ l, (f l).env = l.env) :
    KeepsEnv e (e.modifyLevel k f) := of_ite (fun _ => level?_modifyLevel _ _ _ _) hf

theorem addLevel (e : Engine) {l : Level} (hl : l.env = []) : KeepsEnv e (e.addLevel l).1 := by
  have hnew : e.level? e.levels.size = none := Array.getElem?_eq_none_iff.mpr (Nat.le_refl _)
  refine ⟨fun k hk => ?_, fun k l' hl' => ?_⟩
  · rw [level?_addLevel] at hk
    split at hk
    · cases hk
    · exact hk
  · rw [level?_addLevel] at hl'
    split at hl'
    · rename_i hk
      cases hl'
      exact .inr ⟨hk ▸ hnew, hl⟩
    · exact .inl ⟨l', hl', rfl⟩

end KeepsEnv

theorem Stops.keepsEnv (h : Stops e e') : KeepsEnv e e' := by
  refine h.invariant (P := KeepsEnv e) (fun s s' hs ht => hs.trans ?_) (.refl e)
  cases ht with
  | still h _ => exact .of_level? (level?_of_still h)
  | phase => exact .modifyLevel _ _ _ fun _ => rfl
  | receivers => exact .modifyLevel _ _ _ fun _ => rfl
  | leave => exact .modifyLevel _ _ _ fun _ => rfl
  | cancel => exact .of_level? fun _ => rfl
  | forget => exact .modifyLevel _ _ _ fun _ => rfl

theorem Rewires.keepsEnv (h : Rewires e e') : KeepsEnv e e' := by
  refine h.invariant (P := KeepsEnv e) (fun s s' hs ht => hs.trans ?_) (.refl e)
  cases ht with
  | note => exact .of_level? fun _ => rfl
  | wires => exact .of_level? fun _ => rfl
  | nodes => exact .modifyLevel _ _ _ fun _ => rfl
  | breaks => exact .of_level? fun _ => rfl

theorem keepsEnv_rewired (e : Engine) (k : LevelKey) (config : FlowConfig) (diff : Option Diff) :
    KeepsEnv e (e.rewired k config diff) := by
  unfold rewired
  refine KeepsEnv.trans ?_ (.modifyLevel _ _ _ fun _ => rfl)
  cases diff with
  | none => exact .refl e
  | some d => exact (rewires_rewire _ _ _ _).keepsEnv

theorem keepsEnv_enter (e : Engine) (k : LevelKey) (r : Record) (part : Part) : KeepsEnv e (e.enter k r part) :=
  .of_ite (fun j => level?_enter e j k r part) fun _ => rfl

theorem keepsEnv_install (e : Engine) (k : LevelKey) (r : Record) (i : LevelKey) : KeepsEnv e (e.install k r i) := by
  have hk : KeepsEnv e (e.modifyLevel k fun l => { l with instances := l.instances.insert r.id i }) :=
    .modifyLevel e k _ fun _ => rfl
  exact hk.trans (keepsEnv_enter _ k r (.standIn i))

theorem keepsEnv_failCreation (e : Engine) (k : LevelKey) (r : Record) (fault : NodeFault) :
    KeepsEnv e (e.failCreation k r fault) :=
  .of_ite (fun j => level?_failCreation e j k r fault) fun _ => rfl

theorem keepsEnv_withInstance (e : Engine) (k : LevelKey) (l : Level) (b : Binding) (nodes : List Record) :
    KeepsEnv e (e.withInstance k l b nodes) := by
  have h : KeepsEnv e { e with nextPrivate := e.nextPrivate + Binding.idsNeeded b.template } := .of_level? fun _ => rfl
  exact h.trans (.addLevel _ rfl)

/-! ## Going on with a call -/

/-- No node is about to be made. -/
def NoMakes (e : Engine) : Prop := ∀ a ∈ e.plan, a.makesIn? = none

theorem noMakes_resume (hp : e.plan = []) : NoMakes (e.push [.resume key]) := by
  intro a ha
  rw [plan_push, hp, List.append_nil] at ha
  obtain rfl := List.mem_singleton.mp (List.mem_filter.mp ha).1
  rfl

/-- What going on with a call does to environments: it evaluates none, or activates one level. -/
inductive Scopes (e : Engine) : Engine → Prop
  | keeps {e' : Engine} (h : KeepsEnv e e') (hn : NoMakes e') : Scopes e e'
  | activates {s : Engine} {k : LevelKey} {l : Level} (order : List Nat) (h : KeepsEnv e s) (hn : NoMakes s)
      (hlaid : Laid s) (hl : s.level? k = some l) : Scopes e (s.activated k l.config order)

theorem Proceeds.scopes {stops : List Stopping} (h : Proceeds e key stops e') (hp : e.plan = []) : Scopes e e' := by
  cases h with
  | waits _ hs =>
    refine .keeps (.of_level? fun k => (level?_of_still hs.still k).trans rfl) fun a ha => ?_
    have hplan : e'.plan = e.plan := by
      unfold plan
      rw [hs.agenda]
      rfl
    rw [hplan, hp] at ha
    cases ha
  | done => exact .keeps (.of_level? fun _ => rfl) (noMakes_resume (e := e.modifyCall key _) hp)

theorem Scopes.after (h : KeepsEnv e e') (hs : Scopes e' e'') : Scopes e e'' := by
  cases hs with
  | keeps h' hn => exact .keeps (h.trans h') hn
  | activates order h' hn hlaid hl => exact .activates order (h.trans h') hn hlaid hl

theorem Starts.scopes {diff : Option Diff} (h : Starts e key k diff e') (hp : e.plan = []) : Scopes e e' := by
  cases h with
  | nowhere => exact .keeps (.of_level? fun _ => rfl) (noMakes_resume (e := e.modifyCall key _) hp)
  | refused => exact .keeps (.of_level? fun _ => rfl) (noMakes_resume (e := e.modifyCall key _) hp)
  | fresh =>
    exact .keeps (KeepsEnv.trans (.modifyLevel e k (fun l => { l with failures := [] }) fun _ => rfl)
      (.of_level? fun _ => rfl)) (noMakes_resume (e := (e.modifyLevel k _).modifyCall key _) hp)
  | again => exact .keeps (.of_level? fun _ => rfl) (noMakes_resume (e := e.modifyCall key _) hp)

theorem Applies.scopes {config : FlowConfig} {diff : Option Diff} (h : Applies e key k config diff e')
    (hlay : Layout e) (hp : e.plan = []) : Scopes e e' := by
  have hr := keepsEnv_rewired e k config diff
  have hpr := plan_rewired hp k config diff
  have hpush : NoMakes ((e.rewired k config diff).push [.announce k, .resume key]) := fun a ha => by
    rw [plan_push, hpr] at ha
    obtain rfl : a = .resume key := List.mem_singleton.mp ha
    rfl
  have hkeeps : KeepsEnv e ((e.rewired k config diff).push [.announce k, .resume key]) := hr.trans (.of_level? fun _ => rfl)
  cases h with
  | nowhere => exact .keeps hkeeps hpush
  | activates hl ho =>
    exact .activates _ hkeeps hpush ((hlay.rewired k config diff).laid.of_levels (.of_eq rfl rfl rfl rfl) fun _ => rfl) hl
  | refused => exact .keeps (hr.trans (.of_level? fun _ => rfl)) (noMakes_resume (e := (e.rewired k config diff).modifyCall key _) hpr)

theorem scopes_stopAll (hp : e.plan = []) (key : CallKey) (requests : List StopRequest) :
    Scopes e (e.stopAll key requests) := by
  have hs := stops_beginStops key (e, []) requests
  rw [stopAll_eq]
  exact Scopes.after hs.keepsEnv ((proceeds_afterStops _ _ _).scopes (hs.plan.trans hp))

theorem scopes_proceed {s : Engine} (h : KeepsEnv e s) (hp : s.plan = []) (key : CallKey) (stages : List Stage) :
    Scopes e (s.proceed key stages) :=
  .keeps (h.trans (.of_level? fun _ => rfl)) (noMakes_resume (e := s.modifyCall key _) hp)

theorem scopes_refuse (h : KeepsEnv e e') (hp : e'.plan = []) (key : CallKey) (fault : FlowFault) :
    Scopes e (e'.refuse key fault) :=
  .keeps (h.trans (.of_level? fun _ => rfl)) (noMakes_resume (e := e'.modifyCall key _) hp)

theorem scopes_runStage (hl : Layout e) (hp : e.plan = []) (key : CallKey) (stage : Stage) :
    Scopes e (e.runStage key stage) := by
  have hsame : KeepsEnv e e := .refl e
  cases stage with
  | stop requests => exact scopes_stopAll hp key requests
  | stopAmong levels ids removed => exact scopes_stopAll hp key _
  | start k diff => exact (starts_start e key k diff).scopes hp
  | apply k config diff => exact (applies_apply e key k config diff).scopes hl hp
  | update k config => exact scopes_proceed (.modifyLevel e k (fun l => { l with config }) fun _ => rfl) hp key []
  | deployNodes previous next diff => exact scopes_proceed (e := e) (s := e.hold key _) (.of_level? fun _ => rfl) hp key _
  | stopAll =>
    exact scopes_proceed (e := e) (s := ({ e with flows := [], global := none } : Engine).hold key _)
      (.of_level? fun _ => rfl) hp key _
  | startAll next =>
    change Scopes e (e.startAll key next)
    unfold startAll
    split
    · exact scopes_refuse hsame hp key _
    · have hadd := KeepsEnv.addLevel e (l := .make .global none next.global) rfl
      exact scopes_proceed (s := ({ (e.addLevel (.make .global none next.global)).1 with
        global := some e.levels.size } : Engine).hold key _) (hadd.trans (.of_level? fun _ => rfl)) hp key _
  | startTab config listed =>
    change Scopes e (e.startTab key config listed)
    unfold startTab
    split
    · exact scopes_proceed hsame hp key []
    · have hadd := KeepsEnv.addLevel e (l := .make .tab none config) rfl
      exact scopes_proceed (s := (e.addLevel (.make .tab none config)).1.hold key _)
        (hadd.trans (.of_level? fun _ => rfl)) hp key _
  | enlist k => exact scopes_proceed (e := e) (s := { e with flows := e.flows ++ [k] }) (.of_level? fun _ => rfl) hp key []
  | gather k => exact scopes_proceed (e := e) (s := e.modifyCall key _) (.of_level? fun _ => rfl) hp key []
  | enlistGathered =>
    rw [runStage_enlistGathered]
    exact scopes_proceed (e := e) (s := { e with flows := e.gathered key }) (.of_level? fun _ => rfl) hp key []
  | commit next => exact scopes_proceed (e := e) (s := { e with deployed := some next }) (.of_level? fun _ => rfl) hp key []
  | withdraw => exact scopes_proceed (e := e) (s := { e with deployed := none }) (.of_level? fun _ => rfl) hp key []
  | stuck =>
    refine .keeps (.of_level? fun _ => rfl) fun a ha => ?_
    change a ∈ e.plan at ha
    rw [hp] at ha
    cases ha

theorem Resumes.scopes (h : Resumes e key e') (hl : Layout e) (hp : e.plan = []) : Scopes e e' := by
  cases h with
  | unknown => exact .keeps (.refl e) fun a ha => by rw [hp] at ha; cases ha
  | ends =>
    refine .keeps (.of_level? fun _ => rfl) fun a ha => ?_
    change a ∈ e.plan at ha
    rw [hp] at ha
    cases ha
  | @stage c stage rest hc hw hs =>
    have hkeeps : KeepsEnv e (e.modifyCall key fun c => { c with stages := rest }) := .of_level? fun _ => rfl
    have hlay : Layout (e.modifyCall key fun c => { c with stages := rest }) := by
      refine hl.modifyCall key _ fun c' hc' s hs' => ?_
      rw [hc] at hc'
      cases hc'
      exact hl.stages key c hc s (hs ▸ List.mem_cons_of_mem _ hs')
    exact Scopes.after hkeeps (scopes_runStage hlay hp key stage)
  | waits =>
    have hs := stops_pollStops key (e, [])
    rw [pollAll_eq]
    exact Scopes.after (hs _).keepsEnv ((proceeds_afterStops _ _ _).scopes ((hs _).plan.trans hp))

/-! ## What environments and records come from -/

/-- The environment of a level is what its definitions give now. Of several definitions of a name the last counts, and
variables are looked up one level further out. -/
def Current (e : Engine) (k : LevelKey) (l : Level) : Prop := ∀ name,
  l.env.get? name = (EnvEntry.lastOf? l.config.env name).map (Scope.valueOf fun name => e.setting k (outerName 1 name))

/-- The environment of a level is what its definitions gave at some moment. -/
def Environed (e : Engine) (k : LevelKey) (l : Level) : Prop :=
  ∃ e₀ l₀, Reachable e₀ ∧ Later e₀ e ∧ e₀.level? k = some l₀ ∧ l₀.env = l.env ∧ e₀.Current k l₀

/-- A record is that of a node of a level, as the level saw it at some moment. -/
def Resolved (e : Engine) (k : LevelKey) (made : Record) : Prop :=
  ∃ e₀ l₀ r, Reachable e₀ ∧ Later e₀ e ∧ e₀.level? k = some l₀ ∧ r ∈ l₀.config.nodes ∧ made = e₀.resolvedAt k r

theorem Later.trans (h : Later e e') (h' : Later e' e'') : Later e e'' := by
  induction h' with
  | refl => exact h
  | tick _ ht ih => exact ih.tick ht
  | input _ ha hi ih => exact ih.input ha hi

theorem Environed.later (h : e.Environed k l) (hl : Later e e') {l' : Level} (he : l'.env = l.env) : e'.Environed k l' := by
  obtain ⟨e₀, l₀, hr, hl₀, hk, henv, hc⟩ := h
  exact ⟨e₀, l₀, hr, hl₀.trans hl, hk, henv.trans he.symm, hc⟩

theorem Resolved.later (h : e.Resolved k r) (hl : Later e e') : e'.Resolved k r := by
  obtain ⟨e₀, l₀, r₀, hr, hl₀, hk, hm, hres⟩ := h
  exact ⟨e₀, l₀, r₀, hr, hl₀.trans hl, hk, hm, hres⟩

theorem Resolved.level (h : e.Resolved k r) : ∃ l, e.level? k = some l := by
  obtain ⟨e₀, l₀, r₀, -, hl₀, hk, -⟩ := h
  obtain ⟨l, hl, -⟩ := hl₀.grows.level k l₀ hk
  exact ⟨l, hl⟩

/-- A level has just been activated. -/
theorem current_of_evaluate (hlaid : Laid e) (hl : e.level? k = some l)
    (he : l.env = Scope.evaluate (e.settingAround k) l.config.env) : e.Current k l := by
  intro name
  rw [he, Scope.get?_evaluate, show (fun name => e.setting k (outerName 1 name)) = e.settingAround k from
    funext fun name => setting_outer hlaid hl name]

theorem environed_of_current (hr : Reachable e) (hl : e.level? k = some l) (hc : e.Current k l) : e.Environed k l :=
  ⟨e, l, hr, .refl, hl, rfl, hc⟩

/-- The activation of a level leaves the others alone, and gives it an environment. -/
theorem level?_activated_cases (hlaid : Laid e) (hl : e.level? k = some l) (order : List Nat) {l' : Level}
    (hj : (e.activated k l.config order).level? j = some l') : e.level? j = some l' ∨
      k = j ∧ (e.activated k l.config order).Current j l' ∧ l'.config = l.config := by
  rw [level?_activated] at hj
  split at hj
  · rename_i hk
    subst hk
    rw [hl] at hj
    cases hj
    refine .inr ⟨rfl, current_of_evaluate (hlaid.activated _ _ _) ?_ ?_, rfl⟩
    · rw [level?_activated, if_pos rfl, hl]
      rfl
    · rw [settingAround_activated hlaid]
  · exact .inl hj

/-- An action that makes a node has a level to make it in, and a usage node with an instance its record. -/
def Grounded (e : Engine) : Action → Prop
  | .create k r _ => ∃ l, e.level? k = some l ∧ r ∈ l.config.nodes ∧ e.Environed k l
  | .install k r _ => e.Resolved k r ∧ ∃ l, e.level? k = some l ∧ e.Environed k l
  | _ => True

/-- Where the environments of levels and the records of nodes come from. -/
structure Furnished (e : Engine) : Prop where
  levels : ∀ k l, e.level? k = some l →
    e.Environed k l ∨ l.env = [] ∧ ∀ n node, e.node? n = some node → node.level ≠ k
  nodes : ∀ n node, e.node? n = some node → e.Resolved node.level node.record
  plan : ∀ a ∈ e.plan, e.Grounded a

/-- A level after a step: it has kept its environment, has been activated, or is new. -/
inductive LevelComes (e e' : Engine) (k : LevelKey) (l' : Level) : Prop
  | keeps {l : Level} (hl : e.level? k = some l) (he : l'.env = l.env)
  | environed (h : e'.Environed k l')
  | fresh (hn : e.level? k = none) (he : l'.env = [])

/-- A node after a step: it was there before, or has been made in a level that had been activated. -/
inductive NodeComes (e e' : Engine) (node' : Node) : Prop
  | stays {n : NodeKey} {node : Node} (hn : e.node? n = some node) (hl : node'.level = node.level)
      (hr : node'.record = node.record)
  | enters {l : Level} (hr : e'.Resolved node'.level node'.record) (hl : e.level? node'.level = some l)
      (he : e.Environed node'.level l)

theorem Furnished.step (h : Furnished e) (hl : Later e e')
    (hlevels : ∀ k l', e'.level? k = some l' → LevelComes e e' k l')
    (hnodes : ∀ n node', e'.node? n = some node' → NodeComes e e' node') (hp : ∀ a ∈ e'.plan, e'.Grounded a) :
    Furnished e' := by
  refine ⟨fun k l' hl' => ?_, fun n node' hn => ?_, hp⟩
  · rcases hlevels k l' hl' with ⟨hlk, he⟩ | henv | ⟨hnone, he⟩
    · rcases h.levels k _ hlk with henv | ⟨hempty, hno⟩
      · exact .inl (henv.later hl he)
      · by_cases henv : e'.Environed k l'
        · exact .inl henv
        · refine .inr ⟨he.trans hempty, fun n node' hn hk => ?_⟩
          rcases hnodes n node' hn with ⟨hnode, hlev, -⟩ | ⟨-, hlk', henv'⟩
          · exact hno _ _ hnode (hlev.symm.trans hk)
          · subst hk
            rw [hlk] at hlk'
            cases hlk'
            exact henv (henv'.later hl he)
    · exact .inl henv
    · refine .inr ⟨he, fun n node' hn hk => ?_⟩
      subst hk
      rcases hnodes n node' hn with ⟨hnode, hlev, -⟩ | ⟨-, hlk', -⟩
      · obtain ⟨l, hlk⟩ := (h.nodes _ _ hnode).level
        rw [hlev, hlk] at hnone
        cases hnone
      · rw [hlk'] at hnone
        cases hnone
  · rcases hnodes n node' hn with ⟨hnode, hlev, hrec⟩ | ⟨hres, -⟩
    · rw [hlev, hrec]
      exact (h.nodes _ _ hnode).later hl
    · exact hres

theorem KeepsEnv.comes {s : Engine} (h : KeepsEnv e s) (k : LevelKey) (l' : Level) (hl : s.level? k = some l') :
    LevelComes e e' k l' :=
  (h.env k l' hl).elim (fun ⟨_, hl, he⟩ => .keeps hl he) fun ⟨hn, he⟩ => .fresh hn he

theorem nodeComes_of_face {s : Engine} (hf : ∀ n, (s.node? n).map Node.face = (e.node? n).map Node.face) (n : NodeKey)
    (node' : Node) (hn : s.node? n = some node') : NodeComes e e' node' := by
  have hface := hf n
  rw [hn] at hface
  obtain ⟨node, hnode, he⟩ := Option.map_eq_some_iff.mp hface.symm
  exact .stays hnode (congrArg (·.2.1) he).symm (congrArg (·.1) he).symm

/-- What is to be made keeps its ground while levels keep their configurations and environments. -/
theorem Grounded.later {a : Action} (h : e.Grounded a) (hl : Later e e') (hc : KeepsPlaces e e')
    (henv : ∀ k l l', e.level? k = some l → e'.level? k = some l' → l'.env = l.env) : e'.Grounded a := by
  cases a with
  | create k r templates =>
    obtain ⟨l, hk, hm, he⟩ := h
    obtain ⟨l', hk', -, hconfig, -⟩ := hc k l hk
    exact ⟨l', hk', hconfig ▸ hm, he.later hl (henv k l l' hk hk')⟩
  | install k r i =>
    obtain ⟨hr, l, hk, he⟩ := h
    obtain ⟨l', hk', -, -, -⟩ := hc k l hk
    exact ⟨hr.later hl, l', hk', he.later hl (henv k l l' hk hk')⟩
  | _ => trivial

theorem grounded_of_makesIn? {a : Action} (h : a.makesIn? = none) : e.Grounded a := by
  cases a with
  | create => cases h
  | install => cases h
  | _ => trivial

theorem KeepsEnv.env_eq (h : KeepsEnv e e') (k : LevelKey) (l l' : Level) (hl : e.level? k = some l)
    (hl' : e'.level? k = some l') : l'.env = l.env := by
  rcases h.env k l' hl' with ⟨l₁, hl₁, he⟩ | ⟨hn, -⟩
  · rw [hl] at hl₁
    cases hl₁
    exact he
  · rw [hl] at hn
    cases hn

/-- No environment is evaluated, and no node is made. -/
theorem Furnished.keeps (h : Furnished e) (hl : Later e e') (hk : KeepsEnv e e')
    (hf : ∀ n, (e'.node? n).map Node.face = (e.node? n).map Node.face) (hc : KeepsPlaces e e' ∨ NoMakes e')
    (hp : ∀ a ∈ e'.plan, a ∈ e.plan ∨ a.makesIn? = none) : Furnished e' := by
  refine h.step hl hk.comes (nodeComes_of_face hf) fun a ha => ?_
  rcases hc with hc | hn
  · exact (hp a ha).elim (fun ha => (h.plan a ha).later hl hc hk.env_eq) grounded_of_makesIn?
  · exact grounded_of_makesIn? (hn a ha)

/-- A level is activated. -/
theorem Furnished.activated (h : Furnished e) {s : Engine} {order : List Nat} (hr : Reachable (s.activated k l.config order))
    (hl : Later e (s.activated k l.config order)) (hk : KeepsEnv e s) (hlaid : Laid s) (hlevel : s.level? k = some l)
    (hf : ∀ n, (s.node? n).map Node.face = (e.node? n).map Node.face)
    (hp : ∀ a ∈ s.plan, (s.activated k l.config order).Grounded a) : Furnished (s.activated k l.config order) := by
  have hnew : (s.activated k l.config order).level? k =
      some { l with env := Scope.evaluate (s.settingAround k) l.config.env } := by
    rw [level?_activated, if_pos rfl, hlevel]
    rfl
  have hcurrent : (s.activated k l.config order).Current k
      { l with env := Scope.evaluate (s.settingAround k) l.config.env } :=
    current_of_evaluate (hlaid.activated _ _ _) hnew (by rw [settingAround_activated hlaid])
  refine h.step hl (fun j l' hl' => ?_) (nodeComes_of_face hf) fun a ha => ?_
  · rcases level?_activated_cases hlaid hlevel order hl' with hj | ⟨-, hc, -⟩
    · exact hk.comes j l' hj
    · exact .environed (environed_of_current hr hl' hc)
  · rw [plan_activated] at ha
    rcases List.mem_append.mp ha with ha | ha
    · rcases List.mem_append.mp ha with ha | ha
      · obtain ⟨r, hmem, rfl⟩ := mem_creations ha
        exact ⟨_, hnew, hmem, environed_of_current hr hnew hcurrent⟩
      · obtain rfl := List.mem_singleton.mp ha
        trivial
    · exact hp a ha

/-- A call is gone on with. -/
theorem Furnished.scopes (h : Furnished e) (hr : Reachable e') (hl : Later e e') (hs : Scopes e e')
    (hf : ∀ n, (e'.node? n).map Node.face = (e.node? n).map Node.face) : Furnished e' := by
  cases hs with
  | keeps hk hn => exact h.keeps hl hk hf (.inr hn) fun a ha => .inr (hn a ha)
  | activates order hk hn hlaid hlevel =>
    exact h.activated hr hl hk hlaid hlevel hf fun a ha => grounded_of_makesIn? (hn a ha)

/-- A node enters its level. -/
theorem Furnished.enter (h : Furnished e) {s : Engine} (part : Part) (hl : Later e (s.enter k r part))
    (hk : KeepsEnv e s) (hc : KeepsPlaces e s) (hf : ∀ n, (s.node? n).map Node.face = (e.node? n).map Node.face)
    (hp : ∀ a ∈ s.plan, a ∈ e.plan) (hres : e.Resolved k r) (hlk : e.level? k = some l) (henv : e.Environed k l) :
    Furnished (s.enter k r part) := by
  have hk : KeepsEnv e (s.enter k r part) := hk.trans (keepsEnv_enter s k r part)
  refine h.step hl hk.comes (fun n node' hn => ?_) fun a ha => ?_
  · rw [node?_enter] at hn
    split at hn
    · cases hn
      exact .enters (hres.later hl) hlk henv
    · exact nodeComes_of_face hf n node' hn
  · rw [plan_enter] at ha
    exact (h.plan a (hp a ha)).later hl (hc.trans (keepsPlaces_enter s k r part)) hk.env_eq

/-- The levels that are there when an instance is opened are not touched. -/
theorem level?_opened_of_level? {b : Binding} {nodes : List Record} {order : List Nat} {lj : Level}
    (hj : e.level? j = some lj) : (e.opened k l b nodes order).level? j = some lj := by
  obtain ⟨env, hopened⟩ := level?_opened e k l b nodes order
  rw [hopened, if_neg (Nat.ne_of_lt (level?_lt e j hj)), hj]

/-- An instance is opened: its level is activated, and its usage node is to follow. -/
theorem Furnished.opened (h : Furnished e) {s : Engine} {b : Binding} {nodes : List Record} {order : List Nat}
    {outer : Wires} (hr : Reachable (s.opened k l b nodes order)) (hl : Later e (s.opened k l b nodes order))
    (hlaid : Laid s) (hlevel : s.level? k = some l) (hb : b.Made) (hx : b.expand? outer = some nodes)
    (hlev : ∀ j, s.level? j = e.level? j) (hf : ∀ n, (s.node? n).map Node.face = (e.node? n).map Node.face)
    (hp : ∀ a ∈ s.plan, a ∈ e.plan) (hres : e.Resolved k b.usage) (henv : e.Environed k l) :
    Furnished (s.opened k l b nodes order) := by
  have hw : Laid ((s.withInstance k l b nodes).push [.install k b.usage s.levels.size]) :=
    (hlaid.withInstance hlevel hb hx).of_levels (.of_eq rfl rfl rfl rfl) fun _ => rfl
  have hadd : KeepsEnv s ((s.withInstance k l b nodes).push [.install k b.usage s.levels.size]) :=
    (keepsEnv_withInstance s k l b nodes).trans (.of_level? fun _ => rfl)
  have hplaces : KeepsPlaces e (s.opened k l b nodes order) := by
    have hpush : KeepsPlaces s ((s.withInstance k l b nodes).push [.install k b.usage s.levels.size]) :=
      (keepsPlaces_withInstance s k l b nodes).trans (.of_level? fun _ => rfl)
    exact (KeepsPlaces.of_level? hlev).trans (hpush.trans (keepsPlaces_activated _ s.levels.size _ order))
  have hsame (j : LevelKey) (lj l' : Level) (hj : e.level? j = some lj)
      (hj' : (s.opened k l b nodes order).level? j = some l') : l'.env = lj.env := by
    rw [level?_opened_of_level? (hlev j ▸ hj)] at hj'
    cases hj'
    rfl
  have hnew : ((s.withInstance k l b nodes).push [.install k b.usage s.levels.size]).level? s.levels.size =
      some (instanceLevel k l b nodes) := by
    rw [level?_push, level?_withInstance, if_pos rfl]
  refine Furnished.activated (s := (s.withInstance k l b nodes).push [.install k b.usage s.levels.size])
    (k := s.levels.size) (l := instanceLevel k l b nodes) h hr hl
    ((KeepsEnv.of_level? hlev).trans hadd) hw hnew hf fun a ha => ?_
  rw [plan_push] at ha
  rcases List.mem_append.mp ha with ha | ha
  · obtain rfl := List.mem_singleton.mp (List.mem_filter.mp ha).1
    have hground : e.Grounded (.install k b.usage s.levels.size) := ⟨hres, l, hlev k ▸ hlevel, henv⟩
    exact hground.later hl hplaces hsame
  · exact (h.plan a (hp a ha)).later hl hplaces hsame

theorem Furnished.creates {s e' : Engine} {templates : Templates} (h : Furnished e) (hr : Reachable e) (hr' : Reachable e')
    (hl : Later e e') (hc : Creates s k r templates e') (hlay : Layout e) (hmem : .create k r templates ∈ e.plan)
    (hlev : s.levels = e.levels) (hnode : s.nodes = e.nodes) (hw : s.world = e.world)
    (hpriv : s.nextPrivate = e.nextPrivate) (hset : s.setting = e.setting)
    (hp : ∀ a ∈ s.plan, a ∈ e.plan) : Furnished e' := by
  have hlevel (j : LevelKey) : s.level? j = e.level? j := by rw [level?, level?, hlev]
  have hface (n : NodeKey) : (s.node? n).map Node.face = (e.node? n).map Node.face := by rw [node?, node?, hnode]
  obtain ⟨l, hlk, hm, henv⟩ := h.plan _ hmem
  have hres : e.Resolved k (s.resolvedAt k r) := by
    refine ⟨e, l, r, hr, .refl, hlk, hm, ?_⟩
    unfold resolvedAt
    rw [hset]
  have hfail (s' : Engine) (hs' : KeepsEnv s s') (hf : ∀ n, (s'.node? n).map Node.face = (s.node? n).map Node.face)
      (hpl : KeepsPlaces s s') (hps : s'.plan = s.plan) (hl : Later e s') : Furnished s' :=
    h.keeps hl ((KeepsEnv.of_level? hlevel).trans hs') (fun n => (hf n).trans (hface n))
      (.inl ((KeepsPlaces.of_level? hlevel).trans hpl)) fun a ha => .inl (hp a (hps ▸ ha))
  cases hc with
  | present => exact hfail s (.refl s) (fun _ => rfl) (.refl s) rfl hl
  | noTemplate =>
    exact hfail _ (keepsEnv_failCreation _ _ _ _) (fun n => by rw [node?_failCreation]) (keepsPlaces_failCreation _ _ _ _)
      (plan_failCreation _ _ _ _) hl
  | refused =>
    exact hfail _ (keepsEnv_failCreation _ _ _ _) (fun n => by rw [node?_failCreation]) (keepsPlaces_failCreation _ _ _ _)
      (plan_failCreation _ _ _ _) hl
  | made => exact h.enter _ hl (.of_level? hlevel) (.of_level? hlevel) hface hp hres hlk henv
  | @usage id t _ hn hu ht ho =>
    obtain ⟨htidy, -⟩ := hlay.makes _ hmem
    have hmade : (Binding.make t (s.resolvedAt k r) s.nextPrivate).Made := ⟨t, _, _, htidy _ _ ht, rfl⟩
    cases ho with
    | nowhere => exact hfail s (.refl s) (fun _ => rfl) (.refl s) rfl hl
    | breaks => exact h.keeps hl (.of_level? hlevel) hface (.inl (.of_level? hlevel)) fun a ha => by cases ha
    | @collapses l' nodes fault hl' hx ho' =>
      exact hfail _ ((keepsEnv_withInstance _ _ _ _ _).trans (keepsEnv_failCreation _ _ _ _)) (fun n => by rw [node?_failCreation, node?_withInstance])
        ((keepsPlaces_withInstance _ _ _ _ _).trans (keepsPlaces_failCreation _ _ _ _)) (plan_failCreation _ _ _ _) hl
    | @opens l' nodes order hl' hx ho' =>
      have hsl : Laid s := hlay.laid.of_levels (.of_eq hlev hnode hw hpriv) hlevel
      have heq : l' = l := by
        rw [hlevel, hlk] at hl'
        exact (Option.some.inj hl').symm
      subst heq
      exact h.opened hr' hl hsl hl' hmade hx hlevel hface hp hres henv

theorem Layout.popped {a : Action} {rest : List Action} (h : Layout e)
    (hp : e.plan = a :: ({ e with agenda := rest } : Engine).plan) : Layout { e with agenda := rest } :=
  h.of_laid (.of_eq rfl rfl rfl rfl) (h.laid.of_levels (.of_eq rfl rfl rfl rfl) fun _ => rfl)
    (fun _ hb => hp ▸ List.mem_cons_of_mem _ hb) rfl

theorem Furnished.tick (hr : Reachable e) (h : Furnished e) (ht : Tick e e') : Furnished e' := by
  have hl : Later e e' := .tick .refl ht
  have hr' := hr.tick ht
  rcases ht.kinds with ⟨hs, hp⟩ | ⟨key, -, hs, ha⟩ | ⟨a, rest, -, hq, ha, rfl⟩
  · exact h.keeps hl (.of_level? (level?_of_still hs)) (face_of_still hs) (.inl (.still hs)) fun a ha => .inl (hp ▸ ha)
  · refine h.keeps hl (.of_level? (level?_of_still hs)) (face_of_still hs) (.inl (.still hs)) fun a hm => .inr ?_
    have hm := (List.mem_filter.mp hm).1
    rw [ha] at hm
    obtain rfl := List.mem_singleton.mp hm
    rfl
  · have hplan := plan_pop ha hq
    have hpop (b : Action) (hb : b ∈ ({ e with agenda := rest } : Engine).plan) : b ∈ e.plan :=
      hplan ▸ List.mem_cons_of_mem _ hb
    have hmem : a ∈ e.plan := hplan ▸ List.mem_cons_self
    have hlay := hr.layout
    have hk : KeepsEnv e { e with agenda := rest } := .of_level? fun _ => rfl
    have hc : KeepsPlaces e { e with agenda := rest } := .of_level? fun _ => rfl
    cases a with
    | create k r templates =>
      exact h.creates hr hr' hl (creates_create { e with agenda := rest } k r templates) hlay hmem rfl rfl rfl rfl
        (funext fun j => setting_pop hlay.laid ha rfl j) hpop
    | install k r inst =>
      obtain ⟨hres, l, hlk, henv⟩ := h.plan _ hmem
      exact h.enter (s := ({ e with agenda := rest } : Engine).modifyLevel k
          fun l => { l with instances := l.instances.insert r.id inst }) (.standIn inst) hl
        (hk.trans (.modifyLevel _ k _ fun _ => rfl)) (hc.trans (.modifyLevel _ k _ fun _ => ⟨rfl, rfl, rfl⟩))
        (fun _ => rfl) hpop hres hlk henv
    | refresh k =>
      have hst : Stops { e with agenda := rest } (({ e with agenda := rest } : Engine).refresh k) := stops_refresh _ k
      have hf := StopsWithin.face hst
      exact h.keeps hl (hk.trans hst.keepsEnv) hf
        (.inl (hc.trans (keepsPlaces_act (a := .refresh k) fun _ h => by cases h))) fun b hb => .inl (hpop b (hst.plan ▸ hb))
    | resume key =>
      have ho := hr.accounted.orderly
      rw [hplan] at ho
      have hres := resumes_resume { e with agenda := rest } key
      exact h.scopes hr' hl (Scopes.after hk (hres.scopes (hlay.popped hplan) ho)) (hres.face ho).1
    | _ => cases hq

theorem Furnished.input (h : Furnished e) (ha : e.agenda = []) (hi : Input e e') : Furnished e' := by
  have hl : Later e e' := .input .refl ha hi
  have hp : e.plan = [] := by
    unfold Engine.plan
    rw [ha]
    rfl
  cases hi with
  | @call stages ho =>
    have hplan : (e.begin stages).1.plan = _ := (quiet_wake _ (.call e.nextCall)).plan
    exact h.keeps hl (.of_level? (level?_begin e stages)) (fun n => by rw [node?_begin]) (.inl (.of_level? (level?_begin e stages)))
      fun a ha => .inl (hplan ▸ ha)
  | quiet hq =>
    exact h.keeps hl (.of_level? (level?_of_still hq.still)) (face_of_still hq.still) (.inl (.still hq.still))
      fun a ha => .inl (hq.plan ▸ ha)
  | keep => exact h.keeps hl (.of_level? fun _ => rfl) (fun _ => rfl) (.inl (.of_level? fun _ => rfl)) fun _ ha => .inl ha
  | @flow kind config hk hc =>
    exact h.keeps hl (.addLevel e rfl) (fun _ => rfl) (.inl (.addLevel e _)) fun _ ha => .inl ha
  | @update k config hk hc =>
    refine h.keeps hl (.modifyLevel e k _ fun _ => rfl) (fun _ => rfl) (.inr fun a ha => ?_) fun _ ha => .inl ha
    change a ∈ e.plan at ha
    rw [hp] at ha
    cases ha

theorem Reachable.furnished (h : Reachable e) : Furnished e := by
  refine h.invariant (P := Furnished) (fun r o s v t => ⟨fun k l hl => ?_, fun n node hn => ?_, fun a ha => ?_⟩)
    (fun _ _ hr h ht => h.tick hr ht) fun _ _ _ h ha hi => h.input ha hi
  · simp [level?, Engine.make] at hl
  · simp [node?, Engine.make] at hn
  · simp [plan, Engine.make] at ha

/-! ## Environments step by step -/

theorem Creates.env_eq {templates : Templates} (h : Creates e k r templates e') {lj l' : Level}
    (hj : e.level? j = some lj) (hj' : e'.level? j = some l') : l'.env = lj.env := by
  cases h with
  | present => exact (KeepsEnv.refl e).env_eq j lj l' hj hj'
  | noTemplate => exact (keepsEnv_failCreation _ _ _ _).env_eq j lj l' hj hj'
  | refused => exact (keepsEnv_failCreation _ _ _ _).env_eq j lj l' hj hj'
  | @made part notes =>
    have hk : KeepsEnv e (e.note notes) := .of_level? fun _ => rfl
    exact (hk.trans (keepsEnv_enter _ _ _ part)).env_eq j lj l' hj hj'
  | usage hn hu ht ho =>
    cases ho with
    | nowhere => exact (KeepsEnv.refl e).env_eq j lj l' hj hj'
    | breaks => exact (KeepsEnv.of_level? (e := e) fun _ => rfl).env_eq j lj l' hj hj'
    | collapses =>
      exact ((keepsEnv_withInstance _ _ _ _ _).trans (keepsEnv_failCreation _ _ _ _)).env_eq j lj l' hj hj'
    | opens =>
      rw [level?_opened_of_level? hj] at hj'
      cases hj'
      rfl

theorem Scopes.env_eq (h : Scopes e e') {l l' : Level} (hl : e.level? k = some l) (hl' : e'.level? k = some l') :
    l'.env = l.env ∨ e'.Current k l' := by
  cases h with
  | keeps hk => exact .inl (hk.env_eq k l l' hl hl')
  | activates order hk _ hlaid hlevel =>
    rcases level?_activated_cases hlaid hlevel order hl' with hs | ⟨-, hc, -⟩
    · exact .inl (hk.env_eq k l l' hl hs)
    · exact .inr hc

/-- A level keeps its environment, unless it is activated. -/
theorem Tick.env_eq (hr : Reachable e) (ht : Tick e e') {l l' : Level} (hl : e.level? k = some l)
    (hl' : e'.level? k = some l') : l'.env = l.env ∨ e'.Current k l' := by
  rcases ht.kinds with ⟨hs, -⟩ | ⟨key, -, hs, -⟩ | ⟨a, rest, -, hq, ha, rfl⟩
  · exact .inl ((KeepsEnv.of_level? (level?_of_still hs)).env_eq k l l' hl hl')
  · exact .inl ((KeepsEnv.of_level? (level?_of_still hs)).env_eq k l l' hl hl')
  · have hplan := plan_pop ha hq
    have hk : KeepsEnv e { e with agenda := rest } := .of_level? fun _ => rfl
    cases a with
    | create j r templates => exact .inl ((creates_create { e with agenda := rest } j r templates).env_eq hl hl')
    | install j r inst =>
      exact .inl ((hk.trans (keepsEnv_install _ j r inst)).env_eq k l l' hl hl')
    | refresh j =>
      have hst : Stops { e with agenda := rest } (({ e with agenda := rest } : Engine).refresh j) := stops_refresh _ j
      exact .inl ((hk.trans hst.keepsEnv).env_eq k l l' hl hl')
    | resume key =>
      have ho := hr.accounted.orderly
      rw [hplan] at ho
      exact (Scopes.after hk ((resumes_resume _ key).scopes (hr.layout.popped hplan) ho)).env_eq hl hl'
    | _ => cases hq

theorem Input.keepsEnv (hi : Input e e') : KeepsEnv e e' := by
  cases hi with
  | @call stages => exact .of_level? (level?_begin e stages)
  | quiet hq => exact .of_level? (level?_of_still hq.still)
  | keep => exact .of_level? fun _ => rfl
  | flow => exact .addLevel e rfl
  | update => exact .modifyLevel e _ _ fun _ => rfl

end Engine

namespace Session
open Engine

end Session
end Flowgraph
