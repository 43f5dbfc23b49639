import Flowgraph.Command.Answer
import Flowgraph.Proofs.AllOrNothing
import Flowgraph.Proofs.Clearance
import Flowgraph.Proofs.Unfolding
/-! The check of a deployment is sound: records in which it finds no problem are loaded, and no node of what runs then
fails for a reason that the check looks for, however deep templates are nested. -/
namespace Flowgraph

/-! ## What the check looks for -/

/-- Faults that the records alone give away: an unknown type, a template that does not exist, and nodes or templates that
need themselves. -/
inductive NodeFault.Structural : NodeFault → Prop
  | unknownType (type : String) : Structural (.unknownType type)
  | unknownTemplate (id : String) : Structural (.construction ("Unknown subflow template: " ++ id))
  | circular (id : String) : Structural (.construction (ConfigFault.circularDependency id).message)

/-- Kinds that refuse no record of theirs for such a fault. -/
def Registry.Candid (kinds : Registry) : Prop :=
  ∀ r fault, kinds.knows r.type = true → kinds.create r = .error fault → ¬fault.Structural

theorem Delay.holdTime_error {r : Record} {fault : NodeFault} (h : Delay.holdTime r = .error fault) :
    ∃ reason, fault = .configuration reason := by
  unfold Delay.holdTime at h
  split at h
  · cases h
  · split at h <;> cases h
    exact ⟨_, rfl⟩
  · split at h <;> cases h
    exact ⟨_, rfl⟩
  · cases h
    exact ⟨_, rfl⟩

theorem Convert.options_error {r : Record} {fault : NodeFault} (h : Convert.options r = .error fault) :
    ∃ reason, fault = .configuration reason := by
  unfold Convert.options at h
  split at h <;> cases h
  exact ⟨_, rfl⟩

/-- The kinds that are always at hand find fault with the properties of a node alone. -/
theorem Registry.candid_standard : Registry.standard.Candid := by
  intro r fault hknown h
  suffices hreason : ∃ reason, fault = .configuration reason by
    obtain ⟨reason, rfl⟩ := hreason
    exact nofun
  unfold Registry.create at h
  split at h
  · rename_i hnone
    rw [Registry.knows, Dict.contains_eq_isSome, hnone] at hknown
    cases hknown
  · rename_i kind hkind
    have hmem := Registry.mem_standard hkind
    simp only [List.mem_cons, List.not_mem_nil, or_false, Prod.mk.injEq] at hmem
    rcases hmem with ⟨-, rfl⟩ | ⟨-, rfl⟩ | ⟨-, rfl⟩ | ⟨-, rfl⟩ | ⟨-, rfl⟩
    · cases h
    · unfold Delay.kind at h
      dsimp only at h
      cases hd : Delay.holdTime r with
      | ok ms =>
        rw [hd] at h
        cases h
      | error fault' =>
        rw [hd] at h
        cases h
        exact Delay.holdTime_error hd
    · unfold Convert.kind at h
      dsimp only at h
      cases ho : Convert.options r with
      | ok options =>
        rw [ho] at h
        cases h
      | error fault' =>
        rw [ho] at h
        cases h
        exact Convert.options_error ho
    · unfold Change.kind at h
      dsimp only at h
      cases hr : Change.rules? r with
      | some rules =>
        rw [hr] at h
        cases h
      | none =>
        rw [hr] at h
        cases h
        exact ⟨_, rfl⟩
    · cases h

variable {kinds : Registry} {d : Deployment} {r : Record} {c : FlowConfig}

/-- A deployment in which the check finds nothing. -/
structure Deployment.Clean (kinds : Registry) (d : Deployment) : Prop where
  sound : d.Sound
  known : ∀ r ∈ d.placedNodes, d.isMissing (Command.Answer.knowsType kinds) r = false

theorem mem_distinct {found types : List String} {type : String} (h : type ∈ found ∨ type ∈ types) :
    type ∈ types.foldl (fun found type => if found.contains type then found else found ++ [type]) found := by
  induction types generalizing found with
  | nil => exact h.resolve_right List.not_mem_nil
  | cons t ts ih =>
    rw [List.foldl_cons]
    refine ih ?_
    rcases h with h | h
    · left
      split
      · exact h
      · exact List.mem_append_left _ h
    · rcases List.mem_cons.mp h with rfl | h
      · left
        split
        · rename_i hc
          exact List.contains_iff_mem.mp hc
        · exact List.mem_append_right _ (List.mem_singleton_self _)
      · exact .inr h

/-- Every type that is missing is among those the check names. -/
theorem Deployment.mem_missingTypes {known : String → Bool} (hr : r ∈ d.placedNodes) (hm : d.isMissing known r = true) :
    r.type ∈ d.missingTypes known :=
  mem_distinct (.inr (List.mem_map_of_mem (List.mem_filter.mpr ⟨hr, hm⟩)))

theorem clean_of_problems (h : Command.Answer.problems kinds d = []) : d.Clean kinds := by
  obtain ⟨hflows, hmissing⟩ := List.append_eq_nil_iff.mp h
  refine ⟨fun c hc => ?_, fun r hr => ?_⟩
  · have hnone := List.filterMap_eq_nil_iff.mp hflows c hc
    cases hv : StartOrder.validate c with
    | ok order => exact ⟨order, hv⟩
    | error fault =>
      rw [hv] at hnone
      cases hnone
  · cases hm : d.isMissing (Command.Answer.knowsType kinds) r with
    | false => rfl
    | true =>
      have hin := Deployment.mem_missingTypes hr hm
      rw [List.map_eq_nil_iff.mp hmissing] at hin
      cases hin

/-! ## Nodes and flows that have been checked -/

namespace Deployment

/-- A node whose type is known, and the templates inside which can be made one after the other. -/
structure Approves (d : Deployment) (kinds : Registry) (r : Record) : Prop where
  known : d.isMissing (Command.Answer.knowsType kinds) r = false
  layered : ∃ ids, StartOrder.Layered d.templates ids ∧ StartOrder.UsesOnly d.templates [r] ids

/-- A flow all of whose nodes have been checked. -/
structure Vets (d : Deployment) (kinds : Registry) (c : FlowConfig) : Prop where
  templates : c.templates = d.templates
  ordered : ∃ order, StartOrder.resolve c.nodes = .ok order
  nodes : ∀ r ∈ c.nodes, d.Approves kinds r

theorem usesOnly_singleton {templates : Templates} {nodes : List Record} {ids : List String}
    (h : StartOrder.UsesOnly templates nodes ids) (hr : r ∈ nodes) : StartOrder.UsesOnly templates [r] ids := by
  intro r' hr'
  obtain rfl := List.mem_singleton.mp hr'
  exact h r' hr

theorem Clean.vets (h : d.Clean kinds) {rs : List Record} (ha : d.Arranged rs) (hc : c ∈ d.global :: d.tabs) :
    d.Vets kinds c := by
  obtain ⟨order, hv⟩ := h.sound c hc
  obtain ⟨ho, ids, hlayered, huses⟩ := StartOrder.layered_validate hv
  have ht : c.templates = d.templates := by
    rcases List.mem_cons.mp hc with rfl | hc
    · rw [ha.global]
    · exact (ha.tabs c hc).2
  rw [ht] at hlayered huses
  refine ⟨ht, ⟨order, ho⟩, fun r hr => ⟨h.known r ?_, ids, hlayered, usesOnly_singleton huses hr⟩⟩
  rcases List.mem_cons.mp hc with rfl | hc
  · exact List.mem_append_left _ (List.mem_append_left _ hr)
  · exact List.mem_append_left _ (List.mem_append_right _ (List.mem_flatMap.mpr ⟨c, hc, hr⟩))

theorem Clean.known_template (h : d.Clean kinds) {id : String} {t : Template} (ht : d.templates.get? id = some t)
    (hr : r ∈ t.nodes) : d.isMissing (Command.Answer.knowsType kinds) r = false := by
  obtain ⟨entry, he, rfl⟩ := Option.map_eq_some_iff.mp ht
  exact h.known r (List.mem_append_right _ (List.mem_flatMap.mpr
    ⟨_, List.mem_map_of_mem (List.mem_of_find?_eq_some he), hr⟩))

/-- Only the type of a node counts for whether it is missing. -/
theorem isMissing_congr {r' : Record} (h : r'.type = r.type) (known : String → Bool) :
    d.isMissing known r' = d.isMissing known r := by
  unfold isMissing Record.templateId?
  rw [h]

theorem isMissing_internal (h : isInternalType r.type = true) :
    d.isMissing (Command.Answer.knowsType kinds) r = false := by
  unfold isMissing
  rw [templateId?_internal h]
  simp [Command.Answer.knowsType, h]

/-- The nodes of the instance of a checked node can be ordered, and are checked in turn. -/
theorem Approves.inner (h : d.Approves kinds r) (hclean : d.Clean kinds) (hd : r.disabled = false) {id : String}
    {t : Template} (hu : r.templateId? = some id) (ht : d.templates.get? id = some t) {usage : Record} {next : Nat}
    (hf : t.Fresh next) {outer : Wires} {nodes : List Record}
    (hx : (Binding.make t usage next).expand? outer = some nodes) :
    (∃ order, StartOrder.resolve nodes = .ok order) ∧ ∀ r' ∈ nodes, d.Approves kinds r' := by
  obtain ⟨ids, hlayered, huses⟩ := h.layered
  obtain ⟨hordered, deeper, hdeeper, -, hinner⟩ :=
    hlayered.beneath (huses r (List.mem_singleton_self r) hd id t hu ht) ht
  refine ⟨Binding.resolve_expand? hx hf hordered, fun r' hr' => ⟨?_, deeper, hdeeper,
    usesOnly_singleton (Binding.usesOnly_expand? hx hinner) hr'⟩⟩
  obtain ⟨pos, hpos⟩ := List.mem_iff_getElem?.mp hr'
  cases Binding.stands_expand? hx hpos with
  | @copied original horiginal hbare =>
    have htype : r'.type = original.type := (Binding.eq_of_bare Record.type (fun _ => rfl) hbare :)
    rw [isMissing_congr htype]
    exact hclean.known_template ht (List.mem_of_getElem? horiginal)
  | internal _ _ _ htype => exact isMissing_internal htype

/-- Only kinds at hand can refuse a checked node. -/
theorem knows_of_not_missing (h : d.isMissing (Command.Answer.knowsType kinds) r = false)
    (hu : r.templateId? = none) (hb : Engine.builtIn? r.type = none) : kinds.knows r.type = true := by
  rw [isMissing, hu] at h
  simp only [Command.Answer.knowsType, isInternalType, Bool.not_eq_false', Bool.or_eq_true, beq_iff_eq] at h
  unfold Engine.builtIn? at hb
  split at hb
  · cases hb
  · split at hb
    · cases hb
    · split at hb
      · cases hb
      · simp_all

end Deployment

namespace Engine
variable {e e' m e₀ : Engine} {k j : LevelKey} {l l' : Level} {key : CallKey} {base : Nat}

/-! ## While the deployment is loaded -/

/-- A level whose nodes have been checked, none of which has failed for what the check looks for. -/
structure Spotless (d : Deployment) (kinds : Registry) (l : Level) : Prop where
  vetted : d.Vets kinds l.config
  faultless : ∀ id fault, l.failures.get? id = some fault → ¬fault.Structural

theorem Spotless.of_failures (h : Spotless d kinds l) (hc : l'.config = l.config)
    (hf : ∀ id fault, l'.failures.get? id = some fault → l.failures.get? id = some fault ∨ ¬fault.Structural) :
    Spotless d kinds l' :=
  ⟨hc ▸ h.vetted, fun i fault hi => (hf i fault hi).elim (h.faultless i fault) fun hs => hs⟩

/-- An action that makes a checked node of a new level, if it makes one at all. -/
def Checked (d : Deployment) (kinds : Registry) (base : Nat) : Action → Prop
  | .create k r templates => base ≤ k ∧ templates = d.templates ∧ r.disabled = false ∧ d.Approves kinds r
  | _ => True

/-- The engine, whose new levels are those from `base` on, while a deployment that has been checked is loaded. -/
structure Clear (d : Deployment) (kinds : Registry) (base : Nat) (e : Engine) : Prop where
  unbroken : e.broken = false
  levels : ∀ j l, base ≤ j → e.level? j = some l → Spotless d kinds l
  plan : ∀ a ∈ e.plan, Checked d kinds base a
  flows : ∀ k, e.global = some k ∨ k ∈ e.flows → base ≤ k

namespace Clear

/-- A step after which every level is as before, with at most other failures that are harmless. -/
theorem of_levels (h : Clear d kinds base e) (hb : e'.broken = false)
    (hl : ∀ j l', e'.level? j = some l' → ∃ l, e.level? j = some l ∧ l'.config = l.config ∧
      ∀ id fault, l'.failures.get? id = some fault → l.failures.get? id = some fault ∨ ¬fault.Structural)
    (hp : ∀ a ∈ e'.plan, a ∈ e.plan ∨ Checked d kinds base a) (hg : e'.global = e.global) (hf : e'.flows = e.flows) :
    Clear d kinds base e' := by
  refine ⟨hb, fun j l' hj hl' => ?_, fun a ha => (hp a ha).elim (h.plan a) fun hc => hc, fun k hk => ?_⟩
  · obtain ⟨l, hl, hc, hfail⟩ := hl j l' hl'
    exact (h.levels j l hj hl).of_failures hc hfail
  · rw [hg, hf] at hk
    exact h.flows k hk

/-- A step that leaves levels and flows as they are, and plans nothing but checked nodes. -/
theorem of_level? (h : Clear d kinds base e) (hb : e'.broken = e.broken) (hl : ∀ j, e'.level? j = e.level? j)
    (hp : ∀ a ∈ e'.plan, a ∈ e.plan ∨ Checked d kinds base a) (hg : e'.global = e.global) (hf : e'.flows = e.flows) :
    Clear d kinds base e' :=
  h.of_levels (hb.trans h.unbroken) (fun j l' hl' => ⟨l', (hl j).symm.trans hl', rfl, fun _ _ hi => .inl hi⟩) hp hg hf

theorem pop (h : Clear d kinds base e) {a : Action} {rest : List Action} (ha : e.agenda = a :: rest) :
    Clear d kinds base { e with agenda := rest } :=
  h.of_level? rfl (fun _ => rfl) (fun _ hb => .inl (mem_plan_pop ha hb)) rfl rfl

theorem modifyLevel (h : Clear d kinds base e) (k : LevelKey) {f : Level → Level} (hc : ∀ l, (f l).config = l.config)
    (hf : ∀ l id fault, (f l).failures.get? id = some fault → l.failures.get? id = some fault ∨ ¬fault.Structural) :
    Clear d kinds base (e.modifyLevel k f) := by
  refine h.of_levels h.unbroken (fun j l' hl' => ?_) (fun _ ha => .inl ha) rfl rfl
  rw [level?_modifyLevel] at hl'
  split at hl'
  · obtain ⟨l, hl, rfl⟩ := Option.map_eq_some_iff.mp hl'
    exact ⟨l, hl, hc l, hf l⟩
  · exact ⟨l', hl', rfl, fun _ _ hi => .inl hi⟩

theorem push (h : Clear d kinds base e) {actions : List Action} (ha : ∀ a ∈ actions, Checked d kinds base a) :
    Clear d kinds base (e.push actions) := by
  refine h.of_level? rfl (fun _ => rfl) (fun a hp => ?_) rfl rfl
  rw [plan_push] at hp
  exact (List.mem_append.mp hp).elim (fun hm => .inr (ha a (List.mem_of_mem_filter hm))) .inl

/-- A new level comes into being. -/
theorem addLevel (h : Clear d kinds base e) (hl : Spotless d kinds l) : Clear d kinds base (e.addLevel l).1 := by
  refine ⟨h.unbroken, fun j l' hj hl' => ?_, h.plan, h.flows⟩
  rw [level?_addLevel] at hl'
  split at hl'
  · obtain rfl := Option.some.inj hl'
    exact hl
  · exact h.levels j l' hj hl'

theorem lulls (h : Clear d kinds base e) (hl : Lulls e e') : Clear d kinds base e' := by
  refine h.of_level? hl.broken hl.level? (fun a ha => ?_) hl.global hl.flows
  rcases hl.plan a ha with hp | ⟨j, rfl⟩
  · exact .inl hp
  · exact .inr trivial

/-! ### Nodes are made -/

theorem enter (h : Clear d kinds base e) (k : LevelKey) (r : Record) (part : Part) :
    Clear d kinds base (e.enter k r part) := by
  have hr : (e.enter k r part).register = e.register := register_enter e k r part
  refine h.of_levels (Furthers.enter h.unbroken k r part : Furthers k [] e _).unbroken (fun j l' hl' => ?_)
    (fun a ha => .inl (plan_enter e k r part ▸ ha)) (congrArg (·.2.2.2.1) hr) (congrArg (·.2.2.2.2) hr)
  rw [level?_enter] at hl'
  split at hl'
  · obtain ⟨l, hl, rfl⟩ := Option.map_eq_some_iff.mp hl'
    refine ⟨l, hl, rfl, fun id fault hi => .inl ?_⟩
    dsimp only at hi
    rw [Dict.get?_erase] at hi
    split at hi
    · cases hi
    · exact hi
  · exact ⟨l', hl', rfl, fun _ _ hi => .inl hi⟩

theorem failCreation (h : Clear d kinds base e) (k : LevelKey) (r : Record) {fault : NodeFault} (hf : ¬fault.Structural) :
    Clear d kinds base (e.failCreation k r fault) := by
  have hr : (e.failCreation k r fault).register = e.register := register_failCreation e k r fault
  refine h.of_levels ((broken_failCreation e k r fault).trans h.unbroken) (fun j l' hl' => ?_)
    (fun a ha => .inl (plan_failCreation e k r fault ▸ ha)) (congrArg (·.2.2.2.1) hr) (congrArg (·.2.2.2.2) hr)
  rw [level?_failCreation] at hl'
  split at hl'
  · obtain ⟨l, hl, rfl⟩ := Option.map_eq_some_iff.mp hl'
    refine ⟨l, hl, rfl, fun id fault' hi => ?_⟩
    dsimp only at hi
    rw [Dict.get?_insert] at hi
    split at hi
    · obtain rfl := Option.some.inj hi
      exact .inr hf
    · exact .inl hi
  · exact ⟨l', hl', rfl, fun _ _ hi => .inl hi⟩

/-- The nodes of a flow that has been checked are to be made. -/
theorem activated (h : Clear d kinds base e) (hk : base ≤ k) (hc : d.Vets kinds c) {order : List Nat}
    (ho : StartOrder.resolve c.nodes = .ok order) : Clear d kinds base (e.activated k c order) := by
  have hm := h.modifyLevel k (f := fun l => { l with env := Scope.evaluate (e.settingAround k) c.env }) (fun _ => rfl)
    fun _ _ _ hi => .inl hi
  refine hm.push fun a ha => ?_
  rcases List.mem_append.mp ha with ha | ha
  · obtain ⟨r, hr, rfl⟩ := List.mem_map.mp ha
    obtain ⟨pos, hpos, hp⟩ := List.mem_filterMap.mp hr
    obtain ⟨r', hr', hd⟩ := (StartOrder.mem_resolve ho).mp hpos
    obtain rfl := Option.some.inj (hp.symm.trans hr')
    exact ⟨hk, hc.templates, hd, hc.nodes r (List.mem_of_getElem? hp)⟩
  · obtain rfl := List.mem_singleton.mp ha
    trivial

/-- A checked node is made: nothing about it can go wrong that the check looks for. -/
theorem creates (h : Clear d kinds base e) (hclean : d.Clean kinds) (hcandid : kinds.Candid) (hkinds : e.registry = kinds)
    (hready : Ready d.templates e.nextPrivate) (hbase : base ≤ e.levels.size) {templates : Templates}
    (hc : Checked d kinds base (.create k r templates)) (hcr : Creates e k r templates e') : Clear d kinds base e' := by
  obtain ⟨hk, rfl, hd, happroved⟩ := hc
  have hknown : d.isMissing (Command.Answer.knowsType kinds) (e.resolvedAt k r) = false := happroved.known
  cases hcr with
  | present => exact h
  | noTemplate hn hu ht =>
    rw [Deployment.isMissing, hu] at hknown
    simp [ht] at hknown
  | @usage id t e' hn hu ht ho =>
    obtain ⟨hcount, hfresh⟩ := hready id t ht
    obtain ⟨nodes, hx⟩ := Binding.expand?_isSome (b := .make t (e.resolvedAt k r) e.nextPrivate) hcount
      (e.resolvedAt k r).outputs
    cases ho with
    | nowhere => exact h
    | breaks hx' =>
      rw [hx] at hx'
      cases hx'
    | @collapses l nodes' fault hl hx' ho =>
      obtain ⟨order, ho'⟩ := (happroved.inner hclean hd hu ht hfresh hx').1
      rw [ho] at ho'
      cases ho'
    | @opens l nodes' order hl hx' ho =>
      have hv : d.Vets kinds (instanceLevel k l (.make t (e.resolvedAt k r) e.nextPrivate) nodes').config :=
        ⟨(h.levels k l hk hl).vetted.templates, ⟨order, ho⟩, (happroved.inner hclean hd hu ht hfresh hx').2⟩
      have hp : Clear d kinds base { e with nextPrivate := e.nextPrivate + Binding.idsNeeded t } :=
        h.of_level? rfl (fun _ => rfl) (fun _ ha => .inl ha) rfl rfl
      have hw : Clear d kinds base (e.withInstance k l (.make t (e.resolvedAt k r) e.nextPrivate) nodes') :=
        hp.addLevel ⟨hv, fun _ _ hi => nomatch hi⟩
      have hi : Clear d kinds base ((e.withInstance k l (.make t (e.resolvedAt k r) e.nextPrivate) nodes').push
          [.install k (e.resolvedAt k r) e.levels.size]) := hw.push fun a ha => by
        obtain rfl := List.mem_singleton.mp ha
        trivial
      exact hi.activated hbase hv ho
  | @made part notes hn hu hb =>
    have hnoted : Clear d kinds base (e.note notes) := h.of_level? rfl (fun _ => rfl) (fun _ ha => .inl ha) rfl rfl
    exact hnoted.enter k _ part
  | @refused fault hn hu hb hr =>
    exact h.failCreation k r
      (hcandid (e.resolvedAt k r) fault (Deployment.knows_of_not_missing hknown hu hb) (hkinds ▸ hr))

theorem install (h : Clear d kinds base e) (k : LevelKey) (r : Record) (inst : LevelKey) :
    Clear d kinds base (e.install k r inst) := by
  have hm := h.modifyLevel k (f := fun l => { l with instances := l.instances.insert r.id inst }) (fun _ => rfl)
    fun _ _ _ hi => .inl hi
  exact hm.enter k r (.standIn inst)

theorem refresh (h : Clear d kinds base e) (k : LevelKey) : Clear d kinds base (e.refresh k) := by
  have hr : (e.refresh k).register = e.register := register_act (a := .refresh k) fun _ => nofun
  have hs : Stops e (e.refresh k) := stops_refresh e k
  refine h.of_levels (Furthers.refresh h.unbroken k : Furthers k [] e _).unbroken (fun j l' hl' => ?_)
    (fun a ha => .inl ?_) (congrArg (·.2.2.2.1) hr) (congrArg (·.2.2.2.2) hr)
  · obtain ⟨rs, hrs⟩ := level?_refresh e j k
    rw [hrs] at hl'
    split at hl'
    · obtain ⟨l, hl, rfl⟩ := Option.map_eq_some_iff.mp hl'
      exact ⟨l, hl, rfl, fun _ _ hi => .inl hi⟩
    · exact ⟨l', hl', rfl, fun _ _ hi => .inl hi⟩
  · unfold Engine.plan at ha ⊢
    rwa [hs.agenda] at ha

/-- An action that makes nodes is carried out. -/
theorem makes (h : Clear d kinds base e) (hclean : d.Clean kinds) (hcandid : kinds.Candid) (hkinds : e.registry = kinds)
    (hready : Ready d.templates e.nextPrivate) (hbase : base ≤ e.levels.size) {a : Action} (hm : a.makes = true)
    (hc : Checked d kinds base a) : Clear d kinds base (e.act a) := by
  cases a with
  | create k r templates =>
    exact h.creates hclean hcandid hkinds hready hbase hc (creates_create e k r templates)
  | install k r inst => exact h.install k r inst
  | refresh k => exact h.refresh k
  | _ => cases hm

end Clear

/-! ### The stages of a load -/

/-- The stages that a load of the deployment comes to. -/
inductive LoadStage (d : Deployment) (base : Nat) : Stage → Prop
  | startAll : LoadStage d base (.startAll d)
  | startTab {tab : FlowConfig} (ht : tab ∈ d.tabs) : LoadStage d base (.startTab tab true)
  | start {k : LevelKey} (hk : base ≤ k) : LoadStage d base (.start k none)
  | apply {k : LevelKey} (hk : base ≤ k) (config : FlowConfig) : LoadStage d base (.apply k config none)
  | enlist {k : LevelKey} (hk : base ≤ k) : LoadStage d base (.enlist k)
  | commit (next : Deployment) : LoadStage d base (.commit next)

/-- A load of the deployment is under way: its call waits for nothing, and all that it has still to do is part of it. -/
structure Loading (d : Deployment) (kinds : Registry) (base : Nat) (key : CallKey) (e : Engine) : Prop
    extends Clear d kinds base e where
  call : ∃ c, e.call? key = some c ∧ c.waiting = [] ∧ ∀ s ∈ c.stages, LoadStage d base s

namespace Loading
variable {c : Call}

theorem proceed (h : Clear d kinds base e) (hc : e.call? key = some c) (hw : c.waiting = []) {stages : List Stage}
    (hs : ∀ s ∈ stages ++ c.stages, LoadStage d base s) : Loading d kinds base key (e.proceed key stages) :=
  ⟨h.lulls (.proceed e key stages), _, call?_proceed hc stages, hw, hs⟩

theorem refuse (h : Clear d kinds base e) (hc : e.call? key = some c) (hw : c.waiting = []) (fault : FlowFault) :
    Loading d kinds base key (e.refuse key fault) :=
  ⟨h.lulls (.refuse e key fault), _, call?_refuse hc fault, hw, fun _ hs => nomatch hs⟩

/-- A new flow is kept by the call, which goes on. -/
theorem holds (h : Clear d kinds base e) (hc : e.call? key = some c) (hw : c.waiting = []) (k : LevelKey)
    {stages : List Stage} (hs : ∀ s ∈ stages ++ c.stages, LoadStage d base s) :
    Loading d kinds base key ((e.hold key [k]).proceed key stages) :=
  proceed (h.lulls (.modifyCall e key _)) (call?_hold hc [k]) hw hs

theorem start (h : Clear d kinds base e) (hc : e.call? key = some c) (hw : c.waiting = [])
    (hs : ∀ s ∈ c.stages, LoadStage d base s) (hk : base ≤ k) (hst : Starts e key k none e') :
    Loading d kinds base key e' := by
  cases hst with
  | nowhere => exact proceed h hc hw hs
  | refused => exact refuse h hc hw _
  | @fresh l hl =>
    have hreset : Clear d kinds base (e.modifyLevel k fun l => { l with failures := [] }) :=
      h.modifyLevel k (fun _ => rfl) fun _ _ _ hi => by cases hi
    refine proceed hreset hc hw fun s hs' => ?_
    rcases List.mem_cons.mp hs' with rfl | hs'
    · exact .apply hk _
    · exact hs s hs'
  | again _ hd => cases hd

theorem apply (h : Clear d kinds base e) (hc : e.call? key = some c) (hw : c.waiting = [])
    (hs : ∀ s ∈ c.stages, LoadStage d base s) (hk : base ≤ k) {config : FlowConfig}
    (happ : Applies e key k config none e') : Loading d kinds base key e' := by
  have hstarted : Clear d kinds base (e.rewired k config none) :=
    h.modifyLevel k (fun _ => rfl) fun _ _ _ hi => .inl hi
  have hpushed : Clear d kinds base ((e.rewired k config none).push [.announce k, .resume key]) := by
    refine hstarted.push fun a ha => ?_
    rcases List.mem_cons.mp ha with rfl | ha
    · trivial
    · obtain rfl := List.mem_singleton.mp ha
      trivial
  cases happ with
  | nowhere => exact ⟨hpushed, c, hc, hw, hs⟩
  | @activates l order hl ho =>
    exact ⟨hpushed.activated hk (hstarted.levels k l hk hl).vetted ho, c, hc, hw, hs⟩
  | refused => exact refuse hstarted hc hw _

theorem startAll (h : Clear d kinds base e) (hbase : base ≤ e.levels.size) (hv : d.Vets kinds d.global)
    (hc : e.call? key = some c) (hw : c.waiting = []) (hs : ∀ s ∈ c.stages, LoadStage d base s) :
    Loading d kinds base key (e.startAll key d) := by
  unfold Engine.startAll
  split
  · exact refuse h hc hw _
  · have hadd : Clear d kinds base (e.addLevel (.make .global none d.global)).1 :=
      h.addLevel ⟨hv, fun _ _ hi => nomatch hi⟩
    have hglobal : Clear d kinds base
        { (e.addLevel (.make .global none d.global)).1 with global := some e.levels.size } := by
      refine ⟨hadd.unbroken, hadd.levels, hadd.plan, fun k hk => ?_⟩
      rcases hk with hk | hk
      · obtain rfl := Option.some.inj hk
        exact hbase
      · exact h.flows k (.inr hk)
    refine holds hglobal hc hw e.levels.size fun s hs' => ?_
    simp only [List.mem_append, List.mem_singleton, List.mem_map] at hs'
    rcases hs' with ((rfl | ⟨tab, ht, rfl⟩) | rfl) | hs'
    · exact .start hbase
    · exact .startTab ht
    · exact .commit d
    · exact hs s hs'

theorem startTab (h : Clear d kinds base e) (hbase : base ≤ e.levels.size) {tab : FlowConfig} (hv : d.Vets kinds tab)
    (hc : e.call? key = some c) (hw : c.waiting = []) (hs : ∀ s ∈ c.stages, LoadStage d base s) :
    Loading d kinds base key (e.startTab key tab true) := by
  unfold Engine.startTab
  split
  · exact proceed h hc hw hs
  · have hadd : Clear d kinds base (e.addLevel (.make .tab none tab)).1 :=
      h.addLevel ⟨hv, fun _ _ hi => nomatch hi⟩
    refine holds hadd hc hw e.levels.size fun s hs' => ?_
    rcases List.mem_cons.mp hs' with rfl | hs'
    · exact .start hbase
    · rcases List.mem_cons.mp hs' with rfl | hs'
      · exact .enlist hbase
      · exact hs s hs'

/-- The next stage of the load is run. -/
theorem runStage (h : Clear d kinds base e) (hbase : base ≤ e.levels.size) (hv : ∀ c ∈ d.global :: d.tabs, d.Vets kinds c)
    (hc : e.call? key = some c) (hw : c.waiting = []) {stage : Stage} (ho : LoadStage d base stage)
    (hs : ∀ s ∈ c.stages, LoadStage d base s) : Loading d kinds base key (e.runStage key stage) := by
  cases ho with
  | startAll => exact startAll h hbase (hv _ List.mem_cons_self) hc hw hs
  | startTab ht => exact startTab h hbase (hv _ (List.mem_cons_of_mem _ ht)) hc hw hs
  | start hk => exact start h hc hw hs hk (starts_start e key _ none)
  | apply hk config => exact apply h hc hw hs hk (applies_apply e key _ config none)
  | @enlist k hk =>
    have henlisted : Clear d kinds base { e with flows := e.flows ++ [k] } := by
      refine ⟨h.unbroken, h.levels, h.plan, fun j hj => ?_⟩
      rcases hj with hj | hj
      · exact h.flows j (.inl hj)
      · rcases List.mem_append.mp hj with hj | hj
        · exact h.flows j (.inr hj)
        · obtain rfl := List.mem_singleton.mp hj
          exact hk
    exact proceed henlisted hc hw hs
  | commit next =>
    have hcommitted : Clear d kinds base { e with deployed := some next } :=
      h.of_level? rfl (fun _ => rfl) (fun _ ha => .inl ha) rfl rfl
    exact proceed hcommitted hc hw hs

theorem resumes (h : Loading d kinds base key e) (hbase : base ≤ e.levels.size)
    (hv : ∀ c ∈ d.global :: d.tabs, d.Vets kinds c) (hr : Resumes e key e') : Loading d kinds base key e' := by
  obtain ⟨c, hc, hw, hs⟩ := h.call
  cases hr with
  | unknown hn =>
    rw [hc] at hn
    cases hn
  | @ends c' hc' _ hnone =>
    obtain rfl := Option.some.inj (hc.symm.trans hc')
    refine ⟨h.lulls (.modifyCall e key _), { c with ended := c.ended <|> some e.now, holds := [] }, ?_, hw, hs⟩
    rw [call?_modifyCall, if_pos rfl, hc]
    rfl
  | @stage c' stage rest hc' _ hstages =>
    obtain rfl := Option.some.inj (hc.symm.trans hc')
    rw [hstages] at hs
    have hpopped : (e.modifyCall key fun c => { c with stages := rest }).call? key = some { c with stages := rest } := by
      rw [call?_modifyCall, if_pos rfl, hc]
      rfl
    exact runStage (h.lulls (.modifyCall e key _)) hbase hv hpopped hw (hs stage List.mem_cons_self)
      fun s hs' => hs s (List.mem_cons_of_mem _ hs')
  | @waits c' hc' hne =>
    obtain rfl := Option.some.inj (hc.symm.trans hc')
    exact absurd hw hne

end Loading

theorem Grows.size_le (h : Grows e e') : e.levels.size ≤ e'.levels.size := by
  by_contra hlt
  have hlt := Nat.lt_of_not_le hlt
  obtain ⟨l', hl', -⟩ := h.level e'.levels.size _ (Array.getElem?_eq_getElem hlt)
  exact Nat.lt_irrefl _ (level?_lt e' _ hl')

theorem Ready.mono {templates : Templates} {next next' : Nat} (h : Ready templates next) (hn : next ≤ next') :
    Ready templates next' := fun id t ht => ⟨(h id t ht).1, (h id t ht).2.mono hn⟩

/-- A deployment that an engine can load: its check has found nothing, and what lies outside the records is sound. -/
structure Loadable (d : Deployment) (e : Engine) : Prop where
  clean : d.Clean e.registry
  vets : ∀ c ∈ d.global :: d.tabs, d.Vets e.registry c
  candid : e.registry.Candid
  ready : Ready d.templates e.nextPrivate

/-- A load of a deployment that has been checked is under way alone, in an engine in which nothing else is running. -/
structure LoadsAlone (d : Deployment) (e₀ : Engine) (key : CallKey) (e : Engine) : Prop
    extends Loading d e₀.registry e₀.levels.size key e where
  solo : Solo e key
  grows : Grows e₀ e

theorem LoadsAlone.tick (hp : Loadable d e₀) (h : LoadsAlone d e₀ key e) (ht : Tick e e') : LoadsAlone d e₀ key e' := by
  obtain ⟨hsolo, hadvances⟩ := h.solo.tick ht
  refine ⟨?_, hsolo, h.grows.trans ht.grows⟩
  have hbase := h.grows.size_le
  cases hadvances with
  | idles hidles =>
    obtain ⟨c, hc, hw, hs⟩ := h.call
    exact ⟨h.lulls hidles.toLulls, c, hidles.call.trans hc, hw, hs⟩
  | @makes a rest hb ha hm =>
    refine ⟨(h.toClear.pop ha).makes hp.clean hp.candid (registry_of_world h.grows.world)
      (hp.ready.mono h.grows.nextPrivate) hbase hm (h.plan a (mem_plan_of_makes ha hm)), ?_⟩
    have hregister : ({ e with agenda := rest }.act a).register = e.register :=
      (register_act fun key => by rintro rfl; cases hm)
    rw [call?_of_calls (congrArg (·.1) hregister)]
    exact h.call
  | @resumes rest e' hb ha hr =>
    exact Loading.resumes ⟨h.toClear.pop ha, h.call⟩ hbase hp.vets hr

/-- Nothing is deployed and no flow runs. -/
structure Undeployed (e : Engine) : Prop where
  deployed : e.deployed = none
  flows : e.flows = []
  global : e.global = none

theorem loadsAlone_begin (h : Reachable e) (hr : AtRest e) (hv : e.Undeployed) :
    LoadsAlone d e e.nextCall (e.begin [.startAll d]).1 := by
  have hwoken := quiet_wake { e with
    nextCall := e.nextCall + 1, calls := e.calls ++ [(e.nextCall, Call.make [.startAll d] e.now)] } (.call e.nextCall)
  have hplan : (e.begin [.startAll d]).1.plan = [] := by
    change (Engine.wake _ _).plan = []
    rw [hwoken.plan]
    simp [plan, hr.idle]
  obtain ⟨hflows, hglobal, -⟩ := books_begin e [.startAll d]
  refine ⟨⟨⟨(broken_of_still hwoken.still).trans hr.unbroken, fun j l hj hl => ?_, fun a ha => ?_, fun k hk => ?_⟩,
    .make [.startAll d] e.now, ?_, rfl, fun s hs => ?_⟩, hr.solo h.keysBelow _, (beside_begin e [.startAll d] 0).grows⟩
  · rw [level?_begin] at hl
    exact absurd (level?_lt e j hl) (Nat.not_lt_of_le hj)
  · rw [hplan] at ha
    cases ha
  · rw [hflows, hglobal, hv.flows, hv.global] at hk
    simp at hk
  · rw [call?_begin h.keysBelow, if_pos rfl]
  · obtain rfl := List.mem_singleton.mp hs
    exact .startAll

end Engine

end Flowgraph
