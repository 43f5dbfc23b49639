import Flowgraph.Proofs.Sparing
/-! What happens beside an outermost level: the level keeps its configuration and its environment, its nodes and
their wiring, and what is about to be made in it. -/
namespace Flowgraph

/-- A level with the same identity, configuration and environment. -/
structure Level.Alike (l l' : Level) : Prop extends Level.Kin l l' where
  config : l'.config = l.config
  env : l'.env = l.env

theorem Level.Alike.refl (l : Level) : Level.Alike l l := ⟨.refl l, rfl, rfl⟩

namespace Engine

variable {e e' e'' : Engine} {key : CallKey} {k j : LevelKey}

/-! ## The level itself -/

/-- A step after which the level is still the same one. -/
def Resembles (k : LevelKey) (e e' : Engine) : Prop :=
  ∀ l, e.level? k = some l → ∃ l', e'.level? k = some l' ∧ Level.Alike l l'

namespace Resembles

theorem of_level? (h : e'.level? k = e.level? k) : Resembles k e e' := fun l hl => ⟨l, h.trans hl, .refl l⟩

theorem refl (e : Engine) : Resembles k e e := of_level? rfl

theorem trans (h : Resembles k e e') (h' : Resembles k e' e'') : Resembles k e e'' := by
  intro l hl
  obtain ⟨l', hl', ha⟩ := h l hl
  obtain ⟨l'', hl'', ha'⟩ := h' l' hl'
  exact ⟨l'', hl'', ⟨⟨ha'.id.trans ha.id, ha'.kind.trans ha.kind, ha'.parent.trans ha.parent⟩,
    ha'.config.trans ha.config, ha'.env.trans ha.env⟩⟩

theorem modifyLevel (e : Engine) (j : LevelKey) {f : Level → Level} (hf : j = k → ∀ l, Level.Alike l (f l)) :
    Resembles k e (e.modifyLevel j f) := by
  intro l hl
  rw [level?_modifyLevel, hl]
  split
  · rename_i hj
    exact ⟨f l, rfl, hf hj l⟩
  · exact ⟨l, rfl, .refl l⟩

theorem addLevel (e : Engine) (l : Level) : Resembles k e (e.addLevel l).1 := by
  intro l' hl'
  rw [level?_addLevel, if_neg (Nat.ne_of_lt (level?_lt e k hl'))]
  exact ⟨l', hl', .refl l'⟩

end Resembles

theorem StopsWithin.resembles {may : LevelKey → NodeId → Prop} (h : StopsWithin may e e') : Resembles k e e' := by
  refine h.invariant (P := Resembles k e) (fun s s' hs ht => hs.trans ?_) (.refl e)
  cases ht with
  | still h _ => exact .of_level? (level?_of_still h k)
  | phase j p => exact .modifyLevel _ _ fun _ _ => ⟨⟨rfl, rfl, rfl⟩, rfl, rfl⟩
  | receivers j rs => exact .modifyLevel _ _ fun _ _ => ⟨⟨rfl, rfl, rfl⟩, rfl, rfl⟩
  | leave j targets _ _ => exact .modifyLevel _ _ fun _ _ => ⟨⟨rfl, rfl, rfl⟩, rfl, rfl⟩
  | cancel n => exact .refl s
  | forget j id _ => exact .modifyLevel _ _ fun _ _ => ⟨⟨rfl, rfl, rfl⟩, rfl, rfl⟩

theorem resembles_enter (e : Engine) (j : LevelKey) (r : Record) (part : Part) :
    Resembles k e (e.enter j r part) := by
  intro l hl
  rw [level?_enter, hl]
  split
  · exact ⟨_, rfl, ⟨rfl, rfl, rfl⟩, rfl, rfl⟩
  · exact ⟨l, rfl, .refl l⟩

theorem resembles_failCreation (e : Engine) (j : LevelKey) (r : Record) (fault : NodeFault) :
    Resembles k e (e.failCreation j r fault) := by
  intro l hl
  rw [level?_failCreation, hl]
  split
  · exact ⟨_, rfl, ⟨rfl, rfl, rfl⟩, rfl, rfl⟩
  · exact ⟨l, rfl, .refl l⟩

theorem resembles_activated (hj : j ≠ k) (c : FlowConfig) (order : List Nat) :
    Resembles k e (e.activated j c order) := by
  intro l hl
  rw [level?_activated, if_neg hj]
  exact ⟨l, hl, .refl l⟩

theorem resembles_withInstance (j : LevelKey) (l : Level) (b : Binding) (nodes : List Record) :
    Resembles k e (e.withInstance j l b nodes) := by
  intro l' hl'
  rw [level?_withInstance, if_neg (Nat.ne_of_lt (level?_lt e k hl'))]
  exact ⟨l', hl', .refl l'⟩

theorem Creates.resembles {r : Record} {templates : Templates} (h : Creates e j r templates e') :
    Resembles k e e' := by
  cases h with
  | present => exact .refl e
  | noTemplate => exact resembles_failCreation _ _ _ _
  | refused => exact resembles_failCreation _ _ _ _
  | @made part notes => exact resembles_enter (e.note notes) _ _ _
  | usage _ _ _ ho =>
    cases ho with
    | nowhere => exact .refl e
    | breaks => exact .of_level? rfl
    | collapses => exact (resembles_withInstance _ _ _ _).trans (resembles_failCreation _ _ _ _)
    | opens hl hx ho =>
      -- the environment that is evaluated is that of the new level
      intro l hl
      obtain ⟨env, henv⟩ := level?_opened e j _ (Binding.make _ (e.resolvedAt j r) e.nextPrivate) _ _
      rw [henv, if_neg (Nat.ne_of_lt (level?_lt e k hl))]
      exact ⟨l, hl, .refl l⟩

theorem resembles_makes {a : Action} (hm : a.makes = true) : Resembles k e (e.act a) := by
  cases a with
  | create j r templates => exact (creates_create e j r templates).resembles
  | install j r i =>
    refine Resembles.trans ?_ (resembles_enter _ j r (.standIn i))
    exact .modifyLevel _ _ fun _ _ => ⟨⟨rfl, rfl, rfl⟩, rfl, rfl⟩
  | refresh j =>
    have hs : StopsWithin (fun _ _ => True) e (e.refresh j) := stops_refresh e j
    exact hs.resembles
  | _ => cases hm

/-- Rewiring gives no outermost level another configuration. -/
theorem Rewires.resembles (h : Rewires e e') (hk : e.IsFlow k) : Resembles k e e' := by
  refine h.invariant (P := Resembles k e) (fun s s' hs ht => ?_) (.refl e)
  cases ht with
  | nodes inst nodes hb =>
    intro l hl
    obtain ⟨l', hl', ha⟩ := hs l hl
    refine ⟨l', ?_, ha⟩
    rw [level?_modifyLevel, if_neg, hl']
    rintro rfl
    obtain ⟨b, -, hb, -⟩ := hb
    obtain ⟨l₁, hl₁, hkind⟩ := level?_of_binding? hb
    obtain rfl := Option.some.inj (hl'.symm.trans hl₁)
    obtain ⟨c, hc⟩ := Option.isSome_iff_exists.mp hk
    obtain ⟨l₀, hl₀, ho, -⟩ := config?_eq_some.mp hc
    obtain rfl := Option.some.inj (hl.symm.trans hl₀)
    rw [← ha.kind, hkind] at ho
    cases ho
  | _ => exact hs

/-! ## Everything in the level -/

/-- A step beside a level. -/
structure Beside (k : LevelKey) (e e' : Engine) : Prop extends Spares (fun j _ => j = k) e e' where
  grows : Grows e e'
  level : Resembles k e e'
  gains : ∀ a ∈ e'.plan, a.makesIn? = some k → a ∈ e.plan
  losses : ∀ a ∈ e.plan, a.makesIn? = some k → a ∈ e'.plan

namespace Beside

theorem refl (e : Engine) : Beside k e e := ⟨.refl e, .refl e, .refl e, fun _ h _ => h, fun _ h _ => h⟩

theorem trans (h : Beside k e e') (h' : Beside k e' e'') : Beside k e e'' :=
  ⟨h.toSpares.trans h'.toSpares, h.grows.trans h'.grows, h.level.trans h'.level,
    fun a ha hm => h.gains a (h'.gains a ha hm) hm, fun a ha hm => h'.losses a (h.losses a ha hm) hm⟩

theorem of_plan (hs : Spares (fun j _ => j = k) e e') (hg : Grows e e') (hl : Resembles k e e')
    (hp : e'.plan = e.plan) : Beside k e e' :=
  ⟨hs, hg, hl, fun _ ha _ => hp ▸ ha, fun _ ha _ => hp ▸ ha⟩

/-- Levels, nodes and what is planned are the very same. -/
theorem of_eq (hl : e'.levels = e.levels) (hn : e'.nodes = e.nodes) (hw : e'.world = e.world)
    (hp : e'.nextPrivate = e.nextPrivate) (ha : e'.agenda = e.agenda) : Beside k e e' := by
  refine .of_plan (.of_nodes (fun j => ?_) fun n => ?_) (.of_eq hl hn hw hp) (.of_level? ?_) ?_
  · rw [level?, hl, level?]
  · rw [node?, hn, node?]
  · rw [level?, hl, level?]
  · rw [plan, ha, plan]

/-- A node of the level is still there, made of the same record and with the same wiring. -/
theorem node (h : Beside k e e') {id : NodeId} {n : NodeKey} {node : Node} (ha : e.activeKey? k id = some n)
    (hn : e.node? n = some node) :
    ∃ node', e'.node? n = some node' ∧ node'.record = node.record ∧ node'.dispatch = node.dispatch :=
  h.grows.wired hn (h.wiring k id n rfl ha)

end Beside

theorem makes_of_makesIn? {a : Action} (h : a.makesIn? = some k) : a.makes = true := by
  cases a with
  | create j r templates => rfl
  | install j r i => rfl
  | _ => cases h

theorem Lulls.beside (h : Lulls e e') : Beside k e e' where
  toSpares := h.spares
  grows := h.grows
  level := .of_level? (h.level? k)
  gains _ ha hm := by
    rcases h.plan _ ha with ha | ⟨j, rfl⟩
    · exact ha
    · cases hm
  losses _ ha hm := h.makes _ ha (makes_of_makesIn? hm)

theorem Quiet.beside (h : Quiet e e') : Beside k e e' :=
  .of_plan (.still h.still) (.still h.still) (.of_level? (level?_of_still h.still k)) h.plan

/-- A stop that goes on takes nothing out of any level. -/
theorem StopsWithin.beside (h : StopsWithin (fun _ _ => False) e e') (hl : Laid e) : Beside k e e' := by
  refine .of_plan ((h.mono fun _ _ hf => hf.elim).spares hl.placed) h.stops.grows h.resembles ?_
  unfold plan
  rw [h.stops.agenda]

/-- The beginning of a call changes nothing yet. -/
theorem beside_begin (e : Engine) (stages : List Stage) (k : LevelKey) : Beside k e (e.begin stages).1 := by
  have hcalls : Beside k e { e with
      nextCall := e.nextCall + 1, calls := e.calls ++ [(e.nextCall, Call.make stages e.now)] } :=
    .of_eq rfl rfl rfl rfl rfl
  exact hcalls.trans (quiet_wake _ (.call e.nextCall)).beside

theorem books_begin (e : Engine) (stages : List Stage) : (e.begin stages).1.flows = e.flows ∧
    (e.begin stages).1.global = e.global ∧ (e.begin stages).1.deployed = e.deployed := by
  have hr := register_of_still (quiet_wake { e with
    nextCall := e.nextCall + 1, calls := e.calls ++ [(e.nextCall, Call.make stages e.now)] } (.call e.nextCall)).still
  exact ⟨congrArg (·.2.2.2.2) hr, congrArg (·.2.2.2.1) hr, congrArg (·.2.2.1) hr⟩

/-! ## New nodes in other levels -/

/-- What an action that makes nodes plans belongs to its own level or to a new one. -/
structure PlansWithin (j : LevelKey) (e e' : Engine) : Prop where
  gains : ∀ a ∈ e'.plan, a ∈ e.plan ∨ ∀ i, a.makesIn? = some i → i = j ∨ i = e.levels.size
  losses : e'.broken = true ∨ ∀ a ∈ e.plan, a ∈ e'.plan

theorem PlansWithin.of_eq (h : e'.plan = e.plan) : PlansWithin j e e' :=
  ⟨fun _ ha => .inl (h ▸ ha), .inr fun _ ha => h ▸ ha⟩

theorem makesIn?_creations {a : Action} {c : FlowConfig} {order : List Nat}
    (ha : a ∈ creations j c order ++ [Action.refresh j]) {i : LevelKey} (hi : a.makesIn? = some i) : i = j := by
  rcases List.mem_append.mp ha with ha | ha
  · obtain ⟨r, -, rfl⟩ := mem_creations ha
    exact (Option.some.inj hi).symm
  · obtain rfl := List.mem_singleton.mp ha
    cases hi

theorem plan_opened (e : Engine) (j : LevelKey) (l : Level) (b : Binding) (nodes : List Record)
    (order : List Nat) : (e.opened j l b nodes order).plan =
      creations e.levels.size (instanceLevel j l b nodes).config order ++ [.refresh e.levels.size] ++
        .install j b.usage e.levels.size :: e.plan := by
  rw [opened, plan_activated, plan_push]
  rfl

theorem Creates.plansWithin {r : Record} {templates : Templates} (h : Creates e j r templates e') :
    PlansWithin j e e' := by
  cases h with
  | present => exact .of_eq rfl
  | noTemplate => exact .of_eq (plan_failCreation _ _ _ _)
  | refused => exact .of_eq (plan_failCreation _ _ _ _)
  | made => exact .of_eq (plan_enter _ _ _ _)
  | @usage id t e' _ _ _ ho =>
    cases ho with
    | nowhere => exact .of_eq rfl
    | breaks => exact ⟨by simp [plan], .inl rfl⟩
    | collapses => exact .of_eq (plan_failCreation _ _ _ _)
    | @opens l nodes order hl hx ho =>
      have hp := plan_opened e j l (.make t (e.resolvedAt j r) e.nextPrivate) nodes order
      refine ⟨fun a ha => ?_, .inr fun a ha => by
        rw [hp]
        exact List.mem_append_right _ (List.mem_cons_of_mem _ ha)⟩
      rw [hp] at ha
      rcases List.mem_append.mp ha with ha | ha
      · exact .inr fun i hi => .inr (makesIn?_creations ha hi)
      · rcases List.mem_cons.mp ha with rfl | ha
        · exact .inr fun i hi => .inl (Option.some.inj hi).symm
        · exact .inl ha

theorem plansWithin_makes {a : Action} (hm : a.makes = true) (hj : ∀ i, a.makesIn? = some i → i = j) :
    PlansWithin j e (e.act a) := by
  cases a with
  | create i r templates =>
    obtain rfl := hj i rfl
    exact (creates_create e i r templates).plansWithin
  | install i r inst => exact .of_eq (plan_enter _ _ _ _)
  | refresh i =>
    refine .of_eq ?_
    change (e.refresh i).plan = e.plan
    unfold plan
    have hs : Stops e (e.refresh i) := stops_refresh e i
    rw [hs.agenda]
  | _ => cases hm

theorem beside_makes (hl : Laid e) (hk : k < e.levels.size) {a : Action} (hm : a.makes = true)
    (ha : a.makesIn? ≠ some k) : (e.act a).broken = true ∨ Beside k e (e.act a) := by
  obtain ⟨j, hj, hne⟩ : ∃ j, (∀ i, a.makesIn? = some i → i = j) ∧ j ≠ k := by
    cases hi : a.makesIn? with
    | none => exact ⟨k + 1, by simp, Nat.succ_ne_self k⟩
    | some i => exact ⟨i, fun _ h => (Option.some.inj h).symm, fun h => ha (hi.trans (h ▸ rfl))⟩
  obtain ⟨hgains, hlosses⟩ := plansWithin_makes (e := e) hm hj
  refine hlosses.imp_right fun hlosses => ⟨?_, grows_makes hm, resembles_makes hm, fun b hb hk' => ?_,
    fun b hb _ => hlosses b hb⟩
  · have havoids : Avoids (fun j _ => j = k) e a := by
      cases a with
      | create i r templates => exact fun h => absurd (h ▸ rfl) ha
      | install i r inst => exact fun h => ha (h ▸ rfl)
      | _ => trivial
    exact (spares_makes hl.placed (fun _ h => Nat.ne_of_gt hk h) havoids hm).1
  · refine (hgains b hb).resolve_right fun h => ?_
    rcases h k hk' with h | h
    · exact hne h.symm
    · exact Nat.ne_of_lt hk h

/-! ## Other levels change -/

theorem Beside.modifyLevel (e : Engine) {f : Level → Level} (hf : ∀ l, Level.Kin l (f l))
    (hk : j = k → ∀ l, Level.Alike l (f l) ∧ (f l).active = l.active ∧ (f l).instances = l.instances) :
    Beside k e (e.modifyLevel j f) := by
  refine .of_plan ⟨fun i id hi => ?_, fun i id hi => ?_, fun _ _ _ _ _ => rfl⟩ (.modifyLevel _ _ _ hf)
    (.modifyLevel _ _ fun h l => (hk h l).1) rfl
  · subst hi
    rw [activeKey?, activeKey?, level?_modifyLevel]
    split
    · rename_i hj
      cases e.level? i with
      | none => rfl
      | some l => exact congrArg (Dict.get? · id) (hk hj l).2.1
    · rfl
  · subst hi
    rw [instance?, instance?, level?_modifyLevel]
    split
    · rename_i hj
      cases e.level? i with
      | none => rfl
      | some l => exact congrArg (Dict.get? · id) (hk hj l).2.2
    · rfl

/-- Another level changes. -/
theorem Beside.elsewhere (e : Engine) {f : Level → Level} (hj : j ≠ k) (hf : ∀ l, Level.Kin l (f l)) :
    Beside k e (e.modifyLevel j f) := .modifyLevel e hf fun h => absurd h hj

theorem Beside.addLevel (hk : k < e.levels.size) (l : Level) : Beside k e (e.addLevel l).1 :=
  .of_plan (spares_addLevel (fun _ h => Nat.ne_of_gt hk h) l) (.addLevel e l) (.addLevel e l) rfl

/-- An instance is no flow. -/
theorem Laid.instance_ne (hl : Laid e) (hk : e.IsFlow k) {id : NodeId} {inst : LevelKey}
    (hi : e.instance? j id = some inst) : inst ≠ k := by
  rintro rfl
  obtain ⟨l, hlev, hget⟩ := Option.bind_eq_some_iff.mp hi
  obtain ⟨l', b, hl', hkind, -, -⟩ := (hl j l hlev).instances id inst hget
  obtain ⟨c, hc⟩ := Option.isSome_iff_exists.mp hk
  obtain ⟨l₀, hl₀, ho, -⟩ := config?_eq_some.mp hc
  obtain rfl := Option.some.inj (hl'.symm.trans hl₀)
  rw [hkind] at ho
  cases ho

/-- The wiring of a flow leaves all other flows as they are. -/
theorem spares_rewire (hl : Laid e) (hk : e.IsFlow k) (hj : j ≠ k) (config : FlowConfig) (diff : Diff) :
    Spares (fun i _ => i = k) e (e.rewire j config diff) := by
  rw [rewire_eq]
  exact spares_rewireAll hl.placed (fun _ _ _ => hj) fun _ _ _ _ hinst _ => hl.instance_ne hk hinst

theorem resembles_rewired (hk : e.IsFlow k) (j : LevelKey) (config : FlowConfig) (diff : Option Diff) :
    Resembles k e (e.rewired j config diff) := by
  have hphase (s : Engine) : Resembles k s (s.modifyLevel j fun l => { l with phase := .started }) :=
    .modifyLevel s j fun _ _ => ⟨⟨rfl, rfl, rfl⟩, rfl, rfl⟩
  cases diff with
  | none => exact hphase e
  | some d => exact ((rewires_rewire e j config d).resembles hk).trans (hphase _)

/-- A flow is wired anew while nothing is to be made in the other ones. -/
theorem beside_rewired (hl : Laid e) (hp : e.plan = []) (hk : e.IsFlow k) (hj : j ≠ k) (config : FlowConfig)
    (diff : Option Diff) : Beside k e (e.rewired j config diff) := by
  have hphase (s : Engine) : Beside k s (s.modifyLevel j fun l => { l with phase := .started }) :=
    .elsewhere s hj fun _ => ⟨rfl, rfl, rfl⟩
  refine ⟨?_, grows_rewired e j config diff, resembles_rewired hk j config diff, fun a ha => ?_,
    fun a ha => by simp [hp] at ha⟩
  · cases diff with
    | none => exact (hphase e).toSpares
    | some d => exact (spares_rewire hl hk hj config d).trans (hphase _).toSpares
  · simp [plan_rewired hp] at ha

/-- The wiring of a flow leaves the same nodes active. -/
theorem activeKey?_rewired (e : Engine) (j : LevelKey) (config : FlowConfig) (diff : Option Diff) (k : LevelKey)
    (id : NodeId) : (e.rewired j config diff).activeKey? k id = e.activeKey? k id := by
  have hphase (s : Engine) : (s.modifyLevel j fun l => { l with phase := .started }).activeKey? k id =
      s.activeKey? k id := by
    have hs : Spares (fun _ _ => True) s (s.modifyLevel j fun l => { l with phase := .started }) :=
      .modifyLevel s (fun _ _ _ _ => rfl) fun _ _ _ _ => rfl
    exact hs.active k id trivial
  cases diff with
  | none => exact hphase e
  | some d => exact (hphase _).trans ((rewires_rewire e j config d).entries k id).1

theorem beside_activated (e : Engine) (hj : j ≠ k) (c : FlowConfig) (order : List Nat) :
    Beside k e (e.activated j c order) := by
  refine ⟨spares_activated e j c order, grows_activated e j c order, resembles_activated hj c order,
    fun a ha hk => ?_, fun a ha _ => ?_⟩
  · rw [plan_activated] at ha
    exact (List.mem_append.mp ha).resolve_left fun ha => hj (makesIn?_creations ha hk).symm
  · rw [plan_activated]
    exact List.mem_append_right _ ha

/-! ## Levels that have started -/

/-- A level is in its running phase. -/
def HasStarted (e : Engine) (k : LevelKey) : Prop := ∃ l, e.level? k = some l ∧ l.phase = .started

theorem HasStarted.of_level? (h : e.HasStarted k) (hl : e'.level? k = e.level? k) : e'.HasStarted k := by
  obtain ⟨l, hk, hp⟩ := h
  exact ⟨l, hl.trans hk, hp⟩

theorem HasStarted.keepsPlaces (h : e.HasStarted k) (hp : KeepsPlaces e e') : e'.HasStarted k := by
  obtain ⟨l, hl, hphase⟩ := h
  obtain ⟨l', hl', -, -, hphase'⟩ := hp k l hl
  exact ⟨l', hl', hphase'.trans hphase⟩

theorem HasStarted.modifyLevel (h : e.HasStarted k) (j : LevelKey) (f : Level → Level)
    (hf : ∀ l, l.phase = .started → (f l).phase = .started) : (e.modifyLevel j f).HasStarted k := by
  obtain ⟨l, hl, hp⟩ := h
  rw [HasStarted, level?_modifyLevel, hl]
  split
  · exact ⟨f l, rfl, hf l hp⟩
  · exact ⟨l, rfl, hp⟩

/-- Rewiring changes no phases. -/
theorem Rewires.hasStarted (h : Rewires e e') (hk : e.HasStarted k) : e'.HasStarted k := by
  refine h.invariant (P := fun s => s.HasStarted k) (fun s s' hs ht => ?_) hk
  cases ht with
  | nodes inst nodes hb => exact hs.modifyLevel inst _ fun _ hp => hp
  | _ => exact hs.of_level? rfl

/-- The application of a configuration starts the level. -/
theorem hasStarted_rewired (config : FlowConfig) (diff : Option Diff)
    (h : j = k ∧ (∃ l, e.level? j = some l) ∨ e.HasStarted j) : (e.rewired k config diff).HasStarted j := by
  have hphase (s : Engine) (h : j = k ∧ (∃ l, s.level? j = some l) ∨ s.HasStarted j) :
      (s.modifyLevel k fun l => { l with phase := .started }).HasStarted j := by
    rcases h with ⟨rfl, l, hl⟩ | h
    · exact ⟨{ l with phase := .started }, by rw [level?_modifyLevel, if_pos rfl, hl]; rfl, rfl⟩
    · exact h.modifyLevel k _ fun _ _ => rfl
  cases diff with
  | none => exact hphase e h
  | some d =>
    have hr := rewires_rewire e k config d
    refine hphase _ (h.imp ?_ hr.hasStarted)
    rintro ⟨hj, l, hl⟩
    obtain ⟨l', hl', -⟩ := hr.grows.level j l hl
    exact ⟨hj, l', hl'⟩

theorem hasStarted_applied (config : FlowConfig) (diff : Option Diff) (actions : List Action) (order : List Nat)
    (h : j = k ∧ (∃ l, e.level? j = some l) ∨ e.HasStarted j) :
    (((e.rewired k config diff).push actions).activated k config order).HasStarted j := by
  have hr := hasStarted_rewired config diff h
  generalize e.rewired k config diff = s at hr ⊢
  exact (hr.of_level? (level?_push s j actions)).keepsPlaces (keepsPlaces_activated _ _ _ _)

/-! ## Levels without nodes -/

/-- No node is active in the level, and none is about to be made there. -/
structure Deserted (e : Engine) (k : LevelKey) : Prop where
  inactive : ∀ id, e.activeKey? k id = none
  unplanned : ∀ a ∈ e.plan, a.makesIn? ≠ some k

theorem Deserted.beside (h : e.Deserted k) (hb : Beside k e e') : e'.Deserted k :=
  ⟨fun id => (hb.active k id rfl).trans (h.inactive id), fun a ha hk => h.unplanned a (hb.gains a ha hk) hk⟩

theorem Deserted.stops (h : e.Deserted k) (hl : Laid e) (hs : Stops e e') : e'.Deserted k := by
  refine ⟨fun id => (hs.dwindles hl).none_of_none (h.inactive id), fun a ha => h.unplanned a ?_⟩
  rwa [plan, hs.agenda] at ha

/-! ## No flow appears -/

/-- A step in which no flow appears. -/
def FoundsNone (e e' : Engine) : Prop := ∀ k, e'.IsFlow k → e.IsFlow k

theorem isFlow_iff : e.IsFlow k ↔ ∃ l, e.level? k = some l ∧ l.kind.isOutermost = true := by
  constructor
  · intro h
    obtain ⟨c, hc⟩ := Option.isSome_iff_exists.mp h
    obtain ⟨l, hl, ho, -⟩ := config?_eq_some.mp hc
    exact ⟨l, hl, ho⟩
  · rintro ⟨l, hl, ho⟩
    exact Option.isSome_iff_exists.mpr ⟨l.config, config?_eq_some.mpr ⟨l, hl, ho, rfl⟩⟩

namespace FoundsNone

theorem refl (e : Engine) : FoundsNone e e := fun _ h => h

theorem trans (h : FoundsNone e e') (h' : FoundsNone e' e'') : FoundsNone e e'' := fun k hk => h k (h' k hk)

theorem of_level? (h : ∀ k, e'.level? k = e.level? k) : FoundsNone e e' := fun k hk => by
  rwa [isFlow_iff, h, ← isFlow_iff] at hk

/-- Levels only change without becoming others. -/
theorem of_map (h : ∀ k, ∃ f : Level → Level, (∀ l, (f l).kind = l.kind) ∧ e'.level? k = (e.level? k).map f) :
    FoundsNone e e' := by
  intro k hk
  obtain ⟨l', hl', ho⟩ := isFlow_iff.mp hk
  obtain ⟨f, hf, hm⟩ := h k
  rw [hm] at hl'
  obtain ⟨l, hl, rfl⟩ := Option.map_eq_some_iff.mp hl'
  exact isFlow_iff.mpr ⟨l, hl, hf l ▸ ho⟩

theorem of_ite (j : LevelKey) (f : Level → Level) (hf : ∀ l, (f l).kind = l.kind)
    (h : ∀ k, e'.level? k = if j = k then (e.level? k).map f else e.level? k) : FoundsNone e e' := by
  refine of_map fun k => ?_
  by_cases hj : j = k
  · exact ⟨f, hf, by rw [h, if_pos hj]⟩
  · exact ⟨id, fun _ => rfl, by rw [h, if_neg hj, Option.map_id, id]⟩

theorem modifyLevel (e : Engine) (j : LevelKey) {f : Level → Level} (hf : ∀ l, (f l).kind = l.kind) :
    FoundsNone e (e.modifyLevel j f) := .of_ite j f hf fun k => level?_modifyLevel e k j f

/-- The only new level is none of a flow. -/
theorem of_new {i : LevelKey} {l : Level} (ho : l.kind.isOutermost = false)
    (h : ∀ k, e'.level? k = if k = i then some l else e.level? k) : FoundsNone e e' := by
  intro k hk
  obtain ⟨l', hl', ho'⟩ := isFlow_iff.mp hk
  rw [h] at hl'
  split at hl'
  · obtain rfl := Option.some.inj hl'
    rw [ho] at ho'
    cases ho'
  · exact isFlow_iff.mpr ⟨l', hl', ho'⟩

end FoundsNone

theorem StopsWithin.foundsNone {may : LevelKey → NodeId → Prop} (h : StopsWithin may e e') : FoundsNone e e' := by
  refine h.invariant (P := FoundsNone e) (fun s s' hs ht => hs.trans ?_) (.refl e)
  cases ht with
  | still h _ => exact .of_level? (level?_of_still h)
  | cancel n => exact .refl s
  | _ => exact .modifyLevel _ _ fun _ => rfl

theorem Rewires.foundsNone (h : Rewires e e') : FoundsNone e e' := by
  refine h.invariant (P := FoundsNone e) (fun s s' hs ht => hs.trans ?_) (.refl e)
  cases ht with
  | nodes inst nodes hb => exact .modifyLevel _ _ fun _ => rfl
  | _ => exact .refl s

theorem foundsNone_activated (e : Engine) (j : LevelKey) (c : FlowConfig) (order : List Nat) :
    FoundsNone e (e.activated j c order) :=
  .of_ite j (fun l => { l with env := Scope.evaluate (e.settingAround j) c.env }) (fun _ => rfl)
    (level?_activated e j c order)

theorem foundsNone_rewired (e : Engine) (j : LevelKey) (config : FlowConfig) (diff : Option Diff) :
    FoundsNone e (e.rewired j config diff) := by
  have hphase (s : Engine) : FoundsNone s (s.modifyLevel j fun l => { l with phase := .started }) :=
    .modifyLevel s j fun _ => rfl
  cases diff with
  | none => exact hphase e
  | some d => exact (rewires_rewire e j config d).foundsNone.trans (hphase _)

theorem foundsNone_enter (e : Engine) (j : LevelKey) (r : Record) (part : Part) : FoundsNone e (e.enter j r part) :=
  .of_ite j (fun l => { l with failures := l.failures.erase r.id, active := l.active.insert r.id e.nodes.size })
    (fun _ => rfl) fun k => level?_enter e k j r part

theorem foundsNone_failCreation (e : Engine) (j : LevelKey) (r : Record) (fault : NodeFault) :
    FoundsNone e (e.failCreation j r fault) :=
  .of_ite j (fun l => { l with failures := l.failures.insert r.id fault }) (fun _ => rfl)
    fun k => level?_failCreation e k j r fault

theorem Creates.foundsNone {r : Record} {templates : Templates} (h : Creates e j r templates e') :
    FoundsNone e e' := by
  cases h with
  | present => exact .refl e
  | noTemplate => exact foundsNone_failCreation _ _ _ _
  | refused => exact foundsNone_failCreation _ _ _ _
  | @made part notes => exact foundsNone_enter (e.note notes) _ _ _
  | @usage id t _ _ _ _ ho =>
    cases ho with
    | nowhere => exact .refl e
    | breaks => exact .refl e
    | @collapses l nodes =>
      exact FoundsNone.trans (.of_new (l := instanceLevel j l (.make t (e.resolvedAt j r) e.nextPrivate) nodes) rfl
        (level?_withInstance e j l _ nodes)) (foundsNone_failCreation _ _ _ _)
    | @opens l nodes order =>
      obtain ⟨env, henv⟩ := level?_opened e j l (.make t (e.resolvedAt j r) e.nextPrivate) nodes order
      exact .of_new rfl henv

theorem foundsNone_makes {a : Action} (hm : a.makes = true) : FoundsNone e (e.act a) := by
  cases a with
  | create j r templates => exact (creates_create e j r templates).foundsNone
  | install j r i =>
    refine FoundsNone.trans ?_ (foundsNone_enter _ j r (.standIn i))
    exact .modifyLevel _ _ fun _ => rfl
  | refresh j =>
    have hs : Stops e (e.refresh j) := stops_refresh e j
    exact StopsWithin.foundsNone hs
  | _ => cases hm

end Engine
end Flowgraph
