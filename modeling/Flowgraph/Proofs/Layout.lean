import Flowgraph.Proofs.InFlight
import Flowgraph.Proofs.Configs
import Flowgraph.Proofs.Expanding
import Flowgraph.Proofs.Parsing
/-! How levels lie in each other. Active nodes belong to the level they are active in, an instance lies in the
level of its usage node, and the nodes of an instance are those of its binding. -/
namespace Flowgraph

/-- Templates whose nodes have different ids. -/
def Tidy (templates : Templates) : Prop :=
  ∀ id t, templates.get? id = some t → (t.nodes.map (·.id)).Nodup

/-- A deployment whose templates have nodes with different ids. -/
def Deployment.Tidy (d : Deployment) : Prop := ∀ c ∈ d.global :: d.tabs, Flowgraph.Tidy c.templates

theorem Deployment.tidy_of_parse {records : List Json} {d : Deployment} (h : Deployment.parse records = .ok d) :
    d.Tidy := by
  obtain ⟨rs, ha⟩ := Deployment.parse_arranged h
  have ht : Flowgraph.Tidy d.templates := by
    intro id t ht
    rw [(ha.templates id t ht).2]
    exact ha.nodup.sublist (List.filter_sublist.map _)
  intro c hc
  rcases List.mem_cons.mp hc with rfl | hc
  · rw [ha.global]
    exact ht
  · rw [(ha.tabs c hc).2]
    exact ht

theorem FlowConfig.Parsed.tidy {c : FlowConfig} (h : c.Parsed) : Tidy c.templates := by
  obtain ⟨records, d, hd, hc⟩ := h
  exact Deployment.tidy_of_parse hd c (List.mem_cons.mpr hc)

/-- A binding with private ids of its own for all nodes of its template. -/
def Binding.Made (b : Binding) : Prop :=
  ∃ t usage next, (t.nodes.map (·.id)).Nodup ∧ b = .make t usage next

theorem Binding.Made.fitting {b : Binding} (h : b.Made) : b.Fitting := by
  obtain ⟨t, usage, next, -, rfl⟩ := h
  exact fitting_make t usage next

theorem Binding.Made.nodup {b : Binding} (h : b.Made) : (b.members.map (·.id)).Nodup := by
  obtain ⟨t, usage, next, ht, rfl⟩ := h
  exact members_nodup ht

/-- A level with nothing in it that was not there before. -/
structure Level.Shrinks (l l' : Level) : Prop where
  kin : Level.Kin l l'
  active : ∃ p, l'.active = l.active.filter p
  instances : ∃ p, l'.instances = l.instances.filter p
  ids : l'.config.nodes.map (·.id) = l.config.nodes.map (·.id)
  templates : l'.config.templates = l.config.templates

theorem Level.Shrinks.refl (l : Level) : Shrinks l l :=
  ⟨.refl l, ⟨fun _ => true, (List.filter_true _).symm⟩, ⟨fun _ => true, (List.filter_true _).symm⟩, rfl, rfl⟩

theorem Level.Shrinks.of_eq {l l' : Level} (hk : Level.Kin l l') (ha : l'.active = l.active)
    (hi : l'.instances = l.instances) (hc : l'.config = l.config) : Shrinks l l' :=
  ⟨hk, ⟨fun _ => true, by rw [ha, List.filter_true]⟩, ⟨fun _ => true, by rw [hi, List.filter_true]⟩,
    by rw [hc], by rw [hc]⟩

namespace Engine

variable {e e' e'' : Engine} {key : CallKey} {i j k : LevelKey}

/-- A level is the instance of a usage node. -/
def IsInstance (e : Engine) (i k : LevelKey) (id : NodeId) : Prop :=
  ∃ l b, e.level? i = some l ∧ l.kind = .expansion b ∧ l.parent = some k ∧ b.usage.id = id

/-- A level at which a node of this id can be made. -/
def Admits (e : Engine) (k : LevelKey) (id : NodeId) : Prop :=
  ∃ l, e.level? k = some l ∧ ∀ b, l.kind = .expansion b → id ∈ b.members.map (·.id)

/-- The level of an instance. -/
structure Enclosed (k : LevelKey) (l : Level) (b : Binding) : Prop where
  made : b.Made
  parent : ∃ p, l.parent = some p ∧ p < k
  ids : l.config.nodes.map (·.id) = b.members.map (·.id)
  active : ∀ id n, l.active.get? id = some n → id ∈ b.members.map (·.id)
  instances : ∀ id i, l.instances.get? id = some i → id ∈ b.members.map (·.id)

/-- One level and what lies in it. -/
structure LevelLaid (e : Engine) (k : LevelKey) (l : Level) : Prop where
  sortedActive : l.active.Sorted
  sortedInstances : l.instances.Sorted
  active : ∀ id n, l.active.get? id = some n → ∃ node, e.node? n = some node ∧ node.level = k ∧ node.id = id
  instances : ∀ id i, l.instances.get? id = some i → e.IsInstance i k id
  outermost : l.kind.isOutermost = true → l.parent = none
  enclosed : ∀ b, l.kind = .expansion b → Enclosed k l b
  tidy : Tidy l.config.templates

def Laid (e : Engine) : Prop := ∀ k l, e.level? k = some l → LevelLaid e k l

/-! ## Steps under which levels lie as they did -/

theorem Grows.isInstance (h : Grows e e') {id : NodeId} (hi : e.IsInstance i k id) : e'.IsInstance i k id := by
  obtain ⟨l, b, hl, hk, hp, hb⟩ := hi
  obtain ⟨l', hl', hkin⟩ := h.level i l hl
  exact ⟨l', b, hl', hkin.kind.trans hk, hkin.parent.trans hp, hb⟩

theorem Grows.admits (h : Grows e e') {id : NodeId} (ha : e.Admits k id) : e'.Admits k id := by
  obtain ⟨l, hl, hb⟩ := ha
  obtain ⟨l', hl', hkin⟩ := h.level k l hl
  exact ⟨l', hl', fun b hk => hb b (hkin.kind.symm.trans hk)⟩

theorem LevelLaid.shrinks {l l' : Level} (hg : Grows e e') (h : LevelLaid e k l) (hs : Level.Shrinks l l') :
    LevelLaid e' k l' := by
  obtain ⟨p, hp⟩ := hs.active
  obtain ⟨q, hq⟩ := hs.instances
  have hactive (id : NodeId) (n : NodeKey) (hn : l'.active.get? id = some n) : l.active.get? id = some n := by
    rw [hp, Dict.get?_filter h.sortedActive] at hn
    exact (Option.filter_eq_some_iff.mp hn).1
  have hinst (id : NodeId) (i : LevelKey) (hi : l'.instances.get? id = some i) :
      l.instances.get? id = some i := by
    rw [hq, Dict.get?_filter h.sortedInstances] at hi
    exact (Option.filter_eq_some_iff.mp hi).1
  refine ⟨hp ▸ h.sortedActive.filter p, hq ▸ h.sortedInstances.filter q, fun id n hn => ?_, fun id i hi => ?_,
    fun ho => ?_, fun b hb => ?_, ?_⟩
  · obtain ⟨node, hnode, hlevel, hid⟩ := h.active id n (hactive id n hn)
    obtain ⟨node', hnode', hkin⟩ := hg.node n node hnode
    exact ⟨node', hnode', hkin.level.trans hlevel, by rw [Node.id, hkin.record]; exact hid⟩
  · exact hg.isInstance (h.instances id i (hinst id i hi))
  · rw [hs.kin.kind] at ho
    exact hs.kin.parent.trans (h.outermost ho)
  · rw [hs.kin.kind] at hb
    have he := h.enclosed b hb
    refine ⟨he.made, ?_, hs.ids.trans he.ids, fun id n hn => he.active id n (hactive id n hn),
      fun id i hi => he.instances id i (hinst id i hi)⟩
    rw [hs.kin.parent]
    exact he.parent
  · rw [hs.templates]
    exact h.tidy

theorem Laid.of_shrinks (h : Laid e) (hg : Grows e e')
    (hs : ∀ k l', e'.level? k = some l' → ∃ l, e.level? k = some l ∧ Level.Shrinks l l') : Laid e' := by
  intro k l' hl'
  obtain ⟨l, hl, hs⟩ := hs k l' hl'
  exact (h k l hl).shrinks hg hs

theorem Laid.of_levels (h : Laid e) (hg : Grows e e') (hl : ∀ k, e'.level? k = e.level? k) : Laid e' :=
  h.of_shrinks hg fun k l' hl' => ⟨l', (hl k).symm.trans hl', .refl l'⟩

theorem Laid.still (h : Laid e) (hs : e'.still = e.still) : Laid e' :=
  h.of_levels (.still hs) (level?_of_still hs)

theorem Laid.modifyLevel (h : Laid e) {f : Level → Level} (hg : Grows e (e.modifyLevel k f))
    (hf : ∀ l, e.level? k = some l → Level.Shrinks l (f l)) : Laid (e.modifyLevel k f) := by
  refine h.of_shrinks hg fun j l' hl' => ?_
  rw [level?_modifyLevel] at hl'
  split at hl'
  · rename_i hk
    subst hk
    obtain ⟨l, hl, rfl⟩ := Option.map_eq_some_iff.mp hl'
    exact ⟨l, hl, hf l hl⟩
  · exact ⟨l', hl', .refl l'⟩

theorem Stops.laid (h : Stops e e') (hl : Laid e) : Laid e' := by
  refine h.invariant (P := Laid) (fun s s' hs ht => ?_) hl
  cases ht with
  | still h _ => exact hs.still h
  | phase k p =>
    exact hs.modifyLevel (.modifyLevel _ _ _ fun _ => ⟨rfl, rfl, rfl⟩)
      fun l _ => .of_eq ⟨rfl, rfl, rfl⟩ rfl rfl rfl
  | receivers k rs =>
    exact hs.modifyLevel (.modifyLevel _ _ _ fun _ => ⟨rfl, rfl, rfl⟩)
      fun l _ => .of_eq ⟨rfl, rfl, rfl⟩ rfl rfl rfl
  | leave k targets _ _ =>
    exact hs.modifyLevel (.modifyLevel _ _ _ fun _ => ⟨rfl, rfl, rfl⟩)
      fun l _ => ⟨⟨rfl, rfl, rfl⟩, ⟨_, rfl⟩, ⟨fun _ => true, (List.filter_true _).symm⟩, rfl, rfl⟩
  | cancel n => exact hs.of_levels (.modifyNode _ _ _ fun _ => ⟨rfl, rfl, rfl⟩) fun _ => rfl
  | forget k id _ =>
    exact hs.modifyLevel (.modifyLevel _ _ _ fun _ => ⟨rfl, rfl, rfl⟩)
      fun l _ => ⟨⟨rfl, rfl, rfl⟩, ⟨fun _ => true, (List.filter_true _).symm⟩, ⟨_, rfl⟩, rfl, rfl⟩

theorem level?_of_binding? {b : Binding} (hb : e.binding? i = some b) :
    ∃ l, e.level? i = some l ∧ l.kind = .expansion b := by
  unfold binding? at hb
  split at hb
  · cases hb
  · rename_i l hl
    split at hb
    · rename_i hk
      cases hb
      exact ⟨l, hl, hk⟩
    · cases hb

theorem Laid.made (h : Laid e) {b : Binding} (hb : e.binding? i = some b) : b.Made := by
  obtain ⟨l, hl, hk⟩ := level?_of_binding? hb
  exact ((h i l hl).enclosed b hk).made

theorem Rewires.laid (h : Rewires e e') (hl : Laid e) : Laid e' := by
  refine h.invariant (P := Laid) (fun s s' hs ht => ?_) hl
  cases ht with
  | note notes => exact hs.of_levels (quiet_note _ _).grows fun _ => rfl
  | wires k wires => exact hs.of_levels (.modifyNode _ _ _ fun _ => ⟨rfl, rfl, rfl⟩) fun _ => rfl
  | nodes inst nodes hn =>
    refine hs.modifyLevel (.modifyLevel _ _ _ fun _ => ⟨rfl, rfl, rfl⟩) fun l hl => ?_
    obtain ⟨b, outer, hb, hx⟩ := hn
    obtain ⟨l', hl', hk⟩ := level?_of_binding? hb
    obtain rfl := Option.some.inj (hl.symm.trans hl')
    -- another expansion of the same binding has nodes of the same ids
    have he := (hs inst l hl).enclosed b hk
    refine ⟨⟨rfl, rfl, rfl⟩, ⟨fun _ => true, (List.filter_true _).symm⟩, ⟨fun _ => true, (List.filter_true _).symm⟩, ?_,
      rfl⟩
    exact (Binding.expand?_ids he.made.fitting hx).trans he.ids.symm
  | breaks => exact hs.of_levels (.of_eq rfl rfl rfl rfl) fun _ => rfl

/-! ## New nodes and new levels -/

/-- A node enters a level that admits it. -/
theorem Laid.enter (h : Laid e) {r : Record} (ha : e.Admits k r.id) (part : Part) :
    Laid (e.enter k r part) := by
  intro j l' hl'
  have hg := grows_enter e k r part
  rw [level?_enter] at hl'
  split at hl'
  · rename_i hk
    subst hk
    obtain ⟨l, hl, rfl⟩ := Option.map_eq_some_iff.mp hl'
    have hlaid := (h k l hl).shrinks hg (.refl l)
    have hadmits (b : Binding) (hb : l.kind = .expansion b) : r.id ∈ b.members.map (·.id) := by
      obtain ⟨l₁, hl₁, hm⟩ := ha
      rw [hl] at hl₁
      cases hl₁
      exact hm b hb
    refine ⟨hlaid.sortedActive.insert _ _, hlaid.sortedInstances, fun id n hn => ?_, hlaid.instances,
      hlaid.outermost, fun b hb => ?_, hlaid.tidy⟩
    · rw [Dict.get?_insert] at hn
      split at hn
      · rename_i hid
        cases hn
        exact ⟨_, (node?_enter e _ k r part).trans (if_pos rfl), rfl, hid⟩
      · exact hlaid.active id n hn
    · have he := hlaid.enclosed b hb
      refine ⟨he.made, he.parent, he.ids, fun id n hn => ?_, he.instances⟩
      rw [Dict.get?_insert] at hn
      split at hn
      · rename_i hid
        exact hid ▸ hadmits b hb
      · exact he.active id n hn
  · exact (h j l' hl').shrinks hg (.refl l')

theorem Laid.install (h : Laid e) {r : Record} (ha : e.Admits k r.id) (hi : e.IsInstance i k r.id) :
    Laid (e.install k r i) := by
  have hg : Grows e (e.modifyLevel k fun l => { l with instances := l.instances.insert r.id i }) :=
    .modifyLevel _ _ _ fun _ => ⟨rfl, rfl, rfl⟩
  refine Laid.enter (fun j l' hl' => ?_) (hg.admits ha) _
  rw [level?_modifyLevel] at hl'
  split at hl'
  · rename_i hk
    subst hk
    obtain ⟨l, hl, rfl⟩ := Option.map_eq_some_iff.mp hl'
    have hlaid := (h k l hl).shrinks hg (.refl l)
    refine ⟨hlaid.sortedActive, hlaid.sortedInstances.insert _ _, hlaid.active, fun id i' hi' => ?_,
      hlaid.outermost, fun b hb => ?_, hlaid.tidy⟩
    · rw [Dict.get?_insert] at hi'
      split at hi'
      · rename_i hid
        cases hi'
        exact hid ▸ hg.isInstance hi
      · exact hlaid.instances id i' hi'
    · have he := hlaid.enclosed b hb
      refine ⟨he.made, he.parent, he.ids, he.active, fun id i' hi' => ?_⟩
      rw [Dict.get?_insert] at hi'
      split at hi'
      · rename_i hid
        obtain ⟨l₁, hl₁, hm⟩ := ha
        rw [hl] at hl₁
        cases hl₁
        exact hid ▸ hm b hb
      · exact he.instances id i' hi'
  · exact (h j l' hl').shrinks hg (.refl l')

theorem Laid.addLevel (h : Laid e) {l : Level}
    (hl : LevelLaid (e.addLevel l).1 e.levels.size l) : Laid (e.addLevel l).1 := by
  intro j l' hl'
  rw [level?_addLevel] at hl'
  split at hl'
  · rename_i hj
    cases hl'
    exact hj ▸ hl
  · exact (h j l' hl').shrinks (.addLevel e l) (.refl l')

theorem Laid.addFlow (h : Laid e) {kind : LevelKind} (hk : kind.isOutermost = true) {config : FlowConfig}
    (hc : Tidy config.templates) : Laid (e.addLevel (.make kind none config)).1 := by
  refine h.addLevel ⟨Dict.sorted_nil, Dict.sorted_nil, ?_, ?_, fun _ => rfl, fun b hb => ?_, hc⟩
  · simp [Level.make]
  · simp [Level.make]
  · rw [show kind = .expansion b from hb] at hk
    cases hk

theorem Laid.withInstance (h : Laid e) {l : Level} {b : Binding} {nodes : List Record} {outer : Wires}
    (hl : e.level? k = some l) (hb : b.Made) (hx : b.expand? outer = some nodes) :
    Laid (e.withInstance k l b nodes) := by
  have h₀ : Laid { e with nextPrivate := e.nextPrivate + Binding.idsNeeded b.template } :=
    h.of_levels ⟨fun _ l h => ⟨l, h, .refl l⟩, fun _ n h => ⟨n, h, .refl n⟩, rfl, Nat.le_add_right _ _⟩
      fun _ => rfl
  refine h₀.addLevel (l := instanceLevel k l b nodes) ⟨Dict.sorted_nil, Dict.sorted_nil, ?_, ?_, ?_,
    fun b' hb' => ?_, (h k l hl).tidy⟩
  · simp [instanceLevel, Level.make]
  · simp [instanceLevel, Level.make]
  · intro ho
    cases ho
  · cases hb'
    refine ⟨hb, ⟨k, rfl, level?_lt e k hl⟩, Binding.expand?_ids hb.fitting hx, ?_, ?_⟩
    · simp [instanceLevel, Level.make]
    · simp [instanceLevel, Level.make]

theorem Laid.activated (h : Laid e) (k : LevelKey) (c : FlowConfig) (order : List Nat) :
    Laid (e.activated k c order) := by
  have hm : Laid (e.modifyLevel k fun l => { l with env := Scope.evaluate (e.settingAround k) c.env }) :=
    h.modifyLevel (.modifyLevel _ _ _ fun _ => ⟨rfl, rfl, rfl⟩) fun _ _ => .of_eq ⟨rfl, rfl, rfl⟩ rfl rfl rfl
  exact hm.of_levels (.of_eq rfl rfl rfl rfl) fun _ => rfl

theorem Laid.failCreation (h : Laid e) (k : LevelKey) (r : Record) (fault : NodeFault) :
    Laid (e.failCreation k r fault) := by
  unfold Engine.failCreation
  split
  · exact h
  · exact (h.still (quiet_publish _ _).still).modifyLevel (.modifyLevel _ _ _ fun _ => ⟨rfl, rfl, rfl⟩)
      fun _ _ => .of_eq ⟨rfl, rfl, rfl⟩ rfl rfl rfl

/-! ## What is under way -/

/-- An action that makes a node makes it where it belongs. -/
def Apt (e : Engine) : Action → Prop
  | .create k r templates => Tidy templates ∧ e.Admits k r.id
  | .install k r i => e.Admits k r.id ∧ e.IsInstance i k r.id
  | _ => True

/-- A stage that brings configurations brings tidy ones, and to flows only. -/
def StageApt (e : Engine) : Stage → Prop
  | .update k config => e.IsFlow k ∧ Tidy config.templates
  | .startTab config _ => Tidy config.templates
  | .startAll next => next.Tidy
  | .deployNodes _ next _ => next.Tidy
  | _ => True

/-- How the levels of an engine lie in each other, and those that are still to come. -/
structure Layout (e : Engine) : Prop where
  laid : Laid e
  makes : ∀ a ∈ e.plan, e.Apt a
  stages : ∀ j c, e.call? j = some c → ∀ s ∈ c.stages, e.StageApt s

theorem Grows.apt (h : Grows e e') {a : Action} (ha : e.Apt a) : e'.Apt a := by
  cases a with
  | create k r templates => exact ⟨ha.1, h.admits ha.2⟩
  | install k r i => exact ⟨h.admits ha.1, h.isInstance ha.2⟩
  | _ => trivial

theorem Grows.stageApt (h : Grows e e') {s : Stage} (hs : e.StageApt s) : e'.StageApt s := by
  cases s with
  | update k config => exact ⟨h.isFlow hs.1, hs.2⟩
  | startTab config listed => exact hs
  | startAll next => exact hs
  | deployNodes previous next diff => exact hs
  | _ => trivial

/-- The nodes of a level that is laid can be made in it. -/
theorem apt_creations {l : Level} (h : LevelLaid e k l) (hl : e.level? k = some l) {order : List Nat}
    {a : Action} (ha : a ∈ creations k l.config order) : e.Apt a := by
  obtain ⟨r, hr, rfl⟩ := mem_creations ha
  refine ⟨h.tidy, l, hl, fun b hb => ?_⟩
  rw [← (h.enclosed b hb).ids]
  exact List.mem_map_of_mem hr

theorem Opens.laid {usage : Record} {t : Template} (h : Opens e k usage t e') (hl : Laid e)
    (ht : (t.nodes.map (·.id)).Nodup) (ha : e.Admits k usage.id) :
    Laid e' ∧ ∀ a ∈ e'.plan, a ∈ e.plan ∨ e'.Apt a := by
  have hmade : (Binding.make t usage e.nextPrivate).Made := ⟨t, usage, _, ht, rfl⟩
  have hg := h.grows
  cases h with
  | nowhere => exact ⟨hl, fun a ha => .inl ha⟩
  | breaks => exact ⟨hl.of_levels (.of_eq rfl rfl rfl rfl) fun _ => rfl, by simp [plan]⟩
  | @collapses l nodes fault hlevel hx ho =>
    refine ⟨(hl.withInstance hlevel hmade hx).failCreation _ _ _, fun a ha => .inl ?_⟩
    rwa [plan_failCreation] at ha
  | @opens l nodes order hlevel hx ho =>
    have hw := hl.withInstance hlevel hmade hx
    have hp : Laid ((e.withInstance k l (Binding.make t usage e.nextPrivate) nodes).push
        [.install k usage e.levels.size]) := hw.of_levels (.of_eq rfl rfl rfl rfl) fun _ => rfl
    have hnew : ((e.withInstance k l (Binding.make t usage e.nextPrivate) nodes).push
        [.install k usage e.levels.size]).level? e.levels.size =
          some (instanceLevel k l (Binding.make t usage e.nextPrivate) nodes) := by
      rw [level?_push, level?_withInstance, if_pos rfl]
    have hga := grows_activated ((e.withInstance k l (Binding.make t usage e.nextPrivate) nodes).push
      [.install k usage e.levels.size]) e.levels.size
        (instanceLevel k l (Binding.make t usage e.nextPrivate) nodes).config order
    refine ⟨hp.activated _ _ _, fun a hmem => ?_⟩
    unfold opened at hmem
    rw [plan_activated, plan_push] at hmem
    rcases List.mem_append.mp hmem with hmem | hmem
    · rcases List.mem_append.mp hmem with hmem | hmem
      · exact .inr (hga.apt (apt_creations (hp _ _ hnew) hnew hmem))
      · obtain rfl := List.mem_singleton.mp hmem
        exact .inr trivial
    · rcases List.mem_append.mp hmem with hmem | hmem
      · obtain rfl := List.mem_singleton.mp hmem
        refine .inr ⟨hg.admits ha, hga.isInstance ⟨_, _, hnew, rfl, rfl, rfl⟩⟩
      · exact .inl hmem

theorem Creates.laid {r : Record} {templates : Templates} (h : Creates e k r templates e') (hl : Laid e)
    (ha : e.Apt (.create k r templates)) : Laid e' ∧ ∀ a ∈ e'.plan, a ∈ e.plan ∨ e'.Apt a := by
  cases h with
  | present => exact ⟨hl, fun a ha => .inl ha⟩
  | noTemplate => exact ⟨hl.failCreation _ _ _, fun a ha => .inl (by rwa [plan_failCreation] at ha)⟩
  | refused => exact ⟨hl.failCreation _ _ _, fun a ha => .inl (by rwa [plan_failCreation] at ha)⟩
  | @made part notes hn hu hb =>
    have hn : Laid (e.note notes) := hl.still (quiet_note _ _).still
    refine ⟨hn.enter (r := e.resolvedAt k r) ha.2 part, fun a hmem => .inl ?_⟩
    rwa [plan_enter] at hmem
  | usage hn hu ht ho => exact ho.laid hl (ha.1 _ _ ht) ha.2

theorem Layout.still (h : Layout e) (hs : e'.still = e.still) (hp : ∀ a ∈ e'.plan, a ∈ e.plan ∨ e'.Apt a) :
    Layout e' := by
  have hg : Grows e e' := .still hs
  refine ⟨h.laid.still hs, fun a ha => ?_, fun j c hj s hm => ?_⟩
  · rcases hp a ha with ha | ha
    · exact hg.apt (h.makes a ha)
    · exact ha
  · rw [call?_of_still hs] at hj
    exact hg.stageApt (h.stages j c hj s hm)

/-- A step that makes a node keeps the layout. -/
theorem Layout.act (h : Layout e) {a : Action} (ha : e.Apt a) (hr : ∀ key, a ≠ .resume key) :
    Layout (e.act a) := by
  by_cases hq : a.isQuiet = true
  · have hquiet := quiet_act e hq
    exact h.still hquiet.still fun b hb => .inl (hquiet.plan ▸ hb)
  have hstep : Grows e (e.act a) ∧ Laid (e.act a) ∧ ∀ b ∈ (e.act a).plan, b ∈ e.plan ∨ (e.act a).Apt b := by
    cases a with
    | create k r templates =>
      have hc := creates_create e k r templates
      exact ⟨hc.grows, hc.laid h.laid ha⟩
    | install k r i =>
      refine ⟨grows_install _ _ _ _, h.laid.install ha.1 ha.2, fun b hb => .inl ?_⟩
      change b ∈ (install e k r i).plan at hb
      unfold install at hb
      rwa [plan_enter] at hb
    | refresh k =>
      have hs : Stops e (e.refresh k) := stops_refresh e k
      refine ⟨hs.grows, hs.laid h.laid, fun b hb => .inl ?_⟩
      change b ∈ (e.refresh k).plan at hb
      unfold plan at hb
      rwa [hs.agenda] at hb
    | resume key => exact absurd rfl (hr key)
    | _ => exact absurd rfl hq
  obtain ⟨hg, hlaid, hplan⟩ := hstep
  refine ⟨hlaid, fun b hb => ?_, fun j c hj s hs => ?_⟩
  · rcases hplan b hb with hb | hb
    · exact hg.apt (h.makes b hb)
    · exact hb
  · rw [call?_of_calls (calls_of_register (register_act hr))] at hj
    exact hg.stageApt (h.stages j c hj s hs)

/-! ## Stages of calls -/

/-- A step that leaves nodes, plans and calls alone, and makes no level hold anything new. -/
theorem Layout.of_laid (h : Layout e) (hg : Grows e e') (hl : Laid e') (hp : ∀ a ∈ e'.plan, a ∈ e.plan)
    (hc : e'.calls = e.calls) : Layout e' := by
  refine ⟨hl, fun a ha => hg.apt (h.makes a (hp a ha)), fun j c hj s hs => ?_⟩
  rw [call?_of_calls hc] at hj
  exact hg.stageApt (h.stages j c hj s hs)

theorem Layout.modifyCall (h : Layout e) (key : CallKey) (f : Call → Call)
    (hf : ∀ c, e.call? key = some c → ∀ s ∈ (f c).stages, e.StageApt s) : Layout (e.modifyCall key f) := by
  have hg : Grows e (e.modifyCall key f) := .of_eq rfl rfl rfl rfl
  refine ⟨h.laid.of_levels hg fun _ => rfl, fun a ha => hg.apt (h.makes a ha), fun j c hj s hs => hg.stageApt ?_⟩
  rw [call?_modifyCall] at hj
  split at hj
  · rename_i hk
    subst hk
    obtain ⟨c', hc', rfl⟩ := Option.map_eq_some_iff.mp hj
    exact hf c' hc' s hs
  · exact h.stages j c hj s hs

theorem Layout.push (h : Layout e) {actions : List Action} (ha : ∀ a ∈ actions, e.Apt a) :
    Layout (e.push actions) := by
  have hg : Grows e (e.push actions) := .of_eq rfl rfl rfl rfl
  refine ⟨h.laid.of_levels hg fun _ => rfl, fun a hm => hg.apt ?_, fun j c hj s hs => hg.stageApt (h.stages j c hj s hs)⟩
  rw [plan_push] at hm
  rcases List.mem_append.mp hm with hm | hm
  · exact ha a (List.mem_filter.mp hm).1
  · exact h.makes a hm

theorem Layout.resume (h : Layout e) (key : CallKey) : Layout (e.push [.resume key]) :=
  h.push fun a ha => by
    obtain rfl := List.mem_singleton.mp ha
    trivial

theorem Layout.proceed (h : Layout e) (key : CallKey) {stages : List Stage}
    (hs : ∀ s ∈ stages, e.StageApt s) : Layout (e.proceed key stages) := by
  refine Layout.resume (h.modifyCall key (fun c => { c with stages := stages ++ c.stages })
    fun c hc s hm => ?_) key
  rcases List.mem_append.mp hm with hm | hm
  · exact hs s hm
  · exact h.stages key c hc s hm

theorem Layout.refuse (h : Layout e) (key : CallKey) (fault : FlowFault) : Layout (e.refuse key fault) :=
  Layout.resume (h.modifyCall key (fun c => { c with stages := [], fault := some fault })
    fun _ _ _ hs => absurd hs List.not_mem_nil) key

theorem Layout.hold (h : Layout e) (key : CallKey) (levels : List LevelKey) : Layout (e.hold key levels) :=
  h.modifyCall key _ fun c hc s hs => h.stages key c hc s hs

theorem Layout.stops (h : Layout e) (hs : Stops e e') : Layout e' := by
  refine h.of_laid hs.grows (hs.laid h.laid) (fun a ha => ?_) (calls_of_shell hs.shell)
  unfold plan at *
  rwa [hs.agenda] at ha

theorem Layout.proceeds (h : Layout e) {stops : List Stopping} (hp : Proceeds e key stops e') :
    Layout e' := by
  cases hp with
  | waits _ hs =>
    have hm : Layout (e.modifyCall key fun c => { c with waiting := stops }) :=
      h.modifyCall key _ fun c hc s hs => h.stages key c hc s hs
    refine hm.still hs.still fun a ha => .inl ?_
    unfold plan at *
    rwa [hs.agenda] at ha
  | done _ =>
    exact Layout.resume (h.modifyCall key (fun c =>
      { c with waiting := [], report := (reports stops).foldl (· ++ ·) c.report })
        fun c hc s hs => h.stages key c hc s hs) key

theorem Layout.stopAll (h : Layout e) (key : CallKey) (requests : List StopRequest) :
    Layout (e.stopAll key requests) :=
  (h.stops (stops_beginStops key (e, []) requests)).proceeds (proceeds_afterStops _ _ _)

theorem Layout.addFlow (h : Layout e) {kind : LevelKind} (hk : kind.isOutermost = true) {config : FlowConfig}
    (hc : Tidy config.templates) : Layout (e.addLevel (.make kind none config)).1 :=
  h.of_laid (.addLevel _ _) (h.laid.addFlow hk hc) (fun _ ha => ha) rfl

theorem Layout.startTab (h : Layout e) (key : CallKey) {config : FlowConfig} (hc : Tidy config.templates)
    (listed : Bool) : Layout (e.startTab key config listed) := by
  unfold Engine.startTab
  split
  · exact h.proceed key (by simp)
  · refine Layout.proceed ((h.addFlow (show LevelKind.tab.isOutermost = true from rfl) hc).hold key _) key fun s hs => ?_
    cases listed <;> simp only [List.mem_cons, List.not_mem_nil, or_false] at hs <;>
      rcases hs with rfl | rfl <;> trivial

theorem Layout.startAll (h : Layout e) (key : CallKey) {next : Deployment} (hn : next.Tidy) :
    Layout (e.startAll key next) := by
  unfold Engine.startAll
  split
  · exact h.refuse key _
  · have hl := h.addFlow (show LevelKind.global.isOutermost = true from rfl) (hn _ List.mem_cons_self)
    have hg : Layout { (e.addLevel (.make .global none next.global)).1 with
        global := some (e.addLevel (.make .global none next.global)).2 } :=
      ⟨hl.laid.of_levels (.of_eq rfl rfl rfl rfl) fun _ => rfl, hl.makes, hl.stages⟩
    refine (hg.hold key _).proceed key fun s hs => ?_
    simp only [List.mem_append, List.mem_singleton, List.mem_map] at hs
    rcases hs with (rfl | ⟨tab, htab, rfl⟩) | rfl
    · trivial
    · exact hn tab (List.mem_cons_of_mem _ htab)
    · trivial

theorem Layout.deployNodes (h : Layout e) (hr : Rooted e) (key : CallKey) (previous : Deployment)
    {next : Deployment} (hn : next.Tidy) (diff : Diff) : Layout (e.deployNodes key previous next diff) := by
  rw [deployNodes_eq, deployStages]
  refine (h.hold key _).proceed key fun s hs => ?_
  simp only [List.mem_append, List.mem_cons, List.not_mem_nil, or_false, List.mem_flatMap] at hs
  rcases hs with ((((rfl | rfl | rfl) | ⟨g, hg, hs⟩) | ⟨tab, htab, hs⟩) | rfl | rfl)
  · trivial
  · trivial
  · trivial
  · simp only [globalStages, List.mem_cons, List.not_mem_nil, or_false] at hs
    rcases hs with rfl | rfl
    · exact ⟨hr.global g (Option.mem_toList.mp hg), hn _ List.mem_cons_self⟩
    · trivial
  · unfold tabStages at hs
    split at hs
    · rename_i j hj
      simp only [List.mem_cons, List.not_mem_nil, or_false] at hs
      rcases hs with rfl | rfl | rfl
      · exact ⟨hr.flows j (List.mem_filter.mp (List.mem_of_find?_eq_some hj)).1,
          hn tab (List.mem_cons_of_mem _ htab)⟩
      · trivial
      · trivial
    · obtain rfl := List.mem_singleton.mp hs
      exact hn tab (List.mem_cons_of_mem _ htab)
  · trivial
  · trivial

theorem Layout.starts (h : Layout e) {diff : Option Diff} (hs : Starts e key k diff e') : Layout e' := by
  cases hs with
  | nowhere => exact h.proceed key (by simp)
  | refused => exact h.refuse key _
  | fresh =>
    have hm : Laid (e.modifyLevel k fun l => { l with failures := [] }) :=
      h.laid.modifyLevel (.modifyLevel _ _ _ fun _ => ⟨rfl, rfl, rfl⟩)
        fun _ _ => .of_eq ⟨rfl, rfl, rfl⟩ rfl rfl rfl
    have hf : Layout (e.modifyLevel k fun l => { l with failures := [] }) :=
      h.of_laid (.modifyLevel _ _ _ fun _ => ⟨rfl, rfl, rfl⟩) hm (fun _ ha => ha) rfl
    exact hf.proceed key (by simp [StageApt])
  | again =>
    refine h.proceed key fun s hs => ?_
    rcases List.mem_append.mp hs with hs | hs
    · split at hs
      · simp at hs
      · obtain rfl := List.mem_singleton.mp hs
        trivial
    · obtain rfl := List.mem_singleton.mp hs
      trivial

theorem Layout.rewires (h : Layout e) (hr : Rewires e e') : Layout e' := by
  refine h.of_laid hr.grows (hr.laid h.laid) (fun a ha => ?_) hr.frame.1
  unfold plan at *
  rcases hr.frame.2 with hf | hf
  · rwa [hf] at ha
  · simp [hf] at ha

theorem Layout.rewired (h : Layout e) (k : LevelKey) (config : FlowConfig) (diff : Option Diff) :
    Layout (e.rewired k config diff) := by
  have hphase {s : Engine} (hs : Layout s) : Layout (s.modifyLevel k fun l => { l with phase := .started }) :=
    hs.of_laid (.modifyLevel _ _ _ fun _ => ⟨rfl, rfl, rfl⟩)
      (hs.laid.modifyLevel (.modifyLevel _ _ _ fun _ => ⟨rfl, rfl, rfl⟩)
        fun _ _ => .of_eq ⟨rfl, rfl, rfl⟩ rfl rfl rfl) (fun _ ha => ha) rfl
  cases diff with
  | none => exact hphase h
  | some d => exact hphase (h.rewires (rewires_rewire e k config d))

theorem Layout.applies (h : Layout e) {config : FlowConfig} {diff : Option Diff}
    (ha : Applies e key k config diff e') : Layout e' := by
  have hr := h.rewired k config diff
  have hp : Layout ((e.rewired k config diff).push [.announce k, .resume key]) := hr.push (by simp [Apt])
  cases ha with
  | nowhere => exact hp
  | @activates l order hl ho =>
    have hga := grows_activated ((e.rewired k config diff).push [.announce k, .resume key]) k l.config order
    refine ⟨hp.laid.activated _ _ _, fun a hm => ?_, fun j c hj s hs => hga.stageApt (hp.stages j c hj s hs)⟩
    rw [plan_activated] at hm
    rcases List.mem_append.mp hm with hm | hm
    · rcases List.mem_append.mp hm with hm | hm
      · exact hga.apt (apt_creations (hp.laid k l hl) hl hm)
      · obtain rfl := List.mem_singleton.mp hm
        trivial
    · exact hga.apt (hp.makes a hm)
  | refused => exact hr.refuse key _

/-- A flow is given another configuration. -/
theorem Layout.update (h : Layout e) (hk : ∀ l, e.level? k = some l → l.parent = none) {config : FlowConfig}
    (hc : Tidy config.templates) : Layout (e.modifyLevel k fun l => { l with config }) := by
  have hg : Grows e (e.modifyLevel k fun l => { l with config }) := .modifyLevel _ _ _ fun _ => ⟨rfl, rfl, rfl⟩
  refine h.of_laid hg (fun j l' hl' => ?_) (fun _ ha => ha) rfl
  rw [level?_modifyLevel] at hl'
  split at hl'
  · rename_i hj
    subst hj
    obtain ⟨l, hl, rfl⟩ := Option.map_eq_some_iff.mp hl'
    have hlaid := (h.laid k l hl).shrinks hg (.refl l)
    refine ⟨hlaid.sortedActive, hlaid.sortedInstances, hlaid.active, hlaid.instances, hlaid.outermost,
      fun b hb => ?_, hc⟩
    obtain ⟨p, hp, -⟩ := (hlaid.enclosed b hb).parent
    rw [hk l hl] at hp
    cases hp
  · exact (h.laid j l' hl').shrinks hg (.refl l')

theorem parent_of_isFlow (h : Laid e) (hf : e.IsFlow k) (l : Level) (hl : e.level? k = some l) :
    l.parent = none := by
  obtain ⟨c, hc⟩ := Option.isSome_iff_exists.mp hf
  obtain ⟨l', hl', ho, -⟩ := config?_eq_some.mp hc
  rw [hl] at hl'
  cases hl'
  exact (h k l hl).outermost ho

theorem Layout.runStage (h : Layout e) (hr : Rooted e) (key : CallKey) {stage : Stage}
    (hs : e.StageApt stage) : Layout (e.runStage key stage) := by
  have hsame (e' : Engine) (hl : e'.levels = e.levels) (hn : e'.nodes = e.nodes) (hw : e'.world = e.world)
      (hp : e'.nextPrivate = e.nextPrivate) (ha : e'.agenda = e.agenda) (hc : e'.calls = e.calls) :
      Layout e' := by
    have hg : Grows e e' := .of_eq hl hn hw hp
    refine h.of_laid hg (h.laid.of_levels hg fun k => by simp [level?, hl]) (fun a hm => ?_) hc
    unfold plan at *
    rwa [ha] at hm
  cases stage with
  | stop requests => exact h.stopAll key _
  | stopAmong levels ids removed => exact h.stopAll key _
  | start k diff => exact h.starts (starts_start e key k diff)
  | apply k config diff => exact h.applies (applies_apply e key k config diff)
  | update k config => exact (h.update (parent_of_isFlow h.laid hs.1) hs.2).proceed key (by simp)
  | deployNodes previous next diff => exact h.deployNodes hr key previous hs diff
  | stopAll =>
    have hm : Layout { e with flows := [], global := none } := hsame _ rfl rfl rfl rfl rfl rfl
    exact (hm.hold key _).proceed key (by simp [StageApt])
  | startAll next => exact h.startAll key hs
  | startTab config listed => exact h.startTab key hs listed
  | enlist k =>
    have hm : Layout { e with flows := e.flows ++ [k] } := hsame _ rfl rfl rfl rfl rfl rfl
    exact hm.proceed key (by simp)
  | gather k =>
    have hm : Layout (e.modifyCall key fun c => { c with gathered := c.gathered ++ [k] }) :=
      h.modifyCall key _ fun c hc s hs => h.stages key c hc s hs
    exact hm.proceed key (by simp)
  | enlistGathered =>
    have hm : Layout { e with flows := e.gathered key } := hsame _ rfl rfl rfl rfl rfl rfl
    rw [runStage_enlistGathered]
    exact hm.proceed key (by simp)
  | commit next =>
    have hm : Layout { e with deployed := some next } := hsame _ rfl rfl rfl rfl rfl rfl
    exact hm.proceed key (by simp)
  | withdraw =>
    have hm : Layout { e with deployed := none } := hsame _ rfl rfl rfl rfl rfl rfl
    exact hm.proceed key (by simp)
  | stuck =>
    refine h.modifyCall key (fun c => { c with stages := .stuck :: c.stages }) fun c hc s hs => ?_
    rcases List.mem_cons.mp hs with rfl | hs
    · trivial
    · exact h.stages key c hc s hs

theorem Layout.resumes (h : Layout e) (hr : Rooted e) (hs : Resumes e key e') : Layout e' := by
  cases hs with
  | unknown => exact h
  | ends => exact h.modifyCall key _ fun c hc s hs => h.stages key c hc s hs
  | @stage c stage rest hc hw hst =>
    have hrest (c' : Call) (hc' : e.call? key = some c') : c'.stages = stage :: rest := by
      rw [hc] at hc'
      cases hc'
      exact hst
    have hm : Layout (e.modifyCall key fun c => { c with stages := rest }) :=
      h.modifyCall key _ fun c' hc' s hs =>
        h.stages key c' hc' s (by rw [hrest c' hc']; exact List.mem_cons_of_mem _ hs)
    have hroot : Rooted (e.modifyCall key fun c => { c with stages := rest }) :=
      hr.modifyCall key _ fun c' hc' hroot => ⟨hroot.gathered, fun s hs =>
        hroot.stages s (by rw [hrest c' hc']; exact List.mem_cons_of_mem _ hs)⟩
    exact hm.runStage hroot key (h.stages key c hc stage (by rw [hst]; exact List.mem_cons_self))
  | waits => exact (h.stops (stops_pollStops key (e, []) _)).proceeds (proceeds_afterStops _ _ _)

theorem Layout.tick (h : Layout e) (hr : Rooted e) (ht : Tick e e') : Layout e' := by
  rcases ht.kinds with ⟨hs, hp⟩ | ⟨key, -, hs, ha⟩ | ⟨a, rest, -, hq, ha, rfl⟩
  · exact h.still hs fun a ha => .inl (hp ▸ ha)
  · refine h.still hs fun a hm => .inr ?_
    have hm := (List.mem_filter.mp hm).1
    rw [ha] at hm
    obtain rfl := List.mem_singleton.mp hm
    trivial
  · have hpop : Layout { e with agenda := rest } := by
      refine ⟨h.laid.of_levels (.of_eq rfl rfl rfl rfl) fun _ => rfl, fun b hb => ?_, h.stages⟩
      refine h.makes b ?_
      unfold plan at *
      rw [ha]
      exact (List.mem_filter.mpr ⟨List.mem_cons_of_mem _ (List.mem_filter.mp hb).1, (List.mem_filter.mp hb).2⟩)
    have hapt : e.Apt a := h.makes a (by simp [plan, ha, hq])
    by_cases hres : ∃ key, a = .resume key
    · obtain ⟨key, rfl⟩ := hres
      have hroot : Rooted { e with agenda := rest } := hr.register (fun _ hk => hk) rfl
      exact hpop.resumes hroot (resumes_resume _ _)
    · exact hpop.act hapt fun key hk => hres ⟨key, hk⟩

/-! ## Every engine that can come about -/

theorem stageApt_of_offers {stages : List Stage} (h : e.Offers stages) : ∀ s ∈ stages, e.StageApt s := by
  cases h with
  | load h =>
    unfold stagesOfLoad at h
    split at h
    · cases h
    · split at h
      · cases h
      · rename_i next hp
        cases h
        intro s hs
        obtain rfl := List.mem_singleton.mp hs
        exact Deployment.tidy_of_parse hp
  | @deploy records kind stages diff h =>
    rcases stagesOfDeploy_cases e records kind with
      ⟨fault, -, hs⟩ | ⟨next, hp, ⟨fault, -, hs⟩ | ⟨-, result, hd, hs⟩⟩
    · rw [hs] at h
      cases h
    · rw [hs] at h
      cases h
    · rw [hs] at h
      cases h
      have ht := Deployment.tidy_of_parse hp
      cases hd <;> simp [StageApt, ht]
  | stopAll => simp [stagesOfStopAll, StageApt]
  | stop requests => simp [StageApt]
  | start k diff => simp [StageApt]

theorem Reachable.layout (h : Reachable e) : Layout e := by
  refine h.invariant (P := Layout) (fun r o s v t => ?_) (fun _ _ hreach hl ht => hl.tick hreach.rooted ht)
    fun e e' hreach hl _ hi => ?_
  · refine ⟨fun k l hl => ?_, by simp [plan, Engine.make], by simp [call?, Engine.make]⟩
    simp [level?, Engine.make] at hl
  · cases hi with
    | @call stages ho =>
      have hw : Layout { e with
          nextCall := e.nextCall + 1, calls := e.calls ++ [(e.nextCall, Call.make stages e.now)] } := by
        refine ⟨hl.laid.of_levels (.of_eq rfl rfl rfl rfl) fun _ => rfl, hl.makes, fun j c hj s hs => ?_⟩
        have hb := call?_begin hreach.keysBelow stages j
        have hsame : (e.begin stages).1.call? j = _ :=
          call?_of_still (e := { e with
            nextCall := e.nextCall + 1, calls := e.calls ++ [(e.nextCall, Call.make stages e.now)] })
            (quiet_wake _ (.call e.nextCall)).still j
        rw [hsame, hj] at hb
        split at hb
        · cases hb
          exact stageApt_of_offers ho s hs
        · exact hl.stages j c hb.symm s hs
      exact hw.still (quiet_wake _ _).still fun a ha => .inl ((quiet_wake _ _).plan ▸ ha)
    | quiet h => exact hl.still h.still fun a ha => .inl (h.plan ▸ ha)
    | keep levels nodes =>
      exact hl.of_laid (.of_eq rfl rfl rfl rfl) (hl.laid.of_levels (.of_eq rfl rfl rfl rfl) fun _ => rfl)
        (fun _ ha => ha) rfl
    | flow hk hc =>
      refine hl.addFlow ?_ hc.tidy
      rcases hk with rfl | rfl <;> rfl
    | update hk hc => exact hl.update hk hc.tidy

end Engine
end Flowgraph
