import Flowgraph.Proofs.Updates
/-! How nodes come into being: everything the making of one node can do, and the activation of a level. -/
namespace Flowgraph.Engine

variable {e e' : Engine} {k : LevelKey} {l : Level}

/-! ## Activation -/

/-- The actions that make the nodes of a level in an order of their positions. -/
def creations (k : LevelKey) (c : FlowConfig) (order : List Nat) : List Action :=
  (order.filterMap fun pos => c.nodes[pos]?).map fun r => .create k r c.templates

/-- A level whose environment has been evaluated, and whose nodes are to be made. -/
def activated (e : Engine) (k : LevelKey) (c : FlowConfig) (order : List Nat) : Engine :=
  (e.modifyLevel k fun l => { l with env := Scope.evaluate (e.settingAround k) c.env }).push
    (creations k c order ++ [.refresh k])

theorem activate_ok (hl : e.level? k = some l) {order : List Nat}
    (ho : StartOrder.resolve l.config.nodes = .ok order) :
    e.activate k = .ok (e.activated k l.config order) := by
  unfold activate
  rw [hl]
  dsimp only
  rw [ho]
  rfl

theorem activate_error (hl : e.level? k = some l) {fault : ConfigFault}
    (ho : StartOrder.resolve l.config.nodes = .error fault) : e.activate k = .error fault := by
  unfold activate
  rw [hl]
  dsimp only
  rw [ho]
  rfl

theorem activate_none (hl : e.level? k = none) : e.activate k = .ok e := by
  unfold activate
  rw [hl]

/-! ## Instances -/

/-- The level of a new instance. -/
def instanceLevel (k : LevelKey) (l : Level) (b : Binding) (nodes : List Record) : Level :=
  { Level.make (.expansion b) (some k)
      { id := b.usage.id, label := none, disabled := false, env := b.envEntries, nodes
        templates := l.config.templates } with phase := .started }

/-- An engine with the level of a new instance, whose nodes are still to be made. -/
def withInstance (e : Engine) (k : LevelKey) (l : Level) (b : Binding) (nodes : List Record) : Engine :=
  ({ e with nextPrivate := e.nextPrivate + Binding.idsNeeded b.template }.addLevel
    (instanceLevel k l b nodes)).1

/-- The making of an instance begins; the usage node follows its nodes. -/
def opened (e : Engine) (k : LevelKey) (l : Level) (b : Binding) (nodes : List Record)
    (order : List Nat) : Engine :=
  ((e.withInstance k l b nodes).push [.install k b.usage e.levels.size]).activated e.levels.size
    (instanceLevel k l b nodes).config order

/-- What the making of an instance comes to. -/
inductive Opens (e : Engine) (k : LevelKey) (usage : Record) (t : Template) : Engine → Prop
  | nowhere (hl : e.level? k = none) : Opens e k usage t e
  | breaks (hx : (Binding.make t usage e.nextPrivate).expand? usage.outputs = none) :
      Opens e k usage t { e with broken := true, agenda := [] }
  | collapses {l : Level} {nodes : List Record} {fault : ConfigFault} (hl : e.level? k = some l)
      (hx : (Binding.make t usage e.nextPrivate).expand? usage.outputs = some nodes)
      (ho : StartOrder.resolve nodes = .error fault) :
      Opens e k usage t ((e.withInstance k l (Binding.make t usage e.nextPrivate) nodes).failCreation k
        usage (.construction fault.message))
  | opens {l : Level} {nodes : List Record} {order : List Nat} (hl : e.level? k = some l)
      (hx : (Binding.make t usage e.nextPrivate).expand? usage.outputs = some nodes)
      (ho : StartOrder.resolve nodes = .ok order) :
      Opens e k usage t (e.opened k l (Binding.make t usage e.nextPrivate) nodes order)

theorem opens_createInstance (e : Engine) (k : LevelKey) (usage : Record) (t : Template) :
    Opens e k usage t (e.createInstance k usage t) := by
  unfold createInstance
  cases hl : e.level? k with
  | none => exact .nowhere hl
  | some l =>
    dsimp only
    cases hx : (Binding.make t usage e.nextPrivate).expand? usage.outputs with
    | none => exact .breaks hx
    | some nodes =>
      dsimp only
      have hn : ((e.withInstance k l (Binding.make t usage e.nextPrivate) nodes).push
          [.install k usage e.levels.size]).level? e.levels.size =
          some (instanceLevel k l (Binding.make t usage e.nextPrivate) nodes) := by
        simp [withInstance, level?_addLevel]
      cases ho : StartOrder.resolve nodes with
      | error fault =>
        have h := activate_error hn ho
        simp only [withInstance, instanceLevel, addLevel, Binding.make] at h
        rw [addLevel]
        dsimp only
        simp only [Binding.make] at *
        rw [h]
        exact .collapses hl hx ho
      | ok order =>
        have h := activate_ok hn ho
        simp only [withInstance, instanceLevel, addLevel, Binding.make] at h
        rw [addLevel]
        dsimp only
        simp only [Binding.make] at *
        rw [h]
        exact .opens hl hx ho

/-! ## Nodes -/

/-- The record of a node as it is seen at a level. -/
def resolvedAt (e : Engine) (k : LevelKey) (r : Record) : Record := Scope.resolveRecord (e.setting k) r

/-- What stands behind a node that needs no instance. -/
inductive Behind (e : Engine) (r : Record) : Part → List Note → Prop
  | builtIn {part : Part} (h : builtIn? r.type = some part) : Behind e r part []
  | ordinary {b : Behaviour} {notes : List Note} (hb : builtIn? r.type = none)
      (h : e.registry.create r = .ok (b, notes)) : Behind e r (.ordinary b) notes

/-- What the making of a node comes to. -/
inductive Creates (e : Engine) (k : LevelKey) (r : Record) (templates : Templates) : Engine → Prop
  | present (h : (e.activeKey? k r.id).isSome = true) : Creates e k r templates e
  | noTemplate {id : String} (hn : e.activeKey? k r.id = none)
      (hu : (e.resolvedAt k r).templateId? = some id) (ht : templates.get? id = none) :
      Creates e k r templates
        (e.failCreation k r (.construction ("Unknown subflow template: " ++ id)))
  | usage {id : String} {t : Template} {e' : Engine} (hn : e.activeKey? k r.id = none)
      (hu : (e.resolvedAt k r).templateId? = some id) (ht : templates.get? id = some t)
      (ho : Opens e k (e.resolvedAt k r) t e') : Creates e k r templates e'
  | made {part : Part} {notes : List Note} (hn : e.activeKey? k r.id = none)
      (hu : (e.resolvedAt k r).templateId? = none) (hb : Behind e (e.resolvedAt k r) part notes) :
      Creates e k r templates ((e.note notes).enter k (e.resolvedAt k r) part)
  | refused {fault : NodeFault} (hn : e.activeKey? k r.id = none)
      (hu : (e.resolvedAt k r).templateId? = none) (hb : builtIn? (e.resolvedAt k r).type = none)
      (hr : e.registry.create (e.resolvedAt k r) = .error fault) :
      Creates e k r templates (e.failCreation k r fault)

theorem note_nil (e : Engine) : e.note [] = e := by
  simp [note]

theorem creates_create (e : Engine) (k : LevelKey) (r : Record) (templates : Templates) :
    Creates e k r templates (e.create k r templates) := by
  unfold create
  split
  · rename_i h
    exact .present h
  · rename_i hn
    have hn : e.activeKey? k r.id = none := by simpa using hn
    dsimp only
    rw [show Scope.resolveRecord (e.setting k) r = e.resolvedAt k r from rfl]
    cases hu : (e.resolvedAt k r).templateId? with
    | some id =>
      dsimp only
      cases ht : templates.get? id with
      | none => exact .noTemplate hn hu ht
      | some t => exact .usage hn hu ht (opens_createInstance e k _ t)
    | none =>
      dsimp only
      cases hb : builtIn? (e.resolvedAt k r).type with
      | some part =>
        have hm : Creates e k r templates ((e.note []).enter k (e.resolvedAt k r) part) :=
          .made hn hu (.builtIn hb)
        rwa [note_nil] at hm
      | none =>
        dsimp only
        cases hc : e.registry.create (e.resolvedAt k r) with
        | ok made => exact .made hn hu (.ordinary hb hc)
        | error fault => exact .refused hn hu hb hc

/-! ## What lookups find afterwards -/

theorem level?_activated (e : Engine) (k : LevelKey) (c : FlowConfig) (order : List Nat)
    (j : LevelKey) : (e.activated k c order).level? j =
    if k = j then (e.level? j).map fun l =>
      { l with env := Scope.evaluate (e.settingAround k) c.env } else e.level? j := by
  simp [activated]

@[simp] theorem node?_activated (e : Engine) (k : LevelKey) (c : FlowConfig) (order : List Nat)
    (j : NodeKey) : (e.activated k c order).node? j = e.node? j := rfl

theorem level?_withInstance (e : Engine) (k : LevelKey) (l : Level) (b : Binding)
    (nodes : List Record) (j : LevelKey) : (e.withInstance k l b nodes).level? j =
    if j = e.levels.size then some (instanceLevel k l b nodes) else e.level? j :=
  level?_addLevel _ _ _

@[simp] theorem node?_withInstance (e : Engine) (k : LevelKey) (l : Level) (b : Binding)
    (nodes : List Record) (j : NodeKey) : (e.withInstance k l b nodes).node? j = e.node? j := rfl

@[simp] theorem node?_opened (e : Engine) (k : LevelKey) (l : Level) (b : Binding)
    (nodes : List Record) (order : List Nat) (j : NodeKey) :
    (e.opened k l b nodes order).node? j = e.node? j := rfl

/-- The new level of an instance, with its environment. -/
theorem level?_opened (e : Engine) (k : LevelKey) (l : Level) (b : Binding) (nodes : List Record)
    (order : List Nat) : ∃ env, ∀ j, (e.opened k l b nodes order).level? j =
    if j = e.levels.size then some { instanceLevel k l b nodes with env } else e.level? j := by
  refine ⟨Scope.evaluate (((e.withInstance k l b nodes).push
    [.install k b.usage e.levels.size]).settingAround e.levels.size) b.envEntries, fun j => ?_⟩
  unfold opened
  rw [level?_activated]
  by_cases h : e.levels.size = j
  · subst h
    rw [if_pos rfl, level?_push, level?_withInstance, if_pos rfl, if_pos rfl]
    rfl
  · rw [if_neg h, level?_push, level?_withInstance, if_neg (Ne.symm h), if_neg (Ne.symm h)]

end Flowgraph.Engine
