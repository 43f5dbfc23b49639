import Flowgraph.Proofs.Unfolding
/-! Who is there when a flow has been activated. Every enabled node of the flow and of its copies is active unless it
has failed, and is what its record makes it; a usage node stands for a copy of its template, wired to what the usage
node is wired to. Nobody else is there. -/
namespace Flowgraph

/-- A record as a node is made of it: what its properties stand for may have taken their place. -/
structure Record.Becomes (r made : Record) : Prop where
  id : made.id = r.id
  type : made.type = r.type
  outputs : made.outputs = r.outputs

/-- A record that a kind of the registry makes a node of. -/
def Record.Ordinary (r : Record) : Prop := r.templateId? = none ∧ Engine.builtIn? r.type = none

namespace Engine

variable {e e' e₀ E : Engine} {i j k since : LevelKey} {n : NodeKey} {id : NodeId} {node node' : Node} {b : Binding}
  {r made : Record} {kinds : Registry} {templates : Templates} {p q : List Action} {l : Level} {order : List Nat}

theorem becomes_resolvedAt (e : Engine) (j : LevelKey) (r : Record) : r.Becomes (e.resolvedAt j r) := ⟨rfl, rfl, rfl⟩

/-! ## Nodes and copies -/

/-- A node of this record has been made for an enabled node of a level. -/
def Lists (e : Engine) (j : LevelKey) (made : Record) : Prop :=
  ∃ l r, e.level? j = some l ∧ r ∈ l.config.nodes ∧ r.disabled = false ∧ r.Becomes made

/-- A level is the copy of a template, for a usage node of the level around it. -/
structure Copied (e : Engine) (templates : Templates) (i j : LevelKey) (b : Binding) : Prop where
  level : ∃ l, e.level? i = some l ∧ l.kind = .expansion b ∧ l.parent = some j ∧
    b.expand? b.usage.outputs = some l.config.nodes
  lists : e.Lists j b.usage
  template : ∃ id, b.usage.templateId? = some id ∧ templates.get? id = some b.template

/-- What stands behind a node that has been made of a record. -/
inductive Backs (e : Engine) (kinds : Registry) (templates : Templates) (j : LevelKey) (made : Record) : Part → Prop
  | ordinary {b : Behaviour} {notes : List Note} (hu : made.templateId? = none) (hb : builtIn? made.type = none)
      (hc : kinds.create made = .ok (b, notes)) : Backs e kinds templates j made (.ordinary b)
  | builtIn {part : Part} (hu : made.templateId? = none) (hb : builtIn? made.type = some part) :
      Backs e kinds templates j made part
  | standIn {i : LevelKey} {b : Binding} (hi : e.Copied templates i j b) (hb : b.usage = made) :
      Backs e kinds templates j made (.standIn i)

/-- A node is what its record makes it. -/
structure Enacts (e : Engine) (kinds : Registry) (templates : Templates) (j : LevelKey) (node : Node) : Prop where
  level : node.level = j
  lists : e.Lists j node.record
  wired : node.dispatch = .ofWires node.record.outputs
  backs : e.Backs kinds templates j node.record node.part

theorem Lists.resembles (h : e.Lists j made) (hr : ∀ i, Resembles i e e') : e'.Lists j made := by
  obtain ⟨l, r, hl, hmem, hd, hm⟩ := h
  obtain ⟨l', hl', ha⟩ := hr j l hl
  exact ⟨l', r, hl', ha.config ▸ hmem, hd, hm⟩

theorem Copied.resembles (h : e.Copied templates i j b) (hr : ∀ i, Resembles i e e') : e'.Copied templates i j b := by
  obtain ⟨l, hl, hk, hp, hx⟩ := h.level
  obtain ⟨l', hl', ha⟩ := hr i l hl
  exact ⟨⟨l', hl', ha.kind.trans hk, ha.parent.trans hp, ha.config ▸ hx⟩, h.lists.resembles hr, h.template⟩

theorem Backs.resembles {part : Part} (h : e.Backs kinds templates j made part) (hr : ∀ i, Resembles i e e') :
    e'.Backs kinds templates j made part := by
  cases h with
  | ordinary hu hb hc => exact .ordinary hu hb hc
  | builtIn hu hb => exact .builtIn hu hb
  | standIn hi hb => exact .standIn (hi.resembles hr) hb

theorem Enacts.resembles (h : e.Enacts kinds templates j node) (hr : ∀ i, Resembles i e e') : e'.Enacts kinds templates j node :=
  ⟨h.level, h.lists.resembles hr, h.wired, h.backs.resembles hr⟩

theorem Enacts.still (h : e.Enacts kinds templates j node) (hs : node'.still = node.still) : e.Enacts kinds templates j node' := by
  have hrecord : node'.record = node.record := (congrArg Node.record hs :)
  have hpart : node'.part = node.part := (congrArg Node.part hs :)
  have hdispatch : node'.dispatch = node.dispatch := (congrArg Node.dispatch hs :)
  exact ⟨(congrArg Node.level hs).trans h.level, hrecord ▸ h.lists, by rw [hdispatch, hrecord]; exact h.wired,
    by rw [hrecord, hpart]; exact h.backs⟩

/-! ## A flow in the course of its activation -/

/-- A level of the flow that is activated: that of the flow itself, or one that has come since. -/
def Recent (since k j : LevelKey) : Prop := j = k ∨ since ≤ j

/-- A node that is there is what its record makes it; the copy that it may stand for has come since. -/
def Seated (since : LevelKey) (kinds : Registry) (templates : Templates) (e : Engine) (j : LevelKey) (n : NodeKey) : Prop :=
  ∃ node, e.node? n = some node ∧ e.Enacts kinds templates j node ∧ ∀ i, node.part = .standIn i → since ≤ i

/-- What is still to be made belongs to the flow. -/
def Due (since k : LevelKey) (templates : Templates) (e : Engine) : Action → Prop
  | .create j _ _ => Recent since k j
  | .install j usage i => Recent since k j ∧ since ≤ i ∧ ∃ b, e.Copied templates i j b ∧ b.usage = usage
  | _ => True

/-- A node has failed: an ordinary one, or a usage node whose template does not exist. -/
def Missed (templates : Templates) (l : Level) (r : Record) : Prop :=
  (l.failures.get? r.id).isSome = true ∧ (r.Ordinary ∨ ∃ id, r.templateId? = some id ∧ templates.get? id = none)

/-- A flow in the course of its activation, with what is still to be made. -/
structure Populated (since k : LevelKey) (kinds : Registry) (templates : Templates) (e : Engine) (p : List Action) : Prop where
  size : since ≤ e.levels.size
  due : ∀ a ∈ p, Due since k templates e a
  /-- Nobody is there who is not what a record of the level makes it. -/
  seated : ∀ j id n, Recent since k j → e.activeKey? j id = some n → Seated since kinds templates e j n
  /-- Every enabled node is there or to be made, unless it has failed. -/
  covered : ∀ j l, Recent since k j → e.level? j = some l → ∀ r ∈ l.config.nodes, r.disabled = false →
    Covered e p j r ∨ Missed templates l r

/-- Nodes that were there are there still, but for the traces of their work. -/
def KeepsNodes (e e' : Engine) : Prop :=
  ∀ n node, e.node? n = some node → ∃ node', e'.node? n = some node' ∧ node'.still = node.still

theorem KeepsNodes.of_node? (h : ∀ n, e'.node? n = e.node? n) : KeepsNodes e e' :=
  fun n node hn => ⟨node, (h n).trans hn, rfl⟩

theorem KeepsNodes.enter (e : Engine) (j : LevelKey) (r : Record) (part : Part) : KeepsNodes e (e.enter j r part) := by
  intro n node hn
  refine ⟨node, ?_, rfl⟩
  rw [node?_enter, if_neg (Nat.ne_of_lt (node?_lt e n hn)), hn]

theorem Seated.keeps (h : Seated since kinds templates e j n) (hr : ∀ i, Resembles i e e') (hn : KeepsNodes e e') :
    Seated since kinds templates e' j n := by
  obtain ⟨node, hnode, he, hi⟩ := h
  obtain ⟨node', hnode', hs⟩ := hn n node hnode
  have hpart : node'.part = node.part := (congrArg Node.part hs :)
  exact ⟨node', hnode', (he.resembles hr).still hs, hpart ▸ hi⟩

theorem Due.resembles {a : Action} (h : Due since k templates e a) (hr : ∀ i, Resembles i e e') :
    Due since k templates e' a := by
  cases a with
  | install =>
    obtain ⟨hj, hi, b, hc, hb⟩ := h
    exact ⟨hj, hi, b, hc.resembles hr, hb⟩
  | _ => exact h

namespace Populated

/-- A step after which those who come are what their records make them, and nobody is left out. -/
theorem step (h : Populated since k kinds templates e p) (hr : ∀ i, Resembles i e e') (hn : KeepsNodes e e')
    (hdue : ∀ a ∈ q, a ∈ p ∨ Due since k templates e' a)
    (hactive : ∀ j id n, Recent since k j → e'.activeKey? j id = some n →
      e.activeKey? j id = some n ∨ Seated since kinds templates e' j n)
    (hold : ∀ j l l' r, Recent since k j → e.level? j = some l → e'.level? j = some l' →
      Covered e p j r ∨ Missed templates l r →
      Covered e' q j r ∨ Missed templates l' r)
    (hnew : ∀ j l', e.levels.size ≤ j → e'.level? j = some l' → ∀ r ∈ l'.config.nodes, r.disabled = false →
      Covered e' q j r) : Populated since k kinds templates e' q := by
  refine ⟨Nat.le_trans h.size (size_le_of_resembles hr), fun a ha => ?_, fun j id n hj ha => ?_, fun j l' hj hl' r hmem hd => ?_⟩
  · exact (hdue a ha).elim (fun ha => (h.due a ha).resembles hr) id
  · exact (hactive j id n hj ha).elim (fun ha => (h.seated j id n hj ha).keeps hr hn) fun hs => hs
  · by_cases hlt : j < e.levels.size
    · have hl : e.level? j = some e.levels[j] := Array.getElem?_eq_getElem hlt
      obtain ⟨l'', hl'', ha⟩ := hr j _ hl
      obtain rfl := Option.some.inj (hl'.symm.trans hl'')
      exact hold j _ _ r hj hl hl' (h.covered j _ hj hl r (ha.config ▸ hmem) hd)
    · exact .inl (hnew j l' (Nat.le_of_not_lt hlt) hl' r hmem hd)

/-- A step that makes no level, and nobody comes. -/
theorem within (h : Populated since k kinds templates e p) (hr : ∀ i, Resembles i e e') (hn : KeepsNodes e e')
    (hsize : e'.levels.size = e.levels.size) (hdue : ∀ a ∈ q, a ∈ p)
    (hactive : ∀ j id, e'.activeKey? j id = e.activeKey? j id)
    (hold : ∀ j l l' r, e.level? j = some l → e'.level? j = some l' →
      Covered e p j r ∨ Missed templates l r →
      Covered e' q j r ∨ Missed templates l' r) : Populated since k kinds templates e' q :=
  h.step hr hn (fun a ha => .inl (hdue a ha)) (fun j id n _ ha => .inl (hactive j id ▸ ha))
    (fun j l l' r _ => hold j l l' r) fun j l' hj hl' => absurd (level?_lt e' j hl') (by omega)

/-- Work with messages. -/
theorem quiet (h : Populated since k kinds templates e p) (hs : e'.still = e.still) : Populated since k kinds templates e' p := by
  have hl := level?_of_still hs
  refine h.within (fun i => .of_level? (hl i)) (fun n node hn => exists_node?_of_still hs hn) (by rw [levels_of_still hs])
    (fun a ha => ha) (fun j id => by rw [activeKey?, hl, activeKey?]) fun j l l' r hlj hlj' hc => ?_
  obtain rfl := Option.some.inj (hlj.symm.trans ((hl j).symm.trans hlj'))
  exact hc.imp_left fun hc => hc.mono (fun ha => by rwa [activeKey?, hl j]) fun _ h => h

/-- Nothing comes of an action but that others are covered without it. -/
theorem skip {a : Action} (h : Populated since k kinds templates e (a :: p))
    (hcov : ∀ j l r, e.level? j = some l → Covered e (a :: p) j r →
      Covered e p j r ∨ Missed templates l r) : Populated since k kinds templates e p := by
  refine h.within (fun i => .refl e) (.of_node? fun _ => rfl) rfl (fun a ha => List.mem_cons_of_mem _ ha) (fun _ _ => rfl)
    fun j l l' r hl hl' hc => ?_
  obtain rfl := Option.some.inj (hl.symm.trans hl')
  exact hc.elim (hcov j l r hl) .inr

/-- A table is built anew. -/
theorem refresh (h : Populated since k kinds templates e (.refresh j :: p)) : Populated since k kinds templates (e.refresh j) p := by
  have hlevel (i : LevelKey) : ∃ f : Level → Receivers,
      (e.refresh j).level? i = (e.level? i).map fun l => { l with receivers := f l } := by
    obtain ⟨rs, hrs⟩ := level?_refresh e i j
    rw [hrs]
    split
    · exact ⟨fun _ => rs, rfl⟩
    · exact ⟨fun l => l.receivers, by simp⟩
  have hactive (i : LevelKey) (id : NodeId) : (e.refresh j).activeKey? i id = e.activeKey? i id := by
    obtain ⟨rs, hrs⟩ := hlevel i
    rw [activeKey?, hrs, activeKey?]
    cases e.level? i <;> rfl
  refine h.within (fun i => resembles_makes (a := .refresh j) rfl) (.of_node? fun n => node?_refresh e n j) ?_
    (fun a ha => List.mem_cons_of_mem _ ha) hactive fun i l l' r hl hl' hc => ?_
  · unfold Engine.refresh
    split
    · rfl
    · exact Array.size_modify
  · obtain ⟨rs, hrs⟩ := hlevel i
    rw [hrs, hl] at hl'
    cases hl'
    refine hc.imp_left fun hc => ?_
    rcases hc with hc | ⟨ts, hc⟩ | ⟨usage, inst, hc, hid⟩
    · exact .inl (hactive i r.id ▸ hc)
    · exact .inr (.inl ⟨ts, (List.mem_cons.mp hc).resolve_left (by simp)⟩)
    · exact .inr (.inr ⟨usage, inst, (List.mem_cons.mp hc).resolve_left (by simp), hid⟩)

/-- A node enters its level. -/
theorem enter {a : Action} {part : Part} (h : Populated since k kinds templates e (a :: p)) (hlists : e.Lists j made)
    (hbacks : e.Backs kinds templates j made part) (hsince : ∀ i, part = .standIn i → since ≤ i)
    (hcov : ∀ i r, Covered e (a :: p) i r → (i = j ∧ r.id = made.id) ∨ Covered e p i r) :
    Populated since k kinds templates (e.enter j made part) p := by
  have hr (i : LevelKey) : Resembles i e (e.enter j made part) := resembles_enter e j made part
  have hactive (i : LevelKey) (id : NodeId) := activeKey?_enter e j made part i id
  have hgains (i : LevelKey) (id : NodeId) (ha : (e.activeKey? i id).isSome = true) :
      ((e.enter j made part).activeKey? i id).isSome = true := by
    rw [hactive]
    split
    · obtain ⟨n, hn⟩ := Option.isSome_iff_exists.mp ha
      obtain ⟨l, hl, hget⟩ := Option.bind_eq_some_iff.mp hn
      rw [hl, Option.bind_some, hget]
      split <;> rfl
    · exact ha
  have hself {l : Level} (hl : e.level? j = some l) : ((e.enter j made part).activeKey? j made.id).isSome = true := by
    rw [hactive, if_pos rfl, hl, Option.bind_some, if_pos rfl]
    rfl
  refine h.step hr (.enter e j made part) (fun a ha => .inl (List.mem_cons_of_mem _ ha)) (fun i id n _ ha => ?_)
    (fun i l l' r _ hl hl' hc => ?_) fun i l' hi hl' => absurd (level?_lt _ i hl') (by rw [levelCount_enter]; omega)
  · rw [hactive] at ha
    split at ha
    · rename_i hi
      subst hi
      obtain ⟨l, hl, hget⟩ := Option.bind_eq_some_iff.mp ha
      split at hget
      · cases hget
        -- it is the node that has come
        have he : e.Enacts kinds templates j ⟨made, j, part, .ofWires made.outputs, false, none, false⟩ := ⟨rfl, hlists, rfl, hbacks⟩
        exact .inr ⟨_, by rw [node?_enter, if_pos rfl], he.resembles hr, hsince⟩
      · exact .inl (by rw [activeKey?, hl, Option.bind_some, hget])
    · exact .inl ha
  · rcases hc with hc | hc
    · rcases hcov i r hc with ⟨rfl, hid⟩ | hc
      · exact .inl (.inl (hid ▸ hself hl))
      · exact .inl (hc.mono (hgains i r.id) fun _ h => h)
    · -- only the failure of the node that has come is forgotten
      rw [level?_enter] at hl'
      split at hl'
      · rename_i hi
        subst hi
        rw [hl] at hl'
        cases hl'
        by_cases hid : r.id = made.id
        · exact .inl (.inl (hid ▸ hself hl))
        · exact .inr ⟨by rw [Dict.get?_erase, if_neg (Ne.symm hid)]; exact hc.1, hc.2⟩
      · obtain rfl := Option.some.inj (hl.symm.trans hl')
        exact .inr hc

/-- A node cannot be made. -/
theorem failCreation {a : Action} (h : Populated since k kinds templates e (a :: p)) (fault : NodeFault)
    (hwhy : r.Ordinary ∨ ∃ id, r.templateId? = some id ∧ templates.get? id = none)
    (hcov : ∀ i r', Covered e (a :: p) i r' → (i = j ∧ r' = r) ∨ Covered e p i r') :
    Populated since k kinds templates (e.failCreation j r fault) p := by
  have hlevel (i : LevelKey) := level?_failCreation e i j r fault
  have hactive (i : LevelKey) (id : NodeId) : (e.failCreation j r fault).activeKey? i id = e.activeKey? i id := by
    rw [activeKey?, hlevel]
    split
    · rw [activeKey?]
      cases e.level? i <;> rfl
    · rfl
  refine h.within (fun i => resembles_failCreation e j r fault) (.of_node? fun n => by simp)
    (levelCount_failCreation e j r fault) (fun a ha => List.mem_cons_of_mem _ ha) hactive fun i l l' r' hl hl' hc => ?_
  rw [hlevel, hl] at hl'
  rcases hc with hc | hc
  · rcases hcov i r' hc with ⟨rfl, rfl⟩ | hc
    · rw [if_pos rfl] at hl'
      cases hl'
      exact .inr ⟨by rw [Dict.get?_insert, if_pos rfl]; rfl, hwhy⟩
    · exact .inl (hc.mono (fun ha => by rwa [hactive]) fun _ h => h)
  · obtain ⟨hc, hwhy'⟩ := hc
    split at hl'
    · cases hl'
      refine .inr ⟨?_, hwhy'⟩
      rw [Dict.get?_insert]
      split
      · rfl
      · exact hc
    · cases hl'
      exact .inr ⟨hc, hwhy'⟩

/-- A usage node with its instance enters its level. -/
theorem install (h : Populated since k kinds templates e (.install j made i :: p)) :
    Populated since k kinds templates (e.install j made i) p := by
  obtain ⟨-, hsince, b, hc, rfl⟩ := h.due _ List.mem_cons_self
  have hr (i' : LevelKey) : Resembles i' e (e.modifyLevel j fun l => { l with instances := l.instances.insert b.usage.id i }) :=
    .modifyLevel e j fun _ _ => ⟨⟨rfl, rfl, rfl⟩, rfl, rfl⟩
  have hactive (i' : LevelKey) (id : NodeId) :
      (e.modifyLevel j fun l => { l with instances := l.instances.insert b.usage.id i }).activeKey? i' id =
        e.activeKey? i' id := by
    rw [activeKey?_modifyLevel]
    split
    · rfl
    · rfl
  have hm : Populated since k kinds templates (e.modifyLevel j fun l => { l with instances := l.instances.insert b.usage.id i })
      (.install j b.usage i :: p) := by
    refine h.within hr (.of_node? fun _ => rfl) Array.size_modify (fun a ha => ha) hactive fun i' l l' r hl hl' hc => ?_
    refine (hc.imp_left fun hc => hc.mono (fun ha => by rwa [hactive]) fun _ h => h).imp_right fun hc => ?_
    rw [level?_modifyLevel] at hl'
    split at hl'
    · rw [hl] at hl'
      cases hl'
      exact hc
    · obtain rfl := Option.some.inj (hl.symm.trans hl')
      exact hc
  refine hm.enter (hc.lists.resembles hr) (.standIn (hc.resembles hr) rfl) (fun i' hi' => by cases hi'; exact hsince)
    fun i' r hc => ?_
  rcases hc with hc | ⟨ts, hc⟩ | ⟨usage, inst, hc, hid⟩
  · exact .inr (.inl hc)
  · exact .inr (.inr (.inl ⟨ts, (List.mem_cons.mp hc).resolve_left (by simp)⟩))
  · rcases List.mem_cons.mp hc with hc | hc
    · cases hc
      exact .inl ⟨rfl, hid.symm⟩
    · exact .inr (.inr (.inr ⟨usage, inst, hc, hid⟩))

/-- The nodes of a copy are to be made, and the usage node behind them. -/
theorem opened {ts : Templates} (h : Populated since k kinds templates e (.create j r ts :: p)) {nodes : List Record}
    (hl : e.level? j = some l) (hid : b.usage.id = r.id) (hlists : e.Lists j b.usage)
    (ht : ∃ id, b.usage.templateId? = some id ∧ templates.get? id = some b.template)
    (hx : b.expand? b.usage.outputs = some nodes) (ho : StartOrder.resolve nodes = .ok order) :
    ∃ pushed, (e.opened j l b nodes order).agenda = pushed ++ e.agenda ∧ loud pushed = pushed ∧
      Populated since k kinds templates (e.opened j l b nodes order) (pushed ++ p) := by
  obtain ⟨env, hlevel⟩ := level?_opened e j l b nodes order
  have hnew := hlevel e.levels.size
  rw [if_pos rfl] at hnew
  have hr (i : LevelKey) : Resembles i e (e.opened j l b nodes order) := by
    intro l' hl'
    rw [hlevel, if_neg (Nat.ne_of_lt (level?_lt e i hl'))]
    exact ⟨l', hl', .refl l'⟩
  have hagenda : (e.opened j l b nodes order).agenda = creations e.levels.size (instanceLevel j l b nodes).config order ++
      [.refresh e.levels.size] ++ [.install j b.usage e.levels.size] ++ e.agenda := by
    rw [List.append_assoc]
    rfl
  have hj : Recent since k j := h.due _ List.mem_cons_self
  have hcopied : (e.opened j l b nodes order).Copied templates e.levels.size j b :=
    ⟨⟨_, hnew, rfl, rfl, hx⟩, hlists.resembles hr, ht⟩
  refine ⟨_, hagenda, ?_, ?_⟩
  · rw [loud_append, loud, filter_creations]
    rfl
  rw [List.append_assoc, List.append_assoc]
  refine h.step hr (.of_node? fun _ => rfl) (fun a ha => ?_) (fun i id n _ ha => ?_) (fun i l₁ l₂ r' _ hl₁ hl₂ hc => ?_)
    fun i l' hi hl' r' hr' hd => ?_
  · rcases List.mem_append.mp ha with ha | ha
    · obtain ⟨r', -, rfl⟩ := List.mem_map.mp ha
      exact .inr (.inr h.size)
    · rcases List.mem_cons.mp ha with rfl | ha
      · exact .inr trivial
      · rcases List.mem_cons.mp ha with rfl | ha
        · exact .inr ⟨hj, h.size, b, hcopied, rfl⟩
        · exact .inl (List.mem_cons_of_mem _ ha)
  · rw [activeKey?, hlevel] at ha
    split at ha
    · cases ha
    · exact .inl ha
  · refine hc.imp (fun hc => ?_) fun hc => ?_
    · rcases covered_cons hc with ⟨rfl, rfl⟩ | hc
      · exact .inr (.inr ⟨b.usage, e.levels.size, by simp, hid⟩)
      · refine hc.mono (fun ha => ?_) fun a ha => by simp [ha]
        rwa [activeKey?, hlevel, if_neg (Nat.ne_of_lt (level?_lt e i hl₁))]
    · rw [hlevel, if_neg (Nat.ne_of_lt (level?_lt e i hl₁))] at hl₂
      obtain rfl := Option.some.inj (hl₁.symm.trans hl₂)
      exact hc
  · rw [hlevel] at hl'
    split at hl'
    · rename_i hi'
      subst hi'
      cases hl'
      exact covered_creations (c := (instanceLevel j l b nodes).config) ho hr' hd fun a ha =>
        List.mem_append_left _ ha
    · exact absurd (level?_lt e i hl') (Nat.not_lt_of_le hi)

/-- A node is made, or is not for a reason of its own. -/
theorem create {ts : Templates} {room : Nat} (h : Populated since k kinds templates e (.create j r ts :: p))
    (hm : Makeable e k templates room j r) (hts : ts = templates) (hkinds : e.registry = kinds) (hready : Ready templates e.nextPrivate) :
    ∃ pushed, (e.create j r ts).agenda = pushed ++ e.agenda ∧
      Populated since k kinds templates (e.create j r ts) (loud pushed ++ p) := by
  subst hts
  obtain ⟨l, hl, -, hmem⟩ := hm.listed
  have hlists : e.Lists j (e.resolvedAt j r) := ⟨l, r, hl, hmem, hm.enabled, becomes_resolvedAt e j r⟩
  have hothers (i : LevelKey) (r' : Record) (hc : Covered e (.create j r ts :: p) i r') :
      (i = j ∧ r' = r) ∨ Covered e p i r' := covered_cons hc
  have hc := creates_create e j r ts
  generalize e.create j r ts = s at hc ⊢
  cases hc with
  | present ha =>
    refine ⟨[], rfl, h.skip fun i l' r' _ hc => ?_⟩
    rcases covered_cons hc with ⟨rfl, rfl⟩ | hc
    · exact .inl (.inl ha)
    · exact .inl hc
  | noTemplate _ hu ht => exact ⟨[], agenda_failCreation _ _ _ _, h.failCreation _ (.inr ⟨_, hu, ht⟩) hothers⟩
  | refused _ hu hb => exact ⟨[], agenda_failCreation _ _ _ _, h.failCreation _ (.inl ⟨hu, hb⟩) hothers⟩
  | @made part notes _ hu hb =>
    obtain ⟨pushed, hpushed, hloud, -⟩ := agenda_enter hb (e.note notes) j
    have hnote : Populated since k kinds ts (e.note notes) (.create j r ts :: p) := h.quiet (quiet_note e notes).still
    have hbacks : e.Backs kinds ts j (e.resolvedAt j r) part := by
      cases hb with
      | builtIn hb => exact .builtIn hu hb
      | ordinary hb hc => exact .ordinary hu hb (hkinds ▸ hc)
    refine ⟨pushed, hpushed, ?_⟩
    rw [hloud]
    have hsame (i : LevelKey) : Resembles i e (e.note notes) := .of_level? rfl
    refine hnote.enter (hlists.resembles hsame) (hbacks.resembles hsame) (fun i hi => ?_) fun i r' hc =>
      (hothers i r' hc).imp_left fun ⟨hi, hr⟩ => ⟨hi, hr ▸ rfl⟩
    subst hi
    cases hb with
    | builtIn hb =>
      unfold builtIn? at hb
      repeat' split at hb
      all_goals cases hb
  | usage _ hu ht ho =>
    obtain ⟨hcount, hfresh⟩ := hready _ _ ht
    obtain ⟨l', nodes, order, hl', hx, horder, rfl⟩ := hm.opened hu ht hcount hfresh ho
    obtain ⟨pushed, hpushed, hloud, hp⟩ := h.opened (b := .make _ (e.resolvedAt j r) e.nextPrivate) hl' rfl hlists
      ⟨_, hu, ht⟩ hx horder
    exact ⟨pushed, hpushed, hloud.symm ▸ hp⟩

end Populated

/-! ## Whole activations -/

variable {c : FlowConfig} {base above : List Action} {m : Engine} {steps : Nat}

/-- What is made next. -/
theorem Populated.make {a : Action} (h : Populated since k kinds c.templates e (a :: p))
    (hu : Unfolding e₀ k c steps e (a :: p)) (hkinds : e₀.registry = kinds) (hready : Ready c.templates e₀.nextPrivate) :
    ∃ pushed, (e.act a).agenda = pushed ++ e.agenda ∧ Populated since k kinds c.templates (e.act a) (loud pushed ++ p) := by
  obtain ⟨left, hp, -⟩ := hu.planned
  cases hp with
  | create hm =>
    refine h.create hm rfl ((registry_of_world hu.world).trans hkinds) fun id t ht => ?_
    obtain ⟨hcount, hfresh⟩ := hready id t ht
    exact ⟨hcount, hfresh.mono hu.nextPrivate⟩
  | install => exact ⟨[], rfl, h.install⟩
  | @refresh i => exact ⟨[], Stops.agenda (stops_refresh e i), h.refresh⟩

/-- The population of a flow grows in each step of its activation. -/
theorem Underway.populated (hready : Ready c.templates e₀.nextPrivate) (hkinds : e₀.registry = kinds) (h : Underway e₀ k c base 0 e)
    (hp : ∃ above, e.agenda = above ++ base ∧ Populated since k kinds c.templates e (loud above)) (hw : Works base e steps e') :
    ∃ above, e'.agenda = above ++ base ∧ Populated since k kinds c.templates e' (loud above) := by
  induction hw with
  | refl => exact hp
  | @quiet n m a above _ _ ha hq ih =>
    obtain ⟨above', hagenda, hpop⟩ := ih
    obtain rfl : a :: above = above' := List.append_cancel_right (ha.symm.trans hagenda)
    have hquiet := quiet_act { m with agenda := above ++ base } hq
    obtain ⟨pushed, hpushed, hall⟩ := hquiet.pushes
    rw [loud_cons_of_quiet hq] at hpop
    refine ⟨pushed ++ above, by rw [hpushed, List.append_assoc], ?_⟩
    rw [loud_append, loud_of_quiet hall]
    exact hpop.quiet hquiet.still
  | @make n m a above hw _ ha hq ih =>
    obtain ⟨above', hagenda, hpop⟩ := ih
    obtain rfl : a :: above = above' := List.append_cancel_right (ha.symm.trans hagenda)
    obtain ⟨above'', hagenda', hu, -⟩ := h.works hready hw
    obtain rfl : a :: above = above'' := List.append_cancel_right (ha.symm.trans hagenda')
    rw [loud_cons hq] at hpop hu
    obtain ⟨pushed, hpushed, hp⟩ := Populated.make (e := { m with agenda := above ++ base }) (hpop.quiet rfl)
      (hu.setAgenda (above ++ base)) hkinds hready
    refine ⟨pushed ++ above, by rw [hpushed, List.append_assoc], ?_⟩
    rw [loud_append]
    exact hp

/-- A flow whose nodes are all still to be made. -/
theorem populated_activated (hl : e.level? k = some l) (ho : StartOrder.resolve l.config.nodes = .ok order)
    (hempty : ∀ id, e.activeKey? k id = none) : Populated e.levels.size k kinds l.config.templates (e.activated k l.config order)
      (creations k l.config order ++ [.refresh k]) := by
  have hlevel (j : LevelKey) := level?_activated e k l.config order j
  have hlt {j : LevelKey} {l' : Level} (hj : Recent e.levels.size k j)
      (hl' : (e.activated k l.config order).level? j = some l') : j = k := by
    refine hj.resolve_right fun hj => ?_
    have hsize : (e.activated k l.config order).levels.size = e.levels.size := Array.size_modify
    exact absurd (level?_lt _ j hl') (Nat.not_lt_of_le (hsize ▸ hj))
  refine ⟨Nat.le_of_eq Array.size_modify.symm, fun a ha => ?_, fun j id n hj ha => ?_, fun j l' hj hl' r hr hd => ?_⟩
  · rcases List.mem_append.mp ha with ha | ha
    · obtain ⟨r, -, rfl⟩ := List.mem_map.mp ha
      exact .inl rfl
    · obtain rfl := List.mem_singleton.mp ha
      trivial
  · obtain ⟨l', hl', hget⟩ := Option.bind_eq_some_iff.mp ha
    obtain rfl := hlt hj hl'
    have hnone := hempty id
    rw [hlevel, if_pos rfl, hl] at hl'
    cases hl'
    rw [activeKey?, hl, Option.bind_some] at hnone
    rw [hnone] at hget
    cases hget
  · obtain rfl := hlt hj hl'
    rw [hlevel, if_pos rfl, hl] at hl'
    cases hl'
    exact .inl (covered_creations ho hr hd fun a ha => List.mem_append_left _ ha)

/-- A flow that has been activated, having had no nodes before: all its enabled nodes are there, and those of its copies,
unless they could not be made, and nobody else. -/
theorem activation_populates (hb : e.broken = false) (hl : e.level? k = some l)
    (hv : StartOrder.validate l.config = .ok order) (hready : Ready l.config.templates e.nextPrivate)
    (hempty : ∀ id, e.activeKey? k id = none) (hw : Works e.agenda (e.activated k l.config order) steps E)
    (hend : E.agenda = e.agenda) : Populated e.levels.size k e.registry l.config.templates E [] := by
  have hloud : loud (creations k l.config order ++ [.refresh k]) = creations k l.config order ++ [.refresh k] :=
    filter_creations _ _ _
  have hstart : ∃ above, (e.activated k l.config order).agenda = above ++ e.agenda ∧
      Populated e.levels.size k e.registry l.config.templates (e.activated k l.config order) (loud above) :=
    ⟨_, rfl, hloud.symm ▸ populated_activated hl (StartOrder.layered_validate hv).1 hempty⟩
  have hready : Ready l.config.templates (e.environed k l.config).nextPrivate := hready
  obtain ⟨above, hagenda, hp⟩ := (underway_activated hb hl hv).populated hready rfl hstart hw
  obtain rfl : above = [] := List.append_left_eq_self.mp (hagenda.symm.trans hend)
  exact hp

/-- The activation breaks nothing, leaves the registry as it is, and changes neither the configuration of the flow nor its
kind. -/
theorem activation_keeps (hb : e.broken = false) (hl : e.level? k = some l)
    (hv : StartOrder.validate l.config = .ok order) (hready : Ready l.config.templates e.nextPrivate)
    (hw : Works e.agenda (e.activated k l.config order) steps E) :
    E.broken = false ∧ E.registry = e.registry ∧
      ∃ l', E.level? k = some l' ∧ l'.config = l.config ∧ l'.kind = l.kind := by
  obtain ⟨env, henv⟩ := level?_environed hl
  have hready : Ready l.config.templates (e.environed k l.config).nextPrivate := hready
  obtain ⟨above, -, hu, -⟩ := (underway_activated hb hl hv).works hready hw
  obtain ⟨l', hl', ha⟩ := hu.resembles k _ henv
  exact ⟨hu.unbroken, registry_of_world hu.world, l', hl', ha.config, ha.kind⟩

end Engine
end Flowgraph
