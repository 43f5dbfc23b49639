import Flowgraph.Proofs.Layout
import Flowgraph.Proofs.Solo
/-! What a step leaves as it is: entries of levels, their instances, and the wiring of their nodes. -/
namespace Flowgraph.Engine

variable {kept kept' : LevelKey → NodeId → Prop} {e e' e'' : Engine} {j k : LevelKey} {id : NodeId}

theorem activeKey?_modifyLevel (e : Engine) (k : LevelKey) (f : Level → Level) (j : LevelKey) (id : NodeId) :
    (e.modifyLevel k f).activeKey? j id =
      if k = j then (e.level? j).bind fun l => (f l).active.get? id else e.activeKey? j id := by
  rw [activeKey?, level?_modifyLevel]
  split
  · cases e.level? j <;> rfl
  · rfl

theorem instance?_modifyLevel (e : Engine) (k : LevelKey) (f : Level → Level) (j : LevelKey) (id : NodeId) :
    (e.modifyLevel k f).instance? j id =
      if k = j then (e.level? j).bind fun l => (f l).instances.get? id else e.instance? j id := by
  rw [instance?, level?_modifyLevel]
  split
  · cases e.level? j <;> rfl
  · rfl

/-- A step that leaves these entries of levels and the wiring of their nodes as they are. -/
structure Spares (kept : LevelKey → NodeId → Prop) (e e' : Engine) : Prop where
  active : ∀ j id, kept j id → e'.activeKey? j id = e.activeKey? j id
  inst : ∀ j id, kept j id → e'.instance? j id = e.instance? j id
  wiring : ∀ j id n, kept j id → e.activeKey? j id = some n →
    (e'.node? n).map (·.dispatch) = (e.node? n).map (·.dispatch)

namespace Spares

theorem refl (e : Engine) : Spares kept e e := ⟨fun _ _ _ => rfl, fun _ _ _ => rfl, fun _ _ _ _ _ => rfl⟩

theorem trans (h : Spares kept e e') (h' : Spares kept e' e'') : Spares kept e e'' := by
  refine ⟨fun j id hk => (h'.active j id hk).trans (h.active j id hk),
    fun j id hk => (h'.inst j id hk).trans (h.inst j id hk), fun j id n hk hn => ?_⟩
  exact (h'.wiring j id n hk ((h.active j id hk).trans hn)).trans (h.wiring j id n hk hn)

theorem symm (h : Spares kept e e') : Spares kept e' e := by
  refine ⟨fun j id hk => (h.active j id hk).symm, fun j id hk => (h.inst j id hk).symm, fun j id n hk hn => ?_⟩
  exact (h.wiring j id n hk ((h.active j id hk).symm.trans hn)).symm

theorem mono (h : Spares kept e e') (hk : ∀ j id, kept' j id → kept j id) : Spares kept' e e' :=
  ⟨fun j id h' => h.active j id (hk j id h'), fun j id h' => h.inst j id (hk j id h'),
    fun j id n h' => h.wiring j id n (hk j id h')⟩

theorem of_nodes (hl : ∀ k, e'.level? k = e.level? k)
    (hn : ∀ n, (e'.node? n).map (·.dispatch) = (e.node? n).map (·.dispatch)) : Spares kept e e' := by
  refine ⟨fun j id _ => ?_, fun j id _ => ?_, fun _ _ n _ _ => hn n⟩
  · simp only [activeKey?, hl]
  · simp only [instance?, hl]

theorem of_still (hl : ∀ k, e'.level? k = e.level? k)
    (hn : ∀ n, (e'.node? n).map Node.still = (e.node? n).map Node.still) : Spares kept e e' := by
  refine of_nodes hl fun n => ?_
  have := congrArg (Option.map Node.dispatch) (hn n)
  simpa [Function.comp_def, Node.still] using this

theorem still (h : e'.still = e.still) : Spares kept e e' := of_still (level?_of_still h) (node?_of_still h)

theorem modifyLevel (e : Engine) {k : LevelKey} {f : Level → Level} (ha : ∀ l, e.level? k = some l → ∀ id,
      kept k id → (f l).active.get? id = l.active.get? id)
    (hi : ∀ l, e.level? k = some l → ∀ id, kept k id → (f l).instances.get? id = l.instances.get? id) :
    Spares kept e (e.modifyLevel k f) := by
  refine ⟨fun j id hk => ?_, fun j id hk => ?_, fun _ _ _ _ _ => rfl⟩
  · rw [activeKey?_modifyLevel]
    split
    · rename_i hj
      subst hj
      exact Option.bind_congr fun l hl => ha l hl id hk
    · rfl
  · rw [instance?_modifyLevel]
    split
    · rename_i hj
      subst hj
      exact Option.bind_congr fun l hl => hi l hl id hk
    · rfl

/-- A node that is not the node of any of the entries gets another wiring. -/
theorem modifyNode (e : Engine) {n : NodeKey} {f : Node → Node}
    (hn : ∀ j id, kept j id → e.activeKey? j id ≠ some n) : Spares kept e (e.modifyNode n f) := by
  refine ⟨fun _ _ _ => rfl, fun _ _ _ => rfl, fun j id m hk hm => ?_⟩
  rw [node?_modifyNode, if_neg]
  rintro rfl
  exact hn j id hk hm

end Spares

theorem Lulls.spares (h : Lulls e e') : Spares kept e e' := .of_still h.level? h.node?

theorem Lulls.grows (h : Lulls e e') : Grows e e' := by
  have hg : Grows e.uncalled e'.uncalled := .still h.still
  exact ⟨hg.level, hg.node, hg.world, hg.nextPrivate⟩

/-! ## Active nodes know where they are -/

/-- Active nodes are entered in their levels under their ids. -/
def Placed (e : Engine) : Prop := ∀ k l, e.level? k = some l →
  l.active.Sorted ∧ ∀ id n, l.active.get? id = some n → ∃ node, e.node? n = some node ∧ node.level = k ∧ node.id = id

theorem Laid.placed (h : Laid e) : Placed e := fun k l hl => ⟨(h k l hl).sortedActive, (h k l hl).active⟩

namespace Placed

theorem node (h : Placed e) {n : NodeKey} (hn : e.activeKey? j id = some n) :
    ∃ node, e.node? n = some node ∧ node.level = j ∧ node.id = id := by
  obtain ⟨l, hl, ha⟩ := Option.bind_eq_some_iff.mp hn
  exact (h j l hl).2 id n ha

theorem lt_size (h : Placed e) {n : NodeKey} (hn : e.activeKey? j id = some n) : n < e.nodes.size := by
  obtain ⟨node, hnode, -, -⟩ := h.node hn
  exact node?_lt e n hnode

theorem inj (h : Placed e) {j' : LevelKey} {id' : NodeId} {n : NodeKey} (hn : e.activeKey? j id = some n)
    (hn' : e.activeKey? j' id' = some n) : j = j' ∧ id = id' := by
  obtain ⟨node, hnode, rfl, rfl⟩ := h.node hn
  obtain ⟨node', hnode', rfl, rfl⟩ := h.node hn'
  obtain rfl := Option.some.inj (hnode.symm.trans hnode')
  exact ⟨rfl, rfl⟩

/-- Nodes leave at most. -/
theorem of_filter (h : Placed e) (hg : Grows e e') (hs : ∀ k l', e'.level? k = some l' →
    ∃ l, e.level? k = some l ∧ ∃ p, l'.active = l.active.filter p) : Placed e' := by
  intro k l' hl'
  obtain ⟨l, hl, p, hp⟩ := hs k l' hl'
  obtain ⟨hsorted, hnode⟩ := h k l hl
  refine ⟨hp ▸ hsorted.filter p, fun id n hn => ?_⟩
  rw [hp, Dict.get?_filter hsorted] at hn
  obtain ⟨node, hn, hlevel, hid⟩ := hnode id n (Option.filter_eq_some_iff.mp hn).1
  obtain ⟨node', hn', hkin⟩ := hg.node n node hn
  exact ⟨node', hn', hkin.level.trans hlevel, by rw [Node.id, hkin.record]; exact hid⟩

/-- Nobody leaves. -/
theorem of_active (h : Placed e) (hg : Grows e e')
    (ha : ∀ k, (e'.level? k).map (·.active) = (e.level? k).map (·.active)) : Placed e' := by
  refine h.of_filter hg fun k l' hl' => ?_
  have hk := ha k
  rw [hl'] at hk
  obtain ⟨l, hl, he⟩ := Option.map_eq_some_iff.mp hk.symm
  exact ⟨l, hl, fun _ => true, by rw [List.filter_true, he]⟩

theorem of_levels (h : Placed e) (hg : Grows e e') (hl : ∀ k, e'.level? k = e.level? k) : Placed e' :=
  h.of_active hg fun k => by rw [hl]

theorem still (h : Placed e) (hs : e'.still = e.still) : Placed e' := h.of_levels (.still hs) (level?_of_still hs)

theorem lulls (h : Placed e) (hl : Lulls e e') : Placed e' := h.of_levels hl.grows hl.level?

theorem stops {may : LevelKey → NodeId → Prop} (h : Placed e) (hs : StopsWithin may e e') : Placed e' := by
  refine hs.invariant (P := Placed) (fun s s' h ht => ?_) h
  have hgrows : Grows s s' := Stops.grows (StopsWithin.single ht).stops
  have hmod (k : LevelKey) {f : Level → Level} (hf : ∀ l, ∃ p, (f l).active = l.active.filter p)
      (hg : Grows s (s.modifyLevel k f)) : Placed (s.modifyLevel k f) := by
    refine h.of_filter hg fun j l' hl' => ?_
    rw [level?_modifyLevel] at hl'
    split at hl'
    · obtain ⟨l, hl, rfl⟩ := Option.map_eq_some_iff.mp hl'
      exact ⟨l, hl, hf l⟩
    · exact ⟨l', hl', fun _ => true, (List.filter_true _).symm⟩
  cases ht with
  | still hs _ => exact h.still hs
  | phase k p => exact hmod k (fun l => ⟨fun _ => true, (List.filter_true _).symm⟩) hgrows
  | receivers k rs => exact hmod k (fun l => ⟨fun _ => true, (List.filter_true _).symm⟩) hgrows
  | leave k targets _ _ => exact hmod k (fun l => ⟨_, rfl⟩) hgrows
  | cancel n => exact h.of_levels hgrows fun _ => rfl
  | forget k u _ => exact hmod k (fun l => ⟨fun _ => true, (List.filter_true _).symm⟩) hgrows

theorem rewires (h : Placed e) (hr : Rewires e e') : Placed e' := by
  refine hr.invariant (P := Placed) (fun s s' h ht => ?_) h
  have hgrows : Grows s s' := Rewires.grows (Rewires.single ht)
  cases ht with
  | note notes => exact h.of_levels hgrows fun _ => rfl
  | wires k wires => exact h.of_levels hgrows fun _ => rfl
  | nodes inst nodes _ =>
    refine h.of_active hgrows fun k => ?_
    rw [level?_modifyLevel]
    split
    · rw [Option.map_map]
      rfl
    · rfl
  | breaks => exact h.of_levels hgrows fun _ => rfl

/-- A node enters a level. -/
theorem enter (h : Placed e) (k : LevelKey) (r : Record) (part : Part) : Placed (e.enter k r part) := by
  have hg := grows_enter e k r part
  intro j l' hl'
  rw [level?_enter] at hl'
  split at hl'
  · rename_i hk
    subst hk
    obtain ⟨l, hl, rfl⟩ := Option.map_eq_some_iff.mp hl'
    obtain ⟨hsorted, hnode⟩ := h k l hl
    refine ⟨hsorted.insert _ _, fun id n hn => ?_⟩
    rw [Dict.get?_insert] at hn
    split at hn
    · rename_i hid
      cases hn
      exact ⟨_, (node?_enter e _ k r part).trans (if_pos rfl), rfl, hid⟩
    · obtain ⟨node, hn, hlevel, hid⟩ := hnode id n hn
      obtain ⟨node', hn', hkin⟩ := hg.node n node hn
      exact ⟨node', hn', hkin.level.trans hlevel, by rw [Node.id, hkin.record]; exact hid⟩
  · obtain ⟨hsorted, hnode⟩ := h j l' hl'
    refine ⟨hsorted, fun id n hn => ?_⟩
    obtain ⟨node, hn, hlevel, hid⟩ := hnode id n hn
    obtain ⟨node', hn', hkin⟩ := hg.node n node hn
    exact ⟨node', hn', hkin.level.trans hlevel, by rw [Node.id, hkin.record]; exact hid⟩

/-- Levels change in other ways, or come with nobody in them. -/
theorem of_vacant (h : Placed e) (hg : Grows e e') (hs : ∀ k l', e'.level? k = some l' →
    l'.active = [] ∨ ∃ l, e.level? k = some l ∧ l'.active = l.active) : Placed e' := by
  intro k l' hl'
  rcases hs k l' hl' with ha | ⟨l, hl, ha⟩
  · rw [ha]
    exact ⟨Dict.sorted_nil, fun id n hn => by cases hn⟩
  · obtain ⟨hsorted, hnode⟩ := h k l hl
    rw [ha]
    refine ⟨hsorted, fun id n hn => ?_⟩
    obtain ⟨node, hn, hlevel, hid⟩ := hnode id n hn
    obtain ⟨node', hn', hkin⟩ := hg.node n node hn
    exact ⟨node', hn', hkin.level.trans hlevel, by rw [Node.id, hkin.record]; exact hid⟩

theorem failCreation (h : Placed e) (k : LevelKey) (r : Record) (fault : NodeFault) :
    Placed (e.failCreation k r fault) := by
  refine h.of_active (grows_failCreation e k r fault) fun j => ?_
  rw [level?_failCreation]
  split
  · rw [Option.map_map]
    rfl
  · rfl

theorem activated (h : Placed e) (k : LevelKey) (c : FlowConfig) (order : List Nat) : Placed (e.activated k c order) := by
  refine h.of_active (grows_activated e k c order) fun j => ?_
  rw [level?_activated]
  split
  · rw [Option.map_map]
    rfl
  · rfl

theorem opens {usage : Record} {t : Template} (h : Placed e) (ho : Opens e k usage t e') : Placed e' := by
  have hnew (l : Level) (b : Binding) (nodes : List Record) : Placed (e.withInstance k l b nodes) := by
    refine h.of_vacant (grows_withInstance e k l b nodes) fun j l' hl' => ?_
    rw [level?_withInstance] at hl'
    split at hl'
    · cases hl'
      exact .inl rfl
    · exact .inr ⟨l', hl', rfl⟩
  cases ho with
  | nowhere => exact h
  | breaks => exact h.of_levels (.of_eq rfl rfl rfl rfl) fun _ => rfl
  | collapses => exact (hnew _ _ _).failCreation _ _ _
  | @opens l nodes order =>
    have hpushed : Placed ((e.withInstance k l (.make t usage e.nextPrivate) nodes).push
        [.install k usage e.levels.size]) := (hnew _ _ _).of_levels (.of_eq rfl rfl rfl rfl) fun _ => rfl
    exact hpushed.activated _ _ _

/-- Nodes are made. -/
theorem makes (h : Placed e) {a : Action} (hm : a.makes = true) : Placed (e.act a) := by
  cases a with
  | create k r templates =>
    have hcreates := creates_create e k r templates
    change Creates e k r templates (e.act (.create k r templates)) at hcreates
    generalize e.act (.create k r templates) = e' at hcreates
    cases hcreates with
    | present => exact h
    | noTemplate => exact h.failCreation _ _ _
    | refused => exact h.failCreation _ _ _
    | made => exact (h.still (quiet_note _ _).still).enter _ _ _
    | usage _ _ _ ho => exact h.opens ho
  | install k r i =>
    have hlevel : Placed (e.modifyLevel k fun l => { l with instances := l.instances.insert r.id i }) := by
      refine h.of_active (.modifyLevel _ _ _ fun _ => ⟨rfl, rfl, rfl⟩) fun j => ?_
      rw [level?_modifyLevel]
      split
      · rw [Option.map_map]
        rfl
      · rfl
    exact hlevel.enter k r (.standIn i)
  | refresh k =>
    have hs : Stops e (e.refresh k) := stops_refresh e k
    exact h.stops hs
  | _ => cases hm

end Placed

/-! ## Stops -/

theorem StopsWithin.spares (h : StopsWithin (fun j id => ¬kept j id) e e') (hp : Placed e) : Spares kept e e' := by
  have hboth : Placed e' ∧ Spares kept e e' := by
    refine h.invariant (P := fun s => Placed s ∧ Spares kept e s) (fun s s' ⟨hs, hsp⟩ ht => ?_) ⟨hp, .refl e⟩
    refine ⟨hs.stops (StopsWithin.single ht), hsp.trans ?_⟩
    cases ht with
    | still h _ => exact .still h
    | phase k p => exact .modifyLevel _ (fun _ _ _ _ => rfl) fun _ _ _ _ => rfl
    | receivers k rs => exact .modifyLevel _ (fun _ _ _ _ => rfl) fun _ _ _ _ => rfl
    | leave k targets _ hm =>
      refine .modifyLevel _ (fun l hl id hk => ?_) fun _ _ _ _ => rfl
      obtain ⟨hsorted, hnode⟩ := hs k l hl
      rw [Dict.get?_filter hsorted]
      cases hn : l.active.get? id with
      | none => rfl
      | some n =>
        obtain ⟨node, hnode, -, rfl⟩ := hnode id n hn
        have hout : n ∉ targets := fun hmem => hm n hmem node hnode hk
        simp [hout]
    | cancel n =>
      refine .of_nodes (fun _ => rfl) fun m => ?_
      rw [node?_modifyNode]
      split
      · rw [Option.map_map]
        rfl
      · rfl
    | forget k id hm =>
      refine .modifyLevel _ (fun _ _ _ _ => rfl) fun l _ id' hk => ?_
      rw [Dict.get?_erase, if_neg]
      rintro rfl
      exact hm hk
  exact hboth.2

/-- Whatever is there after some stops has been there before. -/
structure Dwindles (e e' : Engine) : Prop where
  active : ∀ j id n, e'.activeKey? j id = some n → e.activeKey? j id = some n
  inst : ∀ j id i, e'.instance? j id = some i → e.instance? j id = some i

namespace Dwindles

theorem refl (e : Engine) : Dwindles e e := ⟨fun _ _ _ h => h, fun _ _ _ h => h⟩

theorem trans (h : Dwindles e e') (h' : Dwindles e' e'') : Dwindles e e'' :=
  ⟨fun j id n hn => h.active j id n (h'.active j id n hn), fun j id i hi => h.inst j id i (h'.inst j id i hi)⟩

theorem of_levels (h : ∀ k, e'.level? k = e.level? k) : Dwindles e e' :=
  ⟨fun j id n hn => by rwa [activeKey?, h] at hn, fun j id i hi => by rwa [instance?, h] at hi⟩

theorem modifyLevel {f : Level → Level} (hf : ∀ l, e.level? k = some l →
      (∀ id n, (f l).active.get? id = some n → l.active.get? id = some n) ∧
      ∀ id i, (f l).instances.get? id = some i → l.instances.get? id = some i) : Dwindles e (e.modifyLevel k f) := by
  refine ⟨fun j id n hn => ?_, fun j id i hi => ?_⟩
  · rw [activeKey?_modifyLevel] at hn
    split at hn
    · rename_i hj
      subst hj
      obtain ⟨l, hl, hn⟩ := Option.bind_eq_some_iff.mp hn
      exact Option.bind_eq_some_iff.mpr ⟨l, hl, (hf l hl).1 id n hn⟩
    · exact hn
  · rw [instance?_modifyLevel] at hi
    split at hi
    · rename_i hj
      subst hj
      obtain ⟨l, hl, hi⟩ := Option.bind_eq_some_iff.mp hi
      exact Option.bind_eq_some_iff.mpr ⟨l, hl, (hf l hl).2 id i hi⟩
    · exact hi

theorem none_of_none (h : Dwindles e e') (hn : e.activeKey? j id = none) : e'.activeKey? j id = none := by
  cases hn' : e'.activeKey? j id with
  | none => rfl
  | some n =>
    rw [h.active j id n hn'] at hn
    cases hn

theorem instance?_of_none (h : Dwindles e e') (hi : e.instance? j id = none) : e'.instance? j id = none := by
  cases hi' : e'.instance? j id with
  | none => rfl
  | some i =>
    rw [h.inst j id i hi'] at hi
    cases hi

end Dwindles

theorem Stops.dwindles_placed (h : Stops e e') (hp : Placed e) : Dwindles e e' := by
  have hboth : Placed e' ∧ Dwindles e e' := by
    refine h.invariant (P := fun s => Placed s ∧ Dwindles e s) (fun s s' ⟨hs, hd⟩ ht => ?_) ⟨hp, .refl e⟩
    refine ⟨hs.stops (StopsWithin.single ht), hd.trans ?_⟩
    cases ht with
    | still h _ => exact .of_levels (level?_of_still h)
    | phase k p => exact .modifyLevel fun _ _ => ⟨fun _ _ h => h, fun _ _ h => h⟩
    | receivers k rs => exact .modifyLevel fun _ _ => ⟨fun _ _ h => h, fun _ _ h => h⟩
    | cancel m => exact .of_levels fun _ => rfl
    | leave k targets _ _ =>
      refine .modifyLevel fun l hlevel => ⟨fun id n hn => ?_, fun _ _ h => h⟩
      rw [Dict.get?_filter (hs k l hlevel).1] at hn
      exact (Option.filter_eq_some_iff.mp hn).1
    | forget k u _ =>
      refine .modifyLevel fun l _ => ⟨fun _ _ h => h, fun id i hi => ?_⟩
      rw [Dict.get?_erase] at hi
      split at hi
      · cases hi
      · exact hi
  exact hboth.2

theorem Stops.dwindles (h : Stops e e') (hl : Laid e) : Dwindles e e' := h.dwindles_placed hl.placed

/-- No wiring changes. -/
theorem Stops.wiring (h : Stops e e') (n : NodeKey) :
    (e'.node? n).map (·.dispatch) = (e.node? n).map (·.dispatch) := by
  refine h.invariant (P := fun s => (s.node? n).map (·.dispatch) = (e.node? n).map (·.dispatch))
    (fun s s' hs ht => ?_) rfl
  cases ht with
  | still h _ =>
    have := congrArg (Option.map Node.dispatch) (node?_of_still h n)
    exact (by simpa [Function.comp_def, Node.still] using this : _ = (s.node? n).map (·.dispatch)).trans hs
  | cancel m =>
    rw [node?_modifyNode]
    split
    · rw [Option.map_map]
      exact hs
    · exact hs
  | _ => exact hs

/-! ## New nodes -/

/-- The action makes none of these entries. -/
def Avoids (kept : LevelKey → NodeId → Prop) (e : Engine) : Action → Prop
  | .create j r _ => kept j r.id → (e.activeKey? j r.id).isSome = true
  | .install j r _ => ¬kept j r.id
  | _ => True

theorem Spares.avoids (h : Spares kept e e') {a : Action} (ha : Avoids kept e a) : Avoids kept e' a := by
  cases a with
  | create j r templates =>
    intro hk
    rw [h.active j r.id hk]
    exact ha hk
  | install j r inst => exact ha
  | _ => trivial

theorem Laid.activeKey?_lt (h : Laid e) {j : LevelKey} {id : NodeId} {n : NodeKey}
    (hn : e.activeKey? j id = some n) : n < e.nodes.size := h.placed.lt_size hn

theorem activeKey?_enter (e : Engine) (k : LevelKey) (r : Record) (part : Part) (j : LevelKey) (id : NodeId) :
    (e.enter k r part).activeKey? j id = if k = j then (e.level? j).bind fun l =>
      if r.id = id then some e.nodes.size else l.active.get? id else e.activeKey? j id := by
  rw [activeKey?, level?_enter]
  split
  · cases e.level? j with
    | none => rfl
    | some l => exact Dict.get?_insert _ _ _ _
  · rfl

theorem instance?_enter (e : Engine) (k : LevelKey) (r : Record) (part : Part) (j : LevelKey) (id : NodeId) :
    (e.enter k r part).instance? j id = e.instance? j id := by
  rw [instance?, level?_enter]
  split
  · rw [instance?]
    cases e.level? j <;> rfl
  · rfl

theorem spares_enter (hl : ∀ j id n, e.activeKey? j id = some n → n < e.nodes.size) {r : Record}
    (hk : ¬kept k r.id) (part : Part) : Spares kept e (e.enter k r part) := by
  refine ⟨fun j id hj => ?_, fun j id _ => instance?_enter e k r part j id, fun j id n hj hn => ?_⟩
  · have hne (hkj : k = j) : r.id ≠ id := by
      rintro rfl
      exact hk (hkj ▸ hj)
    rw [activeKey?_enter]
    split
    · rename_i hkj
      simp only [if_neg (hne hkj)]
      rfl
    · rfl
  · rw [node?_enter, if_neg (Nat.ne_of_lt (hl j id n hn))]

theorem spares_addLevel (hb : ∀ id, ¬kept e.levels.size id) (l : Level) : Spares kept e (e.addLevel l).1 := by
  have hne {j : LevelKey} {id : NodeId} (hj : kept j id) : j ≠ e.levels.size := by
    rintro rfl
    exact hb id hj
  refine ⟨fun j id hj => ?_, fun j id hj => ?_, fun _ _ _ _ _ => rfl⟩
  · rw [activeKey?, activeKey?, level?_addLevel, if_neg (hne hj)]
  · rw [instance?, instance?, level?_addLevel, if_neg (hne hj)]

theorem spares_activated (e : Engine) (k : LevelKey) (c : FlowConfig) (order : List Nat) :
    Spares kept e (e.activated k c order) := by
  have h : Spares kept e (e.modifyLevel k fun l => { l with env := Scope.evaluate (e.settingAround k) c.env }) :=
    .modifyLevel _ (fun _ _ _ _ => rfl) fun _ _ _ _ => rfl
  exact h.trans (.of_nodes (fun _ => rfl) fun _ => rfl)

theorem spares_failCreation (e : Engine) (k : LevelKey) (r : Record) (fault : NodeFault) :
    Spares kept e (e.failCreation k r fault) := by
  unfold failCreation
  split
  · exact .refl e
  · exact (Spares.still (quiet_publish _ _).still).trans
      (.modifyLevel _ (fun _ _ _ _ => rfl) fun _ _ _ _ => rfl)

theorem spares_withInstance (hb : ∀ id, ¬kept e.levels.size id) (k : LevelKey) (l : Level) (b : Binding)
    (nodes : List Record) : Spares kept e (e.withInstance k l b nodes) := by
  have h : Spares kept e { e with nextPrivate := e.nextPrivate + Binding.idsNeeded b.template } :=
    .of_nodes (fun _ => rfl) fun _ => rfl
  exact h.trans (spares_addLevel (e := { e with nextPrivate := e.nextPrivate + Binding.idsNeeded b.template })
    hb _)

theorem Opens.spares {usage : Record} {t : Template} (h : Opens e k usage t e')
    (hb : ∀ id, ¬kept e.levels.size id) (hu : ¬kept k usage.id) :
    Spares kept e e' ∧ ∀ a ∈ e'.plan, a ∈ e.plan ∨ Avoids kept e' a := by
  cases h with
  | nowhere => exact ⟨.refl e, fun a ha => .inl ha⟩
  | breaks => exact ⟨.of_nodes (fun _ => rfl) fun _ => rfl, by simp [plan]⟩
  | collapses =>
    refine ⟨(spares_withInstance hb _ _ _ _).trans (spares_failCreation _ _ _ _), fun a ha => .inl ?_⟩
    rwa [plan_failCreation] at ha
  | @opens l nodes order hl hx ho =>
    refine ⟨Spares.trans ?_ (spares_activated ((e.withInstance k l (.make t usage e.nextPrivate) nodes).push
      [.install k usage e.levels.size]) _ _ _), fun a hm => ?_⟩
    · exact (spares_withInstance hb _ _ _ _).trans (.of_nodes (fun _ => rfl) fun _ => rfl)
    unfold opened at hm
    rw [plan_activated, plan_push] at hm
    rcases List.mem_append.mp hm with hm | hm
    · rcases List.mem_append.mp hm with hm | hm
      · obtain ⟨r, -, rfl⟩ := mem_creations hm
        exact .inr fun hk => absurd hk (hb _)
      · obtain rfl := List.mem_singleton.mp hm
        exact .inr trivial
    · rcases List.mem_append.mp hm with hm | hm
      · obtain rfl := List.mem_singleton.mp hm
        exact .inr hu
      · exact .inl hm

theorem Creates.spares {r : Record} {templates : Templates} (h : Creates e k r templates e') (hp : Placed e)
    (hb : ∀ id, ¬kept e.levels.size id) (ha : Avoids kept e (.create k r templates)) :
    Spares kept e e' ∧ ∀ a ∈ e'.plan, a ∈ e.plan ∨ Avoids kept e' a := by
  have hnew (hn : e.activeKey? k r.id = none) : ¬kept k r.id := by
    intro hk
    have := ha hk
    rw [hn] at this
    cases this
  cases h with
  | present => exact ⟨.refl e, fun a ha => .inl ha⟩
  | noTemplate => exact ⟨spares_failCreation _ _ _ _, fun a ha => .inl (by rwa [plan_failCreation] at ha)⟩
  | refused => exact ⟨spares_failCreation _ _ _ _, fun a ha => .inl (by rwa [plan_failCreation] at ha)⟩
  | @made part notes hn hu _ =>
    have hnote : Placed (e.note notes) := hp.still (quiet_note _ _).still
    have henter := spares_enter (fun _ _ _ => hnote.lt_size) (r := e.resolvedAt k r) (hnew hn) part
    refine ⟨(Spares.still (quiet_note _ _).still).trans henter, fun a hm => .inl ?_⟩
    rwa [plan_enter] at hm
  | usage hn hu ht ho => exact ho.spares hb (hnew hn)

theorem grows_makes {a : Action} (hm : a.makes = true) : Grows e (e.act a) := by
  cases a with
  | create i r templates => exact (creates_create _ _ _ _).grows
  | install i r inst => exact grows_install _ _ _ _
  | refresh i => exact grows_refresh _ _
  | _ => cases hm

/-- The making of nodes spares entries that none of the actions makes. -/
theorem spares_makes (hp : Placed e) (hb : ∀ id, ¬kept e.levels.size id) {a : Action} (ha : Avoids kept e a)
    (hm : a.makes = true) :
    Spares kept e (e.act a) ∧ ∀ b ∈ (e.act a).plan, b ∈ e.plan ∨ Avoids kept (e.act a) b := by
  cases a with
  | create k r templates => exact (creates_create e k r templates).spares hp hb ha
  | install k r i =>
    have hne {id : NodeId} (hid : kept k id) : r.id ≠ id := by
      rintro rfl
      exact ha hid
    have hlevel : Spares kept e (e.modifyLevel k fun l => { l with instances := l.instances.insert r.id i }) :=
      .modifyLevel _ (fun _ _ _ _ => rfl) fun l _ id hid =>
        (Dict.get?_insert _ _ _ _).trans (if_neg (hne hid))
    have hactive (j : LevelKey) (id : NodeId) : (e.modifyLevel k fun l =>
        { l with instances := l.instances.insert r.id i }).activeKey? j id = e.activeKey? j id := by
      rw [activeKey?, activeKey?, level?_modifyLevel]
      split
      · cases e.level? j <;> rfl
      · rfl
    have hsize (j : LevelKey) (id : NodeId) (n : NodeKey) (hn : (e.modifyLevel k fun l =>
        { l with instances := l.instances.insert r.id i }).activeKey? j id = some n) : n < e.nodes.size :=
      hp.lt_size ((hactive j id).symm.trans hn)
    refine ⟨hlevel.trans (spares_enter hsize ha (.standIn i)), fun b hb => .inl ?_⟩
    change b ∈ (install e k r i).plan at hb
    unfold install at hb
    rwa [plan_enter] at hb
  | refresh k =>
    have hs : StopsWithin (fun j id => ¬kept j id) e (e.refresh k) := stops_refresh e k
    refine ⟨hs.spares hp, fun b hb => .inl ?_⟩
    change b ∈ (e.refresh k).plan at hb
    unfold plan at hb
    rwa [Stops.agenda hs.stops] at hb
  | _ => cases hm

/-! ## Rewiring -/

/-- Rewiring leaves levels with the same nodes and instances. -/
theorem Rewires.entries (h : Rewires e e') (j : LevelKey) (id : NodeId) :
    e'.activeKey? j id = e.activeKey? j id ∧ e'.instance? j id = e.instance? j id := by
  refine h.invariant (P := fun s => s.activeKey? j id = e.activeKey? j id ∧ s.instance? j id = e.instance? j id)
    (fun s s' hs ht => ?_) ⟨rfl, rfl⟩
  cases ht with
  | nodes inst nodes _ =>
    have hl : Spares (fun _ _ => True) s
        (s.modifyLevel inst fun l => { l with config := { l.config with nodes } }) :=
      .modifyLevel _ (fun _ _ _ _ => rfl) fun _ _ _ _ => rfl
    exact ⟨(hl.active j id trivial).trans hs.1, (hl.inst j id trivial).trans hs.2⟩
  | _ => exact hs

theorem Laid.activeKey?_inj (h : Laid e) {j j' : LevelKey} {id id' : NodeId} {n : NodeKey}
    (hn : e.activeKey? j id = some n) (hn' : e.activeKey? j' id' = some n) : j = j' ∧ id = id' :=
  h.placed.inj hn hn'

theorem node?_updateWires (e : Engine) (k : NodeKey) (wires : Wires) (n : NodeKey) :
    (e.updateWires k wires).node? n =
      if k = n then (e.node? n).map fun n => { n with dispatch := .ofWires wires } else e.node? n := by
  have h := node?_modifyNode e n k fun n => { n with dispatch := .ofWires wires }
  unfold updateWires
  dsimp only
  split <;> exact h

theorem wiring_updateWires {n : NodeKey} (hn : n < e.nodes.size) (wires : Wires) :
    ((e.updateWires n wires).node? n).map (·.dispatch.toWires) = some wires := by
  obtain ⟨node, hnode⟩ : ∃ node, e.node? n = some node := ⟨_, Array.getElem?_eq_getElem hn⟩
  rw [node?_updateWires, if_pos rfl, hnode]
  exact congrArg some (Dispatch.toWires_ofWires wires)

theorem spares_updateWires {n : NodeKey} (hn : ∀ j id, kept j id → e.activeKey? j id ≠ some n) (wires : Wires) :
    Spares kept e (e.updateWires n wires) := by
  have h : Spares kept e (e.modifyNode n fun n => { n with dispatch := .ofWires wires }) := .modifyNode e hn
  unfold updateWires
  dsimp only
  split
  · exact h.trans (.still (quiet_note _ _).still)
  · exact h

theorem spares_rewireNode (hp : Placed e) {inst : LevelKey} {r : Record} (hi : ¬kept inst r.id) :
    Spares kept e (e.rewireNode inst r) := by
  unfold rewireNode
  split
  · exact .refl e
  · rename_i n hn
    split
    · exact .refl e
    · refine spares_updateWires (fun j id hk hj => ?_) _
      obtain ⟨rfl, rfl⟩ := hp.inj hj hn
      exact hi hk

theorem spares_rewireNodes (hp : Placed e) {inst : LevelKey} {rs : List Record} (hi : ∀ r ∈ rs, ¬kept inst r.id) :
    Spares kept e (rs.foldl (rewireNode inst) e) := by
  induction rs generalizing e with
  | nil => exact .refl e
  | cons r rs ih =>
    exact (spares_rewireNode hp (hi r List.mem_cons_self)).trans
      (ih (hp.rewires (rewires_rewireNode inst e r)) fun r' hr => hi r' (List.mem_cons_of_mem _ hr))

/-- The wiring of an instance leaves the entries of all other levels as they are. -/
theorem spares_rewireInstance (hp : Placed e) {inst : LevelKey} (hi : ∀ id, ¬kept inst id) (outer : Wires) :
    Spares kept e (e.rewireInstance inst outer) := by
  cases hb : e.binding? inst with
  | none =>
    unfold rewireInstance
    rw [hb]
    exact .refl e
  | some b =>
    cases hx : b.expand? outer with
    | none =>
      unfold rewireInstance
      rw [hb]
      dsimp only
      rw [hx]
      exact .of_nodes (fun _ => rfl) fun _ => rfl
    | some nodes =>
      rw [rewireInstance_eq hb hx]
      exact (spares_rewireNodes hp fun r _ => hi r.id).trans (.modifyLevel _ (fun _ _ _ _ => rfl) fun _ _ _ _ => rfl)

theorem spares_rewireOne (hp : Placed e) {config : FlowConfig} {id : NodeId} (hk : ¬kept k id)
    (hi : ∀ inst, e.instance? k id = some inst → ∀ id', ¬kept inst id') :
    Spares kept e (e.rewireOne k config id) := by
  unfold rewireOne
  split
  · rename_i r n hr hn
    have hwires (s : Engine) (hs : Placed s) (ha : s.activeKey? k id = some n) :
        Spares kept s (s.updateWires n r.outputs) := by
      refine spares_updateWires (fun j id' hj hn' => ?_) _
      obtain ⟨rfl, rfl⟩ := hs.inj hn' ha
      exact hk hj
    split
    · rename_i inst hinst
      have hrew := rewires_rewireInstance e inst r.outputs
      refine (spares_rewireInstance hp (hi inst hinst) r.outputs).trans (hwires _ (hp.rewires hrew) ?_)
      exact (Rewires.entries hrew k id).1.trans hn
    · exact hwires e hp hn
  · exact .refl e

/-- The wiring of some nodes of a level leaves everything else as it is. -/
theorem spares_rewireAll (hp : Placed e) {config : FlowConfig} {ids : List NodeId}
    (hk : ∀ id ∈ ids, (config.node? id).isSome = true → ¬kept k id)
    (hi : ∀ id ∈ ids, (config.node? id).isSome = true → ∀ inst, e.instance? k id = some inst → ∀ id', ¬kept inst id') :
    Spares kept e (ids.foldl (rewireOne k config) e) := by
  induction ids generalizing e with
  | nil => exact .refl e
  | cons id ids ih =>
    have hstep := rewires_rewireOne k config e id
    have hrest := ih (hp.rewires hstep) (fun id' h => hk id' (List.mem_cons_of_mem _ h)) fun id' h hc inst hinst =>
      hi id' (List.mem_cons_of_mem _ h) hc inst ((Rewires.entries hstep k id').2.symm.trans hinst)
    refine Spares.trans ?_ hrest
    cases hc : config.node? id with
    | none =>
      unfold rewireOne
      rw [hc]
      exact .refl e
    | some r =>
      have hsome : (config.node? id).isSome = true := by rw [hc]; rfl
      exact spares_rewireOne hp (hk id List.mem_cons_self hsome) (hi id List.mem_cons_self hsome)

end Flowgraph.Engine
