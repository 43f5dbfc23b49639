import Flowgraph.Proofs.Beside
import Flowgraph.Proofs.Refusals
import Flowgraph.Proofs.Renaming
import Flowgraph.Proofs.Stock
/-! A sound flow always unfolds. Its activation makes no more nodes than the templates inside each other call for,
its instances are nested no deeper than there are templates, and whatever cannot be made fails for a reason of
its own: no instance collapses. -/
namespace Flowgraph

/-! ## How much a node leads to -/

/-- What records add up to. -/
def total (f : Record → Nat) : List Record → Nat
  | [] => 0
  | r :: rs => f r + total f rs

theorem total_append (f : Record → Nat) (rs rs' : List Record) : total f (rs ++ rs') = total f rs + total f rs' := by
  induction rs with
  | nil => exact (Nat.zero_add _).symm
  | cons r rs ih => rw [List.cons_append, total, total, ih, Nat.add_assoc]

theorem total_map (f : Record → Nat) (g : Record → Record) (hg : ∀ r, f (g r) = f r) (rs : List Record) :
    total f (rs.map g) = total f rs := by
  induction rs with
  | nil => rfl
  | cons r rs ih => rw [List.map_cons, total, total, hg, ih]

theorem total_perm {f : Record → Nat} {rs rs' : List Record} (h : rs.Perm rs') : total f rs = total f rs' := by
  induction h with
  | nil => rfl
  | cons r _ ih => rw [total, total, ih]
  | swap r r' rs => exact Nat.add_left_comm _ _ _
  | trans _ _ ih ih' => exact ih.trans ih'

theorem total_le_of_sublist {f : Record → Nat} {rs rs' : List Record} (h : rs.Sublist rs') : total f rs ≤ total f rs' := by
  induction h with
  | slnil => exact Nat.le_refl _
  | cons r _ ih => exact Nat.le_trans ih (Nat.le_add_left _ _)
  | cons_cons r _ ih => exact Nat.add_le_add_left ih _

/-- The steps that the making of a node takes at most, with all that is inside it up to a depth: for a usage node
those of its template, of the nodes of the engine in the instance, of its table and of the node itself. -/
def effort (templates : Templates) : (depth : Nat) → Record → Nat
  | 0, _ => 1
  | depth + 1, r =>
    match r.templateId?.bind templates.get? with
    | none => 1
    | some t => total (effort templates depth) t.nodes + 6

/-- The steps of an activation. -/
def FlowConfig.effort (c : FlowConfig) : Nat :=
  total (Flowgraph.effort c.templates c.templates.length) c.nodes + 1

variable {templates : Templates} {depth : Nat} {t : Template} {usage r : Record} {next : Nat} {outer : Wires}
  {nodes : List Record}

theorem effort_pos (templates : Templates) (depth : Nat) (r : Record) : 0 < effort templates depth r := by
  cases depth with
  | zero => exact Nat.one_pos
  | succ depth =>
    unfold effort
    split
    · exact Nat.one_pos
    · exact Nat.succ_pos _

theorem effort_of_none (h : r.templateId? = none) : effort templates depth r = 1 := by
  cases depth with
  | zero => rfl
  | succ depth =>
    rw [effort, h]
    rfl

theorem effort_usage {id : String} (hu : r.templateId? = some id) (ht : templates.get? id = some t) :
    effort templates (depth + 1) r = total (effort templates depth) t.nodes + 6 := by
  rw [effort, hu, Option.bind_some, ht]

/-- Only the type of a node counts. -/
theorem effort_congr {r' : Record} (h : r'.type = r.type) : effort templates depth r' = effort templates depth r := by
  have ht : r'.templateId? = r.templateId? := by
    rw [Record.templateId?, Record.templateId?, h]
  cases depth with
  | zero => rfl
  | succ depth => rw [effort, effort, ht]

theorem filterMap_range (nodes : List Record) :
    ((List.range nodes.length).filterMap fun pos => nodes[pos]?) = nodes := by
  induction nodes using List.reverseRecOn with
  | nil => rfl
  | append_singleton nodes r ih =>
    have hfront : ((List.range nodes.length).filterMap fun pos => (nodes ++ [r])[pos]?) = nodes := by
      refine Eq.trans (List.filterMap_congr fun pos hpos => ?_) ih
      exact List.getElem?_append_left (List.mem_range.mp hpos)
    rw [List.length_append, List.length_singleton, List.range_succ, List.filterMap_append, hfront]
    simp

/-- The nodes of an order without repeats add up to no more than all nodes. -/
theorem total_filterMap_le {order : List Nat} (hnodup : order.Nodup) (hin : ∀ pos ∈ order, pos < nodes.length)
    (f : Record → Nat) : total f (order.filterMap fun pos => nodes[pos]?) ≤ total f nodes := by
  obtain ⟨chosen, hperm, hsub⟩ := List.subperm_of_subset hnodup fun pos hp => List.mem_range.mpr (hin pos hp)
  calc total f (order.filterMap fun pos => nodes[pos]?)
      = total f (chosen.filterMap fun pos => nodes[pos]?) := total_perm (hperm.symm.filterMap _)
    _ ≤ total f ((List.range nodes.length).filterMap fun pos => nodes[pos]?) := total_le_of_sublist (hsub.filterMap _)
    _ = total f nodes := by rw [filterMap_range]

/-! ## Nodes of the engine -/

theorem templateId?_internal (h : isInternalType r.type = true) : r.templateId? = none := by
  simp only [isInternalType, Bool.or_eq_true, beq_iff_eq] at h
  unfold Record.templateId?
  rcases h with (h | h) | h <;> rw [h] <;> rfl

namespace Binding

/-- The nodes of an instance use what the template uses. -/
theorem usesOnly_expand? {ids : List String} (h : (Binding.make t usage next).expand? outer = some nodes)
    (hu : StartOrder.UsesOnly templates t.nodes ids) : StartOrder.UsesOnly templates nodes ids := by
  intro r' hr' hd id t' hid ht'
  obtain ⟨pos, hpos⟩ := List.mem_iff_getElem?.mp hr'
  cases stands_expand? h hpos with
  | internal _ _ _ type =>
    rw [templateId?_internal type] at hid
    cases hid
  | @copied r hr bare _ =>
    have htype : r'.templateId? = ((Binding.make t usage next).copy r).templateId? :=
      eq_of_bare Record.templateId? (fun _ => rfl) bare
    exact hu r (List.mem_of_getElem? hr) ((disabled_of_bare bare).symm.trans hd) id t' (htype.symm.trans hid) ht'

/-- An instance has three nodes more than its template at most. -/
theorem total_effort_expand? (templates : Templates) (depth : Nat)
    (h : (Binding.make t usage next).expand? outer = some nodes) :
    total (effort templates depth) nodes ≤ total (effort templates depth) t.nodes + 3 := by
  have hbare (rs : List Record) : total (effort templates depth) (rs.map Record.bare) = total (effort templates depth) rs :=
    total_map _ Record.bare (fun _ => effort_congr rfl) rs
  have hsink (sink : Option NodeId) (type : String) (ht : isInternalType type = true) :
      total (effort templates depth) (sink.toList.map fun id => (Binding.make t usage next).internal id type []) ≤ 1 := by
    cases sink with
    | none => exact Nat.zero_le _
    | some id => exact Nat.le_of_eq (effort_of_none (templateId?_internal ht))
  have hinput : effort templates depth ((Binding.make t usage next).internal (Binding.make t usage next).input inputType []) = 1 :=
    effort_of_none (templateId?_internal rfl)
  have hstatus := hsink (Binding.make t usage next).statusSink statusSinkType rfl
  have hcomplete := hsink (Binding.make t usage next).completeSink completeSinkType rfl
  rw [← hbare nodes, expand?_bare (fitting_make t usage next) h, hbare]
  unfold members
  rw [total_append, total_append, total_append, total_map _ (Binding.make t usage next).copy (fun _ => effort_congr rfl),
    total, total, hinput]
  change total (effort templates depth) t.nodes + _ ≤ _
  omega

end Binding

/-! ## Reasons -/

/-- Why a node cannot be made, apart from what is inside it: its template does not exist, or its kind refuses it. -/
inductive Blamed (kinds : Registry) (templates : Templates) (r : Record) : NodeFault → Prop
  | missing {id : String} (hu : r.templateId? = some id) (ht : templates.get? id = none) :
      Blamed kinds templates r (.construction ("Unknown subflow template: " ++ id))
  | refused {fault : NodeFault} (lookup : Lookup) (hu : r.templateId? = none)
      (hr : kinds.create (Scope.resolveRecord lookup r) = .error fault) : Blamed kinds templates r fault

/-- Kinds whose nodes do nothing when they start. -/
def Registry.Idle (kinds : Registry) : Prop :=
  ∀ r b notes, kinds.create r = .ok (b, notes) → b.onStart = []

/-- Such are the kinds that are always at hand. -/
theorem Registry.idle_standard : Registry.standard.Idle := fun _ _ _ h => (Registry.stock_standard h).onStart_eq_nil

namespace Engine

variable {e e' e₀ m : Engine} {i j k inst : LevelKey} {base p : List Action} {n n' room : Nat} {c : FlowConfig}

/-! ## Levels inside each other -/

/-- A level lies so many levels inside another. -/
inductive Nested (e : Engine) (k : LevelKey) : Nat → LevelKey → Prop
  | here : Nested e k 0 k
  | deeper {depth : Nat} {i j : LevelKey} {l : Level} (h : Nested e k depth i) (hl : e.level? j = some l)
      (hp : l.parent = some i) : Nested e k (depth + 1) j

theorem Nested.resembles (h : Nested e k n j) (hr : ∀ i, Resembles i e e') : Nested e' k n j := by
  induction h with
  | here => exact .here
  | deeper _ hl hp ih =>
    obtain ⟨l', hl', ha⟩ := hr _ _ hl
    exact .deeper ih hl' (ha.parent.trans hp)

/-- What holds in the course of an activation: nothing is broken, the new levels are nested no deeper than there are
templates, and whatever has failed since has a reason of its own. -/
structure Unfolds (e₀ : Engine) (k : LevelKey) (templates : Templates) (e : Engine) : Prop where
  unbroken : e.broken = false
  nested : ∀ j l, e₀.levels.size ≤ j → e.level? j = some l → ∃ depth ≤ templates.length, Nested e k depth j
  blamed : ∀ j l, e.level? j = some l → ∀ id fault, l.failures.get? id = some fault →
    (∃ l₀, e₀.level? j = some l₀ ∧ l₀.failures.get? id = some fault) ∨
    ∃ r ∈ l.config.nodes, r.id = id ∧ Blamed e₀.registry templates r fault

/-- A step that makes something of a flow, or nothing. -/
structure Furthers (k : LevelKey) (templates : Templates) (e e' : Engine) : Prop extends Unfolds e k templates e' where
  resembles : ∀ i, Resembles i e e'
  world : e'.world = e.world
  nextPrivate : e.nextPrivate ≤ e'.nextPrivate
  active : ∀ j id, (e.activeKey? j id).isSome = true → (e'.activeKey? j id).isSome = true

theorem size_le_of_resembles (h : ∀ i, Resembles i e e') : e.levels.size ≤ e'.levels.size := by
  by_contra hlt
  have hlt := Nat.lt_of_not_le hlt
  obtain ⟨l', hl', -⟩ := h e'.levels.size _ (Array.getElem?_eq_getElem hlt)
  exact Nat.lt_irrefl _ (level?_lt e' _ hl')

theorem registry_of_world (h : e'.world = e.world) : e'.registry = e.registry := congrArg (·.1) h

namespace Furthers

theorem trans (h : Furthers k templates e m) (h' : Furthers k templates m e') : Furthers k templates e e' := by
  refine ⟨⟨h'.unbroken, fun j l hj hl => ?_, fun j l hl id fault hf => ?_⟩, fun i => (h.resembles i).trans (h'.resembles i),
    h'.world.trans h.world, Nat.le_trans h.nextPrivate h'.nextPrivate, fun j id ha => h'.active j id (h.active j id ha)⟩
  · by_cases hm : m.levels.size ≤ j
    · exact h'.nested j l hm hl
    · have hlt := Nat.lt_of_not_le hm
      obtain ⟨depth, hd, hn⟩ := h.nested j m.levels[j] hj (Array.getElem?_eq_getElem hlt)
      exact ⟨depth, hd, hn.resembles h'.resembles⟩
  · rcases h'.blamed j l hl id fault hf with ⟨l₁, hl₁, hf₁⟩ | hb
    · rcases h.blamed j l₁ hl₁ id fault hf₁ with hold | ⟨r, hr, hid, hb⟩
      · exact .inl hold
      · obtain ⟨l', hl', ha⟩ := h'.resembles j l₁ hl₁
        obtain rfl := Option.some.inj (hl.symm.trans hl')
        exact .inr ⟨r, ha.config ▸ hr, hid, hb⟩
    · rw [registry_of_world h.world] at hb
      exact .inr hb

/-- A step that leaves levels and their failures as they are, up to new entries. -/
theorem of_levels (hb : e'.broken = false) (hg : Grows e e')
    (hr : ∀ j l', e'.level? j = some l' → ∃ l, e.level? j = some l ∧ Level.Alike l l' ∧
      (∀ id fault, l'.failures.get? id = some fault → l.failures.get? id = some fault) ∧
      ∀ id, (l.active.get? id).isSome = true → (l'.active.get? id).isSome = true)
    (hs : ∀ i, Resembles i e e') : Furthers k templates e e' := by
  refine ⟨⟨hb, fun j l hj hl => ?_, fun j l hl id fault hf => ?_⟩, hs, hg.world, hg.nextPrivate, fun j id ha => ?_⟩
  · obtain ⟨l', hl', -⟩ := hr j l hl
    exact absurd (level?_lt e j hl') (Nat.not_lt_of_le hj)
  · obtain ⟨l₀, hl₀, -, hf₀, -⟩ := hr j l hl
    exact .inl ⟨l₀, hl₀, hf₀ id fault hf⟩
  · obtain ⟨n, hn⟩ := Option.isSome_iff_exists.mp ha
    obtain ⟨l, hl, hn⟩ := Option.bind_eq_some_iff.mp hn
    obtain ⟨l', hl', -⟩ := hs j l hl
    obtain ⟨l₁, hl₁, -, -, hact⟩ := hr j l' hl'
    obtain rfl := Option.some.inj (hl.symm.trans hl₁)
    rw [activeKey?, hl', Option.bind_some]
    exact hact id (by rw [hn]; rfl)

theorem of_level? (hb : e'.broken = false) (hg : Grows e e') (hl : ∀ j, e'.level? j = e.level? j) :
    Furthers k templates e e' :=
  of_levels hb hg (fun j l' hl' => ⟨l', (hl j).symm.trans hl', .refl l', fun _ _ h => h, fun _ h => h⟩)
    fun i => .of_level? (hl i)

theorem quiet (h : Quiet e e') (hb : e.broken = false) : Furthers k templates e e' :=
  of_level? ((broken_of_still h.still).trans hb) h.grows (level?_of_still h.still)

theorem enter (hb : e.broken = false) (j : LevelKey) (r : Record) (part : Part) :
    Furthers k templates e (e.enter j r part) := by
  refine of_levels ?_ (grows_enter e j r part) (fun i l' hl' => ?_) fun i => resembles_enter e j r part
  · unfold Engine.enter
    cases part <;> exact hb
  · rw [level?_enter] at hl'
    split at hl'
    · obtain ⟨l, hl, rfl⟩ := Option.map_eq_some_iff.mp hl'
      refine ⟨l, hl, ⟨⟨rfl, rfl, rfl⟩, rfl, rfl⟩, fun id fault hf => ?_, fun id ha => ?_⟩
      · dsimp only at hf
        rw [Dict.get?_erase] at hf
        split at hf
        · cases hf
        · exact hf
      · dsimp only
        rw [Dict.get?_insert]
        split
        · rfl
        · exact ha
    · exact ⟨l', hl', .refl l', fun _ _ h => h, fun _ h => h⟩

theorem install (hb : e.broken = false) (j : LevelKey) (r : Record) (inst : LevelKey) :
    Furthers k templates e (e.install j r inst) := by
  have hm : Furthers k templates e
      (e.modifyLevel j fun l => { l with instances := l.instances.insert r.id inst }) := by
    refine of_levels hb (.modifyLevel _ _ _ fun _ => ⟨rfl, rfl, rfl⟩) (fun i l' hl' => ?_)
      fun i => .modifyLevel _ _ fun _ _ => ⟨⟨rfl, rfl, rfl⟩, rfl, rfl⟩
    rw [level?_modifyLevel] at hl'
    split at hl'
    · obtain ⟨l, hl, rfl⟩ := Option.map_eq_some_iff.mp hl'
      exact ⟨l, hl, ⟨⟨rfl, rfl, rfl⟩, rfl, rfl⟩, fun _ _ h => h, fun _ h => h⟩
    · exact ⟨l', hl', .refl l', fun _ _ h => h, fun _ h => h⟩
  exact hm.trans (enter hm.unbroken j r (.standIn inst))

theorem refresh (hb : e.broken = false) (j : LevelKey) : Furthers k templates e (e.refresh j) := by
  refine of_levels ?_ (grows_refresh e j) (fun i l' hl' => ?_) fun i => resembles_makes (a := .refresh j) rfl
  · unfold Engine.refresh
    split <;> exact hb
  · obtain ⟨rs, hrs⟩ := level?_refresh e i j
    rw [hrs] at hl'
    split at hl'
    · obtain ⟨l, hl, rfl⟩ := Option.map_eq_some_iff.mp hl'
      exact ⟨l, hl, ⟨⟨rfl, rfl, rfl⟩, rfl, rfl⟩, fun _ _ h => h, fun _ h => h⟩
    · exact ⟨l', hl', .refl l', fun _ _ h => h, fun _ h => h⟩

/-- A node that cannot be made for a reason of its own. -/
theorem failCreation (hb : e.broken = false) {l : Level} (hl : e.level? j = some l) {r : Record}
    (hr : r ∈ l.config.nodes) {fault : NodeFault} (hblame : Blamed e.registry templates r fault) :
    Furthers k templates e (e.failCreation j r fault) := by
  have hlevel (i : LevelKey) := level?_failCreation e i j r fault
  refine ⟨⟨?_, fun i l' hi hl' => ?_, fun i l' hl' id fault' hf => ?_⟩, fun i => resembles_failCreation e j r fault,
    (grows_failCreation e j r fault).world, (grows_failCreation e j r fault).nextPrivate, fun i id ha => ?_⟩
  · unfold Engine.failCreation
    rw [hl]
    exact (broken_of_still (quiet_publish _ _).still).trans hb
  · rw [hlevel] at hl'
    split at hl'
    · obtain ⟨l₀, hl₀, -⟩ := Option.map_eq_some_iff.mp hl'
      exact absurd (level?_lt e i hl₀) (Nat.not_lt_of_le hi)
    · exact absurd (level?_lt e i hl') (Nat.not_lt_of_le hi)
  · rw [hlevel] at hl'
    split at hl'
    · rename_i hi
      subst hi
      rw [hl] at hl'
      cases hl'
      dsimp only at hf
      rw [Dict.get?_insert] at hf
      split at hf
      · rename_i hid
        cases hf
        exact .inr ⟨r, hr, hid, hblame⟩
      · exact .inl ⟨l, hl, hf⟩
    · exact .inl ⟨l', hl', hf⟩
  · have hactive : (e.failCreation j r fault).activeKey? i id = e.activeKey? i id := by
      rw [activeKey?, hlevel]
      split
      · rw [activeKey?]
        cases e.level? i <;> rfl
      · rfl
    rwa [hactive]

/-- The level of an instance comes into being, one deeper than that of its usage node. -/
theorem opened (hb : e.broken = false) (l : Level) (b : Binding) (nodes : List Record) (order : List Nat) {depth : Nat} (hn : Nested e k depth j) (hd : depth < templates.length) :
    Furthers k templates e (e.opened j l b nodes order) := by
  obtain ⟨env, hlevel⟩ := level?_opened e j l b nodes order
  have hs (i : LevelKey) : Resembles i e (e.opened j l b nodes order) := by
    intro l' hl'
    rw [hlevel, if_neg (Nat.ne_of_lt (level?_lt e i hl'))]
    exact ⟨l', hl', .refl l'⟩
  have hgrows : Grows e (e.opened j l b nodes order) := by
    refine Grows.trans ?_ (grows_activated _ _ _ _)
    exact (grows_withInstance _ _ _ _ _).trans (.of_eq rfl rfl rfl rfl)
  refine ⟨⟨hb, fun i l' hi hl' => ?_, fun i l' hl' id fault hf => ?_⟩, hs, hgrows.world, hgrows.nextPrivate,
    fun i id ha => ?_⟩
  · rw [hlevel] at hl'
    split at hl'
    · rename_i hnew
      have hi' := hlevel i
      rw [if_pos hnew] at hi'
      exact ⟨depth + 1, hd, .deeper (hn.resembles hs) hi' rfl⟩
    · exact absurd (level?_lt e i hl') (Nat.not_lt_of_le hi)
  · rw [hlevel] at hl'
    split at hl'
    · cases hl'
      cases hf
    · exact .inl ⟨l', hl', hf⟩
  · obtain ⟨n, hn'⟩ := Option.isSome_iff_exists.mp ha
    obtain ⟨l', hl', hact⟩ := Option.bind_eq_some_iff.mp hn'
    rw [activeKey?, hlevel, if_neg (Nat.ne_of_lt (level?_lt e i hl')), hl', Option.bind_some, hact]
    rfl

end Furthers

/-! ## What is still to be made -/

/-- A node of a level that is to be made, with room for so many levels inside each other. -/
structure Makeable (e : Engine) (k : LevelKey) (templates : Templates) (room : Nat) (j : LevelKey) (r : Record) :
    Prop where
  place : ∃ depth, Nested e k depth j ∧ depth + room ≤ templates.length
  listed : ∃ l, e.level? j = some l ∧ l.config.templates = templates ∧ r ∈ l.config.nodes
  enabled : r.disabled = false
  uses : ∃ ids, StartOrder.Layered templates ids ∧ ids.length ≤ room ∧ StartOrder.UsesOnly templates [r] ids

theorem Makeable.resembles (h : Makeable e k templates room j r) (hr : ∀ i, Resembles i e e') :
    Makeable e' k templates room j r := by
  obtain ⟨depth, hn, hd⟩ := h.place
  obtain ⟨l, hl, ht, hm⟩ := h.listed
  obtain ⟨l', hl', ha⟩ := hr j l hl
  exact ⟨⟨depth, hn.resembles hr, hd⟩, ⟨l', hl', by rw [ha.config, ht], by rw [ha.config]; exact hm⟩, h.enabled, h.uses⟩

/-- A usage node whose template can be expanded gets its instance. -/
theorem Makeable.opened (hm : Makeable e k templates room j r) {id : String} (hu : r.templateId? = some id)
    (ht : templates.get? id = some t) (hcount : t.Countable) (hfresh : t.Fresh e.nextPrivate)
    (ho : Opens e j (e.resolvedAt j r) t e') :
    ∃ l nodes order, e.level? j = some l ∧
      (Binding.make t (e.resolvedAt j r) e.nextPrivate).expand? (e.resolvedAt j r).outputs = some nodes ∧
      StartOrder.resolve nodes = .ok order ∧
      e' = e.opened j l (.make t (e.resolvedAt j r) e.nextPrivate) nodes order := by
  obtain ⟨l, hl, -⟩ := hm.listed
  obtain ⟨ids, hlayered, -, huses⟩ := hm.uses
  obtain ⟨hordered, -⟩ := hlayered.beneath (huses r List.mem_cons_self hm.enabled id t hu ht) ht
  cases ho with
  | nowhere hl' =>
    rw [hl] at hl'
    cases hl'
  | breaks hx =>
    obtain ⟨nodes, hx'⟩ := Binding.expand?_isSome (b := .make t (e.resolvedAt j r) e.nextPrivate) hcount
      (e.resolvedAt j r).outputs
    rw [hx] at hx'
    cases hx'
  | collapses _ hx ho =>
    obtain ⟨order, ho'⟩ := Binding.resolve_expand? hx hfresh hordered
    rw [ho] at ho'
    cases ho'
  | @opens _ nodes order hl' hx ho => exact ⟨_, nodes, order, hl', hx, ho, rfl⟩

/-- What an activation has still to do, and in how many steps at most. -/
inductive Planned (e : Engine) (k : LevelKey) (templates : Templates) : List Action → Nat → Prop
  | nil : Planned e k templates [] 0
  | create {room j : Nat} {r : Record} {p : List Action} {left : Nat} (h : Makeable e k templates room j r)
      (rest : Planned e k templates p left) :
      Planned e k templates (.create j r templates :: p) (effort templates room r + left)
  | install {j inst : LevelKey} {r : Record} {p : List Action} {left : Nat} (rest : Planned e k templates p left) :
      Planned e k templates (.install j r inst :: p) (left + 1)
  | refresh {j : LevelKey} {p : List Action} {left : Nat} (rest : Planned e k templates p left) :
      Planned e k templates (.refresh j :: p) (left + 1)

theorem Planned.resembles {left : Nat} (h : Planned e k templates p left) (hr : ∀ i, Resembles i e e') :
    Planned e' k templates p left := by
  induction h with
  | nil => exact .nil
  | create hm _ ih => exact .create (hm.resembles hr) ih
  | install _ ih => exact .install ih
  | refresh _ ih => exact .refresh ih

theorem planned_creates {left : Nat} {rs : List Record} (hm : ∀ r ∈ rs, Makeable e k templates room j r)
    (h : Planned e k templates p left) : Planned e k templates ((rs.map fun r => Action.create j r templates) ++ p)
      (total (effort templates room) rs + left) := by
  induction rs with
  | nil =>
    rw [List.map_nil, total, Nat.zero_add]
    exact h
  | cons r rs ih =>
    rw [List.map_cons, total, Nat.add_assoc]
    exact .create (hm r List.mem_cons_self) (ih fun r hr => hm r (List.mem_cons_of_mem _ hr))

/-- The activation of a level whose nodes have an order. -/
theorem planned_activation {left : Nat} {order : List Nat} (ho : StartOrder.resolve c.nodes = .ok order)
    (ht : c.templates = templates) (hm : ∀ r ∈ c.nodes, r.disabled = false → Makeable e k templates room j r)
    (h : Planned e k templates p left) :
    ∃ left', Planned e k templates (creations j c order ++ .refresh j :: p) left' ∧
      left' ≤ total (effort templates room) c.nodes + 1 + left := by
  subst ht
  have hall : ∀ r ∈ order.filterMap fun pos => c.nodes[pos]?, Makeable e k c.templates room j r := by
    intro r hr
    obtain ⟨pos, hpos, hr⟩ := List.mem_filterMap.mp hr
    obtain ⟨r', hr', hd⟩ := (StartOrder.mem_resolve ho).mp hpos
    obtain rfl := Option.some.inj (hr.symm.trans hr')
    exact hm r (List.mem_of_getElem? hr) hd
  refine ⟨_, planned_creates hall (.refresh h), ?_⟩
  have := total_filterMap_le (StartOrder.ordered_resolve ho).nodup
    (fun pos hpos => StartOrder.enabled_lt ((StartOrder.mem_resolve ho).mp hpos)) (effort c.templates room)
  omega

/-- A node that is active, or is to be made. -/
def Covered (e : Engine) (p : List Action) (j : LevelKey) (r : Record) : Prop :=
  (e.activeKey? j r.id).isSome = true ∨ (∃ templates, Action.create j r templates ∈ p) ∨
    ∃ usage inst, Action.install j usage inst ∈ p ∧ usage.id = r.id

theorem covered_creations {order : List Nat} (ho : StartOrder.resolve c.nodes = .ok order) (hr : r ∈ c.nodes)
    (hd : r.disabled = false) (hp : ∀ a ∈ creations j c order, a ∈ p) : Covered e p j r := by
  obtain ⟨pos, hpos⟩ := List.mem_iff_getElem?.mp hr
  refine .inr (.inl ⟨c.templates, hp _ (List.mem_map.mpr ⟨r, List.mem_filterMap.mpr ⟨pos, ?_, hpos⟩, rfl⟩)⟩)
  exact (StartOrder.mem_resolve ho).mpr ⟨r, hpos, hd⟩

/-- A usage node whose template exists. -/
def Expandable (templates : Templates) (r : Record) : Prop :=
  r.disabled = false ∧ ∃ id t, r.templateId? = some id ∧ templates.get? id = some t

/-- An activation under way after so many steps: what it has still to do is planned, and leaves no usage node out. -/
structure Unfolding (e₀ : Engine) (k : LevelKey) (c : FlowConfig) (n : Nat) (e : Engine) (p : List Action) : Prop
    extends Furthers k c.templates e₀ e where
  planned : ∃ left, Planned e k c.templates p left ∧ n + left ≤ c.effort
  covered : ∀ j l, j = k ∨ e₀.levels.size ≤ j → e.level? j = some l → ∀ r ∈ l.config.nodes,
    Expandable c.templates r → Covered e p j r

theorem Covered.mono {q : List Action} (h : Covered e p j r)
    (ha : (e.activeKey? j r.id).isSome = true → (e'.activeKey? j r.id).isSome = true) (hq : ∀ a ∈ p, a ∈ q) :
    Covered e' q j r := by
  rcases h with h | ⟨ts, h⟩ | ⟨usage, inst, h, hid⟩
  · exact .inl (ha h)
  · exact .inr (.inl ⟨ts, hq _ h⟩)
  · exact .inr (.inr ⟨usage, inst, hq _ h, hid⟩)

theorem covered_cons {ts : Templates} (h : Covered e (.create i r ts :: p) j usage) : (j = i ∧ usage = r) ∨ Covered e p j usage := by
  rcases h with h | ⟨ts', h⟩ | ⟨u, inst, h, hid⟩
  · exact .inr (.inl h)
  · rcases List.mem_cons.mp h with h | h
    · cases h
      exact .inl ⟨rfl, rfl⟩
    · exact .inr (.inr (.inl ⟨ts', h⟩))
  · exact .inr (.inr (.inr ⟨u, inst, (List.mem_cons.mp h).resolve_left (by simp), hid⟩))

/-- The actions that are more than messages. -/
def loud (actions : List Action) : List Action := actions.filter fun a => !a.isQuiet

theorem loud_cons_of_quiet {a : Action} (h : a.isQuiet = true) (actions : List Action) :
    loud (a :: actions) = loud actions := List.filter_cons_of_neg (by rw [h]; exact Bool.false_ne_true)

theorem loud_cons {a : Action} (h : a.isQuiet = false) (actions : List Action) :
    loud (a :: actions) = a :: loud actions := List.filter_cons_of_pos (by rw [h]; rfl)

theorem loud_append (actions actions' : List Action) : loud (actions ++ actions') = loud actions ++ loud actions' :=
  List.filter_append ..

theorem loud_of_quiet {actions : List Action} (h : ∀ a ∈ actions, a.isQuiet = true) : loud actions = [] := by
  refine List.filter_eq_nil_iff.mpr fun a ha => ?_
  rw [h a ha]
  exact Bool.false_ne_true

theorem levelCount_failCreation (e : Engine) (j : LevelKey) (r : Record) (fault : NodeFault) :
    (e.failCreation j r fault).levels.size = e.levels.size := by
  unfold failCreation
  split
  · rfl
  · exact Array.size_modify.trans (by rw [levels_of_still (quiet_publish _ _).still])

/-- A node that is made puts what its start hook does on the agenda, and nothing else. -/
theorem agenda_enter {part : Part} {notes : List Note} (hb : Behind e r part notes) (m : Engine) (j : LevelKey) :
    ∃ pushed, (m.enter j r part).agenda = pushed ++ m.agenda ∧ loud pushed = [] ∧ (e.registry.Idle → pushed = []) := by
  unfold enter
  cases hb with
  | builtIn h =>
    cases part with
    | ordinary b =>
      unfold builtIn? at h
      repeat' split at h
      all_goals cases h
    | _ => exact ⟨[], rfl, rfl, fun _ => rfl⟩
  | @ordinary b _ _ hc =>
    refine ⟨b.onStart.map (.effect m.nodes.size), rfl, loud_of_quiet fun a ha => ?_, fun hidle => ?_⟩
    · obtain ⟨x, -, rfl⟩ := List.mem_map.mp ha
      rfl
    · rw [hidle r b notes hc]
      rfl

theorem levelCount_enter (e : Engine) (j : LevelKey) (r : Record) (part : Part) :
    (e.enter j r part).levels.size = e.levels.size := by
  unfold enter
  cases part <;> exact Array.size_modify

namespace Unfolding

variable {q : List Action} {ts : Templates}

/-- A step furthers the activation if it leaves no usage node out and makes levels whose nodes are planned. -/
theorem further (h : Unfolding e₀ k c n e p) (hf : Furthers k c.templates e e')
    (hp : ∃ left, Planned e' k c.templates q left ∧ n' + left ≤ c.effort)
    (hold : ∀ j l r, e.level? j = some l → Expandable c.templates r → Covered e p j r → Covered e' q j r)
    (hnew : ∀ j l, e.levels.size ≤ j → e'.level? j = some l → ∀ r ∈ l.config.nodes, Expandable c.templates r →
      Covered e' q j r) : Unfolding e₀ k c n' e' q := by
  refine ⟨h.toFurthers.trans hf, hp, fun j l hj hl r hr hx => ?_⟩
  by_cases hlt : j < e.levels.size
  · have hl₀ : e.level? j = some e.levels[j] := Array.getElem?_eq_getElem hlt
    obtain ⟨l', hl', ha⟩ := hf.resembles j _ hl₀
    obtain rfl := Option.some.inj (hl.symm.trans hl')
    exact hold j _ r hl₀ hx (h.covered j _ hj hl₀ r (ha.config ▸ hr) hx)
  · exact hnew j l (Nat.le_of_not_lt hlt) hl r hr hx

/-- A step that makes no level. -/
theorem within (h : Unfolding e₀ k c n e p) (hf : Furthers k c.templates e e') (hs : e'.levels.size = e.levels.size)
    (hp : ∃ left, Planned e' k c.templates q left ∧ n' + left ≤ c.effort)
    (hold : ∀ j l r, e.level? j = some l → Expandable c.templates r → Covered e p j r → Covered e' q j r) :
    Unfolding e₀ k c n' e' q :=
  h.further hf hp hold fun j _ hj hl => absurd (level?_lt e' j hl) (by omega)

theorem quiet (h : Unfolding e₀ k c n e p) (hq : Quiet e e') : Unfolding e₀ k c n e' p := by
  have hf : Furthers k c.templates e e' := .quiet hq h.unbroken
  obtain ⟨left, hp, hle⟩ := h.planned
  exact h.within hf (by rw [levels_of_still hq.still]) ⟨left, hp.resembles hf.resembles, hle⟩
    fun j _ r _ _ hc => hc.mono (hf.active j r.id) fun _ h => h

theorem refresh (h : Unfolding e₀ k c n e (.refresh j :: p)) : Unfolding e₀ k c (n + 1) (e.refresh j) p := by
  have hf : Furthers k c.templates e (e.refresh j) := .refresh h.unbroken j
  have hs : (e.refresh j).levels.size = e.levels.size := by
    unfold Engine.refresh
    split
    · rfl
    · exact Array.size_modify
  obtain ⟨left, hp, hle⟩ := h.planned
  cases hp with
  | @refresh _ _ left rest =>
    refine h.within hf hs ⟨left, rest.resembles hf.resembles, by omega⟩ fun i _ r _ _ hc => ?_
    rcases hc with hc | ⟨ts, hc⟩ | ⟨usage, inst, hc, hid⟩
    · exact .inl (hf.active i r.id hc)
    · exact .inr (.inl ⟨ts, (List.mem_cons.mp hc).resolve_left (by simp)⟩)
    · exact .inr (.inr ⟨usage, inst, (List.mem_cons.mp hc).resolve_left (by simp), hid⟩)

theorem install (h : Unfolding e₀ k c n e (.install j r inst :: p)) :
    Unfolding e₀ k c (n + 1) (e.install j r inst) p := by
  have hf : Furthers k c.templates e (e.install j r inst) := .install h.unbroken j r inst
  have hs : (e.install j r inst).levels.size = e.levels.size :=
    Array.size_modify.trans Array.size_modify
  obtain ⟨left, hp, hle⟩ := h.planned
  cases hp with
  | @install _ _ _ _ left rest =>
    refine h.within hf hs ⟨left, rest.resembles hf.resembles, by omega⟩ fun i l r' hl _ hc => ?_
    rcases hc with hc | ⟨ts, hc⟩ | ⟨usage, inst', hc, hid⟩
    · exact .inl (hf.active i r'.id hc)
    · exact .inr (.inl ⟨ts, (List.mem_cons.mp hc).resolve_left (by simp)⟩)
    · rcases List.mem_cons.mp hc with hc | hc
      · -- the usage node is entered
        cases hc
        refine .inl ?_
        rw [Engine.install, activeKey?_enter, if_pos rfl, level?_modifyLevel, if_pos rfl, hl, ← hid]
        simp
      · exact .inr (.inr ⟨usage, inst', hc, hid⟩)

/-- The nodes of a new instance are planned, and its usage node behind them. -/
theorem opened (h : Unfolding e₀ k c n e (.create j r c.templates :: p)) {depth left : Nat} {l : Level} {b : Binding}
    {order : List Nat} {ids : List String} (hn : Nested e k depth j) (hd : depth + (room + 1) ≤ c.templates.length)
    (htemplates : l.config.templates = c.templates) (rest : Planned e k c.templates p left)
    (hid : b.usage.id = r.id) (ho : StartOrder.resolve nodes = .ok order)
    (hlayered : StartOrder.Layered c.templates ids) (hlen : ids.length ≤ room)
    (huses : StartOrder.UsesOnly c.templates nodes ids)
    (hle : n + (total (effort c.templates room) nodes + 3 + left) ≤ c.effort) :
    ∃ pushed, (e.opened j l b nodes order).agenda = pushed ++ e.agenda ∧ loud pushed = pushed ∧
      Unfolding e₀ k c (n + 1) (e.opened j l b nodes order) (pushed ++ p) := by
  have hf : Furthers k c.templates e (e.opened j l b nodes order) := .opened h.unbroken l b nodes order hn (by omega)
  obtain ⟨env, hlevel⟩ := level?_opened e j l b nodes order
  have hinst := hlevel e.levels.size
  rw [if_pos rfl] at hinst
  have hmake (r' : Record) (hr' : r' ∈ nodes) (hd' : r'.disabled = false) :
      Makeable (e.opened j l b nodes order) k c.templates room e.levels.size r' := by
    refine ⟨⟨depth + 1, .deeper (hn.resembles hf.resembles) hinst rfl, by omega⟩, ⟨_, hinst, htemplates, hr'⟩, hd',
      ⟨ids, hlayered, hlen, fun r₂ hr₂ => ?_⟩⟩
    obtain rfl := List.mem_singleton.mp hr₂
    exact huses r₂ hr'
  have hagenda : (e.opened j l b nodes order).agenda = creations e.levels.size (instanceLevel j l b nodes).config order ++
      [.refresh e.levels.size] ++ [.install j b.usage e.levels.size] ++ e.agenda := by
    rw [List.append_assoc]
    rfl
  refine ⟨_, hagenda, ?_, ?_⟩
  · rw [loud_append, loud, filter_creations]
    rfl
  rw [List.append_assoc, List.append_assoc]
  refine h.further hf ?_ (fun i l₀ r' _ _ hc => ?_) fun i l₀ hi hl₀ r' hr' hx => ?_
  · have hinstall : Planned (e.opened j l b nodes order) k c.templates (.install j b.usage e.levels.size :: p) (left + 1) :=
      .install (rest.resembles hf.resembles)
    obtain ⟨left', hp', hle'⟩ := planned_activation (c := (instanceLevel j l b nodes).config) ho htemplates hmake hinstall
    have hle' : left' ≤ total (effort c.templates room) nodes + 1 + (left + 1) := hle'
    exact ⟨left', hp', by omega⟩
  · rcases covered_cons hc with ⟨rfl, rfl⟩ | hc
    · exact .inr (.inr ⟨b.usage, e.levels.size, by simp, hid⟩)
    · exact hc.mono (hf.active i r'.id) fun a ha => by simp [ha]
  · rw [hlevel] at hl₀
    split at hl₀
    · rename_i hi'
      subst hi'
      cases hl₀
      exact covered_creations (c := (instanceLevel j l b nodes).config) ho hr' hx.1 fun a ha =>
        List.mem_append_left _ ha
    · exact absurd (level?_lt e i hl₀) (Nat.not_lt_of_le hi)

/-- A usage node gets its instance, whose nodes can be made in an order. -/
theorem opens (h : Unfolding e₀ k c n e (.create j r c.templates :: p)) (hm : Makeable e k c.templates room j r)
    {left : Nat} (rest : Planned e k c.templates p left) (hle : n + (effort c.templates room r + left) ≤ c.effort)
    {id : String} (hu : r.templateId? = some id) (ht : c.templates.get? id = some t) (hcount : t.Countable)
    (hfresh : t.Fresh e.nextPrivate) (ho : Opens e j (e.resolvedAt j r) t e') :
    ∃ pushed, e'.agenda = pushed ++ e.agenda ∧ loud pushed = pushed ∧ Unfolding e₀ k c (n + 1) e' (pushed ++ p) := by
  obtain ⟨depth, hn, hd⟩ := hm.place
  obtain ⟨ids, hlayered, hlen, huses⟩ := hm.uses
  obtain ⟨-, deeper, hdeeper, hlt, hinner⟩ := hlayered.beneath (huses r List.mem_cons_self hm.enabled id t hu ht) ht
  obtain ⟨room, rfl⟩ : ∃ smaller, room = smaller + 1 := ⟨room - 1, by omega⟩
  obtain ⟨l, nodes, order, hl, hx, horder, rfl⟩ := hm.opened hu ht hcount hfresh ho
  obtain ⟨l', hl', htemplates, -⟩ := hm.listed
  obtain rfl := Option.some.inj (hl.symm.trans hl')
  rw [effort_usage hu ht] at hle
  have hsum := Binding.total_effort_expand? c.templates room hx
  exact h.opened hn hd htemplates rest rfl horder hdeeper (by omega) (Binding.usesOnly_expand? hx hinner) (by omega)

/-- The making of a node furthers the activation, whatever it comes to. -/
theorem create (h : Unfolding e₀ k c n e (.create j r ts :: p))
    (hsound : ∀ id t, c.templates.get? id = some t → t.Countable ∧ t.Fresh e₀.nextPrivate) :
    ∃ pushed, (e.create j r ts).agenda = pushed ++ e.agenda ∧
      Unfolding e₀ k c (n + 1) (e.create j r ts) (loud pushed ++ p) ∧ (e.registry.Idle → loud pushed = pushed) := by
  obtain ⟨left, hp, hle⟩ := h.planned
  cases hp with
  | @create room _ _ _ left hm rest =>
    have hpos := effort_pos c.templates room r
    obtain ⟨l, hl, -, hlisted⟩ := hm.listed
    -- the other nodes stay covered, and this one is active or no usage node that can be expanded
    have hold {s : Engine} (hf : Furthers k c.templates e s)
        (hr : Expandable c.templates r → (s.activeKey? j r.id).isSome = true) (i : LevelKey) (l' : Level) (r' : Record)
        (_ : e.level? i = some l') (hx : Expandable c.templates r') (hc : Covered e (.create j r c.templates :: p) i r') :
        Covered s p i r' := by
      rcases covered_cons hc with ⟨rfl, rfl⟩ | hc
      · exact .inl (hr hx)
      · exact hc.mono (hf.active i r'.id) fun _ h => h
    have hplain {s : Engine} (hf : Furthers k c.templates e s) (hs : s.levels.size = e.levels.size)
        (ha : ∃ pushed, s.agenda = pushed ++ e.agenda ∧ loud pushed = [] ∧ (e.registry.Idle → pushed = []))
        (hr : Expandable c.templates r → (s.activeKey? j r.id).isSome = true) :
        ∃ pushed, s.agenda = pushed ++ e.agenda ∧ Unfolding e₀ k c (n + 1) s (loud pushed ++ p) ∧
          (e.registry.Idle → loud pushed = pushed) := by
      obtain ⟨pushed, hpushed, hloud, hidle⟩ := ha
      refine ⟨pushed, hpushed, ?_, fun hi => ?_⟩
      · rw [hloud]
        exact h.within hf hs ⟨left, rest.resembles hf.resembles, by omega⟩ (hold hf hr)
      · rw [hidle hi]
        rfl
    have hc := creates_create e j r c.templates
    generalize e.create j r c.templates = s at hc ⊢
    cases hc with
    | present ha => exact hplain (.of_level? h.unbroken (.refl e) fun _ => rfl) rfl ⟨[], rfl, rfl, fun _ => rfl⟩ fun _ => ha
    | noTemplate _ hu ht =>
      refine hplain (.failCreation h.unbroken hl hlisted (.missing hu ht)) (levelCount_failCreation _ _ _ _)
        ⟨[], agenda_failCreation _ _ _ _, rfl, fun _ => rfl⟩ ?_
      rintro ⟨-, id, t, hid, ht'⟩
      obtain rfl := Option.some.inj (hu.symm.trans hid)
      rw [ht] at ht'
      cases ht'
    | refused _ hu _ hr =>
      refine hplain (.failCreation h.unbroken hl hlisted (.refused (e.setting j) hu hr)) (levelCount_failCreation _ _ _ _)
        ⟨[], agenda_failCreation _ _ _ _, rfl, fun _ => rfl⟩ ?_
      rintro ⟨-, id, t, hid, -⟩
      cases hu.symm.trans hid
    | @made part notes _ hu hb =>
      have hnote : Furthers k c.templates e (e.note notes) := .quiet (quiet_note e notes) h.unbroken
      refine hplain (hnote.trans (.enter hnote.unbroken j _ part)) (levelCount_enter (e.note notes) _ _ _)
        (agenda_enter hb (e.note notes) j) ?_
      rintro ⟨-, id, t, hid, -⟩
      cases hu.symm.trans hid
    | usage _ hu ht ho =>
      obtain ⟨hcount, hfresh⟩ := hsound _ _ ht
      obtain ⟨pushed, hpushed, hloud, hs⟩ := h.opens hm rest hle hu ht hcount (hfresh.mono h.nextPrivate) ho
      exact ⟨pushed, hpushed, hloud.symm ▸ hs, fun _ => hloud⟩

end Unfolding

/-! ## Whole activations -/

/-- Work on what stands on the agenda above a base. Counted are the steps that make something, and not those that
messages take. -/
inductive Works (base : List Action) (e : Engine) : Nat → Engine → Prop
  | refl : Works base e 0 e
  | quiet {n : Nat} {m : Engine} {a : Action} {above : List Action} (h : Works base e n m) (hb : m.broken = false)
      (ha : m.agenda = a :: (above ++ base)) (hq : a.isQuiet = true) :
      Works base e n ({ m with agenda := above ++ base }.act a)
  | make {n : Nat} {m : Engine} {a : Action} {above : List Action} (h : Works base e n m) (hb : m.broken = false)
      (ha : m.agenda = a :: (above ++ base)) (hq : a.isQuiet = false) :
      Works base e (n + 1) ({ m with agenda := above ++ base }.act a)

/-- The engine takes these steps by itself. -/
theorem Works.reach (h : Works base e n e') : Reach e e' := by
  induction h with
  | refl => exact .refl e
  | quiet _ hb ha _ ih => exact ih.tail (.act hb ha)
  | make _ hb ha _ ih => exact ih.tail (.act hb ha)

theorem Works.append {rest : List Action} (h : Works base e n m) (h' : Works (rest ++ base) m n' e') :
    Works base e (n + n') e' := by
  induction h' with
  | refl => exact h
  | quiet _ hb ha hq ih =>
    rw [← List.append_assoc] at ha ⊢
    exact .quiet ih hb ha hq
  | make _ hb ha hq ih =>
    rw [← List.append_assoc] at ha ⊢
    exact .make ih hb ha hq

/-- The messages under way above a base come to an end, with all that they lead to. -/
def Subsides (base : List Action) (e : Engine) : Prop :=
  ∀ messages rest, e.agenda = messages ++ (rest ++ base) → (∀ a ∈ messages, a.isQuiet = true) →
    ∃ e', Works (rest ++ base) e 0 e' ∧ e'.agenda = rest ++ base

/-- Every usage node of a level, and of the levels made since, is active if its template exists. -/
def Unfolded (e₀ : Engine) (k : LevelKey) (templates : Templates) (e : Engine) : Prop :=
  ∀ j l, j = k ∨ e₀.levels.size ≤ j → e.level? j = some l → ∀ r ∈ l.config.nodes, Expandable templates r →
    (e.activeKey? j r.id).isSome = true

/-- All templates can be expanded, with private ids that nobody names. -/
def Ready (templates : Templates) (next : Nat) : Prop :=
  ∀ id t, templates.get? id = some t → t.Countable ∧ t.Fresh next

/-- An activation under way: above its base the agenda holds what is planned, and messages. -/
def Underway (e₀ : Engine) (k : LevelKey) (c : FlowConfig) (base : List Action) (n : Nat) (e : Engine) : Prop :=
  ∃ above, e.agenda = above ++ base ∧ Unfolding e₀ k c n e (loud above) ∧ (e₀.registry.Idle → loud above = above)

namespace Unfolding

theorem setAgenda (h : Unfolding e₀ k c n e p) (agenda : List Action) : Unfolding e₀ k c n { e with agenda } p := by
  have hf : Furthers k c.templates e { e with agenda } := .of_level? h.unbroken (.of_eq rfl rfl rfl rfl) fun _ => rfl
  obtain ⟨left, hp, hle⟩ := h.planned
  exact h.within hf rfl ⟨left, hp.resembles hf.resembles, hle⟩ fun _ _ _ _ _ hc => hc.mono id fun _ h => h

/-- What is planned costs at least one step. -/
theorem lt_effort {a : Action} (h : Unfolding e₀ k c n e (a :: p)) : n < c.effort := by
  obtain ⟨left, hp, hle⟩ := h.planned
  cases hp with
  | @create room _ r _ _ _ _ =>
    have := effort_pos c.templates room r
    omega
  | install => omega
  | refresh => omega

theorem make (hready : Ready c.templates e₀.nextPrivate) {a : Action} (h : Unfolding e₀ k c n e (a :: p)) :
    ∃ pushed, (e.act a).agenda = pushed ++ e.agenda ∧ Unfolding e₀ k c (n + 1) (e.act a) (loud pushed ++ p) ∧
      (e₀.registry.Idle → loud pushed = pushed) := by
  have hreg := registry_of_world h.world
  obtain ⟨left, hp, -⟩ := id h.planned
  cases hp with
  | create =>
    rw [← hreg]
    exact h.create hready
  | install => exact ⟨[], rfl, h.install, fun _ => rfl⟩
  | @refresh j _ _ _ =>
    have hagenda : (e.refresh j).agenda = e.agenda := Stops.agenda (stops_refresh e j)
    exact ⟨[], hagenda, h.refresh, fun _ => rfl⟩

end Unfolding

/-- What holds at the begin of an activation holds as long as it is under way. -/
theorem Underway.works (hready : Ready c.templates e₀.nextPrivate) (h : Underway e₀ k c base 0 e)
    (hw : Works base e n e') : Underway e₀ k c base n e' := by
  induction hw with
  | refl => exact h
  | @quiet n m a above _ _ ha hq ih =>
    obtain ⟨above', hagenda, hu, hidle⟩ := ih
    obtain rfl : a :: above = above' := List.append_cancel_right (ha.symm.trans hagenda)
    have hquiet := quiet_act { m with agenda := above ++ base } hq
    obtain ⟨pushed, hp, hall⟩ := hquiet.pushes
    rw [loud_cons_of_quiet hq] at hu hidle
    refine ⟨pushed ++ above, by rw [hp, List.append_assoc], ?_, fun hi => ?_⟩
    · rw [loud_append, loud_of_quiet hall]
      exact (hu.setAgenda (above ++ base)).quiet hquiet
    · -- a quiet action on the agenda is the work of a start hook
      have hlen := congrArg List.length (hidle hi)
      have := List.length_filter_le (fun a : Action => !a.isQuiet) above
      rw [loud, List.length_cons] at hlen
      omega
  | @make n m a above _ _ ha hq ih =>
    obtain ⟨above', hagenda, hu, hidle⟩ := ih
    obtain rfl : a :: above = above' := List.append_cancel_right (ha.symm.trans hagenda)
    rw [loud_cons hq] at hu hidle
    obtain ⟨pushed, hp, hs, hpi⟩ := (hu.setAgenda (above ++ base)).make hready
    refine ⟨pushed ++ above, by rw [hp, List.append_assoc], ?_, fun hi => ?_⟩
    · rw [loud_append]
      exact hs
    · rw [loud_append, hpi hi, (List.cons_inj_right a).mp (hidle hi)]

/-- Where start hooks do nothing there are no messages. -/
theorem Underway.subsides (h : Underway e₀ k c base n e) (hidle : e₀.registry.Idle) : Subsides base e := by
  obtain ⟨above, hagenda, -, hloud⟩ := h
  intro messages rest ha hquiet
  obtain rfl : above = messages ++ rest := by
    rw [← List.append_assoc] at ha
    exact List.append_cancel_right (hagenda.symm.trans ha)
  cases messages with
  | nil => exact ⟨e, .refl, ha⟩
  | cons a messages =>
    have hmem : a ∈ loud (a :: messages ++ rest) := by
      rw [hloud hidle]
      exact List.mem_cons_self
    have := (List.mem_filter.mp hmem).2
    rw [hquiet a List.mem_cons_self] at this
    cases this

theorem exists_messages (actions : List Action) : ∃ messages rest, actions = messages ++ rest ∧
    (∀ a ∈ messages, a.isQuiet = true) ∧ (rest = [] ∨ ∃ a later, rest = a :: later ∧ a.isQuiet = false) := by
  induction actions with
  | nil => exact ⟨[], [], rfl, by simp, .inl rfl⟩
  | cons a actions ih =>
    cases hq : a.isQuiet with
    | false => exact ⟨[], a :: actions, rfl, by simp, .inr ⟨a, actions, rfl, hq⟩⟩
    | true =>
      obtain ⟨messages, rest, rfl, hall, hrest⟩ := ih
      exact ⟨a :: messages, rest, rfl, List.forall_mem_cons.mpr ⟨hq, hall⟩, hrest⟩

/-- When the messages under way have come to an end, the activation has, or the next step makes something. -/
theorem Underway.calms (h : Underway e₀ k c base n' m) (hw : Works base e n m) (hsub : Subsides base m) :
    ∃ m', Works base e n m' ∧
      (m'.agenda = base ∨ ∃ a later, m'.agenda = a :: (later ++ base) ∧ a.isQuiet = false) := by
  obtain ⟨above, hagenda, -⟩ := h
  obtain ⟨messages, rest, rfl, hall, hrest⟩ := exists_messages above
  obtain ⟨m', hmore, ha⟩ := hsub messages rest (by rw [hagenda, List.append_assoc]) hall
  refine ⟨m', hw.append hmore, ?_⟩
  rcases hrest with rfl | ⟨a, later, rfl, hq⟩
  · exact .inl ha
  · exact .inr ⟨a, later, ha, hq⟩

/-- An activation under way comes to an end if messages do: each step that makes something leaves fewer to come. -/
theorem Underway.ends (hready : Ready c.templates e₀.nextPrivate) (h : Underway e₀ k c base 0 e)
    (hsub : ∀ n e', Works base e n e' → Subsides base e') : ∃ n e', Works base e n e' ∧ e'.agenda = base := by
  have general (fuel n : Nat) (m : Engine) (hw : Works base e n m) (hfuel : c.effort ≤ n + fuel) :
      ∃ n' e', Works base e n' e' ∧ e'.agenda = base := by
    induction fuel generalizing n m with
    | zero =>
      obtain ⟨m', hw', hend | ⟨a, later, ha, hq⟩⟩ := (h.works hready hw).calms hw (hsub n m hw)
      · exact ⟨n, m', hw', hend⟩
      · obtain ⟨above, hagenda, hu, -⟩ := h.works hready hw'
        obtain rfl : a :: later = above := List.append_cancel_right (ha.symm.trans hagenda)
        rw [loud_cons hq] at hu
        have := hu.lt_effort
        omega
    | succ fuel ih =>
      obtain ⟨m', hw', hend | ⟨a, later, ha, hq⟩⟩ := (h.works hready hw).calms hw (hsub n m hw)
      · exact ⟨n, m', hw', hend⟩
      · obtain ⟨above, -, hu, -⟩ := h.works hready hw'
        exact ih (n + 1) _ (.make hw' hu.unbroken ha hq) (by omega)
  exact general c.effort 0 e .refl (Nat.le_of_eq (Nat.zero_add _).symm)

/-! ## The activation of a sound flow -/

variable {l : Level} {order : List Nat}

/-- A level whose environment has been evaluated. -/
def environed (e : Engine) (k : LevelKey) (c : FlowConfig) : Engine :=
  e.modifyLevel k fun l => { l with env := Scope.evaluate (e.settingAround k) c.env }

theorem level?_environed (hl : e.level? k = some l) : ∃ env,
    (e.environed k l.config).level? k = some { l with env } :=
  ⟨_, by rw [environed, level?_modifyLevel, if_pos rfl, hl]; rfl⟩

/-- The activation of a sound flow begins with all its nodes still to be made. -/
theorem underway_activated (hb : e.broken = false) (hl : e.level? k = some l)
    (hv : StartOrder.validate l.config = .ok order) :
    Underway (e.environed k l.config) k l.config e.agenda 0 (e.activated k l.config order) := by
  obtain ⟨ho, ids, hlayered, huses⟩ := StartOrder.layered_validate hv
  obtain ⟨env, hk⟩ := level?_environed hl
  have hf : Furthers k l.config.templates (e.environed k l.config) (e.activated k l.config order) :=
    .of_level? hb (.of_eq rfl rfl rfl rfl) fun _ => rfl
  have hloud : loud (creations k l.config order ++ [.refresh k]) = creations k l.config order ++ [.refresh k] :=
    filter_creations _ _ _
  refine ⟨creations k l.config order ++ [.refresh k], rfl, ⟨hf, ?_, fun j l' hj hl' r hr hx => ?_⟩, fun _ => hloud⟩
  · rw [hloud]
    have hmake (r : Record) (hr : r ∈ l.config.nodes) (hd : r.disabled = false) :
        Makeable (e.activated k l.config order) k l.config.templates l.config.templates.length k r :=
      ⟨⟨0, .here, Nat.le_of_eq (Nat.zero_add _)⟩, ⟨_, hk, rfl, hr⟩, hd,
        ⟨ids, hlayered, hlayered.length_le, fun r' hr' => huses r' (List.mem_singleton.mp hr' ▸ hr)⟩⟩
    obtain ⟨left, hp, hle⟩ := planned_activation ho rfl hmake .nil
    exact ⟨left, hp, by rw [Nat.zero_add]; exact hle⟩
  · have hj : j = k := hj.resolve_right fun hj => Nat.not_lt_of_le hj (level?_lt _ j hl')
    subst hj
    obtain rfl := Option.some.inj (hk.symm.trans hl')
    exact covered_creations ho hr hx.1 fun a ha => hloud.symm ▸ List.mem_append_left _ ha

/-- The activation of a flow that is sound expands all of it. In its course nothing is broken, instances are nested
no deeper than there are templates, and no more is made than the templates inside each other call for; a node that
cannot be made fails for a reason of its own, a usage node only if its template does not exist. The activation comes to
an end if the messages do that start hooks send, and then every usage node is active whose template exists. -/
theorem activation_expands (hb : e.broken = false) (hl : e.level? k = some l)
    (hv : StartOrder.validate l.config = .ok order) (hready : Ready l.config.templates e.nextPrivate) :
    ∃ e₁, e.activate k = .ok e₁ ∧
      (∀ n e', Works e.agenda e₁ n e' → n ≤ l.config.effort ∧ Unfolds e k l.config.templates e' ∧
        (e'.agenda = e.agenda → Unfolded e k l.config.templates e')) ∧
      ((∀ n e', Works e.agenda e₁ n e' → Subsides e.agenda e') →
        ∃ n e', Works e.agenda e₁ n e' ∧ e'.agenda = e.agenda) := by
  have hstart := underway_activated hb hl hv
  have hready : Ready l.config.templates (e.environed k l.config).nextPrivate := hready
  have hsize : (e.environed k l.config).levels.size = e.levels.size := Array.size_modify
  refine ⟨_, activate_ok hl (StartOrder.layered_validate hv).1, fun n e' hw => ?_, fun hsub => hstart.ends hready hsub⟩
  obtain ⟨above, hagenda, hu, -⟩ := hstart.works hready hw
  obtain ⟨left, -, hle⟩ := hu.planned
  refine ⟨by omega, ⟨hu.unbroken, fun j l' hj => hu.nested j l' (hsize ▸ hj), fun j l' hl' id fault hf => ?_⟩,
    fun hend j l' hj hl' r hr hx => ?_⟩
  · refine (hu.blamed j l' hl' id fault hf).imp_left fun ⟨l₀, hl₀, hf₀⟩ => ?_
    rw [environed, level?_modifyLevel] at hl₀
    split at hl₀
    · obtain ⟨l₁, hl₁, rfl⟩ := Option.map_eq_some_iff.mp hl₀
      exact ⟨l₁, hl₁, hf₀⟩
    · exact ⟨l₀, hl₀, hf₀⟩
  · obtain rfl : above = [] := List.append_left_eq_self.mp (hagenda.symm.trans hend)
    rcases hu.covered j l' (hj.imp_right (hsize ▸ ·)) hl' r hr hx with ha | ⟨ts, hm⟩ | ⟨usage, inst, hm, -⟩
    · exact ha
    · cases hm
    · cases hm

/-- A tab with a template inside another; in the inner one a node refers to a config node behind it. -/
def layeredTab : FlowConfig :=
  let template (id : String) (nodes : List Record) : String × Template :=
    (id, ⟨id, none, [], [⟨[⟨"a", 0⟩]⟩], none, none, [], nodes⟩)
  { id := "t", label := none, disabled := false, env := []
    nodes := [⟨"u", "subflow:outer", some "t", some [["x"]], false, []⟩]
    templates := [
      template "inner" [⟨"a", "json", some "inner", some [], false, [("server", .str "c")]⟩,
        ⟨"c", "debug", some "inner", none, false, []⟩],
      template "outer" [⟨"a", "subflow:inner", some "outer", none, false, [("env", .arr [.str "a"])]⟩]] }

def layeredEngine : Engine := ((Engine.make .standard .shared [] [] 500).addLevel (.make .tab none layeredTab)).1

theorem ready_layeredTab : Ready layeredTab.templates layeredEngine.nextPrivate := by
  have hall : ∀ t ∈ layeredTab.templates.values, (∀ port ∈ t.outputs, ∀ w ∈ port.wires, w.port + 1 < Nat.pow 2 64) ∧
      t.status = none ∧ t.complete = none ∧ ∀ r ∈ t.nodes, ∀ s ∈ r.references, s.toList.length < 20 := by
    decide
  intro id t ht
  obtain ⟨hports, hstatus, hcomplete, hnames⟩ := hall t (Dict.mem_values ht)
  refine ⟨⟨hports, by simp [hstatus], by simp [hcomplete]⟩, fun r hr s hs n _ he => ?_⟩
  have := hnames r hr s hs
  rw [he] at this
  exact absurd (twenty_le_length_privateId n) (Nat.not_le_of_lt this)

/-- The tab with a template inside another is activated to its end. -/
theorem activation_expands_layered : ∃ order, StartOrder.validate layeredTab = .ok order ∧
    ∃ e₁ n e', layeredEngine.activate 0 = .ok e₁ ∧ Works [] e₁ n e' ∧ e'.agenda = [] ∧ n ≤ layeredTab.effort ∧
      Unfolds layeredEngine 0 layeredTab.templates e' ∧ Unfolded layeredEngine 0 layeredTab.templates e' := by
  have hl : layeredEngine.level? 0 = some (.make .tab none layeredTab) := rfl
  have hv : StartOrder.validate layeredTab = .ok [0] := by rfl
  obtain ⟨e₁, hact, hrun, hends⟩ := activation_expands rfl hl hv ready_layeredTab
  have hstart := underway_activated rfl hl hv
  have heq : e₁ = layeredEngine.activated 0 layeredTab [0] :=
    Except.ok.inj (hact.symm.trans (activate_ok hl (StartOrder.layered_validate hv).1))
  obtain ⟨n, e', hw, hend⟩ := hends fun n e' hw =>
    (hstart.works ready_layeredTab (heq ▸ hw)).subsides Registry.idle_standard
  obtain ⟨hn, hu, hall⟩ := hrun n e' hw
  exact ⟨[0], hv, e₁, n, e', hact, hw, hend, hn, hu, hall hend⟩

/-- Where start hooks do nothing, as with the standard kinds, an activation comes to an end. -/
theorem activation_ends (hb : e.broken = false) (hl : e.level? k = some l)
    (hv : StartOrder.validate l.config = .ok order) (hready : Ready l.config.templates e.nextPrivate)
    (hidle : e.registry.Idle) : ∃ n e', Works e.agenda (e.activated k l.config order) n e' ∧ e'.agenda = e.agenda := by
  have hstart := underway_activated hb hl hv
  have hready : Ready l.config.templates (e.environed k l.config).nextPrivate := hready
  exact hstart.ends hready fun n e' hw => (hstart.works hready hw).subsides hidle

end Engine
end Flowgraph
