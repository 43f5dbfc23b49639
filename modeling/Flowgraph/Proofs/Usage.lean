import Flowgraph.Proofs.Sparing
/-! A usage node and what is in its instance. Rewiring it in place wires the nodes of its instance as those of a
new one, and leaves the instances inside that one as they are. -/
namespace Flowgraph.Engine

variable {e e' e'' : Engine} {i j k inst : LevelKey} {u : NodeId} {outer : Wires}

/-! ## Instances in each other -/

/-- An instance and all instances inside it. -/
inductive Inside (e : Engine) (i : LevelKey) : LevelKey → Prop
  | here : Inside e i i
  | deeper {j j' : LevelKey} {id : NodeId} (h : Inside e i j) (hi : e.instance? j id = some j') : Inside e i j'

/-- Everything in an instance is wired as in a new instance of its template whose outputs have this wiring. -/
inductive WiredFor (e : Engine) : LevelKey → Wires → Prop
  | intro {inst : LevelKey} {outer : Wires} {b : Binding} {nodes : List Record} (hb : e.binding? inst = some b)
      (hx : b.expand? outer = some nodes)
      (own : ∀ r ∈ nodes, ∀ n, e.activeKey? inst r.id = some n →
        (e.node? n).map (·.dispatch.toWires) = some r.outputs)
      (nested : ∀ r ∈ nodes, ∀ i, e.instance? inst r.id = some i → WiredFor e i r.outputs) : WiredFor e inst outer

/-- The same, looked at to a certain depth. -/
def wiredWithin (e : Engine) : (fuel : Nat) → LevelKey → Wires → Bool
  | 0, _, _ => true
  | fuel + 1, inst, outer =>
    match (e.binding? inst).bind (·.expand? outer) with
    | none => false
    | some nodes => nodes.all fun r =>
      (match e.activeKey? inst r.id with
        | none => true
        | some n => (e.node? n).map (·.dispatch.toWires) == some r.outputs) &&
      match e.instance? inst r.id with
      | none => true
      | some i => wiredWithin e fuel i r.outputs

theorem WiredFor.within (h : WiredFor e inst outer) (fuel : Nat) : e.wiredWithin fuel inst outer = true := by
  induction h generalizing fuel with
  | @intro inst outer b nodes hb hx own nested ih =>
    cases fuel with
    | zero => rfl
    | succ fuel =>
      rw [wiredWithin, hb, Option.bind_some, hx]
      refine List.all_eq_true.mpr fun r hr => Bool.and_eq_true_iff.mpr ⟨?_, ?_⟩
      · cases hn : e.activeKey? inst r.id with
        | none => rfl
        | some n => simpa using own r hr n hn
      · cases hi : e.instance? inst r.id with
        | none => rfl
        | some i => exact ih r hr i hi fuel

theorem Laid.isInstance (h : Laid e) {id : NodeId} (hi : e.instance? j id = some i) : e.IsInstance i j id := by
  obtain ⟨l, hl, hi⟩ := Option.bind_eq_some_iff.mp hi
  exact (h j l hl).instances id i hi

theorem IsInstance.unique {id id' : NodeId} (h : e.IsInstance i j id) (h' : e.IsInstance i k id') :
    j = k ∧ id = id' := by
  obtain ⟨l, b, hl, hk, hp, rfl⟩ := h
  obtain ⟨l', b', hl', hk', hp', rfl⟩ := h'
  obtain rfl := Option.some.inj (hl.symm.trans hl')
  rw [hk] at hk'
  cases hk'
  rw [hp] at hp'
  cases hp'
  exact ⟨rfl, rfl⟩

theorem IsInstance.binding? {id : NodeId} (h : e.IsInstance i j id) : ∃ b, e.binding? i = some b := by
  obtain ⟨l, b, hl, hk, -, -⟩ := h
  refine ⟨b, ?_⟩
  rw [Engine.binding?, hl]
  dsimp only
  rw [hk]

theorem Grows.binding? (h : Grows e e') {b : Binding} (hb : e.binding? i = some b) : e'.binding? i = some b := by
  unfold Engine.binding? at *
  cases hl : e.level? i with
  | none =>
    rw [hl] at hb
    cases hb
  | some l =>
    obtain ⟨l', hl', hk⟩ := h.level i l hl
    rw [hl] at hb
    rw [hl']
    dsimp only at hb ⊢
    rw [hk.kind]
    exact hb

/-- A wiring that reaches down everywhere does so as long as nothing inside changes. -/
theorem WiredFor.transfer {kept : LevelKey → NodeId → Prop} (h : WiredFor e i outer)
    (hs : Spares kept e e') (hb : ∀ j b, (∀ id, kept j id) → e.binding? j = some b → e'.binding? j = some b)
    (hc : ∀ j id j', kept j id → e.instance? j id = some j' → ∀ id', kept j' id') (hi : ∀ id, kept i id) :
    WiredFor e' i outer := by
  induction h with
  | @intro inst outer b nodes hbind hx own nested ih =>
    refine .intro (hb inst b hi hbind) hx (fun r hr n hn => ?_) fun r hr i' hi' => ?_
    · rw [hs.active inst r.id (hi r.id)] at hn
      have hd := congrArg (Option.map Dispatch.toWires) (hs.wiring inst r.id n (hi r.id) hn)
      rw [Option.map_map, Option.map_map] at hd
      exact Eq.trans hd (own r hr n hn)
    · rw [hs.inst inst r.id (hi r.id)] at hi'
      exact ih r hr i' hi' (hc inst r.id i' (hi r.id) hi')

/-! ## A usage node on an outermost level -/

/-- An active usage node of an outermost level, with its instance. -/
structure Using (e : Engine) (k : LevelKey) (u : NodeId) (inst : LevelKey) : Prop where
  laid : Laid e
  outermost : ∃ l, e.level? k = some l ∧ l.parent = none
  inst : e.instance? k u = some inst

/-- A usage node and what is in its instance. -/
def Using.Holds (e : Engine) (k : LevelKey) (u : NodeId) (inst j : LevelKey) (id : NodeId) : Prop :=
  (j = k ∧ id = u) ∨ Inside e inst j

namespace Using

theorem not_isInstance (h : Using e k u inst) {id : NodeId} : ¬e.IsInstance k j id := by
  rintro ⟨l, b, hl, -, hp, -⟩
  obtain ⟨l', hl', hp'⟩ := h.outermost
  rw [hl] at hl'
  cases hl'
  rw [hp] at hp'
  cases hp'

theorem not_inside (h : Using e k u inst) : ¬Inside e inst k := by
  intro hin
  cases hin with
  | here => exact h.not_isInstance (h.laid.isInstance h.inst)
  | deeper hin hinst => exact h.not_isInstance (h.laid.isInstance hinst)

theorem level?_of_holds (h : Using e k u inst) {id : NodeId} (hh : Holds e k u inst j id) :
    ∃ l, e.level? j = some l := by
  rcases hh with ⟨rfl, -⟩ | hh
  · obtain ⟨l, hl, -⟩ := h.outermost
    exact ⟨l, hl⟩
  · cases hh with
    | here =>
      obtain ⟨l, b, hl, -⟩ := h.laid.isInstance h.inst
      exact ⟨l, hl⟩
    | deeper hin hinst =>
      obtain ⟨l, b, hl, -⟩ := h.laid.isInstance hinst
      exact ⟨l, hl⟩

/-- What lies around something held is held, and so it stays. -/
theorem holds_around (h : Using e k u inst) (hg : Grows e e') {id id' : NodeId} (hi : e'.IsInstance i j id)
    (hh : Holds e k u inst i id') : Holds e k u inst j id := by
  rcases hh with ⟨rfl, -⟩ | hh
  · obtain ⟨l', b, hl', -, hp, -⟩ := hi
    obtain ⟨l, hl, hp'⟩ := h.outermost
    obtain ⟨l₁, hl₁, hkin⟩ := hg.level i l hl
    rw [hl'] at hl₁
    cases hl₁
    rw [hkin.parent, hp'] at hp
    cases hp
  · have hsame {j' : LevelKey} {id' : NodeId} (hi' : e.IsInstance i j' id') : j = j' ∧ id = id' :=
      hi.unique (hg.isInstance hi')
    cases hh with
    | here => exact .inl (hsame (h.laid.isInstance h.inst))
    | deeper hin hinst =>
      obtain ⟨rfl, -⟩ := hsame (h.laid.isInstance hinst)
      exact .inr hin

/-- A stop of anything else leaves what is held alone. -/
theorem closed (h : Using e k u inst) (hg : Grows e e') (hl : Laid e') :
    Closed (fun j id => ¬Holds e k u inst j id) e' := by
  intro j l id i hlevel hi hn id' hh
  exact hn (h.holds_around hg ((hl j l hlevel).instances id i hi) hh)

theorem fresh (h : Using e k u inst) (hg : Grows e e') (id : NodeId) : ¬Holds e k u inst e'.levels.size id := by
  intro hh
  obtain ⟨l, hl⟩ := h.level?_of_holds hh
  obtain ⟨l', hl', -⟩ := hg.level _ l hl
  exact Nat.lt_irrefl _ (level?_lt e' _ hl')

end Using

/-! ## The wiring of the first instance -/

theorem wiring_rewireNode (hl : Laid e) {r : Record} {n : NodeKey} (hn : e.activeKey? inst r.id = some n) :
    ((e.rewireNode inst r).node? n).map (·.dispatch.toWires) = some r.outputs := by
  unfold rewireNode
  rw [hn]
  dsimp only
  split
  · rename_i hw
    exact hw
  · exact wiring_updateWires (hl.activeKey?_lt hn) r.outputs

/-- Each node gets its wiring, and keeps it while the others get theirs. -/
theorem wiring_rewireNodes (hl : Laid e) {rs : List Record} (hd : (rs.map (·.id)).Nodup) {r : Record} (hr : r ∈ rs)
    {n : NodeKey} (hn : e.activeKey? inst r.id = some n) :
    ((rs.foldl (rewireNode inst) e).node? n).map (·.dispatch.toWires) = some r.outputs := by
  induction rs generalizing e with
  | nil => cases hr
  | cons r' rs ih =>
    have hstep := rewires_rewireNode inst e r'
    obtain ⟨hnot, hd⟩ := List.nodup_cons.mp hd
    have hn' : (e.rewireNode inst r').activeKey? inst r.id = some n := (Rewires.entries hstep _ _).1.trans hn
    rw [List.foldl_cons]
    rcases List.mem_cons.mp hr with rfl | hr
    · have hrest : Spares (fun j id => j = inst ∧ id = r.id) (e.rewireNode inst r)
          (rs.foldl (rewireNode inst) (e.rewireNode inst r)) :=
        spares_rewireNodes (hstep.laid hl).placed fun s hs ⟨_, he⟩ => hnot (List.mem_map.mpr ⟨s, hs, he⟩)
      have hw := congrArg (Option.map Dispatch.toWires) (hrest.wiring inst r.id n ⟨rfl, rfl⟩ hn')
      rw [Option.map_map, Option.map_map] at hw
      exact Eq.trans hw (wiring_rewireNode hl hn)
    · exact ih (Rewires.laid hstep hl) hd hr hn'

/-- What the rewiring of a usage node comes to. -/
theorem rewireOne_usage {config : FlowConfig} {r : Record} {n : NodeKey} (hr : config.node? u = some r)
    (hn : e.activeKey? k u = some n) (hi : e.instance? k u = some inst) :
    e.rewireOne k config u = (e.rewireInstance inst r.outputs).updateWires n r.outputs := by
  unfold rewireOne
  rw [hr, hn, hi]

theorem Rewires.breaks (h : Rewires e e') (hb : e.broken = true) : e'.broken = true := by
  refine h.invariant (P := fun s => s.broken = true) (fun s s' hs ht => ?_) hb
  cases ht with
  | breaks => rfl
  | _ => exact hs

/-! ## The usage node and everything in its instance -/

section Usage

variable {e₀ : Engine} {n : NodeKey} {r : Record} {b : Binding} {nodes : List Record} {config : FlowConfig}

/-- The instances inside that of a usage node. -/
def Deeper (e : Engine) (inst j : LevelKey) (_ : NodeId) : Prop := Inside e inst j ∧ j ≠ inst

/-- Nothing that belongs to a usage node has come or gone, and the instances inside its instance are wired as
they were. -/
structure Unmoved (e₀ : Engine) (k : LevelKey) (u : NodeId) (inst : LevelKey) (e : Engine) : Prop where
  active : ∀ j id, Using.Holds e₀ k u inst j id → e.activeKey? j id = e₀.activeKey? j id
  instances : ∀ j id, Using.Holds e₀ k u inst j id → e.instance? j id = e₀.instance? j id
  deeper : Spares (Deeper e₀ inst) e₀ e

/-- A usage node with a new wiring, which has reached the nodes of its instance. -/
structure Anew (e₀ : Engine) (k : LevelKey) (u : NodeId) (inst : LevelKey) (n : NodeKey) (wires : Wires)
    (nodes : List Record) (e : Engine) : Prop extends Unmoved e₀ k u inst e where
  usage : (e.node? n).map (·.dispatch.toWires) = some wires
  own : ∀ r ∈ nodes, ∀ m, e.activeKey? inst r.id = some m →
    (e.node? m).map (·.dispatch.toWires) = some r.outputs

theorem Using.holds_of_deeper {id : NodeId} (hd : Deeper e₀ inst j id) : Using.Holds e₀ k u inst j id := .inr hd.1

theorem Using.eq_of_holds (h : Using e₀ k u inst) {id : NodeId} (hh : Using.Holds e₀ k u inst k id) : id = u :=
  hh.elim (·.2) fun hin => absurd hin h.not_inside

theorem Unmoved.refl (e₀ : Engine) : Unmoved e₀ k u inst e₀ :=
  ⟨fun _ _ _ => rfl, fun _ _ _ => rfl, .refl e₀⟩

theorem Unmoved.spares (h : Unmoved e₀ k u inst e) (hs : Spares (Using.Holds e₀ k u inst) e e') :
    Unmoved e₀ k u inst e' :=
  ⟨fun j id hj => (hs.active j id hj).trans (h.active j id hj),
    fun j id hj => (hs.inst j id hj).trans (h.instances j id hj),
    h.deeper.trans (hs.mono fun _ _ => Using.holds_of_deeper)⟩

theorem Anew.spares (h : Anew e₀ k u inst n outer nodes e) (hn : e₀.activeKey? k u = some n)
    (hs : Spares (Using.Holds e₀ k u inst) e e') : Anew e₀ k u inst n outer nodes e' := by
  have hwiring {j : LevelKey} {id : NodeId} {m : NodeKey} (hj : Using.Holds e₀ k u inst j id)
      (hm : e.activeKey? j id = some m) :
      (e'.node? m).map (·.dispatch.toWires) = (e.node? m).map (·.dispatch.toWires) := by
    have hw := congrArg (Option.map Dispatch.toWires) (hs.wiring j id m hj hm)
    rwa [Option.map_map, Option.map_map] at hw
  refine ⟨h.toUnmoved.spares hs, ?_, fun r hr m hm => ?_⟩
  · exact (hwiring (.inl ⟨rfl, rfl⟩) ((h.active k u (.inl ⟨rfl, rfl⟩)).trans hn)).trans h.usage
  · rw [hs.active inst r.id (.inr .here)] at hm
    exact (hwiring (.inr .here) hm).trans (h.own r hr m hm)

/-- The rewiring of another node does not touch the usage node. -/
theorem spares_rewireOne_other (h : Using e₀ k u inst) (hg : Grows e₀ e) (hl : Laid e) {id : NodeId} (hid : id ≠ u) :
    Spares (Using.Holds e₀ k u inst) e (e.rewireOne k config id) := by
  refine spares_rewireOne hl.placed (fun hh => hid (h.eq_of_holds hh)) fun inst' hi id' hh => ?_
  exact hid (h.eq_of_holds (h.holds_around hg (hl.isInstance hi) hh))

theorem anew_rewireOne (h : Using e₀ k u inst) (hg : Grows e₀ e) (hl : Laid e) (hu : Unmoved e₀ k u inst e)
    (hn : e₀.activeKey? k u = some n) (hr : config.node? u = some r) (hb : e₀.binding? inst = some b)
    (hx : b.expand? r.outputs = some nodes) :
    Anew e₀ k u inst n r.outputs nodes (e.rewireOne k config u) := by
  have hn' : e.activeKey? k u = some n := (hu.active k u (.inl ⟨rfl, rfl⟩)).trans hn
  have hi' : e.instance? k u = some inst := (hu.instances k u (.inl ⟨rfl, rfl⟩)).trans h.inst
  have hb' : e.binding? inst = some b := hg.binding? hb
  have hrew := rewires_rewireInstance e inst r.outputs
  have hn'' : (e.rewireInstance inst r.outputs).activeKey? k u = some n := (Rewires.entries hrew k u).1.trans hn'
  have hall := rewires_rewireOne k config e u
  -- neither the first instance nor the usage node is one of the deeper entries
  have hdeep : Spares (Deeper e₀ inst) e (e.rewireOne k config u) := by
    rw [rewireOne_usage hr hn' hi']
    refine (spares_rewireInstance hl.placed (fun id hd => hd.2 rfl) _).trans
      (spares_updateWires (fun j id hd hm => ?_) r.outputs)
    obtain ⟨rfl, -⟩ := (hrew.laid hl).activeKey?_inj hm hn''
    exact h.not_inside hd.1
  refine ⟨⟨fun j id hj => ?_, fun j id hj => ?_, hu.deeper.trans hdeep⟩, ?_, fun r' hr' m hm => ?_⟩
  · exact (Rewires.entries hall j id).1.trans (hu.active j id hj)
  · exact (Rewires.entries hall j id).2.trans (hu.instances j id hj)
  · rw [rewireOne_usage hr hn' hi']
    exact wiring_updateWires ((hrew.laid hl).activeKey?_lt hn'') r.outputs
  · rw [(Rewires.entries hall inst r'.id).1] at hm
    rw [rewireOne_usage hr hn' hi', rewireInstance_eq hb' hx, node?_updateWires, if_neg, node?_modifyLevel]
    · refine wiring_rewireNodes hl ?_ hr' hm
      have hmade := hl.made hb'
      rw [Binding.expand?_ids hmade.fitting hx]
      exact hmade.nodup
    · rintro rfl
      obtain ⟨rfl, -⟩ := hl.activeKey?_inj hm hn'
      exact h.not_inside .here

/-- The usage node is reached among all nodes that are rewired. -/
theorem anew_rewireAll (h : Using e₀ k u inst) (hn : e₀.activeKey? k u = some n) (hr : config.node? u = some r)
    (hb : e₀.binding? inst = some b) (hx : b.expand? r.outputs = some nodes) (ids : List NodeId) (hg : Grows e₀ e)
    (hl : Laid e) (hu : Unmoved e₀ k u inst e) (hm : u ∈ ids ∨ Anew e₀ k u inst n r.outputs nodes e) :
    Anew e₀ k u inst n r.outputs nodes (ids.foldl (rewireOne k config) e) := by
  induction ids generalizing e with
  | nil => exact hm.resolve_left List.not_mem_nil
  | cons id ids ih =>
    have hstep := rewires_rewireOne k config e id
    have hg' := hg.trans hstep.grows
    rw [List.foldl_cons]
    by_cases hid : id = u
    · subst hid
      have ha := anew_rewireOne h hg hl hu hn hr hb hx
      exact ih hg' (hstep.laid hl) ha.toUnmoved (.inr ha)
    · have hs : Spares (Using.Holds e₀ k u inst) e (e.rewireOne k config id) :=
        spares_rewireOne_other h hg hl hid
      refine ih hg' (hstep.laid hl) (hu.spares hs) (hm.imp (fun hm => ?_) fun ha => ha.spares hn hs)
      exact (List.mem_cons.mp hm).resolve_left (Ne.symm hid)

/-- A port number out of range among all nodes that are rewired breaks the engine. -/
theorem breaks_rewireAll (hn : e.activeKey? k u = some n) (hi : e.instance? k u = some inst)
    (hr : config.node? u = some r) (hb : e.binding? inst = some b) (hx : b.expand? r.outputs = none)
    {ids : List NodeId} (hm : u ∈ ids) : (ids.foldl (rewireOne k config) e).broken = true := by
  induction ids generalizing e with
  | nil => cases hm
  | cons id ids ih =>
    have hstep := rewires_rewireOne k config e id
    rw [List.foldl_cons]
    by_cases hid : id = u
    · subst hid
      have hbroken : (e.rewireOne k config id).broken = true := by
        rw [rewireOne_usage hr hn hi, rewireInstance, hb]
        dsimp only
        rw [hx]
        exact Rewires.breaks (rewires_updateWires _ _ _) rfl
      exact Rewires.breaks (.foldl _ (fun e id => rewires_rewireOne k config e id) ids _) hbroken
    · refine ih ?_ ?_ (hstep.grows.binding? hb) ((List.mem_cons.mp hm).resolve_left (Ne.symm hid))
      · exact (Rewires.entries hstep k u).1.trans hn
      · exact (Rewires.entries hstep k u).2.trans hi

end Usage

end Flowgraph.Engine
