import Flowgraph.Proofs.Renaming
/-! The creation order of a flow is an order of dependency: the config nodes come first, each behind those it names
anywhere in its properties, and the other nodes follow as they are declared. -/
namespace Flowgraph

/-! ## What a node names -/

/-- A text stands inside a value, at any depth. The names of fields do not count. -/
inductive Json.Mentions (s : String) : Json → Prop
  | text : Mentions s (.str s)
  | item {xs : List Json} {x : Json} (hx : x ∈ xs) (h : Mentions s x) : Mentions s (.arr xs)
  | field {xs : List (String × Json)} {k : String} {x : Json} (hx : (k, x) ∈ xs) (h : Mentions s x) :
      Mentions s (.obj xs)

/-- A text stands inside the value of one of the node's properties. -/
def Record.Mentions (r : Record) (s : String) : Prop := ∃ k v, (k, v) ∈ r.properties ∧ v.Mentions s

mutual
theorem Json.mem_texts (s : String) : (v : Json) → (s ∈ v.texts ↔ v.Mentions s)
  | .null | .bool _ | .num _ => ⟨fun h => by simp [texts] at h, fun h => by cases h⟩
  | .str t => by
    rw [texts, List.mem_singleton]
    constructor
    · rintro rfl
      exact .text
    · intro h
      cases h
      rfl
  | .arr xs => by
    rw [texts, mem_textsOfItems s xs]
    constructor
    · rintro ⟨x, hx, h⟩
      exact .item hx h
    · intro h
      cases h with
      | item hx h => exact ⟨_, hx, h⟩
  | .obj xs => by
    rw [texts, mem_textsOfFields s xs]
    constructor
    · rintro ⟨k, x, hx, h⟩
      exact .field hx h
    · intro h
      cases h with
      | field hx h => exact ⟨_, _, hx, h⟩

theorem Json.mem_textsOfItems (s : String) : (xs : List Json) → (s ∈ textsOfItems xs ↔ ∃ x ∈ xs, x.Mentions s)
  | [] => by simp [textsOfItems]
  | x :: xs => by simp [textsOfItems, mem_texts s x, mem_textsOfItems s xs]

theorem Json.mem_textsOfFields (s : String) :
    (xs : List (String × Json)) → (s ∈ textsOfFields xs ↔ ∃ k x, (k, x) ∈ xs ∧ x.Mentions s)
  | [] => by simp [textsOfFields]
  | (k, x) :: xs => by
    simp only [textsOfFields, List.mem_append, mem_texts s x, mem_textsOfFields s xs, List.mem_cons, Prod.mk.injEq]
    constructor
    · rintro (h | ⟨k', x', hx, h⟩)
      · exact ⟨k, x, .inl ⟨rfl, rfl⟩, h⟩
      · exact ⟨k', x', .inr hx, h⟩
    · rintro ⟨k', x', ⟨rfl, rfl⟩ | hx, h⟩
      · exact .inl h
      · exact .inr ⟨k', x', hx, h⟩
end

theorem Record.refersTo_iff {r : Record} {id : NodeId} : r.refersTo id = true ↔ r.id ≠ id ∧ r.Mentions id := by
  simp only [refersTo, Bool.and_eq_true, bne_iff_ne, List.contains_iff_mem, references, Json.mem_textsOfFields, Mentions]

namespace StartOrder

variable {nodes : List Record} {order order' path : List Nat} {pos p q : Nat}

/-! ## Which nodes a node needs -/

/-- The position of an enabled config node. -/
def EnabledConfig (nodes : List Record) (pos : Nat) : Prop :=
  ∃ r, nodes[pos]? = some r ∧ r.disabled = false ∧ r.isConfigNode = true

/-- The position of an enabled node that is no config node. -/
def EnabledOther (nodes : List Record) (pos : Nat) : Prop :=
  ∃ r, nodes[pos]? = some r ∧ r.disabled = false ∧ r.isConfigNode = false

/-- The node at `pos` names the id of the node at `p`, which is not the same. -/
def Names (nodes : List Record) (pos p : Nat) : Prop :=
  pos ≠ p ∧ ∃ r dep, nodes[pos]? = some r ∧ nodes[p]? = some dep ∧ r.Mentions dep.id

theorem EnabledConfig.enabled (h : EnabledConfig nodes pos) : Enabled nodes pos := by
  obtain ⟨r, hr, hd, -⟩ := h
  exact ⟨r, hr, hd⟩

theorem EnabledConfig.not_other (h : EnabledConfig nodes pos) : ¬EnabledOther nodes pos := by
  obtain ⟨r, hr, -, hc⟩ := h
  rintro ⟨r', hr', -, hc'⟩
  obtain rfl := Option.some.inj (hr.symm.trans hr')
  rw [hc] at hc'
  cases hc'

theorem enabledConfig_of_mem_needs (h : p ∈ needs nodes pos) : EnabledConfig nodes p := by
  obtain ⟨r, dep, hr, hdep, hd, hc, -⟩ := mem_needs.mp h
  exact ⟨dep, hdep, hd, hc⟩

/-- Nodes with distinct ids stand at different positions. -/
theorem eq_of_same_id (hids : (nodes.map (·.id)).Nodup) {r r' : Record} (hr : nodes[p]? = some r)
    (hr' : nodes[q]? = some r') (h : r.id = r'.id) : p = q := by
  have hlt : p < (nodes.map (·.id)).length := by
    rw [List.length_map]
    exact (List.getElem?_eq_some_iff.mp hr).1
  refine (List.getElem?_inj hlt hids).mp ?_
  rw [List.getElem?_map, List.getElem?_map, hr, hr', Option.map_some, Option.map_some, h]

theorem positionOf?_of_distinct (hids : (nodes.map (·.id)).Nodup) {r : Record} (hr : nodes[p]? = some r)
    (hd : r.disabled = false) : positionOf? nodes r.id = some p := by
  refine positionOf?_eq_some.mpr ⟨⟨r, hr, hd, rfl⟩, ?_⟩
  rintro q ⟨r', hr', -, hid⟩
  exact Nat.le_of_eq (eq_of_same_id hids hr' hr hid)

/-- If ids are distinct, a node needs the enabled config nodes that it names. -/
theorem mem_needs_iff (hids : (nodes.map (·.id)).Nodup) :
    p ∈ needs nodes pos ↔ EnabledConfig nodes p ∧ Names nodes pos p := by
  rw [mem_needs]
  constructor
  · rintro ⟨r, dep, hr, hdep, hd, hc, href, -⟩
    obtain ⟨hne, hm⟩ := Record.refersTo_iff.mp href
    refine ⟨⟨dep, hdep, hd, hc⟩, ?_, r, dep, hr, hdep, hm⟩
    rintro rfl
    exact hne (congrArg Record.id (Option.some.inj (hr.symm.trans hdep)))
  · rintro ⟨⟨dep, hdep, hd, hc⟩, hne, r, dep', hr, hdep', hm⟩
    obtain rfl := Option.some.inj (hdep.symm.trans hdep')
    refine ⟨r, dep, hr, hdep, hd, hc, ?_, positionOf?_of_distinct hids hdep hd⟩
    exact Record.refersTo_iff.mpr ⟨fun h => hne (eq_of_same_id hids hr hdep h), hm⟩

/-! ## The two groups of roots -/

/-- The positions of the enabled nodes of one group, as declared. -/
def rootsWhere (nodes : List Record) (config : Bool) : List Nat :=
  ((nodes.zipIdx.filter fun (r, _) => !r.disabled).filter fun (r, _) => r.isConfigNode == config).map (·.2)

theorem roots_eq : roots nodes = rootsWhere nodes true ++ rootsWhere nodes false := by
  simp [roots, rootsWhere]

theorem mem_rootsWhere {config : Bool} : pos ∈ rootsWhere nodes config ↔
    ∃ r, nodes[pos]? = some r ∧ r.disabled = false ∧ r.isConfigNode = config := by
  have hz (r : Record) : (r, pos) ∈ nodes.zipIdx ↔ nodes[pos]? = some r := List.mem_zipIdx_iff_getElem?
  simp [rootsWhere, hz, and_assoc, and_comm]

theorem pairwise_rootsWhere {config : Bool} : (rootsWhere nodes config).Pairwise (· < ·) := by
  have hall : (nodes.zipIdx.map (·.2)).Pairwise (· < ·) := by
    rw [List.zipIdx_map_snd]
    exact List.pairwise_lt_range'
  have hsub : (rootsWhere nodes config).Sublist (nodes.zipIdx.map (·.2)) :=
    (List.filter_sublist.trans List.filter_sublist).map _
  exact hall.sublist hsub

/-! ## The order of the groups -/

/-- A visit adds only what is needed, besides the node itself. -/
theorem mem_of_visit {P : Nat → Prop} (hneeds : ∀ pos, ∀ p ∈ needs nodes pos, P p) (fuel : Nat) (hpos : P pos)
    (h : visit nodes fuel path order pos = .ok order') : ∀ p ∈ order', p ∈ order ∨ P p := by
  induction fuel generalizing path order order' pos with
  | zero =>
    rw [visit] at h
    split at h
    · cases h
      exact fun p hp => .inl hp
    · split at h <;> cases h
  | succ fuel ih =>
    rw [visit] at h
    split at h
    · cases h
      exact fun p hp => .inl hp
    · split at h
      · cases h
      · obtain ⟨mid, hn, h⟩ := of_bind_ok h
        cases h
        -- only what the node needs has been visited before it
        have hmid : (∀ p ∈ needs nodes pos, P p) → ∀ p ∈ mid, p ∈ order ∨ P p := by
          refine foldlM_ok_invariant (P := fun done o => (∀ p ∈ done, P p) → ∀ p ∈ o, p ∈ order ∨ P p)
            (fun done a o o' ho hv hall p hp => ?_) (fun _ p hp => .inl hp) hn
          rcases ih (hall a (by simp)) hv p hp with hp | hp
          · exact ho (fun b hb => hall b (List.mem_append_left _ hb)) p hp
          · exact .inr hp
        intro p hp
        rcases List.mem_append.mp hp with hp | hp
        · exact hmid (hneeds pos) p hp
        · obtain rfl := List.mem_singleton.mp hp
          exact .inr hpos

theorem visit_of_mem (fuel : Nat) (h : p ∈ order) : visit nodes fuel path order p = .ok order := by
  unfold visit
  exact if_pos (List.contains_iff_mem.mpr h)

theorem foldlM_visit_of_mem (fuel : Nat) {ps : List Nat} (h : ∀ p ∈ ps, p ∈ order) :
    ps.foldlM (visit nodes fuel path) order = .ok order := by
  induction ps with
  | nil => rfl
  | cons p ps ih =>
    rw [List.foldlM_cons, visit_of_mem fuel (h p List.mem_cons_self)]
    exact ih fun q hq => h q (List.mem_cons_of_mem _ hq)

/-- Nodes for which all is there are put behind the others as they come. -/
theorem foldlM_visit_ready {fuel : Nat} {ps : List Nat} (hready : ∀ p ∈ ps, ∀ q ∈ needs nodes p, q ∈ order)
    (hfresh : ∀ p ∈ ps, p ∉ order) (hnodup : ps.Nodup) :
    ps.foldlM (visit nodes (fuel + 1) []) order = .ok (order ++ ps) := by
  induction ps generalizing order with
  | nil => rw [List.append_nil]; rfl
  | cons p ps ih =>
    have hp : visit nodes (fuel + 1) [] order p = .ok (order ++ [p]) := by
      have hout : ¬order.contains p = true := fun h => hfresh p List.mem_cons_self (List.contains_iff_mem.mp h)
      have hin : (needs nodes p).foldlM (visit nodes fuel [p]) order = .ok order :=
        foldlM_visit_of_mem fuel (hready p List.mem_cons_self)
      rw [visit, if_neg hout, hin]
      rfl
    obtain ⟨hnot, hnodup⟩ := List.nodup_cons.mp hnodup
    rw [List.foldlM_cons, hp]
    refine (ih (fun a ha q hq => ?_) (fun a ha hin => ?_) hnodup).trans (by rw [List.append_assoc]; rfl)
    · exact List.mem_append_left _ (hready a (List.mem_cons_of_mem _ ha) q hq)
    · rcases List.mem_append.mp hin with hin | hin
      · exact hfresh a (List.mem_cons_of_mem _ ha) hin
      · exact hnot (List.mem_singleton.mp hin ▸ ha)

/-- The order is one of the config nodes, followed by the other nodes as they are declared. -/
theorem resolve_groups (h : resolve nodes = .ok order) :
    ∃ configs, (∀ p, p ∈ configs ↔ EnabledConfig nodes p) ∧ order = configs ++ rootsWhere nodes false := by
  rw [resolve, roots_eq, List.foldlM_append] at h
  obtain ⟨configs, hc, hrest⟩ := of_bind_ok h
  have hin : (∀ p ∈ rootsWhere nodes true, EnabledConfig nodes p) → ∀ p ∈ configs, EnabledConfig nodes p := by
    refine foldlM_ok_invariant (P := fun done o => (∀ p ∈ done, EnabledConfig nodes p) → ∀ p ∈ o, EnabledConfig nodes p)
      (fun done a o o' ho hv hall p hp => ?_) (fun _ p hp => by cases hp) hc
    rcases mem_of_visit (fun _ _ => enabledConfig_of_mem_needs) _ (hall a (by simp)) hv p hp with hp | hp
    · exact ho (fun b hb => hall b (List.mem_append_left _ hb)) p hp
    · exact hp
  have hconfigs (p : Nat) : p ∈ configs ↔ EnabledConfig nodes p := by
    refine ⟨hin (fun p hp => mem_rootsWhere.mp hp) p, fun hp => ?_⟩
    exact (extends_foldlM (fun o p o' hp hv => extends_visit _ _ hp hv)
      (fun q hq => EnabledConfig.enabled (mem_rootsWhere.mp hq)) hc).2 p (mem_rootsWhere.mpr hp)
  have hothers : (rootsWhere nodes false).foldlM (visit nodes (nodes.length + 1) []) configs =
      .ok (configs ++ rootsWhere nodes false) :=
    foldlM_visit_ready (fun p _ q hq => (hconfigs q).mpr (enabledConfig_of_mem_needs hq))
      (fun p hp hm => ((hconfigs p).mp hm).not_other (mem_rootsWhere.mp hp))
      (pairwise_rootsWhere.imp fun h => Nat.ne_of_lt h)
  exact ⟨configs, hconfigs, Except.ok.inj (hrest.symm.trans hothers)⟩

/-! ## The order as a whole -/

/-- An order in which nodes can be created: what a node names is there before it. -/
structure Respects (nodes : List Record) (order : List Nat) : Prop where
  /-- Every enabled node has one place, and nothing else has one. -/
  once : order.Nodup
  enabled : ∀ pos, pos ∈ order ↔ Enabled nodes pos
  named : ∀ pos p, Enabled nodes pos → EnabledConfig nodes p → Names nodes pos p → order.idxOf p < order.idxOf pos
  configsFirst : ∀ p pos, EnabledConfig nodes p → EnabledOther nodes pos → order.idxOf p < order.idxOf pos
  declared : ∀ p q, EnabledOther nodes p → EnabledOther nodes q → p < q → order.idxOf p < order.idxOf q

theorem idxOf_lt_of_pairwise {xs : List Nat} (hs : xs.Pairwise (· < ·)) (hp : p ∈ xs) (hq : q ∈ xs) (h : p < q) :
    xs.idxOf p < xs.idxOf q := by
  induction xs with
  | nil => cases hp
  | cons x xs ih =>
    obtain ⟨hx, hs⟩ := List.pairwise_cons.mp hs
    have hqx : x ≠ q := by
      rintro rfl
      rcases List.mem_cons.mp hp with rfl | hp
      · exact Nat.lt_irrefl _ h
      · exact Nat.lt_asymm h (hx p hp)
    have hq' : q ∈ xs := (List.mem_cons.mp hq).resolve_left (Ne.symm hqx)
    rw [List.idxOf_cons_ne _ hqx]
    by_cases hpx : x = p
    · rw [hpx, List.idxOf_cons_self]
      exact Nat.succ_pos _
    · rw [List.idxOf_cons_ne _ hpx]
      exact Nat.succ_lt_succ (ih hs ((List.mem_cons.mp hp).resolve_left (Ne.symm hpx)) hq')

/-- If a flow of nodes with distinct ids can be ordered, the order respects what the nodes name. -/
theorem resolve_respects (hids : (nodes.map (·.id)).Nodup) (h : resolve nodes = .ok order) : Respects nodes order := by
  obtain ⟨configs, hconfigs, heq⟩ := resolve_groups h
  have hother {p : Nat} (hp : EnabledOther nodes p) :
      p ∈ rootsWhere nodes false ∧ order.idxOf p = (rootsWhere nodes false).idxOf p + configs.length := by
    refine ⟨mem_rootsWhere.mpr hp, ?_⟩
    rw [heq, List.idxOf_append_of_notMem fun hm => ((hconfigs p).mp hm).not_other hp, Nat.add_comm]
  refine ⟨(ordered_resolve h).nodup, fun pos => mem_resolve h, fun pos p hpos hp hn => ?_, fun p pos hp hpos => ?_,
    fun p q hp hq hlt => ?_⟩
  · exact (ordered_resolve h).idxOf_lt ((mem_resolve h).mpr hpos) ((mem_needs_iff hids).mpr ⟨hp, hn⟩)
  · have hlt := List.idxOf_lt_length_of_mem ((hconfigs p).mpr hp)
    rw [(hother hpos).2, heq, List.idxOf_append_of_mem ((hconfigs p).mpr hp)]
    omega
  · rw [(hother hp).2, (hother hq).2]
    exact Nat.add_lt_add_right (idxOf_lt_of_pairwise pairwise_rootsWhere (hother hp).1 (hother hq).1 hlt) _

/-- Nodes with references deep in their properties, to themselves, to a disabled node and to each other. -/
def namingNodes : List Record :=
  [{ id := "user", type := "change", container := none, wires := some [], disabled := false,
     properties := [("rules", .arr [.obj [("to", .str "broker")], .str "user"])] },
   { id := "broker", type := "broker", container := none, wires := none, disabled := false,
     properties := [("tls", .obj [("key", .arr [.str "tls", .str "broker"])])] },
   { id := "old", type := "broker", container := none, wires := none, disabled := true, properties := [] },
   { id := "other", type := "debug", container := none, wires := some [], disabled := false,
     properties := [("from", .str "old"), ("via", .str "tls"), ("next", .str "user")] },
   { id := "tls", type := "tls", container := none, wires := none, disabled := false, properties := [] }]

theorem namingNodes_respected : (namingNodes.map (·.id)).Nodup ∧ resolve namingNodes = .ok [4, 1, 0, 3] ∧
    Respects namingNodes [4, 1, 0, 3] := by
  have hids : (namingNodes.map (·.id)).Nodup := by decide
  have horder : resolve namingNodes = .ok [4, 1, 0, 3] := by decide +kernel
  exact ⟨hids, horder, resolve_respects hids horder⟩

end StartOrder
end Flowgraph
