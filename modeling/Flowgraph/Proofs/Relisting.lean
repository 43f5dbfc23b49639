import Mathlib.Data.List.Perm.Basic
import Flowgraph.Proofs.Parsing
/-! Deployments whose records are listed in another order. They are read whenever one of them is, and then have the same
tabs, templates and nodes, so that all lookups agree. -/
namespace Flowgraph

theorem find?_perm {α : Type} {f : α → String} {xs ys : List α} (h : xs.Perm ys) (hn : (xs.map f).Nodup)
    (key : String) : xs.find? (f · == key) = ys.find? (f · == key) := by
  cases hx : xs.find? (f · == key) with
  | none =>
    refine (List.find?_eq_none.mpr fun y hy => ?_).symm
    exact List.find?_eq_none.mp hx y (h.mem_iff.mpr hy)
  | some x =>
    obtain rfl : f x = key := by simpa using List.find?_some hx
    exact (find?_of_nodup ((h.map f).nodup hn) (h.mem_iff.mp (List.mem_of_find?_eq_some hx))).symm

namespace Dict

variable {α β : Type} {d d' : Dict α} {entries entries' : List (String × α)}

/-- Lookups do not depend on the order in which a table is listed. -/
theorem get?_perm (h : d.Perm d') (hn : d.keys.Nodup) (key : String) : d.get? key = d'.get? key := by
  rw [get?, get?, find?_perm h hn]

theorem contains_iff {key : String} : d.contains key = true ↔ key ∈ d.keys := by simp [contains, keys]

theorem contains_perm {e : Dict β} (h : d.keys.Perm e.keys) (key : String) : d.contains key = e.contains key := by
  rw [Bool.eq_iff_iff, contains_iff, contains_iff, h.mem_iff]

theorem perm_insert {key : String} (h : key ∉ d.keys) (value : α) : (d.insert key value).Perm ((key, value) :: d) := by
  induction d with
  | nil => exact .refl _
  | cons entry rest ih =>
    obtain ⟨k, v⟩ := entry
    obtain ⟨hne, hrest⟩ : key ≠ k ∧ key ∉ keys rest := not_or.mp (mt List.mem_cons.mpr h)
    rw [insert]
    split
    · exact .refl _
    · exact ((ih hrest).cons _).trans (.swap ..)

/-- A table has just the entries it is made of, if their keys are different. -/
theorem perm_ofList (h : (entries.map (·.1)).Nodup) : (ofList entries).Perm entries := by
  have hfold (entries : List (String × α)) (d : Dict α) (hn : ((entries ++ d).map (·.1)).Nodup) :
      (entries.foldl (fun d entry => Dict.insert d entry.1 entry.2) d).Perm (entries ++ d) := by
    induction entries generalizing d with
    | nil => exact .refl _
    | cons entry rest ih =>
      have hfree : entry.1 ∉ d.keys := fun hk => by
        obtain ⟨hentry, -⟩ := List.nodup_cons.mp hn
        exact hentry (List.map_append ▸ List.mem_append_right _ hk)
      have hins := perm_insert hfree entry.2
      have hmove : (rest ++ Dict.insert d entry.1 entry.2).Perm (entry :: (rest ++ d)) :=
        (hins.append_left rest).trans List.perm_middle
      exact (ih _ ((hmove.map _).nodup_iff.mpr hn)).trans hmove
  simpa [ofList] using hfold entries [] (by simpa using h)

theorem perm_mapValues (f : α → β) (h : d.Perm d') : (d.mapValues f).Perm (d'.mapValues f) := h.map _

theorem keys_mapValues (f : α → β) (d : Dict α) : (d.mapValues f).keys = d.keys := by
  simp [keys, mapValues, Function.comp_def]

theorem values_mapValues (f : α → β) (d : Dict α) : (d.mapValues f).values = d.values.map f := by
  simp [values, mapValues, Function.comp_def]

end Dict

namespace Deployment

variable {records records' : List Json} {found found' : List Item} {seen : List String} {v : Json}

/-! ## Reading in another order -/

/-- What a record is read as, whatever stands before it. -/
def Reads (v : Json) (item : Item) : Prop := ∃ type, identify v = .ok (item.id, type) ∧ item? type v = some item

theorem items_cons_eq_ok : items seen (v :: records) = .ok found ↔
    ∃ item others, Reads v item ∧ item.id ∉ seen ∧ items (item.id :: seen) records = .ok others ∧
      found = item :: others := by
  rw [items]
  cases hv : identify v with
  | error fault => simp [Reads, hv, bind, Except.bind]
  | ok pair =>
    obtain ⟨id, type⟩ := pair
    simp only [bind, Except.bind]
    constructor
    · intro h
      split at h
      · cases h
      · rename_i hnew
        split at h
        · cases h
        · rename_i item hitem
          obtain rfl : item.id = id := Option.some.inj ((item?_id hitem).symm.trans (identify_id hv))
          split at h
          · cases h
          · rename_i others hothers
            cases h
            exact ⟨item, others, ⟨type, hv, hitem⟩, by simpa using hnew, hothers, rfl⟩
    · rintro ⟨item, others, ⟨type', hid, hitem⟩, hnew, hothers, rfl⟩
      cases hv.symm.trans hid
      rw [if_neg (by simpa using hnew), hitem]
      dsimp only
      rw [hothers]
      rfl

/-- A list of records is read if each is and no id occurs twice. -/
theorem items_eq_ok : items seen records = .ok found ↔
    List.Forall₂ Reads records found ∧ (found.map Item.id).Nodup ∧ ∀ item ∈ found, item.id ∉ seen := by
  induction records generalizing seen found with
  | nil =>
    rw [List.forall₂_nil_left_iff, items, Except.ok.injEq]
    constructor
    · rintro rfl
      simp
    · rintro ⟨rfl, -⟩
      rfl
  | cons v records ih =>
    rw [items_cons_eq_ok, List.forall₂_cons_left_iff]
    constructor
    · rintro ⟨item, others, hread, hnew, hothers, rfl⟩
      obtain ⟨hreads, hnodup, hseen⟩ := ih.mp hothers
      refine ⟨⟨item, others, hread, hreads, rfl⟩, List.nodup_cons.mpr ⟨fun hm => ?_, hnodup⟩, fun other ho => ?_⟩
      · obtain ⟨other, ho, he⟩ := List.mem_map.mp hm
        exact hseen other ho (he ▸ List.mem_cons_self)
      · rcases List.mem_cons.mp ho with rfl | ho
        · exact hnew
        · exact fun hm => hseen other ho (List.mem_cons_of_mem _ hm)
    · rintro ⟨⟨item, others, hread, hreads, rfl⟩, hnodup, hseen⟩
      obtain ⟨hid, hnodup⟩ := List.nodup_cons.mp hnodup
      refine ⟨item, others, hread, hseen item List.mem_cons_self, ih.mpr ⟨hreads, hnodup, fun other ho hm => ?_⟩, rfl⟩
      rcases List.mem_cons.mp hm with he | hm
      · exact hid (he ▸ List.mem_map_of_mem ho)
      · exact hseen other (List.mem_cons_of_mem _ ho) hm

/-- Whether records are read does not depend on their order. -/
theorem items_perm (h : items [] records = .ok found) (hp : records'.Perm records) :
    ∃ found', items [] records' = .ok found' ∧ found'.Perm found := by
  obtain ⟨hreads, hnodup, -⟩ := items_eq_ok.mp h
  obtain ⟨found', hreads', hfound⟩ := List.perm_comp_forall₂ hp hreads
  exact ⟨found', items_eq_ok.mpr ⟨hreads', (hfound.map _).nodup_iff.mpr hnodup, fun _ _ => List.not_mem_nil⟩, hfound⟩

/-! ## The same declarations -/

end Deployment

/-- A template without its nodes. -/
def Template.bare (t : Template) : Template := { t with nodes := [] }

/-- A flow without its nodes and without the templates it sees. -/
def FlowConfig.bare (c : FlowConfig) : FlowConfig := { c with nodes := [], templates := [] }

namespace Deployment

variable {records records' : List Json} {found found' : List Item} {d d' d'' : Deployment} {rs : List Record}

/-- The same nodes, and the same declarations of tabs and templates, in whatever order they are listed. -/
structure Relisted (d d' : Deployment) : Prop where
  nodes : d'.nodes.Perm d.nodes
  templates : (d'.templates.mapValues Template.bare).Perm (d.templates.mapValues Template.bare)
  tabs : (d'.tabs.map FlowConfig.bare).Perm (d.tabs.map FlowConfig.bare)

/-- The same deployment, with its tables of nodes and templates listed in any order. -/
structure Shuffled (d d' : Deployment) : Prop where
  nodes : d'.nodes.Perm d.nodes
  templates : d'.templates.Perm d.templates
  tabs : d'.tabs = d.tabs
  global : d'.global = d.global

theorem Shuffled.relisted (h : d.Shuffled d') : d.Relisted d' :=
  ⟨h.nodes, Dict.perm_mapValues _ h.templates, .of_eq (h.tabs ▸ rfl)⟩

theorem Relisted.trans (h : d.Relisted d') (h' : d'.Relisted d'') : d.Relisted d'' :=
  ⟨h'.nodes.trans h.nodes, h'.templates.trans h.templates, h'.tabs.trans h.tabs⟩

theorem perm_nodes_assemble (hn : (found.map Item.id).Nodup) :
    (assemble found).nodes.Perm ((found.filterMap Item.node?).map fun r => (r.id, r)) := by
  refine Dict.perm_ofList ?_
  have hids := filterMap_ids (f := Item.node?) (g := Record.id) (fun item r hr => by cases item <;> cases hr; rfl) hn
  simpa [Function.comp_def] using hids

theorem perm_templates_assemble (hn : (found.map Item.id).Nodup) :
    ((assemble found).templates.mapValues Template.bare).Perm
      ((found.filterMap Item.template?).map fun t => (t.id, t.bare)) := by
  have hids := filterMap_ids (f := Item.template?) (g := Template.id)
    (fun item r hr => by cases item <;> cases hr; rfl) hn
  refine (Dict.perm_mapValues _ (Dict.perm_ofList ?_)).trans (.of_eq ?_)
  · simpa [Function.comp_def] using hids
  · simp only [Dict.mapValues, List.map_map]
    rfl

theorem bare_tabs_assemble (found : List Item) :
    (assemble found).tabs.map FlowConfig.bare = (found.filterMap Item.tab?).map FlowConfig.bare := by
  simp only [assemble, List.map_map]
  rfl

theorem relisted_assemble (hn : (found.map Item.id).Nodup) (h : found'.Perm found) :
    (assemble found).Relisted (assemble found') := by
  have hn' : (found'.map Item.id).Nodup := (h.map _).nodup_iff.mpr hn
  refine ⟨?_, ?_, ?_⟩
  · exact (perm_nodes_assemble hn').trans (((h.filterMap _).map _).trans (perm_nodes_assemble hn).symm)
  · exact (perm_templates_assemble hn').trans (((h.filterMap _).map _).trans (perm_templates_assemble hn).symm)
  · rw [bare_tabs_assemble, bare_tabs_assemble]
    exact (h.filterMap _).map _

/-- Records in another order are read as well, and make the same declarations. -/
theorem parse_perm (h : parse records = .ok d) (hp : records'.Perm records) :
    ∃ d', parse records' = .ok d' ∧ d.Relisted d' := by
  unfold parse at h
  cases hi : items [] records with
  | error fault =>
    rw [hi] at h
    cases h
  | ok found =>
    rw [hi] at h
    cases h
    obtain ⟨found', hi', hfound⟩ := items_perm hi hp
    exact ⟨assemble found', by rw [parse, hi']; rfl, relisted_assemble (items_ids hi).1 hfound⟩

theorem tabIds_bare (d : Deployment) : (d.tabs.map FlowConfig.bare).map (·.id) = d.tabIds := by
  simp [tabIds, FlowConfig.bare, Function.comp_def]

theorem templateIds_bare (d : Deployment) : (d.templates.mapValues Template.bare).values.map (·.id) =
    d.templates.values.map (·.id) := by
  simp [Dict.values_mapValues, Template.bare, Function.comp_def]

namespace Relisted

variable (h : d.Relisted d')
include h

theorem mem_nodes {r : Record} : r ∈ d'.nodes.values ↔ r ∈ d.nodes.values := (h.nodes.map _).mem_iff

theorem contains_node (id : NodeId) : d'.nodes.contains id = d.nodes.contains id :=
  Dict.contains_perm (h.nodes.map _) id

theorem tabIds : d'.tabIds.Perm d.tabIds := by
  have hp := h.tabs.map (·.id)
  rwa [tabIds_bare, tabIds_bare] at hp

theorem contains_tab (z : String) : d'.tabIds.contains z = d.tabIds.contains z := h.tabIds.contains_eq

theorem keys_templates : d'.templates.keys.Perm d.templates.keys := by
  have hp : (d'.templates.mapValues Template.bare).keys.Perm (d.templates.mapValues Template.bare).keys :=
    h.templates.map _
  rwa [Dict.keys_mapValues, Dict.keys_mapValues] at hp

theorem templateIds : (d'.templates.values.map (·.id)).Perm (d.templates.values.map (·.id)) := by
  rw [← templateIds_bare, ← templateIds_bare]
  exact (h.templates.map _).map _

theorem contains_template (z : String) : d'.templates.contains z = d.templates.contains z :=
  Dict.contains_perm h.keys_templates z

theorem get?_nodes (ha : Arranged d rs) (id : NodeId) : d'.nodes.get? id = d.nodes.get? id :=
  (Dict.get?_perm h.nodes.symm ha.sorted.nodup id).symm

theorem get?_template (hs : d.templates.Sorted) (z : String) :
    (d'.templates.get? z).map Template.bare = (d.templates.get? z).map Template.bare := by
  rw [← Dict.get?_mapValues, ← Dict.get?_mapValues]
  refine (Dict.get?_perm h.templates.symm ?_ z).symm
  rw [Dict.keys_mapValues]
  exact hs.nodup

theorem find?_tab (ha : Arranged d rs) (z : String) :
    (d'.tabs.find? (·.id == z)).map FlowConfig.bare = (d.tabs.find? (·.id == z)).map FlowConfig.bare := by
  have hbare (d : Deployment) : (d.tabs.find? (·.id == z)).map FlowConfig.bare =
      (d.tabs.map FlowConfig.bare).find? (·.id == z) := by
    rw [List.find?_map]
    rfl
  rw [hbare, hbare]
  refine (find?_perm h.tabs.symm ?_ z).symm
  rw [tabIds_bare]
  exact ha.tabIds

end Relisted
end Deployment
end Flowgraph
