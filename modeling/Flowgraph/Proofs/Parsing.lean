import Mathlib.Data.List.Nodup
import Flowgraph.Config.Deployment
import Flowgraph.Proofs.Tables
/-! What a deployment that has been read looks like: its records have different ids, and each node is in the
place it names. -/
namespace Flowgraph.Deployment

def Item.id : Item → String
  | .tab config => config.id
  | .template t => t.id
  | .node r => r.id

/-- The deployment of these nodes, each in the place it names. -/
structure Arranged (d : Deployment) (rs : List Record) : Prop where
  nodup : (rs.map (·.id)).Nodup
  nodes : ∀ id, d.nodes.get? id = rs.find? (·.id == id)
  sorted : d.nodes.Sorted
  tabIds : d.tabIds.Nodup
  apart : ∀ r ∈ rs, r.id ∉ d.tabIds
  tabs : ∀ tab ∈ d.tabs, tab.nodes = nodesIn rs tab.id ∧ tab.templates = d.templates
  global : d.global = ⟨globalId, none, false, [], rs.filter (·.container.isNone), d.templates⟩
  templates : ∀ id t, d.templates.get? id = some t → t.id = id ∧ t.nodes = nodesIn rs id

/-! ## Reading records -/

theorem item?_id {type : String} {v : Json} {item : Item} (h : item? type v = some item) :
    (v.field? "id").bind Json.asStr? = some item.id := by
  unfold item? at h
  split at h
  · obtain ⟨config, hc, rfl⟩ := Option.map_eq_some_iff.mp h
    unfold tab? at hc
    simp only [bind, Option.bind_eq_some_iff] at hc
    obtain ⟨id, ⟨v', hv', hs⟩, _, _, _, _, _, _, hc⟩ := hc
    cases hc
    rw [hv']
    exact hs
  · split at h
    · obtain ⟨t, ht, rfl⟩ := Option.map_eq_some_iff.mp h
      unfold template? at ht
      simp only [bind, Option.bind_eq_some_iff] at ht
      obtain ⟨id, ⟨v', hv', hs⟩, _, _, _, _, _, _, _, _, _, _, _, _, ht⟩ := ht
      cases ht
      rw [hv']
      exact hs
    · obtain ⟨r, hr, rfl⟩ := Option.map_eq_some_iff.mp h
      unfold Record.ofJson? at hr
      simp only [bind, Option.bind_eq_some_iff] at hr
      obtain ⟨fields, hf, id, ⟨v', hv', hs⟩, _, _, _, _, _, _, _, _, _, _, _, _, hr⟩ := hr
      cases hr
      have hv : v.field? "id" = some v' := by
        unfold Json.field?
        rw [hf]
        exact hv'
      rw [hv]
      exact hs

theorem identify_id {v : Json} {id type : String} (h : identify v = .ok (id, type)) :
    (v.field? "id").bind Json.asStr? = some id := by
  unfold identify at h
  split at h
  · split at h
    · cases h
    · cases h
    · rename_i hid _
      cases h
      exact hid
  · cases h

/-- The records of a list that is read have different ids. -/
theorem items_ids {records : List Json} {seen : List String} {found : List Item}
    (h : items seen records = .ok found) :
    (found.map Item.id).Nodup ∧ ∀ item ∈ found, item.id ∉ seen := by
  induction records generalizing seen found with
  | nil =>
    cases h
    simp
  | cons v rest ih =>
    unfold items at h
    cases hv : identify v with
    | error fault => rw [hv] at h; cases h
    | ok pair =>
      obtain ⟨id, type⟩ := pair
      rw [hv] at h
      simp only [bind, Except.bind] at h
      split at h
      · cases h
      · rename_i hnew
        split at h
        · cases h
        · rename_i item hitem
          split at h
          · cases h
          · rename_i others hothers
            cases h
            have hid : item.id = id := by
              have := (item?_id hitem).symm.trans (identify_id hv)
              exact Option.some.inj this
            obtain ⟨hnodup, hseen⟩ := ih hothers
            refine ⟨List.nodup_cons.mpr ⟨fun hm => ?_, hnodup⟩, fun other hother => ?_⟩
            · obtain ⟨other, hother, he⟩ := List.mem_map.mp hm
              exact hseen other hother (by rw [he, hid]; exact List.mem_cons_self)
            · rcases List.mem_cons.mp hother with rfl | hother
              · rw [hid]
                simpa using hnew
              · exact fun hm => hseen other hother (List.mem_cons_of_mem _ hm)

/-! ## Putting nodes in their places -/

theorem filterMap_ids {α : Type} {f : Item → Option α} {g : α → String}
    (hf : ∀ item a, f item = some a → g a = item.id) {found : List Item}
    (h : (found.map Item.id).Nodup) : ((found.filterMap f).map g).Nodup := by
  induction found with
  | nil => simp
  | cons item rest ih =>
    obtain ⟨hn, hr⟩ := List.nodup_cons.mp h
    cases hitem : f item with
    | none =>
      rw [List.filterMap_cons_none hitem]
      exact ih hr
    | some a =>
      rw [List.filterMap_cons_some hitem]
      refine List.nodup_cons.mpr ⟨fun hm => hn ?_, ih hr⟩
      obtain ⟨b, hb, he⟩ := List.mem_map.mp hm
      obtain ⟨other, hother, hbo⟩ := List.mem_filterMap.mp hb
      rw [← hf item a hitem, ← he, hf other b hbo]
      exact List.mem_map_of_mem hother

/-- The declaration of a template. -/
theorem exists_item_of_template {found : List Item} (h : (found.map Item.id).Nodup) {id : String} {t : Template}
    (ht : (assemble found).templates.get? id = some t) : ∃ declared, .template declared ∈ found ∧ declared.id = id ∧
      t = { declared with nodes := nodesIn (found.filterMap Item.node?) id } := by
  have htemplates : ((found.filterMap Item.template?).map (·.id)).Nodup :=
    filterMap_ids (fun item r hr => by cases item <;> cases hr; rfl) h
  have hkeys : (((found.filterMap Item.template?).map fun t =>
      (t.id, { t with nodes := nodesIn (found.filterMap Item.node?) t.id })).map (·.1)).Nodup := by
    simpa [Function.comp_def] using htemplates
  have hg : (assemble found).templates.get? id = _ := Dict.get?_ofList hkeys id
  rw [hg, Option.map_eq_some_iff] at ht
  obtain ⟨entry, he, rfl⟩ := ht
  obtain ⟨declared, hdeclared, rfl⟩ := List.mem_map.mp (List.mem_of_find?_eq_some he)
  obtain ⟨item, hitem, hi⟩ := List.mem_filterMap.mp hdeclared
  cases item <;> cases hi
  have hid := List.find?_some he
  obtain rfl : declared.id = id := by simpa using hid
  exact ⟨declared, hitem, rfl, rfl⟩

theorem assemble_arranged {found : List Item} (h : (found.map Item.id).Nodup) :
    Arranged (assemble found) (found.filterMap Item.node?) := by
  have hnodes : ((found.filterMap Item.node?).map (·.id)).Nodup :=
    filterMap_ids (fun item r hr => by cases item <;> cases hr; rfl) h
  have htabs : ((found.filterMap Item.tab?).map (·.id)).Nodup :=
    filterMap_ids (fun item r hr => by cases item <;> cases hr; rfl) h
  have htabIds : (assemble found).tabIds = (found.filterMap Item.tab?).map (·.id) := by
    simp [assemble, tabIds, Function.comp_def]
  refine ⟨hnodes, fun id => ?_, Dict.sorted_ofList _, by rw [htabIds]; exact htabs, fun r hr => ?_,
    fun tab htab => ?_, rfl, fun id t ht => ?_⟩
  · have hkeys : (((found.filterMap Item.node?).map fun r => (r.id, r)).map (·.1)).Nodup := by
      simpa [Function.comp_def] using hnodes
    refine (Dict.get?_ofList hkeys id).trans ?_
    rw [List.find?_map, Option.map_map]
    simp [Function.comp_def]
  · rw [htabIds]
    intro hm
    obtain ⟨tab, htab, he⟩ := List.mem_map.mp hm
    obtain ⟨item, hitem, hi⟩ := List.mem_filterMap.mp hr
    obtain ⟨other, hother, ho⟩ := List.mem_filterMap.mp htab
    cases item <;> cases hi
    cases other <;> cases ho
    have := List.inj_on_of_nodup_map h hother hitem he
    cases this
  · obtain ⟨config, -, rfl⟩ := List.mem_map.mp htab
    exact ⟨rfl, rfl⟩
  · obtain ⟨declared, -, rfl, rfl⟩ := exists_item_of_template h ht
    exact ⟨rfl, rfl⟩

/-- A deployment that has been read has each of its nodes in the place it names. -/
theorem parse_arranged {records : List Json} {d : Deployment} (h : parse records = .ok d) :
    ∃ rs, Arranged d rs := by
  unfold parse at h
  cases hi : items [] records with
  | error fault => rw [hi] at h; cases h
  | ok found =>
    rw [hi] at h
    cases h
    exact ⟨_, assemble_arranged (items_ids hi).1⟩

theorem assemble_templates {found : List Item} (h : (found.map Item.id).Nodup) :
    (assemble found).templates.Sorted ∧ ∀ z ∈ (assemble found).tabIds, (assemble found).templates.get? z = none := by
  have htemplates : ((found.filterMap Item.template?).map (·.id)).Nodup :=
    filterMap_ids (fun item r hr => by cases item <;> cases hr; rfl) h
  have hkeys : (((found.filterMap Item.template?).map fun t =>
      (t.id, { t with nodes := nodesIn (found.filterMap Item.node?) t.id })).map (·.1)).Nodup := by
    simpa [Function.comp_def] using htemplates
  refine ⟨Dict.sorted_ofList _, fun z hz => ?_⟩
  have hg : (assemble found).templates.get? z = _ := Dict.get?_ofList hkeys z
  rw [hg, Option.map_eq_none_iff, List.find?_eq_none]
  intro entry hentry he
  obtain ⟨t, ht, rfl⟩ := List.mem_map.mp hentry
  obtain ⟨item, hitem, hi⟩ := List.mem_filterMap.mp ht
  have htabIds : (assemble found).tabIds = (found.filterMap Item.tab?).map (·.id) := by
    simp [assemble, tabIds, Function.comp_def]
  rw [htabIds] at hz
  obtain ⟨tab, htab, hid⟩ := List.mem_map.mp hz
  obtain ⟨other, hother, ho⟩ := List.mem_filterMap.mp htab
  cases item <;> cases hi
  cases other <;> cases ho
  have := List.inj_on_of_nodup_map h hitem hother ((beq_iff_eq.mp he).trans hid.symm)
  cases this

/-- No template has the id of a tab. -/
theorem parse_templates {records : List Json} {d : Deployment} (h : parse records = .ok d) :
    d.templates.Sorted ∧ ∀ z ∈ d.tabIds, d.templates.get? z = none := by
  unfold parse at h
  cases hi : items [] records with
  | error fault => rw [hi] at h; cases h
  | ok found =>
    rw [hi] at h
    cases h
    exact assemble_templates (items_ids hi).1

/-- No node has the id of the template that holds it. -/
theorem parse_apart {records : List Json} {d : Deployment} (h : parse records = .ok d) {id : String} {t : Template}
    (ht : d.templates.get? id = some t) {r : Record} (hr : r ∈ t.nodes) : r.id ≠ t.id := by
  unfold parse at h
  cases hi : items [] records with
  | error fault => rw [hi] at h; cases h
  | ok found =>
    rw [hi] at h
    cases h
    have hnodup := (items_ids hi).1
    obtain ⟨declared, hdeclared, rfl, rfl⟩ := exists_item_of_template hnodup ht
    obtain ⟨item, hitem, hnode⟩ := List.mem_filterMap.mp (List.mem_of_mem_filter hr)
    intro he
    cases item <;> cases hnode
    cases List.inj_on_of_nodup_map hnodup hitem hdeclared he

end Flowgraph.Deployment
