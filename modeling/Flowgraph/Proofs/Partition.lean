import Flowgraph.Proofs.Relisting
/-! Reading as a partition of the records. Which lists are read, and what each list that is not read is refused for, is
said here record by record, without the pass that reads them. A list that is read is divided into tabs, templates and
nodes, and the nodes among the containers they name. -/
namespace Flowgraph.Deployment

/-! ## Records on their own -/

/-- The text in a field. -/
def text? (v : Json) (name : String) : Option String := (v.field? name).bind Json.asStr?

/-- The ids of the records that have one, in order. -/
def idsOf (records : List Json) : List String := records.filterMap (text? · "id")

/-- The tab a record declares. -/
def tabOf? (v : Json) : Option FlowConfig := if text? v "type" = some "tab" then tab? v else none

/-- The template a record declares. -/
def templateOf? (v : Json) : Option Template := if text? v "type" = some "subflow" then template? v else none

/-- The node a record declares: every type but two is one of nodes. -/
def nodeOf? (v : Json) : Option Record :=
  if text? v "type" = some "tab" ∨ text? v "type" = some "subflow" then none else Record.ofJson? v

/-- An object with an id and a type, both texts. -/
def Identified (v : Json) : Prop := ∃ fields id type, v = .obj fields ∧ Dict.get? fields "id" = some (.str id) ∧
  Dict.get? fields "type" = some (.str type)

/-- The fields are those of its kind. -/
def Readable (v : Json) : Prop := (tabOf? v).isSome ∨ (templateOf? v).isSome ∨ (nodeOf? v).isSome

/-- Nothing is wrong with the records. -/
structure WellFormed (records : List Json) : Prop where
  identified : ∀ v ∈ records, Identified v
  distinct : (idsOf records).Nodup
  readable : ∀ v ∈ records, Readable v

/-- What is wrong with a record that stands behind these ids. Its shape is looked at first, then its id, its type, the ids
in front of it, and its other fields last. -/
inductive Offends (seen : List String) (v : Json) : ConfigFault → Prop
  | notAnObject (h : ∀ fields, v ≠ .obj fields) : Offends seen v (.malformedRecord "?" .notAnObject)
  | missingId {fields : Dict Json} (h : v = .obj fields) (hid : text? v "id" = none) :
      Offends seen v (.malformedRecord "?" .missingId)
  | missingType {id : String} (hid : text? v "id" = some id) (ht : text? v "type" = none) :
      Offends seen v (.malformedRecord id .missingType)
  | repeated {id type : String} (hid : text? v "id" = some id) (ht : text? v "type" = some type) (hs : id ∈ seen) :
      Offends seen v (.duplicateId id)
  | unreadable {id type : String} (hid : text? v "id" = some id) (ht : text? v "type" = some type) (hs : id ∉ seen)
      (h : ¬ Readable v) : Offends seen v (.malformedRecord id .unreadableField)

variable {records : List Json} {found : List Item} {seen : List String} {v : Json} {item : Item} {id type : String}
  {fault : ConfigFault} {d : Deployment}

theorem obj_of_text? {name text : String} (h : text? v name = some text) :
    ∃ fields, v = .obj fields ∧ Dict.get? fields name = some (.str text) := by
  obtain ⟨value, hv, ht⟩ := Option.bind_eq_some_iff.mp h
  obtain ⟨fields, hf, hg⟩ := Option.bind_eq_some_iff.mp hv
  cases v <;> cases hf
  cases value <;> cases ht
  exact ⟨fields, rfl, hg⟩

theorem text?_obj {fields : Dict Json} {name text : String} (h : Dict.get? fields name = some (.str text)) :
    text? (.obj fields) name = some text := by
  simp [text?, Json.field?, Json.asObj?, h, Json.asStr?]

theorem identified_iff : Identified v ↔ ∃ id type, text? v "id" = some id ∧ text? v "type" = some type := by
  constructor
  · rintro ⟨fields, id, type, rfl, hid, ht⟩
    exact ⟨id, type, text?_obj hid, text?_obj ht⟩
  · rintro ⟨id, type, hid, ht⟩
    obtain ⟨fields, rfl, hget⟩ := obj_of_text? hid
    obtain ⟨_, he, htype⟩ := obj_of_text? ht
    cases he
    exact ⟨fields, id, type, rfl, hget, htype⟩

theorem identify_eq_ok : identify v = .ok (id, type) ↔ text? v "id" = some id ∧ text? v "type" = some type := by
  constructor
  · intro h
    refine ⟨identify_id h, ?_⟩
    unfold identify at h
    split at h
    · split at h
      · cases h
      · cases h
      · rename_i ht
        cases h
        exact ht
    · cases h
  · rintro ⟨hid, ht⟩
    obtain ⟨fields, rfl, -⟩ := obj_of_text? hid
    rw [text?] at hid ht
    simp [identify, hid, ht]

/-! ## One record -/

/-- The item a record is read as is what it declares. -/
theorem Reads.declared (h : Reads v item) :
    text? v "id" = some item.id ∧ item.tab? = tabOf? v ∧ item.template? = templateOf? v ∧ item.node? = nodeOf? v := by
  obtain ⟨type, hid, hitem⟩ := h
  obtain ⟨hid, ht⟩ := identify_eq_ok.mp hid
  refine ⟨hid, ?_⟩
  rw [tabOf?, templateOf?, nodeOf?, ht]
  unfold item? at hitem
  by_cases htab : type = "tab"
  · rw [if_pos htab] at hitem
    obtain ⟨config, hconfig, rfl⟩ := Option.map_eq_some_iff.mp hitem
    simp [htab, hconfig, Item.tab?, Item.template?, Item.node?]
  · rw [if_neg htab] at hitem
    by_cases hsub : type = "subflow"
    · rw [if_pos hsub] at hitem
      obtain ⟨t, htemplate, rfl⟩ := Option.map_eq_some_iff.mp hitem
      simp [hsub, htemplate, Item.tab?, Item.template?, Item.node?]
    · rw [if_neg hsub] at hitem
      obtain ⟨r, hr, rfl⟩ := Option.map_eq_some_iff.mp hitem
      simp [htab, hsub, hr, Item.tab?, Item.template?, Item.node?]

theorem Reads.identified (h : Reads v item) : Identified v := by
  obtain ⟨type, hid, -⟩ := h
  exact identified_iff.mpr ⟨_, _, identify_eq_ok.mp hid⟩

theorem Reads.readable (h : Reads v item) : Readable v := by
  obtain ⟨-, htab, htemplate, hnode⟩ := h.declared
  rw [Readable, ← htab, ← htemplate, ← hnode]
  cases item <;> simp [Item.tab?, Item.template?, Item.node?]

theorem exists_reads (hi : Identified v) (hr : Readable v) : ∃ item, Reads v item := by
  obtain ⟨id, type, hid, ht⟩ := identified_iff.mp hi
  obtain ⟨item, hitem⟩ : ∃ item, item? type v = some item := by
    rw [Readable, tabOf?, templateOf?, nodeOf?, ht] at hr
    unfold item?
    by_cases htab : type = "tab"
    · obtain ⟨config, hconfig⟩ : ∃ config, tab? v = some config := by simpa [htab, Option.isSome_iff_exists] using hr
      exact ⟨.tab config, by simp [htab, hconfig]⟩
    · by_cases hsub : type = "subflow"
      · obtain ⟨t, htemplate⟩ : ∃ t, template? v = some t := by simpa [hsub, Option.isSome_iff_exists] using hr
        exact ⟨.template t, by simp [hsub, htemplate]⟩
      · obtain ⟨r, hnode⟩ : ∃ r, Record.ofJson? v = some r := by
          simpa [htab, hsub, Option.isSome_iff_exists] using hr
        exact ⟨.node r, by simp [htab, hsub, hnode]⟩
  refine ⟨item, type, ?_, hitem⟩
  exact identify_eq_ok.mpr ⟨item?_id hitem, ht⟩

/-- A record offends, or it can be read behind the ids in front of it. -/
theorem offends_or_reads (seen : List String) (v : Json) :
    (∃ fault, Offends seen v fault) ∨ ∃ item, Reads v item ∧ item.id ∉ seen := by
  by_cases hobj : ∃ fields, v = .obj fields
  · obtain ⟨fields, hv⟩ := hobj
    cases hid : text? v "id" with
    | none => exact .inl ⟨_, .missingId hv hid⟩
    | some id =>
      cases ht : text? v "type" with
      | none => exact .inl ⟨_, .missingType hid ht⟩
      | some type =>
        by_cases hs : id ∈ seen
        · exact .inl ⟨_, .repeated hid ht hs⟩
        · by_cases hr : Readable v
          · obtain ⟨item, hitem⟩ := exists_reads (identified_iff.mpr ⟨id, type, hid, ht⟩) hr
            obtain rfl : item.id = id := Option.some.inj (hitem.declared.1.symm.trans hid)
            exact .inr ⟨item, hitem, hs⟩
          · exact .inl ⟨_, .unreadable hid ht hs hr⟩
  · exact .inl ⟨_, .notAnObject fun fields hv => hobj ⟨fields, hv⟩⟩

theorem item?_eq_none (ht : text? v "type" = some type) (h : ¬ Readable v) :
    item? type v = none := by
  cases hitem : item? type v with
  | none => rfl
  | some item => exact absurd (Reads.readable ⟨type, identify_eq_ok.mpr ⟨item?_id hitem, ht⟩, hitem⟩) h

/-- The pass stops at a record that offends. -/
theorem items_cons_of_offends (h : Offends seen v fault) (records : List Json) :
    items seen (v :: records) = .error fault := by
  rw [items]
  cases h with
  | notAnObject h =>
    have hi : identify v = .error (.malformedRecord "?" .notAnObject) := by
      unfold identify
      split
      · exact absurd rfl (h _)
      · rfl
    rw [hi]
    rfl
  | missingId h hid =>
    subst h
    rw [text?] at hid
    simp only [identify, hid]
    rfl
  | missingType hid ht =>
    obtain ⟨fields, rfl, -⟩ := obj_of_text? hid
    rw [text?] at hid ht
    simp only [identify, hid, ht]
    rfl
  | repeated hid ht hs =>
    rw [identify_eq_ok.mpr ⟨hid, ht⟩]
    simp only [bind, Except.bind]
    rw [if_pos (by simpa using hs)]
  | unreadable hid ht hs h =>
    rw [identify_eq_ok.mpr ⟨hid, ht⟩]
    simp only [bind, Except.bind]
    rw [if_neg (by simpa using hs), item?_eq_none ht h]

theorem items_cons_of_reads (h : Reads v item) (hs : item.id ∉ seen) (records : List Json) :
    items seen (v :: records) = (items (item.id :: seen) records).map (item :: ·) := by
  obtain ⟨type, hid, hitem⟩ := h
  rw [items, hid]
  simp only [bind, Except.bind]
  rw [if_neg (by simpa using hs), hitem]
  dsimp only
  cases items (item.id :: seen) records <;> rfl

theorem Offends.congr {seen' : List String} (h : Offends seen v fault) (hs : ∀ id, id ∈ seen ↔ id ∈ seen') :
    Offends seen' v fault := by
  cases h with
  | notAnObject h => exact .notAnObject h
  | missingId h hid => exact .missingId h hid
  | missingType hid ht => exact .missingType hid ht
  | repeated hid ht h => exact .repeated hid ht ((hs _).mp h)
  | unreadable hid ht h hr => exact .unreadable hid ht (mt (hs _).mpr h) hr

/-! ## The whole list -/

theorem idsOf_cons_of_reads (h : Reads v item) (records : List Json) :
    idsOf (v :: records) = item.id :: idsOf records :=
  List.filterMap_cons_some h.declared.1

/-- What has been read, taken apart by kind. -/
theorem declared_of_reads (h : List.Forall₂ Reads records found) :
    found.map Item.id = idsOf records ∧ found.filterMap Item.tab? = records.filterMap tabOf? ∧
      found.filterMap Item.template? = records.filterMap templateOf? ∧
        found.filterMap Item.node? = records.filterMap nodeOf? := by
  induction h with
  | nil => exact ⟨rfl, rfl, rfl, rfl⟩
  | cons hread _ ih =>
    obtain ⟨hid, htab, htemplate, hnode⟩ := hread.declared
    obtain ⟨hids, htabs, htemplates, hnodes⟩ := ih
    refine ⟨?_, ?_, ?_, ?_⟩
    · rw [idsOf_cons_of_reads hread, List.map_cons, hids]
    · rw [List.filterMap_cons, List.filterMap_cons, htab, htabs]
    · rw [List.filterMap_cons, List.filterMap_cons, htemplate, htemplates]
    · rw [List.filterMap_cons, List.filterMap_cons, hnode, hnodes]

theorem exists_reads_of_mem (h : List.Forall₂ Reads records found) (hv : v ∈ records) : ∃ item, Reads v item := by
  induction h with
  | nil => cases hv
  | cons hread _ ih =>
    rcases List.mem_cons.mp hv with rfl | hv
    · exact ⟨_, hread⟩
    · exact ih hv

/-- Just the lists with nothing wrong in them are read. -/
theorem items_ok_iff : (∃ found, items [] records = .ok found) ↔ WellFormed records := by
  constructor
  · rintro ⟨found, h⟩
    obtain ⟨hreads, hnodup, -⟩ := items_eq_ok.mp h
    refine ⟨fun v hv => ?_, (declared_of_reads hreads).1 ▸ hnodup, fun v hv => ?_⟩
    · obtain ⟨item, hread⟩ := exists_reads_of_mem hreads hv
      exact hread.identified
    · obtain ⟨item, hread⟩ := exists_reads_of_mem hreads hv
      exact hread.readable
  · rintro ⟨hident, hdistinct, hreadable⟩
    obtain ⟨found, hreads⟩ : ∃ found, List.Forall₂ Reads records found := by
      clear hdistinct
      induction records with
      | nil => exact ⟨[], .nil⟩
      | cons v records ih =>
        obtain ⟨item, hread⟩ := exists_reads (hident v List.mem_cons_self) (hreadable v List.mem_cons_self)
        obtain ⟨found, hreads⟩ := ih (fun w hw => hident w (List.mem_cons_of_mem _ hw))
          fun w hw => hreadable w (List.mem_cons_of_mem _ hw)
        exact ⟨item :: found, .cons hread hreads⟩
    refine ⟨found, items_eq_ok.mpr ⟨hreads, ?_, fun _ _ => List.not_mem_nil⟩⟩
    rw [(declared_of_reads hreads).1]
    exact hdistinct

/-- A list is refused for the first of its records that offends. -/
theorem items_eq_error : items seen records = .error fault ↔
    ∃ before v after, records = before ++ v :: after ∧ (∃ found, items seen before = .ok found) ∧
      Offends (seen ++ idsOf before) v fault := by
  induction records generalizing seen with
  | nil => simp [items]
  | cons v records ih =>
    constructor
    · intro h
      rcases offends_or_reads seen v with ⟨fault', hoff⟩ | ⟨item, hread, hs⟩
      · obtain rfl : fault' = fault := by
          rw [items_cons_of_offends hoff] at h
          exact Except.error.inj h
        exact ⟨[], v, records, rfl, ⟨[], rfl⟩, by simpa [idsOf] using hoff⟩
      · rw [items_cons_of_reads hread hs] at h
        cases hrest : items (item.id :: seen) records with
        | ok others =>
          rw [hrest] at h
          cases h
        | error fault' =>
          rw [hrest] at h
          cases h
          obtain ⟨before, w, after, rfl, ⟨others, hbefore⟩, hoff⟩ := ih.mp hrest
          refine ⟨v :: before, w, after, rfl, ⟨item :: others, ?_⟩, hoff.congr fun id => ?_⟩
          · rw [items_cons_of_reads hread hs, hbefore]
            rfl
          · rw [idsOf_cons_of_reads hread]
            simp [or_left_comm]
    · rintro ⟨before, w, after, he, ⟨found, hbefore⟩, hoff⟩
      cases before with
      | nil =>
        obtain ⟨rfl, rfl⟩ := List.cons.inj he
        exact items_cons_of_offends (by simpa [idsOf] using hoff) records
      | cons u before =>
        rw [List.cons_append, List.cons.injEq] at he
        obtain ⟨rfl, rfl⟩ := he
        obtain ⟨item, others, hread, hs, hothers, rfl⟩ := items_cons_eq_ok.mp hbefore
        have hrest : items (item.id :: seen) (before ++ w :: after) = .error fault := by
          refine ih.mpr ⟨before, w, after, rfl, ⟨others, hothers⟩, hoff.congr fun id => ?_⟩
          rw [idsOf_cons_of_reads hread]
          simp [or_left_comm]
        rw [items_cons_of_reads hread hs, hrest]
        rfl

/-! ## The parts -/

/-- What holds nodes. -/
inductive Holder
  | global
  | tab (id : String)
  | template (id : String)
  deriving DecidableEq

/-- The nodes of one part. -/
def heldBy (d : Deployment) : Holder → List Record
  | .global => d.global.nodes
  | .tab z => (d.tabs.find? (·.id == z)).elim [] (·.nodes)
  | .template z => (d.templates.get? z).elim [] (·.nodes)

/-- The part that the container of a node names, if there is one. -/
def holder? (d : Deployment) (r : Record) : Option Holder :=
  match r.container with
  | none => some .global
  | some z => if z ∈ d.tabIds then some (.tab z) else if z ∈ d.templates.keys then some (.template z) else none

/-- The records are divided among the parts of the deployment. -/
structure Partitions (records : List Json) (d : Deployment) : Prop where
  /-- The tabs are those that are declared. -/
  tabs : d.tabs.map FlowConfig.bare = records.filterMap tabOf?
  /-- The templates are those that are declared. -/
  templates : (d.templates.mapValues Template.bare).Perm ((records.filterMap templateOf?).map fun t => (t.id, t))
  global : d.global.bare = ⟨globalId, none, false, [], [], []⟩
  /-- Every node is listed, and listed once. -/
  nodes : d.nodes.Perm ((records.filterMap nodeOf?).map fun r => (r.id, r))
  distinct : ((records.filterMap nodeOf?).map (·.id)).Nodup
  /-- Each part has just the nodes that name it, in the order of their records. -/
  held : ∀ p, d.heldBy p = (records.filterMap nodeOf?).filter (d.holder? · = some p)
  /-- No node is in two parts, or twice in one, and only those whose container does not exist are in none. -/
  placed : d.placedNodes.Perm ((records.filterMap nodeOf?).filter fun r => (d.holder? r).isSome)
  /-- All flows see all templates. -/
  shared : d.global.templates = d.templates ∧ ∀ tab ∈ d.tabs, tab.templates = d.templates

def holders (d : Deployment) : List Holder := .global :: (d.tabIds.map .tab ++ d.templates.keys.map .template)

theorem mem_holders_of_holder? {r : Record} {p : Holder} (h : d.holder? r = some p) : p ∈ d.holders := by
  unfold holder? at h
  split at h
  · cases h
    simp [holders]
  · split at h
    · cases h
      simp [holders, *]
    · split at h
      · cases h
        simp [holders, *]
      · cases h

theorem nodup_holders (ht : d.tabIds.Nodup) (hs : d.templates.Sorted) : d.holders.Nodup := by
  refine List.nodup_cons.mpr ⟨by simp, List.nodup_append.mpr ⟨?_, ?_, ?_⟩⟩
  · exact ht.map fun _ _ h => Holder.tab.inj h
  · exact List.Nodup.map (fun _ _ h => Holder.template.inj h) hs.nodup
  · intro p hp q hq
    obtain ⟨_, -, rfl⟩ := List.mem_map.mp hp
    obtain ⟨_, -, rfl⟩ := List.mem_map.mp hq
    exact Holder.noConfusion

theorem flatMap_heldBy_tab (ht : d.tabIds.Nodup) :
    d.tabIds.flatMap (fun z => d.heldBy (.tab z)) = d.tabs.flatMap (·.nodes) := by
  rw [tabIds, List.flatMap_map]
  refine List.flatMap_congr fun tab htab => ?_
  rw [heldBy, find?_of_nodup ht htab]
  rfl

theorem flatMap_heldBy_template (hs : d.templates.Sorted) :
    d.templates.keys.flatMap (fun z => d.heldBy (.template z)) = d.templates.values.flatMap (·.nodes) := by
  rw [Dict.keys, Dict.values, List.flatMap_map, List.flatMap_map]
  refine List.flatMap_congr fun entry hentry => ?_
  rw [heldBy, Dict.get?_of_mem hs hentry]
  rfl

theorem placedNodes_eq (ht : d.tabIds.Nodup) (hs : d.templates.Sorted) :
    d.placedNodes = d.holders.flatMap d.heldBy := by
  rw [holders, List.flatMap_cons, List.flatMap_append, List.flatMap_map, List.flatMap_map, flatMap_heldBy_tab ht,
    flatMap_heldBy_template hs, placedNodes, List.append_assoc]
  rfl

section
variable {r : Record} {z : String}

theorem holder?_eq_global : d.holder? r = some .global ↔ r.container = none := by
  cases hc : r.container with
  | none => simp [holder?, hc]
  | some z =>
    simp only [holder?, hc]
    split <;> [simp; (split <;> simp)]

theorem holder?_eq_tab : d.holder? r = some (.tab z) ↔ r.container = some z ∧ z ∈ d.tabIds := by
  cases hc : r.container with
  | none => simp [holder?, hc]
  | some y =>
    simp only [holder?, hc, Option.some.injEq]
    split
    · simp only [Option.some.injEq, Holder.tab.injEq]
      exact ⟨fun h => ⟨h, h ▸ ‹_›⟩, And.left⟩
    · split <;> simp <;> grind

theorem holder?_eq_template : d.holder? r = some (.template z) ↔
    r.container = some z ∧ z ∉ d.tabIds ∧ z ∈ d.templates.keys := by
  cases hc : r.container with
  | none => simp [holder?, hc]
  | some y =>
    simp only [holder?, hc, Option.some.injEq]
    split
    · simp
      grind
    · split
      · simp only [Option.some.injEq, Holder.template.injEq]
        exact ⟨fun h => ⟨h, h ▸ ‹_›, h ▸ ‹_›⟩, And.left⟩
      · simp
        grind

end

variable {rs : List Record}

/-- Each part of a deployment has the nodes that name it. -/
theorem Arranged.held (ha : Arranged d rs) (hz : ∀ z ∈ d.tabIds, d.templates.get? z = none) (p : Holder) :
    d.heldBy p = rs.filter (d.holder? · = some p) := by
  cases p with
  | global =>
    rw [heldBy, ha.global]
    refine List.filter_congr fun r _ => ?_
    rw [Bool.eq_iff_iff, decide_eq_true_eq, holder?_eq_global, Option.isNone_iff_eq_none]
  | tab z =>
    by_cases hmem : z ∈ d.tabIds
    · obtain ⟨tab, htab, rfl⟩ := List.mem_map.mp hmem
      rw [heldBy, find?_of_nodup ha.tabIds htab]
      refine ((ha.tabs tab htab).1).trans (List.filter_congr fun r _ => ?_)
      rw [Bool.eq_iff_iff, decide_eq_true_eq, holder?_eq_tab, beq_iff_eq, and_iff_left hmem]
    · have hnone : d.tabs.find? (·.id == z) = none := List.find?_eq_none.mpr fun tab htab he =>
        hmem (List.mem_map.mpr ⟨tab, htab, beq_iff_eq.mp he⟩)
      rw [heldBy, hnone]
      refine (List.filter_eq_nil_iff.mpr fun r _ => ?_).symm
      simp [holder?_eq_tab, hmem]
  | template z =>
    cases ht : d.templates.get? z with
    | none =>
      have hkey : z ∉ d.templates.keys := fun hk => by
        have := Dict.contains_iff.mpr hk
        rw [Dict.contains_eq_isSome, ht] at this
        cases this
      rw [heldBy, ht]
      refine (List.filter_eq_nil_iff.mpr fun r _ => ?_).symm
      simp [holder?_eq_template, hkey]
    | some t =>
      have hkey : z ∈ d.templates.keys := Dict.contains_iff.mp (by rw [Dict.contains_eq_isSome, ht]; rfl)
      have htab : z ∉ d.tabIds := fun hm => by
        rw [hz z hm] at ht
        cases ht
      rw [heldBy, ht]
      refine ((ha.templates z t ht).2).trans (List.filter_congr fun r _ => ?_)
      rw [Bool.eq_iff_iff, decide_eq_true_eq, holder?_eq_template, beq_iff_eq, and_iff_left ⟨htab, hkey⟩]

/-- Taken together, the parts have every node that has a place, and have it once. -/
theorem Arranged.placed (ha : Arranged d rs) (hs : d.templates.Sorted)
    (hz : ∀ z ∈ d.tabIds, d.templates.get? z = none) :
    d.placedNodes.Perm (rs.filter fun r => (d.holder? r).isSome) := by
  have hnodup : rs.Nodup := List.Nodup.of_map _ ha.nodup
  rw [placedNodes_eq ha.tabIds hs]
  refine (List.perm_ext_iff_of_nodup (List.nodup_flatMap.mpr ⟨fun p _ => ?_, ?_⟩) (hnodup.filter _)).mpr fun r => ?_
  · rw [ha.held hz]
    exact hnodup.filter _
  · refine (nodup_holders ha.tabIds hs).imp fun {p q} hne r hp hq => hne ?_
    rw [ha.held hz, List.mem_filter, decide_eq_true_eq] at hp hq
    exact Option.some.inj (hp.2.symm.trans hq.2)
  · simp only [List.mem_flatMap, ha.held hz, List.mem_filter, decide_eq_true_eq, Option.isSome_iff_exists]
    constructor
    · rintro ⟨p, -, hr, hp⟩
      exact ⟨hr, p, hp⟩
    · rintro ⟨hr, p, hp⟩
      exact ⟨p, mem_holders_of_holder? hp, hr, hp⟩

/-! ## A list that is read -/

theorem tab?_bare {c : FlowConfig} (h : tab? v = some c) : c.bare = c := by
  unfold tab? at h
  simp only [bind, Option.bind_eq_some_iff] at h
  obtain ⟨_, _, _, _, _, _, _, _, h⟩ := h
  cases h
  rfl

theorem template?_bare {t : Template} (h : template? v = some t) : t.bare = t := by
  unfold template? at h
  simp only [bind, Option.bind_eq_some_iff] at h
  obtain ⟨_, _, _, _, _, _, _, _, _, _, _, _, _, _, h⟩ := h
  cases h
  rfl

theorem map_bare_tabOf? (records : List Json) :
    (records.filterMap tabOf?).map FlowConfig.bare = records.filterMap tabOf? := by
  refine (List.map_congr_left fun c hc => ?_).trans (List.map_id' _)
  obtain ⟨v, -, hv⟩ := List.mem_filterMap.mp hc
  rw [tabOf?] at hv
  split at hv
  · exact tab?_bare hv
  · cases hv

theorem map_bare_templateOf? (records : List Json) : (records.filterMap templateOf?).map (fun t => (t.id, t.bare)) =
    (records.filterMap templateOf?).map fun t => (t.id, t) := by
  refine List.map_congr_left fun t ht => ?_
  obtain ⟨v, -, hv⟩ := List.mem_filterMap.mp ht
  rw [templateOf?] at hv
  split at hv
  · rw [template?_bare hv]
  · cases hv

theorem partitions_of_parse (h : parse records = .ok d) : Partitions records d := by
  unfold parse at h
  cases hi : items [] records with
  | error fault =>
    rw [hi] at h
    cases h
  | ok found =>
    rw [hi] at h
    cases h
    obtain ⟨hreads, hnodup, -⟩ := items_eq_ok.mp hi
    obtain ⟨-, htabs, htemplates, hnodes⟩ := declared_of_reads hreads
    have ha := assemble_arranged hnodup
    obtain ⟨hsorted, hapart⟩ := assemble_templates hnodup
    rw [hnodes] at ha
    refine ⟨?_, ?_, rfl, ?_, ha.nodup, ha.held hapart, ha.placed hsorted hapart, rfl, fun tab htab => (ha.tabs tab htab).2⟩
    · rw [bare_tabs_assemble, htabs, map_bare_tabOf?]
    · rw [← map_bare_templateOf?, ← htemplates]
      exact perm_templates_assemble hnodup
    · rw [← hnodes]
      exact perm_nodes_assemble hnodup

/-- A list of records is read if each is an object with an id and a type, the ids are different, and each has the fields
of its kind. It is then divided among the tabs, the templates and the global flow; otherwise the first record that
offends says why not. -/
theorem parse_partitions (records : List Json) :
    ((∃ d, parse records = .ok d) ↔ WellFormed records) ∧ (∀ d, parse records = .ok d → Partitions records d) ∧
      ∀ fault, parse records = .error fault ↔
        ∃ before v after, records = before ++ v :: after ∧ WellFormed before ∧ Offends (idsOf before) v fault := by
  refine ⟨?_, fun d => partitions_of_parse, fun fault => ?_⟩
  · rw [← items_ok_iff, parse]
    cases items [] records <;> simp [Except.map]
  · have hitems : parse records = .error fault ↔ items [] records = .error fault := by
      rw [parse]
      cases items [] records <;> simp [Except.map]
    simp only [hitems, items_eq_error, items_ok_iff, List.nil_append]

end Flowgraph.Deployment
