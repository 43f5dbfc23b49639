import Flowgraph.Proofs.UsageMarks
/-! Generations without a difference. Marks are folded into templates and tabs, but none gets lost: every record that
is new, gone or not the same puts at least one id on a list that counts. -/
namespace Flowgraph.Diff

open Deployment

variable {old new : Deployment} {olds news : List Record} {m : Marks} {k : Mark} {id : String} {r : Record}
  {diff : Diff}

/-! ## The same records -/

structure SameTab (a b : FlowConfig) : Prop where
  label : a.label = b.label
  env : sameEnv a.env b.env = true
  disabled : a.disabled = b.disabled

structure SameTemplate (a b : Template) : Prop where
  name : a.name = b.name
  inputs : a.inputs = b.inputs
  outputs : a.outputs = b.outputs
  status : a.status = b.status
  complete : a.complete = b.complete
  env : sameEnv a.env b.env = true

/-- The same node, but perhaps at another place on the canvas. -/
structure SameNode (a b : Record) : Prop where
  type : a.type = b.type
  container : a.container = b.container
  disabled : a.disabled = b.disabled
  wires : a.wires = b.wires
  properties : Json.sameFields (material a) (material b) = true

/-- Under each id there is the same in both generations, or nothing. -/
structure SameRecords (old new : Deployment) : Prop where
  tabs : ∀ id, Option.Rel SameTab (old.tabs.find? (·.id == id)) (new.tabs.find? (·.id == id))
  templates : ∀ id, Option.Rel SameTemplate (old.templates.get? id) (new.templates.get? id)
  nodes : ∀ id, Option.Rel SameNode (old.nodes.get? id) (new.nodes.get? id)

theorem sameTab_iff {a b : FlowConfig} : SameTab a b ↔ ¬tabDiffers a b = true := by
  simp only [tabDiffers, Bool.or_eq_true, bne_iff_ne, Bool.not_eq_true', ← Bool.not_eq_true, not_or, not_not]
  constructor
  · rintro ⟨hl, he, hd⟩
    exact ⟨⟨hl, he⟩, hd⟩
  · rintro ⟨⟨hl, he⟩, hd⟩
    exact ⟨hl, he, hd⟩

theorem sameTemplate_iff {a b : Template} : SameTemplate a b ↔ ¬templateDiffers a b = true := by
  simp only [templateDiffers, Bool.or_eq_true, bne_iff_ne, Bool.not_eq_true', ← Bool.not_eq_true, not_or, not_not]
  constructor
  · rintro ⟨hn, hi, ho, hs, hc, he⟩
    exact ⟨⟨⟨⟨⟨hn, hi⟩, ho⟩, hs⟩, hc⟩, he⟩
  · rintro ⟨⟨⟨⟨⟨hn, hi⟩, ho⟩, hs⟩, hc⟩, he⟩
    exact ⟨hn, hi, ho, hs, hc, he⟩

theorem sameNode_iff {a b : Record} : SameNode a b ↔ ¬nodeDiffers a b = true ∧ a.wires = b.wires := by
  rw [Bool.not_eq_true, nodeDiffers_eq_false]
  constructor
  · rintro ⟨ht, hc, hd, hw, hp⟩
    exact ⟨⟨ht, hc, hd, hp⟩, hw⟩
  · rintro ⟨⟨ht, hc, hd, hp⟩, hw⟩
    exact ⟨ht, hc, hd, hw, hp⟩

/-! ## No mark gets lost -/

/-- No record puts an id on a list. -/
def Unmarked (old new : Deployment) : Prop := ∀ k id, k ≠ .template → ¬Directly old new k id

/-- Whatever a node is marked for, an id gets on a list: its own, or that of the template it lies in. -/
theorem exists_shows (new : Deployment) (hk : k ≠ .template) (r : Record) :
    ∃ k' id, k' ≠ .template ∧ Shows new k r k' id := by
  cases hin : inTemplate new r.container with
  | false => exact ⟨k, r.id, hk, .self hin⟩
  | true =>
    cases hc : r.container with
    | none =>
      rw [hc] at hin
      cases hin
    | some z => exact ⟨.changed, z, nofun, .around (.template hc hin)⟩

theorem rel_iff {α : Type} {R : α → α → Prop} {x y : Option α} : Option.Rel R x y ↔
    (∀ a, x = some a → y ≠ none) ∧ (∀ b, y = some b → x ≠ none) ∧ ∀ a b, x = some a → y = some b → R a b := by
  cases x <;> cases y <;> simp

theorem find?_tab_eq_none {d : Deployment} : d.tabs.find? (·.id == id) = none ↔ id ∉ d.tabIds := by
  simp [tabIds]

theorem find?_tab_eq_some {d : Deployment} {rs : List Record} (hd : Proper d rs) {a : FlowConfig} :
    d.tabs.find? (·.id == id) = some a ↔ a ∈ d.tabs ∧ a.id = id := by
  refine ⟨fun ha => ⟨List.mem_of_find?_eq_some ha, by simpa using List.find?_some ha⟩, ?_⟩
  rintro ⟨ha, rfl⟩
  exact find?_of_nodup (f := FlowConfig.id) hd.tabIds ha

section Parsed
variable (ho : Proper old olds) (hn : Proper new news)
include ho hn

/-- What is gone, what is new and what differs would each be marked. -/
theorem SameRecords.of_unmarked (h : Unmarked old new) : SameRecords old new where
  tabs id := by
    refine rel_iff.mpr ⟨fun a ha hnone => ?_, fun b hb hnone => ?_, fun a b ha hb => sameTab_iff.mpr fun hd => ?_⟩
    · obtain ⟨hmem, rfl⟩ := (find?_tab_eq_some ho).mp ha
      exact h .removed a.id nofun (.tab hmem (.gone (find?_tab_eq_none.mp hnone)))
    · obtain ⟨hmem, rfl⟩ := (find?_tab_eq_some hn).mp hb
      exact h .added b.id nofun (.newTab hmem (find?_tab_eq_none.mp hnone))
    · obtain ⟨hmem, rfl⟩ := (find?_tab_eq_some ho).mp ha
      obtain ⟨hmem', hid⟩ := (find?_tab_eq_some hn).mp hb
      exact h .changed a.id nofun (.tab hmem (.edited hmem' hid hd))
  templates id := by
    refine rel_iff.mpr ⟨fun a ha hnone => ?_, fun b hb hnone => ?_, fun a b ha hb => sameTemplate_iff.mpr fun hd => ?_⟩
    · obtain rfl := (ho.templates id a ha).1
      exact h .removed a.id nofun (.template (Dict.mem_values ha) (.gone hnone))
    · obtain rfl := (hn.templates id b hb).1
      exact h .added b.id nofun (.newTemplate (Dict.mem_values hb) hnone)
    · obtain rfl := (ho.templates id a ha).1
      exact h .changed a.id nofun (.template (Dict.mem_values ha) (.edited hb hd))
  nodes id := by
    refine rel_iff.mpr ⟨fun a ha hnone => ?_, fun b hb hnone => ?_, fun a b ha hb =>
      sameNode_iff.mpr ⟨fun hd => ?_, ?_⟩⟩
    · obtain rfl := ho.get?_id ha
      exact h .removed a.id nofun (.node (Dict.mem_values ha) (.gone hnone))
    · obtain rfl := hn.get?_id hb
      obtain ⟨k, id, hk, hs⟩ := exists_shows new (k := .added) nofun b
      exact h k id hk (.newNode (Dict.mem_values hb) hnone hs)
    · obtain rfl := ho.get?_id ha
      obtain ⟨k, id, hk, hs⟩ := exists_shows new (k := .changed) nofun b
      exact h k id hk (.node (Dict.mem_values ha) (.edited hb hd hs))
    · obtain rfl := ho.get?_id ha
      by_contra hw
      obtain ⟨k, id, hk, hs⟩ := exists_shows new (k := .rewired) nofun b
      exact h k id hk (.node (Dict.mem_values ha) (.rewired hb hw hs))

/-- The same records make no marks, not even on templates. -/
theorem SameRecords.not_directly (h : SameRecords old new) : ¬Directly old new k id := by
  intro hd
  cases hd with
  | @tab a _ _ ha hm =>
    obtain ⟨hkept, -, hsame⟩ := rel_iff.mp (h.tabs a.id)
    have hfound := (find?_tab_eq_some ho).mpr ⟨ha, rfl⟩
    rcases hm with hgone | ⟨hb, hid, hdiff⟩
    · exact hkept a hfound (find?_tab_eq_none.mpr hgone)
    · exact sameTab_iff.mp (hsame a _ hfound ((find?_tab_eq_some hn).mpr ⟨hb, hid⟩)) hdiff
  | @newTab b hb hfresh =>
    obtain ⟨-, hknown, -⟩ := rel_iff.mp (h.tabs b.id)
    exact hknown b ((find?_tab_eq_some hn).mpr ⟨hb, rfl⟩) (find?_tab_eq_none.mpr hfresh)
  | @template a _ _ ha hm =>
    obtain ⟨hkept, -, hsame⟩ := rel_iff.mp (h.templates a.id)
    have hfound := ho.template_of_mem ha
    rcases hm with hgone | ⟨hb, hdiff⟩ | ⟨hb, hdiff⟩
    · exact hkept a hfound hgone
    · exact sameTemplate_iff.mp (hsame a _ hfound hb) hdiff
    · exact sameTemplate_iff.mp (hsame a _ hfound hb) hdiff
  | @newTemplate b hb hfresh =>
    obtain ⟨-, hknown, -⟩ := rel_iff.mp (h.templates b.id)
    exact hknown b (hn.template_of_mem hb) hfresh
  | @node a _ _ ha hm =>
    obtain ⟨hkept, -, hsame⟩ := rel_iff.mp (h.nodes a.id)
    have hfound := ho.get?_of_mem ha
    rcases hm with hgone | ⟨hgone, -⟩ | ⟨hb, hdiff, -⟩ | ⟨hb, hdiff, -⟩
    · exact hkept a hfound hgone
    · exact hkept a hfound hgone
    · exact (sameNode_iff.mp (hsame a _ hfound hb)).1 hdiff
    · exact hdiff (sameNode_iff.mp (hsame a _ hfound hb)).2
  | @newNode b _ _ hb hfresh =>
    obtain ⟨-, hknown, -⟩ := rel_iff.mp (h.nodes b.id)
    exact hknown b (hn.get?_of_mem hb) hfresh

end Parsed

/-! ## Nothing marked -/

/-- Without a mark of a record nothing comes to a change, and no template is outdated. -/
theorem not_implicated (hn : Proper new news) (h : ∀ k id, ¬Directly old new k id) : ¬Implicated old new id := by
  intro hid
  induction hid with
  | removed hd => exact h _ _ ((mem_direct_iff hn (k := .removed)).mp hd)
  | changed hd => exact h _ _ ((mem_direct_iff hn (k := .changed)).mp hd)
  | template _ _ _ ih => exact ih
  | node _ _ _ _ ih => exact ih
  | tab _ _ _ _ _ _ ih => exact ih

theorem not_outdated {z : String} (h : ∀ k id, ¬Directly old new k id) : ¬Outdated old new z := by
  intro hz
  induction hz with
  | marked hd => exact h _ _ hd
  | around _ _ _ ih => exact ih

theorem isEmpty_iff : diff.isEmpty = true ↔
    ∀ id, id ∉ diff.added ∧ id ∉ diff.changed ∧ id ∉ diff.removed ∧ id ∉ diff.rewired := by
  simp only [isEmpty, Bool.and_eq_true, List.isEmpty_iff, List.eq_nil_iff_forall_not_mem, forall_and, and_assoc]

theorem Marked.unmarked (hm : Marked old new diff m) (h : diff.isEmpty = true) : Unmarked old new := by
  intro k id hk hd
  obtain ⟨hadded, hchanged, hremoved, hrewired⟩ := isEmpty_iff.mp h id
  cases k with
  | added => exact hadded ((hm.added id).mpr hd)
  | changed => exact hchanged (hm.kept id (hm.settled.kept .changed id hd))
  | removed => exact hremoved ((hm.removed id).mpr hd)
  | rewired => exact hrewired ((hm.rewired id).mpr hd)
  | template => exact hk rfl

theorem Marked.isEmpty (hn : Proper new news) (hm : Marked old new diff m) (h : ∀ k id, ¬Directly old new k id) :
    diff.isEmpty = true := by
  refine isEmpty_iff.mpr fun id => ⟨fun hid => ?_, fun hid => ?_, fun hid => ?_, fun hid => ?_⟩
  · exact h _ _ ((hm.added id).mp hid)
  · rcases hm.implicated_or_renewed hn (.inl hid) with himplicated | ⟨r, ⟨-, t, -, ht⟩, -⟩
    · exact not_implicated hn h himplicated
    · exact not_outdated h ht
  · exact h _ _ ((hm.removed id).mp hid)
  · exact h _ _ ((hm.rewired id).mp hid)

/-- A difference is empty just when under each id there is the same in both generations, a tab, a template or a node
wherever it lies, in whatever order the records are listed. -/
theorem isEmpty_iff_same {oldRecords newRecords : List Json} (hold : parse oldRecords = .ok old)
    (hnew : parse newRecords = .ok new) (hd : between? old new = some diff) :
    diff.isEmpty = true ↔ SameRecords old new := by
  obtain ⟨olds, ho⟩ := parse_proper hold
  obtain ⟨news, hn⟩ := parse_proper hnew
  obtain ⟨m, hm⟩ := marked_of_between? hn hd
  exact ⟨fun h => .of_unmarked ho hn (hm.unmarked h), fun h => hm.isEmpty hn fun _ _ => h.not_directly ho hn⟩

/-- A tab, a node at some place on it, and a template with a node of some value. -/
def placedRecords (place value : Nat) : List Json := [
  .obj [("id", .str "t"), ("type", .str "tab")],
  .obj [("id", .str "a"), ("type", .str "test"), ("x", .nat place), ("z", .str "t")],
  .obj [("id", .str "s"), ("type", .str "subflow")],
  .obj [("id", .str "n"), ("type", .str "test"), ("v", .nat value), ("z", .str "s")]]

/-- With the records in another order and the node moved over the canvas there is no difference. With another value
inside the template there is one. -/
theorem moved_records_same : ∃ old moved edited d d', parse (placedRecords 1 1) = .ok old ∧
    parse (placedRecords 2 1).reverse = .ok moved ∧ parse (placedRecords 1 2) = .ok edited ∧
    between? old moved = some d ∧ between? old edited = some d' ∧ d.isEmpty = true ∧ SameRecords old moved ∧
    d'.isEmpty = false ∧ ¬SameRecords old edited := by
  have hold : parse (placedRecords 1 1) = .ok (ofRecords (placedRecords 1 1)) := parse_of_isOk (by decide +kernel)
  have hmoved : parse (placedRecords 2 1).reverse = .ok (ofRecords (placedRecords 2 1).reverse) :=
    parse_of_isOk (by decide +kernel)
  have hedited : parse (placedRecords 1 2) = .ok (ofRecords (placedRecords 1 2)) := parse_of_isOk (by decide +kernel)
  have hnone : (between? (ofRecords (placedRecords 1 1)) (ofRecords (placedRecords 2 1).reverse)).map
      isEmpty = some true := by decide +kernel
  have hsome : (between? (ofRecords (placedRecords 1 1)) (ofRecords (placedRecords 1 2))).map
      isEmpty = some false := by decide +kernel
  obtain ⟨d, hd, hempty⟩ := Option.map_eq_some_iff.mp hnone
  obtain ⟨d', hd', hmarked⟩ := Option.map_eq_some_iff.mp hsome
  refine ⟨_, _, _, d, d', hold, hmoved, hedited, hd, hd', hempty, (isEmpty_iff_same hold hmoved hd).mp hempty,
    hmarked, fun hsame => ?_⟩
  rw [(isEmpty_iff_same hold hedited hd').mpr hsame] at hmarked
  cases hmarked

end Flowgraph.Diff
