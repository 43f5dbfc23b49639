import Flowgraph.Proofs.TemplateMarks
/-! The comparison of two generations, mark by mark: which records put a mark on which id, and that there are no
other marks. That a node's mark is folded into the template around it is a matter of these marks alone: a node
inside a template never has one, so there is never one to take back. -/
namespace Flowgraph

namespace TextSet

theorem mem_insert_iff {set : TextSet} {s t : String} : s ∈ set.insert t ↔ s ∈ set ∨ s = t :=
  ⟨fun h => (mem_insert h).symm, fun h => h.elim (mem_insert_of_mem · t) fun he => he ▸ mem_insert_self set s⟩

theorem erase_of_not_mem {set : TextSet} {t : String} (h : t ∉ set) : set.erase t = set := by
  refine List.filter_eq_self.mpr fun s hs => ?_
  have hne : s ≠ t := fun he => h (he ▸ hs)
  simpa using hne

end TextSet

namespace Deployment

/-- A deployment as it is read: each node is in its place, and no two records share an id. -/
structure Proper (d : Deployment) (rs : List Record) : Prop extends Arranged d rs where
  sortedTemplates : d.templates.Sorted
  unshared : ∀ z ∈ d.tabIds, d.templates.get? z = none
  free : ∀ r ∈ d.nodes.values, d.templates.get? r.id = none

theorem parse_proper {records : List Json} {d : Deployment} (h : parse records = .ok d) : ∃ rs, Proper d rs := by
  obtain ⟨hsorted, hunshared⟩ := parse_templates h
  unfold parse at h
  cases hi : items [] records with
  | error fault => rw [hi] at h; cases h
  | ok found =>
    rw [hi] at h
    cases h
    have hnodup := (items_ids hi).1
    have harranged := assemble_arranged hnodup
    refine ⟨_, harranged, hsorted, hunshared, fun r hr => ?_⟩
    cases ht : (assemble found).templates.get? r.id with
    | none => rfl
    | some t =>
      obtain ⟨item, hitem, hnode⟩ := List.mem_filterMap.mp (harranged.mem_of_mem_values hr)
      obtain ⟨declared, hdeclared, hid, -⟩ := exists_item_of_template hnodup ht
      cases item <;> cases hnode
      cases List.inj_on_of_nodup_map hnodup hitem hdeclared hid.symm

/-- The deployment that records make, and the empty one where they are refused. -/
def ofRecords (records : List Json) : Deployment := (parse records).toOption.getD .empty

theorem parse_of_isOk {records : List Json} (h : (parse records).isOk = true) :
    parse records = .ok (ofRecords records) := by
  unfold ofRecords
  cases hp : parse records with
  | error fault =>
    rw [hp] at h
    cases h
  | ok d => rfl

variable {d : Deployment} {rs : List Record} {r r' : Record} {z : String}

theorem Arranged.get?_of_mem (h : Arranged d rs) (hr : r ∈ d.nodes.values) : d.nodes.get? r.id = some r := by
  obtain ⟨id, hid⟩ := Dict.exists_key_of_mem_values h.sorted hr
  rwa [h.get?_id hid]

theorem Arranged.eq_of_id (h : Arranged d rs) (hr : r ∈ d.nodes.values) (hr' : r' ∈ d.nodes.values)
    (he : r.id = r'.id) : r = r' :=
  Option.some.inj ((h.get?_of_mem hr).symm.trans (he ▸ h.get?_of_mem hr'))

theorem Proper.not_tab (h : Proper d rs) (hr : r ∈ d.nodes.values) : r.id ∉ d.tabIds :=
  h.apart r (h.mem_of_mem_values hr)

theorem Proper.template_of_mem {t : Template} (h : Proper d rs) (ht : t ∈ d.templates.values) :
    d.templates.get? t.id = some t := by
  obtain ⟨key, hkey⟩ := Dict.exists_key_of_mem_values h.sortedTemplates ht
  rwa [(h.templates key t hkey).1]

theorem Proper.not_template {t : Template} (h : Proper d rs) (hr : r ∈ d.nodes.values)
    (ht : d.templates.get? z = some t) : r.id ≠ z := by
  rintro rfl
  rw [h.free r hr] at ht
  cases ht

theorem Proper.inTemplate_iff (h : Proper d rs) (hr : r ∈ d.nodes.values) :
    Diff.inTemplate d r.container = true ↔ ∃ z, d.Holds z r := by
  constructor
  · intro hin
    cases hc : r.container with
    | none =>
      rw [hc] at hin
      cases hin
    | some z =>
      rw [hc, Diff.inTemplate, Bool.and_eq_true] at hin
      exact ⟨z, h.holds_iff.mpr ⟨hin.2, h.get?_of_mem hr, hc⟩⟩
  · rintro ⟨z, hz⟩
    obtain ⟨hz, -, hc⟩ := h.holds_iff.mp hz
    rw [hc, Diff.inTemplate, Bool.and_eq_true, Diff.not_mem_tabIds h.unshared hz]
    exact ⟨rfl, hz⟩

theorem Proper.outside_iff (h : Proper d rs) (hr : r ∈ d.nodes.values) :
    Diff.inTemplate d r.container = false ↔ ∀ z, ¬d.Holds z r := by
  rw [← Bool.not_eq_true, h.inTemplate_iff hr, not_exists]

end Deployment

namespace Diff

open Deployment

/-! ## Marks of all kinds -/

inductive Mark
  | added
  | changed
  | removed
  | rewired
  | template
  deriving DecidableEq

/-- The ids that have a mark. -/
def Marks.under (m : Marks) : Mark → TextSet
  | .added => m.added
  | .changed => m.changed
  | .removed => m.removed
  | .rewired => m.rewired
  | .template => m.templates

/-- The marks that a container gets when something in it is touched. -/
inductive Touches (new : Deployment) (c : Option String) : Mark → String → Prop
  | tab {z : String} (hc : c = some z) (hz : z ∈ new.tabIds) : Touches new c .changed z
  | template {z : String} (hc : c = some z) (hz : inTemplate new c = true) : Touches new c .changed z
  | content {z : String} (hc : c = some z) (hz : inTemplate new c = true) : Touches new c .template z

/-- The marks that a node of the new generation gets under `k`: it is marked itself unless it lies in a template,
and where it lies is touched. -/
inductive Shows (new : Deployment) (k : Mark) (r : Record) : Mark → String → Prop
  | self (h : inTemplate new r.container = false) : Shows new k r k r.id
  | around {k' : Mark} {id : String} (h : Touches new r.container k' id) : Shows new k r k' id

variable {old new : Deployment} {olds news : List Record} {m : Marks} {k : Mark} {id : String} {r : Record}

/-- No node inside a template is marked itself. -/
def Marks.Folded (new : Deployment) (m : Marks) : Prop :=
  ∀ r ∈ new.nodes.values, inTemplate new r.container = true → ∀ k, k ≠ .removed → r.id ∉ m.under k

theorem folded_none : Marks.none.Folded new := by
  intro r _ _ k _ hm
  cases k <;> cases hm

/-- A step that makes the marks `G` and no others. It may rely on it that no node inside a template is marked. -/
structure Adds (new : Deployment) (G : Mark → String → Prop) (f : Marks → Marks) : Prop where
  mem_iff : ∀ m : Marks, m.Folded new → ∀ k id, id ∈ (f m).under k ↔ id ∈ m.under k ∨ G k id
  outside : ∀ r ∈ new.nodes.values, inTemplate new r.container = true → ∀ k, k ≠ .removed → ¬G k r.id

namespace Adds

variable {F G : Mark → String → Prop} {f g : Marks → Marks}

theorem folded (h : Adds new F f) (hm : m.Folded new) : (f m).Folded new := by
  intro r hr hin k hk hmem
  rcases (h.mem_iff m hm k r.id).mp hmem with hmem | hmem
  · exact hm r hr hin k hk hmem
  · exact h.outside r hr hin k hk hmem

theorem comp (h : Adds new F f) (h' : Adds new G g) : Adds new (fun k id => F k id ∨ G k id) fun m => g (f m) where
  mem_iff m hm k id := by rw [h'.mem_iff _ (h.folded hm), h.mem_iff m hm, or_assoc]
  outside r hr hin k hk := not_or.mpr ⟨h.outside r hr hin k hk, h'.outside r hr hin k hk⟩

theorem congr (h : Adds new F f) (hG : ∀ k id, F k id ↔ G k id) : Adds new G f where
  mem_iff m hm k id := by rw [h.mem_iff m hm, hG]
  outside r hr hin k hk hG' := h.outside r hr hin k hk ((hG _ _).mpr hG')

theorem of_eq (h : Adds new F f) (he : ∀ m, g m = f m) : Adds new F g := (funext he : g = f) ▸ h

/-- A step that is made under a condition. -/
theorem ite (c : Bool) (h : c = true → Adds new F f) :
    Adds new (fun k id => c = true ∧ F k id) fun m => if c then f m else m := by
  cases c with
  | true => exact (h rfl).congr fun k id => by simp
  | false => exact ⟨fun m _ k id => by simp, fun r _ _ k _ hF => by simp at hF⟩

theorem foldl {α : Type} {f : Marks → α → Marks} {G : α → Mark → String → Prop} {xs : List α}
    (h : ∀ a ∈ xs, Adds new (G a) (f · a)) : Adds new (fun k id => ∃ a ∈ xs, G a k id) (xs.foldl f) := by
  induction xs with
  | nil => exact ⟨fun m _ k id => by simp, fun r _ _ k _ hG => by simp at hG⟩
  | cons x xs ih =>
    refine ((h x List.mem_cons_self).comp (ih fun a ha => h a (List.mem_cons_of_mem _ ha))).congr fun k id => ?_
    simp

end Adds

def Marks.put (m : Marks) (k : Mark) (id : String) : Marks :=
  match k with
  | .added => { m with added := m.added.insert id }
  | .changed => { m with changed := m.changed.insert id }
  | .removed => { m with removed := m.removed.insert id }
  | .rewired => { m with rewired := m.rewired.insert id }
  | .template => { m with templates := m.templates.insert id }

def Marks.drop (m : Marks) (k : Mark) (id : String) : Marks :=
  match k with
  | .added => { m with added := m.added.erase id }
  | .changed => { m with changed := m.changed.erase id }
  | .removed => { m with removed := m.removed.erase id }
  | .rewired => { m with rewired := m.rewired.erase id }
  | .template => { m with templates := m.templates.erase id }

theorem drop_of_not_mem (h : id ∉ m.under k) : m.drop k id = m := by
  have he := TextSet.erase_of_not_mem h
  cases k <;> simp only [Marks.under] at he <;> simp only [Marks.drop, he]

theorem mem_put (m : Marks) (k : Mark) (id : String) (k' : Mark) (i : String) :
    i ∈ (m.put k id).under k' ↔ i ∈ m.under k' ∨ k' = k ∧ i = id := by
  cases k <;> cases k' <;> simp [Marks.put, Marks.under, TextSet.mem_insert_iff]

theorem adds_put (k : Mark) (id : String)
    (h : k ≠ .removed → ∀ r ∈ new.nodes.values, inTemplate new r.container = true → r.id ≠ id) :
    Adds new (fun k' i => k' = k ∧ i = id) (·.put k id) where
  mem_iff m _ := mem_put m k id
  outside := by
    rintro r hr hin k hk ⟨rfl, he⟩
    exact h hk r hr hin he

theorem Shows.touches {k' : Mark} (h : Shows new k r k' id) (hk : k ≠ k') : Touches new r.container k' id := by
  rcases h with - | h
  · exact absurd rfl hk
  · exact h

theorem Shows.kind (h : Shows new .changed r k id) : k = .changed ∨ k = .template := by
  rcases h with - | (- | - | -)
  · exact .inl rfl
  · exact .inl rfl
  · exact .inl rfl
  · exact .inr rfl

theorem not_touches_none : ¬Touches new none k id := by
  rintro (⟨⟨⟩, _⟩ | ⟨⟨⟩, _⟩ | ⟨⟨⟩, _⟩)

theorem touches_some {z : String} : Touches new (some z) k id ↔ id = z ∧
    (k = .changed ∧ z ∈ new.tabIds ∨ (k = .changed ∨ k = .template) ∧ inTemplate new (some z) = true) := by
  constructor
  · rintro (⟨⟨⟩, hz⟩ | ⟨⟨⟩, hz⟩ | ⟨⟨⟩, hz⟩)
    · exact ⟨rfl, .inl ⟨rfl, hz⟩⟩
    · exact ⟨rfl, .inr ⟨.inl rfl, hz⟩⟩
    · exact ⟨rfl, .inr ⟨.inr rfl, hz⟩⟩
  · rintro ⟨rfl, ⟨rfl, hz⟩ | ⟨rfl | rfl, hz⟩⟩
    · exact .tab rfl hz
    · exact .template rfl hz
    · exact .content rfl hz

section New
variable (hn : Proper new news)
include hn

theorem not_touches {c : Option String} (hr : r ∈ new.nodes.values) : ¬Touches new c k r.id := by
  have hnot {z : String} (hc : c = some z) (hz : inTemplate new c = true) : r.id ≠ z := by
    rw [hc, inTemplate, Bool.and_eq_true, Dict.contains_eq_isSome] at hz
    obtain ⟨t, ht⟩ := Option.isSome_iff_exists.mp hz.2
    exact hn.not_template hr ht
  rintro (⟨hc, hz⟩ | ⟨hc, hz⟩ | ⟨hc, hz⟩)
  · exact hn.not_tab hr hz
  · exact hnot hc hz rfl
  · exact hnot hc hz rfl

theorem adds_touch (c : Option String) : Adds new (Touches new c) (·.touch new c) where
  mem_iff m _ k id := by
    cases c with
    | none => simp [Marks.touch, not_touches_none]
    | some z =>
      rw [touches_some]
      unfold Marks.touch
      dsimp only
      split
      · rename_i htab
        simp only [inTemplate, htab]
        cases k <;> simp [Marks.under, TextSet.mem_insert_iff, List.contains_iff_mem.mp htab]
      · rename_i htab
        split
        · rename_i hz
          simp only [inTemplate, htab, hz]
          cases k <;> simp [Marks.under, TextSet.mem_insert_iff]
        · rename_i hz
          rw [Dict.contains_eq_isSome] at hz
          simp [inTemplate, hz, mt List.contains_iff_mem.mpr htab]
  outside r hr _ _ _ := not_touches hn hr

/-- A mark that a node makes and that is on a node is on that node. -/
theorem eq_of_shows {r' : Record} {k' : Mark} (hr : r ∈ new.nodes.values) (hr' : r' ∈ new.nodes.values)
    (hs : Shows new k' r' k r.id) : r' = r := by
  generalize hid : r.id = id at hs
  rcases hs with - | ht
  · exact hn.eq_of_id hr' hr hid.symm
  · exact absurd (hid ▸ ht) (not_touches hn hr)

/-- A step that touches the place of a node and marks the node, or takes its mark back if it lies in a template:
there is none to take back. -/
theorem adds_shows (hr : r ∈ new.nodes.values) (hk : k ≠ .removed) {f : Marks → Marks}
    (hf : ∀ m, f m = if inTemplate new r.container then (m.touch new r.container).drop k r.id else
      (m.touch new r.container).put k r.id) : Adds new (Shows new k r) f where
  mem_iff m hm k' id := by
    have htouch := adds_touch hn r.container
    rw [hf m]
    split
    · rename_i hin
      rw [drop_of_not_mem (htouch.folded hm r hr hin k hk), htouch.mem_iff m hm]
      refine or_congr_right ⟨.around, ?_⟩
      rintro (hout | h)
      · rw [hin] at hout
        cases hout
      · exact h
    · rename_i hin
      rw [mem_put, htouch.mem_iff m hm, or_assoc]
      refine or_congr_right ⟨?_, ?_⟩
      · rintro (h | ⟨rfl, rfl⟩)
        · exact .around h
        · exact .self (by simpa using hin)
      · rintro (hout | h)
        · exact .inr ⟨rfl, rfl⟩
        · exact .inl h
  outside r' hr' hin k' _ := by
    intro h
    obtain rfl := eq_of_shows hn hr' hr h
    rcases h with hout | h
    · rw [hout] at hin
      cases hin
    · exact not_touches hn hr' h

theorem adds_change (hr : r ∈ new.nodes.values) : Adds new (Shows new .changed r) (·.change new r) :=
  adds_shows (k := .changed) hn hr nofun fun _ => rfl

theorem adds_rewire (hr : r ∈ new.nodes.values) : Adds new (Shows new .rewired r) (·.rewire new r) :=
  adds_shows (k := .rewired) hn hr nofun fun _ => rfl

theorem adds_add (hr : r ∈ new.nodes.values) : Adds new (Shows new .added r) (·.add new r) :=
  adds_shows (k := .added) hn hr nofun fun _ => rfl

/-- Nodes of the new generation that are marked one after the other. -/
theorem adds_changes {found : List Record} (hf : ∀ r ∈ found, r ∈ new.nodes.values) :
    Adds new (fun k id => ∃ r ∈ found, Shows new .changed r k id) (found.foldl (·.change new ·)) :=
  .foldl fun r hr => adds_change hn (hf r hr)

end New

/-! ## The comparison of the records -/

/-- Additions to the list of what is new, under ids that no node has. -/
theorem adds_names {α : Type} {f : α → String} {xs : List α}
    (h : ∀ a ∈ xs, ∀ r ∈ new.nodes.values, r.id ≠ f a) : Adds new (fun k id => ∃ a ∈ xs, k = .added ∧ id = f a)
      (xs.foldl fun m a => { m with added := m.added.insert (f a) }) :=
  .foldl fun a ha => adds_put .added (f a) fun _ r hr _ => h a ha r hr

/-- The marks that a tab of the old generation makes. -/
inductive TabMark (new : Deployment) (a : FlowConfig) : Mark → String → Prop
  | gone (h : a.id ∉ new.tabIds) : TabMark new a .removed a.id
  | edited {b : FlowConfig} (hb : b ∈ new.tabs) (hid : b.id = a.id) (h : tabDiffers a b = true) :
    TabMark new a .changed a.id

/-- The marks that a template of the old generation makes. -/
inductive TemplateMark (new : Deployment) (a : Template) : Mark → String → Prop
  | gone (h : new.templates.get? a.id = none) : TemplateMark new a .removed a.id
  | edited {b : Template} (hb : new.templates.get? a.id = some b) (h : templateDiffers a b = true) :
    TemplateMark new a .changed a.id
  | content {b : Template} (hb : new.templates.get? a.id = some b) (h : templateDiffers a b = true) :
    TemplateMark new a .template a.id

/-- The marks that a node of the old generation makes. -/
inductive NodeMark (new : Deployment) (a : Record) : Mark → String → Prop
  | gone (h : new.nodes.get? a.id = none) : NodeMark new a .removed a.id
  | left {k : Mark} {id : String} (h : new.nodes.get? a.id = none) (ht : Touches new a.container k id) :
    NodeMark new a k id
  | edited {b : Record} {k : Mark} {id : String} (hb : new.nodes.get? a.id = some b) (h : nodeDiffers a b = true)
    (hs : Shows new .changed b k id) : NodeMark new a k id
  | rewired {b : Record} {k : Mark} {id : String} (hb : new.nodes.get? a.id = some b) (h : a.wires ≠ b.wires)
    (hs : Shows new .rewired b k id) : NodeMark new a k id

/-- The marks that the records themselves make. -/
inductive Directly (old new : Deployment) : Mark → String → Prop
  | tab {a : FlowConfig} {k : Mark} {id : String} (ha : a ∈ old.tabs) (h : TabMark new a k id) : Directly old new k id
  | newTab {b : FlowConfig} (hb : b ∈ new.tabs) (h : b.id ∉ old.tabIds) : Directly old new .added b.id
  | template {a : Template} {k : Mark} {id : String} (ha : a ∈ old.templates.values) (h : TemplateMark new a k id) :
    Directly old new k id
  | newTemplate {b : Template} (hb : b ∈ new.templates.values) (h : old.templates.get? b.id = none) :
    Directly old new .added b.id
  | node {a : Record} {k : Mark} {id : String} (ha : a ∈ old.nodes.values) (h : NodeMark new a k id) :
    Directly old new k id
  | newNode {b : Record} {k : Mark} {id : String} (hb : b ∈ new.nodes.values) (h : old.nodes.get? b.id = none)
    (hs : Shows new .added b k id) : Directly old new k id

/-- A node of the old generation is marked as removed only if no node of the next one has its id. -/
theorem Directly.gone (ho : Proper old olds) (hr : r ∈ old.nodes.values) (h : Directly old new .removed r.id) :
    new.nodes.get? r.id = none := by
  generalize hid : r.id = id at h
  cases h with
  | tab ha h =>
    cases h
    exact absurd (List.mem_map_of_mem ha) (hid ▸ ho.not_tab hr)
  | template ha h =>
    cases h
    exact absurd hid (ho.not_template hr (ho.template_of_mem ha))
  | node ha h =>
    rcases h with h | ⟨-, ht⟩ | ⟨-, -, hs⟩ | ⟨-, -, hs⟩
    · exact h
    · cases ht
    · cases hs.touches nofun
    · cases hs.touches nofun
  | newNode _ _ hs => cases hs.touches nofun

section New
variable (hn : Proper new news)
include hn

theorem adds_compareTab (a : FlowConfig) : Adds new (TabMark new a) (compareTab new · a) := by
  cases hf : new.tabs.find? (·.id == a.id) with
  | none =>
    have hgone : a.id ∉ new.tabIds := fun hm => by
      obtain ⟨b, hb, hid⟩ := List.mem_map.mp hm
      simpa [hid] using List.find?_eq_none.mp hf b hb
    refine ((adds_put .removed a.id fun h => absurd rfl h).congr fun k id => ⟨?_, ?_⟩).of_eq fun m => ?_
    · rintro ⟨rfl, rfl⟩
      exact .gone hgone
    · rintro (- | ⟨hb, hid, -⟩)
      · exact ⟨rfl, rfl⟩
      · exact absurd (hid ▸ List.mem_map_of_mem hb) hgone
    · unfold compareTab
      rw [hf]
      rfl
  | some b =>
    have hb := List.mem_of_find?_eq_some hf
    have hid : b.id = a.id := by simpa using List.find?_some hf
    have htab : a.id ∈ new.tabIds := hid ▸ List.mem_map_of_mem hb
    refine ((Adds.ite (tabDiffers a b) fun _ => adds_put .changed a.id fun _ r hr _ he =>
      hn.not_tab hr (he ▸ htab)).congr fun k id => ⟨?_, ?_⟩).of_eq fun m => ?_
    · rintro ⟨hd, rfl, rfl⟩
      exact .edited hb hid hd
    · rintro (h | ⟨hb', hid', hd⟩)
      · exact absurd htab h
      · have hfound := find?_of_nodup (f := FlowConfig.id) hn.tabIds hb'
        rw [hid', hf] at hfound
        cases hfound
        exact ⟨hd, rfl, rfl⟩
    · unfold compareTab
      rw [hf]
      rfl

theorem adds_compareTemplate (a : Template) : Adds new (TemplateMark new a) (compareTemplate new · a) := by
  cases hf : new.templates.get? a.id with
  | none =>
    refine ((adds_put .removed a.id fun h => absurd rfl h).congr fun k id => ⟨?_, ?_⟩).of_eq fun m => ?_
    · rintro ⟨rfl, rfl⟩
      exact .gone hf
    · rintro (- | ⟨hb, -⟩ | ⟨hb, -⟩)
      · exact ⟨rfl, rfl⟩
      · rw [hf] at hb
        cases hb
      · rw [hf] at hb
        cases hb
    · unfold compareTemplate
      rw [hf]
      rfl
  | some b =>
    have hfree : ∀ r ∈ new.nodes.values, inTemplate new r.container = true → r.id ≠ a.id := fun r hr _ =>
      hn.not_template hr hf
    refine ((Adds.ite (templateDiffers a b) fun _ => (adds_put .changed a.id fun _ => hfree).comp
      (adds_put .template a.id fun _ => hfree)).congr fun k id => ⟨?_, ?_⟩).of_eq fun m => ?_
    · rintro ⟨hd, ⟨rfl, rfl⟩ | ⟨rfl, rfl⟩⟩
      · exact .edited hf hd
      · exact .content hf hd
    · rintro (h | ⟨hb, hd⟩ | ⟨hb, hd⟩)
      · rw [hf] at h
        cases h
      · cases hf.symm.trans hb
        exact ⟨hd, .inl ⟨rfl, rfl⟩⟩
      · cases hf.symm.trans hb
        exact ⟨hd, .inr ⟨rfl, rfl⟩⟩
    · unfold compareTemplate
      rw [hf]
      rfl

theorem adds_compareNode (a : Record) : Adds new (NodeMark new a) (compareNode new · a) := by
  cases hf : new.nodes.get? a.id with
  | none =>
    refine (((adds_put .removed a.id fun h => absurd rfl h).comp (adds_touch hn a.container)).congr
      fun k id => ⟨?_, ?_⟩).of_eq fun m => ?_
    · rintro (⟨rfl, rfl⟩ | h)
      · exact .gone hf
      · exact .left hf h
    · rintro (- | ⟨-, h⟩ | ⟨hb, -⟩ | ⟨hb, -⟩)
      · exact .inl ⟨rfl, rfl⟩
      · exact .inr h
      · rw [hf] at hb
        cases hb
      · rw [hf] at hb
        cases hb
    · unfold compareNode
      rw [hf]
      rfl
  | some b =>
    have hb := Dict.mem_values hf
    refine (((Adds.ite (nodeDiffers a b) fun _ => adds_change hn hb).comp
      (Adds.ite (a.wires != b.wires) fun _ => adds_rewire hn hb)).congr fun k id => ⟨?_, ?_⟩).of_eq fun m => ?_
    · rintro (⟨hd, h⟩ | ⟨hd, h⟩)
      · exact .edited hf hd h
      · exact .rewired hf (by simpa using hd) h
    · rintro (h | ⟨h, -⟩ | ⟨hb, hd, h⟩ | ⟨hb, hd, h⟩)
      · rw [hf] at h
        cases h
      · rw [hf] at h
        cases h
      · cases hf.symm.trans hb
        exact .inl ⟨hd, h⟩
      · cases hf.symm.trans hb
        exact .inr ⟨by simpa using hd, h⟩
    · unfold compareNode
      rw [hf]

theorem adds_direct (old : Deployment) : ∃ f, direct old new = f .none ∧ Adds new (Directly old new) f := by
  have htabs : ∀ a ∈ new.tabs.filter (fun t => !old.tabIds.contains t.id), ∀ r ∈ new.nodes.values, r.id ≠ a.id :=
    fun a ha r hr he => hn.not_tab hr (he ▸ List.mem_map_of_mem (List.mem_of_mem_filter ha))
  have htemplates : ∀ a ∈ new.templates.values.filter (fun t => !old.templates.contains t.id),
      ∀ r ∈ new.nodes.values, r.id ≠ a.id := fun a ha r hr =>
    hn.not_template hr (hn.template_of_mem (List.mem_of_mem_filter ha))
  have hnodes : ∀ b ∈ new.nodes.values.filter (fun r => !old.nodes.contains r.id), b ∈ new.nodes.values :=
    fun b hb => List.mem_of_mem_filter hb
  have hold := ((((Adds.foldl fun a (_ : a ∈ old.tabs) => adds_compareTab hn a).comp (adds_names htabs)).comp
    (.foldl fun a (_ : a ∈ old.templates.values) => adds_compareTemplate hn a)).comp (adds_names htemplates)).comp
    (.foldl fun a (_ : a ∈ old.nodes.values) => adds_compareNode hn a)
  refine ⟨_, rfl, (hold.comp (.foldl fun b hb => adds_add hn (hnodes b hb))).congr fun k id => ⟨?_, fun h => ?_⟩⟩
  · rintro (((((⟨a, ha, h⟩ | ⟨b, hb, rfl, rfl⟩) | ⟨a, ha, h⟩) | ⟨b, hb, rfl, rfl⟩) | ⟨a, ha, h⟩) | ⟨b, hb, h⟩)
    · exact .tab ha h
    · obtain ⟨hb, hnew⟩ := List.mem_filter.mp hb
      exact .newTab hb (by simpa using hnew)
    · exact .template ha h
    · obtain ⟨hb, hnew⟩ := List.mem_filter.mp hb
      exact .newTemplate hb (by simpa using hnew)
    · exact .node ha h
    · obtain ⟨hb, hnew⟩ := List.mem_filter.mp hb
      exact .newNode hb (by simpa using hnew) h
  · cases h with
    | tab ha h => exact .inl (.inl (.inl (.inl (.inl ⟨_, ha, h⟩))))
    | newTab hb h => exact .inl (.inl (.inl (.inl (.inr ⟨_, List.mem_filter.mpr ⟨hb, by simpa using h⟩, rfl, rfl⟩))))
    | template ha h => exact .inl (.inl (.inl (.inr ⟨_, ha, h⟩)))
    | newTemplate hb h => exact .inl (.inl (.inr ⟨_, List.mem_filter.mpr ⟨hb, by simpa using h⟩, rfl, rfl⟩))
    | node ha h => exact .inl (.inr ⟨_, ha, h⟩)
    | newNode hb h hs => exact .inr ⟨_, List.mem_filter.mpr ⟨hb, by simpa using h⟩, hs⟩

/-- The records make just these marks. -/
theorem mem_direct_iff : id ∈ (direct old new).under k ↔ Directly old new k id := by
  obtain ⟨f, he, hf⟩ := adds_direct hn old
  rw [he, hf.mem_iff .none folded_none]
  refine or_iff_right fun hno => ?_
  cases k <;> cases hno

theorem folded_direct : (direct old new).Folded new := by
  obtain ⟨f, he, hf⟩ := adds_direct hn old
  exact he ▸ hf.folded folded_none

end New

end Diff
end Flowgraph
