import Mathlib.Order.Bounds.Basic
import Flowgraph.Proofs.UsageMarks
/-! Without templates the changed ids of a difference are a least set: they are closed under everything that makes a
change, and every set that is closed holds them. -/
namespace Flowgraph.Diff

open Deployment

variable {old new : Deployment} {olds news : List Record} {m : Marks} {id z : String} {r : Record} {diff : Diff}

/-- The sets of ids that hold the tabs and nodes that differ, with every node that refers to a held or removed id, and
every tab around a node that is new, rewired or held, or from which a node has been removed. -/
structure Closed (old new : Deployment) (diff : Diff) (C : Set NodeId) : Prop where
  tab : ∀ a ∈ old.tabs, ∀ b ∈ new.tabs, a.id = b.id →
    a.label ≠ b.label ∨ sameEnv a.env b.env = false ∨ a.disabled ≠ b.disabled → b.id ∈ C
  node : ∀ id a b, old.nodes.get? id = some a → new.nodes.get? id = some b →
    a.type ≠ b.type ∨ a.container ≠ b.container ∨ a.disabled ≠ b.disabled ∨
      Json.sameFields (material a) (material b) = false → id ∈ C
  reference : ∀ r ∈ new.nodes.values, ∀ id, r.refersTo id = true → id ∈ C ∨ id ∈ diff.removed → r.id ∈ C
  around : ∀ r ∈ new.nodes.values, ∀ z ∈ new.tabIds, r.container = some z →
    r.id ∈ diff.added ∨ r.id ∈ diff.rewired ∨ r.id ∈ C → z ∈ C
  left : ∀ r ∈ old.nodes.values, ∀ z ∈ new.tabIds, r.container = some z → r.id ∈ diff.removed → z ∈ C

theorem Directly.template_known (h : Directly old new .template z) : (new.templates.get? z).isSome = true := by
  have htouched {c : Option String} (ht : Touches new c .template z) : (new.templates.get? z).isSome = true := by
    rcases ht with - | - | ⟨hc, hin⟩
    rw [hc, inTemplate, Bool.and_eq_true, Dict.contains_eq_isSome] at hin
    exact hin.2
  cases h with
  | tab _ h => cases h
  | template _ h =>
    obtain - | - | ⟨hb, -⟩ := h
    rw [hb]
    rfl
  | node _ h =>
    rcases h with - | ⟨-, ht⟩ | ⟨-, -, hs⟩ | ⟨-, -, hs⟩
    · exact htouched ht
    · exact htouched (hs.touches (by decide))
    · exact htouched (hs.touches (by decide))
  | newNode _ _ hs => exact htouched (hs.touches (by decide))

theorem Outdated.known (h : Outdated old new z) : (new.templates.get? z).isSome = true := by
  cases h with
  | marked h => exact h.template_known
  | around _ hz =>
    obtain ⟨t, ht, -⟩ := hz
    rw [ht]
    rfl

section Bare
/-! From here on the new generation has no templates. -/

variable (hbare : new.templates = [])
include hbare

theorem not_inTemplate (c : Option String) : inTemplate new c = false := by
  cases c <;> simp [inTemplate, hbare]

theorem not_renewed : ¬Renewed old new id := by
  rintro ⟨r, ⟨-, t, -, ht⟩, -⟩
  have hknown := ht.known
  rw [hbare] at hknown
  cases hknown

theorem touches_bare {c : Option String} (h : Touches new c .changed z) : c = some z ∧ z ∈ new.tabIds := by
  rcases h with ⟨hc, hz⟩ | ⟨-, hin⟩
  · exact ⟨hc, hz⟩
  · rw [not_inTemplate hbare] at hin
    cases hin

/-- What the records show is in every closed set. -/
theorem Closed.direct {C : Set NodeId} (hC : Closed old new diff C) (hm : Marked old new diff m)
    (ho : Arranged old olds) (hn : Arranged new news) (h : Directly old new .changed id) : id ∈ C := by
  cases h with
  | tab ha h =>
    obtain - | ⟨hb, hid, hd⟩ := h
    refine hid ▸ hC.tab _ ha _ hb hid.symm ?_
    simpa [tabDiffers, or_assoc] using hd
  | template ha h =>
    obtain - | ⟨hb, -⟩ := h
    rw [hbare] at hb
    cases hb
  | @node a _ _ ha h =>
    have hold := ho.get?_of_mem ha
    rcases h with - | ⟨hnone, ht⟩ | ⟨hb, hd, hs⟩ | ⟨hb, hd, hs⟩
    · obtain ⟨hc, hz⟩ := touches_bare hbare ht
      exact hC.left a ha _ hz hc ((hm.removed _).mpr (.node ha (.gone hnone)))
    · rename_i b
      have hin : a.id ∈ C := hC.node _ _ _ hold hb (by simpa [nodeDiffers, or_assoc] using hd)
      rcases hs with - | ht
      · rwa [hn.get?_id hb]
      · obtain ⟨hc, hz⟩ := touches_bare hbare ht
        exact hC.around b (Dict.mem_values hb) _ hz hc (.inr (.inr (hn.get?_id hb ▸ hin)))
    · rename_i b
      obtain ⟨hc, hz⟩ := touches_bare hbare (hs.touches (by decide))
      have hrewired := (hm.rewired b.id).mpr (.node ha (.rewired hb hd (.self (not_inTemplate hbare _))))
      exact hC.around b (Dict.mem_values hb) _ hz hc (.inr (.inl hrewired))
  | @newNode b _ _ hb h hs =>
    obtain ⟨hc, hz⟩ := touches_bare hbare (hs.touches (by decide))
    have hadded := (hm.added b.id).mpr (.newNode hb h (.self (not_inTemplate hbare _)))
    exact hC.around b hb _ hz hc (.inl hadded)

/-- What comes to a change by reference is in every closed set, or removed. -/
theorem Closed.implicated {C : Set NodeId} (hC : Closed old new diff C) (hm : Marked old new diff m)
    (ho : Arranged old olds) (hn : Proper new news) (h : Implicated old new id) : id ∈ C ∨ id ∈ diff.removed := by
  induction h with
  | removed h => exact .inr ((hm.removed _).mpr ((mem_direct_iff hn (k := .removed)).mp h))
  | changed h => exact .inl (hC.direct hbare hm ho hn.toArranged ((mem_direct_iff hn (k := .changed)).mp h))
  | template hz =>
    obtain ⟨t, ht, -⟩ := hz
    rw [hbare] at ht
    cases ht
  | node hr _ _ href ih => exact .inl (hC.reference _ hr _ href ih)
  | tab hr _ hc hz _ href ih => exact .inl (hC.around _ hr _ hz hc (.inr (.inr (hC.reference _ hr _ href ih))))

theorem Marked.changed_bare (hm : Marked old new diff m) (hid : id ∈ diff.changed) : id ∈ m.changed :=
  (hm.renewed id hid).resolve_right (not_renewed hbare)

/-- The changed ids are in every closed set. -/
theorem Closed.changed {C : Set NodeId} (hC : Closed old new diff C) (hm : Marked old new diff m)
    (ho : Arranged old olds) (hn : Proper new news) (hid : id ∈ diff.changed) : id ∈ C := by
  rcases hm.settled.traced .changed id (hm.changed_bare hbare hid) with hd | ⟨r, hr, ⟨other, hother, href⟩, hs⟩
  · exact hC.direct hbare hm ho hn.toArranged hd
  · have hin : r.id ∈ C := hC.reference r hr other href (hC.implicated hbare hm ho hn hother)
    rcases hs with - | ht
    · exact hin
    · obtain ⟨hc, hz⟩ := touches_bare hbare ht
      exact hC.around r hr _ hz hc (.inr (.inr hin))

/-- They are closed themselves. -/
theorem Marked.closed (hm : Marked old new diff m) (ho : Proper old olds) (hn : Proper new news) :
    Closed old new diff {id | id ∈ diff.changed} where
  tab a ha b hb hid hd := by
    have hmark : Directly old new .changed a.id :=
      .tab ha (.edited hb hid.symm (by simpa [tabDiffers, or_assoc] using hd))
    exact hm.kept _ (hm.settled.kept .changed _ (hid ▸ hmark))
  node id a b ha hb hd := by
    obtain rfl := ho.get?_id ha
    have hmark : Directly old new .changed b.id := .node (Dict.mem_values ha)
      (.edited hb (by simpa [nodeDiffers, or_assoc] using hd) (.self (not_inTemplate hbare _)))
    exact hm.kept _ (hm.settled.kept .changed _ (hn.get?_id hb ▸ hmark))
  reference r hr id href hid := by
    refine hm.kept _ (hm.settled.mem_changed hr (hid.imp (hm.changed_bare hbare) fun hgone => ?_) href)
    exact (hm.settled.mem_iff (k := .removed) (by decide) (by decide)).mpr ((hm.removed id).mp hgone)
  around r hr z hz hc h := by
    have ht : Touches new r.container .changed z := .tab hc hz
    refine hm.kept z ?_
    rcases h with h | h | h
    · exact hm.settled.kept .changed z (((hm.added _).mp h).enclosed hn hr (by decide) ht)
    · exact hm.settled.kept .changed z (((hm.rewired _).mp h).enclosed hn hr (by decide) ht)
    · exact hm.settled.enclosed r hr (hm.changed_bare hbare h) z ht
  left r hr z hz hc h := by
    have hgone : new.nodes.get? r.id = none := ((hm.removed r.id).mp h).gone ho hr
    exact hm.kept z (hm.settled.kept .changed z (.node hr (.left hgone (.tab hc hz))))

end Bare

/-- Without templates in the next generation there is a difference, and its changed ids are the least set that is
closed. -/
theorem changed_isLeast {oldRecords newRecords : List Json} (hold : parse oldRecords = .ok old)
    (hnew : parse newRecords = .ok new) (hbare : new.templates = []) :
    ∃ diff, between? old new = some diff ∧ IsLeast {C | Closed old new diff C} {id | id ∈ diff.changed} := by
  obtain ⟨olds, ho⟩ := parse_proper hold
  obtain ⟨news, hn⟩ := parse_proper hnew
  have hspared : TemplatesSpared old new := by
    rintro z r ⟨t, ht, -⟩
    rw [hbare] at ht
    cases ht
  obtain ⟨diff, hd⟩ := (between?_iff_spared hn).mpr hspared
  obtain ⟨m, hm⟩ := marked_of_between? hn hd
  exact ⟨diff, hd, hm.closed hbare ho hn, fun C hC id hid => hC.changed hbare hm ho.toArranged hn hid⟩

/-- A setting of some value, a node on a tab that refers to it, one that refers to that node, and one that does not. -/
def namedInChain (value : Nat) : List Json := [
  .obj [("id", .str "t"), ("type", .str "tab")],
  .obj [("id", .str "c"), ("type", .str "test"), ("v", .nat value)],
  .obj [("id", .str "b"), ("server", .str "c"), ("type", .str "test"), ("z", .str "t")],
  .obj [("id", .str "a"), ("links", .arr [.str "b"]), ("type", .str "test")],
  .obj [("id", .str "o"), ("type", .str "test"), ("z", .str "t")]]

theorem changed_isLeast_namedInChain : ∃ old new diff, parse (namedInChain 1) = .ok old ∧
    parse (namedInChain 2) = .ok new ∧ new.templates = [] ∧ between? old new = some diff ∧
    diff.changed = ["a", "b", "c", "t"] ∧ IsLeast {C | Closed old new diff C} {id | id ∈ diff.changed} := by
  have hold : parse (namedInChain 1) = .ok (ofRecords (namedInChain 1)) := parse_of_isOk (by decide +kernel)
  have hnew : parse (namedInChain 2) = .ok (ofRecords (namedInChain 2)) := parse_of_isOk (by decide +kernel)
  have hbare : (ofRecords (namedInChain 2)).templates = [] := by decide +kernel
  obtain ⟨diff, hd, hleast⟩ := changed_isLeast hold hnew hbare
  have hchanged : (between? (ofRecords (namedInChain 1)) (ofRecords (namedInChain 2))).map (·.changed) =
      some ["a", "b", "c", "t"] := by decide +kernel
  rw [hd] at hchanged
  exact ⟨_, _, diff, hold, hnew, hbare, hd, Option.some.inj hchanged, hleast⟩

end Flowgraph.Diff
