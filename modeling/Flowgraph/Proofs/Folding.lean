import Flowgraph.Proofs.UsageMarks
/-! Nodes inside templates in a difference. What is new or edited in a template shows as a change of the template and
of the nodes that use it, and never by the id of the node inside. A node that is deleted there shows by its id too. -/
namespace Flowgraph.Diff

open Deployment

variable {old new : Deployment} {olds news : List Record} {m : Marks} {id t z : String} {r : Record} {diff : Diff}

section New
variable (hn : Proper new news)
include hn

/-- A template in which the comparison finds anything is marked, and outdated for those that use it. -/
theorem Altered.directly (ho : Proper old olds) (h : Altered old new z) :
    Directly old new .changed z ∧ Directly old new .template z := by
  have htouched {b : Record} (hz : new.Holds z b) : Touches new b.container .changed z ∧
      Touches new b.container .template z := by
    obtain ⟨-, hb, hc⟩ := hn.holds_iff.mp hz
    have hin := (hn.inTemplate_iff (Dict.mem_values hb)).mpr ⟨z, hz⟩
    exact ⟨.template hc hin, .content hc hin⟩
  cases h with
  | record ha hb h =>
    obtain rfl := (ho.templates z _ ha).1
    have hmem := Dict.mem_values ha
    exact ⟨.template hmem (.edited hb h), .template hmem (.content hb h)⟩
  | fresh hz hnone =>
    obtain ⟨hchanged, hcontent⟩ := htouched hz
    have hmem := Dict.mem_values (hn.holds_iff.mp hz).2.1
    exact ⟨.newNode hmem hnone (.around hchanged), .newNode hmem hnone (.around hcontent)⟩
  | edited ha hz h =>
    obtain ⟨hchanged, hcontent⟩ := htouched hz
    have hb := (hn.holds_iff.mp hz).2.1
    rw [← ho.get?_id ha] at hb
    have hmem := Dict.mem_values ha
    rcases h with h | h
    · exact ⟨.node hmem (.edited hb h (.around hchanged)), .node hmem (.edited hb h (.around hcontent))⟩
    · exact ⟨.node hmem (.rewired hb h (.around hchanged)), .node hmem (.rewired hb h (.around hcontent))⟩
  | deleted hz hr hc hnone =>
    have hin : inTemplate new (some z) = true := by
      rw [inTemplate, Bool.and_eq_true, not_mem_tabIds hn.unshared hz]
      exact ⟨rfl, hz⟩
    rw [← hc] at hin
    have hmem := Dict.mem_values hr
    exact ⟨.node hmem (.left hnone (.template hc hin)), .node hmem (.left hnone (.content hc hin))⟩

/-- Nothing marks a node inside a template but what removes its id. -/
theorem Marked.not_mem (hm : Marked old new diff m) (hz : new.Holds z r) :
    r.id ∉ diff.added ∧ r.id ∉ diff.changed ∧ r.id ∉ diff.rewired := by
  have hr := Dict.mem_values (hn.holds_iff.mp hz).2.1
  have hin := (hn.inTemplate_iff hr).mpr ⟨z, hz⟩
  have hdirect {k : Mark} (hk : k ≠ .removed) : ¬Directly old new k r.id := fun h =>
    folded_direct hn r hr hin k hk ((mem_direct_iff hn).mpr h)
  refine ⟨fun h => hdirect (by decide) ((hm.added _).mp h), fun h => ?_,
    fun h => hdirect (by decide) ((hm.rewired _).mp h)⟩
  rcases hm.renewed r.id h with h | ⟨user, hu, hs⟩
  · exact hm.settled.folded r hr hin .changed (by decide) h
  · exact (adds_change hn hu.known).outside r hr hin .changed (by decide) hs

end New

/-- A node inside a template of the next generation is never named as added, changed or rewired. A node that was
inside a template is named as removed whenever no node of its id is left, be the template still there or not. What
alters a template that is still there marks it as changed, and every node outside of templates that comes to it by
use. -/
theorem template_nodes_folded {oldRecords newRecords : List Json} (hold : parse oldRecords = .ok old)
    (hnew : parse newRecords = .ok new) (hd : between? old new = some diff) :
    (∀ z r, new.Holds z r → r.id ∉ diff.added ∧ r.id ∉ diff.changed ∧ r.id ∉ diff.rewired) ∧
    (∀ z r, old.Holds z r → (r.id ∈ diff.removed ↔ new.nodes.get? r.id = none)) ∧
    ∀ z, Altered old new z → z ∈ diff.changed ∧ ∀ t u, new.Reaches t z → new.UsedBy t u → u ∈ diff.changed := by
  obtain ⟨olds, ho⟩ := parse_proper hold
  obtain ⟨news, hn⟩ := parse_proper hnew
  obtain ⟨m, hm⟩ := marked_of_between? hn hd
  refine ⟨fun z r hz => hm.not_mem hn hz, fun z r hz => ?_, fun z h => ⟨?_, fun t u hreach hu => ?_⟩⟩
  · have hr := Dict.mem_values (ho.holds_iff.mp hz).2.1
    rw [hm.removed]
    exact ⟨fun h => h.gone ho hr, fun h => .node hr (.gone h)⟩
  · exact hm.kept z (hm.settled.kept .changed z (h.directly hn ho).1)
  · exact mem_changed_of_altered ho.toArranged hn.toArranged hn.unshared hd hu hreach h

/-- A template with these nodes of one kind, and a node on a tab that uses it. -/
def templateOf (ids : List String) : List Json := [
  .obj [("id", .str "t"), ("type", .str "tab")],
  .obj [("id", .str "s"), ("type", .str "subflow")],
  .obj [("id", .str "u"), ("type", .str "subflow:s"), ("z", .str "t")]] ++
  ids.map fun id => .obj [("id", .str id), ("type", .str "test"), ("z", .str "s")]

/-- When one node of a template is replaced by another, the one that comes is folded into the template, and the one
that goes is named. -/
theorem deleted_template_node_named : ∃ old new diff, parse (templateOf ["a"]) = .ok old ∧
    parse (templateOf ["b"]) = .ok new ∧ between? old new = some diff ∧ new.templates.contains "s" = true ∧
    (∃ r, old.Holds "s" r ∧ r.id = "a") ∧ "a" ∈ diff.removed ∧ (∃ r, new.Holds "s" r ∧ r.id = "b") ∧
    "b" ∉ diff.added ∧ "s" ∈ diff.changed ∧ "u" ∈ diff.changed := by
  have hold : parse (templateOf ["a"]) = .ok (ofRecords (templateOf ["a"])) := parse_of_isOk (by decide +kernel)
  have hnew : parse (templateOf ["b"]) = .ok (ofRecords (templateOf ["b"])) := parse_of_isOk (by decide +kernel)
  obtain ⟨olds, ho⟩ := parse_proper hold
  obtain ⟨news, hn⟩ := parse_proper hnew
  have hgoes : (ofRecords (templateOf ["a"])).Holds "s" ⟨"a", "test", some "s", none, false, []⟩ :=
    ho.holds_iff.mpr ⟨by decide +kernel, by decide +kernel, rfl⟩
  have hcomes : (ofRecords (templateOf ["b"])).Holds "s" ⟨"b", "test", some "s", none, false, []⟩ :=
    hn.holds_iff.mpr ⟨by decide +kernel, by decide +kernel, rfl⟩
  obtain ⟨diff, hd⟩ : ∃ diff, between? (ofRecords (templateOf ["a"])) (ofRecords (templateOf ["b"])) = some diff :=
    Option.isSome_iff_exists.mp (by decide +kernel)
  obtain ⟨hfolded, hremoved, haltered⟩ := template_nodes_folded hold hnew hd
  obtain ⟨hchanged, hused⟩ := haltered "s" (.fresh hcomes (by decide +kernel))
  refine ⟨_, _, diff, hold, hnew, hd, by decide +kernel, ⟨_, hgoes, rfl⟩,
    (hremoved "s" _ hgoes).mpr (by decide +kernel), ⟨_, hcomes, rfl⟩, (hfolded "s" _ hcomes).1, hchanged,
    hused "s" "u" .refl ⟨⟨"u", "subflow:s", some "t", none, false, []⟩, by decide +kernel, by decide +kernel,
      fun z hz => ?_⟩⟩
  obtain ⟨hz, -, hc⟩ := hn.holds_iff.mp hz
  obtain rfl := Option.some.inj hc
  revert hz
  decide +kernel

end Flowgraph.Diff
