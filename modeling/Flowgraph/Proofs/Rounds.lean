import Flowgraph.Proofs.Comparison
/-! Marking by reference goes on in rounds until a round finds nothing. What is marked then is all that comes to a
change by reference, and the rounds end just when no node inside a template comes to one. -/
namespace Flowgraph.Diff

open Deployment

variable {old new : Deployment} {olds news : List Record} {m m' : Marks} {k : Mark} {id z : String} {r : Record}
  {rounds : Nat}

/-! ## A round -/

/-- The marks after one more round. -/
def round (new : Deployment) (m : Marks) : Marks := (affected new m).foldl (·.change new ·) m

theorem settle?_succ (new : Deployment) (rounds : Nat) (m : Marks) :
    settle? new (rounds + 1) m = if affected new m = [] then some m else settle? new rounds (round new m) := by
  rw [settle?]
  split
  · rename_i h
    rw [if_pos h]
  · rename_i h
    rw [if_neg h]
    rfl

/-- What every round keeps holds at the end, where nothing is affected any more. -/
theorem settle?_invariant {P : Marks → Prop} (hstep : ∀ m, P m → P (round new m)) (hm : P m)
    (h : settle? new rounds m = some m') : P m' ∧ affected new m' = [] := by
  induction rounds generalizing m with
  | zero => cases h
  | succ rounds ih =>
    rw [settle?_succ] at h
    split at h
    · rename_i hnone
      cases h
      exact ⟨hm, hnone⟩
    · exact ih (hstep m hm) h

/-- More rounds than needed change nothing. -/
theorem settle?_mono {more : Nat} (hle : rounds ≤ more) (h : settle? new rounds m = some m') :
    settle? new more m = some m' := by
  induction rounds generalizing m more with
  | zero => cases h
  | succ rounds ih =>
    cases more with
    | zero => cases hle
    | succ more =>
      rw [settle?_succ] at h ⊢
      split
      · rename_i hnone
        rw [if_pos hnone] at h
        exact h
      · rename_i hsome
        rw [if_neg hsome] at h
        exact ih (Nat.le_of_succ_le_succ hle) h

theorem refersTo_iff : r.refersTo id = true ↔ r.id ≠ id ∧ id ∈ r.references := by
  simp [Record.refersTo]

theorem mem_affected : r ∈ affected new m ↔ r ∈ new.nodes.values ∧ r.id ∉ m.changed ∧
    ∃ id, (id ∈ m.changed ∨ id ∈ m.removed) ∧ r.refersTo id = true := by
  simp only [affected, List.mem_filter, Bool.and_eq_true, Bool.not_eq_true', List.any_eq_true, Bool.or_eq_true,
    List.contains_iff_mem, bne_iff_ne, refersTo_iff, ← Bool.not_eq_true]
  refine and_congr_right fun _ => and_congr_right fun _ => exists_congr fun id => ?_
  rw [ne_comm]
  tauto

theorem affected_subset : ∀ r ∈ affected new m, r ∈ new.nodes.values := fun _ hr => (mem_affected.mp hr).1

theorem mem_round (hn : Proper new news) (hm : m.Folded new) : id ∈ (round new m).under k ↔
    id ∈ m.under k ∨ ∃ r ∈ affected new m, Shows new .changed r k id :=
  (adds_changes hn affected_subset).mem_iff m hm k id

/-! ## What comes to a change -/

/-- What is removed or marked by the comparison of the records, and what comes to such an id by reference: the
template of a node inside one, and any other node with its tab. -/
inductive Implicated (old new : Deployment) : String → Prop
  | removed {id : String} (h : id ∈ (direct old new).removed) : Implicated old new id
  | changed {id : String} (h : id ∈ (direct old new).changed) : Implicated old new id
  | template {z id : String} {r : Record} (hz : new.Holds z r) (h : Implicated old new id)
    (hr : r.refersTo id = true) : Implicated old new z
  | node {id : String} {r : Record} (hm : r ∈ new.nodes.values) (hout : ∀ z, ¬new.Holds z r)
    (h : Implicated old new id) (hr : r.refersTo id = true) : Implicated old new r.id
  | tab {z id : String} {r : Record} (hm : r ∈ new.nodes.values) (hout : ∀ z, ¬new.Holds z r)
    (hc : r.container = some z) (hz : z ∈ new.tabIds) (h : Implicated old new id) (hr : r.refersTo id = true) :
    Implicated old new z

/-- The node refers to something that comes to a change. -/
def Entangled (old new : Deployment) (r : Record) : Prop := ∃ id, Implicated old new id ∧ r.refersTo id = true

theorem Entangled.shows (hn : Proper new news) (h : Entangled old new r) (hr : r ∈ new.nodes.values)
    (hs : Shows new .changed r .changed id) : Implicated old new id := by
  obtain ⟨other, ho, href⟩ := h
  rcases hs with hout | ⟨hc, hz⟩ | ⟨hc, hin⟩
  · exact .node hr ((hn.outside_iff hr).mp hout) ho href
  · refine .tab hr ((hn.outside_iff hr).mp ?_) hc hz ho href
    simp [hc, inTemplate, hz]
  · refine .template (hn.holds_iff.mpr ⟨?_, hn.get?_of_mem hr, hc⟩) ho href
    rw [hc, inTemplate, Bool.and_eq_true] at hin
    exact hin.2

/-- Marks on the way from those that the records make: nothing inside a template is marked, no mark is lost, each
has its reason, and a tab is marked with any node in it. -/
structure Settling (old new : Deployment) (m : Marks) : Prop where
  folded : m.Folded new
  kept : ∀ k id, Directly old new k id → id ∈ m.under k
  traced : ∀ k id, id ∈ m.under k →
    Directly old new k id ∨ ∃ r ∈ new.nodes.values, Entangled old new r ∧ Shows new .changed r k id
  enclosed : ∀ r ∈ new.nodes.values, r.id ∈ m.changed → ∀ z, Touches new r.container .changed z → z ∈ m.changed

section New
variable (hn : Proper new news)
include hn

/-- A mark of the comparison on a node is one on its tab too. -/
theorem Directly.enclosed (h : Directly old new k r.id) (hr : r ∈ new.nodes.values) (hk : k ≠ .removed)
    (ht : Touches new r.container .changed z) : Directly old new .changed z := by
  generalize hid : r.id = id at h
  cases h with
  | tab ha h =>
    rcases h with - | ⟨hb, he, -⟩
    · exact absurd rfl hk
    · exact absurd (he ▸ List.mem_map_of_mem hb) (hid ▸ hn.not_tab hr)
  | newTab hb h => exact absurd (List.mem_map_of_mem hb) (hid ▸ hn.not_tab hr)
  | template ha h =>
    rcases h with - | ⟨hb, -⟩ | ⟨hb, -⟩
    · exact absurd rfl hk
    · exact absurd hid (hn.not_template hr hb)
    · exact absurd hid (hn.not_template hr hb)
  | newTemplate hb h => exact absurd hid (hn.not_template hr (hn.template_of_mem hb))
  | node ha h =>
    rcases h with - | ⟨-, h⟩ | ⟨hb, hd, hs⟩ | ⟨hb, hd, hs⟩
    · exact absurd rfl hk
    · exact absurd (hid ▸ h) (not_touches hn hr)
    · obtain rfl := eq_of_shows hn hr (Dict.mem_values hb) (hid ▸ hs)
      exact .node ha (.edited hb hd (.around ht))
    · obtain rfl := eq_of_shows hn hr (Dict.mem_values hb) (hid ▸ hs)
      exact .node ha (.rewired hb hd (.around ht))
  | newNode hb h hs =>
    obtain rfl := eq_of_shows hn hr hb (hid ▸ hs)
    exact .newNode hb h (.around ht)

theorem Settling.direct : Settling old new (direct old new) where
  folded := folded_direct hn
  kept _ _ h := (mem_direct_iff hn).mpr h
  traced _ _ h := .inl ((mem_direct_iff hn).mp h)
  enclosed _ hr hm _ hz := (mem_direct_iff hn (k := .changed)).mpr <|
    ((mem_direct_iff hn (k := .changed)).mp hm).enclosed hn hr nofun hz

theorem Settling.implicated (h : Settling old new m) (hid : id ∈ m.changed ∨ id ∈ m.removed) :
    Implicated old new id := by
  rcases hid with hid | hid
  · rcases h.traced .changed id hid with hd | ⟨r, hr, he, hs⟩
    · exact .changed ((mem_direct_iff hn (k := .changed)).mpr hd)
    · exact he.shows hn hr hs
  · rcases h.traced .removed id hid with hd | ⟨r, hr, he, hs⟩
    · exact .removed ((mem_direct_iff hn (k := .removed)).mpr hd)
    · rcases hs.kind with hk | hk <;> cases hk

theorem Settling.round (h : Settling old new m) : Settling old new (round new m) where
  folded := (adds_changes hn affected_subset).folded h.folded
  kept k id hd := (mem_round hn h.folded).mpr (.inl (h.kept k id hd))
  traced k id hm := by
    rcases (mem_round hn h.folded).mp hm with hm | ⟨r, hr, hs⟩
    · exact h.traced k id hm
    · obtain ⟨hr, -, other, ho, href⟩ := mem_affected.mp hr
      exact .inr ⟨r, hr, ⟨other, h.implicated hn ho, href⟩, hs⟩
  enclosed r hr hm z hz := by
    refine (mem_round hn h.folded (k := .changed)).mpr ?_
    rcases (mem_round hn h.folded (k := .changed)).mp hm with hm | ⟨r', hr', hs⟩
    · exact .inl (h.enclosed r hr hm z hz)
    · obtain rfl := eq_of_shows hn hr (affected_subset r' hr') hs
      exact .inr ⟨r', hr', .around hz⟩

/-! ## The end of the rounds -/

end New

/-- Marks to which a further round adds nothing. -/
structure Settled (old new : Deployment) (m : Marks) : Prop extends Settling old new m where
  done : affected new m = []

theorem Settled.mem_changed (h : Settled old new m) (hr : r ∈ new.nodes.values) (hid : id ∈ m.changed ∨ id ∈ m.removed)
    (href : r.refersTo id = true) : r.id ∈ m.changed := by
  by_contra hno
  have hm : r ∈ affected new m := mem_affected.mpr ⟨hr, hno, id, hid, href⟩
  rw [h.done] at hm
  cases hm

section New
variable (hn : Proper new news)
include hn

theorem settled_of_settle? (h : settle? new rounds (direct old new) = some m) : Settled old new m := by
  obtain ⟨hs, hdone⟩ := settle?_invariant (P := Settling old new) (fun _ hs => hs.round hn) (.direct hn) h
  exact ⟨hs, hdone⟩

/-- All that comes to a change is marked in the end. -/
theorem Settled.complete (h : Settled old new m) (hid : Implicated old new id) : id ∈ m.changed ∨ id ∈ m.removed := by
  induction hid with
  | removed hd => exact .inr (h.kept .removed _ ((mem_direct_iff hn (k := .removed)).mp hd))
  | changed hd => exact .inl (h.kept .changed _ ((mem_direct_iff hn (k := .changed)).mp hd))
  | @template z id r hz _ href ih =>
    have hr := Dict.mem_values (hn.holds_iff.mp hz).2.1
    have hin := (hn.inTemplate_iff hr).mpr ⟨z, hz⟩
    exact absurd (h.mem_changed hr ih href) (h.folded r hr hin .changed nofun)
  | node hr _ _ href ih => exact .inl (h.mem_changed hr ih href)
  | tab hr _ hc hz _ href ih => exact .inl (h.enclosed _ hr (h.mem_changed hr ih href) _ (.tab hc hz))

/-- The rounds end only if no node inside a template comes to a change. -/
theorem Settled.outside (h : Settled old new m) (hr : r ∈ new.nodes.values) (he : Entangled old new r) :
    inTemplate new r.container = false := by
  obtain ⟨id, hid, href⟩ := he
  have hm := h.mem_changed hr (h.complete hn hid) href
  cases hin : inTemplate new r.container with
  | false => rfl
  | true => exact absurd hm (h.folded r hr hin .changed nofun)

/-- The nodes that are not marked as changed. -/
def unmarked (new : Deployment) (m : Marks) : List Record :=
  new.nodes.values.filter fun r => !m.changed.contains r.id

/-- A round that finds something outside of templates leaves fewer nodes without the mark. -/
theorem length_unmarked (hm : m.Folded new) (hout : ∀ r ∈ affected new m, inTemplate new r.container = false)
    (hne : affected new m ≠ []) : (unmarked new (round new m)).length < (unmarked new m).length := by
  have hround (id : String) : id ∈ (round new m).changed ↔
      id ∈ m.changed ∨ ∃ r ∈ affected new m, Shows new .changed r .changed id := mem_round hn hm (k := .changed)
  have hsub : unmarked new (round new m) =
      (unmarked new m).filter fun r => !(round new m).changed.contains r.id := by
    rw [unmarked, unmarked, List.filter_filter]
    refine List.filter_congr fun r _ => ?_
    by_cases hr : r.id ∈ m.changed
    · simp [hr, (hround r.id).mpr (.inl hr)]
    · simp [hr]
  rw [hsub, List.length_filter_lt_length_iff_exists]
  obtain ⟨r, hr⟩ := List.exists_mem_of_ne_nil _ hne
  obtain ⟨hrv, hrm, -⟩ := mem_affected.mp hr
  refine ⟨r, List.mem_filter.mpr ⟨hrv, by simpa using hrm⟩, ?_⟩
  simpa using (hround r.id).mpr (.inr ⟨r, hr, .self (hout r hr)⟩)

/-- Without a node inside a template that comes to a change, a round for each unmarked node and one more suffice. -/
theorem Settling.settles (h : Settling old new m)
    (hout : ∀ r ∈ new.nodes.values, Entangled old new r → inTemplate new r.container = false)
    (hlen : (unmarked new m).length < rounds) : ∃ m', settle? new rounds m = some m' := by
  induction rounds generalizing m with
  | zero => cases hlen
  | succ rounds ih =>
    rw [settle?_succ]
    split
    · exact ⟨m, rfl⟩
    · rename_i hne
      have hfound : ∀ r ∈ affected new m, inTemplate new r.container = false := fun r hr => by
        obtain ⟨hr, -, id, hid, href⟩ := mem_affected.mp hr
        exact hout r hr ⟨id, h.implicated hn hid, href⟩
      exact ih (h.round hn) (Nat.lt_of_lt_of_le (length_unmarked hn h.folded hfound hne) (Nat.le_of_lt_succ hlen))

end New

/-- No node inside a template refers to anything that comes to a change. -/
def TemplatesSpared (old new : Deployment) : Prop :=
  ∀ z r, new.Holds z r → ∀ id, Implicated old new id → r.refersTo id = false

theorem spared_iff (hn : Proper new news) : TemplatesSpared old new ↔
    ∀ r ∈ new.nodes.values, Entangled old new r → inTemplate new r.container = false := by
  constructor
  · rintro h r hr ⟨id, hid, href⟩
    refine (hn.outside_iff hr).mpr fun z hz => ?_
    rw [h z r hz id hid] at href
    cases href
  · intro h z r hz id hid
    have hr := Dict.mem_values (hn.holds_iff.mp hz).2.1
    by_contra href
    exact (hn.outside_iff hr).mp (h r hr ⟨id, hid, by simpa using href⟩) z hz

theorem settles_of_spared (hn : Proper new news) (h : TemplatesSpared old new) :
    ∃ m, settle? new (new.nodes.length + 1) (direct old new) = some m := by
  refine (Settling.direct hn).settles hn ((spared_iff hn).mp h) (Nat.lt_succ_of_le ?_)
  exact (List.length_filter_le _ _).trans_eq (List.length_map _)

theorem spared_of_settle? (hn : Proper new news) (h : settle? new rounds (direct old new) = some m) :
    TemplatesSpared old new :=
  (spared_iff hn).mpr fun _ hr he => (settled_of_settle? hn h).outside hn hr he

theorem between?_iff_spared (hn : Proper new news) :
    (∃ diff, between? old new = some diff) ↔ TemplatesSpared old new := by
  constructor
  · rintro ⟨diff, h⟩
    obtain ⟨m, hm, -⟩ := Option.map_eq_some_iff.mp h
    exact spared_of_settle? hn hm
  · intro h
    obtain ⟨m, hm⟩ := settles_of_spared hn h
    exact ⟨finish old new m, Option.map_eq_some_iff.mpr ⟨m, hm, rfl⟩⟩

/-- Marking by reference ends just when no node inside a template refers to anything that comes to a change, and then
after at most one round more than there are nodes, the last of which finds nothing. -/
theorem settles_iff_templates_spared {records : List Json} (hnew : parse records = .ok new) :
    ((∃ rounds m, settle? new rounds (direct old new) = some m) ↔ TemplatesSpared old new) ∧
    ((∃ diff, between? old new = some diff) ↔ TemplatesSpared old new) ∧
    (∀ rounds m, settle? new rounds (direct old new) = some m →
      settle? new (new.nodes.length + 1) (direct old new) = some m) := by
  obtain ⟨news, hn⟩ := parse_proper hnew
  refine ⟨⟨?_, fun h => ⟨_, settles_of_spared hn h⟩⟩, between?_iff_spared hn, fun rounds m h => ?_⟩
  · rintro ⟨rounds, m, h⟩
    exact spared_of_settle? hn h
  · obtain ⟨m', hm'⟩ := settles_of_spared hn (spared_of_settle? hn h)
    have hmax := settle?_mono (le_max_left rounds (new.nodes.length + 1)) h
    rw [settle?_mono (le_max_right rounds (new.nodes.length + 1)) hm'] at hmax
    cases hmax
    exact hm'

/-- A setting of some value, and a node inside a template that refers to it. -/
def namedSetting (value : Nat) : List Json := [
  .obj [("id", .str "s"), ("type", .str "subflow")],
  .obj [("id", .str "c"), ("type", .str "test"), ("v", .nat value)],
  .obj [("id", .str "n"), ("server", .str "c"), ("type", .str "test"), ("z", .str "s")]]

/-- When the value of the setting changes, the rounds go on for ever. -/
theorem rounds_of_namedSetting : ∃ old new, parse (namedSetting 1) = .ok old ∧ parse (namedSetting 2) = .ok new ∧
    ¬TemplatesSpared old new ∧ between? old new = none ∧ ∀ rounds, settle? new rounds (direct old new) = none := by
  have hold : parse (namedSetting 1) = .ok (ofRecords (namedSetting 1)) := parse_of_isOk (by decide +kernel)
  have hnew : parse (namedSetting 2) = .ok (ofRecords (namedSetting 2)) := parse_of_isOk (by decide +kernel)
  obtain ⟨news, hn⟩ := parse_proper hnew
  have hchanged : Implicated (ofRecords (namedSetting 1)) (ofRecords (namedSetting 2)) "c" :=
    .changed (by decide +kernel)
  have hinside : (ofRecords (namedSetting 2)).Holds "s" ⟨"n", "test", some "s", none, false, [("server", .str "c")]⟩ :=
    hn.holds_iff.mpr ⟨by decide +kernel, by decide +kernel, rfl⟩
  have hstuck : ¬TemplatesSpared (ofRecords (namedSetting 1)) (ofRecords (namedSetting 2)) := fun h =>
    Bool.false_ne_true ((h _ _ hinside _ hchanged).symm.trans (by decide +kernel))
  obtain ⟨hsettles, hbetween, -⟩ := settles_iff_templates_spared hnew
  refine ⟨_, _, hold, hnew, hstuck, ?_, fun rounds => ?_⟩
  · exact Option.eq_none_iff_forall_ne_some.mpr fun diff hd => hstuck (hbetween.mp ⟨diff, hd⟩)
  · exact Option.eq_none_iff_forall_ne_some.mpr fun m hm => hstuck (hsettles.mp ⟨rounds, m, hm⟩)

end Flowgraph.Diff
