import Flowgraph.Proofs.Rounds
/-! The last marks of a difference: those of the nodes that use a changed template. They come after marking by
reference, so a node that refers to one of them alone stays without a mark. -/
namespace Flowgraph.Diff

open Deployment

variable {old new : Deployment} {olds news : List Record} {m : Marks} {k : Mark} {id t : String} {r : Record}
  {rounds : Nat}

/-- A template that the comparison marks, or in which such a template is used, at any depth. -/
inductive Outdated (old new : Deployment) : String → Prop
  | marked {z : String} (h : Directly old new .template z) : Outdated old new z
  | around {t z : String} {r : Record} (h : Outdated old new t) (hz : new.Holds z r) (ht : r.templateId? = some t) :
    Outdated old new z

/-- A node that uses an outdated template. -/
structure Dependent (old new : Deployment) (r : Record) : Prop where
  known : r ∈ new.nodes.values
  uses : ∃ t, r.templateId? = some t ∧ Outdated old new t

/-- What is marked because of the templates that nodes use: such a node, or the template or tab that holds it. -/
def Renewed (old new : Deployment) (id : String) : Prop :=
  ∃ r, Dependent old new r ∧ Shows new .changed r .changed id

section New
variable (hn : Proper new news)
include hn

theorem Outdated.newly {seen : List String} (h : Outdated old new t) : ∀ z ∈ newly new seen t, Outdated old new z := by
  intro z hz
  obtain ⟨r, hr, hin, hc⟩ := mem_enclosing.mp (List.mem_of_mem_filter hz)
  obtain ⟨hr, ht⟩ := mem_users.mp hr
  obtain ⟨z', hz'⟩ := (hn.inTemplate_iff hr).mp hin
  obtain rfl : z' = z := Option.some.inj ((hn.holds_iff.mp hz').2.2.symm.trans hc)
  exact .around h hz' ht

/-- Marking by use marks nodes that use outdated templates, and no others. -/
theorem markUsers_eq (fuel : Nat) (seen : List String) {pending : List String}
    (hp : ∀ t ∈ pending, Outdated old new t) (m : Marks) :
    ∃ rs : List Record, (∀ r ∈ rs, Dependent old new r) ∧
      markUsers new fuel seen pending m = rs.foldl (·.change new ·) m := by
  induction fuel generalizing seen pending m with
  | zero => exact ⟨[], by simp, rfl⟩
  | succ fuel ih =>
    cases pending with
    | nil => exact ⟨[], by simp, rfl⟩
    | cons t pending =>
      have ht := hp t List.mem_cons_self
      have hnext : ∀ z ∈ newly new seen t ++ pending, Outdated old new z := fun z hz =>
        (List.mem_append.mp hz).elim (ht.newly hn z) fun hz => hp z (List.mem_cons_of_mem _ hz)
      obtain ⟨rs, hrs, he⟩ := ih (newly new seen t ++ seen) hnext ((users new t).foldl (·.change new ·) m)
      refine ⟨users new t ++ rs, fun r hr => ?_, ?_⟩
      · rcases List.mem_append.mp hr with hr | hr
        · obtain ⟨hr, hu⟩ := mem_users.mp hr
          exact ⟨hr, t, hu, ht⟩
        · exact hrs r hr
      · rw [List.foldl_append, ← he]
        rfl

/-! ## The marks in the end -/

theorem Settled.outdated (h : Settled old new m) : ∀ z ∈ m.templates, Outdated old new z := by
  intro z hz
  rcases h.traced .template z hz with hd | ⟨r, hr, he, hs⟩
  · exact .marked hd
  · have hout := h.outside hn hr he
    rcases hs with - | (- | - | ⟨-, hin⟩)
    rw [hout] at hin
    cases hin

/-- Every node outside of templates that uses an outdated one is told. -/
theorem mem_changed_of_dependent (h : settle? new rounds (direct old new) = some m) (hr : Dependent old new r)
    (hout : inTemplate new r.container = false) :
    r.id ∈ (markUsers new (new.templates.length + 1) m.templates m.templates m).changed := by
  have hu : ∀ r' ∈ new.nodes.values, r'.id = r.id → inTemplate new r'.container = false := fun r' hr' he => by
    rwa [hn.eq_of_id hr' hr.known he]
  obtain ⟨seen, hseen, hdone⟩ := spreading_settled hu h
  have htold := fun t ht => (hdone.told t ht).resolve_left List.not_mem_nil
  have hs := settled_of_settle? hn h
  -- an outdated template is seen: the marked ones first, and then those around one that is told
  have hall (t : String) (ht : Outdated old new t) : t ∈ seen := by
    induction ht with
    | marked hd => exact hseen _ (hs.kept .template _ hd)
    | @around t z b _ hz hu ih =>
      have hb := Dict.mem_values (hn.holds_iff.mp hz).2.1
      exact (htold t ih b (mem_users.mpr ⟨hb, hu⟩)).2 z (hn.holds_iff.mp hz).2.2 ((hn.inTemplate_iff hb).mpr ⟨z, hz⟩)
  obtain ⟨t, hu, ht⟩ := hr.uses
  exact (htold t (hall t ht) r (mem_users.mpr ⟨hr.known, hu⟩)).1 rfl

end New

/-- What a difference marks. All but its changed ids come from the records alone; these also come from marking by
reference, whose marks are `m`, and then from the use of templates. -/
structure Marked (old new : Deployment) (diff : Diff) (m : Marks) : Prop where
  settled : Settled old new m
  added : ∀ id, id ∈ diff.added ↔ Directly old new .added id
  removed : ∀ id, id ∈ diff.removed ↔ Directly old new .removed id
  rewired : ∀ id, id ∈ diff.rewired ↔ Directly old new .rewired id
  kept : ∀ id ∈ m.changed, id ∈ diff.changed
  renewed : ∀ id ∈ diff.changed, id ∈ m.changed ∨ Renewed old new id
  told : ∀ r, Dependent old new r → inTemplate new r.container = false → r.id ∈ diff.changed

theorem Settling.mem_iff (h : Settling old new m) (hc : k ≠ .changed) (ht : k ≠ .template) :
    id ∈ m.under k ↔ Directly old new k id := by
  refine ⟨fun hm => (h.traced k id hm).resolve_right ?_, h.kept k id⟩
  rintro ⟨r, -, -, hs⟩
  exact hs.kind.elim hc ht

theorem marked_of_between? {diff : Diff} (hn : Proper new news) (hd : between? old new = some diff) :
    ∃ m, Marked old new diff m := by
  obtain ⟨m, hm, rfl⟩ := Option.map_eq_some_iff.mp hd
  have hs := settled_of_settle? hn hm
  obtain ⟨rs, hrs, he⟩ := markUsers_eq hn (new.templates.length + 1) m.templates (hs.outdated hn) m
  have hmem := (adds_changes hn fun r hr => (hrs r hr).known).mem_iff m hs.folded
  rw [← he] at hmem
  have hrest (k : Mark) (hc : k ≠ .changed) (ht : k ≠ .template) (id : String) :
      id ∈ (markUsers new (new.templates.length + 1) m.templates m.templates m).under k ↔ Directly old new k id := by
    rw [hmem, ← hs.mem_iff hc ht, or_iff_left]
    rintro ⟨r, -, hs⟩
    exact hs.kind.elim hc ht
  refine ⟨m, hs, hrest .added nofun nofun, hrest .removed nofun nofun, hrest .rewired nofun nofun, fun id hid => ?_,
    fun id hid => ?_, fun r hr hout => mem_changed_of_dependent hn hm hr hout⟩
  · exact (hmem .changed id).mpr (.inl hid)
  · exact ((hmem .changed id).mp hid).imp_right fun ⟨r, hr, hs⟩ => ⟨r, hrs r hr, hs⟩

/-! ## Closed but for the users of templates -/

section New
variable (hn : Proper new news) {diff : Diff}
include hn

theorem Marked.mem_changed_iff (h : Marked old new diff m) (hr : r ∈ new.nodes.values)
    (hout : inTemplate new r.container = false) : r.id ∈ diff.changed ↔ Directly old new .changed r.id ∨
      Entangled old new r ∨ ∃ t, r.templateId? = some t ∧ Outdated old new t := by
  constructor
  · intro hm
    rcases h.renewed r.id hm with hm | ⟨b, hb, hs⟩
    · rcases h.settled.traced .changed r.id hm with hd | ⟨b, hb, he, hs⟩
      · exact .inl hd
      · exact .inr (.inl (eq_of_shows hn hr hb hs ▸ he))
    · exact .inr (.inr (eq_of_shows hn hr hb.known hs ▸ hb.uses))
  · rintro (hd | ⟨id, hid, href⟩ | hu)
    · exact h.kept _ (h.settled.kept .changed _ hd)
    · exact h.kept _ (h.settled.mem_changed hr (h.settled.complete hn hid) href)
    · exact h.told r ⟨hr, hu⟩ hout

/-- What a difference marks comes to a change, or it is marked for the use of templates. -/
theorem Marked.implicated_or_renewed (h : Marked old new diff m) (hid : id ∈ diff.changed ∨ id ∈ diff.removed) :
    Implicated old new id ∨ Renewed old new id := by
  rcases hid with hid | hid
  · exact (h.renewed id hid).imp_left fun hm => h.settled.implicated hn (.inl hm)
  · exact .inl (.removed ((mem_direct_iff hn (k := .removed)).mpr ((h.removed id).mp hid)))

end New

/-- A node outside of templates is marked as changed if the comparison marks it, if it refers to something that comes
to a change, or if it uses an outdated template, and only then. So it is marked when it refers to a marked id, unless
that has its mark only for the use of templates. -/
theorem changed_closed_up_to_use {records : List Json} {diff : Diff} (hnew : parse records = .ok new)
    (hd : between? old new = some diff) (hr : r ∈ new.nodes.values) (hout : ∀ z, ¬new.Holds z r) :
    (r.id ∈ diff.changed ↔ Directly old new .changed r.id ∨ Entangled old new r ∨
      ∃ t, r.templateId? = some t ∧ Outdated old new t) ∧
    ∀ id, r.refersTo id = true → id ∈ diff.changed ∨ id ∈ diff.removed →
      r.id ∈ diff.changed ∨ Renewed old new id ∧ ¬Implicated old new id := by
  obtain ⟨news, hn⟩ := parse_proper hnew
  obtain ⟨m, h⟩ := marked_of_between? hn hd
  have hiff := h.mem_changed_iff hn hr ((hn.outside_iff hr).mpr hout)
  refine ⟨hiff, fun id href hid => ?_⟩
  by_cases himplicated : Implicated old new id
  · exact .inl (hiff.mpr (.inr (.inl ⟨id, himplicated, href⟩)))
  · exact .inr ⟨(h.implicated_or_renewed hn hid).resolve_left himplicated, himplicated⟩

/-- A template with a node of some value, a node on a tab that uses it, and another that refers to the user. -/
def namedUser (value : Nat) : List Json := [
  .obj [("id", .str "t"), ("type", .str "tab")],
  .obj [("id", .str "s"), ("type", .str "subflow")],
  .obj [("id", .str "n"), ("type", .str "test"), ("v", .nat value), ("z", .str "s")],
  .obj [("id", .str "u"), ("type", .str "subflow:s"), ("z", .str "t")],
  .obj [("id", .str "a"), ("server", .str "u"), ("type", .str "test"), ("z", .str "t")]]

/-- The node that refers to the user. -/
def namingUser : Record := ⟨"a", "test", some "t", none, false, [("server", .str "u")]⟩

/-- When the value in the template changes, the user of the template is marked, and the node that refers to it is
not. -/
theorem renewed_user_overlooked : ∃ old new diff, parse (namedUser 1) = .ok old ∧ parse (namedUser 2) = .ok new ∧
    between? old new = some diff ∧ namingUser ∈ new.nodes.values ∧ (∀ z, ¬new.Holds z namingUser) ∧
    namingUser.refersTo "u" = true ∧ "u" ∈ diff.changed ∧ "a" ∉ diff.changed ∧ Renewed old new "u" ∧
    ¬Implicated old new "u" := by
  have hold : parse (namedUser 1) = .ok (ofRecords (namedUser 1)) := parse_of_isOk (by decide +kernel)
  have hnew : parse (namedUser 2) = .ok (ofRecords (namedUser 2)) := parse_of_isOk (by decide +kernel)
  obtain ⟨news, hn⟩ := parse_proper hnew
  have hmem : namingUser ∈ (ofRecords (namedUser 2)).nodes.values := by decide +kernel
  have hout : ∀ z, ¬(ofRecords (namedUser 2)).Holds z namingUser := (hn.outside_iff hmem).mp (by decide +kernel)
  obtain ⟨diff, hd⟩ := Option.isSome_iff_exists.mp
    (show (between? (ofRecords (namedUser 1)) (ofRecords (namedUser 2))).isSome = true by decide +kernel)
  have hchanged : (between? (ofRecords (namedUser 1)) (ofRecords (namedUser 2))).map (·.changed) =
      some ["s", "t", "u"] := by decide +kernel
  rw [hd] at hchanged
  have hlist : diff.changed = ["s", "t", "u"] := Option.some.inj hchanged
  have hmarked : "u" ∈ diff.changed := by simp [hlist]
  have hmissed : "a" ∉ diff.changed := by simp [hlist]
  obtain ⟨-, hclosed⟩ := changed_closed_up_to_use hnew hd hmem hout
  exact ⟨_, _, diff, hold, hnew, hd, hmem, hout, by decide +kernel, hmarked, hmissed,
    (hclosed "u" (by decide +kernel) (.inl hmarked)).resolve_left hmissed⟩

end Flowgraph.Diff
