import Mathlib.Data.List.Perm.Subperm
import Flowgraph.Proofs.Difference
/-! Changes inside templates. What alters a template of the new generation marks it, and with it every node
outside of templates that comes to it, by using it or a template in which it is used. -/
namespace Flowgraph

namespace Deployment

/-- The template `z` has this node. -/
def Holds (d : Deployment) (z : String) (r : Record) : Prop :=
  ∃ t, d.templates.get? z = some t ∧ r ∈ t.nodes

/-- From one template to those that its nodes use, and on from there. -/
inductive Reaches (d : Deployment) (t : String) : String → Prop
  | refl : Reaches d t t
  | step {s z : String} {r : Record} : Reaches d t s → d.Holds s r → r.templateId? = some z → Reaches d t z

/-- The node is in no template and uses this one. -/
def UsedBy (d : Deployment) (t : String) (u : NodeId) : Prop :=
  ∃ r, d.nodes.get? u = some r ∧ r.templateId? = some t ∧ ∀ z, ¬d.Holds z r

variable {d : Deployment} {rs : List Record} {z : String} {r : Record}

theorem Arranged.holds_iff (h : Arranged d rs) :
    d.Holds z r ↔ d.templates.contains z = true ∧ d.nodes.get? r.id = some r ∧ r.container = some z := by
  rw [Dict.contains_eq_isSome, Option.isSome_iff_exists]
  constructor
  · rintro ⟨t, ht, hr⟩
    rw [(h.templates z t ht).2, nodesIn, List.mem_filter] at hr
    exact ⟨⟨t, ht⟩, (h.nodes r.id).trans (find?_of_nodup h.nodup hr.1), by simpa using hr.2⟩
  · rintro ⟨⟨t, ht⟩, hr, hc⟩
    refine ⟨t, ht, ?_⟩
    rw [(h.templates z t ht).2, nodesIn, List.mem_filter]
    rw [h.nodes] at hr
    exact ⟨List.mem_of_find?_eq_some hr, by simpa using hc⟩

end Deployment

namespace Diff

open Deployment

variable {old new : Deployment} {m m' : Marks} {u : NodeId} {t z : String}

/-! ## What marks a template -/

/-- What a comparison of the records finds in the template `z`: its own record differs, or it has a node that is
new, edited or rewired, or it has lost one that is nowhere any more. -/
inductive Altered (old new : Deployment) (z : String) : Prop
  | record {a b : Template} (ha : old.templates.get? z = some a) (hb : new.templates.get? z = some b)
      (h : templateDiffers a b = true)
  | fresh {r : Record} (h : new.Holds z r) (hn : old.nodes.get? r.id = none)
  | edited {a b : Record} (ha : old.nodes.get? b.id = some a) (hb : new.Holds z b)
      (h : nodeDiffers a b = true ∨ a.wires ≠ b.wires)
  | deleted {r : Record} (hz : new.templates.contains z = true) (h : old.nodes.get? r.id = some r)
      (hc : r.container = some z) (hn : new.nodes.get? r.id = none)

@[simp] theorem templates_change (m : Marks) (r : Record) :
    (m.change new r).templates = (m.touch new r.container).templates := by
  unfold Marks.change
  dsimp only
  split <;> rfl

@[simp] theorem templates_rewire (m : Marks) (r : Record) :
    (m.rewire new r).templates = (m.touch new r.container).templates := by
  unfold Marks.rewire
  dsimp only
  split <;> rfl

@[simp] theorem templates_add (m : Marks) (r : Record) :
    (m.add new r).templates = (m.touch new r.container).templates := by
  unfold Marks.add
  dsimp only
  split <;> rfl

section Apart
/-! A template never has the id of a tab. -/

variable (happ : ∀ z ∈ new.tabIds, new.templates.get? z = none)
include happ

theorem not_mem_tabIds (hz : new.templates.contains z = true) : new.tabIds.contains z = false := by
  rw [Dict.contains_eq_isSome] at hz
  cases hc : new.tabIds.contains z with
  | false => rfl
  | true =>
    rw [happ z (by simpa using hc)] at hz
    cases hz

theorem mem_touch (hz : new.templates.contains z = true) {c : Option String} (hc : c = some z) (m : Marks) :
    z ∈ (m.touch new c).templates := by
  rw [hc]
  simp only [Marks.touch, not_mem_tabIds happ hz, hz, Bool.false_eq_true, if_false, if_true]
  exact TextSet.mem_insert_self _ _

theorem mem_compareNode_edited (hz : new.templates.contains z = true) {a b : Record}
    (hb : new.nodes.get? a.id = some b) (hc : b.container = some z)
    (h : nodeDiffers a b = true ∨ a.wires ≠ b.wires) (m : Marks) : z ∈ (compareNode new m a).templates := by
  unfold compareNode
  rw [hb]
  dsimp only
  split
  · simpa using mem_touch happ hz hc _
  · rename_i hw
    rw [h.resolve_right fun hne => hw (by simpa using hne), if_pos rfl]
    simpa using mem_touch happ hz hc m

theorem mem_compareNode_deleted (hz : new.templates.contains z = true) {a : Record}
    (hn : new.nodes.get? a.id = none) (hc : a.container = some z) (m : Marks) :
    z ∈ (compareNode new m a).templates := by
  unfold compareNode
  rw [hn]
  dsimp only
  exact mem_touch happ hz hc _

end Apart

theorem mem_foldl {α : Type} {f : Marks → α → Marks} {xs : List α}
    (h : ∀ m, ∀ a ∈ xs, Marks.Retains new u m (f m a)) {a : α} (ha : a ∈ xs)
    (hz : ∀ m, z ∈ (f m a).templates) (m : Marks) : z ∈ (xs.foldl f m).templates := by
  induction xs generalizing m with
  | nil => cases ha
  | cons x xs ih =>
    have hxs : ∀ m, ∀ a ∈ xs, Marks.Retains new u m (f m a) := fun m a ha => h m a (List.mem_cons_of_mem _ ha)
    rcases List.mem_cons.mp ha with rfl | ha
    · exact (Marks.Retains.foldl hxs (f m a)).templates z (hz m)
    · exact ih hxs ha (f m x)

section Outside
variable (hu : ∀ r ∈ new.nodes.values, r.id = u → inTemplate new r.container = false)
include hu

theorem listed_direct : (direct old new).Listed new := by
  have h : Marks.Retains new u .none (direct old new) := by
    unfold direct
    refine Marks.Retains.trans ?_ (.foldl (fun m r _ => retains_add m r) _)
    refine Marks.Retains.trans ?_ (.foldl (fun m a _ => retains_compareNode hu m a) _)
    refine Marks.Retains.trans ?_ (.foldl (fun m t _ => retains_name m t.id) _)
    refine Marks.Retains.trans ?_ (.foldl (fun m a _ => retains_compareTemplate m a) _)
    refine Marks.Retains.trans ?_ (.foldl (fun m t _ => retains_name m t.id) _)
    exact .foldl (fun m a _ => retains_compareTab m a) _
  exact h.listed ⟨List.Pairwise.nil, fun z hz => by cases hz⟩

variable {olds news : List Record} (ho : Arranged old olds) (hn : Arranged new news)
  (happ : ∀ z ∈ new.tabIds, new.templates.get? z = none)
include ho hn happ

theorem mem_direct (h : Altered old new z) : z ∈ (direct old new).templates := by
  have hnodes := fun m a (_ : a ∈ old.nodes.values) => retains_compareNode hu m a
  have hadded (m : Marks) : Marks.Retains new u m
      ((new.nodes.values.filter fun r => !old.nodes.contains r.id).foldl (·.add new ·) m) :=
    .foldl (fun m r _ => retains_add m r) m
  unfold direct
  dsimp only
  cases h with
  | record ha hb h =>
    refine (hadded _).templates z ((Marks.Retains.foldl hnodes _).templates z ?_)
    have hnamed (m : Marks) : Marks.Retains new u m
        ((new.templates.values.filter fun t => !old.templates.contains t.id).foldl
          (fun m t => { m with added := m.added.insert t.id }) m) :=
      .foldl (fun m t _ => retains_name m t.id) m
    refine (hnamed _).templates z ?_
    refine mem_foldl (u := u) (fun m a _ => retains_compareTemplate m a) (Dict.mem_values ha) (fun m => ?_) _
    obtain rfl := (ho.templates z _ ha).1
    simp only [compareTemplate, hb, h, if_true]
    exact TextSet.mem_insert_self _ _
  | @fresh r hr hold =>
    obtain ⟨hz, hr, hc⟩ := hn.holds_iff.mp hr
    refine mem_foldl (u := u) (a := r) (fun m r _ => retains_add m r)
      (List.mem_filter.mpr ⟨Dict.mem_values hr, ?_⟩) (fun m => ?_) _
    · simp [Dict.contains_eq_isSome, hold]
    · simpa using mem_touch happ hz hc m
  | edited ha hb h =>
    obtain ⟨hz, hb, hc⟩ := hn.holds_iff.mp hb
    rw [← ho.get?_id ha] at hb
    exact (hadded _).templates z (mem_foldl hnodes (Dict.mem_values ha) (mem_compareNode_edited happ hz hb hc h) _)
  | deleted hz hr hc hnone =>
    exact (hadded _).templates z (mem_foldl hnodes (Dict.mem_values hr) (mem_compareNode_deleted happ hz hnone hc) _)

end Outside

/-! ## From a template to its users -/

theorem mem_users {r : Record} : r ∈ users new t ↔ r ∈ new.nodes.values ∧ r.templateId? = some t := by
  simp [users]

/-- The templates in which this one is used. -/
def enclosing (new : Deployment) (t : String) : List String :=
  (((users new t).filter fun r => inTemplate new r.container).filterMap (·.container)).eraseDups

theorem mem_enclosing : z ∈ enclosing new t ↔
    ∃ r ∈ users new t, inTemplate new r.container = true ∧ r.container = some z := by
  simp [enclosing, List.mem_eraseDups, and_assoc]

/-- Those of them that are still to be seen. -/
def newly (new : Deployment) (seen : List String) (t : String) : List String :=
  (enclosing new t).filter fun z => !seen.contains z

/-- The users of a template are marked: `u` itself if it is one, and the templates in which they lie. -/
def Told (new : Deployment) (u : NodeId) (seen : List String) (m : Marks) (t : String) : Prop :=
  ∀ r ∈ users new t, (r.id = u → u ∈ m.changed) ∧
    ∀ z, r.container = some z → inTemplate new r.container = true → z ∈ seen

/-- All templates seen so far are told or still pending. -/
structure Spreading (new : Deployment) (u : NodeId) (seen pending : List String) (m : Marks) : Prop where
  known : ∀ t ∈ pending, t ∈ seen
  told : ∀ t ∈ seen, t ∈ pending ∨ Told new u seen m t

/-- What of a list has not been visited. -/
def unvisited (all visited : List String) : List String := all.filter fun x => !visited.contains x

theorem mem_unvisited {all visited : List String} {x : String} : x ∈ unvisited all visited ↔ x ∈ all ∧ x ∉ visited := by
  simp [unvisited]

/-- Whatever is newly visited no longer counts as unvisited. -/
theorem length_unvisited {all visited fresh : List String} (hd : fresh.Nodup)
    (hf : ∀ x ∈ fresh, x ∈ unvisited all visited) :
    fresh.length + (unvisited all (fresh ++ visited)).length ≤ (unvisited all visited).length := by
  have hsub : fresh.length ≤ ((unvisited all visited).filter (fresh.contains ·)).length :=
    (hd.subperm fun x hx => List.mem_filter.mpr ⟨hf x hx, by simpa using hx⟩).length_le
  have hrest : unvisited all (fresh ++ visited) = (unvisited all visited).filter fun x => !fresh.contains x := by
    simp [unvisited, List.filter_filter, Bool.and_comm]
  have hsplit := List.length_eq_length_filter_add (l := unvisited all visited) (fresh.contains ·)
  rw [hrest]
  omega

/-- The templates of the new generation that have not been seen. -/
def unseen (new : Deployment) (seen : List String) : List String :=
  new.templates.keys.filter fun z => !seen.contains z

/-- Whatever is newly seen is no longer unseen. -/
theorem length_unseen {seen fresh : List String} (hd : fresh.Nodup) (hf : ∀ z ∈ fresh, z ∈ unseen new seen) :
    fresh.length + (unseen new (fresh ++ seen)).length ≤ (unseen new seen).length := length_unvisited hd hf

theorem mem_unseen {seen : List String} : z ∈ unseen new seen ↔ new.templates.contains z = true ∧ z ∉ seen := by
  simp [unseen, Dict.contains, Dict.keys]

section Outside
variable (hu : ∀ r ∈ new.nodes.values, r.id = u → inTemplate new r.container = false)
include hu

theorem mem_changes {found : List Record} (hf : ∀ r ∈ found, r ∈ new.nodes.values) {r : Record} (hr : r ∈ found)
    (he : r.id = u) (m : Marks) : u ∈ (found.foldl (·.change new ·) m).changed := by
  induction found generalizing m with
  | nil => cases hr
  | cons r' rest ih =>
    have hrest : ∀ r ∈ rest, r ∈ new.nodes.values := fun r hr => hf r (List.mem_cons_of_mem _ hr)
    rcases List.mem_cons.mp hr with rfl | hr
    · refine (retains_changes hu hrest _).changed ?_
      exact he ▸ mem_change m (hu r (hf r List.mem_cons_self) he)
    · exact ih hrest hr _

/-- A step tells one template and takes up those in which it is used. -/
theorem Spreading.step {seen pending : List String} (h : Spreading new u seen (t :: pending) m) :
    Spreading new u (newly new seen t ++ seen) (newly new seen t ++ pending)
      ((users new t).foldl (·.change new ·) m) := by
  have hfound : ∀ r ∈ users new t, r ∈ new.nodes.values := fun r hr => (mem_users.mp hr).1
  have hcovered : ∀ z ∈ enclosing new t, z ∈ newly new seen t ++ seen := fun z hz => by
    by_cases hs : z ∈ seen
    · exact List.mem_append_right _ hs
    · exact List.mem_append_left _ (List.mem_filter.mpr ⟨hz, by simpa using hs⟩)
  refine ⟨fun s hs => ?_, fun s hs => ?_⟩
  · exact (List.mem_append.mp hs).elim (List.mem_append_left _) fun hs =>
      List.mem_append_right _ (h.known s (List.mem_cons_of_mem _ hs))
  · rcases List.mem_append.mp hs with hs | hs
    · exact .inl (List.mem_append_left _ hs)
    · rcases h.told s hs with hs | htold
      · rcases List.mem_cons.mp hs with rfl | hs
        · exact .inr fun r hr => ⟨fun he => mem_changes hu hfound hr he m, fun z hc hin =>
            hcovered z (mem_enclosing.mpr ⟨r, hr, hin, hc⟩)⟩
        · exact .inl (List.mem_append_right _ hs)
      · exact .inr fun r hr => ⟨fun he => (retains_changes hu hfound m).changed ((htold r hr).1 he),
          fun z hc hin => List.mem_append_right _ ((htold r hr).2 z hc hin)⟩

/-- With a step for each template that is pending or unseen, everything gets told. -/
theorem spreading_markUsers {fuel : Nat} {seen pending : List String} (h : Spreading new u seen pending m)
    (hf : pending.length + (unseen new seen).length ≤ fuel) :
    ∃ seen', (∀ t ∈ seen, t ∈ seen') ∧ Spreading new u seen' [] (markUsers new fuel seen pending m) := by
  induction fuel generalizing seen pending m with
  | zero =>
    obtain rfl : pending = [] := List.eq_nil_of_length_eq_zero (by omega)
    exact ⟨seen, fun _ ht => ht, h⟩
  | succ fuel ih =>
    cases pending with
    | nil => exact ⟨seen, fun _ ht => ht, h⟩
    | cons t pending =>
      have hfresh : ∀ z ∈ newly new seen t, z ∈ unseen new seen := fun z hz => by
        obtain ⟨hz, hs⟩ := List.mem_filter.mp hz
        obtain ⟨r, -, hin, hc⟩ := mem_enclosing.mp hz
        rw [hc, inTemplate, Bool.and_eq_true] at hin
        exact mem_unseen.mpr ⟨hin.2, by simpa using hs⟩
      have hlen : (newly new seen t).length + (unseen new (newly new seen t ++ seen)).length ≤
          (unseen new seen).length := length_unseen ((nodup_eraseDups _).filter _) hfresh
      obtain ⟨seen', hs, hdone⟩ := ih (h.step hu)
        (by simp only [List.length_append, List.length_cons] at *; omega)
      exact ⟨seen', fun s hs' => hs s (List.mem_append_right _ hs'), hdone⟩

/-- When marking by reference has ended, there is a step for every template, and everything gets told. -/
theorem spreading_settled {rounds : Nat} (h : settle? new rounds (direct old new) = some m) :
    ∃ seen, (∀ t ∈ m.templates, t ∈ seen) ∧
      Spreading new u seen [] (markUsers new (new.templates.length + 1) m.templates m.templates m) := by
  have hlisted := (retains_settle? hu rounds h).listed (listed_direct hu)
  have hfuel : m.templates.length + (unseen new m.templates).length ≤ new.templates.length + 1 := by
    have hlen := length_unseen (hlisted.sorted.imp ne_of_lt)
      (fun z hz => mem_unseen.mpr ⟨hlisted.known z hz, List.not_mem_nil⟩)
    rw [List.append_nil] at hlen
    have hall : (unseen new []).length ≤ new.templates.length :=
      (List.length_filter_le _ _).trans_eq (List.length_map _)
    omega
  have hstart : Spreading new u m.templates m.templates m := ⟨fun _ h => h, fun _ h => .inl h⟩
  exact spreading_markUsers hu hstart hfuel

end Outside

/-! ## The nodes that use an altered template -/

/-- The ways in which the content of a template can differ between two generations. -/
inductive Differs (old new : Deployment) (z : String) : Prop
  | oneSided (h : old.templates.contains z ≠ new.templates.contains z)
  | record {a b : Template} (ha : old.templates.get? z = some a) (hb : new.templates.get? z = some b)
      (h : a.name ≠ b.name ∨ a.inputs ≠ b.inputs ∨ a.outputs ≠ b.outputs ∨ a.status ≠ b.status ∨
        a.complete ≠ b.complete ∨ sameEnv a.env b.env = false)
  | lost {a : Record} (ha : old.Holds z a) (h : ∀ b, new.Holds z b → b.id ≠ a.id)
  | gained {b : Record} (hb : new.Holds z b) (h : ∀ a, old.Holds z a → a.id ≠ b.id)
  | node {a b : Record} (ha : old.Holds z a) (hb : new.Holds z b) (hid : a.id = b.id)
      (h : a.type ≠ b.type ∨ a.disabled ≠ b.disabled ∨ Json.sameFields (material a) (material b) = false ∨
        a.wires ≠ b.wires)

/-- The ways that marking overlooks: the template is in one generation only, or a node has left it for another
place. -/
inductive Escaped (old new : Deployment) (z : String) : Prop
  | oneSided (h : old.templates.contains z ≠ new.templates.contains z)
  | moved {a b : Record} (ha : old.Holds z a) (hb : new.nodes.get? a.id = some b) (h : b.container ≠ some z)

variable {olds news : List Record}

/-- A template that differs is altered, unless the difference is one that is overlooked. -/
theorem Differs.altered (ho : Arranged old olds) (hn : Arranged new news) (h : Differs old new z) :
    Altered old new z ∨ Escaped old new z := by
  by_cases hsides : old.templates.contains z = new.templates.contains z
  swap
  · exact .inr (.oneSided hsides)
  cases h with
  | oneSided h => exact .inr (.oneSided h)
  | record ha hb h =>
    refine .inl (.record ha hb ?_)
    simpa [templateDiffers, or_assoc] using h
  | lost ha h =>
    obtain ⟨hz, ha', hc⟩ := ho.holds_iff.mp ha
    rw [hsides] at hz
    rename_i a
    cases hb : new.nodes.get? a.id with
    | none => exact .inl (.deleted hz ha' hc hb)
    | some b =>
      have hid := hn.get?_id hb
      exact .inr (.moved ha hb fun hc' => h b (hn.holds_iff.mpr ⟨hz, hid ▸ hb, hc'⟩) hid)
  | gained hb h =>
    obtain ⟨hz, hb', hc⟩ := hn.holds_iff.mp hb
    rename_i b
    cases ha : old.nodes.get? b.id with
    | none => exact .inl (.fresh hb ha)
    | some a =>
      have hid := ho.get?_id ha
      refine .inl (.edited ha hb (.inl ?_))
      have hmoved : a.container ≠ b.container := fun hc' =>
        h a (ho.holds_iff.mpr ⟨hsides.trans hz, hid ▸ ha, hc'.trans hc⟩) hid
      simp [nodeDiffers, hmoved]
  | node ha hb hid h =>
    refine .inl (.edited (hid ▸ (ho.holds_iff.mp ha).2.1) hb ?_)
    have hc := (ho.holds_iff.mp ha).2.2.trans (hn.holds_iff.mp hb).2.2.symm
    simpa [nodeDiffers, hc, or_assoc] using h

/-- What a template came to in the old generation it still comes to, or something on the way has changed. -/
theorem reaches_of_old (ho : Arranged old olds) (hn : Arranged new news) (h : old.Reaches t z) :
    new.Reaches t z ∨ ∃ s, new.Reaches t s ∧ (Altered old new s ∨ Escaped old new s) := by
  induction h with
  | refl => exact .inl .refl
  | @step s z a _ ha ht ih =>
    rcases ih with hs | hs
    swap
    · exact .inr hs
    by_cases hb : ∃ b, new.Holds s b ∧ b.id = a.id
    · obtain ⟨b, hb, hid⟩ := hb
      by_cases htype : b.type = a.type
      · refine .inl (hs.step hb ?_)
        rw [← ht, Record.templateId?, Record.templateId?, htype]
      · exact .inr ⟨s, hs, (Differs.node ha hb hid.symm (.inl (Ne.symm htype))).altered ho hn⟩
    · exact .inr ⟨s, hs, (Differs.lost ha fun b hb' he => hb ⟨b, hb', he⟩).altered ho hn⟩

theorem outside_of_usedBy (hn : Arranged new news) (hu : new.UsedBy t u) :
    ∀ r ∈ new.nodes.values, r.id = u → inTemplate new r.container = false := by
  obtain ⟨r, hr, -, hout⟩ := hu
  intro r' hr' he
  obtain ⟨id, hid⟩ := Dict.exists_key_of_mem_values hn.sorted hr'
  obtain rfl : id = u := (hn.get?_id hid).symm.trans he
  obtain rfl : r = r' := Option.some.inj (hr.symm.trans hid)
  cases hc : r.container with
  | none => rfl
  | some z =>
    by_contra hin
    rw [Bool.not_eq_false, inTemplate, Bool.and_eq_true] at hin
    exact hout z (hn.holds_iff.mpr ⟨hin.2, hn.get?_id hr ▸ hr, hc⟩)

/-- A node outside of templates is marked if anything it comes to is altered. -/
theorem mem_changed_of_altered {diff : Diff} (ho : Arranged old olds) (hn : Arranged new news)
    (happ : ∀ z ∈ new.tabIds, new.templates.get? z = none) (hd : between? old new = some diff)
    (hu : new.UsedBy t u) (hreach : new.Reaches t z) (h : Altered old new z) : u ∈ diff.changed := by
  have hout := outside_of_usedBy hn hu
  obtain ⟨m, hs, rfl⟩ := Option.map_eq_some_iff.mp hd
  have hz := (retains_settle? hout _ hs).templates z (mem_direct hout ho hn happ h)
  obtain ⟨seen, hseen, hdone⟩ := spreading_settled hout hs
  have htold := fun s hs => (hdone.told s hs).resolve_left List.not_mem_nil
  -- the way from the altered template back to the one that the node uses
  have hback (z : String) (hr : new.Reaches t z) (hz : z ∈ seen) : t ∈ seen := by
    induction hr with
    | refl => exact hz
    | @step s z r _ hr ht ih =>
      obtain ⟨hs, hr, hc⟩ := hn.holds_iff.mp hr
      refine ih ((htold z hz r (mem_users.mpr ⟨Dict.mem_values hr, ht⟩)).2 s hc ?_)
      rw [hc, inTemplate, Bool.and_eq_true, not_mem_tabIds happ hs]
      exact ⟨rfl, hs⟩
  obtain ⟨r, hr, ht, -⟩ := hu
  exact (htold t (hback z hreach (hseen z hz)) r (mem_users.mpr ⟨Dict.mem_values hr, ht⟩)).1 (hn.get?_id hr)

/-- A usage node outside of templates is marked as changed whenever a template it comes to is altered. What it
comes to cannot differ without the mark, unless one of those templates is in one generation only or has lost a
node to another place. -/
theorem usage_nodes_marked {olds news : List Json} {diff : Diff} (ho : parse olds = .ok old)
    (hn : parse news = .ok new) (hd : between? old new = some diff) (hu : new.UsedBy t u) :
    (∀ z, new.Reaches t z → Altered old new z → u ∈ diff.changed) ∧
    ∀ z, (old.Reaches t z ∨ new.Reaches t z) → Differs old new z →
      u ∈ diff.changed ∨ ∃ s, new.Reaches t s ∧ Escaped old new s := by
  obtain ⟨_, hao⟩ := parse_arranged ho
  obtain ⟨_, han⟩ := parse_arranged hn
  have happ := (parse_templates hn).2
  have hmarked (z : String) (hr : new.Reaches t z) (h : Altered old new z) : u ∈ diff.changed :=
    mem_changed_of_altered hao han happ hd hu hr h
  have hcase (s : String) (hr : new.Reaches t s) (h : Altered old new s ∨ Escaped old new s) :
      u ∈ diff.changed ∨ ∃ s, new.Reaches t s ∧ Escaped old new s :=
    h.imp (hmarked s hr) fun he => ⟨s, hr, he⟩
  refine ⟨hmarked, fun z hr hdiff => ?_⟩
  have hreach : new.Reaches t z ∨ ∃ s, new.Reaches t s ∧ (Altered old new s ∨ Escaped old new s) :=
    hr.elim (reaches_of_old hao han) .inl
  rcases hreach with hr | ⟨s, hr, h⟩
  · exact hcase z hr (hdiff.altered hao han)
  · exact hcase s hr h

/-- A template, a node of type `type` in the container `z`, and a node on a tab that uses the template. -/
def usedTemplate (type z : String) : List Json := [
  .obj [("id", .str "t"), ("type", .str "tab")],
  .obj [("id", .str "s"), ("type", .str "subflow")],
  .obj [("id", .str "a"), ("type", .str type), ("z", .str z)],
  .obj [("id", .str "u"), ("type", .str "subflow:s"), ("z", .str "t")]]

def usedDeployment (type z : String) : Deployment := (parse (usedTemplate type z)).toOption.getD .empty

theorem parse_usedTemplate (type z : String) (h : (parse (usedTemplate type z)).isOk = true) :
    parse (usedTemplate type z) = .ok (usedDeployment type z) := by
  unfold usedDeployment
  cases hp : parse (usedTemplate type z) with
  | error fault =>
    rw [hp] at h
    cases h
  | ok d => rfl

/-- The record of the node between the template and the tab. -/
def wanderer (type z : String) : Record := ⟨"a", type, some z, none, false, []⟩

theorem holds_usedDeployment {type : String}
    (h : ((usedDeployment type "s").templates.get? "s").map (·.nodes) = some [wanderer type "s"]) :
    (usedDeployment type "s").Holds "s" (wanderer type "s") := by
  obtain ⟨t, ht, hn⟩ := Option.map_eq_some_iff.mp h
  exact ⟨t, ht, by rw [hn]; exact List.mem_singleton_self _⟩

theorem usedBy_usedDeployment {type z : String}
    (h : (usedDeployment type z).nodes.get? "u" = some ⟨"u", "subflow:s", some "t", none, false, []⟩)
    (hp : (parse (usedTemplate type z)).isOk = true) (ht : (usedDeployment type z).templates.contains "t" = false) :
    (usedDeployment type z).UsedBy "s" "u" := by
  obtain ⟨_, ha⟩ := parse_arranged (parse_usedTemplate _ _ hp)
  refine ⟨_, h, by decide +kernel, fun z' hz => ?_⟩
  obtain ⟨hz, -, hc⟩ := ha.holds_iff.mp hz
  cases hc
  rw [ht] at hz
  cases hz

/-- A node that changes in the template shows at the node that uses it. One that leaves for the tab does not,
though the template has become empty. -/
theorem leaving_is_overlooked : ∃ old edited left d d',
    parse (usedTemplate "test" "s") = .ok old ∧ parse (usedTemplate "other" "s") = .ok edited ∧
    parse (usedTemplate "test" "t") = .ok left ∧ between? old edited = some d ∧ between? old left = some d' ∧
    "u" ∈ d.changed ∧ Differs old left "s" ∧ "u" ∉ d'.changed ∧ ∃ s, left.Reaches "s" s ∧ Escaped old left s := by
  have hold := parse_usedTemplate "test" "s" (by decide +kernel)
  have hedited := parse_usedTemplate "other" "s" (by decide +kernel)
  have hleft := parse_usedTemplate "test" "t" (by decide +kernel)
  obtain ⟨d, hd⟩ : ∃ d, between? (usedDeployment "test" "s") (usedDeployment "other" "s") = some d :=
    Option.isSome_iff_exists.mp (by decide +kernel)
  obtain ⟨d', hd', hmiss⟩ : ∃ d', between? (usedDeployment "test" "s") (usedDeployment "test" "t") = some d' ∧
      "u" ∉ d'.changed := by
    have h : ∀ d' ∈ between? (usedDeployment "test" "s") (usedDeployment "test" "t"), "u" ∉ d'.changed := by
      decide +kernel
    obtain ⟨d', hd'⟩ := Option.isSome_iff_exists.mp
      (show (between? (usedDeployment "test" "s") (usedDeployment "test" "t")).isSome = true by decide +kernel)
    exact ⟨d', hd', h d' hd'⟩
  have hdiffers : Differs (usedDeployment "test" "s") (usedDeployment "test" "t") "s" := by
    refine .lost (holds_usedDeployment (by decide +kernel)) fun b hb => ?_
    obtain ⟨t, ht, hb⟩ := hb
    have hempty : ((usedDeployment "test" "t").templates.get? "s").map (·.nodes) = some [] := by decide +kernel
    rw [ht] at hempty
    have hnodes : t.nodes = [] := Option.some.inj hempty
    rw [hnodes] at hb
    cases hb
  have haltered : Altered (usedDeployment "test" "s") (usedDeployment "other" "s") "s" :=
    .edited (a := wanderer "test" "s") (by decide +kernel) (holds_usedDeployment (by decide +kernel))
      (.inl (by decide +kernel))
  obtain ⟨hmarked, -⟩ := usage_nodes_marked hold hedited hd
    (usedBy_usedDeployment (by decide +kernel) (by decide +kernel) (by decide +kernel))
  obtain ⟨-, hmissed⟩ := usage_nodes_marked hold hleft hd'
    (usedBy_usedDeployment (by decide +kernel) (by decide +kernel) (by decide +kernel))
  exact ⟨_, _, _, d, d', hold, hedited, hleft, hd, hd', hmarked "s" .refl haltered, hdiffers, hmiss,
    (hmissed "s" (.inl .refl) hdiffers).resolve_left hmiss⟩

end Diff
end Flowgraph
