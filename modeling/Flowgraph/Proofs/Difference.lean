import Flowgraph.Config.Diff
import Flowgraph.Proofs.Parsing
/-! What the difference of two generations lets pass: a node that it names neither as changed nor as removed is
still there, in the same place and with the same properties, unless it has moved into a template. -/
namespace Flowgraph

namespace Deployment

variable {d : Deployment} {rs : List Record} {r : Record}

theorem Arranged.get?_id (h : Arranged d rs) {id : NodeId} (hr : d.nodes.get? id = some r) : r.id = id := by
  rw [h.nodes] at hr
  simpa using List.find?_some hr

theorem Arranged.mem_of_mem_values (h : Arranged d rs) (hr : r ∈ d.nodes.values) : r ∈ rs := by
  obtain ⟨id, hid⟩ := Dict.exists_key_of_mem_values h.sorted hr
  rw [h.nodes] at hid
  exact List.mem_of_find?_eq_some hid

end Deployment

namespace TextSet

theorem mem_insert_self (set : TextSet) (t : String) : t ∈ set.insert t := by
  induction set with
  | nil => exact List.mem_singleton_self t
  | cons s rest ih =>
    rw [insert]
    split
    · exact List.mem_cons_self
    · split
      · rename_i h
        rw [h]
        exact List.mem_cons_self
      · exact List.mem_cons_of_mem _ ih

theorem mem_insert_of_mem {set : TextSet} {s : String} (h : s ∈ set) (t : String) : s ∈ set.insert t := by
  induction set with
  | nil => cases h
  | cons u rest ih =>
    rw [insert]
    split
    · exact List.mem_cons_of_mem _ h
    · split
      · exact h
      · rcases List.mem_cons.mp h with rfl | h
        · exact List.mem_cons_self
        · exact List.mem_cons_of_mem _ (ih h)

theorem mem_insert {set : TextSet} {s t : String} (h : s ∈ set.insert t) : s = t ∨ s ∈ set := by
  induction set with
  | nil => exact .inl (List.mem_singleton.mp h)
  | cons u rest ih =>
    rw [insert] at h
    split at h
    · exact List.mem_cons.mp h
    · split at h
      · exact .inr h
      · rcases List.mem_cons.mp h with rfl | h
        · exact .inr List.mem_cons_self
        · exact (ih h).imp_right (List.mem_cons_of_mem _)

theorem sorted_insert {set : TextSet} (h : set.Pairwise (· < ·)) (t : String) :
    (set.insert t).Pairwise (· < ·) := by
  induction set with
  | nil => exact List.pairwise_singleton _ _
  | cons u rest ih =>
    obtain ⟨hu, hr⟩ := List.pairwise_cons.mp h
    rw [insert]
    split
    · rename_i hlt
      refine List.pairwise_cons.mpr ⟨fun s hs => ?_, h⟩
      rcases List.mem_cons.mp hs with rfl | hs
      · exact hlt
      · exact hlt.trans (hu s hs)
    · split
      · exact h
      · rename_i hlt hne
        refine List.pairwise_cons.mpr ⟨fun s hs => ?_, ih hr⟩
        rcases mem_insert hs with rfl | hs
        · exact lt_of_le_of_ne (not_lt.mp hlt) (Ne.symm hne)
        · exact hu s hs

end TextSet

namespace Diff

open Deployment

variable {old new : Deployment} {m m' : Marks} {u : NodeId} {z : String}

/-! ## Marks stay -/

/-- The marked templates are templates of the new generation, each once. -/
structure Marks.Listed (new : Deployment) (m : Marks) : Prop where
  sorted : m.templates.Pairwise (· < ·)
  known : ∀ z ∈ m.templates, new.templates.contains z = true

/-- The templates that are marked stay so, and the marks of `u`. -/
structure Marks.Retains (new : Deployment) (u : NodeId) (m m' : Marks) : Prop where
  changed : u ∈ m.changed → u ∈ m'.changed
  removed : u ∈ m.removed → u ∈ m'.removed
  rewired : u ∈ m.rewired → u ∈ m'.rewired
  templates : ∀ z ∈ m.templates, z ∈ m'.templates
  listed : m.Listed new → m'.Listed new

namespace Marks.Retains

theorem refl (m : Marks) : Marks.Retains new u m m := ⟨id, id, id, fun _ h => h, id⟩

theorem trans {o : Marks} (h : Marks.Retains new u m o) (h' : Marks.Retains new u o m') :
    Marks.Retains new u m m' :=
  ⟨h'.changed ∘ h.changed, h'.removed ∘ h.removed, h'.rewired ∘ h.rewired, fun _ hz => h'.templates _ (h.templates _ hz), h'.listed ∘ h.listed⟩

/-- Marks with the same templates. -/
theorem of_eq (hc : u ∈ m.changed → u ∈ m'.changed) (hr : u ∈ m.removed → u ∈ m'.removed)
    (hw : u ∈ m.rewired → u ∈ m'.rewired) (ht : m'.templates = m.templates) : Marks.Retains new u m m' :=
  ⟨hc, hr, hw, fun _ hz => ht ▸ hz, fun h => ⟨ht ▸ h.sorted, ht ▸ h.known⟩⟩

theorem foldl {α : Type} {f : Marks → α → Marks} {xs : List α}
    (h : ∀ m, ∀ a ∈ xs, Marks.Retains new u m (f m a)) (m : Marks) :
    Marks.Retains new u m (xs.foldl f m) := by
  induction xs generalizing m with
  | nil => exact refl m
  | cons x xs ih =>
    exact (h m x List.mem_cons_self).trans (ih (fun m a ha => h m a (List.mem_cons_of_mem _ ha)) (f m x))

end Marks.Retains

theorem retains_template (m : Marks) (hz : new.templates.contains z = true) :
    Marks.Retains new u m { m with changed := m.changed.insert z, templates := m.templates.insert z } where
  changed h := TextSet.mem_insert_of_mem h _
  removed h := h
  rewired h := h
  templates _ h := TextSet.mem_insert_of_mem h _
  listed h := ⟨TextSet.sorted_insert h.sorted z, fun s hs => by
    rcases TextSet.mem_insert hs with rfl | hs
    · exact hz
    · exact h.known s hs⟩

theorem retains_touch (m : Marks) (new : Deployment) (c : Option String) :
    Marks.Retains new u m (m.touch new c) := by
  unfold Marks.touch
  split
  · exact .refl m
  · split
    · exact .of_eq (TextSet.mem_insert_of_mem · _) id id rfl
    · split
      · rename_i hz
        exact retains_template m hz
      · exact .refl m

/-- The mark of a node is taken back only if it lies in a template. -/
theorem retains_change (m : Marks) {r : Record} (hr : r.id = u → inTemplate new r.container = false) :
    Marks.Retains new u m (m.change new r) := by
  refine (retains_touch m new r.container).trans ?_
  unfold Marks.change
  dsimp only
  split
  · rename_i hin
    refine .of_eq (fun h => List.mem_filter.mpr ⟨h, ?_⟩) id id rfl
    have hne : r.id ≠ u := fun he => by rw [hr he] at hin; cases hin
    simpa using hne.symm
  · exact .of_eq (TextSet.mem_insert_of_mem · _) id id rfl

theorem retains_rewire (m : Marks) {r : Record} (hr : r.id = u → inTemplate new r.container = false) :
    Marks.Retains new u m (m.rewire new r) := by
  refine (retains_touch m new r.container).trans ?_
  unfold Marks.rewire
  dsimp only
  split
  · rename_i hin
    refine .of_eq id id (fun h => List.mem_filter.mpr ⟨h, ?_⟩) rfl
    have hne : r.id ≠ u := fun he => by rw [hr he] at hin; cases hin
    simpa using hne.symm
  · exact .of_eq id id (TextSet.mem_insert_of_mem · _) rfl

theorem retains_add (m : Marks) (r : Record) : Marks.Retains new u m (m.add new r) := by
  refine (retains_touch m new r.container).trans ?_
  unfold Marks.add
  dsimp only
  split <;> exact .of_eq id id id rfl

theorem retains_remove (m : Marks) (r : Record) : Marks.Retains new u m (m.remove new r) :=
  Marks.Retains.trans (o := { m with removed := m.removed.insert r.id })
    (.of_eq id (TextSet.mem_insert_of_mem · _) id rfl)
    (retains_touch _ new r.container)

theorem retains_name (m : Marks) (id : NodeId) :
    Marks.Retains new u m { m with added := m.added.insert id } :=
  .of_eq (fun h => h) (fun h => h) (fun h => h) rfl

theorem retains_compareTab (m : Marks) (tab : FlowConfig) : Marks.Retains new u m (compareTab new m tab) := by
  unfold compareTab
  split
  · exact .of_eq id (TextSet.mem_insert_of_mem · _) id rfl
  · split
    · exact .of_eq (TextSet.mem_insert_of_mem · _) id id rfl
    · exact .refl m

theorem retains_compareTemplate (m : Marks) (a : Template) :
    Marks.Retains new u m (compareTemplate new m a) := by
  unfold compareTemplate
  split
  · exact .of_eq id (TextSet.mem_insert_of_mem · _) id rfl
  · rename_i b hb
    split
    · exact retains_template m (by rw [Dict.contains_eq_isSome, hb]; rfl)
    · exact .refl m

section Outside
/-! Below, no node in a template has the id `u`. -/

variable (hu : ∀ r ∈ new.nodes.values, r.id = u → inTemplate new r.container = false)
include hu

theorem retains_compareNode (m : Marks) (a : Record) : Marks.Retains new u m (compareNode new m a) := by
  unfold compareNode
  split
  · exact retains_remove m a
  · rename_i b hb
    have hchange : Marks.Retains new u m (if nodeDiffers a b then m.change new b else m) := by
      split
      · exact retains_change m (hu b (Dict.mem_values hb))
      · exact .refl m
    dsimp only
    split
    · exact hchange.trans (retains_rewire _ (hu b (Dict.mem_values hb)))
    · exact hchange

theorem retains_changes {found : List Record} (hf : ∀ r ∈ found, r ∈ new.nodes.values) (m : Marks) :
    Marks.Retains new u m (found.foldl (·.change new ·) m) :=
  .foldl (fun m r hr => retains_change m (hu r (hf r hr))) m

theorem retains_settle? (fuel : Nat) (h : settle? new fuel m = some m') : Marks.Retains new u m m' := by
  induction fuel generalizing m with
  | zero => cases h
  | succ fuel ih =>
    rw [settle?] at h
    split at h
    · cases h
      exact .refl _
    · exact (retains_changes hu (fun r hr => List.mem_of_mem_filter hr) m).trans (ih h)

end Outside

/-! ## What becomes of a node -/

theorem nodeDiffers_eq_false {r r' : Record} : nodeDiffers r r' = false ↔
    r.type = r'.type ∧ r.container = r'.container ∧ r.disabled = r'.disabled ∧
      Json.sameFields (material r) (material r') = true := by
  simp [nodeDiffers, and_assoc]

/-- What has become of a node, as far as the marks do not name it. -/
def Passed (new : Deployment) (r : Record) (m : Marks) : Prop :=
  r.id ∈ m.removed ∨ ∃ next, new.nodes.get? r.id = some next ∧
    (r.id ∈ m.changed ∨ nodeDiffers r next = false) ∧ (r.wires = next.wires ∨ r.id ∈ m.rewired)

theorem Passed.retains {r : Record} (h : Passed new r m) (hg : Marks.Retains new r.id m m') : Passed new r m' := by
  rcases h with h | ⟨next, hn, hc, hw⟩
  · exact .inl (hg.removed h)
  · exact .inr ⟨next, hn, hc.imp_left hg.changed, hw.imp_right hg.rewired⟩

theorem mem_remove (m : Marks) (new : Deployment) (r : Record) : r.id ∈ (m.remove new r).removed :=
  (retains_touch { m with removed := m.removed.insert r.id } new r.container).removed
    (TextSet.mem_insert_self _ _)

theorem mem_change (m : Marks) {r : Record} (hr : inTemplate new r.container = false) :
    r.id ∈ (m.change new r).changed := by
  simp only [Marks.change, hr, Bool.false_eq_true, if_false]
  exact TextSet.mem_insert_self _ _

theorem mem_rewire (m : Marks) {r : Record} (hr : inTemplate new r.container = false) :
    r.id ∈ (m.rewire new r).rewired := by
  simp only [Marks.rewire, hr, Bool.false_eq_true, if_false]
  exact TextSet.mem_insert_self _ _

section Outside

variable {r : Record} (hr : ∀ r' ∈ new.nodes.values, r'.id = r.id → inTemplate new r'.container = false)
include hr

theorem passed_compareNode (hid : ∀ next, new.nodes.get? r.id = some next → next.id = r.id) (m : Marks) :
    Passed new r (compareNode new m r) := by
  unfold compareNode
  cases hn : new.nodes.get? r.id with
  | none => exact .inl (mem_remove m new r)
  | some next =>
    have hi := hid next hn
    have hout := hr next (Dict.mem_values hn) hi
    -- first the change is marked, and then the wiring
    have hchange : r.id ∈ (if nodeDiffers r next then m.change new next else m).changed ∨
        nodeDiffers r next = false := by
      cases hd : nodeDiffers r next with
      | true => exact .inl (hi ▸ mem_change m hout)
      | false => exact .inr rfl
    dsimp only
    generalize (if nodeDiffers r next then m.change new next else m) = m₁ at *
    split
    · exact .inr ⟨next, hn, hchange.imp_left (retains_rewire m₁ fun _ => hout).changed,
        .inr (hi ▸ mem_rewire m₁ hout)⟩
    · rename_i hw
      exact .inr ⟨next, hn, hchange, .inl (by simpa using hw)⟩

theorem passed_foldl (hid : ∀ next, new.nodes.get? r.id = some next → next.id = r.id) {rs : List Record}
    (hm : r ∈ rs) (m : Marks) : Passed new r (rs.foldl (compareNode new) m) := by
  induction rs generalizing m with
  | nil => cases hm
  | cons r' rs ih =>
    rw [List.foldl_cons]
    rcases List.mem_cons.mp hm with rfl | hm
    · exact (passed_compareNode hr hid m).retains (.foldl (fun m r' _ => retains_compareNode hr m r') _)
    · exact ih hm (compareNode new m r')

theorem passed_direct (hid : ∀ next, new.nodes.get? r.id = some next → next.id = r.id)
    (hm : r ∈ old.nodes.values) : Passed new r (direct old new) :=
  (passed_foldl hr hid hm _).retains (.foldl (fun m r _ => retains_add m r) _)

theorem retains_markUsers (fuel : Nat) (seen pending : List String) (m : Marks) :
    Marks.Retains new r.id m (markUsers new fuel seen pending m) := by
  induction fuel generalizing seen pending m with
  | zero => exact .refl m
  | succ fuel ih =>
    cases pending with
    | nil => exact .refl m
    | cons template pending =>
      exact (retains_changes hr (fun _ h => List.mem_of_mem_filter h) m).trans (ih _ _ _)

end Outside

end Diff

open Diff in
/-- A node of the generation before that the difference names neither as changed nor as removed is in the next
one, if it is in no template there. It differs in nothing but its place on the canvas, and in its wiring only if
the difference says so. -/
theorem Deployment.Arranged.kept {old new : Deployment} {olds news : List Record} {diff : Diff} (ho : Arranged old olds)
    (hn : Arranged new news) (hd : Diff.between? old new = some diff) {r : Record} (hr : r ∈ olds)
    (hout : ∀ r' ∈ news, r'.id = r.id → inTemplate new r'.container = false) (hc : r.id ∉ diff.changed)
    (hm : r.id ∉ diff.removed) :
    ∃ r' ∈ news, r'.id = r.id ∧ nodeDiffers r r' = false ∧ (r.wires = r'.wires ∨ r.id ∈ diff.rewired) := by
  have hget : old.nodes.get? r.id = some r := (ho.nodes r.id).trans (find?_of_nodup ho.nodup hr)
  have hmem : r ∈ old.nodes.values := Dict.mem_values hget
  have houtside : ∀ r' ∈ new.nodes.values, r'.id = r.id → inTemplate new r'.container = false :=
    fun r' hr' => hout r' (hn.mem_of_mem_values hr')
  obtain ⟨m, hs, rfl⟩ := Option.map_eq_some_iff.mp hd
  have hg := (retains_settle? houtside _ hs).trans
    (retains_markUsers houtside (new.templates.length + 1) m.templates m.templates m)
  rcases (passed_direct houtside (fun _ h => hn.get?_id h) hmem).retains hg with h | ⟨next, hnext, hchanged, hwires⟩
  · exact absurd h hm
  · have hid := hn.get?_id hnext
    rw [hn.nodes] at hnext
    exact ⟨next, List.mem_of_find?_eq_some hnext, hid, hchanged.resolve_left hc, hwires⟩

end Flowgraph
