import Flowgraph.Proofs.Ordering
import Flowgraph.Proofs.Tables
import Mathlib.Data.List.Nodup
import Mathlib.Data.List.Perm.Subperm
/-! A flow has a creation order exactly if its nodes can be ranked: those that a node needs have smaller ranks.
Templates that are checked are ranked in the same way, each behind the templates it uses. -/
namespace Flowgraph

section Folding

variable {α β ε : Type} {f : β → α → Except ε β} {P : List α → β → Prop}

theorem of_bind_ok {x : Except ε α} {g : α → Except ε β} {b : β} (h : x >>= g = .ok b) :
    ∃ a, x = .ok a ∧ g a = .ok b := by
  cases x with
  | error fault => cases h
  | ok a => exact ⟨a, rfl, h⟩

/-- What a fold that succeeds keeps of the elements it has gone through. -/
theorem foldlM_ok_invariant (step : ∀ done a b b', P done b → f b a = .ok b' → P (done ++ [a]) b') {xs : List α}
    {b b' : β} (hb : P [] b) (h : xs.foldlM f b = .ok b') : P xs b' := by
  have general (done xs : List α) (b : β) (hb : P done b) (h : xs.foldlM f b = .ok b') : P (done ++ xs) b' := by
    induction xs generalizing done b with
    | nil =>
      cases h
      rwa [List.append_nil]
    | cons x xs ih =>
      rw [List.foldlM_cons] at h
      obtain ⟨c, hx, h⟩ := of_bind_ok h
      have hc := ih (done ++ [x]) c (step done x b c hb hx) h
      rwa [List.append_assoc] at hc
  exact general [] xs b hb h

/-- A fold succeeds if none of its steps fails. -/
theorem foldlM_succeeds {P : β → Prop} {xs : List α} (step : ∀ b, ∀ a ∈ xs, P b → ∃ b', f b a = .ok b' ∧ P b') {b : β}
    (hb : P b) : ∃ b', xs.foldlM f b = .ok b' ∧ P b' := by
  induction xs generalizing b with
  | nil => exact ⟨b, rfl, hb⟩
  | cons x xs ih =>
    obtain ⟨c, hc, hP⟩ := step b x List.mem_cons_self hb
    obtain ⟨b', hb', hP'⟩ := ih (fun b a ha => step b a (List.mem_cons_of_mem _ ha)) hP
    refine ⟨b', ?_, hP'⟩
    rw [List.foldlM_cons, hc]
    exact hb'

/-- A list that has grown and is still good, while what waits on a path has not been entered. -/
structure Pausing (Good : List α → Prop) (path entered entered' : List α) : Prop where
  good : Good entered'
  waits : ∀ a ∈ path, a ∉ entered'
  keeps : ∀ a ∈ entered, a ∈ entered'

/-- Visits one after the other: what each has to enter is in the list at the end. -/
theorem Pausing.foldlM {Good : List α → Prop} {Q : β → List α → Prop} {path entered entered' : List α}
    {f : List α → β → Except ε (List α)} {bs : List β} (stays : ∀ b o o', (∀ a ∈ o, a ∈ o') → Q b o → Q b o')
    (hf : ∀ o b o', Pausing Good path entered o → f o b = .ok o' → Pausing Good path o o' ∧ Q b o')
    (hgood : Good entered) (hwaits : ∀ a ∈ path, a ∉ entered) (h : bs.foldlM f entered = .ok entered') :
    Pausing Good path entered entered' ∧ ∀ b ∈ bs, Q b entered' := by
  refine foldlM_ok_invariant (P := fun done o => Pausing Good path entered o ∧ ∀ b ∈ done, Q b o)
    (fun done b o o' ho hb => ?_) ⟨⟨hgood, hwaits, fun _ h => h⟩, by simp⟩ h
  obtain ⟨hs, hmet⟩ := hf o b o' ho.1 hb
  refine ⟨⟨hs.good, hs.waits, fun a ha => hs.keeps a (ho.1.keeps a ha)⟩, fun c hc => ?_⟩
  rcases List.mem_append.mp hc with hc | hc
  · exact stays c o o' hs.keeps (ho.2 c hc)
  · rwa [List.mem_singleton.mp hc]

end Folding

namespace StartOrder

variable {nodes : List Record} {order order' path : List Nat} {pos : Nat}

/-! ## From an order to ranks -/

/-- Each position stands in the order once, behind all that it needs. -/
inductive Ordered (nodes : List Record) : List Nat → Prop
  | nil : Ordered nodes []
  | snoc {order : List Nat} {pos : Nat} (h : Ordered nodes order) (needed : ∀ p ∈ needs nodes pos, p ∈ order)
      (fresh : pos ∉ order) : Ordered nodes (order ++ [pos])

theorem pausing_visit (fuel : Nat) (hgood : Ordered nodes order) (hwaits : ∀ p ∈ path, p ∉ order)
    (h : visit nodes fuel path order pos = .ok order') :
    Pausing (Ordered nodes) path order order' ∧ pos ∈ order' := by
  induction fuel generalizing path order order' pos with
  | zero =>
    rw [visit] at h
    split at h
    · rename_i hc
      cases h
      exact ⟨⟨hgood, hwaits, fun _ h => h⟩, List.contains_iff_mem.mp hc⟩
    · split at h <;> cases h
  | succ fuel ih =>
    rw [visit] at h
    split at h
    · rename_i hc
      cases h
      exact ⟨⟨hgood, hwaits, fun _ h => h⟩, List.contains_iff_mem.mp hc⟩
    · rename_i hc
      split at h
      · cases h
      · rename_i hp
        obtain ⟨mid, hn, h⟩ := of_bind_ok h
        cases h
        have hwait (p : Nat) (hm : p ∈ pos :: path) : p ∉ order := by
          rcases List.mem_cons.mp hm with rfl | hm
          · exact fun hm => hc (List.contains_iff_mem.mpr hm)
          · exact hwaits p hm
        -- the node itself waits while those it needs are visited
        obtain ⟨hm, hall⟩ := Pausing.foldlM (Q := fun p o => p ∈ o) (fun p o o' hk hin => hk p hin)
          (fun o p o' hs hv => ih hs.good hs.waits hv) hgood hwait hn
        refine ⟨⟨.snoc hm.good hall (hm.waits pos List.mem_cons_self), fun p hp' hin => ?_, fun p hp' => ?_⟩,
          List.mem_append_right _ List.mem_cons_self⟩
        · rcases List.mem_append.mp hin with hin | hin
          · exact hm.waits p (List.mem_cons_of_mem _ hp') hin
          · obtain rfl := List.mem_singleton.mp hin
            exact hp (List.contains_iff_mem.mpr hp')
        · exact List.mem_append_left _ (hm.keeps p hp')

/-- The order of a flow has every node behind those it needs. -/
theorem ordered_resolve (h : resolve nodes = .ok order) : Ordered nodes order :=
  (Pausing.foldlM (Q := fun _ _ => True) (fun _ _ _ _ _ => trivial)
    (fun _ _ _ hs hv => ⟨(pausing_visit _ hs.good hs.waits hv).1, trivial⟩) .nil (by simp) h).1.good

theorem Ordered.nodup (h : Ordered nodes order) : order.Nodup := by
  induction h with
  | nil => exact List.nodup_nil
  | snoc _ _ fresh ih =>
    rw [List.nodup_append]
    refine ⟨ih, List.nodup_singleton _, fun p hp q hq => ?_⟩
    obtain rfl := List.mem_singleton.mp hq
    rintro rfl
    exact fresh hp

theorem Ordered.idxOf_lt (h : Ordered nodes order) (hpos : pos ∈ order) {p : Nat} (hp : p ∈ needs nodes pos) :
    order.idxOf p < order.idxOf pos := by
  induction h with
  | nil => cases hpos
  | @snoc order last h needed fresh ih =>
    by_cases hin : pos ∈ order
    · have hp' : p ∈ order := by
        by_contra hout
        have := ih hin
        rw [List.idxOf_eq_length hout] at this
        exact absurd List.idxOf_le_length (Nat.not_le_of_lt this)
      rw [List.idxOf_append_of_mem hp', List.idxOf_append_of_mem hin]
      exact ih hin
    · rcases List.mem_append.mp hpos with hpos | hpos
      · exact absurd hpos hin
      · obtain rfl := List.mem_singleton.mp hpos
        rw [List.idxOf_append_of_mem (needed p hp), List.idxOf_append_of_notMem fresh, List.idxOf_cons_self]
        exact Nat.lt_of_lt_of_le (List.idxOf_lt_length_of_mem (needed p hp)) (Nat.le_add_right _ _)

/-- Ranks of nodes: what a node needs has a smaller one. -/
def Ranks (nodes : List Record) (rank : Nat → Nat) : Prop :=
  ∀ pos, ∀ p ∈ needs nodes pos, rank p < rank pos

/-- The places in a creation order are ranks. A disabled node, which has no place, counts as the last. -/
theorem ranks_of_resolve (h : resolve nodes = .ok order) : Ranks nodes fun pos => order.idxOf pos := by
  intro pos p hp
  by_cases hpos : pos ∈ order
  · exact (ordered_resolve h).idxOf_lt hpos hp
  · dsimp only
    rw [List.idxOf_eq_length hpos]
    exact List.idxOf_lt_length_of_mem ((mem_resolve h).mpr (enabled_of_mem_needs hp))

/-! ## From ranks to an order -/

theorem enabled_lt (h : Enabled nodes pos) : pos < nodes.length := by
  obtain ⟨r, hr, -⟩ := h
  exact (List.getElem?_eq_some_iff.mp hr).1

/-- Fewer positions than nodes wait at any time. -/
theorem length_path_lt {rank : Nat → Nat} (hdown : (pos :: path).Pairwise fun p q => rank p < rank q)
    (hin : ∀ p ∈ pos :: path, p < nodes.length) : path.length < nodes.length := by
  have hnodup : (pos :: path).Nodup := hdown.imp fun h => by
    rintro rfl
    exact Nat.lt_irrefl _ h
  have hsub : pos :: path ⊆ List.range nodes.length := fun p hp => List.mem_range.mpr (hin p hp)
  have hle := (List.subperm_of_subset hnodup hsub).length_le
  rw [List.length_range, List.length_cons] at hle
  exact hle

/-- Ranked nodes are visited without coming back to one that waits. -/
theorem visit_succeeds {rank : Nat → Nat} (hr : Ranks nodes rank) (fuel : Nat) (hpos : Enabled nodes pos)
    (hdown : (pos :: path).Pairwise fun p q => rank p < rank q) (hin : ∀ p ∈ path, p < nodes.length)
    (hfuel : nodes.length < fuel + path.length + 1) : ∃ order', visit nodes fuel path order pos = .ok order' := by
  induction fuel generalizing path order pos with
  | zero =>
    have := length_path_lt hdown fun p hp => by
      rcases List.mem_cons.mp hp with rfl | hp
      · exact enabled_lt hpos
      · exact hin p hp
    omega
  | succ fuel ih =>
    rw [visit]
    split
    · exact ⟨order, rfl⟩
    · have hnot : ¬path.contains pos = true := by
        rw [List.contains_iff_mem]
        intro hm
        exact Nat.lt_irrefl _ ((List.pairwise_cons.mp hdown).1 pos hm)
      rw [if_neg hnot]
      have hall : ∀ q ∈ pos :: path, rank pos ≤ rank q := by
        intro q hq
        rcases List.mem_cons.mp hq with rfl | hq
        · exact Nat.le_refl _
        · exact Nat.le_of_lt ((List.pairwise_cons.mp hdown).1 q hq)
      have hstep (o : List Nat) (p : Nat) (hp : p ∈ needs nodes pos) (_ : True) :
          ∃ o', visit nodes fuel (pos :: path) o p = .ok o' ∧ True := by
        obtain ⟨o', ho'⟩ := @ih o (pos :: path) p (enabled_of_mem_needs hp)
          (List.pairwise_cons.mpr ⟨fun q hq => Nat.lt_of_lt_of_le (hr pos p hp) (hall q hq), hdown⟩)
          (List.forall_mem_cons.mpr ⟨enabled_lt hpos, hin⟩) (by rw [List.length_cons]; omega)
        exact ⟨o', ho', trivial⟩
      obtain ⟨mid, hmid, -⟩ : ∃ mid, (needs nodes pos).foldlM (visit nodes fuel (pos :: path)) order = .ok mid ∧ True :=
        foldlM_succeeds hstep trivial
      rw [hmid]
      exact ⟨_, rfl⟩

theorem resolve_of_ranks {rank : Nat → Nat} (hr : Ranks nodes rank) : ∃ order, resolve nodes = .ok order := by
  have hstep (o : List Nat) (p : Nat) (hp : p ∈ roots nodes) (_ : True) :
      ∃ o', visit nodes (nodes.length + 1) [] o p = .ok o' ∧ True := by
    obtain ⟨o', ho'⟩ : ∃ o', visit nodes (nodes.length + 1) [] o p = .ok o' :=
      visit_succeeds hr _ (mem_roots.mp hp) (List.pairwise_singleton _ _) (by simp) (by rw [List.length_nil]; omega)
    exact ⟨o', ho', trivial⟩
  obtain ⟨order, ho, -⟩ : ∃ order, (roots nodes).foldlM (visit nodes (nodes.length + 1) []) [] = .ok order ∧ True :=
    foldlM_succeeds hstep trivial
  exact ⟨order, ho⟩

/-- The nodes of a flow can be ordered exactly if they can be ranked. -/
theorem resolve_iff_ranks : (∃ order, resolve nodes = .ok order) ↔ ∃ rank, Ranks nodes rank :=
  ⟨fun ⟨_, h⟩ => ⟨_, ranks_of_resolve h⟩, fun ⟨_, h⟩ => resolve_of_ranks h⟩


/-! ## Templates -/

variable {templates : Templates}

/-- The templates that enabled nodes use are among the given ones, those that do not exist aside. -/
def UsesOnly (templates : Templates) (nodes : List Record) (ids : List String) : Prop :=
  ∀ r ∈ nodes, r.disabled = false → ∀ id t, r.templateId? = some id → templates.get? id = some t → id ∈ ids

/-- Templates whose nodes can be ordered, each listed once and before those it uses. -/
inductive Layered (templates : Templates) : List String → Prop
  | nil : Layered templates []
  | cons {id : String} {ids : List String} {t : Template} (h : Layered templates ids)
      (known : templates.get? id = some t) (ordered : ∃ order, resolve t.nodes = .ok order)
      (uses : UsesOnly templates t.nodes ids) (fresh : id ∉ ids) : Layered templates (id :: ids)

theorem length_le_of_known {ids : List String} (hnodup : ids.Nodup) (hknown : ∀ id ∈ ids, id ∈ templates.keys) :
    ids.length ≤ templates.length := by
  have := (List.subperm_of_subset hnodup hknown).length_le
  rwa [Dict.keys, List.length_map] at this

theorem mem_keys_of_get? {id : String} {t : Template} (h : templates.get? id = some t) : id ∈ templates.keys :=
  List.mem_map.mpr ⟨(id, t), Dict.mem_of_get? h, rfl⟩

theorem Layered.length_le {ids : List String} (h : Layered templates ids) : ids.length ≤ templates.length := by
  have hall : ids.Nodup ∧ ∀ id ∈ ids, id ∈ templates.keys := by
    induction h with
    | nil => exact ⟨List.nodup_nil, by simp⟩
    | cons _ known _ _ fresh ih =>
      exact ⟨List.nodup_cons.mpr ⟨fresh, ih.1⟩, List.forall_mem_cons.mpr ⟨mem_keys_of_get? known, ih.2⟩⟩
  exact length_le_of_known hall.1 hall.2

/-- What is used of layered templates lies in their deeper layers. -/
theorem Layered.beneath {ids : List String} (h : Layered templates ids) {id : String} {t : Template} (hid : id ∈ ids)
    (ht : templates.get? id = some t) : (∃ order, resolve t.nodes = .ok order) ∧
      ∃ deeper, Layered templates deeper ∧ deeper.length < ids.length ∧ UsesOnly templates t.nodes deeper := by
  induction h with
  | nil => cases hid
  | @cons first rest t' h known ordered uses fresh ih =>
    rcases List.mem_cons.mp hid with rfl | hid
    · obtain rfl := Option.some.inj (known.symm.trans ht)
      exact ⟨ordered, rest, h, Nat.lt_succ_self _, uses⟩
    · obtain ⟨ho, deeper, hl, hlt, hu⟩ := ih hid
      exact ⟨ho, deeper, hl, Nat.lt_succ_of_lt hlt, hu⟩

/-- The check of one node. -/
def checkUsage (templates : Templates) (fuel : Nat) (path checked : List String) (r : Record) :
    Except ConfigFault (List String) :=
  match r.templateId? with
  | none => .ok checked
  | some id =>
    if path.contains id then .error (.circularDependency id)
    else if checked.contains id then .ok checked
    else match templates.get? id with
      | none => .ok checked
      | some t => do
        let _ ← resolve t.nodes
        let checked ← checkUsages templates fuel (id :: path) checked t.nodes
        return id :: checked

theorem checkUsages_succ (fuel : Nat) (path checked : List String) :
    checkUsages templates (fuel + 1) path checked nodes =
      (nodes.filter fun r => !r.disabled).foldlM (checkUsage templates fuel path) checked := rfl

/-- What the check of one node can come to: there is nothing to check, or its template is entered behind all that
is used inside it. -/
theorem checkUsage_ok {fuel : Nat} {path checked checked' : List String} {r : Record}
    (h : checkUsage templates fuel path checked r = .ok checked') :
    (checked' = checked ∧ ∀ id t, r.templateId? = some id → templates.get? id = some t → id ∈ checked) ∨
    ∃ id t order inner, r.templateId? = some id ∧ id ∉ path ∧ id ∉ checked ∧ templates.get? id = some t ∧
      resolve t.nodes = .ok order ∧ checkUsages templates fuel (id :: path) checked t.nodes = .ok inner ∧
      checked' = id :: inner := by
  unfold checkUsage at h
  split at h
  · rename_i hid
    cases h
    exact .inl ⟨rfl, fun id t h => by rw [hid] at h; cases h⟩
  · rename_i id hid
    rw [hid]
    split at h
    · cases h
    · rename_i hout
      split at h
      · rename_i hc
        cases h
        exact .inl ⟨rfl, fun id' t h _ => by cases h; exact List.contains_iff_mem.mp hc⟩
      · rename_i hc
        split at h
        · rename_i ht
          cases h
          exact .inl ⟨rfl, fun id' t h h' => by cases h; rw [ht] at h'; cases h'⟩
        · rename_i t ht
          obtain ⟨order, ho, h⟩ := of_bind_ok h
          obtain ⟨inner, hi, h⟩ := of_bind_ok h
          cases h
          exact .inr ⟨id, t, order, inner, rfl, fun hm => hout (List.contains_iff_mem.mpr hm),
            fun hm => hc (List.contains_iff_mem.mpr hm), ht, ho, hi, rfl⟩

/-- Templates that pass the check are layered, and those that the nodes use are among them. -/
theorem layered_checkUsages {path checked checked' : List String} (fuel : Nat) (hgood : Layered templates checked)
    (hwaits : ∀ id ∈ path, id ∉ checked) (hpath : path.Nodup) (hknown : ∀ id ∈ path, id ∈ templates.keys)
    (hfuel : templates.length < fuel + path.length) (h : checkUsages templates fuel path checked nodes = .ok checked') :
    Pausing (Layered templates) path checked checked' ∧ UsesOnly templates nodes checked' := by
  induction fuel generalizing path checked checked' nodes with
  | zero =>
    have := length_le_of_known hpath hknown
    omega
  | succ fuel ih =>
    rw [checkUsages_succ] at h
    have hstep (o : List String) (r : Record) (o' : List String) (hs : Pausing (Layered templates) path checked o)
        (hv : checkUsage templates fuel path o r = .ok o') : Pausing (Layered templates) path o o' ∧
          ∀ id t, r.templateId? = some id → templates.get? id = some t → id ∈ o' := by
      obtain ⟨rfl, hin⟩ | ⟨id, t, order, inner, hid, hout, hc, ht, ho, hi, rfl⟩ := checkUsage_ok hv
      · exact ⟨⟨hs.good, hs.waits, fun _ h => h⟩, hin⟩
      · -- the template waits while those inside it are checked
        obtain ⟨hp, hu⟩ := ih hs.good (List.forall_mem_cons.mpr ⟨hc, hs.waits⟩)
          (List.nodup_cons.mpr ⟨hout, hpath⟩) (List.forall_mem_cons.mpr ⟨mem_keys_of_get? ht, hknown⟩)
          (by rw [List.length_cons]; omega) hi
        refine ⟨⟨.cons hp.good ht ⟨order, ho⟩ hu (hp.waits id List.mem_cons_self), fun p hp' hin => ?_,
          fun p hp' => List.mem_cons_of_mem _ (hp.keeps p hp')⟩, fun id' t' h _ => ?_⟩
        · rcases List.mem_cons.mp hin with rfl | hin
          · exact hout hp'
          · exact hp.waits p (List.mem_cons_of_mem _ hp') hin
        · rw [hid] at h
          cases h
          exact List.mem_cons_self
    obtain ⟨hp, hall⟩ := Pausing.foldlM (fun r o o' hk hm id t hid ht => hk id (hm id t hid ht)) hstep hgood hwaits h
    exact ⟨hp, fun r hr hd => hall r (List.mem_filter.mpr ⟨hr, by rw [hd]; rfl⟩)⟩

/-- The nodes of a flow that is sound can be ordered, and the templates it uses are layered. -/
theorem layered_validate {c : FlowConfig} (h : validate c = .ok order) :
    resolve c.nodes = .ok order ∧ ∃ ids, Layered c.templates ids ∧ UsesOnly c.templates c.nodes ids := by
  unfold validate checkTemplates at h
  obtain ⟨order', ho, h⟩ := of_bind_ok h
  obtain ⟨⟨⟩, hc, h⟩ := of_bind_ok h
  cases h
  obtain ⟨ids, hids, -⟩ := of_bind_ok hc
  obtain ⟨hp, hu⟩ := layered_checkUsages _ .nil (by simp) List.nodup_nil (by simp)
    (by rw [List.length_nil]; omega) hids
  exact ⟨ho, ids, hp.good, hu⟩

end StartOrder
end Flowgraph
