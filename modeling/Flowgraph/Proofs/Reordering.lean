import Flowgraph.Proofs.LeastMarks
import Flowgraph.Proofs.Linking
import Flowgraph.Proofs.Relisting
/-! The difference of two generations does not depend on the order in which records, nodes or templates are listed. Each
phase makes marks that its order cannot change, and lists of marks are sorted, so the marks are equal after each. -/
namespace Flowgraph.Diff

open Deployment Relation

variable {old new o n : Deployment} {olds news : List Record} {m m' : Marks} {k : Mark} {id : String} {r : Record}
  {F G : Mark → String → Prop} {f g f' g' : Marks → Marks}

/-! ## Sorted marks -/

/-- Every list of marks is in increasing order. -/
def Marks.Sorted (m : Marks) : Prop := ∀ k, (m.under k).Pairwise (· < ·)

theorem under_put (m : Marks) (k k' : Mark) (id : String) :
    (m.put k id).under k' = if k' = k then (m.under k').insert id else m.under k' := by
  cases k <;> cases k' <;> rfl

theorem under_drop (m : Marks) (k k' : Mark) (id : String) :
    (m.drop k id).under k' = if k' = k then (m.under k').erase id else m.under k' := by
  cases k <;> cases k' <;> rfl

namespace Marks.Sorted

theorem none : Marks.none.Sorted := fun k => by
  cases k <;> exact List.Pairwise.nil

theorem put (h : m.Sorted) (k : Mark) (id : String) : (m.put k id).Sorted := fun k' => by
  rw [under_put]
  split
  · exact TextSet.sorted_insert (h k') id
  · exact h k'

theorem drop (h : m.Sorted) (k : Mark) (id : String) : (m.drop k id).Sorted := fun k' => by
  rw [under_drop]
  split
  · exact (h k').filter _
  · exact h k'

theorem touch (h : m.Sorted) (new : Deployment) (c : Option String) : (m.touch new c).Sorted := by
  unfold Marks.touch
  split
  · exact h
  · split
    · exact h.put .changed _
    · split
      · exact (h.put .changed _).put .template _
      · exact h

theorem shows (h : m.Sorted) (new : Deployment) (k : Mark) (r : Record) :
    (if inTemplate new r.container then (m.touch new r.container).drop k r.id else
      (m.touch new r.container).put k r.id).Sorted := by
  split
  · exact (h.touch new r.container).drop k r.id
  · exact (h.touch new r.container).put k r.id

theorem change (h : m.Sorted) (new : Deployment) (r : Record) : (m.change new r).Sorted := h.shows new .changed r

theorem rewire (h : m.Sorted) (new : Deployment) (r : Record) : (m.rewire new r).Sorted := h.shows new .rewired r

theorem add (h : m.Sorted) (new : Deployment) (r : Record) : (m.add new r).Sorted := h.shows new .added r

theorem compareTab (h : m.Sorted) (new : Deployment) (a : FlowConfig) : (compareTab new m a).Sorted := by
  unfold Diff.compareTab
  split
  · exact h.put .removed a.id
  · split
    · exact h.put .changed a.id
    · exact h

theorem compareTemplate (h : m.Sorted) (new : Deployment) (a : Template) : (compareTemplate new m a).Sorted := by
  unfold Diff.compareTemplate
  split
  · exact h.put .removed a.id
  · split
    · exact (h.put .changed a.id).put .template a.id
    · exact h

theorem compareNode (h : m.Sorted) (new : Deployment) (a : Record) : (compareNode new m a).Sorted := by
  unfold Diff.compareNode
  split
  · exact (h.put .removed a.id).touch new a.container
  · rename_i b _
    have hchange : (if nodeDiffers a b then m.change new b else m).Sorted := by
      split
      · exact h.change new b
      · exact h
    dsimp only
    split
    · exact hchange.rewire new b
    · exact hchange

theorem foldl {α : Type} {step : Marks → α → Marks} (hstep : ∀ m a, m.Sorted → (step m a).Sorted) (h : m.Sorted)
    (xs : List α) : (xs.foldl step m).Sorted := by
  induction xs generalizing m with
  | nil => exact h
  | cons x xs ih => exact ih (hstep m x h)

end Marks.Sorted

theorem Marks.ext_of_mem (h : m.Sorted) (h' : m'.Sorted) (he : ∀ k id, id ∈ m.under k ↔ id ∈ m'.under k) : m = m' := by
  have hk (k : Mark) : m.under k = m'.under k := (h k).eq_of_mem_iff (h' k) (he k)
  cases m
  cases m'
  exact Marks.mk.injEq .. ▸ ⟨hk .added, hk .changed, hk .removed, hk .rewired, hk .template⟩

/-! ## Steps in another order -/

/-- Marks as a comparison makes them: none of a node inside a template, and each list sorted. -/
structure Marks.Neat (new : Deployment) (m : Marks) : Prop where
  folded : m.Folded new
  sorted : m.Sorted

/-- Two ways to make the same marks. -/
structure Alike (new : Deployment) (f g : Marks → Marks) : Prop where
  eq : ∀ m : Marks, m.Neat new → f m = g m
  neat : ∀ m : Marks, m.Neat new → (g m).Neat new

theorem Alike.comp (h : Alike new f g) (h' : Alike new f' g') : Alike new (fun m => f' (f m)) fun m => g' (g m) where
  eq m hm := by rw [h.eq m hm, h'.eq _ (h.neat m hm)]
  neat m hm := h'.neat _ (h.neat m hm)

/-- What is done for each element of a list gives the same marks in any order, however often an element stands there.
Only what `p` and `q` show of the elements may matter. -/
theorem alike_foldl {α β γ : Type} (step : Marks → γ → Marks) {left : Marks → α → Marks} {right : Marks → β → Marks}
    {p : α → γ} {q : β → γ} {xs : List α} {ys : List β} (hleft : ∀ m a, left m a = step m (p a))
    (hright : ∀ m b, right m b = step m (q b)) {H : γ → Mark → String → Prop}
    (hadds : ∀ c ∈ ys.map q, Adds new (H c) (step · c)) (hsorted : ∀ m c, m.Sorted → (step m c).Sorted)
    (h : ∀ c, c ∈ xs.map p ↔ c ∈ ys.map q) : Alike new (xs.foldl left) (ys.foldl right) := by
  have hx (m : Marks) : xs.foldl left m = (xs.map p).foldl step m := by
    rw [List.foldl_map, funext₂ hleft]
  have hy (m : Marks) : ys.foldl right m = (ys.map q).foldl step m := by
    rw [List.foldl_map, funext₂ hright]
  have hxs := Adds.foldl fun c (hc : c ∈ xs.map p) => hadds c ((h c).mp hc)
  have hys := Adds.foldl hadds
  refine ⟨fun m hm => ?_, fun m hm => ?_⟩
  · rw [hx, hy]
    refine Marks.ext_of_mem (hm.sorted.foldl hsorted _) (hm.sorted.foldl hsorted _) fun k id => ?_
    rw [hxs.mem_iff m hm.folded, hys.mem_iff m hm.folded]
    simp only [h]
  · rw [hy]
    exact ⟨hys.folded hm.folded, hm.sorted.foldl hsorted _⟩

/-- What is done for each element of two lists with the same elements gives the same marks. -/
theorem alike_foldl_same {α : Type} (step : Marks → α → Marks) {left : Marks → α → Marks} {xs ys : List α}
    (hleft : ∀ m a, left m a = step m a) {H : α → Mark → String → Prop} (hadds : ∀ a ∈ ys, Adds new (H a) (step · a))
    (hsorted : ∀ m a, m.Sorted → (step m a).Sorted) (h : ∀ a, a ∈ xs ↔ a ∈ ys) :
    Alike new (xs.foldl left) (ys.foldl step) :=
  alike_foldl step (p := id) (q := id) hleft (fun _ _ => rfl) (by rwa [List.map_id]) hsorted
    (by rwa [List.map_id, List.map_id])

/-! ## One record -/

theorem compareTab_eq (new : Deployment) (m : Marks) (a : FlowConfig) : compareTab new m a =
    (new.tabs.find? (·.id == a.id)).elim (m.put .removed a.id) fun next =>
      if tabDiffers a next then m.put .changed a.id else m := by
  unfold compareTab
  cases new.tabs.find? (·.id == a.id) <;> rfl

theorem compareTemplate_eq (new : Deployment) (m : Marks) (a : Template) : compareTemplate new m a =
    (new.templates.get? a.id).elim (m.put .removed a.id) fun next =>
      if templateDiffers a next then (m.put .changed a.id).put .template a.id else m := by
  unfold compareTemplate
  cases new.templates.get? a.id <;> rfl

/-- What does not look beyond `f` cannot tell two results apart that are the same there. -/
theorem elim_eq_of_map_eq {α β : Type} {f : α → α} {x y : Option α} (h : x.map f = y.map f) {b : β} {g : α → β}
    (hg : ∀ x, g (f x) = g x) : x.elim b g = y.elim b g := by
  have hgf : g ∘ f = g := funext hg
  rw [← hgf, ← Option.elim_map, h, Option.elim_map]

section Step
variable (h : new.Relisted n)
include h

theorem inTemplate_relisted (c : Option String) : inTemplate n c = inTemplate new c := by
  cases c with
  | none => rfl
  | some z => simp only [inTemplate, h.contains_tab, h.contains_template]

theorem touch_relisted (m : Marks) (c : Option String) : m.touch n c = m.touch new c := by
  simp only [Marks.touch, h.contains_tab, h.contains_template]

theorem change_relisted (m : Marks) (r : Record) : m.change n r = m.change new r := by
  simp only [Marks.change, touch_relisted h, inTemplate_relisted h]

theorem rewire_relisted (m : Marks) (r : Record) : m.rewire n r = m.rewire new r := by
  simp only [Marks.rewire, touch_relisted h, inTemplate_relisted h]

theorem add_relisted (m : Marks) (r : Record) : m.add n r = m.add new r := by
  simp only [Marks.add, touch_relisted h, inTemplate_relisted h]

theorem compareTab_relisted (hn : Proper new news) (m : Marks) (a : FlowConfig) :
    compareTab n m a = compareTab new m a := by
  rw [compareTab_eq, compareTab_eq]
  exact elim_eq_of_map_eq (h.find?_tab hn.toArranged a.id) fun _ => rfl

theorem compareTemplate_relisted (hn : Proper new news) (m : Marks) (a : Template) :
    compareTemplate n m a = compareTemplate new m a := by
  rw [compareTemplate_eq, compareTemplate_eq]
  exact elim_eq_of_map_eq (h.get?_template hn.sortedTemplates a.id) fun _ => rfl

theorem compareNode_relisted (hn : Proper new news) (m : Marks) (a : Record) :
    compareNode n m a = compareNode new m a := by
  simp only [compareNode, h.get?_nodes hn.toArranged, Marks.remove, touch_relisted h, change_relisted h,
    rewire_relisted h]

theorem affected_relisted (m : Marks) : (affected n m).Perm (affected new m) := (h.nodes.map _).filter _

end Step

/-! ## The comparison of the records -/

/-- What is in one generation only. -/
theorem mem_map_filter {α : Type} {f : α → String} {p : String → Bool} {xs : List α} {x : String} :
    x ∈ (xs.filter fun a => !p (f a)).map f ↔ x ∈ xs.map f ∧ p x = false := by
  simp only [List.mem_map, List.mem_filter, Bool.not_eq_true']
  constructor
  · rintro ⟨a, ⟨ha, hp⟩, rfl⟩
    exact ⟨⟨a, ha, rfl⟩, hp⟩
  · rintro ⟨⟨a, ha, rfl⟩, hp⟩
    exact ⟨a, ⟨ha, hp⟩, rfl⟩

theorem alike_names (new : Deployment) {α : Type} {f : α → String} {p q : String → Bool} {xs ys : List α}
    (hxs : (xs.map f).Perm (ys.map f)) (hp : ∀ x, p x = q x)
    (hfree : ∀ y ∈ ys, ∀ r ∈ new.nodes.values, r.id ≠ f y) : Alike new
      ((xs.filter fun a => !p (f a)).foldl fun m a => { m with added := m.added.insert (f a) })
      ((ys.filter fun a => !q (f a)).foldl fun m a => { m with added := m.added.insert (f a) }) := by
  refine alike_foldl (fun m id => m.put .added id) (p := f) (q := f) (fun _ _ => rfl) (fun _ _ => rfl)
    (fun id hid => adds_put .added id fun _ r hr _ => ?_) (fun _ id hm => hm.put .added id) fun id => ?_
  · obtain ⟨y, hy, rfl⟩ := List.mem_map.mp hid
    exact hfree y (List.mem_of_mem_filter hy) r hr
  · rw [mem_map_filter, mem_map_filter, hp, hxs.mem_iff]

section Rounds
variable (hn : Proper new news) (h : new.Relisted n)
include hn h

theorem direct_relisted (ho : old.Relisted o) : direct o n = direct old new ∧ (direct old new).Neat new := by
  have htabs : Alike new (o.tabs.foldl (compareTab n)) (old.tabs.foldl (compareTab new)) :=
    alike_foldl (compareTab new) (p := FlowConfig.bare) (q := FlowConfig.bare) (compareTab_relisted h hn) (fun _ _ => rfl)
      (fun a _ => adds_compareTab hn a) (fun _ a hm => hm.compareTab new a) fun _ => ho.tabs.mem_iff
  have hnewTabs := alike_names new (f := FlowConfig.id) (p := o.tabIds.contains) (q := old.tabIds.contains)
    h.tabIds ho.contains_tab fun t ht r hr he => hn.not_tab hr (he ▸ List.mem_map_of_mem ht)
  have htemplates : Alike new (o.templates.values.foldl (compareTemplate n))
      (old.templates.values.foldl (compareTemplate new)) := by
    refine alike_foldl (compareTemplate new) (p := Template.bare) (q := Template.bare)
      (compareTemplate_relisted h hn) (fun _ _ => rfl) (fun a _ => adds_compareTemplate hn a)
      (fun _ a hm => hm.compareTemplate new a) fun _ => ?_
    rw [← Dict.values_mapValues, ← Dict.values_mapValues]
    exact (ho.templates.map _).mem_iff
  have hnewTemplates := alike_names new (f := Template.id) (p := o.templates.contains) (q := old.templates.contains)
    h.templateIds ho.contains_template fun t ht r hr => hn.not_template hr (hn.template_of_mem ht)
  have hnodes : Alike new (o.nodes.values.foldl (compareNode n)) (old.nodes.values.foldl (compareNode new)) :=
    alike_foldl_same (compareNode new) (compareNode_relisted h hn) (fun a _ => adds_compareNode hn a)
      (fun _ a hm => hm.compareNode new a) fun _ => ho.mem_nodes
  have hnewNodes : Alike new ((n.nodes.values.filter fun r => !o.nodes.contains r.id).foldl (·.add n ·))
      ((new.nodes.values.filter fun r => !old.nodes.contains r.id).foldl (·.add new ·)) :=
    alike_foldl_same (H := Shows new .added) (·.add new ·) (add_relisted h)
      (fun r hr => adds_add hn (List.mem_of_mem_filter hr)) (fun _ r hm => hm.add new r)
      fun r => by simp only [List.mem_filter, h.mem_nodes, ho.contains_node]
  have hall := ((((htabs.comp hnewTabs).comp htemplates).comp hnewTemplates).comp hnodes).comp hnewNodes
  have hnone : Marks.none.Neat new := ⟨folded_none, .none⟩
  exact ⟨hall.eq _ hnone, hall.neat _ hnone⟩

/-! ## Rounds -/

theorem round_relisted (hm : m.Neat new) : round n m = round new m ∧ (round new m).Neat new := by
  have hround : Alike new ((affected n m).foldl (·.change n ·)) ((affected new m).foldl (·.change new ·)) :=
    alike_foldl_same (H := Shows new .changed) (·.change new ·) (change_relisted h)
      (fun r hr => adds_change hn (affected_subset r hr)) (fun _ r hm => hm.change new r)
      fun _ => (affected_relisted h m).mem_iff
  exact ⟨hround.eq m hm, hround.neat m hm⟩

/-- After any number of rounds the marks are the same. -/
theorem settle?_relisted (hm : m.Neat new) (rounds : Nat) : settle? n rounds m = settle? new rounds m := by
  induction rounds generalizing m with
  | zero => rfl
  | succ rounds ih =>
    obtain ⟨heq, hneat⟩ := round_relisted hn h hm
    have hdone : affected n m = [] ↔ affected new m = [] := by
      rw [← List.perm_nil, ← List.perm_nil]
      exact ⟨(affected_relisted h m).symm.trans, (affected_relisted h m).trans⟩
    rw [settle?_succ, settle?_succ, heq, ih hneat, if_congr hdone rfl rfl]

end Rounds

/-! ## The users of templates -/

theorem eraseDups_of_nodup {xs : List String} (h : xs.Nodup) : xs.eraseDups = xs := by
  induction xs with
  | nil => rfl
  | cons x xs ih =>
    obtain ⟨hx, hxs⟩ := List.nodup_cons.mp h
    have hself : (xs.filter fun y => !y == x) = xs := List.filter_eq_self.mpr fun y hy => by
      have hne : y ≠ x := fun he => hx (he ▸ hy)
      simpa using hne
    rw [List.eraseDups_cons, hself, ih hxs]

/-- Marking by use marks the users of all templates that a search from the marked ones takes up. -/
theorem markUsers_eq_searched (d : Deployment) (fuel : Nat) (seen pending : List String) (m : Marks) :
    markUsers d fuel seen pending m =
      ((searched (enclosing d) fuel seen pending).flatMap (users d)).foldl (·.change d ·) m := by
  induction fuel generalizing seen pending m with
  | zero => rfl
  | succ fuel ih =>
    cases pending with
    | nil => rfl
    | cons t pending =>
      have hfresh : fresh (enclosing d) seen t = newly d seen t :=
        eraseDups_of_nodup ((nodup_eraseDups _).filter _)
      rw [searched, List.flatMap_cons, List.foldl_append, hfresh, ← ih]
      rfl

theorem mem_users_searched {d : Deployment} {start : List String} (hd : start.Nodup)
    (hs : ∀ z ∈ start, z ∈ d.templates.keys) :
    r ∈ (searched (enclosing d) (d.templates.length + 1) start start).flatMap (users d) ↔
      ∃ t, (∃ s ∈ start, ReflTransGen (fun a b => b ∈ enclosing d a) s t) ∧ r ∈ users d t := by
  have hnext : ∀ x, ∀ y ∈ enclosing d x, y ∈ d.templates.keys := by
    intro x y hy
    obtain ⟨r, -, hin, hc⟩ := mem_enclosing.mp hy
    rw [hc, inTemplate, Bool.and_eq_true] at hin
    exact Dict.contains_iff.mp hin.2
  have hfuel : start.length + (unvisited d.templates.keys start).length ≤ d.templates.length + 1 :=
    (length_start hd hs).trans (by simp [Dict.keys])
  rw [List.mem_flatMap]
  exact exists_congr fun t => and_congr_left' (mem_searched_iff hnext hfuel)

section Users
variable (hn : Proper new news) (h : new.Relisted n)
include h

theorem mem_users_relisted {t : String} : r ∈ users n t ↔ r ∈ users new t := by
  rw [mem_users, mem_users, h.mem_nodes]

theorem mem_enclosing_relisted {t z : String} : z ∈ enclosing n t ↔ z ∈ enclosing new t := by
  simp only [mem_enclosing, mem_users_relisted h, inTemplate_relisted h]

theorem wiresOf_relisted : (wiresOf n).Perm (wiresOf new) := (h.nodes.map _).flatMap_right _

include hn

theorem markUsers_relisted (hm : m.Neat new) (hk : ∀ z ∈ m.templates, z ∈ new.templates.keys) :
    markUsers n (n.templates.length + 1) m.templates m.templates m =
      markUsers new (new.templates.length + 1) m.templates m.templates m := by
  have hd : m.templates.Nodup := (hm.sorted .template).imp ne_of_lt
  have hmem (r : Record) :
      r ∈ (searched (enclosing n) (n.templates.length + 1) m.templates m.templates).flatMap (users n) ↔
      r ∈ (searched (enclosing new) (new.templates.length + 1) m.templates m.templates).flatMap (users new) := by
    rw [mem_users_searched hd hk, mem_users_searched hd fun z hz => h.keys_templates.mem_iff.mpr (hk z hz)]
    simp only [mem_users_relisted h, mem_enclosing_relisted h]
  have hmarks : Alike new
      (((searched (enclosing n) (n.templates.length + 1) m.templates m.templates).flatMap (users n)).foldl
        (·.change n ·))
      (((searched (enclosing new) (new.templates.length + 1) m.templates m.templates).flatMap (users new)).foldl
        (·.change new ·)) := by
    refine alike_foldl_same (H := Shows new .changed) (·.change new ·) (change_relisted h) (fun r hr => ?_)
      (fun _ r hm => hm.change new r) hmem
    obtain ⟨t, -, hr⟩ := List.mem_flatMap.mp hr
    exact adds_change hn (mem_users.mp hr).1
  rw [markUsers_eq_searched, markUsers_eq_searched]
  exact hmarks.eq m hm

theorem finish_relisted (ho : old.Relisted o) (hm : m.Neat new) (hk : ∀ z ∈ m.templates, z ∈ new.templates.keys) :
    finish o n m = finish old new m := by
  have hwires := (wiresOf_relisted ho).append (wiresOf_relisted h)
  unfold finish
  rw [markUsers_relisted hn h hm hk]
  dsimp only
  rw [linkedTo_perm hwires]

theorem between?_relisted (ho : old.Relisted o) : between? o n = between? old new := by
  obtain ⟨hdirect, hneat⟩ := direct_relisted hn h ho
  have hlength : n.nodes.length = new.nodes.length := h.nodes.length_eq
  unfold between?
  rw [hdirect, hlength, settle?_relisted hn h hneat]
  cases hs : settle? new (new.nodes.length + 1) (direct old new) with
  | none => rfl
  | some m =>
    obtain ⟨hm, -⟩ := settle?_invariant (P := Marks.Neat new) (fun _ hm => (round_relisted hn h hm).2) hneat hs
    have hk : ∀ z ∈ m.templates, z ∈ new.templates.keys := fun z hz => by
      have hknown := ((settled_of_settle? hn hs).outdated hn z hz).known
      rw [← Dict.contains_eq_isSome] at hknown
      exact Dict.contains_iff.mp hknown
    exact congrArg some (finish_relisted hn h ho hm hk)

end Users

/-- Records in another order are read as well, and in whatever order the tables of nodes and templates are listed then,
the marks are the same after each number of rounds: either there is no difference in any order, or in all the same. -/
theorem between?_ignores_order {oldRecords newRecords : List Json} (hold : parse oldRecords = .ok old)
    (hnew : parse newRecords = .ok new) {oldRecords' newRecords' : List Json} (hpo : oldRecords'.Perm oldRecords)
    (hpn : newRecords'.Perm newRecords) :
    ∃ old' new', parse oldRecords' = .ok old' ∧ parse newRecords' = .ok new' ∧
      ∀ o n, old'.Shuffled o → new'.Shuffled n →
        (∀ rounds, settle? n rounds (direct o n) = settle? new rounds (direct old new)) ∧
        between? o n = between? old new := by
  obtain ⟨news, hn⟩ := parse_proper hnew
  obtain ⟨old', hold', hro⟩ := parse_perm hold hpo
  obtain ⟨new', hnew', hrn⟩ := parse_perm hnew hpn
  refine ⟨old', new', hold', hnew', fun o n ho hn' => ?_⟩
  have hso := hro.trans ho.relisted
  have hsn := hrn.trans hn'.relisted
  obtain ⟨hdirect, hneat⟩ := direct_relisted hn hsn hso
  refine ⟨fun rounds => ?_, between?_relisted hn hsn hso⟩
  rw [hdirect, settle?_relisted hn hsn hneat]

/-- A template with a node of some value, used in another that a node on a tab uses; a setting of this value, a node
that refers to it, and one that this leads to. -/
def tangledRecords (value : Nat) : List Json := [
  .obj [("id", .str "t"), ("type", .str "tab")],
  .obj [("id", .str "s"), ("type", .str "subflow")],
  .obj [("id", .str "n"), ("type", .str "test"), ("v", .nat value), ("z", .str "s")],
  .obj [("id", .str "w"), ("type", .str "subflow")],
  .obj [("id", .str "i"), ("type", .str "subflow:s"), ("z", .str "w")],
  .obj [("id", .str "u"), ("type", .str "subflow:w"), ("z", .str "t")],
  .obj [("id", .str "c"), ("type", .str "test"), ("v", .nat value)],
  .obj [("id", .str "b"), ("server", .str "c"), ("type", .str "test"), ("wires", .arr [.arr [.str "a"]]),
    ("z", .str "t")],
  .obj [("id", .str "a"), ("type", .str "test"), ("z", .str "t")]]

/-- With the records of both generations and the tables of both listed backwards, the difference is the same. -/
theorem tangledRecords_backwards : ∃ old new, parse (tangledRecords 1).reverse = .ok old ∧
    parse (tangledRecords 2).reverse = .ok new ∧
    between? { old with nodes := old.nodes.reverse, templates := old.templates.reverse }
      { new with nodes := new.nodes.reverse, templates := new.templates.reverse } =
      some ⟨[], ["b", "c", "s", "t", "u", "w"], [], [], ["a"]⟩ := by
  have hold : parse (tangledRecords 1) = .ok (ofRecords (tangledRecords 1)) := parse_of_isOk (by decide +kernel)
  have hnew : parse (tangledRecords 2) = .ok (ofRecords (tangledRecords 2)) := parse_of_isOk (by decide +kernel)
  have hbetween : between? (ofRecords (tangledRecords 1)) (ofRecords (tangledRecords 2)) =
      some ⟨[], ["b", "c", "s", "t", "u", "w"], [], [], ["a"]⟩ := by decide +kernel
  obtain ⟨old, new, hold', hnew', hsame⟩ :=
    between?_ignores_order hold hnew (List.reverse_perm _) (List.reverse_perm _)
  obtain ⟨-, heq⟩ := hsame { old with nodes := old.nodes.reverse, templates := old.templates.reverse }
    { new with nodes := new.nodes.reverse, templates := new.templates.reverse }
    ⟨List.reverse_perm _, List.reverse_perm _, rfl, rfl⟩ ⟨List.reverse_perm _, List.reverse_perm _, rfl, rfl⟩
  exact ⟨old, new, hold', hnew', heq.trans hbetween⟩

end Flowgraph.Diff
