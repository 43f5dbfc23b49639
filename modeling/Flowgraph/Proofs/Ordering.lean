import Flowgraph.Config.StartOrder
/-! The creation order of a flow holds the positions of its enabled nodes, and no others. -/
namespace Flowgraph.StartOrder

variable {nodes : List Record} {order order' : List Nat} {pos : Nat}

/-- The position of an enabled node. -/
def Enabled (nodes : List Record) (pos : Nat) : Prop := ∃ r, nodes[pos]? = some r ∧ r.disabled = false

/-- An order with more positions of enabled nodes. -/
structure Extends (nodes : List Record) (order order' : List Nat) : Prop where
  keeps : ∀ p ∈ order, p ∈ order'
  enabled : ∀ p ∈ order', p ∈ order ∨ Enabled nodes p

theorem Extends.refl (order : List Nat) : Extends nodes order order := ⟨fun _ h => h, fun _ h => .inl h⟩

theorem Extends.trans {mid : List Nat} (h : Extends nodes order mid) (h' : Extends nodes mid order') :
    Extends nodes order order' := by
  refine ⟨fun p hp => h'.keeps p (h.keeps p hp), fun p hp => ?_⟩
  rcases h'.enabled p hp with hp | hp
  · exact h.enabled p hp
  · exact .inr hp

theorem enabled_of_mem_needs {p : Nat} (h : p ∈ needs nodes pos) : Enabled nodes p := by
  unfold needs at h
  split at h
  · cases h
  · obtain ⟨⟨dep, i⟩, hm, rfl⟩ := List.mem_map.mp h
    obtain ⟨hz, hd⟩ := List.mem_filter.mp hm
    simp only [Bool.and_eq_true, Bool.not_eq_eq_eq_not, Bool.not_true] at hd
    exact ⟨dep, List.mem_zipIdx_iff_getElem?.mp hz, hd.1.1.1⟩

/-- Positions that are visited one after the other are all in the order at the end. -/
theorem extends_foldlM {f : List Nat → Nat → Except ConfigFault (List Nat)}
    (hf : ∀ o p o', Enabled nodes p → f o p = .ok o' → Extends nodes o o' ∧ p ∈ o') {ps : List Nat}
    (hps : ∀ p ∈ ps, Enabled nodes p) (h : ps.foldlM f order = .ok order') :
    Extends nodes order order' ∧ ∀ p ∈ ps, p ∈ order' := by
  induction ps generalizing order with
  | nil =>
    cases h
    exact ⟨.refl _, by simp⟩
  | cons p ps ih =>
    rw [List.foldlM_cons] at h
    cases hp : f order p with
    | error fault =>
      rw [hp] at h
      cases h
    | ok mid =>
      rw [hp] at h
      obtain ⟨hm, hin⟩ := hf order p mid (hps p List.mem_cons_self) hp
      obtain ⟨he, hall⟩ := ih (fun q hq => hps q (List.mem_cons_of_mem _ hq)) h
      refine ⟨hm.trans he, fun q hq => ?_⟩
      rcases List.mem_cons.mp hq with rfl | hq
      · exact he.keeps q hin
      · exact hall q hq

theorem extends_visit (fuel : Nat) (path : List Nat) (hpos : Enabled nodes pos)
    (h : visit nodes fuel path order pos = .ok order') : Extends nodes order order' ∧ pos ∈ order' := by
  induction fuel generalizing path order order' pos with
  | zero =>
    rw [visit] at h
    split at h
    · rename_i hc
      cases h
      exact ⟨.refl _, List.contains_iff_mem.mp hc⟩
    · split at h <;> cases h
  | succ fuel ih =>
    rw [visit] at h
    split at h
    · rename_i hc
      cases h
      exact ⟨.refl _, List.contains_iff_mem.mp hc⟩
    · split at h
      · cases h
      · cases hn : (needs nodes pos).foldlM (visit nodes fuel (pos :: path)) order with
        | error fault =>
          rw [hn] at h
          cases h
        | ok mid =>
          rw [hn] at h
          cases h
          obtain ⟨he, -⟩ := extends_foldlM (fun o p o' hp hv => ih (pos :: path) hp hv)
            (fun p hp => enabled_of_mem_needs hp) hn
          refine ⟨he.trans ⟨fun p hp => List.mem_append_left _ hp, fun p hp => ?_⟩, by simp⟩
          rcases List.mem_append.mp hp with hp | hp
          · exact .inl hp
          · obtain rfl := List.mem_singleton.mp hp
            exact .inr hpos

theorem mem_roots {p : Nat} : p ∈ roots nodes ↔ Enabled nodes p := by
  have hz (r : Record) : (r, p) ∈ nodes.zipIdx ↔ nodes[p]? = some r := List.mem_zipIdx_iff_getElem?
  simp only [roots, List.map_append, List.mem_append, List.mem_map, List.mem_filter, Bool.not_eq_eq_eq_not,
    Bool.not_true, Prod.exists, exists_eq_right, hz, Enabled]
  constructor
  · rintro (⟨r, ⟨hr, hd⟩, -⟩ | ⟨r, ⟨hr, hd⟩, -⟩) <;> exact ⟨r, hr, hd⟩
  · rintro ⟨r, hr, hd⟩
    cases hc : r.isConfigNode with
    | true => exact .inl ⟨r, ⟨hr, hd⟩, hc⟩
    | false => exact .inr ⟨r, ⟨hr, hd⟩, hc⟩

/-- The order holds every enabled node and no other. -/
theorem mem_resolve (h : resolve nodes = .ok order) {p : Nat} : p ∈ order ↔ Enabled nodes p := by
  obtain ⟨he, hall⟩ := extends_foldlM (fun o p o' hp hv => extends_visit _ _ hp hv)
    (fun p hp => mem_roots.mp hp) h
  refine ⟨fun hp => ?_, fun hp => hall p (mem_roots.mpr hp)⟩
  rcases he.enabled p hp with hp | hp
  · cases hp
  · exact hp

end Flowgraph.StartOrder
