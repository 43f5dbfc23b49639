import Flowgraph.Proofs.Registration
/-! An account of all nodes that are not active any more. Each has got one order to close, from one call, and that call
reports it once; what a stop takes out when it begins is exactly what it was asked for. -/
namespace Flowgraph

/-- The orders that calls have given, and those of them that have been served. -/
structure Book where
  given : CallKey → List Order
  served : CallKey → List Order

namespace Book

def blank : Book := ⟨fun _ => [], fun _ => []⟩

/-- Enters more orders of one call. -/
def add (b : Book) (key : CallKey) (given served : List Order) : Book where
  given j := if j = key then b.given j ++ given else b.given j
  served j := if j = key then b.served j ++ served else b.served j

variable {b : Book} {key j : CallKey} {given served : List Order}

theorem given_add_self : (b.add key given served).given key = b.given key ++ given := if_pos rfl

theorem served_add_self : (b.add key given served).served key = b.served key ++ served := if_pos rfl

theorem given_add_of_ne (h : j ≠ key) : (b.add key given served).given j = b.given j := if_neg h

theorem served_add_of_ne (h : j ≠ key) : (b.add key given served).served j = b.served j := if_neg h

theorem mem_given_add {n : NodeKey} : n ∈ ((b.add key given served).given j).map (·.node) ↔
    n ∈ (b.given j).map (·.node) ∨ j = key ∧ n ∈ given.map (·.node) := by
  by_cases hj : j = key
  · subst hj
    rw [given_add_self, List.map_append, List.mem_append]
    simp
  · rw [given_add_of_ne hj]
    simp [hj]

end Book

namespace Engine

variable {e e' e'' m : Engine} {key j : CallKey} {n : NodeKey} {b b' : Book} {c : Call}

/-- The books are right: every node that is not active has one order from one call, which has reported it or waits
for its close. -/
structure Ledger (e : Engine) (b : Book) : Prop where
  once : ∀ key, ((b.given key).map (·.node)).Nodup
  apart : ∀ key key' n, n ∈ (b.given key).map (·.node) → n ∈ (b.given key').map (·.node) → key = key'
  left : ∀ n, (∃ key, n ∈ (b.given key).map (·.node)) ↔ n < e.nodes.size ∧ ¬e.IsActive n
  reported : ∀ key c, e.call? key = some c →
    (c.report.stopped ++ c.waiting.flatMap (Stopping.docket e.idsOf)).Perm (e.idsOfOrders (b.given key))
  served : ∀ key c, e.call? key = some c → (b.served key ++ c.waiting.flatMap Stopping.orders).Perm (b.given key)
  known : ∀ key c, e.call? key = some c → ∀ s ∈ c.waiting, Known e s.nodes
  unknown : ∀ key, e.call? key = none → b.given key = [] ∧ b.served key = []

theorem idsOfOrders_congr {os : List Order} (h : ∀ o ∈ os, e'.idsOf o.node = e.idsOf o.node) :
    e'.idsOfOrders os = e.idsOfOrders os := by
  unfold idsOfOrders
  rw [List.flatMap_def, List.flatMap_def, List.map_congr_left h]

theorem Ledger.given_lt (h : Ledger e b) {o : Order} (ho : o ∈ b.given key) : o.node < e.nodes.size :=
  ((h.left o.node).mp ⟨key, List.mem_map_of_mem ho⟩).1

theorem Retains.call (h : Retains e e') {c' : Call} (hc : e'.call? key = some c') :
    ∃ c, e.call? key = some c ∧ c'.report = c.report ∧ c'.waiting = c.waiting := by
  have ha := h.account key
  rw [account?, hc] at ha
  obtain ⟨c, hc', he⟩ := Option.map_eq_some_iff.mp ha.symm
  exact ⟨c, hc', (congrArg Prod.fst he).symm, (congrArg Prod.snd he).symm⟩

/-- The books stay right as long as nobody leaves. -/
theorem Ledger.retains (h : Ledger e b) (hr : Retains e e') : Ledger e' b := by
  have hids (n : NodeKey) (hn : n < e.nodes.size) : e'.idsOf n = e.idsOf n := idsOf_of_face (hr.face n hn)
  refine ⟨h.once, h.apart, fun n => ?_, fun key c' hc' => ?_, fun key c' hc' => ?_, fun key c' hc' s hs n hn => ?_,
    fun key hc' => h.unknown key ?_⟩
  · rw [h.left]
    constructor
    · rintro ⟨hn, hna⟩
      exact ⟨Nat.lt_of_lt_of_le hn hr.size, fun ha => hna ((hr.active n hn).mp ha)⟩
    · rintro ⟨hn, hna⟩
      by_cases hlt : n < e.nodes.size
      · exact ⟨hlt, fun ha => hna ((hr.active n hlt).mpr ha)⟩
      · exact absurd (hr.entered n (Nat.le_of_not_lt hlt) hn) hna
  · obtain ⟨c, hc, hrep, hw⟩ := hr.call hc'
    have hdocket : c.waiting.flatMap (Stopping.docket e'.idsOf) = c.waiting.flatMap (Stopping.docket e.idsOf) := by
      rw [List.flatMap_def, List.flatMap_def]
      exact congrArg List.flatten (List.map_congr_left fun s hs =>
        docket_congr s fun n hn => hids n (h.known key c hc s hs n hn))
    rw [hrep, hw, hdocket, idsOfOrders_congr fun o ho => hids o.node (h.given_lt ho)]
    exact h.reported key c hc
  · obtain ⟨c, hc, -, hw⟩ := hr.call hc'
    rw [hw]
    exact h.served key c hc
  · obtain ⟨c, hc, -, hw⟩ := hr.call hc'
    exact Nat.lt_of_lt_of_le (h.known key c hc s (hw ▸ hs) n hn) hr.size
  · have ha := hr.account key
    rw [account?, account?, hc', Option.map_none] at ha
    exact Option.map_eq_none_iff.mp ha.symm

/-! ## A call takes up the stops it has begun or gone on with -/

/-- When all stops have finished, nothing is left to be served, and their reports are what was to be expected. -/
theorem docket_reports {stops : List Stopping} (h : ¬(reports stops).length < stops.length)
    (ids : NodeKey → List NodeId) : stops.flatMap Stopping.orders = [] ∧
      stops.flatMap (Stopping.docket ids) = (reports stops).flatMap StopReport.stopped := by
  induction stops with
  | nil => exact ⟨rfl, rfl⟩
  | cons s stops ih =>
    have hle : (reports stops).length ≤ stops.length := List.length_filterMap_le _ _
    cases s with
    | finished report =>
      have hr : reports (.finished report :: stops) = report :: reports stops := rfl
      rw [hr, List.length_cons, List.length_cons] at h
      obtain ⟨ho, hd⟩ := ih (by omega)
      rw [hr, List.flatMap_cons, List.flatMap_cons, List.flatMap_cons, ho, hd]
      exact ⟨rfl, rfl⟩
    | running k full previous backward closings =>
      have hr : (reports stops).length < stops.length + 1 := by omega
      exact absurd hr h

/-- The call waits for these stops now, or has taken their reports into its own. -/
theorem Proceeds.call_account {stops : List Stopping} (h : Proceeds e key stops e') (hc : e.call? key = some c) :
    ∃ c', e'.call? key = some c' ∧ c'.stages = c.stages ∧
      c'.waiting.flatMap Stopping.orders = stops.flatMap Stopping.orders ∧
      (∀ s ∈ c'.waiting, s ∈ stops) ∧ ∀ ids : NodeKey → List NodeId,
        (c'.report.stopped ++ c'.waiting.flatMap (Stopping.docket ids)).Perm
          (c.report.stopped ++ stops.flatMap (Stopping.docket ids)) := by
  cases h with
  | waits _ hs =>
    have hm := call?_modifyCall e key (fun c => { c with waiting := stops }) key
    rw [if_pos rfl, hc] at hm
    exact ⟨_, (call?_of_still hs.still key).trans hm, rfl, rfl, fun _ h => h, fun _ => .refl _⟩
  | done hlt =>
    have hm := call?_modifyCall e key (fun c =>
      { c with waiting := [], report := (reports stops).foldl (· ++ ·) c.report }) key
    rw [if_pos rfl, hc] at hm
    refine ⟨_, hm, rfl, (docket_reports hlt fun _ => []).1.symm, by simp, fun ids => ?_⟩
    rw [(docket_reports hlt ids).2, List.flatMap_nil, List.append_nil]
    exact StopReport.stopped_foldl _ _

theorem Proceeds.stands {stops : List Stopping} (h : Proceeds e key stops e') :
    (∀ j id, e'.activeKey? j id = e.activeKey? j id) ∧
      ∀ n, (e'.node? n).map Node.face = (e.node? n).map Node.face := by
  cases h with
  | waits _ hs =>
    refine ⟨fun j id => ?_, fun n => face_of_still hs.still n⟩
    rw [activeKey?, level?_of_still hs.still]
    rfl
  | done => exact ⟨fun _ _ => rfl, fun _ => rfl⟩

/-- The call enters the orders of the stops it begins, and what has been served of its stops. -/
theorem Ledger.proceeds (h : Ledger e b) (hl : Laid e) (hc : e.call? key = some c) {given served : List Order}
    {stops : List Stopping} (hd : Departs e m given)
    (hs : Serving e m (c.waiting.flatMap Stopping.orders ++ given) (stops.flatMap Stopping.orders)
      (c.waiting.flatMap (Stopping.docket e.idsOf) ++ e.idsOfOrders given) (stops.flatMap (Stopping.docket e.idsOf)) served)
    (hk : ∀ s ∈ stops, Known e s.nodes) (hcalls : m.calls = e.calls) (hp : Proceeds m key stops e') :
    Ledger e' (b.add key given served) := by
  have hface (n : NodeKey) : (e'.node? n).map Node.face = (e.node? n).map Node.face :=
    (hp.stands.2 n).trans (StopsWithin.face hs.stops n)
  have hsize := size_of_face hface
  have hids : e'.idsOf = e.idsOf := funext fun n => idsOf_of_face (hface n)
  have hactive (n : NodeKey) : e'.IsActive n ↔ m.IsActive n := by
    unfold IsActive
    simp only [hp.stands.1]
  have hother {j : CallKey} (hj : j ≠ key) : e'.call? j = e.call? j :=
    (call?_of_besides hp.besides hj).trans (call?_of_calls hcalls j)
  have hnew {n : NodeKey} (hn : n ∈ given.map (·.node)) (j : CallKey) : n ∉ (b.given j).map (·.node) := fun hn' =>
    ((h.left n).mp ⟨j, hn'⟩).2 ((hd.left n).mp hn).1
  obtain ⟨c', hc', -, horders, hsub, hdocket⟩ := hp.call_account ((call?_of_calls hcalls key).trans hc)
  refine ⟨fun j => ?_, fun j j' n hn hn' => ?_, fun n => ?_, fun j c₁ hj => ?_, fun j c₁ hj => ?_,
    fun j c₁ hj s hs n hn => ?_, fun j hj => ?_⟩
  · by_cases hj : j = key
    · subst hj
      rw [Book.given_add_self, List.map_append, List.nodup_append]
      exact ⟨h.once j, hd.once, fun n hn n' hn' he => hnew (he ▸ hn') j hn⟩
    · rw [Book.given_add_of_ne hj]
      exact h.once j
  · rcases Book.mem_given_add.mp hn with hn | ⟨hj, hn⟩
    · rcases Book.mem_given_add.mp hn' with hn' | ⟨-, hn'⟩
      · exact h.apart j j' n hn hn'
      · exact absurd hn (hnew hn' j)
    · rcases Book.mem_given_add.mp hn' with hn' | ⟨hj', -⟩
      · exact absurd hn' (hnew hn j')
      · exact hj.trans hj'.symm
  · rw [hsize, hactive]
    constructor
    · rintro ⟨j, hn⟩
      rcases Book.mem_given_add.mp hn with hn | ⟨-, hn⟩
      · obtain ⟨hlt, hna⟩ := (h.left n).mp ⟨j, hn⟩
        exact ⟨hlt, fun ha => hna ((hd.stops.dwindles hl).isActive ha)⟩
      · obtain ⟨ha, hna⟩ := (hd.left n).mp hn
        obtain ⟨i, id, ha⟩ := ha
        exact ⟨hl.activeKey?_lt ha, hna⟩
    · rintro ⟨hlt, hna⟩
      by_cases ha : e.IsActive n
      · exact ⟨key, Book.mem_given_add.mpr (.inr ⟨rfl, (hd.left n).mpr ⟨ha, hna⟩⟩)⟩
      · obtain ⟨j, hn⟩ := (h.left n).mpr ⟨hlt, ha⟩
        exact ⟨j, Book.mem_given_add.mpr (.inl hn)⟩
  · rw [hids]
    have hidsOf : e'.idsOfOrders = e.idsOfOrders := by
      unfold idsOfOrders
      rw [hids]
    rw [hidsOf]
    by_cases hk' : j = key
    · subst hk'
      obtain rfl := Option.some.inj (hc'.symm.trans hj)
      rw [Book.given_add_self, idsOfOrders, List.flatMap_append]
      refine (hdocket e.idsOf).trans ?_
      refine (List.Perm.append_left _ hs.ids).trans ?_
      rw [← List.append_assoc]
      exact (h.reported j c hc).append_right _
    · rw [Book.given_add_of_ne hk']
      exact h.reported j c₁ ((hother hk').symm.trans hj)
  · by_cases hk' : j = key
    · subst hk'
      obtain rfl := Option.some.inj (hc'.symm.trans hj)
      rw [Book.given_add_self, Book.served_add_self, horders, List.append_assoc]
      refine (List.Perm.append_left _ hs.orders).trans ?_
      rw [← List.append_assoc]
      exact (h.served j c hc).append_right _
    · rw [Book.given_add_of_ne hk', Book.served_add_of_ne hk']
      exact h.served j c₁ ((hother hk').symm.trans hj)
  · rw [hsize]
    by_cases hk' : j = key
    · subst hk'
      obtain rfl := Option.some.inj (hc'.symm.trans hj)
      exact hk s (hsub s hs) n hn
    · exact h.known j c₁ ((hother hk').symm.trans hj) s hs n hn
  · have hk' : j ≠ key := by
      rintro rfl
      rw [hc'] at hj
      cases hj
    rw [Book.given_add_of_ne hk', Book.served_add_of_ne hk']
    exact h.unknown j ((hother hk').symm.trans hj)

end Engine
end Flowgraph
