import Flowgraph.Proofs.Passages
/-! The messages that a delay node holds. They stand in the order in which they have arrived: first those whose time has
come, then those for which timers stand, and at last those whose tasks have not had their first turns. -/
namespace Flowgraph

/-- A message that is held, the key of its task, and since when. -/
structure Detained where
  key : TaskKey
  since : Nat
  message : Message

namespace Detained

def pending (ms : Nat) (k : NodeKey) (due : Option Nat) (x : Detained) : Pending :=
  ⟨x.key, k, Delay.hold ms x.message, due⟩

def due (ms : Nat) (x : Detained) : Nat := x.since + ms

def arrival (x : Detained) : Nat × Message := (x.since, x.message)

def timer (ms : Nat) (x : Detained) : Timer := ⟨x.due ms, .task x.key⟩

end Detained

/-- All that a delay node holds, in the order of arrival. -/
structure Lane where
  ripe : List Detained
  timed : List Detained
  fresh : List Detained

namespace Lane

def all (q : Lane) : List Detained := q.ripe ++ q.timed ++ q.fresh

def tasks (ms : Nat) (k : NodeKey) (q : Lane) : List Pending :=
  (q.ripe ++ q.timed).map (fun x => x.pending ms k (some (x.due ms))) ++ q.fresh.map (·.pending ms k none)

theorem mem_tasks {ms : Nat} {k : NodeKey} {q : Lane} {p : Pending} (h : p ∈ q.tasks ms k) :
    ∃ x ∈ q.all, p.key = x.key ∧ Engine.Holds ms p := by
  rcases List.mem_append.mp h with h | h
  · obtain ⟨x, hx, rfl⟩ := List.mem_map.mp h
    exact ⟨x, List.mem_append_left _ hx, rfl, x.message, rfl⟩
  · obtain ⟨x, hx, rfl⟩ := List.mem_map.mp h
    exact ⟨x, List.mem_append_right _ hx, rfl, x.message, rfl⟩

theorem keys_tasks (ms : Nat) (k : NodeKey) (q : Lane) : (q.tasks ms k).map (·.key) = q.all.map (·.key) := by
  simp only [tasks, all, List.map_append, List.map_map]
  rfl

end Lane

namespace Engine

variable {e e' : Engine} {k : NodeKey} {ms moment : Nat} {p : Pending} {key : TaskKey} {v : Sight} {q : Lane}
  {leaving : List Pending} {m : Message}

/-- The work of a delay node that has not been told to stop: besides the tasks that are about to end there are those of
the messages that it holds. -/
structure Queued (ms : Nat) (k : NodeKey) (leaving : List Pending) (q : Lane) (v : Sight) : Prop where
  tasks : v.tasks = leaving ++ q.tasks ms k
  woken : v.woken = (q.ripe ++ q.fresh).map (·.key)
  clocks : v.clocks = q.timed.map (·.timer ms)
  /-- The time of the first has come, and that of the others is still to come. -/
  ripe : ∀ x ∈ q.ripe, x.due ms = v.now
  timed : ∀ x ∈ q.timed, v.now < x.due ms
  fresh : ∀ x ∈ q.fresh, x.since = v.now
  order : q.timed.Pairwise fun x y => x.since ≤ y.since
  past : ∀ x ∈ q.timed, x.since ≤ v.now
  holds : ∀ p ∈ leaving, Holds ms p
  putOff : v.putOff = []
  marks : ∃ begun, v.marks = some (false, none, begun) ∧ (v.tasks ≠ [] → begun = true)

namespace Queued

theorem working (h : Queued ms k leaving q v) : Working ms v := by
  refine ⟨fun p hp => ?_, h.marks⟩
  rw [h.tasks] at hp
  rcases List.mem_append.mp hp with hp | hp
  · exact h.holds p hp
  · obtain ⟨x, -, -, hx⟩ := Lane.mem_tasks hp
    exact hx

/-- A message has arrived. -/
theorem take (h : Queued ms k leaving q v) (key : TaskKey) (m : Message) :
    Queued ms k leaving { q with fresh := q.fresh ++ [⟨key, v.now, m⟩] } { v with
      tasks := v.tasks ++ [⟨key, k, Delay.hold ms m, none⟩]
      woken := v.woken ++ [key]
      marks := some (false, none, true) } where
  tasks := by simp [h.tasks, Lane.tasks, Detained.pending]
  woken := by simp [h.woken]
  clocks := h.clocks
  ripe := h.ripe
  timed := h.timed
  fresh _ hx := (List.mem_append.mp hx).elim (h.fresh _) fun hx => by rw [List.mem_singleton.mp hx]
  order := h.order
  past := h.past
  holds := h.holds
  putOff := h.putOff
  marks := ⟨true, rfl, fun _ => rfl⟩

/-- The keys of the tasks are all different. -/
theorem nodup (h : Queued ms k leaving q v) (hv : (v.tasks.map (·.key)).Nodup) :
    (leaving.map (·.key) ++ q.all.map (·.key)).Nodup := by
  rwa [h.tasks, List.map_append, Lane.keys_tasks] at hv

theorem filter_ne_of_not_mem {key : TaskKey} {xs : List TaskKey} (h : key ∉ xs) : xs.filter (· != key) = xs :=
  List.filter_eq_self.mpr fun _ hx => bne_iff_ne.mpr fun he => h (he ▸ hx)

/-- A task that was about to end is over. -/
theorem finish (h : Queued ms k [p] q v) (hv : (v.tasks.map (·.key)).Nodup) : Queued ms k [] q { v with
    tasks := v.tasks.filter (·.key != p.key)
    woken := v.woken.filter (· != p.key)
    clocks := v.clocks.filter fun t => t.alarm.taskKey?.all (· != p.key) } := by
  have hnot : p.key ∉ q.all.map (·.key) := (List.nodup_cons.mp (h.nodup hv)).1
  have hne (x : Detained) (hx : x ∈ q.all) : x.key ≠ p.key := fun he => hnot (he ▸ List.mem_map_of_mem hx)
  have htasks : v.tasks.filter (·.key != p.key) = q.tasks ms k := by
    rw [h.tasks, List.singleton_append, List.filter_cons_of_neg (by simp)]
    refine List.filter_eq_self.mpr fun p' hp' => ?_
    obtain ⟨x, hx, hkey, -⟩ := Lane.mem_tasks hp'
    simpa [hkey] using hne x hx
  refine ⟨by simpa using htasks, ?_, ?_, h.ripe, h.timed, h.fresh, h.order, h.past, nofun, h.putOff, ?_⟩
  · change v.woken.filter _ = _
    rw [h.woken]
    refine filter_ne_of_not_mem fun hm => hnot ?_
    obtain ⟨x, hx, hkey⟩ := List.mem_map.mp hm
    exact List.mem_map.mpr ⟨x, by simp only [Lane.all, List.mem_append] at hx ⊢; tauto, hkey⟩
  · change v.clocks.filter _ = _
    rw [h.clocks]
    refine List.filter_eq_self.mpr fun t ht => ?_
    obtain ⟨x, hx, rfl⟩ := List.mem_map.mp ht
    have hx' : x ∈ q.all := List.mem_append_left _ (List.mem_append_right _ hx)
    simpa [Detained.timer, Alarm.taskKey?] using hne x hx'
  · obtain ⟨begun, hm, hbegun⟩ := h.marks
    refine ⟨begun, hm, fun hne => hbegun fun hnil => hne ?_⟩
    change v.tasks.filter _ = _
    rw [hnil]
    rfl

/-! ### Time -/

theorem filter_append_filter_not {α : Type} {f : α → Bool} {xs : List α}
    (h : xs.Pairwise fun x y => f y = true → f x = true) : xs.filter f ++ xs.filter (fun x => !f x) = xs := by
  induction xs with
  | nil => rfl
  | cons x xs ih =>
    obtain ⟨hx, hxs⟩ := List.pairwise_cons.mp h
    cases hf : f x with
    | true => simp [hf, ih hxs]
    | false =>
      have hnone : xs.filter f = [] := List.filter_eq_nil_iff.mpr fun y hy hfy => by
        rw [hx y hy hfy] at hf
        cases hf
      have hall : xs.filter (fun x => !f x) = xs := by
        refine List.filter_eq_self.mpr fun y hy => ?_
        have hfy := List.filter_eq_nil_iff.mp hnone y hy
        simpa using hfy
      simp [hf, hnone, hall]

/-- Those whose time comes join the first, when time moves to their moment. -/
theorem time (h : Queued ms k [] q v) (hon : v.now ≤ moment) (hdue : ∀ x ∈ q.timed, moment ≤ x.due ms ∨ moment = v.now)
    (hidle : moment = v.now ∨ v.woken = []) :
    ∃ q', q'.all = q.all ∧ Queued ms k [] q' { v with
      now := moment
      woken := v.woken ++ (v.clocks.filter (·.due ≤ moment)).filterMap (·.alarm.taskKey?)
      clocks := v.clocks.filter fun t => !decide (t.due ≤ moment) } := by
  have hsplit : q.timed.filter (fun x => decide (x.due ms ≤ moment)) ++
      q.timed.filter (fun x => !decide (x.due ms ≤ moment)) = q.timed := by
    refine filter_append_filter_not (h.order.imp fun hxy hy => ?_)
    have hy := of_decide_eq_true hy
    simp only [Detained.due] at hy ⊢
    exact decide_eq_true (by omega)
  have hwoken : (v.clocks.filter (·.due ≤ moment)).filterMap (·.alarm.taskKey?) =
      (q.timed.filter fun x => decide (x.due ms ≤ moment)).map (·.key) := by
    rw [h.clocks, List.filter_map, List.filterMap_map, ← List.filterMap_eq_map]
    rfl
  refine ⟨⟨q.ripe ++ q.timed.filter fun x => decide (x.due ms ≤ moment),
    q.timed.filter fun x => !decide (x.due ms ≤ moment), q.fresh⟩, ?_, ?_⟩
  · simp only [Lane.all, List.append_assoc]
    rw [← List.append_assoc (q.timed.filter _), hsplit]
  have htasks : (q.ripe ++ q.timed.filter fun x => decide (x.due ms ≤ moment)) ++
      q.timed.filter (fun x => !decide (x.due ms ≤ moment)) = q.ripe ++ q.timed := by
    rw [List.append_assoc, hsplit]
  -- nobody is waiting for his turn when time moves on
  have hfresh : moment = v.now ∨ q.ripe = [] ∧ q.fresh = [] := hidle.imp_right fun hw => by
    rw [h.woken] at hw
    exact List.append_eq_nil_iff.mp (List.map_eq_nil_iff.mp hw)
  refine ⟨?_, ?_, ?_, fun x hx => ?_, fun x hx => ?_, fun x hx => ?_, h.order.sublist List.filter_sublist, fun x hx => ?_,
    nofun, h.putOff, h.marks⟩
  · change v.tasks = _
    rw [h.tasks, Lane.tasks, Lane.tasks, htasks]
  · change v.woken ++ _ = _
    rw [hwoken, h.woken]
    rcases hfresh with hsame | ⟨hr, hf⟩
    · have hnone : (q.timed.filter fun x => decide (x.due ms ≤ moment)) = [] := by
        refine List.filter_eq_nil_iff.mpr fun x hx => ?_
        have := h.timed x hx
        simpa using hsame ▸ this
      rw [hnone, List.map_nil, List.append_nil, List.append_nil]
    · simp [hr, hf]
  · change v.clocks.filter _ = _
    rw [h.clocks, List.filter_map]
    rfl
  · rcases List.mem_append.mp hx with hx | hx
    · rcases hfresh with hsame | ⟨hr, -⟩
      · exact (h.ripe x hx).trans hsame.symm
      · rw [hr] at hx
        cases hx
    · obtain ⟨hx, hle⟩ := List.mem_filter.mp hx
      have hle : x.due ms ≤ moment := of_decide_eq_true hle
      rcases hdue x hx with hge | hsame
      · exact Nat.le_antisymm hle hge
      · exact absurd (h.timed x hx) (Nat.not_lt.mpr (hsame ▸ hle))
  · obtain ⟨-, hlt⟩ := List.mem_filter.mp hx
    simpa using hlt
  · rcases hfresh with hsame | ⟨-, hf⟩
    · exact (h.fresh x hx).trans hsame.symm
    · rw [show q.fresh = [] from hf] at hx
      cases hx
  · exact Nat.le_trans (h.past x (List.mem_filter.mp hx).1) hon

/-! ### Turns -/

/-- Whose turn it is: that of the first whose time has come, or of the first that has not had its first turn. -/
theorem first (h : Queued ms k [] q v) (hv : (v.tasks.map (·.key)).Nodup) (hp : p ∈ v.tasks)
    (hfirst : v.woken.head? = some p.key) :
    (∃ x ripe, q.ripe = x :: ripe ∧ p = x.pending ms k (some (x.due ms))) ∨
    ∃ x fresh, q.ripe = [] ∧ q.fresh = x :: fresh ∧ p = x.pending ms k none := by
  have hunique {r : Pending} (hr : r ∈ q.tasks ms k) (hkey : r.key = p.key) : p = r := by
    have hrv : r ∈ v.tasks := by rw [h.tasks]; exact hr
    exact List.inj_on_of_nodup_map hv hp hrv hkey.symm
  rw [h.woken] at hfirst
  cases hr : q.ripe with
  | cons x ripe =>
    rw [hr] at hfirst
    exact .inl ⟨x, ripe, rfl, hunique (r := x.pending ms k (some (x.due ms)))
      (by simp [Lane.tasks, hr]) (Option.some.inj hfirst)⟩
  | nil =>
    cases hf : q.fresh with
    | nil =>
      rw [hr, hf] at hfirst
      cases hfirst
    | cons x fresh =>
      rw [hr, hf] at hfirst
      exact .inr ⟨x, fresh, rfl, rfl, hunique (r := x.pending ms k none)
        (by simp [Lane.tasks, hf]) (Option.some.inj hfirst)⟩

/-- The first whose time has come has its turn. -/
theorem release {x : Detained} {ripe : List Detained} (h : Queued ms k [] q v) (hv : (v.tasks.map (·.key)).Nodup)
    (hq : q.ripe = x :: ripe) : Queued ms k [x.pending ms k (some (x.due ms))] { q with ripe }
      { v with woken := v.woken.filter (· != x.key) } := by
  have hnodup := h.nodup hv
  have hnot : x.key ∉ (ripe ++ q.fresh).map (·.key) := by
    simp only [List.map_nil, List.nil_append, Lane.all, hq, List.cons_append, List.map_cons, List.nodup_cons] at hnodup
    intro hm
    refine hnodup.1 ?_
    simp only [List.map_append, List.mem_append] at hm ⊢
    tauto
  refine ⟨?_, ?_, h.clocks, fun y hy => h.ripe y (hq ▸ List.mem_cons_of_mem x hy), h.timed, h.fresh, h.order, h.past,
    fun p hp => ?_, h.putOff, h.marks⟩
  · change v.tasks = _
    simp [h.tasks, Lane.tasks, hq]
  · change v.woken.filter _ = _
    rw [h.woken, hq, List.cons_append, List.map_cons, List.filter_cons_of_neg (by simp)]
    exact filter_ne_of_not_mem hnot
  · obtain rfl := List.mem_singleton.mp hp
    exact ⟨x.message, rfl⟩

/-- Where there is no time to wait, the first that has arrived has its turn. -/
theorem releaseFresh {x : Detained} {fresh : List Detained} (h : Queued ms k [] q v) (hv : (v.tasks.map (·.key)).Nodup)
    (hr : q.ripe = []) (hq : q.fresh = x :: fresh) (hms : ms = 0) :
    q.timed = [] ∧ Queued ms k [x.pending ms k none] { q with fresh } { v with woken := v.woken.filter (· != x.key) } := by
  have htimed : q.timed = [] := by
    refine List.eq_nil_iff_forall_not_mem.mpr fun y hy => ?_
    have hlt := h.timed y hy
    have hle := h.past y hy
    simp only [Detained.due] at hlt
    omega
  have hnodup := h.nodup hv
  have hnot : x.key ∉ fresh.map (·.key) := by
    simp only [List.map_nil, List.nil_append, Lane.all, hr, htimed, hq, List.map_cons, List.nodup_cons] at hnodup
    exact hnodup.1
  refine ⟨htimed, ?_, ?_, h.clocks, h.ripe, h.timed, fun y hy => h.fresh y (hq ▸ List.mem_cons_of_mem x hy), h.order, h.past,
    fun p hp => ?_, h.putOff, h.marks⟩
  · change v.tasks = _
    simp [h.tasks, Lane.tasks, hr, htimed, hq]
  · change v.woken.filter _ = _
    rw [h.woken, hq, hr, List.nil_append, List.map_cons, List.filter_cons_of_neg (by simp)]
    exact filter_ne_of_not_mem hnot
  · obtain rfl := List.mem_singleton.mp hp
    exact ⟨x.message, rfl⟩

/-- The first that has arrived begins to wait. -/
theorem sleep {x : Detained} {fresh : List Detained} (h : Queued ms k [] q v) (hv : (v.tasks.map (·.key)).Nodup)
    (hr : q.ripe = []) (hq : q.fresh = x :: fresh) (hms : 0 < ms) :
    Queued ms k [] { q with timed := q.timed ++ [x], fresh } { v with
      tasks := v.tasks.map fun p => if p.key = x.key then { p with due := some (v.now + ms) } else p
      woken := v.woken.filter (· != x.key)
      clocks := v.clocks ++ [⟨v.now + ms, .task x.key⟩] } := by
  have hsince : x.since = v.now := h.fresh x (hq ▸ List.mem_cons_self)
  have hnodup := h.nodup hv
  have hnot : x.key ∉ q.timed.map (·.key) ∧ x.key ∉ fresh.map (·.key) := by
    simp only [List.map_nil, List.nil_append, Lane.all, hr, hq, List.map_append, List.map_cons] at hnodup
    obtain ⟨-, hnd, hapart⟩ := List.nodup_append.mp hnodup
    exact ⟨fun hm => hapart _ hm _ List.mem_cons_self rfl, (List.nodup_cons.mp hnd).1⟩
  have hdue : some (v.now + ms) = some (x.due ms) := by rw [Detained.due, hsince]
  have hstay (xs : List Detained) (due : Detained → Option Nat) (hxs : x.key ∉ xs.map (·.key)) :
      (xs.map fun y => y.pending ms k (due y)).map (fun p => if p.key = x.key then { p with due := some (v.now + ms) }
        else p) = xs.map fun y => y.pending ms k (due y) := by
    rw [List.map_map]
    refine List.map_congr_left fun y hy => if_neg fun he => hxs ?_
    exact List.mem_map.mpr ⟨y, hy, he⟩
  refine ⟨?_, ?_, ?_, ?_, fun y hy => ?_, fun y hy => ?_, ?_, fun y hy => ?_, nofun, h.putOff, ?_⟩
  · change v.tasks.map _ = _
    rw [h.tasks, List.nil_append, Lane.tasks, hr, hq, List.nil_append, List.map_append, List.map_cons, List.map_cons,
      hstay _ _ hnot.1, hstay fresh (fun _ => none) hnot.2]
    simp [Lane.tasks, Detained.pending, hdue]
  · change v.woken.filter _ = _
    rw [h.woken, hq, hr, List.nil_append, List.map_cons, List.filter_cons_of_neg (by simp)]
    exact filter_ne_of_not_mem hnot.2
  · change v.clocks ++ _ = _
    rw [h.clocks, List.map_append, List.map_cons, List.map_nil, Detained.timer, Detained.due, hsince]
  · rw [hr]
    nofun
  · rcases List.mem_append.mp hy with hy | hy
    · exact h.timed y hy
    · obtain rfl := List.mem_singleton.mp hy
      simp only [Detained.due]
      omega
  · exact h.fresh y (hq ▸ List.mem_cons_of_mem x hy)
  · refine List.pairwise_append.mpr ⟨h.order, List.pairwise_singleton _ _, fun y hy z hz => ?_⟩
    obtain rfl := List.mem_singleton.mp hz
    exact hsince ▸ h.past y hy
  · rcases List.mem_append.mp hy with hy | hy
    · exact h.past y hy
    · obtain rfl := List.mem_singleton.mp hy
      exact Nat.le_of_eq hsince
  · obtain ⟨begun, hm, hbegun⟩ := h.marks
    refine ⟨begun, hm, fun _ => hbegun ?_⟩
    rw [h.tasks, Lane.tasks, hq]
    simp

end Queued

end Engine
end Flowgraph
