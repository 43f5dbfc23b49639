import Flowgraph.Proofs.Clockwork
/-! Stops that run on time. As long as time does not run away from what is to be done, every node that a stop has asked
is judged by its own signal if that comes before the deadline, and by the deadline otherwise. -/
namespace Flowgraph
namespace Engine

variable {e e' e'' m s : Engine} {i j : Nat} {k n : NodeKey} {key : CallKey} {ns : List NodeKey} {D : Nat} {c : Call}
  {b : Book} {given : List Order} {base : Tally} {js ks : List (Order × Verdict)}

/-! ## Runs on time -/

/-- Time may move on to this moment: nothing is left to do, and nobody waits for an earlier timer. -/
structure OnTime (e : Engine) (moment : Nat) : Prop where
  idle : e.agenda = [] ∧ e.ready = [] ∧ e.putOff = []
  onward : e.now ≤ moment
  before : ∀ t ∈ e.timers, e.isAwaited t = true → moment ≤ t.due

/-- The engine's own clock moves on time: to the next timer, or less far. -/
theorem onTime_of_nextDue? {moment : Nat} (hi : e.agenda = [] ∧ e.ready = [] ∧ e.putOff = []) (hon : e.now ≤ moment)
    (hd : ∀ due, e.nextDue? = some due → moment ≤ due) : e.OnTime moment := by
  refine ⟨hi, hon, fun t ht haw => ?_⟩
  have hmem : t.due ∈ (e.timers.filter e.isAwaited).map (·.due) :=
    List.mem_map_of_mem (List.mem_filter.mpr ⟨ht, haw⟩)
  cases hmin : ((e.timers.filter e.isAwaited).map (·.due)).min? with
  | none =>
    rw [List.min?_eq_none_iff.mp hmin] at hmem
    cases hmem
  | some due => exact (hd due hmin).trans ((List.min?_eq_some_iff.mp hmin).2 _ hmem)

/-- One step of an engine, by itself or because something is asked of it. Time moves on time; and what is asked from
outside leaves the clock to the engine and signals to the nodes. -/
inductive Prompt (e e' : Engine) : Prop
  | runs (ht : Tick e e') (hc : e'.now = e.now ∨ e.OnTime e'.now)
  | asked (ha : e.agenda = []) (hi : Input e e') (hs : Tranquil [] e e')

namespace Prompt

theorem reachable (h : Prompt e e') (hr : Reachable e) : Reachable e' := by
  cases h with
  | runs ht => exact hr.tick ht
  | asked ha hi => exact hr.input ha hi

theorem grows (h : Prompt e e') : Grows e e' := by
  cases h with
  | runs ht => exact ht.grows
  | asked _ hi => exact hi.grows

theorem now_le (h : Prompt e e') : e.now ≤ e'.now := by
  cases h with
  | runs _ hc =>
    rcases hc with hc | hc
    · exact Nat.le_of_eq hc.symm
    · exact hc.onward
  | asked _ _ hs => exact Nat.le_of_eq hs.now.symm

/-- Orders that have been given stay in the books. -/
theorem ledger (h : Prompt e e') (hr : Reachable e) (hb : Ledger e b) (key : CallKey) :
    ∃ b', Ledger e' b' ∧ ∀ o ∈ b.given key, o ∈ b'.given key := by
  cases h with
  | runs ht =>
    obtain ⟨b', hentry, hb', -⟩ := hb.tick hr hr.books.1 ht
    refine ⟨b', hb', fun o ho => ?_⟩
    cases hentry with
    | nothing => exact ho
    | @begins j =>
      by_cases hj : key = j
      · subst hj
        rw [Book.given_add_self]
        exact List.mem_append_left _ ho
      · rwa [Book.given_add_of_ne hj]
    | @goesOn j =>
      by_cases hj : key = j
      · subst hj
        rw [Book.given_add_self]
        exact List.mem_append_left _ ho
      · rwa [Book.given_add_of_ne hj]
  | asked _ hi => exact ⟨b, hb.input hr.keysBelow hi, fun _ ho => ho⟩

end Prompt

/-! ## Nodes stay what they are -/

theorem Grows.part (h : Grows e e') {node : Node} (hn : e.node? n = some node) :
    ∃ node', e'.node? n = some node' ∧ node'.part = node.part := by
  obtain ⟨node', hn', hkin⟩ := h.node n node hn
  exact ⟨node', hn', hkin.part⟩

theorem Grows.known (h : Grows e e') (hn : n < e.nodes.size) : n < e'.nodes.size := by
  obtain ⟨node, hnode⟩ := Option.isSome_iff_exists.mp ((lt_size_iff e n).mp hn)
  obtain ⟨node', hnode', -⟩ := h.part hnode
  exact (lt_size_iff e' n).mpr (Option.isSome_iff_exists.mpr ⟨node', hnode'⟩)

theorem Grows.standsIn (h : Grows e e') (hb : e.StandsIn n) : e'.StandsIn n := by
  obtain ⟨node, inst, hn, hp⟩ := hb
  obtain ⟨node', hn', hpart⟩ := h.part hn
  exact ⟨node', inst, hn', hpart.trans hp⟩

theorem Grows.blowsUp_iff (h : Grows e e') {o : Order} (hk : o.node < e.nodes.size) : e'.BlowsUp o ↔ e.BlowsUp o := by
  obtain ⟨node, hn⟩ := Option.isSome_iff_exists.mp ((lt_size_iff e _).mp hk)
  obtain ⟨node', hn', hpart⟩ := h.part hn
  simp only [BlowsUp, hn, hn', Option.some.injEq, exists_and_left, exists_eq_left', hpart]

theorem Grows.entries (h : Grows e e') (hk : ∀ j ∈ js, j.1.node < e.nodes.size) : e'.entries js = e.entries js := by
  unfold Engine.entries
  refine congrArg List.sum (List.map_congr_left fun j hj => ?_)
  have hids : e'.idsOfOrders [j.1] = e.idsOfOrders [j.1] := h.idsOfOrders fun o ho => by
    rw [List.mem_singleton.mp ho]
    exact hk j hj
  simp only [Engine.idsOfOrders, List.flatMap_cons, List.flatMap_nil, List.append_nil] at hids
  rw [entry, entry, hids]

/-! ## What a call waits for -/

mutual
theorem nodes_pending_closing : (c : Closing) → c.pending.map (·.node) ⊆ c.nodes
  | .inner node removed stop => by
    intro n hn
    rw [Closing.pending, List.map_append] at hn
    rcases List.mem_append.mp hn with hn | hn
    · exact List.mem_cons_of_mem _ (nodes_pending stop hn)
    · exact List.mem_cons.mpr (.inl (List.mem_singleton.mp hn))
  | .asked .. => List.Subset.refl _
  | .done _ => List.Subset.refl _

/-- The nodes under way are those that the stop waits for. -/
theorem nodes_pending : (s : Stopping) → s.pending.map (·.node) ⊆ s.nodes
  | .running _ _ _ _ closings => nodes_pendingOf closings
  | .finished _ => List.Subset.refl _

theorem nodes_pendingOf : (cs : List Closing) → (Stopping.pendingOf cs).map (·.node) ⊆ Stopping.nodesOf cs
  | [] => List.Subset.refl _
  | c :: cs => by
    intro n hn
    rw [Stopping.pendingOf, List.map_append] at hn
    rcases List.mem_append.mp hn with hn | hn
    · exact List.mem_append_left _ (nodes_pending_closing c hn)
    · exact List.mem_append_right _ (nodes_pendingOf cs hn)
end

/-- What is under way when all stops have finished, and what has been reported. -/
theorem files_reports {stops : List Stopping} (h : ¬(reports stops).length < stops.length) :
    stops.flatMap Stopping.pending = [] ∧
      (stops.map Stopping.tally).sum = ((reports stops).map StopReport.tally).sum := by
  induction stops with
  | nil => exact ⟨rfl, rfl⟩
  | cons s stops ih =>
    have hle : (reports stops).length ≤ stops.length := List.length_filterMap_le _ _
    cases s with
    | finished report =>
      have hr : reports (.finished report :: stops) = report :: reports stops := rfl
      rw [hr, List.length_cons, List.length_cons] at h
      obtain ⟨hp, ht⟩ := ih (by omega)
      rw [hr, List.map_cons, List.map_cons, List.sum_cons, List.sum_cons, ← ht]
      exact ⟨hp, rfl⟩
    | running k full previous backward closings =>
      have hr : (reports stops).length < stops.length + 1 := by omega
      exact absurd hr h

/-- While stops have not finished, some node has been asked. -/
theorem deadlines_ne_nil {stops : List Stopping} (h : (reports stops).length < stops.length)
    (ha : ∀ stop ∈ stops, stop.Alive) : stops.flatMap Stopping.deadlines ≠ [] := by
  intro hnil
  induction stops with
  | nil => exact absurd h (Nat.lt_irrefl _)
  | cons stop stops ih =>
    rw [List.flatMap_cons, List.append_eq_nil_iff] at hnil
    obtain ⟨report, rfl⟩ := (ha stop List.mem_cons_self).resolve_left fun hne => hne hnil.1
    have hr : reports (.finished report :: stops) = report :: reports stops := rfl
    rw [hr, List.length_cons, List.length_cons] at h
    exact ih (Nat.lt_of_succ_lt_succ h) (fun s hs => ha s (List.mem_cons_of_mem _ hs)) hnil.2

/-- Only the nodes and the time matter to a verdict. -/
theorem Judges.of_nodes {o : Order} {v : Verdict} (h : Judges D m e' o v) (hn : m.nodes = e.nodes)
    (ht : m.now = e.now) :
    Judges D e e' o v := by
  have hnode (n : NodeKey) : m.node? n = e.node? n := by
    unfold node?
    rw [hn]
  have hsignal (n : NodeKey) : m.signal? n = e.signal? n := by
    unfold signal?
    rw [hnode]
  have hblows : m.BlowsUp o ↔ e.BlowsUp o := by simp only [BlowsUp, hnode]
  cases h with
  | signalled hq hs => exact .signalled (fun hb => hq (hblows.mpr hb)) hs
  | overdue hq hd hs => exact .overdue (fun hb => hq (hblows.mpr hb)) (ht ▸ hd) ((hsignal _).symm.trans hs)
  | blownUp hb => exact .blownUp (hblows.mp hb)
  | nobody hn => exact .nobody ((hnode _).symm.trans hn)

/-- A stop stage of a call that has given these orders. -/
structure Closes (D : Nat) (key : CallKey) (s : Engine) (given : List Order) (base : Tally) (e : Engine) (c : Call)
    (js : List (Order × Verdict)) : Prop where
  call : e.call? key = some c
  /-- Each of the nodes has its verdict, or its close is under way. -/
  orders : (js.map (·.1) ++ c.waiting.flatMap Stopping.pending).Perm given
  tally : c.report.tally + (c.waiting.map Stopping.tally).sum = base + s.entries js
  underway : Pursued D key e (c.waiting.flatMap Stopping.pending) (c.waiting.flatMap Stopping.orders)
    (c.waiting.flatMap Stopping.deadlines)
  within : ∀ a ∈ c.waiting.flatMap Stopping.deadlines, a.1 ∈ (c.waiting.flatMap Stopping.pending).map (·.node)
  /-- If anything can be done about a node, the call is roused. -/
  idle : ∀ a ∈ c.waiting.flatMap Stopping.deadlines, e.Roused key ∨ e.Waits a
  alive : c.waiting ≠ [] → c.waiting.flatMap Stopping.deadlines ≠ []
  onTime : e.now ≤ D

/-- The nodes that have been asked. -/
def askedNodes (c : Call) : List NodeKey := (c.waiting.flatMap Stopping.deadlines).map (·.1)

namespace Closes

theorem attends (h : Closes D key s given base e c js) : e.Attends key (askedNodes c) := by
  intro n hn
  obtain ⟨a, ha, rfl⟩ := List.mem_map.mp hn
  obtain ⟨o, ho, ho'⟩ := List.mem_map.mp (h.within a ha)
  obtain ⟨stop, hs, ho⟩ := List.mem_flatMap.mp ho
  exact ⟨c, h.call, stop, hs, nodes_pending stop (List.mem_map.mpr ⟨o, ho, ho'⟩)⟩

theorem asked_given (h : Closes D key s given base e c js) (hn : n ∈ askedNodes c) : n ∈ given.map (·.node) := by
  obtain ⟨a, ha, rfl⟩ := List.mem_map.mp hn
  refine (h.orders.map _).subset ?_
  rw [List.map_append]
  exact List.mem_append_right _ (h.within a ha)

/-- Whatever else happens, the orders under way stay what they are. -/
theorem later (h : Closes D key s given base e c js) (hg : Grows e e') (hk : ∀ o ∈ given, o.node < e.nodes.size)
    (ha : ∀ a ∈ c.waiting.flatMap Stopping.deadlines, Heeded D key e' a) :
    Pursued D key e' (c.waiting.flatMap Stopping.pending) (c.waiting.flatMap Stopping.orders)
      (c.waiting.flatMap Stopping.deadlines) :=
  ⟨h.underway.once, fun o ho hb => h.underway.calm o ho
      ((hg.blowsUp_iff (hk o (h.orders.subset (List.mem_append_right _ ho)))).mp hb),
    fun o ho => hg.standsIn (h.underway.standsIn o ho), ha⟩

/-- Steps by which nothing is missed. -/
theorem heeds (h : Closes D key s given base e c js) (hh : Heeds key (askedNodes c) e e')
    (hc : e'.call? key = some c) (hg : Grows e e') (hk : ∀ o ∈ given, o.node < e.nodes.size) :
    Closes D key s given base e' c js := by
  refine { h with
    call := hc
    underway := h.later hg hk fun a ha => ?_
    idle := fun a ha => ?_
    onTime := hh.now ▸ h.onTime }
  · obtain ⟨honTime, htimer⟩ := h.underway.awaits a ha
    refine ⟨honTime.imp id fun hs => ?_, fun hlt => hh.timers _ (htimer (hh.now ▸ hlt))⟩
    obtain ⟨r, hr⟩ := Option.isSome_iff_exists.mp hs
    rw [hh.kept _ _ hr]
    rfl
  · rcases h.idle a ha with hr | hw
    · exact .inl (hh.roused hr)
    · rcases hh.heard a.1 (List.mem_map_of_mem ha) with hs | hr
      · exact .inr ⟨hs.trans hw.1, hh.now ▸ hw.2⟩
      · exact .inl hr

theorem isAwaited (h : Closes D key s given base e c js) {a : NodeKey × Nat}
    (ha : a ∈ c.waiting.flatMap Stopping.deadlines) : e.isAwaited ⟨a.2, .deadline key a.1⟩ = true := by
  obtain ⟨c', hc', stop, hs, hn⟩ := h.attends a.1 (List.mem_map_of_mem ha)
  obtain rfl := Option.some.inj (h.call.symm.trans hc')
  simp only [Engine.isAwaited, h.call, Option.map_some, Option.getD_some]
  exact List.any_eq_true.mpr ⟨stop, hs, by simpa using hn⟩

/-- Time does not move on while there is something to be done, and not beyond the deadline. -/
theorem not_late {moment : Nat} (h : Closes D key s given base e c js) (hw : c.waiting ≠ []) (hon : e.OnTime moment) :
    moment ≤ D := by
  obtain ⟨a, ha⟩ := List.exists_mem_of_ne_nil _ (h.alive hw)
  have hnot : ¬e.Roused key := by
    rintro (hm | hm | hm)
    · rw [hon.idle.2.1] at hm
      cases hm
    · rw [hon.idle.2.2] at hm
      cases hm
    · rw [hon.idle.1] at hm
      cases hm
  have hwait := (h.idle a ha).resolve_left hnot
  obtain ⟨honTime, htimer⟩ := h.underway.awaits a ha
  have hdue : a.2 = D := honTime.resolve_right (by simp [hwait.1])
  exact hdue ▸ hon.before _ (htimer hwait.2) (h.isAwaited ha)

/-- Time moves. -/
theorem moveTo {moment : Nat} (h : Closes D key s given base e c js) (ha : e.agenda = []) (hon : e.now ≤ moment)
    (hD : moment ≤ D) (hk : ∀ o ∈ given, o.node < e.nodes.size) : Closes D key s given base (e.moveTo moment) c js := by
  have hm := moves_moveTo ha moment
  refine { h with
    call := (call?_of_still (quiet_moveTo e moment).still key).trans h.call
    underway := h.later (Tick.grows (.time moment)) hk fun a hd => ?_
    idle := fun a hd => ?_
    onTime := hm.now.le.trans hD }
  · obtain ⟨honTime, htimer⟩ := h.underway.awaits a hd
    refine ⟨honTime.imp id fun hs => (hm.signals a.1).symm ▸ hs, fun hlt => ?_⟩
    rw [hm.now] at hlt
    have ht := hm.timers _ (htimer (Nat.lt_of_le_of_lt hon hlt)) (h.isAwaited hd)
    rwa [if_neg (Nat.not_le_of_lt hlt)] at ht
  · rcases h.idle a hd with hr | hw
    · exact .inl (hm.roused key hr)
    · have ht := hm.timers _ ((h.underway.awaits a hd).timer hw.2) (h.isAwaited hd)
      split at ht
      · exact .inl (.inl ht)
      · rename_i hlt
        exact .inr ⟨(hm.signals a.1).trans hw.1, hm.now.trans_lt (Nat.lt_of_not_le hlt)⟩

end Closes

/-! ## Going on with the stops -/

/-- Stops that go on side by side. -/
theorem goes_pollStops (key : CallKey) (stops : List Stopping) (s : Engine × List Stopping)
    (h : Pursued D key s.1 (stops.flatMap Stopping.pending) (stops.flatMap Stopping.orders)
      (stops.flatMap Stopping.deadlines)) :
    ∃ stops', (pollStops key s stops).2 = s.2 ++ stops' ∧
      Goes D key s.1 (pollStops key s stops).1 (stops.flatMap Stopping.pending) (stops'.flatMap Stopping.pending)
        (stops'.flatMap Stopping.deadlines) (stops.map Stopping.tally).sum (stops'.map Stopping.tally).sum ∧
      (∀ stop ∈ stops', stop.Alive) ∧ stops'.flatMap Stopping.orders ⊆ stops.flatMap Stopping.orders := by
  induction stops generalizing s with
  | nil =>
    exact ⟨[], (List.append_nil _).symm, ⟨[], .idle (.refl _) (.refl _ _), (add_zero _).symm⟩, by simp,
      List.Subset.refl _⟩
  | cons stop stops ih =>
    have hg := goes_pollStop key s.1 stop (Pursued.left h)
    have hnext := (Pursued.right h).later hg.stops hg.tranquil
    obtain ⟨stops', hs, hg', ha, ho⟩ := ih ((pollStop key s.1 stop).1, s.2 ++ [(pollStop key s.1 stop).2]) hnext
    obtain ⟨served, hserve⟩ := serving_pollStop key s.1 stop
    have horders : (pollStop key s.1 stop).2.orders ⊆ stop.orders := fun o hm =>
      hserve.orders.subset (List.mem_append_right _ hm)
    refine ⟨(pollStop key s.1 stop).2 :: stops', hs.trans (by simp), ?_,
      List.forall_mem_cons.mpr ⟨alive_pollStop key s.1 stop, ha⟩, List.append_subset.mpr
        ⟨List.Subset.trans horders (List.subset_append_left _ _), List.Subset.trans ho (List.subset_append_right _ _)⟩⟩
    rw [List.map_cons, List.map_cons, List.sum_cons, List.sum_cons]
    exact hg.append hg' (Pursued.apart h)

/-- A call that takes up its stops waits for them, and is roused if the turn has no room left; or it has taken their
reports into its own. -/
theorem afterStops_cases (e : Engine) (key : CallKey) (stops : List Stopping) :
    ((reports stops).length < stops.length ∧ ∃ e', e.afterStops key stops = e' ∧
      (∀ j, e'.call? j = (e.modifyCall key fun c => { c with waiting := stops }).call? j) ∧
      (e.room = 0 → e'.Roused key)) ∨
    ¬(reports stops).length < stops.length ∧ e.afterStops key stops = (e.modifyCall key fun c =>
      { c with waiting := [], report := (reports stops).foldl (· ++ ·) c.report }).push [.resume key] := by
  by_cases h : (reports stops).length < stops.length
  · have he : e.afterStops key stops =
        if (e.modifyCall key fun c => { c with waiting := stops }).room = 0 then
          { e.modifyCall key fun c => { c with waiting := stops } with
            putOff := .call key :: (e.modifyCall key fun c => { c with waiting := stops }).putOff }
        else e.modifyCall key fun c => { c with waiting := stops } := if_pos h
    refine .inl ⟨h, _, he, fun j => ?_, fun hr => ?_⟩
    · split <;> rfl
    · split
      · exact .inr (.inl List.mem_cons_self)
      · exact absurd hr ‹_›
  · exact .inr ⟨h, if_neg h⟩

/-- The call takes up its stops again. -/
theorem Closes.takeUp {stops : List Stopping} (hc : m.call? key = some c)
    (ho : (js.map (·.1) ++ stops.flatMap Stopping.pending).Perm given)
    (ht : c.report.tally + (stops.map Stopping.tally).sum = base + s.entries js)
    (hu : Pursued D key m (stops.flatMap Stopping.pending) (stops.flatMap Stopping.orders)
      (stops.flatMap Stopping.deadlines))
    (hin : ∀ a ∈ stops.flatMap Stopping.deadlines, a.1 ∈ (stops.flatMap Stopping.pending).map (·.node))
    (hw : ∀ a ∈ stops.flatMap Stopping.deadlines, m.Waits a ∨ m.room = 0) (ha : ∀ stop ∈ stops, stop.Alive)
    (hn : m.now ≤ D) : ∃ c', Closes D key s given base (m.afterStops key stops) c' js ∧ c'.stages = c.stages := by
  have hst : Tranquil [] m (m.afterStops key stops) := tranquil_afterStops m key stops
  have hface (n : NodeKey) : (m.afterStops key stops).node? n = m.node? n := by
    unfold afterStops
    dsimp only
    split
    · split <;> rfl
    · rfl
  have hbuilt (n : NodeKey) : (m.afterStops key stops).StandsIn n ↔ m.StandsIn n := by simp only [StandsIn, hface]
  have hblows (o : Order) : (m.afterStops key stops).BlowsUp o ↔ m.BlowsUp o := by simp only [BlowsUp, hface]
  rcases afterStops_cases m key stops with ⟨hlt, e', he, hcall, hroused⟩ | ⟨hlt, he⟩
  · rw [he] at hst hbuilt hblows ⊢
    have hcall' : e'.call? key = some { c with waiting := stops } := by
      rw [hcall, call?_modifyCall, if_pos rfl, hc]
      rfl
    refine ⟨{ c with waiting := stops }, ⟨hcall', ho, ht, ?_, hin, fun a hm => ?_, fun _ => deadlines_ne_nil hlt ha,
      hst.now ▸ hn⟩, rfl⟩
    · exact ⟨hu.once, fun o hm hb => hu.calm o hm ((hblows o).mp hb),
        fun o hm => (hbuilt o.node).mpr (hu.standsIn o hm),
        fun a hm => (hu.awaits a hm).tranquil hst⟩
    · rcases hw a hm with hw | hr
      · exact .inr ⟨(hst.frame _ List.not_mem_nil).trans hw.1, hst.now ▸ hw.2⟩
      · exact .inl (hroused hr)
  · obtain ⟨hp, hsum⟩ := files_reports hlt
    have hcall : (m.afterStops key stops).call? key =
        some { c with waiting := [], report := (reports stops).foldl (· ++ ·) c.report } := by
      rw [he, call?_push, call?_modifyCall, if_pos rfl, hc]
      rfl
    refine ⟨_, ⟨hcall, by rwa [hp] at ho, ?_, ⟨List.nodup_nil, by simp, by simp, by simp⟩, by simp, by simp,
      fun h => absurd rfl h, hst.now ▸ hn⟩, rfl⟩
    rw [List.map_nil, List.sum_nil, add_zero, StopReport.tally_foldl, ← hsum]
    exact ht

theorem act_pollAll (agenda : List Action) {c : Call} (hcall : e.call? key = some c) (hw : c.waiting ≠ []) :
    Engine.act { e with agenda } (.resume key) = ({ e with agenda } : Engine).pollAll key c.waiting := by
  have hres := resumes_resume { e with agenda } key
  change Resumes { e with agenda } key (Engine.act { e with agenda } (.resume key)) at hres
  generalize Engine.act { e with agenda } (.resume key) = e' at hres ⊢
  have hcall : ({ e with agenda } : Engine).call? key = some c := hcall
  cases hres with
  | unknown hn =>
    rw [hcall] at hn
    cases hn
  | ends hc hw' =>
    obtain rfl := Option.some.inj (hcall.symm.trans hc)
    exact absurd hw' hw
  | stage hc hw' =>
    obtain rfl := Option.some.inj (hcall.symm.trans hc)
    exact absurd hw' hw
  | waits hc =>
    obtain rfl := Option.some.inj (hcall.symm.trans hc)
    rfl

/-- The call goes on with its stops, and some of the nodes get their verdicts. -/
theorem Closes.poll {agenda : List Action} (h : Closes D key s given base e c js) (hw : c.waiting ≠ [])
    (hg : Grows s e) (hk : ∀ o ∈ given, o.node < s.nodes.size) : ∃ c' ks,
      Closes D key s given base (Engine.act { e with agenda } (.resume key)) c' (js ++ ks) ∧ c'.stages = c.stages ∧
      ∀ j ∈ ks, Judges D e (Engine.act { e with agenda } (.resume key)) j.1 j.2 := by
  have hact := act_pollAll agenda h.call hw
  have hu : Pursued D key ({ e with agenda } : Engine) (c.waiting.flatMap Stopping.pending)
      (c.waiting.flatMap Stopping.orders) (c.waiting.flatMap Stopping.deadlines) :=
    ⟨h.underway.once, h.underway.calm, h.underway.standsIn, fun a ha => ⟨(h.underway.awaits a ha).onTime,
      (h.underway.awaits a ha).timer⟩⟩
  obtain ⟨stops, hs, ⟨ks, hj, ht⟩, ha, hsub⟩ := goes_pollStops key c.waiting ({ e with agenda }, []) hu
  rw [List.nil_append] at hs
  rw [hact, pollAll_eq, hs]
  have hcall : (pollStops key ({ e with agenda }, []) c.waiting).1.call? key = some c :=
    (call?_of_shell hj.stops.shell key).trans h.call
  have hks : ∀ j ∈ ks, j.1 ∈ given := fun j hm =>
    h.orders.subset (List.mem_append_right _ (hj.orders.subset (List.mem_append_left _ (List.mem_map_of_mem hm))))
  have hentries : ({ e with agenda } : Engine).entries ks = s.entries ks := hg.entries fun j hm => hk _ (hks j hm)
  have horders : ((js ++ ks).map (·.1) ++ stops.flatMap Stopping.pending).Perm given := by
    rw [List.map_append, List.append_assoc]
    exact (hj.orders.append_left _).trans h.orders
  have htally : c.report.tally + (stops.map Stopping.tally).sum = base + s.entries (js ++ ks) := by
    rw [ht, ← add_assoc, h.tally, entries_append, ← hentries, add_assoc]
  obtain ⟨c', hc', hstages⟩ := takeUp hcall horders htally (hu.judged hj hsub) hj.within
    (fun a hm => (hj.left a hm).2) ha (hj.tranquil.now.le.trans h.onTime)
  have hst : Tranquil [] (pollStops key ({ e with agenda }, []) c.waiting).1
      ((pollStops key ({ e with agenda }, []) c.waiting).1.afterStops key stops) := tranquil_afterStops _ _ _
  exact ⟨c', ks, hc', hstages, fun j hm => ((hj.right j hm).after hst).of_nodes rfl rfl⟩

/-! ## Steps -/

/-- What a step is to a call that waits for nodes: the call goes on itself, or time moves, or nothing is missed. -/
theorem Prompt.kinds (h : Prompt e e') (hr : Reachable e) (hb : Ledger e b) (hu : e'.broken = false)
    (ha : e.Attends key ns) (hns : ∀ n ∈ ns, n ∈ (b.given key).map (·.node)) :
    (∃ agenda, e.agenda = .resume key :: agenda ∧ e' = Engine.act { e with agenda } (.resume key)) ∨
    (∃ moment, e.agenda = [] ∧ e' = e.moveTo moment ∧ e.now ≤ moment ∧ (moment = e.now ∨ e.OnTime moment)) ∨
    Heeds key ns e e' ∧ ∀ c, e.call? key = some c → e'.call? key = some c := by
  cases h with
  | asked hagenda hi hs =>
    refine .inr (.inr ⟨hs.heeds (fun _ _ => List.not_mem_nil) fun hm => ?_, fun c hc => call?_input hc hr.keysBelow hi⟩)
    rw [hagenda] at hm
    cases hm
  | runs ht hc =>
    cases ht with
    | @act a agenda hbroken hagenda =>
      by_cases hres : ∃ j, a = .resume j
      · obtain ⟨j, rfl⟩ := hres
        by_cases hj : j = key
        · subst hj
          exact .inl ⟨agenda, hagenda, rfl⟩
        · have hbesides := (resumes_resume { e with agenda } j).besides
          exact .inr (.inr ⟨heeds_resume hj hr hb hns hagenda, fun c hc =>
            (call?_of_besides hbesides (Ne.symm hj)).trans hc⟩)
      · have hne (j : CallKey) : a ≠ .resume j := fun he => hres ⟨j, he⟩
        have hreg := register_act (e := { e with agenda }) hne
        refine .inr (.inr ⟨heeds_pop hagenda (hne key) ?_,
          fun c hc => (call?_of_calls (calls_of_register hreg) key).trans hc⟩)
        cases hq : a.isQuiet with
        | true => exact heeds_act hq ha
        | false =>
          refine heeds_makes ?_ hu
          cases a <;> simp_all [Action.makes, Action.isQuiet]
    | @turn w hbroken hagenda hready =>
      refine .inr (.inr ⟨heeds_turn hagenda w, fun c hc => ?_⟩)
      rcases (Tick.turn hbroken hagenda hready).kinds with ⟨hst, -⟩ | ⟨-, -, hst, -⟩ | ⟨a, rest, -, -, hcons, -⟩
      · exact (call?_of_still hst key).trans hc
      · exact (call?_of_still hst key).trans hc
      · rw [hagenda] at hcons
        cases hcons
    | wake hagenda =>
      exact .inr (.inr ⟨heeds_wakePutOff hagenda, fun c hc => (call?_of_still (quiet_wakePutOff e).still key).trans hc⟩)
    | time moment =>
      cases hagenda : e.agenda with
      | nil =>
        rw [(moves_moveTo hagenda moment).now] at hc
        exact .inr (.inl ⟨moment, rfl, rfl, hc.elim (fun hc => Nat.le_of_eq hc.symm) fun hc => hc.onward, hc⟩)
      | cons a agenda =>
        have he : e.moveTo moment = e := by
          unfold Engine.moveTo
          rw [hagenda]
          rfl
        rw [he]
        exact .inr (.inr ⟨Tranquil.heeds (.refl [] e) (fun _ _ => List.not_mem_nil) id, fun _ hc => hc⟩)

/-- Signals stay. -/
theorem Prompt.kept (h : Prompt e e') (hr : Reachable e) (hu : e'.broken = false) {n : NodeKey} {r : CloseResult}
    (hs : e.signal? n = some r) : e'.signal? n = some r := by
  obtain ⟨b, hb⟩ := hr.books.2
  -- a call that is not the one that goes on now
  have hothers (key : CallKey) (hne : ∀ agenda, e.agenda ≠ .resume key :: agenda) : e'.signal? n = some r := by
    have hnobody : e.Attends key [] := by simp [Attends]
    rcases h.kinds hr hb hu hnobody (by simp) with ⟨agenda, ha, -⟩ | ⟨moment, ha, rfl, -⟩ | ⟨hh, -⟩
    · exact absurd ha (hne agenda)
    · exact ((moves_moveTo ha moment).signals n).trans hs
    · exact hh.kept n r hs
  by_cases ha : ∃ agenda, e.agenda = .resume 0 :: agenda
  · obtain ⟨agenda, ha⟩ := ha
    refine hothers 1 fun agenda' ha' => ?_
    cases ha.symm.trans ha'
  · exact hothers 0 fun agenda ha' => ha ⟨agenda, ha'⟩

/-- Another step: the call is still there, and some of its nodes may have got their verdicts. -/
theorem Closes.step (h : Closes D key s given base e c js) (hw : c.waiting ≠ []) (hr : Reachable e) (hb : Ledger e b)
    (hgiven : ∀ o ∈ given, o ∈ b.given key) (hg : Grows s e) (hk : ∀ o ∈ given, o.node < s.nodes.size)
    (hp : Prompt e e') (hu : e'.broken = false) : ∃ c' ks,
      Closes D key s given base e' c' (js ++ ks) ∧ c'.stages = c.stages ∧ ∀ j ∈ ks, Judges D e e' j.1 j.2 := by
  have hke (o : Order) (ho : o ∈ given) : o.node < e.nodes.size := hg.known (hk o ho)
  -- nothing is missed, and nobody is judged
  have hstay (h' : Closes D key s given base e' c js) : ∃ c' ks,
      Closes D key s given base e' c' (js ++ ks) ∧ c'.stages = c.stages ∧ ∀ j ∈ ks, Judges D e e' j.1 j.2 :=
    ⟨c, [], by rwa [List.append_nil], rfl, by simp⟩
  have hasked (n : NodeKey) (hn : n ∈ askedNodes c) : n ∈ (b.given key).map (·.node) :=
    List.map_subset _ hgiven (h.asked_given hn)
  rcases hp.kinds hr hb hu h.attends hasked with ⟨agenda, -, rfl⟩ | ⟨moment, ha, rfl, hon, hc⟩ | ⟨hh, hc⟩
  · exact h.poll hw hg hk
  · refine hstay (h.moveTo ha hon ?_ hke)
    rcases hc with rfl | hc
    · exact h.onTime
    · exact h.not_late hw hc
  · exact hstay (h.heeds hh (hc c h.call) hp.grows hke)

end Engine
end Flowgraph
