import Flowgraph.Proofs.Queueing
/-! How a delay node forwards what it holds. While it is at work, what has left it is what has arrived, up to one message
that is just leaving, and the rest stands in line. -/
namespace Flowgraph.Engine

variable {e e' : Engine} {k : NodeKey} {ms : Nat} {d : Deed} {p : Pending} {key : TaskKey} {arrived : List (Nat × Message)}
  {passed : List (Nat × Passage)} {a : Action}

/-- What leaves a delay node for messages that have arrived: each is sent when its time has come, and then completed. -/
def delivered (ms : Nat) (arrived : List (Nat × Message)) : List (Nat × Passage) :=
  arrived.flatMap fun x => [(x.1 + ms, .sent 0 x.2), (x.1 + ms, .completed x.2)]

theorem delivered_append (ms : Nat) (xs ys : List (Nat × Message)) :
    delivered ms (xs ++ ys) = delivered ms xs ++ delivered ms ys := List.flatMap_append

/-- Of all tasks that have been woken, this one has been woken first. -/
def InTurn (e : Engine) (key : TaskKey) : Prop := (e.ready.filterMap Waiter.taskKey?).head? = some key

theorem InTurn.woken (h : InTurn e key) (ho : e.owns k key = true) : (e.woken k).head? = some key := by
  rw [InTurn, List.head?_eq_some_iff] at h
  obtain ⟨rest, h⟩ := h
  rw [Engine.woken, h, List.filter_cons_of_pos ho]
  rfl

/-- A step of an engine with the standard kinds of nodes. Tasks have their turns in the order in which they have been
woken, time moves on time, and nobody outside acts in the name of the delay node. -/
structure Paced (ms : Nat) (k : NodeKey) (e : Engine) (d : Deed) (e' : Engine) : Prop where
  reachable : Reachable e
  stocked : Stocked e
  idle : e.registry.Idle
  unmixed : Unmixed e
  holds : e.HoldsFor ms k
  does : Does e d e'
  inTurn : ∀ key, d = .turn (.task key) → InTurn e key
  onTime : e'.now = e.now ∨ e.OnTime e'.now
  own : d = .asked → ∀ effect, .effect k effect ∉ e'.agenda

namespace Paced

theorem befalls (h : Paced ms k e d e') (hn : Numbered e) (hat : Working ms (e.sight k) ∨ ¬e.IsActive k)
    (hput : (e.sight k).putOff = []) : Befalls ms k e d e' :=
  h.does.befalls h.reachable hn h.holds hat (h.holds.unasked h.reachable) hput

/-- What does not touch the node leads only to what does not. -/
theorem foreign (h : Paced ms k e d e') (hn : Numbered e) (hf : ∀ a ∈ e.agenda, Foreign e k a)
    (hturn : ∀ p ∈ e.tasksOf k, d ≠ .turn (.task p.key)) : ∀ a ∈ e'.agenda, Foreign e' k a := fun a ha =>
  (h.does.agenda_foreign h.stocked h.idle h.unmixed hn h.holds h.own hturn a ha).elim
    (fun hm => (hf a (List.mem_of_mem_tail hm)).later (h.does.inherits h.stocked)) id

theorem act_mem (h : Paced ms k e (.act a) e') : a ∈ e.agenda := by
  obtain ⟨agenda, ha⟩ := h.does.exists_agenda
  exact ha ▸ List.mem_cons_self

theorem leaves_eq_none (h : Paced ms k e d e') (hf : ∀ a ∈ e.agenda, Foreign e k a) : e.leaves k d = none := by
  cases d with
  | act a => exact Option.map_eq_none_iff.mpr (hf a h.act_mem).passage
  | _ => rfl

end Paced

theorem arrives_eq_none (h : ∀ m, d ≠ .act (.hand k m)) : e.arrives k d = none := by
  have hnone : d.arrival? k = none := by
    cases d with
    | act a =>
      cases a with
      | hand n m =>
        refine if_neg fun hn => ?_
        subst hn
        exact h m rfl
      | _ => rfl
    | _ => rfl
  unfold arrives
  rw [hnone]
  exact ite_self none

theorem arrives_hand {node : Node} (hn : e.node? k = some node) (m : Message) :
    e.arrives k (.act (.hand k m)) = some (e.now, m) := by
  unfold arrives
  rw [hn]
  simp [Deed.arrival?]

/-- A node that has not been told to stop takes up whatever it is handed. -/
theorem HoldsFor.takesUp {begun : Bool} (h : e.HoldsFor ms k) (hm : (e.sight k).marks = some (false, none, begun)) :
    ∃ node, TakesUp e k node (Delay.behaviour ms) := by
  obtain ⟨node, hn, hmarks⟩ := Option.map_eq_some_iff.mp hm
  exact ⟨node, hn, congrArg Prod.fst hmarks, h node hn⟩

/-- What is known of a node that is at work, once it has begun to take messages up. -/
theorem marks_begun {begun : Bool} (hm : (e.sight k).marks = some (false, none, begun)) :
    (e.node? k).map (fun node => (node.cancelled, node.signal, true)) = some (false, none, true) := by
  obtain ⟨node, hn, hmarks⟩ := Option.map_eq_some_iff.mp hm
  obtain ⟨hc, hs, -⟩ := by simpa only [Node.marks, Prod.mk.injEq] using hmarks
  rw [hn, Option.map_some, hc, hs]

/-- What a delay node has forwarded so far, and what it holds. -/
inductive Lined (ms : Nat) (k : NodeKey) (e : Engine) (arrived : List (Nat × Message)) (passed : List (Nat × Passage)) :
    Prop
  | unmade (hn : Numbered e) (hnone : e.node? k = none) (htasks : e.tasksOf k = []) (hput : (e.sight k).putOff = [])
      (ha : arrived = []) (hp : passed = []) (hf : ∀ a ∈ e.agenda, Foreign e k a)
  /-- The messages that have gone have arrived first. -/
  | holds {g : List (Nat × Message)} {q : Lane} (hn : Numbered e) (hq : Queued ms k [] q (e.sight k))
      (ha : arrived = g ++ q.all.map Detained.arrival) (hgone : ∀ x ∈ g, x.1 + ms ≤ e.now)
      (hp : passed = delivered ms g) (hf : ∀ a ∈ e.agenda, Foreign e k a)
  /-- One message is just leaving. -/
  | releases {g : List (Nat × Message)} {q : Lane} {p : Pending} {since : Nat} {m : Message} {done left : List Passage}
      {above : List Action} (hn : Numbered e) (hq : Queued ms k [p] q (e.sight k))
      (ha : arrived = g ++ (since, m) :: q.all.map Detained.arrival) (hgone : ∀ x ∈ g, x.1 + ms ≤ e.now)
      (hdue : since + ms = e.now) (hsplit : done ++ left = [.sent 0 m, .completed m])
      (hp : passed = delivered ms g ++ done.map fun x => (e.now, x))
      (hagenda : e.agenda = above ++ left.map (fun x => .effect k x.effect) ++ [.finishTask p.key])
      (hf : ∀ a ∈ above, Foreign e k a)

/-- A stop takes the node out of its level. -/
structure Retires (ms : Nat) (k : NodeKey) (e : Engine) (d : Deed) (e' : Engine) : Prop where
  by_call : ∃ call agenda, e.agenda = .resume call :: agenda ∧ d = .act (.resume call) ∧
    e' = Engine.act { e with agenda } (.resume call) ∧ Dismisses ms k { e with agenda } e'

/-! ## Before the node is there -/

theorem woken_eq_nil (h : e.tasksOf k = []) : e.woken k = [] := by
  refine List.filter_eq_nil_iff.mpr fun key _ hown => ?_
  rw [owns, h] at hown
  cases hown

theorem clocks_eq_nil (h : e.tasksOf k = []) : e.clocks k = [] := by
  refine List.filter_eq_nil_iff.mpr fun t _ hown => ?_
  cases hkey : t.alarm.taskKey? with
  | none =>
    rw [hkey] at hown
    cases hown
  | some key =>
    rw [hkey] at hown
    have hown : e.owns k key = true := hown
    rw [owns, h] at hown
    cases hown

theorem Laid.not_isActive (hl : Laid e) (hnone : e.node? k = none) : ¬e.IsActive k := by
  rintro ⟨j, id, ha⟩
  have hsome := (lt_size_iff e k).mp (hl.activeKey?_lt ha)
  rw [hnone] at hsome
  cases hsome

/-- As long as there is no node, there is nothing to be told of it; and when it comes into being, it holds nothing. -/
theorem lined_unmade (h : Paced ms k e d e') (hn : Numbered e) (hnone : e.node? k = none) (htasks : e.tasksOf k = [])
    (hput : (e.sight k).putOff = []) (hf : ∀ a ∈ e.agenda, Foreign e k a) :
    Lined ms k e' (e.arrives k d).toList (e.leaves k d).toList := by
  have hleaves : e.leaves k d = none := h.leaves_eq_none hf
  have harrives : e.arrives k d = none := by
    unfold arrives
    rw [hnone]
    rfl
  have hmarks : (e.sight k).marks = none := by
    rw [sight, hnone]
    rfl
  have hnode (s : Engine) (hs : s.sight k = e.sight k) : s.node? k = none :=
    Option.map_eq_none_iff.mp ((congrArg Sight.marks hs).trans hmarks)
  rw [harrives, hleaves]
  cases h.befalls hn (.inr (h.reachable.layout.laid.not_isActive hnone)) hput with
  | apart hn' hs _ hturn =>
    exact .unmade hn' (hnode _ hs) ((congrArg Sight.tasks hs).trans htasks) ((congrArg Sight.putOff hs).trans hput) rfl rfl
      (h.foreign hn hf hturn)
  | born hn' _ _ hs =>
    refine .holds (g := []) (q := ⟨[], [], []⟩) hn' ?_ rfl (List.forall_mem_nil _) rfl (h.foreign hn hf (by rintro _ _ ⟨⟩))
    rw [hs]
    exact ⟨htasks, woken_eq_nil htasks, clocks_eq_nil htasks, List.forall_mem_nil _, List.forall_mem_nil _,
      List.forall_mem_nil _, .nil, List.forall_mem_nil _, List.forall_mem_nil _, hput, false, rfl,
      fun hne => absurd htasks hne⟩
  | dismissed _ hd =>
    obtain ⟨begun, hm, -⟩ := hd.working.marks
    cases hm.symm.trans hmarks
  | takes ht => cases ht.there.symm.trans hnone
  | signals => exact absurd rfl ((hf _ h.act_mem).closed _)
  | finishes hp =>
    rw [htasks] at hp
    cases hp
  | turn hp =>
    rw [htasks] at hp
    cases hp
  | @time moment ha hm =>
    obtain ⟨ready, heq⟩ := moveTo_eq ha moment
    have hforeign := h.foreign hn hf (by rintro _ _ ⟨⟩)
    refine .unmade (hn.moveTo ha moment) ?_ ?_ ?_ rfl rfl hforeign
    · rw [heq]
      exact hnone
    · rw [heq]
      exact htasks
    · rw [heq]
      exact hput

/-! ## While the node holds messages -/

theorem Numbered.nodup_sight (hn : Numbered e) (k : NodeKey) : ((e.sight k).tasks.map (·.key)).Nodup :=
  hn.nodup.sublist (List.filter_sublist.map _)

theorem filter_task_ne (key : TaskKey) (keys : List TaskKey) :
    (keys.filter fun x => Waiter.task x != .task key) = keys.filter (· != key) := by
  refine List.filter_congr fun x _ => ?_
  rw [Bool.eq_iff_iff, bne_iff_ne, bne_iff_ne]
  simp

/-- The turn of a task of the node: the message leaves when its time has come, and begins to wait before. -/
theorem lined_turn {gone : List (Nat × Message)} {q : Lane} (hn : Numbered e)
    (hq : Queued ms k [] q (e.sight k)) (ha : arrived = gone ++ q.all.map Detained.arrival)
    (hgone : ∀ x ∈ gone, x.1 + ms ≤ e.now) (hp : passed = delivered ms gone) (hpk : p ∈ e.tasksOf k)
    (hagenda : e.agenda = []) (hturn : InTurn e p.key) :
    Lined ms k ((e.turned (.task p.key)).runTask p) arrived passed := by
  have hkeys := hn.nodup_sight k
  have hown : p.owner = k := (mem_tasksOf.mp hpk).2
  have hcancel : (e.turned (.task p.key)).isCancelled p.owner = false := by
    obtain ⟨begun, hm, -⟩ := hq.marks
    rw [isCancelled_eq, hown, sight_turned]
    change ((e.sight k).marks.map (·.1)).getD true = false
    rw [hm]
    rfl
  have hturned := hn.turned (.task p.key)
  have hsight : (e.turned (.task p.key)).sight k = { e.sight k with woken := (e.sight k).woken.filter (· != p.key) } := by
    rw [sight_turned, filter_task_ne]
    rfl
  have hpushed (actions : List Action) : Numbered ((e.turned (.task p.key)).push actions) ∧
      ((e.turned (.task p.key)).push actions).sight k = (e.turned (.task p.key)).sight k :=
    bypasses_push _ _ hturned
  have hnow : (e.sight k).now = e.now := rfl
  -- the message leaves
  have hrelease (x : Detained) (q' : Lane) (hx : p.task = Delay.hold ms x.message) (hdue : x.since + ms = e.now)
      (hnext : p.due.getD (e.now + ms) ≤ e.now) (hq' : Queued ms k [p] q' ((e.turned (.task p.key)).sight k))
      (hall : q.all = x :: q'.all) : Lined ms k ((e.turned (.task p.key)).runTask p) arrived passed := by
    have hrun : (e.turned (.task p.key)).runTask p = (e.turned (.task p.key)).push
        [.effect k (.send 0 x.message), .effect k (.complete x.message), .finishTask p.key] := by
      rw [← hown]
      exact (runTask_hold hx hcancel).trans (if_pos hnext)
    rw [hrun]
    obtain ⟨hn', hs'⟩ := hpushed [.effect k (.send 0 x.message), .effect k (.complete x.message), .finishTask p.key]
    have hsplit : [] ++ [Passage.sent 0 x.message, .completed x.message] = [.sent 0 x.message, .completed x.message] := rfl
    have hline : Queued ms k [p] q' (((e.turned (.task p.key)).push [.effect k (.send 0 x.message),
        .effect k (.complete x.message), .finishTask p.key]).sight k) := hs' ▸ hq'
    have habove : ∀ a ∈ ([] : List Action), Foreign ((e.turned (.task p.key)).push [.effect k (.send 0 x.message),
        .effect k (.complete x.message), .finishTask p.key]) k a := nofun
    refine .releases hn' hline ?_ hgone hdue hsplit ?_ ?_ habove
    · rw [ha, hall]
      rfl
    · rw [hp, List.map_nil, List.append_nil]
    · change _ ++ e.agenda = _
      rw [hagenda]
      rfl
  rcases hq.first hkeys hpk (hturn.woken (owns_of_mem hpk)) with ⟨x, ripe, hripe, rfl⟩ | ⟨x, fresh, hripe, hfresh, rfl⟩
  · have hdue : x.due ms = e.now := hq.ripe x (hripe ▸ List.mem_cons_self)
    refine hrelease x { q with ripe } rfl hdue (Nat.le_of_eq hdue) ?_ ?_
    · rw [hsight]
      exact hq.release hkeys hripe
    · simp [Lane.all, hripe]
  · have hsince : x.since = e.now := hq.fresh x (hfresh ▸ List.mem_cons_self)
    rcases Nat.eq_zero_or_pos ms with hms | hms
    · obtain ⟨htimed, hq'⟩ := hq.releaseFresh hkeys hripe hfresh hms
      refine hrelease x { q with fresh } rfl (by omega) (Nat.le_of_eq (show e.now + ms = e.now by omega)) ?_ ?_
      · rw [hsight]
        exact hq'
      · simp [Lane.all, hripe, htimed, hfresh]
    · have hlate : ¬e.now + ms ≤ e.now := Nat.not_le.mpr (Nat.lt_add_of_pos_right hms)
      have hrun : (e.turned (.task x.key)).runTask (x.pending ms k none) =
          (e.turned (.task x.key)).sleep (x.pending ms k none) (e.now + ms) :=
        (runTask_hold rfl hcancel).trans ((if_neg hlate).trans (if_neg Bool.false_ne_true))
      have hmem : x.pending ms k none ∈ (e.turned (.task x.key)).tasksOf k := hpk
      change Lined ms k ((e.turned (.task x.key)).runTask (x.pending ms k none)) arrived passed
      rw [hrun]
      refine .holds (g := gone) (q := { q with timed := q.timed ++ [x], fresh })
        (hturned.sleep (mem_tasksOf.mp hmem).1 _) ?_ ?_ hgone hp ?_
      · have hmine : (e.turned (.task x.key)).owns k (x.pending ms k none).key = true := owns_of_mem hmem
        have hsight' : (e.turned (.task x.key)).sight k =
            { e.sight k with woken := (e.sight k).woken.filter (· != x.key) } := hsight
        rw [sight_sleep, if_pos hmine, hsight']
        exact hq.sleep hkeys hripe hfresh hms
      · rw [ha]
        simp [Lane.all, hfresh]
      · change ∀ a ∈ e.agenda, _
        rw [hagenda]
        nofun

/-- Time passes. -/
theorem lined_moveTo {gone : List (Nat × Message)} {q : Lane} {moment : Nat} (hn : Numbered e)
    (hq : Queued ms k [] q (e.sight k)) (ha : arrived = gone ++ q.all.map Detained.arrival)
    (hgone : ∀ x ∈ gone, x.1 + ms ≤ e.now) (hp : passed = delivered ms gone) (hagenda : e.agenda = [])
    (hon : e.now ≤ moment) (htime : moment = e.now ∨ e.OnTime moment) : Lined ms k (e.moveTo moment) arrived passed := by
  have hnodup := hq.nodup (hn.nodup_sight k)
  simp only [List.map_nil, List.nil_append, Lane.all, List.map_append] at hnodup
  obtain ⟨hfirst, -, hfresh⟩ := List.nodup_append.mp hnodup
  obtain ⟨-, htimed, hripe⟩ := List.nodup_append.mp hfirst
  have hclocks : e.clocks k = q.timed.map (·.timer ms) := hq.clocks
  have hwoken : e.woken k = (q.ripe ++ q.fresh).map (·.key) := hq.woken
  -- no task is woken that has been woken already
  have hnew : ∀ t ∈ e.clocks k, t.due ≤ moment → ∀ key, t.alarm.taskKey? = some key → key ∉ e.woken k := by
    intro t ht _ key hkey hm
    rw [hclocks] at ht
    obtain ⟨x, hx, rfl⟩ := List.mem_map.mp ht
    obtain rfl : x.key = key := Option.some.inj hkey
    have hxk : x.key ∈ q.timed.map (·.key) := List.mem_map_of_mem hx
    rw [hwoken, List.map_append] at hm
    rcases List.mem_append.mp hm with hm | hm
    · exact hripe _ hm _ hxk rfl
    · exact hfresh _ (List.mem_append_right _ hxk) _ hm rfl
  have hkeys : ((e.clocks k).filterMap (·.alarm.taskKey?)).Nodup := by
    have heq : (e.clocks k).filterMap (·.alarm.taskKey?) = q.timed.map (·.key) := by
      rw [hclocks, List.filterMap_map, ← List.filterMap_eq_map]
      rfl
    rwa [heq]
  have hdue : ∀ x ∈ q.timed, moment ≤ x.due ms ∨ moment = e.now := fun x hx => by
    rcases htime with hsame | hot
    · exact .inr hsame
    · have ht : x.timer ms ∈ e.clocks k := hclocks ▸ List.mem_map_of_mem hx
      obtain ⟨ht, haw⟩ := isAwaited_of_mem_clocks ht
      exact .inl (hot.before _ ht haw)
  have hidle : moment = e.now ∨ e.woken k = [] := htime.imp_right fun hot => by
    rw [Engine.woken, hot.idle.2.1]
    rfl
  obtain ⟨q', hall, hq'⟩ := hq.time hon hdue hidle
  refine .holds (g := gone) (hn.moveTo hagenda moment) (sight_moveTo hagenda moment hnew hkeys ▸ hq') (hall ▸ ha)
    (fun x hx => ?_) hp ?_
  · have hnow : (e.moveTo moment).now = moment := (moves_moveTo hagenda moment).now
    rw [hnow]
    exact Nat.le_trans (hgone x hx) hon
  · rw [(moveTo_frame e moment).1, hagenda]
    exact List.forall_mem_nil _

/-- A node that holds messages goes on doing so, or one of them is just leaving, or the node is taken out of its level. -/
theorem lined_holds {gone : List (Nat × Message)} {q : Lane} (h : Paced ms k e d e') (hn : Numbered e)
    (hq : Queued ms k [] q (e.sight k)) (ha : arrived = gone ++ q.all.map Detained.arrival)
    (hgone : ∀ x ∈ gone, x.1 + ms ≤ e.now) (hp : passed = delivered ms gone) (hf : ∀ a ∈ e.agenda, Foreign e k a) :
    Lined ms k e' (arrived ++ (e.arrives k d).toList) (passed ++ (e.leaves k d).toList) ∨ Retires ms k e d e' := by
  have hleaves : e.leaves k d = none := h.leaves_eq_none hf
  obtain ⟨begun, hm, -⟩ := hq.marks
  obtain ⟨node, htakes⟩ := h.holds.takesUp hm
  have hnothing (hno : ∀ m, d ≠ .act (.hand k m)) (hl : Lined ms k e' arrived passed) :
      Lined ms k e' (arrived ++ (e.arrives k d).toList) (passed ++ (e.leaves k d).toList) := by
    rw [hleaves, arrives_eq_none hno]
    simpa only [Option.toList_none, List.append_nil] using hl
  cases h.befalls hn (.inl hq.working) hq.putOff with
  | apart hn' hs hhand hturn =>
    have hnow : e'.now = e.now := congrArg Sight.now hs
    exact .inl (hnothing (fun m he => hhand m he node _ htakes)
      (.holds hn' (hs ▸ hq) ha (hnow ▸ hgone) hp (h.foreign hn hf hturn)))
  | born _ hnone => cases htakes.there.symm.trans hnone
  | dismissed hagenda hd => exact .inr ⟨_, _, hagenda, rfl, rfl, hd⟩
  | @takes m _ _ ht hn' hs =>
    refine .inl ?_
    have hnow : e'.now = e.now := congrArg Sight.now hs
    rw [hleaves, arrives_hand ht.there m, Option.toList_none, List.append_nil, Option.toList_some]
    rw [marks_begun hm] at hs
    refine .holds (g := gone) (q := { q with fresh := q.fresh ++ [⟨e.nextTask, e.now, m⟩] }) hn' (hs ▸ hq.take e.nextTask m)
      ?_ (hnow ▸ hgone) hp (h.foreign hn hf (by rintro _ _ ⟨⟩))
    rw [ha]
    simp [Lane.all, Detained.arrival]
  | signals => exact absurd rfl ((hf _ h.act_mem).closed _)
  | finishes hpk =>
    have hown := ((hf _ h.act_mem).finish _ rfl).2
    rw [owns_of_mem hpk] at hown
    cases hown
  | turn hpk hagenda hw => exact .inl (hnothing (by rintro _ ⟨⟩) (lined_turn hn hq ha hgone hp hpk hagenda (h.inTurn _ rfl)))
  | @time moment hagenda hon =>
    have hnow : (e.moveTo moment).now = moment := (moves_moveTo hagenda moment).now
    exact .inl (hnothing (by rintro _ ⟨⟩) (lined_moveTo hn hq ha hgone hp hagenda hon (hnow ▸ h.onTime)))

/-! ## While a message is leaving -/

/-- A message that is just leaving is sent and completed, whatever comes of it meanwhile, and then its task is over. -/
theorem lined_releases {gone : List (Nat × Message)} {q : Lane} {since : Nat} {m : Message} {done left : List Passage}
    {above : List Action} (h : Paced ms k e d e') (hn : Numbered e) (hq : Queued ms k [p] q (e.sight k))
    (ha : arrived = gone ++ (since, m) :: q.all.map Detained.arrival) (hgone : ∀ x ∈ gone, x.1 + ms ≤ e.now)
    (hdue : since + ms = e.now) (hsplit : done ++ left = [.sent 0 m, .completed m])
    (hp : passed = delivered ms gone ++ done.map fun x => (e.now, x))
    (hagenda : e.agenda = above ++ left.map (fun x => .effect k x.effect) ++ [.finishTask p.key])
    (hf : ∀ a ∈ above, Foreign e k a) :
    Lined ms k e' (arrived ++ (e.arrives k d).toList) (passed ++ (e.leaves k d).toList) := by
  obtain ⟨begun, hm, -⟩ := hq.marks
  obtain ⟨node, htakes⟩ := h.holds.takesUp hm
  have hmessages : ∀ a ∈ e.agenda, a.plans = false :=
    h.unmixed.of_message (a := .finishTask p.key) (hagenda ▸ List.mem_append_right _ List.mem_cons_self) rfl
  have hbusy : e.agenda ≠ [] := by simp [hagenda]
  have hact {a : Action} {agenda : List Action} (heq : e.agenda = a :: agenda) :
      d = .act a ∧ e' = Engine.act { e with agenda } a := h.does.of_agenda heq
  cases above with
  | cons b above =>
    obtain ⟨rfl, -⟩ := hact hagenda
    obtain ⟨pushed, hpush, hpf⟩ := h.does.foreign h.stocked hn h.holds hmessages h.own (by rintro _ _ ⟨⟩)
    have hleaves : e.leaves k (.act b) = none := Option.map_eq_none_iff.mpr (hf b List.mem_cons_self).passage
    have hagenda' : e'.agenda = (pushed ++ above) ++ left.map (fun x => .effect k x.effect) ++ [.finishTask p.key] := by
      rw [hpush, hagenda]
      simp
    have hf' : ∀ a ∈ pushed ++ above, Foreign e' k a := fun a hm => (List.mem_append.mp hm).elim (hpf a) fun hm =>
      (hf a (List.mem_cons_of_mem _ hm)).later (h.does.inherits h.stocked)
    rw [hleaves, Option.toList_none, List.append_nil]
    cases h.befalls hn (.inl hq.working) hq.putOff with
    | apart hn' hs hhand =>
      have hnow : e'.now = e.now := congrArg Sight.now hs
      rw [arrives_eq_none fun m he => hhand m he node _ htakes, Option.toList_none, List.append_nil]
      exact .releases hn' (hs ▸ hq) ha (hnow ▸ hgone) (hnow ▸ hdue) hsplit (hnow ▸ hp) hagenda' hf'
    | born _ hnone => cases htakes.there.symm.trans hnone
    | dismissed =>
      have hplans := hmessages _ h.act_mem
      cases hplans
    | @takes m' _ _ ht hn' hs =>
      have hnow : e'.now = e.now := congrArg Sight.now hs
      rw [marks_begun hm] at hs
      rw [arrives_hand ht.there m', Option.toList_some]
      refine .releases (q := { q with fresh := q.fresh ++ [⟨e.nextTask, e.now, m'⟩] }) hn' (hs ▸ hq.take e.nextTask m') ?_
        (hnow ▸ hgone) (hnow ▸ hdue) hsplit (hnow ▸ hp) hagenda' hf'
      rw [ha]
      simp [Lane.all, Detained.arrival]
    | signals => exact absurd rfl ((hf _ List.mem_cons_self).closed _)
    | finishes hpk =>
      have hown := ((hf _ List.mem_cons_self).finish _ rfl).2
      rw [owns_of_mem hpk] at hown
      cases hown
  | nil =>
    cases left with
    | cons x left =>
      obtain ⟨rfl, -⟩ := hact hagenda
      obtain ⟨pushed, hpush, hpf⟩ := h.does.foreign h.stocked hn h.holds hmessages h.own (by rintro _ _ ⟨⟩)
      have hleaves : e.leaves k (.act (.effect k x.effect)) = some (e.now, x) := by
        rw [leaves, Deed.passage?, Action.passage?_effect]
        rfl
      have hagenda' : e'.agenda = pushed ++ left.map (fun x => .effect k x.effect) ++ [.finishTask p.key] := by
        rw [hpush, hagenda]
        simp
      rw [hleaves, Option.toList_some, arrives_eq_none (by rintro m' ⟨⟩), Option.toList_none, List.append_nil]
      generalize hd : Deed.act (.effect k x.effect) = d at h
      cases h.befalls hn (.inl hq.working) hq.putOff with
      | apart hn' hs =>
        have hnow : e'.now = e.now := congrArg Sight.now hs
        have hsplit' : (done ++ [x]) ++ left = [.sent 0 m, .completed m] := by
          rw [List.append_assoc]
          exact hsplit
        have hp' : passed ++ [(e.now, x)] = delivered ms gone ++ (done ++ [x]).map fun x => (e'.now, x) := by
          rw [hp, hnow, List.map_append, List.append_assoc]
          rfl
        exact .releases hn' (hs ▸ hq) ha (hnow ▸ hgone) (hnow ▸ hdue) hsplit' hp' hagenda' hpf
      | born _ hnone => cases htakes.there.symm.trans hnone
      | signals => cases x <;> cases hd
      | _ => cases hd
    | nil =>
      obtain ⟨rfl, rfl⟩ := hact hagenda
      have hdone : done = [.sent 0 m, .completed m] := by simpa using hsplit
      have hpop : Numbered { e with agenda := [] } := ⟨⟨hn.nodup, hn.below⟩, hn.ready, hn.timers⟩
      have hpk : p ∈ ({ e with agenda := [] } : Engine).tasksOf k := by
        have htasks : ({ e with agenda := [] } : Engine).tasksOf k = [p] ++ q.tasks ms k := hq.tasks
        rw [htasks]
        exact List.mem_cons_self
      obtain ⟨hn', woken, hs, -, -, hall⟩ := sight_finishTask hpop hpk
      have hwoken : woken = (e.woken k).filter (· != p.key) := hall fun q' hq' => by
        obtain ⟨m', ht⟩ := hq.working.holds q' hq'
        rw [ht]
        rintro ⟨⟩
      have hline := hq.finish (hn.nodup_sight k)
      rw [arrives_eq_none (by rintro m' ⟨⟩), leaves]
      change Lined ms k (Engine.finishTask { e with agenda := [] } p.key) (arrived ++ []) (passed ++ [])
      have hnow : (Engine.finishTask { e with agenda := [] } p.key).now = e.now := congrArg Sight.now hs
      rw [List.append_nil, List.append_nil]
      refine .holds (g := gone ++ [(since, m)]) (q := q) hn' ?_ ?_ (fun x hx => ?_) ?_ ?_
      · rw [hs, hwoken]
        exact hline
      · rw [ha, List.append_assoc]
        rfl
      · rw [hnow]
        rcases List.mem_append.mp hx with hx | hx
        · exact hgone x hx
        · obtain rfl := List.mem_singleton.mp hx
          exact Nat.le_of_eq hdue
      · rw [hp, hdone, delivered_append, ← hdue]
        rfl
      · rw [(finishTask_frame _ _).1]
        exact List.forall_mem_nil _

/-- Whatever happens, a delay node forwards in order what it holds, or is taken out of its level. -/
theorem Lined.step (h : Paced ms k e d e') (hl : Lined ms k e arrived passed) :
    Lined ms k e' (arrived ++ (e.arrives k d).toList) (passed ++ (e.leaves k d).toList) ∨ Retires ms k e d e' := by
  cases hl with
  | unmade hn hnone htasks hput ha hp hf =>
    rw [ha, hp]
    exact .inl (lined_unmade h hn hnone htasks hput hf)
  | holds hn hq ha hgone hp hf => exact lined_holds h hn hq ha hgone hp hf
  | releases hn hq ha hgone hdue hsplit hp hagenda hf =>
    exact .inl (lined_releases h hn hq ha hgone hdue hsplit hp hagenda hf)

end Flowgraph.Engine
