import Flowgraph.Proofs.Dismissal
import Flowgraph.Proofs.Histories
/-! What becomes of the work of a delay node step by step. Only what the node is handed, the turns and the ends of its own
tasks, its close signal, time and the stop that dismisses it are to be seen in its work; everything else passes it by. -/
namespace Flowgraph.Engine

variable {e e' m : Engine} {k n : NodeKey} {ms : Nat} {call : CallKey} {p q : Pending} {v : Sight} {a : Action} {d : Deed}
  {key : TaskKey} {w : Waiter} {agenda : List Action}

/-! ## What passes the node by -/

theorem bypasses_pop (e : Engine) (agenda : List Action) : Bypasses k e { e with agenda } := .of_chores rfl rfl

/-- An action that is none of the node's own passes it by, or brings it into being. -/
theorem bears_act (hhand : ∀ m, a = .hand k m → ∀ node b, ¬TakesUp e k node b) (hclosed : ∀ r, a ≠ .effect k (.closed r))
    (hfinish : ∀ key, a = .finishTask key → e.owns k key = false) (hresume : ∀ call, a ≠ .resume call) :
    Bears k e (e.act a) := by
  have hbears (h : Bypasses k e (e.act a)) : Bears k e (e.act a) := h.bears
  cases a with
  | hand n m => exact hbears (bypasses_hand e n m fun hn => by subst hn; exact hhand m rfl)
  | handAt j id m =>
    refine hbears ?_
    change Bypasses k e (e.handAt j id m)
    unfold handAt
    split
    · exact bypasses_push _ _
    · exact .refl k e
  | deliver j id m =>
    refine hbears ?_
    change Bypasses k e (e.deliver j id m)
    unfold deliver
    split
    · exact bypasses_push _ _
    · exact .refl k e
  | effect n effect => exact hbears (bypasses_perform e n effect fun r he hn => hclosed r (by rw [he, hn]))
  | conclude n m outcome => exact hbears (bypasses_conclude e n m outcome)
  | create j r templates => exact bears_makes rfl
  | install j r inst => exact bears_makes rfl
  | refresh j => exact bears_makes rfl
  | announce j =>
    refine hbears ?_
    change Bypasses k e (e.announce j)
    unfold announce
    split
    · exact .refl k e
    · exact bypasses_publish _ _
  | finishTask key => exact hbears (bypasses_finishTask fun _ => hfinish key rfl)
  | resume call => exact absurd rfl (hresume call)

/-- What is asked of the engine. -/
theorem bypasses_asked (h : Asked e e') : Bypasses k e e' := by
  cases h with
  | call h =>
    have hcall {calls : List (CallKey × Call)} {next : Nat} : Bypasses k e { e with nextCall := next, calls } :=
      .of_chores rfl rfl
    exact hcall.trans (bypasses_wake_other rfl _)
  | signal j origin signal => exact bypasses_raise e j origin signal
  | _ => exact .of_chores rfl rfl

/-- Those who ran out of room are woken; no task is among them. -/
theorem bypasses_wakePutOff (hput : (e.sight k).putOff = []) : Bypasses k e e.wakePutOff := by
  have hput : e.putOff.filterMap Waiter.taskKey? = [] := hput
  have hnone : ∀ w ∈ e.putOff, w.taskKey? = none := List.filterMap_eq_nil_iff.mp hput
  have hclear : Bypasses k e { e with putOff := [] } := by
    refine .of_chores ?_ rfl
    simp only [chores, hput, List.filterMap_nil]
  have hwake (ws : List Waiter) (e : Engine) (hw : ∀ w ∈ ws, w.taskKey? = none) : Bypasses k e (ws.foldl wake e) := by
    induction ws generalizing e with
    | nil => exact .refl k e
    | cons w ws ih =>
      exact (bypasses_wake_other (hw w List.mem_cons_self) e).trans (ih _ fun w hm => hw w (List.mem_cons_of_mem _ hm))
  exact hclear.trans (hwake e.putOff _ hnone)

/-! ## Turns -/

/-- Whoever has a turn has not been woken any more. -/
theorem sight_turned (e : Engine) (k : NodeKey) (w : Waiter) :
    (e.turned w).sight k = { e.sight k with woken := (e.woken k).filter fun key => Waiter.task key != w } := by
  have hwoken : (e.turned w).woken k = (e.woken k).filter fun key => Waiter.task key != w := by
    have hready : (e.ready.filter (· != w)).filterMap Waiter.taskKey? =
        (e.ready.filterMap Waiter.taskKey?).filter fun key => Waiter.task key != w := by
      rw [List.filterMap_filter, List.filter_filterMap]
      refine List.filterMap_congr fun x _ => ?_
      cases x with
      | task key => rfl
      | _ => exact ite_self none
    change ((e.ready.filter (· != w)).filterMap Waiter.taskKey?).filter (e.owns k) = _
    rw [hready, woken, List.filter_filter, List.filter_filter]
    exact List.filter_congr fun _ _ => Bool.and_comm _ _
  simp only [sight, hwoken]
  rfl

theorem Numbered.turned (hk : Numbered e) (w : Waiter) : Numbered (e.turned w) := by
  refine ⟨⟨hk.nodup, hk.below⟩, fun key hm => hk.ready key ?_, hk.timers⟩
  obtain ⟨x, hx, hkey⟩ := List.mem_filterMap.mp hm
  exact List.mem_filterMap.mpr ⟨x, (List.mem_filter.mp hx).1, hkey⟩

theorem bypasses_turned (hw : ∀ key, w = .task key → e.owns k key = false) : Bypasses k e (e.turned w) := fun hk => by
  refine ⟨hk.turned w, ?_⟩
  rw [sight_turned]
  have hall : (e.woken k).filter (fun key => Waiter.task key != w) = e.woken k := by
    refine List.filter_eq_self.mpr fun key hm => ?_
    have howns := (mem_woken.mp hm).2
    refine bne_iff_ne.mpr fun he => ?_
    rw [hw key he.symm] at howns
    cases howns
  rw [hall]
  rfl

/-- A task begins to wait for a moment. -/
def sleep (e : Engine) (p : Pending) (due : Nat) : Engine :=
  { e with
    tasks := e.tasks.map fun q => if q.key = p.key then { q with due := some due } else q
    timers := e.timers ++ [⟨due, .task p.key⟩] }

theorem Numbered.sleep (hk : Numbered e) (hp : p ∈ e.tasks) (due : Nat) : Numbered (e.sleep p due) := by
  have hkeys : (e.sleep p due).tasks.map (·.key) = e.tasks.map (·.key) := by
    rw [Engine.sleep, List.map_map]
    refine List.map_congr_left fun q _ => ?_
    dsimp only [Function.comp_apply]
    split <;> rfl
  refine ⟨⟨hkeys ▸ hk.nodup, fun q hq => ?_⟩, hk.ready, fun t ht key hkey => ?_⟩
  · obtain ⟨q', hq', he⟩ := List.mem_map.mp (hkeys ▸ List.mem_map_of_mem hq : q.key ∈ e.tasks.map (·.key))
    exact he ▸ hk.below q' hq'
  · obtain ⟨hmem, hsome⟩ := List.mem_filter.mp ht
    rcases List.mem_append.mp hmem with hmem | hmem
    · exact hk.timers t (List.mem_filter.mpr ⟨hmem, hsome⟩) key hkey
    · obtain rfl := List.mem_singleton.mp hmem
      cases hkey
      exact hk.below p hp

theorem tasksOf_sleep (e : Engine) (k : NodeKey) (p : Pending) (due : Nat) : (e.sleep p due).tasksOf k =
    (e.tasksOf k).map fun q => if q.key = p.key then { q with due := some due } else q := by
  rw [tasksOf, Engine.sleep, List.filter_map]
  refine congrArg _ (List.filter_congr fun q _ => ?_)
  dsimp only [Function.comp_apply]
  split <;> rfl

theorem owns_sleep (e : Engine) (k : NodeKey) (p : Pending) (due : Nat) : (e.sleep p due).owns k = e.owns k := by
  funext key
  rw [owns, owns, tasksOf_sleep, List.any_map]
  refine congrArg (fun f => (e.tasksOf k).any f) (funext fun q => ?_)
  dsimp only [Function.comp_apply]
  split <;> rfl

/-- What is to be seen when a task begins to wait. -/
theorem sight_sleep (e : Engine) (k : NodeKey) (p : Pending) (due : Nat) : (e.sleep p due).sight k = { e.sight k with
    tasks := (e.tasksOf k).map fun q => if q.key = p.key then { q with due := some due } else q
    clocks := e.clocks k ++ if e.owns k p.key then [⟨due, .task p.key⟩] else [] } := by
  have hwoken : (e.sleep p due).woken k = e.woken k := by
    rw [woken, owns_sleep]
    rfl
  have hclocks : (e.sleep p due).clocks k = e.clocks k ++ if e.owns k p.key then [⟨due, .task p.key⟩] else [] := by
    rw [clocks, owns_sleep]
    change ((e.timers ++ [(⟨due, .task p.key⟩ : Timer)]).filter _).filter _ = _
    rw [List.filter_append, List.filter_append]
    simp [clocks, Alarm.taskKey?, List.filter_cons]
  simp only [sight, hwoken, hclocks, tasksOf_sleep]
  rfl

/-- A task of another node has its turn. -/
theorem RunsTask.bypasses (h : RunsTask e p e') (hp : p ∈ e.tasks) (ho : p.owner ≠ k) : Bypasses k e e' := fun hk => by
  have howns := owns_eq_false hk.toKeyed hp ho
  cases h with
  | drops => exact bypasses_finishTask (fun _ => howns) hk
  | resumes => exact bypasses_push _ _ hk
  | dozes => exact ⟨hk, rfl⟩
  | @sleeps ms _ hw hpos hd =>
    refine ⟨hk.sleep hp (e.now + ms), ?_⟩
    change (e.sleep p (e.now + ms)).sight k = _
    have hmap : (e.tasksOf k).map (fun q => if q.key = p.key then { q with due := some (e.now + ms) } else q) =
        e.tasksOf k := by
      refine (List.map_congr_left fun q hq => if_neg fun hkey => ?_).trans (List.map_id' _)
      rw [← hkey, owns_of_mem hq] at howns
      cases howns
    rw [sight_sleep, hmap, howns, if_neg Bool.false_ne_true, List.append_nil]
    rfl

/-! ## The node's own tasks -/

/-- The node of a task that has not been told to stop, or has. -/
theorem isCancelled_eq (e : Engine) (k : NodeKey) : e.isCancelled k = (((e.sight k).marks.map (·.1)).getD true) := by
  rw [isCancelled, sight, Option.map_map]
  rfl

theorem signal?_eq (e : Engine) (k : NodeKey) : e.signal? k = (e.sight k).marks.bind (·.2.1) := by
  rw [signal?, sight, Option.bind_map]
  rfl

/-- The turn of a task that holds a message, while its node is at work. -/
theorem runTask_hold {m : Message} (ht : p.task = Delay.hold ms m) (hc : e.isCancelled p.owner = false) :
    e.runTask p = if p.due.getD (e.now + ms) ≤ e.now then
        e.push [.effect p.owner (.send 0 m), .effect p.owner (.complete m), .finishTask p.key]
      else if p.due.isSome then e else e.sleep p (e.now + ms) := by
  have hc' : ((e.node? p.owner).map (·.cancelled)).getD true = false := hc
  unfold runTask
  simp only [ht, hc', Delay.hold]
  rfl

/-- Once its node has been told to stop, a task that holds a message is given up. -/
theorem runTask_drop (ht : Holds ms p) (hc : e.isCancelled p.owner = true) : e.runTask p = e.finishTask p.key := by
  have hc' : ((e.node? p.owner).map (·.cancelled)).getD true = true := hc
  unfold runTask
  simp only [hc', ht.abandons]
  rfl

/-- The turn of the task that signals when all others of its node are over. -/
theorem runTask_signal (hq : SignalsClose q) : e.runTask q = if (e.tasksOf q.owner).length ≤ 1 then
    e.push [.effect q.owner (.closed (.ok ())), .finishTask q.key] else e := by
  have hq : q.task = signalWhenIdle := hq
  unfold runTask
  simp only [hq, signalWhenIdle]
  rfl

/-- What is to be seen when a task of the node is no longer there. -/
theorem sight_gone (e : Engine) (k : NodeKey) (key : TaskKey) :
    ({ e with tasks := e.tasks.filter (·.key != key) } : Engine).sight k = { e.sight k with
      tasks := (e.tasksOf k).filter (·.key != key)
      woken := (e.woken k).filter (· != key)
      clocks := (e.clocks k).filter fun t => t.alarm.taskKey?.all (· != key) } := by
  have htasks : ({ e with tasks := e.tasks.filter (·.key != key) } : Engine).tasksOf k =
      (e.tasksOf k).filter (·.key != key) := by
    change (e.tasks.filter _).filter _ = (e.tasks.filter _).filter _
    rw [List.filter_filter, List.filter_filter]
    exact List.filter_congr fun _ _ => Bool.and_comm _ _
  have howns (key' : TaskKey) : ({ e with tasks := e.tasks.filter (·.key != key) } : Engine).owns k key' =
      (e.owns k key' && key' != key) := by
    rw [owns, owns, htasks, Bool.eq_iff_iff]
    simp only [List.any_eq_true, List.mem_filter, Bool.and_eq_true, beq_iff_eq, bne_iff_ne, ne_eq]
    constructor
    · rintro ⟨q, ⟨hq, hne⟩, rfl⟩
      exact ⟨⟨q, hq, rfl⟩, hne⟩
    · rintro ⟨⟨q, hq, rfl⟩, hne⟩
      exact ⟨q, ⟨hq, hne⟩, rfl⟩
  have hwoken : ({ e with tasks := e.tasks.filter (·.key != key) } : Engine).woken k = (e.woken k).filter (· != key) := by
    rw [woken, woken, List.filter_filter]
    exact List.filter_congr fun _ _ => (howns _).trans (Bool.and_comm _ _)
  have hclocks : ({ e with tasks := e.tasks.filter (·.key != key) } : Engine).clocks k =
      (e.clocks k).filter fun t => t.alarm.taskKey?.all (· != key) := by
    refine (List.filter_congr fun t _ => ?_).trans (List.filter_filter ..).symm
    cases t.alarm.taskKey? with
    | none => rfl
    | some key' => exact (howns key').trans (Bool.and_comm _ _)
  simp only [sight, htasks, hwoken, hclocks]
  rfl

theorem unblocked_cases (e : Engine) (n : NodeKey) :
    (e.unblocked n = [] ∧ ∀ q, e.tasksOf n = [q] → q.task.wait ≠ .others) ∨
      ∃ q, e.tasksOf n = [q] ∧ q.task.wait = .others ∧ e.unblocked n = [q.key] := by
  unfold unblocked
  split
  · rename_i q hq
    split
    · rename_i hw
      exact .inr ⟨q, hq, hw, rfl⟩
    · rename_i hw
      exact .inl ⟨rfl, fun q' hq' => by rw [hq] at hq'; cases hq'; exact hw⟩
  · rename_i hne
    exact .inl ⟨rfl, fun q hq => absurd hq (hne q)⟩

/-- What is to be seen when a task of the node is over: one that has waited for the others and is left alone is woken. -/
theorem sight_finishTask (hk : Numbered e) (hp : p ∈ e.tasksOf k) : Numbered (e.finishTask p.key) ∧ ∃ woken,
    (e.finishTask p.key).sight k = { e.sight k with
      tasks := (e.tasksOf k).filter (·.key != p.key)
      woken
      clocks := (e.clocks k).filter fun t => t.alarm.taskKey?.all (· != p.key) } ∧
    (e.woken k).filter (· != p.key) ⊆ woken ∧
    (∀ q, (e.tasksOf k).filter (·.key != p.key) = [q] → q.task.wait = .others → q.key ∈ woken) ∧
    ((∀ q ∈ e.tasksOf k, q.task.wait ≠ .others) → woken = (e.woken k).filter (· != p.key)) := by
  obtain ⟨hmem, hown⟩ := mem_tasksOf.mp hp
  have hgone : Numbered { e with tasks := e.tasks.filter (·.key != p.key) } :=
    ⟨⟨hk.nodup.sublist (List.filter_sublist.map _), fun q hq => hk.below q (List.mem_filter.mp hq).1⟩, hk.ready, hk.timers⟩
  have hsight := sight_gone e k p.key
  have heq : e.finishTask p.key = (({ e with tasks := e.tasks.filter (·.key != p.key) } : Engine).unblocked k).foldl
      (fun e key => e.wake (.task key)) { e with tasks := e.tasks.filter (·.key != p.key) } := by
    unfold finishTask
    rw [hk.find? hmem]
    dsimp only
    rw [hown]
  rw [heq]
  generalize hg : ({ e with tasks := e.tasks.filter (·.key != p.key) } : Engine) = g at hgone hsight ⊢
  have htasks : g.tasksOf k = (e.tasksOf k).filter (·.key != p.key) := congrArg Sight.tasks hsight
  have hwoken : g.woken k = (e.woken k).filter (· != p.key) := congrArg Sight.woken hsight
  rcases g.unblocked_cases k with ⟨hnone, hnot⟩ | ⟨q, hq, hw, hone⟩
  · rw [hnone]
    exact ⟨hgone, _, hsight, List.Subset.refl _, fun q hq hw => absurd hw (hnot q (htasks.trans hq)), fun _ => rfl⟩
  · rw [hone]
    have hqmem : q ∈ g.tasksOf k := by simp [hq]
    have hwake : Numbered (g.wake (.task q.key)) := hgone.wake fun key he => by
      cases he
      exact hgone.below q (mem_tasksOf.mp hqmem).1
    obtain ⟨ready, hready⟩ := foldl_wake_eq (fun key : TaskKey => .task key) [q.key] g
    have heq : g.wake (.task q.key) = { g with ready } := hready
    have hst : Tranquil [] g (g.wake (.task q.key)) := tranquil_wake _ _
    have howns : (g.wake (.task q.key)).owns k = g.owns k := by rw [heq]; rfl
    refine ⟨hwake, (g.wake (.task q.key)).woken k, ?_, fun key hm => ?_, fun q' hq' _ => ?_, fun hall => ?_⟩
    · have htasks' : (g.wake (.task q.key)).sight k = { g.sight k with woken := (g.wake (.task q.key)).woken k } := by
        rw [heq]
        rfl
      exact htasks'.trans (by rw [hsight])
    · rw [← hwoken, mem_woken] at hm
      exact mem_woken.mpr ⟨hst.ready _ hm.1, howns ▸ hm.2⟩
    · rw [← htasks, hq] at hq'
      cases hq'
      exact mem_woken.mpr ⟨mem_ready_wake _ _, howns ▸ owns_of_mem hqmem⟩
    · rw [htasks] at hqmem
      exact absurd hw (hall q (List.mem_filter.mp hqmem).1)

/-- A node that is at work is handed a message, which it begins to hold. -/
theorem sight_hand {node : Node} {m : Message} (hk : Numbered e) (h : TakesUp e k node (Delay.behaviour ms)) :
    Numbered (e.hand k m) ∧ (e.hand k m).sight k = { e.sight k with
      tasks := e.tasksOf k ++ [⟨e.nextTask, k, Delay.hold ms m, none⟩]
      woken := e.woken k ++ [e.nextTask]
      marks := (e.node? k).map fun node => (node.cancelled, node.signal, true) } := by
  rw [h.hand_eq m]
  obtain ⟨hs, heq⟩ := sight_startTask hk k (Delay.hold ms m)
  obtain ⟨hp, heq'⟩ := bypasses_push (k := k) (e.startTask k (Delay.hold ms m))
    (((Delay.behaviour ms).onInput (e.situation k node) m).effects.map (.effect k) ++
      [.conclude k m ((Delay.behaviour ms).onInput (e.situation k node) m).outcome]) hs
  exact ⟨hp, heq'.trans heq⟩

/-- The node gives its close signal. -/
theorem sight_signalClosed (hk : Numbered e) (result : CloseResult) : Numbered (e.perform k (.closed result)) ∧
    (e.perform k (.closed result)).sight k = { e.sight k with
      marks := (e.sight k).marks.map fun marks => (marks.1, marks.2.1 <|> some result, marks.2.2) } := by
  have hcalls (s : Engine) : Bypasses k s ((s.calls.filter fun entry => entry.2.waiting.any fun s => s.nodes.contains k).foldl
      (fun e entry => e.wake (.call entry.1)) s) := .foldl _ (fun e entry => bypasses_wake_other rfl e) _ _
  unfold perform
  cases hn : e.node? k with
  | none =>
    refine ⟨hk, ?_⟩
    simp only [sight, hn]
    rfl
  | some node =>
    have hnoted : Numbered (e.noteSignal k result) := ⟨⟨hk.nodup, hk.below⟩, hk.ready, hk.timers⟩
    obtain ⟨hs, heq⟩ := hcalls (e.noteSignal k result) hnoted
    refine ⟨hs, heq.trans ?_⟩
    have hmarks : ((e.noteSignal k result).node? k).map Node.marks =
        ((e.node? k).map Node.marks).map fun marks => (marks.1, marks.2.1 <|> some result, marks.2.2) := by
      rw [noteSignal, node?_modifyNode, if_pos rfl, Option.map_map, Option.map_map]
      rfl
    simp only [sight, hmarks]
    rfl

/-! ## Time -/

/-- Several are woken, one after the other. -/
theorem woken_foldl_wake (ws : List Waiter) (e : Engine)
    (hnew : ∀ key ∈ (ws.filterMap Waiter.taskKey?).filter (e.owns k), key ∉ e.woken k)
    (hnodup : ((ws.filterMap Waiter.taskKey?).filter (e.owns k)).Nodup) :
    (ws.foldl wake e).woken k = e.woken k ++ (ws.filterMap Waiter.taskKey?).filter (e.owns k) := by
  induction ws generalizing e with
  | nil => exact (List.append_nil _).symm
  | cons w ws ih =>
    have hsplit : (w :: ws).filterMap Waiter.taskKey? = [w].filterMap Waiter.taskKey? ++ ws.filterMap Waiter.taskKey? :=
      List.filterMap_append (l := [w])
    have howns : (e.wake w).owns k = e.owns k := owns_of_tasksOf (by rw [tasksOf, tasksOf, tasks_wake])
    rw [hsplit, List.filter_append] at hnew hnodup ⊢
    obtain ⟨-, hrest, hapart⟩ := List.nodup_append.mp hnodup
    have hfirst : (e.wake w).woken k = e.woken k ++ ([w].filterMap Waiter.taskKey?).filter (e.owns k) := by
      rw [woken_wake]
      split
      · rename_i hm
        -- whoever has been woken before is not one of the node's tasks
        have hnone : ([w].filterMap Waiter.taskKey?).filter (e.owns k) = [] := by
          refine List.eq_nil_iff_forall_not_mem.mpr fun key hkey => hnew key (List.mem_append_left _ hkey) ?_
          obtain ⟨hkey, hown⟩ := List.mem_filter.mp hkey
          obtain ⟨x, hx, hxk⟩ := List.mem_filterMap.mp hkey
          obtain rfl := List.mem_singleton.mp hx
          cases x with
          | task key' =>
            cases hxk
            exact mem_woken.mpr ⟨by simpa using hm, hown⟩
          | _ => cases hxk
        rw [hnone, List.append_nil]
      · rfl
    rw [List.foldl_cons, ih (e.wake w) ?_ (by rwa [howns]), hfirst, howns, List.append_assoc]
    intro key hkey
    rw [howns] at hkey
    rw [hfirst, List.mem_append, not_or]
    exact ⟨hnew key (List.mem_append_right _ hkey), fun hm => hapart key hm key hkey rfl⟩

/-- The timers of the node's tasks are awaited. -/
theorem isAwaited_of_mem_clocks {t : Timer} (h : t ∈ e.clocks k) : t ∈ e.timers ∧ e.isAwaited t = true := by
  obtain ⟨hm, hown⟩ := List.mem_filter.mp h
  refine ⟨(List.mem_filter.mp hm).1, ?_⟩
  unfold isAwaited
  cases ha : t.alarm with
  | task key =>
    rw [ha] at hown
    obtain ⟨p, hp, hkey⟩ := List.any_eq_true.mp (show e.owns k key = true from hown)
    exact List.any_eq_true.mpr ⟨p, (mem_tasksOf.mp hp).1, hkey⟩
  | deadline call n =>
    rw [ha] at hown
    cases hown

theorem filter_filterMap_any {α β : Type} (f : α → Option β) (g : β → Bool) (xs : List α) :
    (xs.filterMap f).filter g = (xs.filter fun x => (f x).any g).filterMap f := by
  rw [List.filter_filterMap, List.filterMap_filter]
  refine List.filterMap_congr fun x _ => ?_
  cases f x <;> rfl

theorem taskKey?_alarmWaiter (a : Alarm) : (alarmWaiter a).taskKey? = a.taskKey? := by
  cases a <;> rfl

/-- The timers of the node among those that are awaited. -/
theorem clocks_filter (e : Engine) (k : NodeKey) (f : Timer → Bool) :
    ((e.timers.filter e.isAwaited).filter f).filter (fun t => t.alarm.taskKey?.any (e.owns k)) = (e.clocks k).filter f := by
  rw [clocks, List.filter_filter, List.filter_filter, List.filter_filter, List.filter_filter]
  refine List.filter_congr fun t ht => ?_
  cases hown : t.alarm.taskKey?.any (e.owns k) with
  | false => simp
  | true =>
    have hsome : t.alarm.taskKey?.isSome = true := by
      cases hkey : t.alarm.taskKey? with
      | none => rw [hkey] at hown; cases hown
      | some key => rfl
    have hmem : t ∈ e.clocks k := List.mem_filter.mpr ⟨List.mem_filter.mpr ⟨ht, hsome⟩, hown⟩
    simp [hsome, (isAwaited_of_mem_clocks hmem).2]

/-- When time moves to a moment, the timers that are due then wake those for whom they stand. -/
theorem moveTo_eq_foldl (ha : e.agenda = []) (moment : Nat) : e.moveTo moment =
    (((e.timers.filter e.isAwaited).filter (·.due ≤ moment)).map (fun t => alarmWaiter t.alarm)).foldl Engine.wake { e with
      now := moment, timers := (e.timers.filter e.isAwaited).filter fun t => !decide (t.due ≤ moment) } := by
  have hmoved : e.moveTo moment = ((e.timers.filter e.isAwaited).partition (·.due ≤ moment)).1.foldl
      (fun e t => e.wake (alarmWaiter t.alarm))
      { e with now := moment, timers := ((e.timers.filter e.isAwaited).partition (·.due ≤ moment)).2 } := by
    unfold moveTo
    rw [ha]
    rfl
  rw [hmoved, List.partition_eq_filter_filter, List.foldl_map]
  rfl

theorem moveTo_eq (ha : e.agenda = []) (moment : Nat) : ∃ ready, e.moveTo moment = { e with
    now := moment, timers := (e.timers.filter e.isAwaited).filter fun t => !decide (t.due ≤ moment), ready } := by
  rw [moveTo_eq_foldl ha]
  exact foldl_wake_eq id _ _

theorem Numbered.moveTo (hk : Numbered e) (ha : e.agenda = []) (moment : Nat) : Numbered (e.moveTo moment) := by
  have hbase : Numbered ({ e with
      now := moment, timers := (e.timers.filter e.isAwaited).filter fun t => !decide (t.due ≤ moment) } : Engine) := by
    refine ⟨⟨hk.nodup, hk.below⟩, hk.ready, fun t ht => ?_⟩
    obtain ⟨hm, hsome⟩ := List.mem_filter.mp ht
    exact hk.timers t (List.mem_filter.mpr ⟨(List.mem_filter.mp (List.mem_filter.mp hm).1).1, hsome⟩)
  have hnumbered (ws : List Waiter) (s : Engine) (hs : Numbered s)
      (hw : ∀ w ∈ ws, ∀ key, w = .task key → key < s.nextTask) : Numbered (ws.foldl Engine.wake s) := by
    induction ws generalizing s with
    | nil => exact hs
    | cons w ws ih =>
      have hnext : (s.wake w).nextTask = s.nextTask := congrArg (·.1) (lent_wake s w)
      exact ih (s.wake w) (hs.wake (hw w List.mem_cons_self)) fun x hx => hnext ▸ hw x (List.mem_cons_of_mem _ hx)
  rw [moveTo_eq_foldl ha]
  refine hnumbered _ _ hbase fun w hw key hkey => ?_
  obtain ⟨t, ht, rfl⟩ := List.mem_map.mp hw
  have ht' : t ∈ e.timers := (List.mem_filter.mp (List.mem_filter.mp ht).1).1
  have htask : t.alarm.taskKey? = some key := by rw [← taskKey?_alarmWaiter, hkey]; rfl
  exact hk.timers t (List.mem_filter.mpr ⟨ht', by rw [htask]; rfl⟩) key htask

/-- The timers of the node that are due wake its tasks in the order in which they were set. -/
theorem sight_moveTo (ha : e.agenda = []) (moment : Nat)
    (hnew : ∀ t ∈ e.clocks k, t.due ≤ moment → ∀ key, t.alarm.taskKey? = some key → key ∉ e.woken k)
    (hnodup : ((e.clocks k).filterMap (·.alarm.taskKey?)).Nodup) : (e.moveTo moment).sight k = { e.sight k with
      now := moment
      woken := e.woken k ++ ((e.clocks k).filter (·.due ≤ moment)).filterMap (·.alarm.taskKey?)
      clocks := (e.clocks k).filter fun t => !decide (t.due ≤ moment) } := by
  have hws : ((((e.timers.filter e.isAwaited).filter (·.due ≤ moment)).map fun t => alarmWaiter t.alarm).filterMap
      Waiter.taskKey?).filter (e.owns k) = ((e.clocks k).filter (·.due ≤ moment)).filterMap (·.alarm.taskKey?) := by
    rw [List.filterMap_map, ← clocks_filter, ← filter_filterMap_any]
    exact congrArg (List.filter _) (List.filterMap_congr fun t _ => taskKey?_alarmWaiter t.alarm)
  obtain ⟨ready, heq⟩ := moveTo_eq ha moment
  have hwoken : (e.moveTo moment).woken k =
      e.woken k ++ ((e.clocks k).filter (·.due ≤ moment)).filterMap (·.alarm.taskKey?) := by
    rw [moveTo_eq_foldl ha, woken_foldl_wake]
    · exact congrArg (e.woken k ++ ·) hws
    · intro key hm
      obtain ⟨t, ht, hkey⟩ := List.mem_filterMap.mp (hws ▸ hm)
      obtain ⟨ht, hdue⟩ := List.mem_filter.mp ht
      exact hnew t ht (by simpa using hdue) key hkey
    · exact (congrArg List.Nodup hws).mpr (hnodup.sublist (List.filter_sublist.filterMap _))
  have hclocks : (e.moveTo moment).clocks k = (e.clocks k).filter fun t => !decide (t.due ≤ moment) := by
    rw [← clocks_filter, heq]
    change (List.filter _ (List.filter _ _)).filter _ = _
    rw [List.filter_filter]
    refine List.filter_congr fun t _ => ?_
    cases t.alarm.taskKey? <;> simp [Engine.owns, tasksOf]
  have hrest : (e.moveTo moment).sight k = { e.sight k with
      now := moment, woken := (e.moveTo moment).woken k, clocks := (e.moveTo moment).clocks k } := by
    rw [heq]
    rfl
  rw [hrest, hwoken, hclocks]

/-! ## What a deed is to the node -/

/-- What a step is to a delay node. -/
inductive Befalls (ms : Nat) (k : NodeKey) (e : Engine) : Deed → Engine → Prop
  /-- It passes the node by. -/
  | apart {d : Deed} {e' : Engine} (hn : Numbered e') (hs : e'.sight k = e.sight k)
      (hhand : ∀ m, d = .act (.hand k m) → ∀ node b, ¬TakesUp e k node b)
      (hturn : ∀ p ∈ e.tasksOf k, d ≠ .turn (.task p.key)) : Befalls ms k e d e'
  /-- It brings the node into being. -/
  | born {a : Action} {e' : Engine} (hn : Numbered e') (hnone : e.node? k = none) (hhand : ∀ m, a ≠ .hand k m)
      (hs : e'.sight k = { e.sight k with marks := some (false, none, false) }) : Befalls ms k e (.act a) e'
  | dismissed {call : CallKey} {agenda : List Action} (ha : e.agenda = .resume call :: agenda)
      (h : Dismisses ms k { e with agenda } (Engine.act { e with agenda } (.resume call))) :
      Befalls ms k e (.act (.resume call)) (Engine.act { e with agenda } (.resume call))
  | takes {m : Message} {node : Node} {e' : Engine} (ht : TakesUp e k node (Delay.behaviour ms)) (hn : Numbered e')
      (hs : e'.sight k = { e.sight k with
        tasks := e.tasksOf k ++ [⟨e.nextTask, k, Delay.hold ms m, none⟩]
        woken := e.woken k ++ [e.nextTask]
        marks := (e.node? k).map fun node => (node.cancelled, node.signal, true) }) : Befalls ms k e (.act (.hand k m)) e'
  | signals {result : CloseResult} {e' : Engine} (hn : Numbered e') (hs : e'.sight k = { e.sight k with
      marks := (e.sight k).marks.map fun marks => (marks.1, marks.2.1 <|> some result, marks.2.2) }) :
      Befalls ms k e (.act (.effect k (.closed result))) e'
  | finishes {p : Pending} {e' : Engine} {woken : List TaskKey} (hp : p ∈ e.tasksOf k) (hn : Numbered e')
      (hs : e'.sight k = { e.sight k with
        tasks := (e.tasksOf k).filter (·.key != p.key)
        woken
        clocks := (e.clocks k).filter fun t => t.alarm.taskKey?.all (· != p.key) })
      (hsub : (e.woken k).filter (· != p.key) ⊆ woken)
      (hlast : ∀ q, (e.tasksOf k).filter (·.key != p.key) = [q] → q.task.wait = .others → q.key ∈ woken)
      (hall : (∀ q ∈ e.tasksOf k, q.task.wait ≠ .others) → woken = (e.woken k).filter (· != p.key)) :
      Befalls ms k e (.act (.finishTask p.key)) e'
  | turn {p : Pending} (hp : p ∈ e.tasksOf k) (ha : e.agenda = []) (hw : .task p.key ∈ e.ready) :
      Befalls ms k e (.turn (.task p.key)) ((e.turned (.task p.key)).runTask p)
  | time {moment : Nat} (ha : e.agenda = []) (hm : e.now ≤ moment) : Befalls ms k e .rest (e.moveTo moment)

theorem HoldsFor.pop (h : e.HoldsFor ms k) (agenda : List Action) : HoldsFor { e with agenda } ms k := h

/-- What an action is to the node. -/
theorem befalls_act (hr : Reachable e) (hn : Numbered e) (hd : e.HoldsFor ms k)
    (hat : Working ms (e.sight k) ∨ ¬e.IsActive k)
    (hwait : ∀ call c, e.call? call = some c → k ∉ (c.waiting.flatMap Stopping.orders).map (·.node))
    (ha : e.agenda = a :: agenda) : Befalls ms k e (.act a) (Engine.act { e with agenda } a) := by
  have hpop : Numbered { e with agenda } := ⟨⟨hn.nodup, hn.below⟩, hn.ready, hn.timers⟩
  have hbears (hhand : ∀ m, a = .hand k m → ∀ node b, ¬TakesUp e k node b) (hclosed : ∀ r, a ≠ .effect k (.closed r))
      (hfinish : ∀ key, a = .finishTask key → e.owns k key = false) (hresume : ∀ call, a ≠ .resume call) :
      Befalls ms k e (.act a) (Engine.act { e with agenda } a) := by
    have hbears : Bears k { e with agenda } (Engine.act { e with agenda } a) := bears_act
      (fun m he node b ht => hhand m he node b ⟨ht.there, ht.awake, ht.part⟩) hclosed hfinish hresume
    obtain ⟨hn', hs | ⟨hnone, hs⟩⟩ := hbears hpop
    · exact .apart hn' hs (fun m he => hhand m (Deed.act.inj he)) nofun
    · by_cases hm : ∃ m, a = .hand k m
      · obtain ⟨m, rfl⟩ := hm
        have hnone' : ({ e with agenda } : Engine).node? k = none := hnone
        have hsame : Engine.act { e with agenda } (.hand k m) = { e with agenda } := by
          change Engine.hand { e with agenda } k m = _
          unfold hand
          rw [hnone']
        exact .apart hn' (by rw [hsame]; rfl) (fun m he => hhand m (Deed.act.inj he)) nofun
      · exact .born hn' hnone (fun m he => hm ⟨m, he⟩) hs
  cases a with
  | hand n m =>
    by_cases ht : n = k ∧ ∃ node b, TakesUp e k node b
    · obtain ⟨rfl, node, b, ht⟩ := ht
      obtain rfl : b = Delay.behaviour ms := Part.ordinary.inj (ht.part.symm.trans (hd node ht.there))
      have ht' : TakesUp { e with agenda } n node (Delay.behaviour ms) := ⟨ht.there, ht.awake, ht.part⟩
      obtain ⟨hn', hs⟩ := sight_hand (m := m) hpop ht'
      exact .takes ht hn' hs
    · refine hbears (fun m' he node b h => ?_) nofun nofun nofun
      cases he
      exact ht ⟨rfl, node, b, h⟩
  | effect n effect =>
    by_cases hc : n = k ∧ ∃ r, effect = .closed r
    · obtain ⟨rfl, r, rfl⟩ := hc
      obtain ⟨hn', hs⟩ := sight_signalClosed hpop r
      exact .signals hn' hs
    · refine hbears nofun (fun r he => ?_) nofun nofun
      cases he
      exact hc ⟨rfl, r, rfl⟩
  | finishTask key =>
    by_cases ho : e.owns k key = true
    · obtain ⟨p, hp, hkey⟩ := List.any_eq_true.mp ho
      obtain rfl : p.key = key := by simpa using hkey
      have hp' : p ∈ ({ e with agenda } : Engine).tasksOf k := hp
      obtain ⟨hn', woken, hs, hsub, hlast, hall⟩ := sight_finishTask hpop hp'
      exact .finishes hp hn' hs hsub hlast hall
    · refine hbears nofun nofun (fun key' he => ?_) nofun
      cases he
      simpa using ho
  | resume call =>
    have hst : Stands e { e with agenda } := .of_levels (fun _ => rfl) (fun _ => rfl) fun _ => rfl
    have hlaid : Laid { e with agenda } := hr.layout.laid.of_levels (.of_eq rfl rfl rfl rfl) fun _ => rfl
    have ht : Treats ms k { e with agenda } (Engine.act { e with agenda } (.resume call)) :=
      treats_resume hlaid (hr.manned.stands hst) hd (hwait call)
    obtain ⟨hn', hs | hs⟩ := ht hpop hat
    · exact .apart hn' hs nofun nofun
    · exact .dismissed ha hs
  | _ => exact hbears nofun nofun nofun nofun

theorem bypasses_readEvents (e : Engine) : Bypasses k e e.readEvents := by
  unfold readEvents
  split
  · exact .refl k e
  · split
    · exact .refl k e
    · split
      · exact .of_chores rfl rfl
      · dsimp only
        split <;> exact .of_chores rfl rfl

/-- A turn of somebody who looks after none of the node's tasks. -/
theorem bypasses_turn (hw : ∀ key, w = .task key → e.owns k key = false) :
    Bypasses k e ((e.turned w).runWaiter w) := by
  refine (bypasses_turned hw).trans ?_
  have ht := turns_runWaiter (e.turned w) w
  cases w with
  | call key => exact bypasses_push _ _
  | reader => exact bypasses_readEvents _
  | task key =>
    generalize (e.turned (.task key)).runWaiter (.task key) = e' at ht ⊢
    cases ht with
    | nobody => exact .refl k _
    | @task _ p _ hfind hr =>
      obtain ⟨hp, hkey⟩ := mem_of_find?_key hfind
      refine hr.bypasses hp fun ho => ?_
      have hown : e.owns k p.key = true := owns_of_mem (mem_tasksOf.mpr ⟨hp, ho⟩)
      rw [hkey, hw key rfl] at hown
      cases hown

/-- What a step is to a delay node that is at work, or not active any more, or not yet. -/
theorem Does.befalls (h : Does e d e') (hr : Reachable e) (hn : Numbered e) (hd : e.HoldsFor ms k)
    (hat : Working ms (e.sight k) ∨ ¬e.IsActive k)
    (hwait : ∀ call c, e.call? call = some c → k ∉ (c.waiting.flatMap Stopping.orders).map (·.node))
    (hput : (e.sight k).putOff = []) : Befalls ms k e d e' := by
  have hbypass {d : Deed} {e' : Engine} (hb : Bypasses k e e') (hhand : ∀ a, d ≠ .act a)
      (hturn : ∀ p ∈ e.tasksOf k, d ≠ .turn (.task p.key)) : Befalls ms k e d e' :=
    .apart (hb hn).1 (hb hn).2 (fun m he => absurd he (hhand _)) hturn
  cases h with
  | act hb ha => exact befalls_act hr hn hd hat hwait ha
  | @turn w hb ha hw =>
    by_cases ho : ∃ p ∈ e.tasksOf k, w = .task p.key
    · obtain ⟨p, hp, rfl⟩ := ho
      have hfind : (e.turned (.task p.key)).tasks.find? (·.key == p.key) = some p := hn.find? (mem_tasksOf.mp hp).1
      have hrun : (e.turned (.task p.key)).runWaiter (.task p.key) = (e.turned (.task p.key)).runTask p := by
        unfold runWaiter
        simp only [hfind]
      change Befalls ms k e _ ((e.turned (.task p.key)).runWaiter (.task p.key))
      rw [hrun]
      exact .turn hp ha hw
    · refine hbypass (bypasses_turn fun key he => ?_) nofun fun p hp he => ho ⟨p, hp, Deed.turn.inj he⟩
      refine List.any_eq_false.mpr fun p hp hkey => ho ⟨p, hp, ?_⟩
      rw [he, (by simpa using hkey : p.key = key)]
  | wake ha => exact hbypass (bypasses_wakePutOff hput) nofun nofun
  | time moment ha hm => exact .time ha hm
  | asked ha h => exact hbypass (bypasses_asked h) nofun nofun

end Flowgraph.Engine
