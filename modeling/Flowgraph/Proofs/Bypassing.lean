import Flowgraph.Proofs.Holding
/-! What passes a node by. Whatever is done elsewhere leaves the tasks of a node as they are, the order in which they have
been woken, and the order in which their timers were set. -/
namespace Flowgraph

/-- The task that is woken. -/
def Waiter.taskKey? : Waiter → Option TaskKey
  | .task key => some key
  | _ => none

/-- The task for which a timer stands. -/
def Alarm.taskKey? : Alarm → Option TaskKey
  | .task key => some key
  | .deadline .. => none

/-- What is known of the work of a node. -/
def Node.marks (n : Node) : Bool × Option CloseResult × Bool := (n.cancelled, n.signal, n.hasTasks)

namespace Engine

variable {e e' e'' m : Engine} {k n : NodeKey} {j : LevelKey} {p : Pending} {w : Waiter} {key : TaskKey} {call : CallKey}

/-! ## The work of one node -/

/-- All that concerns tasks: which there are, who of them has been woken, and what timers stand for them. -/
def chores (e : Engine) : Nat × TaskKey × List Pending × List TaskKey × List Timer × List TaskKey :=
  (e.now, e.nextTask, e.tasks, e.ready.filterMap Waiter.taskKey?, e.timers.filter (·.alarm.taskKey?.isSome),
    e.putOff.filterMap Waiter.taskKey?)

/-- The task of this key is one of the node's. -/
def owns (e : Engine) (k : NodeKey) (key : TaskKey) : Bool := (e.tasksOf k).any (·.key == key)

/-- The tasks of a node that have been woken, in the order of their turns. -/
def woken (e : Engine) (k : NodeKey) : List TaskKey := (e.ready.filterMap Waiter.taskKey?).filter (e.owns k)

/-- The timers of the tasks of a node, in the order in which they were set. -/
def clocks (e : Engine) (k : NodeKey) : List Timer :=
  (e.timers.filter (·.alarm.taskKey?.isSome)).filter fun t => t.alarm.taskKey?.any (e.owns k)

/-- What there is to be seen of the work of one node. -/
structure Sight where
  now : Nat
  tasks : List Pending
  woken : List TaskKey
  clocks : List Timer
  /-- The tasks, of whatever node, that have run out of room. -/
  putOff : List TaskKey
  marks : Option (Bool × Option CloseResult × Bool)

def sight (e : Engine) (k : NodeKey) : Sight where
  now := e.now
  tasks := e.tasksOf k
  woken := e.woken k
  clocks := e.clocks k
  putOff := e.putOff.filterMap Waiter.taskKey?
  marks := (e.node? k).map Node.marks

theorem owns_of_mem (h : p ∈ e.tasksOf k) : e.owns k p.key = true :=
  List.any_eq_true.mpr ⟨p, h, by simp⟩

theorem mem_tasksOf : p ∈ e.tasksOf k ↔ p ∈ e.tasks ∧ p.owner = k := by
  simp [tasksOf]

/-- A task belongs to one node only. -/
theorem owns_eq_false (hk : Keyed e) (hp : p ∈ e.tasks) (ho : p.owner ≠ k) : e.owns k p.key = false := by
  refine List.any_eq_false.mpr fun q hq hkey => ho ?_
  obtain ⟨hq, hqk⟩ := mem_tasksOf.mp hq
  rw [hk.unique hp hq (by simpa using hkey : q.key = p.key).symm]
  exact hqk

theorem owns_nextTask (hk : Keyed e) : e.owns k e.nextTask = false := by
  refine List.any_eq_false.mpr fun q hq hkey => ?_
  exact absurd (hk.below q (mem_tasksOf.mp hq).1) (Nat.not_lt.mpr (Nat.le_of_eq (by simpa using hkey : q.key = e.nextTask).symm))

theorem owns_of_tasksOf (h : e'.tasksOf k = e.tasksOf k) : e'.owns k = e.owns k := by
  funext key
  rw [owns, owns, h]

theorem sight_eq (hc : e'.chores = e.chores) (hm : (e'.node? k).map Node.marks = (e.node? k).map Node.marks) :
    e'.sight k = e.sight k := by
  obtain ⟨hnow, -, htasks, hready, htimers, hput⟩ := by simpa only [chores, Prod.mk.injEq] using hc
  have htasksOf : e'.tasksOf k = e.tasksOf k := by rw [tasksOf, tasksOf, htasks]
  simp only [sight, woken, clocks, owns_of_tasksOf htasksOf, hnow, htasksOf, hready, htimers, hput, hm]

/-- No key that is still to be given has been woken, and no timer stands for one. -/
structure Numbered (e : Engine) : Prop extends Keyed e where
  ready : ∀ key ∈ e.ready.filterMap Waiter.taskKey?, key < e.nextTask
  timers : ∀ t ∈ e.timers.filter (·.alarm.taskKey?.isSome), ∀ key, t.alarm.taskKey? = some key → key < e.nextTask

/-- What is done passes the node by. -/
def Bypasses (k : NodeKey) (e e' : Engine) : Prop := Numbered e → Numbered e' ∧ e'.sight k = e.sight k

namespace Bypasses

theorem refl (k : NodeKey) (e : Engine) : Bypasses k e e := fun hk => ⟨hk, rfl⟩

theorem trans (h : Bypasses k e m) (h' : Bypasses k m e') : Bypasses k e e' := fun hk =>
  ⟨(h' (h hk).1).1, (h' (h hk).1).2.trans (h hk).2⟩

theorem foldl {α : Type} (f : Engine → α → Engine) (h : ∀ e a, Bypasses k e (f e a)) (xs : List α) (e : Engine) :
    Bypasses k e (xs.foldl f e) :=
  List.foldlRecOn xs f (motive := fun s => Bypasses k e s) (.refl k e) fun s hs a _ => hs.trans (h s a)

/-- No task is touched. -/
theorem of_chores (hc : e'.chores = e.chores) (hm : (e'.node? k).map Node.marks = (e.node? k).map Node.marks) :
    Bypasses k e e' := fun hk => by
  refine ⟨?_, sight_eq hc hm⟩
  obtain ⟨-, hnext, htasks, hready, htimers, -⟩ := by simpa only [chores, Prod.mk.injEq] using hc
  exact ⟨⟨htasks ▸ hk.nodup, hnext ▸ htasks ▸ hk.below⟩, hready ▸ hnext ▸ hk.ready, htimers ▸ hnext ▸ hk.timers⟩

end Bypasses

theorem tasks_wake (e : Engine) (w : Waiter) : (e.wake w).tasks = e.tasks := congrArg (·.2) (lent_wake e w)

/-- Somebody is woken whose key has been given. -/
theorem Numbered.wake (hk : Numbered e) (h : ∀ key, w = .task key → key < e.nextTask) : Numbered (e.wake w) := by
  unfold Engine.wake
  split
  · exact hk
  · refine ⟨⟨hk.nodup, hk.below⟩, fun key hm => ?_, hk.timers⟩
    rw [List.filterMap_append, List.mem_append] at hm
    rcases hm with hm | hm
    · exact hk.ready key hm
    · cases w with
      | task key' =>
        obtain rfl := List.mem_singleton.mp hm
        exact h _ rfl
      | _ => cases hm

theorem woken_wake (e : Engine) (k : NodeKey) (w : Waiter) : (e.wake w).woken k =
    if e.ready.contains w then e.woken k else e.woken k ++ ([w].filterMap Waiter.taskKey?).filter (e.owns k) := by
  unfold wake
  split
  · rfl
  · change ((e.ready ++ [w]).filterMap Waiter.taskKey?).filter (e.owns k) = _
    rw [List.filterMap_append, List.filter_append]
    rfl

/-- Somebody else is woken. -/
theorem bypasses_wake (h : Numbered e → ∀ key, w = .task key → e.owns k key = false ∧ key < e.nextTask) :
    Bypasses k e (e.wake w) := fun hk => by
  refine ⟨hk.wake fun key he => (h hk key he).2, ?_⟩
  have hnot : ([w].filterMap Waiter.taskKey?).filter (e.owns k) = [] := by
    cases w with
    | task key => simp [Waiter.taskKey?, (h hk key rfl).1]
    | _ => rfl
  have hwoken : (e.wake w).woken k = e.woken k := by rw [woken_wake, hnot, List.append_nil, ite_self]
  unfold wake at *
  split at hwoken
  · rw [if_pos ‹_›]
  · rw [if_neg ‹_›]
    simp only [sight, hwoken]
    rfl

theorem bypasses_wake_other (hw : w.taskKey? = none) (e : Engine) : Bypasses k e (e.wake w) :=
  bypasses_wake fun _ key he => by rw [he] at hw; cases hw

/-- The tasks that are woken are those of others. -/
theorem bypasses_wakeAll (keys : List TaskKey) (e : Engine)
    (h : ∀ key ∈ keys, ∃ p ∈ e.tasks, p.key = key ∧ p.owner ≠ k) :
    Bypasses k e (keys.foldl (fun e key => e.wake (.task key)) e) := by
  induction keys generalizing e with
  | nil => exact .refl k e
  | cons key keys ih =>
    obtain ⟨p, hp, hkey, ho⟩ := h key List.mem_cons_self
    have hfirst : Bypasses k e (e.wake (.task key)) := bypasses_wake fun hk key' he => by
      cases he
      exact hkey ▸ ⟨owns_eq_false hk.toKeyed hp ho, hk.below p hp⟩
    refine hfirst.trans (ih _ fun key' hm => ?_)
    rw [tasks_wake]
    exact h key' (List.mem_cons_of_mem _ hm)

theorem marks_modifyNode (hne : n ≠ k) (f : Node → Node) :
    ((e.modifyNode n f).node? k).map Node.marks = (e.node? k).map Node.marks := by
  rw [node?_modifyNode, if_neg hne]

theorem bypasses_modifyNode (hne : n ≠ k) (f : Node → Node) (e : Engine) : Bypasses k e (e.modifyNode n f) :=
  .of_chores rfl (marks_modifyNode hne f)

theorem bypasses_noteSignal (hne : n ≠ k) (e : Engine) (result : CloseResult) : Bypasses k e (e.noteSignal n result) :=
  bypasses_modifyNode hne _ e

theorem bypasses_note (e : Engine) (notes : List Note) : Bypasses k e (e.note notes) := .of_chores rfl rfl

theorem bypasses_modifyLevel (e : Engine) (j : LevelKey) (f : Level → Level) : Bypasses k e (e.modifyLevel j f) :=
  .of_chores rfl rfl

theorem bypasses_push (e : Engine) (actions : List Action) : Bypasses k e (e.push actions) := .of_chores rfl rfl

theorem bypasses_modifyCall (e : Engine) (f : Call → Call) : Bypasses k e (e.modifyCall call f) := .of_chores rfl rfl

theorem bypasses_publish (e : Engine) (event : Event) : Bypasses k e (e.publish event) := by
  have hevent : Bypasses k e { e with events := e.events ++ [event] } := .of_chores rfl rfl
  unfold publish
  dsimp only
  split
  · exact hevent.trans (bypasses_wake_other rfl _)
  · exact hevent

/-- A task is added under a new key. -/
theorem Numbered.add (hk : Numbered e) (n : NodeKey) (task : Task) :
    Numbered { e with nextTask := e.nextTask + 1, tasks := e.tasks ++ [⟨e.nextTask, n, task, none⟩] } := by
  refine ⟨⟨?_, fun p hp => ?_⟩, fun key hm => Nat.lt_succ_of_lt (hk.ready key hm),
    fun t ht key hkey => Nat.lt_succ_of_lt (hk.timers t ht key hkey)⟩
  · rw [List.map_append]
    refine List.nodup_append.mpr ⟨hk.nodup, List.nodup_singleton _, fun x hx y hy hxy => ?_⟩
    obtain ⟨p, hp, rfl⟩ := List.mem_map.mp hx
    obtain rfl := List.mem_singleton.mp hy
    exact absurd (hk.below p hp) (by simp [hxy])
  · rcases List.mem_append.mp hp with hp | hp
    · exact Nat.lt_succ_of_lt (hk.below p hp)
    · obtain rfl := List.mem_singleton.mp hp
      exact Nat.lt_succ_self _

/-- Another node starts a task. -/
theorem bypasses_startTask (hne : n ≠ k) (e : Engine) (task : Task) : Bypasses k e (e.startTask n task) := by
  have hadded : Bypasses k e { e with nextTask := e.nextTask + 1, tasks := e.tasks ++ [⟨e.nextTask, n, task, none⟩] } :=
    fun hk => by
      have htasksOf : ({ e with nextTask := e.nextTask + 1, tasks := e.tasks ++ [⟨e.nextTask, n, task, none⟩] } :
          Engine).tasksOf k = e.tasksOf k := by
        simp [tasksOf, hne]
      refine ⟨hk.add n task, ?_⟩
      simp only [sight, woken, clocks, owns_of_tasksOf htasksOf, htasksOf]
      rfl
  refine (hadded.trans (bypasses_modifyNode hne (fun node => { node with hasTasks := true }) _)).trans ?_
  refine bypasses_wake fun hk key he => ?_
  cases he
  have hmem : (⟨e.nextTask, n, task, none⟩ : Pending) ∈ e.tasks ++ [⟨e.nextTask, n, task, none⟩] :=
    List.mem_append_right _ List.mem_cons_self
  exact ⟨owns_eq_false hk.toKeyed hmem hne, Nat.lt_succ_self _⟩

/-- Another node is told to stop. -/
theorem bypasses_cancel (hne : n ≠ k) (e : Engine) : Bypasses k e (e.cancel n) := by
  unfold cancel
  refine (bypasses_modifyNode hne (fun node => { node with cancelled := true }) e).trans ?_
  rw [← List.foldl_map (f := fun p : Pending => p.key) (g := fun (e : Engine) (key : TaskKey) => e.wake (.task key))]
  refine bypasses_wakeAll _ _ fun key hm => ?_
  obtain ⟨p, hp, rfl⟩ := List.mem_map.mp hm
  obtain ⟨hp, ho⟩ := mem_tasksOf.mp (List.mem_filter.mp hp).1
  exact ⟨p, hp, rfl, ho ▸ hne⟩

theorem exists_of_mem_unblocked (h : key ∈ e.unblocked n) : ∃ p ∈ e.tasksOf n, p.key = key := by
  unfold unblocked at h
  split at h
  · rename_i p htasks
    split at h
    · obtain rfl := List.mem_singleton.mp h
      exact ⟨p, by simp [htasks], rfl⟩
    · cases h
  · cases h

/-- A task of another node is over. -/
theorem bypasses_finishTask (h : Numbered e → e.owns k key = false) : Bypasses k e (e.finishTask key) := fun hk => by
  unfold finishTask
  split
  · exact ⟨hk, rfl⟩
  · rename_i p hfind
    obtain ⟨hp, rfl⟩ := mem_of_find?_key hfind
    have hne (q : Pending) (hq : q ∈ e.tasks) (ho : q.owner = k) : q.key ≠ p.key := fun hkey => by
      have hnot := h hk
      rw [← hkey, owns_of_mem (mem_tasksOf.mpr ⟨hq, ho⟩)] at hnot
      cases hnot
    have hgone : Bypasses k e { e with tasks := e.tasks.filter (·.key != p.key) } := fun hk => by
      have htasksOf : ({ e with tasks := e.tasks.filter (·.key != p.key) } : Engine).tasksOf k = e.tasksOf k := by
        change (e.tasks.filter _).filter _ = e.tasks.filter _
        rw [List.filter_filter]
        refine List.filter_congr fun q hq => ?_
        by_cases ho : q.owner = k
        · simp [ho, hne q hq ho]
        · simp [ho]
      refine ⟨⟨⟨hk.nodup.sublist (List.filter_sublist.map _), fun q hq => hk.below q (List.mem_filter.mp hq).1⟩,
        hk.ready, hk.timers⟩, ?_⟩
      simp only [sight, woken, clocks, owns_of_tasksOf htasksOf, htasksOf]
      rfl
    refine hgone.trans (bypasses_wakeAll _ _ fun key hm => ?_) hk
    obtain ⟨q, hq, hkey⟩ := exists_of_mem_unblocked hm
    obtain ⟨hq, ho⟩ := mem_tasksOf.mp hq
    exact ⟨q, hq, hkey, fun howner => hne p hp (ho.symm.trans howner) rfl⟩

/-! ## Stops -/

theorem bypasses_closeBySignal (e : Engine) (n : NodeKey) (removed : Bool) (report : StopReport) (result : CloseResult) :
    Bypasses k e (e.closeBySignal n removed report result).1 := by
  unfold closeBySignal
  split
  · exact .refl k e
  · split
    · exact bypasses_publish _ _
    · exact .refl k e

theorem bypasses_closeByDeadline (e : Engine) (n : NodeKey) (report : StopReport) :
    Bypasses k e (e.closeByDeadline n report).1 := by
  unfold closeByDeadline
  split
  · exact .refl k e
  · exact bypasses_publish _ _

/-- Whoever looks after a node leaves its tasks alone. -/
theorem bypasses_pollAsked (e : Engine) (n : NodeKey) (removed : Bool) (deadline : Nat) (report : StopReport) :
    Bypasses k e (e.pollAsked n removed deadline report).1 := by
  unfold pollAsked
  split
  · exact .refl k e
  · rename_i room _
    have hroom : Bypasses k e { e with room } := .of_chores rfl rfl
    split
    · exact hroom.trans (bypasses_closeBySignal _ _ _ _ _)
    · split
      · exact hroom.trans (bypasses_closeByDeadline _ _ _)
      · exact .refl k e

theorem bypasses_await (e : Engine) (call : CallKey) (n : NodeKey) (removed : Bool) (report : StopReport) :
    Bypasses k e (e.await call n removed report).1 := by
  have htimer : Bypasses k e { e with timers := e.timers ++ [⟨e.now + e.closeTimeout, .deadline call n⟩] } := by
    refine .of_chores ?_ rfl
    simp [chores, List.filter_append, Alarm.taskKey?]
  exact htimer.trans (bypasses_pollAsked _ _ _ _ _)

/-- Another node is asked to close. -/
theorem bypasses_askToClose (hne : n ≠ k) (e : Engine) (call : CallKey) (removed : Bool) (report : StopReport) :
    Bypasses k e (e.askToClose call n removed report).1 := by
  unfold askToClose
  split
  · exact .refl k e
  · split
    · rename_i b _
      dsimp only
      refine Bypasses.trans (bypasses_note e (b.onClose removed).1) ?_
      split
      · exact (bypasses_noteSignal hne _ _).trans (bypasses_await _ _ _ _ _)
      · exact bypasses_closeBySignal _ _ _ _ _
      · exact bypasses_await _ _ _ _ _
      · exact (bypasses_startTask hne _ _).trans (bypasses_await _ _ _ _ _)
      · split
        · exact (bypasses_startTask hne _ _).trans (bypasses_await _ _ _ _ _)
        · exact (bypasses_noteSignal hne _ _).trans (bypasses_await _ _ _ _ _)
    · exact (bypasses_noteSignal hne _ _).trans (bypasses_await _ _ _ _ _)

theorem bypasses_refresh (e : Engine) (j : LevelKey) : Bypasses k e (e.refresh j) := by
  unfold refresh
  split
  · exact .refl k e
  · exact bypasses_modifyLevel _ _ _

theorem bypasses_cancelAll (targets : List NodeKey) (e : Engine) (h : k ∉ targets) :
    Bypasses k e (targets.foldl (fun e n => e.cancel n) e) := by
  induction targets generalizing e with
  | nil => exact .refl k e
  | cons n targets ih =>
    exact (bypasses_cancel (List.ne_of_not_mem_cons h).symm e).trans (ih _ (List.not_mem_of_not_mem_cons h))

/-- Others are taken out of a level. -/
theorem bypasses_withdraw {targets : List NodeKey} (h : k ∉ targets) (e : Engine) (j : LevelKey) :
    Bypasses k e (e.withdraw j targets) := (bypasses_modifyLevel e j _).trans (bypasses_cancelAll targets _ h)

theorem bypasses_vacated {l : Level} {request : StopRequest} (h : k ∉ e.stopTargets l request.filter) :
    Bypasses k e (e.vacated l request) := by
  unfold vacated
  split
  · exact (bypasses_modifyLevel _ _ _).trans (bypasses_withdraw h _ _)
  · exact bypasses_withdraw h _ _

theorem bypasses_finishStop (e : Engine) (j : LevelKey) (full : Bool) (previous : Phase) (backward : Bool)
    (closings : List Closing) : Bypasses k e (e.finishStop j full previous backward closings).1 := by
  unfold finishStop
  dsimp only
  split
  · exact .refl k e
  · split
    · exact (bypasses_refresh e j).trans ((bypasses_modifyLevel _ _ _).trans (bypasses_publish _ _))
    · exact (bypasses_refresh e j).trans (bypasses_modifyLevel _ _ _)

mutual
/-- Stops go on in which the node has not to be asked any more. -/
theorem bypasses_pollClosing (call : CallKey) (e : Engine) :
    (c : Closing) → k ∉ c.orders.map (·.node) → Bypasses k e (pollClosing call e c).1
  | .done report, _ => .refl k e
  | .asked n removed deadline report, _ => bypasses_pollAsked e n removed deadline report
  | .inner n removed inner, h => by
    rw [Closing.orders, List.map_append] at h
    have hl := bypasses_pollStop call e inner fun hm => h (List.mem_append_left _ hm)
    have hne : n ≠ k := fun he => h (List.mem_append_right _ (by simp [he]))
    unfold pollClosing
    split
    · rename_i hr
      rw [hr] at hl
      exact hl.trans (bypasses_askToClose hne _ _ _ _)
    · rename_i hr
      rw [hr] at hl
      exact hl

theorem bypasses_pollStop (call : CallKey) (e : Engine) :
    (s : Stopping) → k ∉ s.orders.map (·.node) → Bypasses k e (pollStop call e s).1
  | .finished report, _ => .refl k e
  | .running j full previous backward closings, h => by
    have hb := bypasses_pollBackward call e closings h
    have hf := bypasses_pollClosings call e closings h
    unfold pollStop
    cases backward with
    | true => exact hb.trans (bypasses_finishStop _ _ _ _ _ _)
    | false => exact hf.trans (bypasses_finishStop _ _ _ _ _ _)

theorem bypasses_pollClosings (call : CallKey) (e : Engine) :
    (cs : List Closing) → k ∉ (Stopping.ordersOf cs).map (·.node) → Bypasses k e (pollClosings call e cs).1
  | [], _ => .refl k e
  | c :: cs, h => by
    rw [Stopping.ordersOf, List.map_append] at h
    exact (bypasses_pollClosing call e c fun hm => h (List.mem_append_left _ hm)).trans
      (bypasses_pollClosings call _ cs fun hm => h (List.mem_append_right _ hm))

theorem bypasses_pollBackward (call : CallKey) (e : Engine) :
    (cs : List Closing) → k ∉ (Stopping.ordersOf cs).map (·.node) → Bypasses k e (pollBackward call e cs).1
  | [], _ => .refl k e
  | c :: cs, h => by
    rw [Stopping.ordersOf, List.map_append] at h
    exact (bypasses_pollBackward call e cs fun hm => h (List.mem_append_right _ hm)).trans
      (bypasses_pollClosing call _ c fun hm => h (List.mem_append_left _ hm))
end

theorem bypasses_pollStops (call : CallKey) (stops : List Stopping) (s : Engine × List Stopping)
    (h : k ∉ (stops.flatMap Stopping.orders).map (·.node)) : Bypasses k s.1 (pollStops call s stops).1 := by
  induction stops generalizing s with
  | nil => exact .refl k s.1
  | cons stop stops ih =>
    rw [List.flatMap_cons, List.map_append] at h
    exact (bypasses_pollStop call s.1 stop fun hm => h (List.mem_append_left _ hm)).trans
      (ih ((pollStop call s.1 stop).1, s.2 ++ [(pollStop call s.1 stop).2]) fun hm => h (List.mem_append_right _ hm))

theorem bypasses_afterStops (e : Engine) (call : CallKey) (stops : List Stopping) :
    Bypasses k e (e.afterStops call stops) := by
  unfold afterStops
  dsimp only
  split
  · split
    · exact (bypasses_modifyCall e _).trans (.of_chores rfl rfl)
    · exact bypasses_modifyCall e _
  · exact (bypasses_modifyCall e _).trans (bypasses_push _ _)

/-! ## The making of nodes -/

theorem bypasses_failCreation (e : Engine) (j : LevelKey) (r : Record) (fault : NodeFault) :
    Bypasses k e (e.failCreation j r fault) := by
  unfold failCreation
  split
  · exact .refl k e
  · exact (bypasses_publish _ _).trans (bypasses_modifyLevel _ _ _)

/-- What is done passes the node by, or brings it into being. -/
def Bears (k : NodeKey) (e e' : Engine) : Prop := Numbered e → Numbered e' ∧
  (e'.sight k = e.sight k ∨ e.node? k = none ∧ e'.sight k = { e.sight k with marks := some (false, none, false) })

theorem Bypasses.bears (h : Bypasses k e e') : Bears k e e' := fun hk => ⟨(h hk).1, .inl (h hk).2⟩

/-- Something has gone before that makes no node. -/
theorem Bears.before (h : Bears k m e') (hb : Bypasses k e m) (hn : m.node? k = e.node? k) : Bears k e e' := fun hk => by
  obtain ⟨hm, hsame⟩ := hb hk
  refine ⟨(h hm).1, ?_⟩
  rw [← hsame, ← hn]
  exact (h hm).2

/-- A new node has no tasks. -/
theorem bears_enter (e : Engine) (j : LevelKey) (r : Record) (part : Part) : Bears k e (e.enter j r part) := by
  have hchores : (e.enter j r part).chores = e.chores := by
    unfold enter
    cases part <;> rfl
  by_cases hk : k = e.nodes.size
  · have hnode := node?_enter (e := e) (k := j) (j := k) r part
    rw [if_pos hk] at hnode
    have hnone : e.node? k = none := by
      rw [node?, hk]
      exact Array.getElem?_size
    obtain ⟨hnow, hnext, htasks, hready, htimers, hput⟩ := by simpa only [chores, Prod.mk.injEq] using hchores
    have htasksOf : (e.enter j r part).tasksOf k = e.tasksOf k := by rw [tasksOf, tasksOf, htasks]
    refine fun hn => ⟨⟨⟨htasks ▸ hn.nodup, hnext ▸ htasks ▸ hn.below⟩, hready ▸ hnext ▸ hn.ready,
      htimers ▸ hnext ▸ hn.timers⟩, .inr ⟨hnone, ?_⟩⟩
    simp only [sight, woken, clocks, owns_of_tasksOf htasksOf, hnow, htasksOf, hready, htimers, hput, hnode]
    rfl
  · refine Bypasses.bears (.of_chores hchores ?_)
    rw [node?_enter, if_neg hk]

theorem bypasses_withInstance (e : Engine) (j : LevelKey) (l : Level) (b : Binding) (nodes : List Record) :
    Bypasses k e (e.withInstance j l b nodes) := .of_chores rfl rfl

theorem Opens.bypasses {usage : Record} {t : Template} (h : Opens e j usage t e') : Bypasses k e e' := by
  cases h with
  | collapses => exact (bypasses_withInstance e j _ _ _).trans (bypasses_failCreation _ _ _ _)
  | _ => exact .of_chores rfl rfl

theorem Creates.bears {r : Record} {templates : Templates} (h : Creates e j r templates e') : Bears k e e' := by
  cases h with
  | present => exact (Bypasses.refl k e).bears
  | noTemplate => exact (bypasses_failCreation _ _ _ _).bears
  | refused => exact (bypasses_failCreation _ _ _ _).bears
  | made => exact (bears_enter (e.note _) j _ _).before (bypasses_note e _) rfl
  | usage _ _ _ ho => exact ho.bypasses.bears

theorem bears_makes {a : Action} (hm : a.makes = true) : Bears k e (e.act a) := by
  cases a with
  | create j r templates => exact (creates_create e j r templates).bears
  | install j r inst => exact (bears_enter _ j r (.standIn inst)).before (bypasses_modifyLevel e j _) rfl
  | refresh j => exact (bypasses_refresh e j).bears
  | _ => cases hm

/-! ## Calls -/

theorem Rewires.bypasses (h : Rewires e e') : Bypasses k e e' := by
  refine h.invariant (P := Bypasses k e) (fun s s' hs ht => hs.trans ?_) (.refl k e)
  cases ht with
  | note notes => exact bypasses_note _ _
  | wires n wires =>
    refine .of_chores rfl ?_
    rw [node?_modifyNode]
    split
    · rw [Option.map_map]
      rfl
    · rfl
  | nodes => exact bypasses_modifyLevel _ _ _
  | breaks => exact .of_chores rfl rfl

/-- A stage of a call that stops nothing touches no task. -/
theorem bypasses_runStage (e : Engine) (call : CallKey) {stage : Stage} (hs : stage.requests? e = none) :
    Bypasses k e (e.runStage call stage) := by
  cases stage with
  | stop requests => cases hs
  | stopAmong levels ids removed => cases hs
  | start j diff =>
    have h := starts_start e call j diff
    change Bypasses k e (e.start call j diff)
    generalize e.start call j diff = e' at h ⊢
    cases h <;> exact .of_chores rfl rfl
  | apply j config diff =>
    have h := applies_apply e call j config diff
    have hrewired : Bypasses k e (e.rewired j config diff) := by
      cases diff with
      | none => exact bypasses_modifyLevel _ _ _
      | some d => exact ((rewires_rewire e j config d).bypasses).trans (bypasses_modifyLevel _ _ _)
    change Bypasses k e (e.apply call j config diff)
    generalize e.apply call j config diff = e' at h ⊢
    cases h <;> exact hrewired.trans (.of_chores rfl rfl)
  | startAll next =>
    change Bypasses k e (e.startAll call next)
    unfold startAll
    split <;> exact .of_chores rfl rfl
  | startTab config listed =>
    change Bypasses k e (e.startTab call config listed)
    unfold startTab
    split <;> exact .of_chores rfl rfl
  | enlistGathered =>
    rw [runStage_enlistGathered]
    exact .of_chores rfl rfl
  | _ => exact .of_chores rfl rfl

/-! ## Messages -/

theorem bypasses_leave (e : Engine) (origin : Origin) (signal : Signal) : Bypasses k e (e.leave origin signal) := by
  unfold leave
  split
  · exact bypasses_note _ _
  · exact bypasses_note _ _
  · exact bypasses_note _ _
  · exact bypasses_publish _ _
  · exact .refl k e

theorem bypasses_raise (e : Engine) (j : LevelKey) (origin : Origin) (signal : Signal) :
    Bypasses k e (e.raise j origin signal).1 := by
  unfold raise
  split
  · exact .refl k e
  · split
    · exact .of_chores rfl rfl
    · exact bypasses_leave _ _ _
    · exact .refl k e
    · exact .refl k e

/-- Of all that nodes do only the node's own close signal is to be seen in its work. -/
theorem bypasses_perform (e : Engine) (n : NodeKey) (effect : Effect) (h : ∀ result, effect = .closed result → n ≠ k) :
    Bypasses k e (e.perform n effect) := by
  unfold perform
  cases e.node? n with
  | none => exact .refl k e
  | some node =>
    cases effect with
    | note entry => exact bypasses_note _ _
    | closed result =>
      refine (bypasses_noteSignal (h result rfl) e result).trans (.foldl _ (fun e entry => ?_) _ _)
      exact bypasses_wake_other rfl e
    | send port m =>
      dsimp only
      split
      · exact bypasses_push _ _
      · exact .refl k e
    | status status =>
      dsimp only
      split
      · exact (bypasses_publish _ _).trans (bypasses_raise _ _ _ _)
      · exact .refl k e
    | error text about =>
      dsimp only
      split
      · exact bypasses_raise _ _ _ _
      · exact .refl k e
    | complete m =>
      dsimp only
      split
      · exact bypasses_raise _ _ _ _
      · exact .refl k e

theorem bypasses_reportPort (e : Engine) (inst : LevelKey) (port : PortKind) (m : Message) :
    Bypasses k e (e.reportPort inst port m) := by
  unfold reportPort
  split
  · rename_i p _ _
    cases e.level? p with
    | none => exact .refl k e
    | some around =>
      cases port with
      | status => exact (bypasses_publish _ _).trans (bypasses_raise _ _ _ _)
      | complete => exact bypasses_raise _ _ _ _
  · exact .refl k e

theorem bypasses_conclude (e : Engine) (n : NodeKey) (m : Message) (outcome : Outcome) :
    Bypasses k e (e.conclude n m outcome) := by
  cases outcome with
  | handled =>
    unfold conclude
    dsimp only
    split
    · split
      · exact bypasses_perform _ _ _ fun _ h => by cases h
      · exact .refl k e
    · exact .refl k e
  | deferred => exact .refl k e
  | failed fault => exact bypasses_perform e n (.error fault.message (some m)) fun _ h => by cases h

/-- Another node, or one that has been told to stop, is handed a message. -/
theorem bypasses_hand (e : Engine) (n : NodeKey) (m : Message) (h : n = k → ∀ node b, ¬TakesUp e k node b) :
    Bypasses k e (e.hand n m) := by
  unfold hand
  cases hn : e.node? n with
  | none => exact .refl k e
  | some node =>
    dsimp only
    split
    · exact .refl k e
    · rename_i hc
      split
      · rename_i b hp
        have hne : n ≠ k := fun he => h he node b ⟨he ▸ hn, by simpa using hc, hp⟩
        exact Bypasses.trans (.foldl _ (fun e task => bypasses_startTask hne e task) _ _) (bypasses_push _ _)
      · exact bypasses_push _ _
      · split
        · exact bypasses_push _ _
        · exact .refl k e
      · split
        · exact bypasses_reportPort _ _ _ _
        · exact .refl k e

end Engine
end Flowgraph
