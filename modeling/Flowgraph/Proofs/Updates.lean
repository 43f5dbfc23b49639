import Flowgraph.Proofs.Quiet
/-! What a lookup finds after an update: one lemma for each kind of lookup and each kind of update. -/
namespace Flowgraph.Engine

variable (e : Engine) (j k : Nat)

/-! ## Levels -/

@[simp] theorem level?_modifyLevel (f : Level → Level) :
    (e.modifyLevel k f).level? j = if k = j then (e.level? j).map f else e.level? j := by
  simp only [level?, modifyLevel, Array.getElem?_modify]

@[simp] theorem level?_modifyNode (f : Node → Node) : (e.modifyNode k f).level? j = e.level? j := rfl

@[simp] theorem level?_push (actions : List Action) : (e.push actions).level? j = e.level? j := rfl

@[simp] theorem level?_note (notes : List Note) : (e.note notes).level? j = e.level? j := rfl

@[simp] theorem level?_publish (event : Event) : (e.publish event).level? j = e.level? j :=
  level?_of_still (quiet_publish e event).still j

@[simp] theorem level?_modifyCall (f : Call → Call) : (e.modifyCall k f).level? j = e.level? j := rfl

@[simp] theorem level?_proceed (stages : List Stage) : (e.proceed k stages).level? j = e.level? j := rfl

@[simp] theorem level?_refuse (fault : FlowFault) : (e.refuse k fault).level? j = e.level? j := rfl

@[simp] theorem level?_hold (levels : List LevelKey) : (e.hold k levels).level? j = e.level? j := rfl

theorem level?_addLevel (l : Level) :
    (e.addLevel l).1.level? j = if j = e.levels.size then some l else e.level? j := by
  simp only [level?, addLevel, Array.getElem?_push]

theorem level?_refresh : ∃ rs : Receivers, (e.refresh k).level? j =
    if k = j then (e.level? j).map fun l => { l with receivers := rs } else e.level? j := by
  unfold refresh
  cases h : e.level? k with
  | none =>
    refine ⟨.none, ?_⟩
    by_cases hk : k = j
    · subst hk
      simp [h]
    · simp [hk]
  | some l => exact ⟨_, level?_modifyLevel e j k _⟩

theorem level?_enter (r : Record) (part : Part) : (e.enter k r part).level? j =
    if k = j then (e.level? j).map fun l => { l with
      failures := l.failures.erase r.id, active := l.active.insert r.id e.nodes.size }
    else e.level? j := by
  unfold enter
  cases part <;> exact level?_modifyLevel { e with nodes := _ } j k _

theorem level?_failCreation (r : Record) (fault : NodeFault) : (e.failCreation k r fault).level? j =
    if k = j then (e.level? j).map fun l => { l with failures := l.failures.insert r.id fault }
    else e.level? j := by
  unfold failCreation
  cases h : e.level? k with
  | none =>
    by_cases hk : k = j
    · subst hk
      simp [h]
    · simp [hk]
  | some l => simp

theorem level?_cancel (n : NodeKey) : (e.cancel n).level? j = e.level? j := by
  have h (ps : List Pending) (e : Engine) :
      (ps.foldl (fun e p => e.wake (.task p.key)) e).level? j = e.level? j := by
    induction ps generalizing e with
    | nil => rfl
    | cons p ps ih =>
      rw [List.foldl_cons, ih]
      exact level?_of_still (quiet_wake e _).still j
  exact h _ _

theorem level?_withdraw (targets : List NodeKey) :
    (e.withdraw k targets).level? j = if k = j then (e.level? j).map fun l =>
      { l with active := l.active.filter fun entry => !targets.contains entry.2 } else e.level? j := by
  have h (ns : List NodeKey) (e : Engine) :
      (ns.foldl (fun e n => e.cancel n) e).level? j = e.level? j := by
    induction ns generalizing e with
    | nil => rfl
    | cons n ns ih => rw [List.foldl_cons, ih, level?_cancel]
  unfold withdraw
  rw [h, level?_modifyLevel]

theorem level?_lt {l : Level} (h : e.level? k = some l) : k < e.levels.size := by
  unfold level? at h
  exact (Array.getElem?_eq_some_iff.mp h).1

/-! ## Nodes -/

@[simp] theorem node?_modifyNode (f : Node → Node) :
    (e.modifyNode k f).node? j = if k = j then (e.node? j).map f else e.node? j := by
  simp only [node?, modifyNode, Array.getElem?_modify]

@[simp] theorem node?_modifyLevel (f : Level → Level) : (e.modifyLevel k f).node? j = e.node? j := rfl

@[simp] theorem node?_push (actions : List Action) : (e.push actions).node? j = e.node? j := rfl

@[simp] theorem node?_note (notes : List Note) : (e.note notes).node? j = e.node? j := rfl

@[simp] theorem node?_publish (event : Event) : (e.publish event).node? j = e.node? j := by
  have h (e : Engine) (w : Waiter) : (e.wake w).node? j = e.node? j := by
    unfold wake
    split <;> rfl
  unfold publish
  dsimp only
  split
  · rw [h]
    rfl
  · rfl

@[simp] theorem node?_modifyCall (f : Call → Call) : (e.modifyCall k f).node? j = e.node? j := rfl

@[simp] theorem node?_proceed (stages : List Stage) : (e.proceed k stages).node? j = e.node? j := rfl

@[simp] theorem node?_refuse (fault : FlowFault) : (e.refuse k fault).node? j = e.node? j := rfl

@[simp] theorem node?_hold (levels : List LevelKey) : (e.hold k levels).node? j = e.node? j := rfl

@[simp] theorem node?_addLevel (l : Level) : (e.addLevel l).1.node? j = e.node? j := rfl

@[simp] theorem node?_refresh : (e.refresh k).node? j = e.node? j := by
  unfold refresh
  split <;> rfl

theorem node?_enter (r : Record) (part : Part) : (e.enter k r part).node? j =
    if j = e.nodes.size then some ⟨r, k, part, .ofWires r.outputs, false, none, false⟩
    else e.node? j := by
  unfold enter
  cases part <;> simp only [node?, modifyLevel, push, Array.getElem?_push]

@[simp] theorem node?_failCreation (r : Record) (fault : NodeFault) :
    (e.failCreation k r fault).node? j = e.node? j := by
  unfold failCreation
  split
  · rfl
  · simp

theorem node?_lt {n : Node} (h : e.node? k = some n) : k < e.nodes.size := by
  unfold node? at h
  exact (Array.getElem?_eq_some_iff.mp h).1

end Flowgraph.Engine
