import Flowgraph.Proofs.Bypassing
import Flowgraph.Proofs.Outset
/-! How a delay node is dismissed. The stop that takes it out of its level wakes all tasks that hold messages and asks the
node to close, which starts one more task unless there never was any; no other stop touches the node. -/
namespace Flowgraph.Engine

variable {e e' m : Engine} {k n : NodeKey} {ms : Nat} {call : CallKey} {p : Pending} {v : Sight}

/-! ## What the node does itself -/

theorem mem_woken {key : TaskKey} : key ∈ e.woken k ↔ .task key ∈ e.ready ∧ e.owns k key = true := by
  have hkey : key ∈ e.ready.filterMap Waiter.taskKey? ↔ .task key ∈ e.ready := by
    rw [List.mem_filterMap]
    constructor
    · rintro ⟨w, hw, he⟩
      cases w with
      | task key' =>
        cases he
        exact hw
      | _ => cases he
    · exact fun hw => ⟨_, hw, rfl⟩
  rw [woken, List.mem_filter, hkey]

/-- The node starts a task, which is woken after all others. -/
theorem sight_startTask (hk : Numbered e) (k : NodeKey) (task : Task) :
    Numbered (e.startTask k task) ∧ (e.startTask k task).sight k = { e.sight k with
      tasks := e.tasksOf k ++ [⟨e.nextTask, k, task, none⟩]
      woken := e.woken k ++ [e.nextTask]
      marks := (e.node? k).map fun node => (node.cancelled, node.signal, true) } := by
  have hadd := hk.add k task
  have hmarked : Numbered (({ e with
      nextTask := e.nextTask + 1, tasks := e.tasks ++ [⟨e.nextTask, k, task, none⟩] } : Engine).modifyNode k
        fun n => { n with hasTasks := true }) := ⟨⟨hadd.nodup, hadd.below⟩, hadd.ready, hadd.timers⟩
  refine ⟨hmarked.wake fun key he => by cases he; exact Nat.lt_succ_self _, ?_⟩
  have hnew : Waiter.task e.nextTask ∉ e.ready := fun hm =>
    absurd (hk.ready _ (List.mem_filterMap.mpr ⟨_, hm, rfl⟩)) (Nat.lt_irrefl _)
  have heq : e.startTask k task = { (({ e with
      nextTask := e.nextTask + 1, tasks := e.tasks ++ [⟨e.nextTask, k, task, none⟩] } : Engine).modifyNode k
        fun n => { n with hasTasks := true }) with ready := e.ready ++ [.task e.nextTask] } := by
    unfold startTask wake
    exact if_neg (by simpa [modifyNode] using hnew)
  have htasks : (e.startTask k task).tasksOf k = e.tasksOf k ++ [⟨e.nextTask, k, task, none⟩] := by
    rw [heq]
    simp [tasksOf, modifyNode, List.filter_append]
  have howns (key : TaskKey) : (e.startTask k task).owns k key = (e.owns k key || key == e.nextTask) := by
    rw [owns, owns, htasks, List.any_append, List.any_cons, List.any_nil, Bool.or_false, Bool.beq_comm]
  have hold (key : TaskKey) (hlt : key < e.nextTask) : (e.startTask k task).owns k key = e.owns k key := by
    rw [howns, beq_false_of_ne (Nat.ne_of_lt hlt), Bool.or_false]
  have hwoken : (e.startTask k task).woken k = e.woken k ++ [e.nextTask] := by
    have hready : (e.startTask k task).ready.filterMap Waiter.taskKey? =
        e.ready.filterMap Waiter.taskKey? ++ [e.nextTask] := by
      rw [heq, List.filterMap_append]
      rfl
    rw [woken, hready, List.filter_append, List.filter_congr fun key hm => hold key (hk.ready key hm)]
    simp [woken, howns]
  have hclocks : (e.startTask k task).clocks k = e.clocks k := by
    have htimers : (e.startTask k task).timers = e.timers := by rw [heq]; rfl
    rw [clocks, htimers]
    refine List.filter_congr fun t ht => ?_
    cases hkey : t.alarm.taskKey? with
    | none => rfl
    | some key => exact hold key (hk.timers t ht key hkey)
  have hmarks : ((e.startTask k task).node? k).map Node.marks =
      (e.node? k).map fun node => (node.cancelled, node.signal, true) := by
    rw [heq]
    change ((({ e with nextTask := e.nextTask + 1, tasks := e.tasks ++ [⟨e.nextTask, k, task, none⟩] } :
      Engine).modifyNode k fun n => { n with hasTasks := true }).node? k).map Node.marks = _
    rw [node?_modifyNode, if_pos rfl, Option.map_map]
    rfl
  simp only [sight, htasks, hwoken, hclocks, hmarks]
  rw [heq]
  rfl

/-! ## The states of a delay node -/

/-- The task holds a message. -/
def Holds (ms : Nat) (p : Pending) : Prop := ∃ m, p.task = Delay.hold ms m

/-- The node, if there is one yet, holds messages for so long. -/
def HoldsFor (e : Engine) (ms : Nat) (k : NodeKey) : Prop :=
  ∀ node, e.node? k = some node → node.part = .ordinary (Delay.behaviour ms)

/-- The node has not been told to stop, and all its tasks hold messages. -/
structure Working (ms : Nat) (v : Sight) : Prop where
  holds : ∀ p ∈ v.tasks, Holds ms p
  marks : ∃ begun, v.marks = some (false, none, begun) ∧ (v.tasks ≠ [] → begun = true)

/-- The node has been told to stop, which has woken its tasks, and has not been asked to close. -/
structure Leaving (ms : Nat) (v : Sight) : Prop where
  holds : ∀ p ∈ v.tasks, Holds ms p ∧ p.key ∈ v.woken
  marks : ∃ begun, v.marks = some (true, none, begun) ∧ (v.tasks ≠ [] → begun = true)

/-- The node has been asked to close. -/
inductive Draining (ms : Nat) (v : Sight) : Prop
  /-- One task waits for the others, which have been woken, to signal that all are over. -/
  | waits {l : List Pending} {q : Pending} {b : Bool} (hm : v.marks = some (true, none, b))
      (ht : v.tasks = l ++ [q]) (hheld : ∀ p ∈ l, Holds ms p ∧ p.key ∈ v.woken) (hq : SignalsClose q)
      (hlast : l = [] → q.key ∈ v.woken)
  /-- The signal has been given. -/
  | signalled {b : Bool} (hm : v.marks = some (true, some (.ok ()), b)) (ht : ∀ p ∈ v.tasks, SignalsClose p)

theorem Holds.abandons (h : Holds ms p) : p.task.abandons = true := by
  obtain ⟨m, ht⟩ := h
  rw [ht]
  rfl

theorem HoldsFor.stops (h : e.HoldsFor ms k) (hs : Stops e e') : e'.HoldsFor ms k := fun node' hn' => by
  obtain ⟨node, hn, hpart⟩ := exists_part_of_face (StopsWithin.face hs k).symm hn'
  exact hpart.symm.trans (h node hn)

theorem HoldsFor.not_standsIn (h : e.HoldsFor ms k) : ¬e.StandsIn k := by
  rintro ⟨node, inst, hn, hp⟩
  cases hp.symm.trans (h node hn)

theorem Working.not_leaving (h : Working ms v) : ¬Leaving ms v := fun h' => by
  obtain ⟨begun, hm, -⟩ := h.marks
  obtain ⟨begun', hm', -⟩ := h'.marks
  cases hm.symm.trans hm'

theorem Working.not_draining (h : Working ms v) : ¬Draining ms v := fun h' => by
  obtain ⟨begun, hm, -⟩ := h.marks
  cases h' with
  | waits hm' => cases hm.symm.trans hm'
  | signalled hm' => cases hm.symm.trans hm'

/-- In no time the node has come into another state. -/
structure Becomes (P : Sight → Prop) (k : NodeKey) (e e' : Engine) : Prop where
  numbered : Numbered e'
  state : P (e'.sight k)
  now : (e'.sight k).now = (e.sight k).now
  putOff : (e'.sight k).putOff = (e.sight k).putOff

namespace Becomes

variable {P Q : Sight → Prop}

/-- What follows passes the node by. -/
theorem after (h : Becomes P k e m) (hb : Numbered e' ∧ e'.sight k = m.sight k) : Becomes P k e e' :=
  ⟨hb.1, hb.2 ▸ h.state, (congrArg Sight.now hb.2).trans h.now, (congrArg Sight.putOff hb.2).trans h.putOff⟩

/-- What went before passed the node by. -/
theorem before (h : Becomes P k m e') (heq : m.sight k = e.sight k) : Becomes P k e e' :=
  ⟨h.numbered, h.state, h.now.trans (congrArg Sight.now heq), h.putOff.trans (congrArg Sight.putOff heq)⟩

theorem trans (h : Becomes P k e m) (h' : Becomes Q k m e') : Becomes Q k e e' :=
  ⟨h'.numbered, h'.state, h'.now.trans h.now, h'.putOff.trans h.putOff⟩

end Becomes

/-- To wake somebody changes nothing else. -/
theorem foldl_wake_eq {α : Type} (f : α → Waiter) (xs : List α) (e : Engine) :
    ∃ ready, xs.foldl (fun e x => e.wake (f x)) e = { e with ready } := by
  refine List.foldlRecOn xs _ (motive := fun s => ∃ ready : List Waiter, s = ({ e with ready } : Engine)) ⟨e.ready, rfl⟩
    fun s hs x _ => ?_
  obtain ⟨ready, rfl⟩ := hs
  unfold wake
  split <;> exact ⟨_, rfl⟩

/-- Tasks are woken whose keys have been given. -/
theorem Numbered.wakeAll (hk : Numbered e) (ps : List Pending) (h : ∀ p ∈ ps, p.key < e.nextTask) :
    Numbered (ps.foldl (fun e p => e.wake (.task p.key)) e) := by
  induction ps generalizing e with
  | nil => exact hk
  | cons p ps ih =>
    have hnext : (e.wake (.task p.key)).nextTask = e.nextTask := congrArg (·.1) (lent_wake e _)
    refine ih (hk.wake fun key he => ?_) fun q hq => hnext ▸ h q (List.mem_cons_of_mem _ hq)
    cases he
    exact h p List.mem_cons_self

/-- A node that is told to stop wakes its tasks. -/
theorem leaving_cancel (hk : Numbered e) (h : Working ms (e.sight k)) : Becomes (Leaving ms) k e (e.cancel k) := by
  have hmarked : Numbered (e.modifyNode k fun node => { node with cancelled := true }) :=
    ⟨⟨hk.nodup, hk.below⟩, hk.ready, hk.timers⟩
  have hnumbered : Numbered (e.cancel k) := hmarked.wakeAll _ fun p hp =>
    hk.below p (mem_tasksOf.mp (List.mem_filter.mp hp).1).1
  obtain ⟨ready, hready⟩ := foldl_wake_eq (fun p : Pending => .task p.key) ((e.tasksOf k).filter (·.task.abandons))
    (e.modifyNode k fun node => { node with cancelled := true })
  have heq : e.cancel k = { e.modifyNode k fun node => { node with cancelled := true } with ready } := hready
  have htasks : (e.cancel k).tasksOf k = e.tasksOf k := by rw [heq]; rfl
  refine ⟨hnumbered, ⟨fun p hp => ?_, ?_⟩, by rw [heq]; rfl, by rw [heq]; rfl⟩
  · have hp' : p ∈ e.tasksOf k := htasks ▸ hp
    refine ⟨h.holds p hp', mem_woken.mpr ⟨?_, owns_of_mem hp⟩⟩
    refine mem_ready_foldl_wake (fun p : Pending => .task p.key) _ _ (.inr (List.mem_map.mpr ⟨p, ?_, rfl⟩))
    exact List.mem_filter.mpr ⟨hp', (h.holds p hp').abandons⟩
  · obtain ⟨begun, hm, hbegun⟩ := h.marks
    refine ⟨begun, ?_, fun hne => hbegun fun hnil => hne (htasks.trans hnil)⟩
    obtain ⟨node, hn, hmarks⟩ := Option.map_eq_some_iff.mp hm
    change ((e.cancel k).node? k).map Node.marks = _
    rw [node?_cancel, if_pos rfl, hn]
    obtain ⟨-, hrest⟩ := Prod.mk.inj hmarks
    exact congrArg (fun rest => some (true, rest)) hrest

/-- A node that has been told to stop is asked to close. -/
theorem draining_askToClose (hk : Numbered e) (hd : e.HoldsFor ms k) (h : Leaving ms (e.sight k)) (call : CallKey)
    (removed : Bool) (report : StopReport) : Becomes (Draining ms) k e (e.askToClose call k removed report).1 := by
  obtain ⟨begun, hm, hbegun⟩ := h.marks
  obtain ⟨node, hn, hmarks⟩ := Option.map_eq_some_iff.mp hm
  have hp := hd node hn
  obtain ⟨hc, hs, ht⟩ := by simpa only [Node.marks, Prod.mk.injEq] using hmarks
  have hawait {s : Engine} (hb : Becomes (Draining ms) k e s) : Becomes (Draining ms) k e (s.await call k removed report).1 :=
    hb.after (bypasses_await s call k removed report hb.numbered)
  have hnote : e.note [] = e := by simp [note]
  have hask : e.askToClose call k removed report =
      if node.hasTasks = true then (e.startTask k signalWhenIdle).await call k removed report
      else (e.noteSignal k (.ok ())).await call k removed report := by
    unfold askToClose
    simp only [hn, hp, Delay.behaviour, hnote]
  rw [hask]
  cases begun with
  | true =>
    rw [if_pos ht]
    obtain ⟨hs', heq⟩ := sight_startTask hk k signalWhenIdle
    refine hawait ⟨hs', ?_, by rw [heq], by rw [heq]⟩
    rw [heq]
    refine .waits (l := e.tasksOf k) (b := true) ?_ rfl (fun p hp => ?_) rfl
      fun _ => List.mem_append_right _ List.mem_cons_self
    · change (e.node? k).map _ = _
      rw [hn, Option.map_some, hc, hs]
    · exact (h.holds p hp).imp_right fun hw => List.mem_append_left _ hw
  | false =>
    rw [if_neg (by simp [ht])]
    have hnone : e.tasksOf k = [] := by
      by_contra hne
      cases hbegun hne
    refine hawait (s := e.noteSignal k (.ok ())) ⟨⟨⟨hk.nodup, hk.below⟩, hk.ready, hk.timers⟩, ?_, rfl, rfl⟩
    refine .signalled (b := false) ?_ fun p hp => ?_
    · change ((e.modifyNode k _).node? k).map Node.marks = _
      rw [node?_modifyNode, if_pos rfl, hn]
      simp [Node.marks, hc, hs, ht]
    · have hp' : p ∈ e.tasksOf k := hp
      rw [hnone] at hp'
      cases hp'

/-! ## Stops that begin -/

/-- A stop has taken the node out of its level and asked it to close. -/
structure Dismisses (ms : Nat) (k : NodeKey) (e e' : Engine) : Prop where
  active : e.IsActive k
  working : Working ms (e.sight k)
  draining : Becomes (Draining ms) k e e'
  gone : ¬e'.IsActive k

/-- A stop passes the node by, or dismisses it if it has been at work. -/
def Treats (ms : Nat) (k : NodeKey) (e e' : Engine) : Prop :=
  Numbered e → (Working ms (e.sight k) ∨ ¬e.IsActive k) →
    Numbered e' ∧ (e'.sight k = e.sight k ∨ Dismisses ms k e e')

theorem Bypasses.treats (h : Bypasses k e e') : Treats ms k e e' := fun hk _ => ⟨(h hk).1, .inl (h hk).2⟩

theorem Treats.trans (h : Treats ms k e m) (hd : m.IsActive k → e.IsActive k) (h' : Treats ms k m e')
    (hd' : e'.IsActive k → m.IsActive k) : Treats ms k e e' := fun hk ha => by
  obtain ⟨hm, h | h⟩ := h hk ha
  · have ha' : Working ms (m.sight k) ∨ ¬m.IsActive k := ha.imp (fun hw => h ▸ hw) fun hn hact => hn (hd hact)
    obtain ⟨he, h' | h'⟩ := h' hm ha'
    · exact ⟨he, .inl (h'.trans h)⟩
    · exact ⟨he, .inr ⟨hd h'.active, h ▸ h'.working, h'.draining.before h, h'.gone⟩⟩
  · obtain ⟨he, h' | h'⟩ := h' hm (.inr h.gone)
    · exact ⟨he, .inr ⟨h.active, h.working, h.draining.after ⟨he, h'⟩, fun hact => h.gone (hd' hact)⟩⟩
    · exact absurd h.draining.state h'.working.not_draining

/-- A node that is not at work is passed by. -/
theorem Treats.same (h : Treats ms k e e') (hk : Numbered e) (hw : ¬Working ms (e.sight k)) (ha : ¬e.IsActive k) :
    Numbered e' ∧ e'.sight k = e.sight k :=
  (h hk (.inr ha)).imp_right fun h => h.resolve_right fun h => hw h.working

section begins
variable {stopInner : Engine → StopRequest → Engine × Stopping} {j : LevelKey}

/-- The close of another node begins. -/
theorem treats_beginClosing (call : CallKey) (hstop : ∀ e r, Stops e (stopInner e r).1)
    (htreat : ∀ e r, Laid e → Manned e → e.HoldsFor ms k → Treats ms k e (stopInner e r).1) (hl : Laid e) (hm : Manned e)
    (hd : e.HoldsFor ms k) (hne : n ≠ k) (removed : Bool) :
    Treats ms k e (beginClosing stopInner call e j n removed).1 := by
  unfold beginClosing
  split
  · exact (Bypasses.refl k e).treats
  · rename_i node hn
    split
    · exact (bypasses_askToClose hne _ _ _ _).treats
    · rename_i inst hi
      have hforget : Stops e (e.modifyLevel j fun l => { l with instances := l.instances.erase node.id }) :=
        .single (.forget j node.id trivial)
      have hlf := hforget.laid hl
      have hs := hstop (e.modifyLevel j fun l => { l with instances := l.instances.erase node.id })
        ⟨inst, none, if removed then .all else .none⟩
      have ht := (bypasses_modifyLevel e j _).treats.trans (hforget.dwindles hl).isActive (htreat _
        ⟨inst, none, if removed then .all else .none⟩ hlf (hm.stops hl hforget) (hd.stops hforget))
        (hs.dwindles hlf).isActive
      dsimp only
      split
      · rename_i hr
        rw [hr] at ht hs
        exact ht.trans ((hforget.trans hs).dwindles hl).isActive (bypasses_askToClose hne _ _ _ _).treats
          (Stops.dwindles (silent_askToClose _ _ _ _ _).stops (hs.laid hlf)).isActive
      · rename_i hr
        rw [hr] at ht
        exact ht

theorem stops_beginClosing_of (call : CallKey) (hstop : ∀ e r, Stops e (stopInner e r).1) (e : Engine) (j : LevelKey) (n : NodeKey)
    (removed : Bool) : Stops e (beginClosing stopInner call e j n removed).1 :=
  stops_beginClosing (fun e _ _ _ _ => hstop e _) call (fun _ _ _ _ _ _ _ _ => trivial) (fun _ _ => trivial) removed

/-- The closes of other nodes begin. -/
theorem treats_beginAll (call : CallKey) (hstop : ∀ e r, Stops e (stopInner e r).1)
    (htreat : ∀ e r, Laid e → Manned e → e.HoldsFor ms k → Treats ms k e (stopInner e r).1) (r : StopRequest)
    (targets : List NodeKey) (s : Engine × List Closing) (hl : Laid s.1) (hm : Manned s.1) (hd : s.1.HoldsFor ms k)
    (hk : k ∉ targets) : Stops s.1 (beginAll stopInner call r s targets).1 ∧
      Treats ms k s.1 (beginAll stopInner call r s targets).1 := by
  induction targets generalizing s with
  | nil => exact ⟨.refl s.1, (Bypasses.refl k s.1).treats⟩
  | cons n targets ih =>
    have hfirst := treats_beginClosing call (j := r.level) hstop htreat hl hm hd
      (List.ne_of_not_mem_cons hk).symm (r.removal.holds (((s.1.node? n).map (·.id)).getD ""))
    have hs : Stops s.1 _ := stops_beginClosing_of call hstop s.1 r.level n
      (r.removal.holds (((s.1.node? n).map (·.id)).getD ""))
    obtain ⟨hs', hrest⟩ := ih (_, s.2 ++ [(beginClosing stopInner call s.1 r.level n
      (r.removal.holds (((s.1.node? n).map (·.id)).getD ""))).2]) (hs.laid hl) (hm.stops hl hs) (hd.stops hs)
      (List.not_mem_of_not_mem_cons hk)
    exact ⟨hs.trans hs', hfirst.trans (hs.dwindles hl).isActive hrest (hs'.dwindles (hs.laid hl)).isActive⟩

/-- All nodes of a stop are told, the one among them. -/
theorem leaving_cancelAll (targets : List NodeKey) (hk : Numbered e) (h : Working ms (e.sight k)) (hm : k ∈ targets)
    (hn : targets.Nodup) : Becomes (Leaving ms) k e (targets.foldl (fun e n => e.cancel n) e) := by
  induction targets generalizing e with
  | nil => cases hm
  | cons n targets ih =>
    obtain ⟨hnot, hn⟩ := List.nodup_cons.mp hn
    rcases List.mem_cons.mp hm with rfl | hm
    · have hleave := leaving_cancel hk h
      exact hleave.after (bypasses_cancelAll targets (e.cancel k) hnot hleave.numbered)
    · have hne : n ≠ k := fun he => hnot (he ▸ hm)
      obtain ⟨hk', heq⟩ := bypasses_cancel hne e hk
      exact (ih hk' (heq ▸ h) hm hn).before heq

/-- The stop of a level takes the node out of it. -/
theorem leaving_vacated {l : Level} {r : StopRequest} (hk : Numbered e) (h : Working ms (e.sight k))
    (hm : k ∈ e.stopTargets l r.filter) (hn : (e.stopTargets l r.filter).Nodup) :
    Becomes (Leaving ms) k e (e.vacated l r) := by
  have hwithdraw {s : Engine} (hb : Bypasses k e s) :
      Becomes (Leaving ms) k e (s.withdraw r.level (e.stopTargets l r.filter)) := by
    obtain ⟨hs, heq⟩ := (hb.trans (bypasses_modifyLevel s r.level fun l' => { l' with
      active := l'.active.filter fun entry => !(e.stopTargets l r.filter).contains entry.2 })) hk
    exact (leaving_cancelAll (e.stopTargets l r.filter) hs (heq ▸ h) hm hn).before heq
  unfold vacated
  split
  · exact hwithdraw (bypasses_modifyLevel _ _ _)
  · exact hwithdraw (.refl k e)

/-- The closes of a stop begin, that of the node among them. -/
theorem draining_beginAll (call : CallKey) (hstop : ∀ e r, Stops e (stopInner e r).1)
    (htreat : ∀ e r, Laid e → Manned e → e.HoldsFor ms k → Treats ms k e (stopInner e r).1) (r : StopRequest)
    (targets : List NodeKey) (s : Engine × List Closing) (hl : Laid s.1) (hm : Manned s.1) (hd : s.1.HoldsFor ms k)
    (hk : Numbered s.1) (h : Leaving ms (s.1.sight k)) (hmem : k ∈ targets) (hn : targets.Nodup)
    (ha : ¬s.1.IsActive k) (hi : ∀ node, s.1.node? k = some node → s.1.instance? r.level node.id = none) :
    Becomes (Draining ms) k s.1 (beginAll stopInner call r s targets).1 := by
  induction targets generalizing s with
  | nil => cases hmem
  | cons n targets ih =>
    obtain ⟨hnot, hn⟩ := List.nodup_cons.mp hn
    have hs : Stops s.1 _ := stops_beginClosing_of call hstop s.1 r.level n
      (r.removal.holds (((s.1.node? n).map (·.id)).getD ""))
    have hdw := hs.dwindles hl
    by_cases hne : n = k
    · subst hne
      have hask : beginClosing stopInner call s.1 r.level n (r.removal.holds (((s.1.node? n).map (·.id)).getD "")) =
          s.1.askToClose call n (r.removal.holds (((s.1.node? n).map (·.id)).getD "")) .empty := by
        obtain ⟨begun, hmarks, -⟩ := h.marks
        obtain ⟨node, hnode, -⟩ := Option.map_eq_some_iff.mp hmarks
        unfold beginClosing
        rw [hnode]
        dsimp only
        rw [hi node hnode]
      have hw := draining_askToClose hk hd h call (r.removal.holds (((s.1.node? n).map (·.id)).getD "")) .empty
      rw [← hask] at hw
      have hrest := (treats_beginAll call hstop htreat r targets (_, s.2 ++ [(beginClosing stopInner call s.1
        r.level n (r.removal.holds (((s.1.node? n).map (·.id)).getD ""))).2]) (hs.laid hl) (hm.stops hl hs) (hd.stops hs)
        hnot).2
      exact hw.after (hrest.same hw.numbered (fun hwork => hwork.not_draining hw.state) fun hact => ha (hdw.isActive hact))
    · have hmem := (List.mem_cons.mp hmem).resolve_left fun he => hne he.symm
      have hfirst := treats_beginClosing call (j := r.level) hstop htreat hl hm hd hne
        (r.removal.holds (((s.1.node? n).map (·.id)).getD ""))
      obtain ⟨hk', heq⟩ := hfirst.same hk (fun hwork => hwork.not_leaving h) ha
      refine (ih (_, s.2 ++ [(beginClosing stopInner call s.1 r.level n
        (r.removal.holds (((s.1.node? n).map (·.id)).getD ""))).2]) (hs.laid hl) (hm.stops hl hs) (hd.stops hs) hk'
        (heq ▸ h) hmem hn (fun hact => ha (hdw.isActive hact)) fun node' hnode' => ?_).before heq
      -- there is no instance of the node's id that was not there before
      have hrec := StopsWithin.record hs k
      rw [hnode'] at hrec
      obtain ⟨node, hnode, hrec⟩ := Option.map_eq_some_iff.mp hrec.symm
      have hid : node'.id = node.id := (congrArg Record.id hrec).symm
      rw [hid]
      exact hdw.instance?_of_none (hi node hnode)

/-- No stop touches the node but the one that dismisses it. -/
theorem treats_beginStop (fuel : Nat) (e : Engine) (hl : Laid e) (hm : Manned e) (hd : e.HoldsFor ms k) (r : StopRequest) :
    Treats ms k e (beginStop call fuel e r).1 := by
  induction fuel generalizing e r with
  | zero => exact (Bypasses.refl k e).treats
  | succ fuel ih =>
    cases hlevel : e.level? r.level with
    | none =>
      unfold beginStop
      rw [hlevel]
      exact (Bypasses.refl k e).treats
    | some l =>
      rw [beginStop_eq call fuel hlevel]
      have hv : Stops e (e.vacated l r) := stops_vacated hlevel fun _ _ _ _ _ _ => trivial
      have hlv := hv.laid hl
      have hall : Stops (e.vacated l r) (beginAll (beginStop call fuel) call r (e.vacated l r, [])
          (e.stopTargets l r.filter)).1 := stops_beginAll (fun e _ _ _ _ => stops_beginStop call fuel e _) call r _
        (e.vacated l r, []) (fun _ _ _ _ _ _ _ _ => trivial) fun _ _ _ _ => trivial
      have hfinish := fun m : Engine × List Closing =>
        bypasses_finishStop (k := k) m.1 r.level r.filter.isNone l.phase false m.2
      have hended : Stops (beginAll (beginStop call fuel) call r (e.vacated l r, []) (e.stopTargets l r.filter)).1 _ :=
        stops_finishStop (beginAll (beginStop call fuel) call r (e.vacated l r, []) (e.stopTargets l r.filter)).1 r.level
          r.filter.isNone l.phase false (beginAll (beginStop call fuel) call r (e.vacated l r, [])
          (e.stopTargets l r.filter)).2
      have hdw := Stops.dwindles hended (hall.laid hlv)
      by_cases hmem : k ∈ e.stopTargets l r.filter
      · intro hk ha
        have hgone : ¬(e.vacated l r).IsActive k := fun hact => ((isActive_vacated hl hlevel).mp hact).2 hmem
        obtain ⟨id, hact, -⟩ := (mem_stopTargets hl hlevel).mp hmem
        have hwork := ha.resolve_right fun hno => hno ⟨_, id, hact⟩
        have hnodup := nodup_stopTargets (hl _ l hlevel) r.filter
        have hleave := leaving_vacated hk hwork hmem hnodup
        have hinst (node : Node) (hn : (e.vacated l r).node? k = some node) :
            (e.vacated l r).instance? r.level node.id = none := by
          have ha : l.active.get? id = some k := by rwa [activeKey?, hlevel] at hact
          obtain ⟨node', hn', -, rfl⟩ := (hl _ l hlevel).active id k ha
          have hrec := StopsWithin.record hv k
          rw [hn, hn'] at hrec
          have hid : node.id = node'.id := congrArg Record.id (Option.some.inj hrec)
          rw [instance?_vacated, hid]
          cases hi : e.instance? r.level node'.id with
          | none => rfl
          | some i => exact absurd (hm _ _ i k hi hact) hd.not_standsIn
        have hw := hleave.trans (draining_beginAll call (stops_beginStop call fuel) (fun e r hl hm hd => ih e hl hm hd r)
          r (e.stopTargets l r.filter) (e.vacated l r, []) hlv (hm.stops hl hv) (hd.stops hv) hleave.numbered hleave.state
          hmem hnodup hgone hinst)
        have hend := hw.after (hfinish _ hw.numbered)
        exact ⟨hend.numbered, .inr ⟨⟨_, id, hact⟩, hwork, hend, fun hact =>
          hgone ((hall.dwindles hlv).isActive (hdw.isActive hact))⟩⟩
      · have hrest := (treats_beginAll call (stops_beginStop call fuel) (fun e r hl hm hd => ih e hl hm hd r) r
          (e.stopTargets l r.filter) (e.vacated l r, []) hlv (hm.stops hl hv) (hd.stops hv) hmem).2
        exact ((bypasses_vacated hmem).treats.trans (hv.dwindles hl).isActive hrest (hall.dwindles hlv).isActive).trans
          ((hv.trans hall).dwindles hl).isActive (hfinish _).treats hdw.isActive

end begins

theorem treats_beginStops (call : CallKey) (requests : List StopRequest) (s : Engine × List Stopping) (hl : Laid s.1) (hm : Manned s.1)
    (hd : s.1.HoldsFor ms k) : Treats ms k s.1 (beginStops call s requests).1 := by
  induction requests generalizing s with
  | nil => exact (Bypasses.refl k s.1).treats
  | cons r requests ih =>
    have hs : Stops s.1 (s.1.stop call r).1 := stops_stop s.1 call r
    have hrest : Stops (s.1.stop call r).1 (beginStops call ((s.1.stop call r).1, s.2 ++ [(s.1.stop call r).2]) requests).1 :=
      stops_beginStops call ((s.1.stop call r).1, s.2 ++ [(s.1.stop call r).2]) requests
    exact (treats_beginStop _ s.1 hl hm hd r).trans (hs.dwindles hl).isActive
      (ih ((s.1.stop call r).1, s.2 ++ [(s.1.stop call r).2]) (hs.laid hl) (hm.stops hl hs) (hd.stops hs))
      (hrest.dwindles (hs.laid hl)).isActive

theorem isActive_afterStops (e : Engine) (call : CallKey) (stops : List Stopping) (n : NodeKey) :
    (e.afterStops call stops).IsActive n ↔ e.IsActive n := by
  refine isActive_of_levels (fun j => ?_) n
  unfold afterStops
  dsimp only
  split
  · split <;> rfl
  · rfl

/-- A call that goes on touches no delay node but those that it dismisses. -/
theorem treats_resume (hl : Laid e) (hm : Manned e) (hd : e.HoldsFor ms k)
    (hwait : ∀ c, e.call? call = some c → k ∉ (c.waiting.flatMap Stopping.orders).map (·.node)) :
    Treats ms k e (e.resume call) := by
  have hmodify (f : Call → Call) : Bypasses k e (e.modifyCall call f) := bypasses_modifyCall e f
  have hres := resumes_resume e call
  generalize e.resume call = e' at hres ⊢
  cases hres with
  | unknown => exact (Bypasses.refl k e).treats
  | ends => exact (hmodify _).treats
  | @stage c stage stages hc hw hs =>
    cases hrq : stage.requests? (e.modifyCall call fun c => { c with stages }) with
    | none => exact ((hmodify _).trans (bypasses_runStage _ call hrq)).treats
    | some requests =>
      rw [runStage_of_requests? hrq, stopAll_eq]
      have hst : Stands e (e.modifyCall call fun c => { c with stages }) := .modifyCall _ _ _ fun _ => ⟨rfl, rfl⟩
      have hlm : Laid (e.modifyCall call fun c => { c with stages }) := hl.of_levels (.of_eq rfl rfl rfl rfl) fun _ => rfl
      have hbegin := treats_beginStops call requests (e.modifyCall call fun c => { c with stages }, []) hlm
        (hm.stands hst) hd
      have hstops := stops_beginStops call (e.modifyCall call fun c => { c with stages }, []) requests
      exact ((hmodify _).treats.trans id hbegin (hstops.dwindles hlm).isActive).trans (hstops.dwindles hlm).isActive
        (bypasses_afterStops _ _ _).treats (isActive_afterStops _ _ _ _).mp
  | waits hc hw =>
    rw [pollAll_eq]
    exact ((bypasses_pollStops call _ (e, []) (hwait _ hc)).trans (bypasses_afterStops _ _ _)).treats

end Flowgraph.Engine
