import Flowgraph.Proofs.Deeds
import Flowgraph.Proofs.Withdrawal
/-! Tasks that wait. Whoever looks after a task is not lost: it has been woken, or a timer stands for it. Only its own
turn ends the waiting. -/
namespace Flowgraph

/-- The same task of the same node. -/
structure Pending.Same (p p' : Pending) : Prop where
  key : p'.key = p.key
  owner : p'.owner = p.owner
  task : p'.task = p.task

theorem Pending.Same.refl (p : Pending) : p.Same p := ⟨rfl, rfl, rfl⟩

namespace Engine

variable {e e' e'' : Engine} {k : NodeKey} {m : Message} {d : Deed} {a : Action} {key : TaskKey} {p q : Pending}
  {P : Pending → Prop} {ns : List NodeKey}

/-! ## Whose task it is -/

/-- Every task has a key of its own, which is not given again. -/
structure Keyed (e : Engine) : Prop where
  nodup : (e.tasks.map (·.key)).Nodup
  below : ∀ p ∈ e.tasks, p.key < e.nextTask

theorem Keyed.unique (h : Keyed e) (hp : p ∈ e.tasks) (hq : q ∈ e.tasks) (hkey : p.key = q.key) : p = q :=
  List.inj_on_of_nodup_map h.nodup hp hq hkey

theorem Keyed.find? (h : Keyed e) (hp : p ∈ e.tasks) : e.tasks.find? (·.key == p.key) = some p := by
  cases hf : e.tasks.find? (·.key == p.key) with
  | none => exact absurd (List.find?_eq_none.mp hf p hp) (by simp)
  | some q =>
    have hkey : q.key = p.key := by simpa using List.find?_some hf
    rw [h.unique (List.mem_of_find?_eq_some hf) hp hkey]

theorem mem_of_find?_key (h : e.tasks.find? (·.key == key) = some p) : p ∈ e.tasks ∧ p.key = key :=
  ⟨List.mem_of_find?_eq_some h, by simpa using List.find?_some h⟩

/-- The task of a message that a node has just begun to hold. -/
inductive BeginsHold (e : Engine) : Deed → Pending → Prop
  | mk {k : NodeKey} {m : Message} {node : Node} {ms : Nat} (h : TakesUp e k node (Delay.behaviour ms)) :
      BeginsHold e (.act (.hand k m)) ⟨e.nextTask, k, Delay.hold ms m, none⟩

/-- Where the tasks come from that there are after a step. -/
structure Inherits (P : Pending → Prop) (e e' : Engine) : Prop where
  tasks : ∀ p' ∈ e'.tasks, (∃ p ∈ e.tasks, p.Same p') ∨ (e.nextTask ≤ p'.key ∧ p'.key < e'.nextTask ∧ P p')
  next : e.nextTask ≤ e'.nextTask
  keyed : Keyed e → Keyed e'

theorem Lends.inherits (h : Lends P e e') : Inherits P e e' := by
  obtain ⟨new, htasks, hnext, hkeys, hnew⟩ := h.tasks
  have hrange (p : Pending) (hp : p ∈ new) : e.nextTask ≤ p.key ∧ p.key < e.nextTask + new.length := by
    have hm : p.key ∈ List.range' e.nextTask new.length := hkeys ▸ List.mem_map_of_mem hp
    simpa using hm
  refine ⟨fun p hp => ?_, hnext ▸ Nat.le_add_right _ _, fun hk => ⟨?_, fun p hp => ?_⟩⟩
  · rw [htasks] at hp
    rcases List.mem_append.mp hp with hp | hp
    · exact .inl ⟨p, hp, .refl p⟩
    · exact .inr ⟨(hrange p hp).1, hnext ▸ (hrange p hp).2, (hnew p hp).1⟩
  · rw [htasks, List.map_append, hkeys]
    refine List.nodup_append.mpr ⟨hk.nodup, List.nodup_range', fun x hx y hy hxy => ?_⟩
    obtain ⟨p, hp, rfl⟩ := List.mem_map.mp hx
    exact absurd (hxy ▸ (List.mem_range'_1.mp hy).1) (Nat.not_le.mpr (hk.below p hp))
  · rw [htasks] at hp
    rcases List.mem_append.mp hp with hp | hp
    · exact Nat.lt_of_lt_of_le (hk.below p hp) (hnext ▸ Nat.le_add_right _ _)
    · exact hnext ▸ (hrange p hp).2

theorem Inherits.of_lent (h : e'.lent = e.lent) : Inherits P e e' := by
  obtain ⟨hnext, htasks⟩ := Prod.mk.inj h
  exact ⟨fun p hp => .inl ⟨p, htasks ▸ hp, .refl p⟩, Nat.le_of_eq hnext.symm,
    fun hk => ⟨htasks ▸ hk.nodup, fun p hp => hnext ▸ hk.below p (htasks ▸ hp)⟩⟩

theorem Inherits.of_filter (f : Pending → Bool) (h : e'.lent = (e.nextTask, e.tasks.filter f)) : Inherits P e e' := by
  obtain ⟨hnext, htasks⟩ := Prod.mk.inj h
  refine ⟨fun p hp => .inl ⟨p, (List.mem_filter.mp (htasks ▸ hp)).1, .refl p⟩, Nat.le_of_eq hnext.symm, fun hk => ⟨?_, ?_⟩⟩
  · rw [htasks]
    exact hk.nodup.sublist (List.filter_sublist.map _)
  · intro p hp
    exact hnext ▸ hk.below p (List.mem_filter.mp (htasks ▸ hp)).1

/-- A task that begins to wait remains the same task. -/
theorem Inherits.of_map (f : Pending → Pending) (hf : ∀ p : Pending, p.Same (f p)) (h : e'.lent = (e.nextTask, e.tasks.map f)) :
    Inherits P e e' := by
  obtain ⟨hnext, htasks⟩ := Prod.mk.inj h
  refine ⟨fun p hp => ?_, Nat.le_of_eq hnext.symm, fun hk => ⟨?_, fun p hp => ?_⟩⟩
  · obtain ⟨q, hq, rfl⟩ := List.mem_map.mp (htasks ▸ hp)
    exact .inl ⟨q, hq, hf q⟩
  · rw [htasks, List.map_map]
    exact (List.map_congr_left fun p _ => (hf p).key) ▸ hk.nodup
  · obtain ⟨q, hq, rfl⟩ := List.mem_map.mp (htasks ▸ hp)
    rw [(hf q).key]
    exact hnext ▸ hk.below q hq

/-! ## What deeds do to tasks -/

theorem Asked.lends (h : Asked e e') : Lends P e e' := by
  have hsame {s : Engine} (hl : s.lent = e.lent) (hn : s.now = e.now) (ht : s.timers = e.timers) (hr : s.ready = e.ready) :
      Lends P e s := .of_lent hl hn (fun _ h => ht ▸ h) fun _ h => hr ▸ h
  cases h with
  | call h =>
    have hcall {calls : List (CallKey × Call)} {next : Nat} : Lends P e { e with nextCall := next, calls } :=
      .of_lent rfl rfl (fun _ h => h) fun _ h => h
    exact hcall.trans (lends_wake _ _)
  | hand k m => exact hsame rfl rfl rfl rfl
  | effect k effect => exact hsame rfl rfl rfl rfl
  | signal j origin signal => exact lends_raise e j origin signal
  | keep => exact hsame rfl rfl rfl rfl
  | flow => exact hsame rfl rfl rfl rfl
  | update => exact hsame rfl rfl rfl rfl
  | read => exact hsame rfl rfl rfl rfl

/-- A node of a kind that is always at hand starts a task for a message that it holds, and none otherwise. -/
theorem lends_hand (hs : Stocked e) (k : NodeKey) (m : Message) :
    Lends (BeginsHold e (.act (.hand k m))) e (e.hand k m) := by
  have hpush (e : Engine) (actions : List Action) : Lends (BeginsHold e (.act (.hand k m))) e (e.push actions) :=
    .of_lent rfl rfl (fun _ h => h) fun _ h => h
  by_cases h : ∃ node b, TakesUp e k node b
  · obtain ⟨node, b, ht⟩ := h
    rw [ht.hand_eq m]
    cases hs k node b ht.there ht.part with
    | direct _ hdirect =>
      rw [show ((Behaviour.plain _ _).onInput (e.situation k node) m).tasks = [] from (hdirect _ _).tasks]
      exact hpush e _
    | holds =>
      refine Lends.trans (m := e.startTask k (Delay.hold _ m)) ((lends_startTask e k _).mono ?_)
        (.of_lent rfl rfl (fun _ h => h) fun _ h => h)
      rintro _ rfl
      exact .mk ht
  · exact (conveysOn_hand e k m fun node b ht => h ⟨node, b, ht⟩).2 _

/-- The tasks that a deed can start. -/
def Begins (e : Engine) (d : Deed) (p : Pending) : Prop := SignalsClose p ∨ BeginsHold e d p

theorem lends_act (hs : Stocked e) (hf : ∀ key, a ≠ .finishTask key) : Lends (Begins e (.act a)) e (e.act a) := by
  cases a with
  | hand k m => exact (lends_hand hs k m).mono fun _ => .inr
  | handAt j id m =>
    change Lends _ e (e.handAt j id m)
    unfold handAt
    split
    · exact .of_lent rfl rfl (fun _ h => h) fun _ h => h
    · exact .refl e
  | deliver j id m =>
    change Lends _ e (e.deliver j id m)
    unfold deliver
    split
    · exact .of_lent rfl rfl (fun _ h => h) fun _ h => h
    · exact .refl e
  | effect k effect => exact lends_perform e k effect
  | conclude k m outcome => exact lends_conclude e k m outcome
  | create j r templates => exact lends_makes e rfl
  | install j r inst => exact lends_makes e rfl
  | refresh j => exact lends_makes e rfl
  | announce j =>
    change Lends _ e (e.announce j)
    unfold announce
    split
    · exact .refl e
    · exact lends_publish _ _
  | finishTask key => exact absurd rfl (hf key)
  | resume key => exact (lends_resume hs key).mono fun _ => .inl

theorem begins_agenda {agenda : List Action} (h : Begins { e with agenda } d p) : Begins e d p := by
  refine h.imp_right fun hb => ?_
  cases hb with
  | mk ht => exact .mk ⟨ht.there, ht.awake, ht.part⟩

theorem Does.lends (h : Does e d e') (hs : Stocked e) (hf : ∀ key, d ≠ .act (.finishTask key)) (ht : ∀ w, d ≠ .turn w)
    (hr : d ≠ .rest) : Lends (Begins e d) e e' := by
  cases h with
  | @act a agenda hb ha =>
    have hpop : Lends (Begins e (.act a)) e { e with agenda } := .of_lent rfl rfl (fun _ h => h) fun _ h => h
    have hact := lends_act (e := { e with agenda }) (a := a) hs fun key he => hf key (he ▸ rfl)
    exact hpop.trans (hact.mono fun _ => begins_agenda)
  | turn => exact absurd rfl (ht _)
  | wake => exact absurd rfl hr
  | time => exact absurd rfl hr
  | asked ha h => exact h.lends

/-- After every step each task is one that was there before, or one that the step has begun. -/
theorem Does.inherits (h : Does e d e') (hs : Stocked e) : Inherits (Begins e d) e e' := by
  have hlends (hf : ∀ key, d ≠ .act (.finishTask key)) (ht : ∀ w, d ≠ .turn w) (hr : d ≠ .rest) :
      Inherits (Begins e d) e e' := (h.lends hs hf ht hr).inherits
  cases h with
  | @act a agenda hb ha =>
    cases a with
    | finishTask key => exact .of_filter (·.key != key) (finishTask_frame { e with agenda } key).2.1
    | _ => exact hlends nofun nofun nofun
  | @turn w hb ha hw =>
    have ht := turns_runWaiter (e.turned w) w
    change Inherits _ e ((e.turned w).runWaiter w)
    generalize (e.turned w).runWaiter w = e' at ht ⊢
    cases ht with
    | call => exact .of_lent rfl
    | reader hl => exact .of_lent hl
    | nobody => exact .of_lent rfl
    | @task key p _ hfind hr =>
      cases hr with
      | drops => exact .of_filter (·.key != p.key) (finishTask_frame (e.turned (.task key)) p.key).2.1
      | resumes => exact .of_lent rfl
      | dozes => exact .of_lent rfl
      | sleeps =>
        exact .of_map _ (fun q => by split <;> exact ⟨rfl, rfl, rfl⟩) rfl
  | wake ha => exact .of_lent (wakePutOff_frame e).2
  | time moment ha => exact .of_lent (moveTo_frame e moment).2
  | asked ha h => exact hlends nofun nofun nofun

/-! ## Who looks after a task -/

/-- A task has been woken and not begun to wait, or its time is to come and a timer stands for it, or its time is up and
it has been woken. -/
def Expected (e : Engine) (p : Pending) : Prop :=
  match p.due with
  | none => .task p.key ∈ e.ready
  | some due => (e.now < due ∧ ⟨due, .task p.key⟩ ∈ e.timers) ∨ (due ≤ e.now ∧ .task p.key ∈ e.ready)

theorem Expected.later (h : Expected e p) (hn : e'.now = e.now) (ht : ∀ t ∈ e.timers, t ∈ e'.timers)
    (hr : .task p.key ∈ e.ready → .task p.key ∈ e'.ready) : Expected e' p := by
  unfold Expected at *
  split
  · rename_i hd
    rw [hd] at h
    exact hr h
  · rename_i due hd
    rw [hd] at h
    exact h.imp (fun ⟨hlt, hm⟩ => ⟨hn ▸ hlt, ht _ hm⟩) fun ⟨hle, hm⟩ => ⟨hn ▸ hle, hr hm⟩

theorem Expected.tranquil (h : Expected e p) (ht : Tranquil ns e e') : Expected e' p :=
  h.later ht.now ht.timers (ht.ready _)

theorem Expected.moveTo (h : Expected e p) (ha : e.agenda = []) {moment : Nat} (hm : e.now ≤ moment) (hp : p ∈ e.tasks) :
    Expected (e.moveTo moment) p := by
  have hready (w : Waiter) (hw : w ∈ e.ready) : w ∈ (e.moveTo moment).ready := by
    unfold Engine.moveTo
    split
    · exact hw
    · exact mem_ready_foldl_wake (fun t : Timer => alarmWaiter t.alarm) _ _ (.inl hw)
  have hmoves := moves_moveTo ha moment
  unfold Expected at *
  split
  · rename_i hd
    rw [hd] at h
    exact hready _ h
  · rename_i due hd
    rw [hd] at h
    rcases h with ⟨-, h⟩ | ⟨hle, h⟩
    · have hawaited : e.isAwaited ⟨due, .task p.key⟩ = true := List.any_eq_true.mpr ⟨p, hp, by simp⟩
      have ht := hmoves.timers _ h hawaited
      split at ht
      · rename_i hdue
        exact .inr ⟨Nat.le_trans hdue (Nat.le_of_eq hmoves.now.symm), ht⟩
      · rename_i hdue
        exact .inl ⟨Nat.lt_of_le_of_lt (Nat.le_of_eq hmoves.now) (Nat.lt_of_not_le hdue), ht⟩
    · exact .inr ⟨Nat.le_trans (Nat.le_trans hle hm) (Nat.le_of_eq hmoves.now.symm), hready _ h⟩

/-- The turn of a task that is there. -/
theorem Does.runsTask (h : Does e (.turn (.task p.key)) e') (hk : Keyed e) (hp : p ∈ e.tasks) :
    RunsTask (e.turned (.task p.key)) p e' := by
  obtain ⟨-, -, -, ht⟩ := h.turns
  cases ht with
  | nobody hnone => exact absurd ((hk.find? hp).symm.trans hnone) nofun
  | task hfind hr =>
    obtain rfl := Option.some.inj ((hk.find? hp).symm.trans hfind)
    exact hr

/-- How the waiting of a task ends. -/
inductive EndsWait (e : Engine) (p : Pending) (e' : Engine) : Deed → Prop
  | finished : EndsWait e p e' (.act (.finishTask p.key))
  | dropped (ha : p.task.abandons = true) (hc : e.isCancelled p.owner = true) : EndsWait e p e' (.turn (.task p.key))
  | resumed (hk : (p.task.abandons && e.isCancelled p.owner) = false)
      (ha : e'.agenda = (p.task.resume (e.isCancelled p.owner)).map (.effect p.owner) ++ [.finishTask p.key]) :
      EndsWait e p e' (.turn (.task p.key))

/-- The task is still there, and somebody looks after it. -/
def Tended (e : Engine) (p : Pending) : Prop := ∃ p' ∈ e.tasks, p.Same p' ∧ Expected e p'

theorem Expected.tended (h : Expected e p) (hp : p ∈ e.tasks) : Tended e p := ⟨p, hp, .refl p, h⟩

/-- The end of one task leaves the others waiting. -/
theorem Expected.finishTask (h : Expected e p) (hp : p ∈ e.tasks) (hne : key ≠ p.key) : Tended (e.finishTask key) p := by
  obtain ⟨-, hl, ht⟩ := finishTask_frame e key
  have htasks : (e.finishTask key).tasks = e.tasks.filter (·.key != key) := congrArg (·.2) hl
  exact (h.tranquil ht).tended (htasks ▸ List.mem_filter.mpr ⟨hp, by simpa using hne.symm⟩)

/-- In its own turn a task has its way, unless it is dropped or goes on waiting. -/
theorem RunsTask.keeps {w : Waiter} (h : RunsTask (e.turned w) p e') (ha : e.agenda = []) (hp : p ∈ e.tasks) {ms : Nat}
    (hw : p.task.wait = .time ms) (hx : Expected e p) : Tended e' p ∨ EndsWait e p e' (.turn (.task p.key)) := by
  cases h with
  | drops hab hc => exact .inr (.dropped hab hc)
  | resumes hno =>
    refine .inr (.resumed hno ?_)
    change _ ++ e.agenda = _
    rw [ha, List.append_nil]
    rfl
  | dozes hno hlate =>
    obtain ⟨due, hd, hlt⟩ := hlate ms hw
    refine .inl ⟨p, hp, .refl p, ?_⟩
    unfold Expected at *
    rw [hd] at hx ⊢
    exact .inl (hx.resolve_right fun h => Nat.not_le.mpr hlt h.1)
  | @sleeps ms' hno hw' hpos hd =>
    refine .inl ⟨{ p with due := some (e.now + ms') }, ?_, ⟨rfl, rfl, rfl⟩, ?_⟩
    · exact List.mem_map.mpr ⟨p, hp, if_pos rfl⟩
    · exact .inl ⟨Nat.lt_add_of_pos_right hpos, List.mem_append_right _ List.mem_cons_self⟩

/-- In the turn of somebody else a task goes on waiting. -/
theorem Turns.keeps {w : Waiter} (h : Turns (e.turned w) w e') (hne : w ≠ .task p.key) (hp : p ∈ e.tasks)
    (hx : Expected e p) : Tended e' p := by
  have hx' : Expected (e.turned w) p :=
    hx.later rfl (fun _ h => h) fun hm => List.mem_filter.mpr ⟨hm, by simpa using hne.symm⟩
  cases h with
  | call => exact ⟨p, hp, .refl p, hx'⟩
  | reader hl ht =>
    have htasks : e'.tasks = e.tasks := congrArg (·.2) hl
    exact (hx'.tranquil ht).tended (htasks ▸ hp)
  | nobody => exact hx'.tended hp
  | @task key q _ hfind hr =>
    obtain ⟨-, hkey⟩ := mem_of_find?_key hfind
    have hqp : q.key ≠ p.key := fun h => hne (by rw [← hkey, h])
    cases hr with
    | drops => exact hx'.finishTask hp hqp
    | resumes => exact ⟨p, hp, .refl p, hx'⟩
    | dozes => exact hx'.tended hp
    | sleeps =>
      exact ⟨p, List.mem_map.mpr ⟨p, hp, if_neg hqp.symm⟩, .refl p,
        hx'.later rfl (fun _ h => List.mem_append_left _ h) id⟩

/-- A task for which time must pass is looked after, until it is dropped or has its way. -/
theorem Does.keeps (h : Does e d e') (hs : Stocked e) (hk : Keyed e) (hp : p ∈ e.tasks) {ms : Nat}
    (hw : p.task.wait = .time ms) (hx : Expected e p) : Tended e' p ∨ EndsWait e p e' d := by
  have hlends (hf : ∀ key, d ≠ .act (.finishTask key)) (ht : ∀ w, d ≠ .turn w) (hr : d ≠ .rest) :
      Tended e' p ∨ EndsWait e p e' d := by
    have hl := h.lends hs hf ht hr
    obtain ⟨new, htasks, -⟩ := hl.tasks
    exact .inl ((hx.later hl.now hl.timers (hl.ready _)).tended (htasks ▸ List.mem_append_left _ hp))
  cases h with
  | @act a agenda hb ha =>
    cases a with
    | finishTask key =>
      by_cases hkey : key = p.key
      · exact .inr (hkey ▸ .finished)
      · have hx' : Expected { e with agenda } p := hx
        exact .inl (hx'.finishTask hp hkey)
    | _ => exact hlends nofun nofun nofun
  | @turn w hb ha hready =>
    by_cases hne : w = .task p.key
    · subst hne
      have hdoes : Does e (.turn (.task p.key)) ((e.turned (.task p.key)).runWaiter (.task p.key)) := .turn hb ha hready
      exact (hdoes.runsTask hk hp).keeps ha hp hw hx
    · exact .inl ((turns_runWaiter (e.turned w) w).keeps hne hp hx)
  | wake ha =>
    have ht : Tranquil [] { e with putOff := [] } e.wakePutOff := .foldl _ (fun e w => tranquil_wake e w) _ _
    have hx' : Expected { e with putOff := [] } p := hx
    have htasks : e.wakePutOff.tasks = e.tasks := congrArg (·.2) (wakePutOff_frame e).2
    exact .inl ((hx'.tranquil ht).tended (htasks ▸ hp))
  | time moment ha hm =>
    have htasks : (e.moveTo moment).tasks = e.tasks := congrArg (·.2) (moveTo_frame e moment).2
    exact .inl ((hx.moveTo ha hm hp).tended (htasks ▸ hp))
  | asked ha h => exact hlends nofun nofun nofun

/-! ## Nodes that have been told to stop -/

/-- The node has been told to stop. -/
def Told (e : Engine) (k : NodeKey) : Prop := ∃ node, e.node? k = some node ∧ node.cancelled = true

theorem Told.isCancelled (h : Told e k) : e.isCancelled k = true := by
  obtain ⟨node, hn, hc⟩ := h
  simp [Engine.isCancelled, hn, hc]

theorem Told.of_cancelled (h : Told e k) (hc : (e'.node? k).map (·.cancelled) = (e.node? k).map (·.cancelled)) :
    Told e' k := by
  obtain ⟨node, hn, hcancelled⟩ := h
  rw [hn] at hc
  obtain ⟨node', hn', he⟩ := Option.map_eq_some_iff.mp hc
  exact ⟨node', hn', he.trans hcancelled⟩

theorem Stops.told (hs : Stops e e') (h : Told e k) : Told e' k := by
  refine hs.invariant (P := fun s => Told s k) (fun s s' h ht => ?_) h
  cases ht with
  | still hst _ => exact h.of_cancelled (cancelled_of_still hst k)
  | cancel n =>
    obtain ⟨node, hn, hc⟩ := h
    rw [Told, node?_modifyNode]
    split
    · exact ⟨{ node with cancelled := true }, by rw [hn]; rfl, rfl⟩
    · exact ⟨node, hn, hc⟩
  | _ => exact h

theorem told_resume (h : Told e k) (key : CallKey) : Told (e.resume key) k := by
  have hafter {s s' : Engine} {stops : List Stopping} (h : Told s k) (hp : Proceeds s key stops s') : Told s' k := by
    cases hp with
    | waits _ hs =>
      have hm : Told (s.modifyCall key fun c => { c with waiting := stops }) k := h
      exact hm.of_cancelled (cancelled_of_still hs.still k)
    | done => exact h
  have hres := resumes_resume e key
  generalize e.resume key = e' at hres ⊢
  cases hres with
  | unknown => exact h
  | ends => exact h
  | @stage c stage stages hc hw hs =>
    have hmodify : Told (e.modifyCall key fun c => { c with stages }) k := h
    cases hrq : stage.requests? (e.modifyCall key fun c => { c with stages }) with
    | none => exact hmodify.of_cancelled (cancelled_runStage key hrq k)
    | some requests =>
      rw [runStage_of_requests? hrq, stopAll_eq]
      exact hafter ((stops_beginStops key (e.modifyCall key fun c => { c with stages }, []) requests).told hmodify)
        (proceeds_afterStops _ _ _)
  | waits hc hw =>
    rw [pollAll_eq]
    exact hafter ((stops_pollStops key (e, []) _).told h) (proceeds_afterStops _ _ _)

theorem told_act (h : Told e k) (a : Action) : Told (e.act a) k := by
  cases hq : a.isQuiet with
  | true => exact h.of_cancelled (cancelled_of_still (quiet_act e hq).still k)
  | false =>
    have hsize : k < e.nodes.size := by
      obtain ⟨node, hn, -⟩ := h
      exact node?_lt e k hn
    cases a with
    | create j r templates => exact h.of_cancelled (cancelled_makes rfl hsize)
    | install j r inst => exact h.of_cancelled (cancelled_makes rfl hsize)
    | refresh j => exact h.of_cancelled (cancelled_makes rfl hsize)
    | resume key => exact told_resume h key
    | _ => cases hq

/-- A node that has been told to stop stays told. -/
theorem Does.told (hd : Does e d e') (h : Told e k) : Told e' k := by
  have hstill (hs : e'.still = e.still) : Told e' k := h.of_cancelled (cancelled_of_still hs k)
  cases hd with
  | @act a agenda hb ha =>
    have hpop : Told { e with agenda } k := h
    exact told_act hpop a
  | turn hb ha hw =>
    rcases (Tick.turn hb ha hw).kinds with ⟨hs, -⟩ | ⟨-, -, hs, -⟩ | ⟨a, agenda, -, -, hagenda, -⟩
    · exact hstill hs
    · exact hstill hs
    · rw [ha] at hagenda
      cases hagenda
  | wake ha => exact hstill (quiet_wakePutOff e).still
  | time moment => exact hstill (quiet_moveTo e moment).still
  | asked ha h' =>
    cases h'.input with
    | call => exact h.of_cancelled (by rw [node?_begin])
    | quiet hq => exact hstill hq.still
    | _ => exact h

end Engine
end Flowgraph
