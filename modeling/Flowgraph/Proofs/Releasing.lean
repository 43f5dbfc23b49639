import Flowgraph.Proofs.Settling
/-! Messages that are held. A node that holds a message completes it once, after it has sent it on, unless it is told to
stop before; then the message is dropped without a word. -/
namespace Flowgraph.Engine

variable {state : Nat → Engine} {deed : Nat → Deed} {n i j l t : Nat} {e : Engine} {k k' : NodeKey} {m : Message} {node : Node}
  {s : Signal} {key : TaskKey} {p : Pending} {ms : Nat}

namespace History

variable (h : History state deed n)
include h

/-! ## The task of a message -/

theorem gone (hij : i ≤ j) (hj : j ≤ n) (hlt : key < (state i).nextTask) (hno : ∀ p ∈ (state i).tasks, p.key ≠ key) :
    ∀ p ∈ (state j).tasks, p.key ≠ key := by
  induction j, hij using Nat.le_induction with
  | base => exact hno
  | succ j hij ih =>
    intro p hp
    rcases ((h.does j hj).inherits (h.stocked (Nat.le_of_succ_le hj))).tasks p hp with ⟨q, hq, hsame⟩ | ⟨hnew, -⟩
    · rw [hsame.key]
      exact ih (Nat.le_of_succ_le hj) q hq
    · exact Nat.ne_of_gt (Nat.lt_of_lt_of_le hlt (Nat.le_trans (h.nextTask_le hij (Nat.le_of_succ_le hj)) hnew))

/-- A node that holds a message starts a task for it, which is looked after. -/
theorem begins (hi : i < n) (hd : deed i = .act (.hand k m)) (ht : TakesUp (state i) k node (Delay.behaviour ms)) :
    (state (i + 1)).nextTask = (state i).nextTask + 1 ∧ ∃ p ∈ (state (i + 1)).tasks, p.key = (state i).nextTask ∧
      p.owner = k ∧ p.task = Delay.hold ms m ∧ Expected (state (i + 1)) p := by
  obtain ⟨agenda, ha⟩ := h.hand_agenda hi hd
  obtain ⟨-, he, -⟩ := h.act_at hi ha rfl
  have ht' : TakesUp { state i with agenda } k node (Delay.behaviour ms) := ⟨ht.there, ht.awake, ht.part⟩
  have hlent := lent_startTask { state i with agenda } k (Delay.hold ms m)
  have hhand : state (i + 1) = (startTask { state i with agenda } k (Delay.hold ms m)).push _ := he.trans (ht'.hand_eq m)
  refine ⟨?_, ⟨(state i).nextTask, k, Delay.hold ms m, none⟩, ?_, rfl, rfl, rfl, ?_⟩
  · rw [hhand]
    exact congrArg (·.1) hlent
  · have htasks : (startTask { state i with agenda } k (Delay.hold ms m)).tasks =
        (state i).tasks ++ [⟨(state i).nextTask, k, Delay.hold ms m, none⟩] := congrArg (·.2) hlent
    rw [hhand]
    change _ ∈ (startTask { state i with agenda } k (Delay.hold ms m)).tasks
    rw [htasks]
    exact List.mem_append_right _ List.mem_cons_self
  · rw [hhand]
    exact mem_ready_wake _ _

/-- The key of the task stands for this message. -/
theorem task_of_key (hi : i < n) (hd : deed i = .act (.hand k m)) (ht : TakesUp (state i) k node (Delay.behaviour ms))
    (hij : i < j) (hj : j ≤ n) (hp : p ∈ (state j).tasks) (hkey : p.key = (state i).nextTask) :
    p.owner = k ∧ p.task = Delay.hold ms m := by
  induction j, hij using Nat.le_induction generalizing p with
  | base =>
    rcases (h.hand_lends hi hd).inherits.tasks p hp with ⟨q, hq, hsame⟩ | ⟨-, -, hbegin⟩
    · have hlt := (h.keyed (Nat.le_of_lt hi)).below q hq
      rw [← hsame.key, hkey] at hlt
      exact absurd hlt (Nat.lt_irrefl _)
    · cases hbegin with
      | mk ht' =>
        have hb := congrArg (fun b => (b.onInput (situation (state i) k node) m).tasks) (ht.eq ht').2
        exact ⟨rfl, (List.cons.inj hb).1⟩
  | succ j hij ih =>
    rcases ((h.does j hj).inherits (h.stocked (Nat.le_of_succ_le hj))).tasks p hp with ⟨q, hq, hsame⟩ | ⟨hnew, -⟩
    · obtain ⟨ho, htask⟩ := ih (Nat.le_of_succ_le hj) hq (hsame.key.symm.trans hkey)
      exact ⟨hsame.owner.trans ho, hsame.task.trans htask⟩
    · have hnext := h.nextTask_le hij (Nat.le_of_succ_le hj)
      rw [(h.begins hi hd ht).1] at hnext
      rw [hkey] at hnew
      exact absurd (Nat.le_trans hnext hnew) (Nat.not_succ_le_self _)

end History

/-- In its turn at t the task has its way. -/
structure ResumedAt (state : Nat → Engine) (deed : Nat → Deed) (k : NodeKey) (m : Message) (key : TaskKey) (t : Nat) :
    Prop where
  turn : deed t = .turn (.task key)
  push : (state (t + 1)).agenda = [.effect k (.send 0 m), .effect k (.complete m), .finishTask key]

namespace History

variable (h : History state deed n)
include h

theorem turn_at (ht : t < n) (hd : deed t = .turn (.task key)) :
    (state t).agenda = [] ∧ Turns ((state t).turned (.task key)) (.task key) (state (t + 1)) := by
  have hdoes := h.does t ht
  rw [hd] at hdoes
  exact ⟨hdoes.turns.2.1, hdoes.turns.2.2.2⟩

/-- While a task has its way, nothing else is done; then it is over. -/
theorem after_resumed (ht : t < n) (hres : ResumedAt state deed k m key t) (hkey : key < (state t).nextTask) (htl : t < l)
    (hl : l ≤ n) : (∀ p ∈ (state l).tasks, p.key ≠ key) ∨
      (∃ above, (state l).agenda = above ++ [.finishTask key]) ∧ (state l).still = (state t).still := by
  induction l, htl using Nat.le_induction with
  | base =>
    refine .inr ⟨⟨[_, _], hres.push⟩, ?_⟩
    obtain ⟨-, hturns⟩ := h.turn_at ht hres.turn
    have hpush := hres.push
    generalize state (t + 1) = e' at hturns hpush
    cases hturns with
    | nobody => rfl
    | task _ hr =>
      cases hr with
      | drops => exact (quiet_finishTask _ _).still
      | resumes => rfl
      | dozes => rfl
      | sleeps => rfl
  | succ l htl ih =>
    rcases ih (Nat.le_of_succ_le hl) with hgone | ⟨⟨above, ha⟩, hstill⟩
    · have hnext := h.nextTask_le (Nat.le_of_lt htl) (Nat.le_of_succ_le hl)
      exact .inl (h.gone (Nat.le_succ l) hl (Nat.lt_of_lt_of_le hkey hnext) hgone)
    · cases above with
      | nil =>
        obtain ⟨-, he, -⟩ := h.act_at hl ha rfl
        have htasks : (state (l + 1)).tasks = (state l).tasks.filter (·.key != key) := by
          rw [he]
          exact congrArg (·.2) (finishTask_frame { state l with agenda := [] } key).2.1
        refine .inl fun p hp => ?_
        rw [htasks] at hp
        simpa using (List.mem_filter.mp hp).2
      | cons b above =>
        have hb := (h.unmixed (Nat.le_of_succ_le hl)).of_message (a := .finishTask key) (by simp [ha]) rfl b (by simp [ha])
        rw [List.cons_append] at ha
        obtain ⟨-, he, pushed, hpush, -⟩ := h.act_at hl ha hb
        refine .inr ⟨⟨pushed ++ above, by rw [hpush, List.append_assoc]⟩, ?_⟩
        rw [he]
        exact (quiet_act { state l with agenda := above ++ [.finishTask key] } (Action.isQuiet_of_plans hb)).still.trans hstill

/-- Only a task that is there can have its way. -/
theorem exists_task (ht : t < n) (hres : ResumedAt state deed k m key t) : ∃ p ∈ (state t).tasks, p.key = key := by
  obtain ⟨ha, hturns⟩ := h.turn_at ht hres.turn
  have hpush := hres.push
  generalize state (t + 1) = e' at hturns hpush
  cases hturns with
  | nobody => exact absurd (ha.symm.trans hpush) nofun
  | task hfind hr => exact ⟨_, mem_of_find?_key hfind⟩

theorem key_lt (ht : t < n) (hres : ResumedAt state deed k m key t) : key < (state t).nextTask := by
  obtain ⟨p, hp, rfl⟩ := h.exists_task ht hres
  exact (h.keyed (Nat.le_of_lt ht)).below p hp

/-- A task has its way once. -/
theorem resumed_unique {t' : Nat} (ht : t < n) (ht' : t' < n) (hres : ResumedAt state deed k m key t)
    (hres' : ResumedAt state deed k m key t') : t = t' := by
  have hnot {t t' : Nat} (htt' : t < t') (ht' : t' < n) (hres : ResumedAt state deed k m key t)
      (hres' : ResumedAt state deed k m key t') : False := by
    have ht : t < n := Nat.lt_trans htt' ht'
    obtain ⟨p, hp, hkey⟩ := h.exists_task ht' hres'
    rcases h.after_resumed ht hres (h.key_lt ht hres) htt' (Nat.le_of_lt ht') with hgone | ⟨⟨above, ha⟩, -⟩
    · exact hgone p hp hkey
    · simp [(h.turn_at ht' hres'.turn).1] at ha
  rcases Nat.lt_trichotomy t t' with hlt | heq | hlt
  · exact (hnot hlt ht' hres hres').elim
  · exact heq
  · exact (hnot hlt ht hres' hres).elim

/-- What is raised for a message that is held completes it, after it has been sent on in the turn of its task. -/
theorem held_reply (hi : i < n) (hd : deed i = .act (.hand k m)) (ht : TakesUp (state i) k node (Delay.behaviour ms))
    (hrep : Replies state deed n i j k' s) : ∃ t, i < t ∧ t < n ∧ ResumedAt state deed k m (state i).nextTask t ∧
      (state t).isCancelled k = false ∧ Spawns state t j ∧ k' = k ∧ s = .complete m ∧
      (state j).agenda = [.effect k (.complete m), .finishTask (state i).nextTask] := by
  obtain ⟨a, hda, hr⟩ := hrep.raises
  rcases hrep.serves with hs | ⟨t, key, hit, hle, hlt, hdt, hs⟩
  · cases h.source hrep.before hda hr hs with
    | direct hd' ht' ho =>
      rw [hd] at hd'
      cases hd'
      obtain ⟨rfl, rfl⟩ := ht.eq ht'
      cases ho
    | held hd' => rw [hd] at hd'; cases hd'
    | asked hd' => rw [hd] at hd'; cases hd'
  · obtain rfl : key = (state i).nextTask := by
      rw [(h.begins hi hd ht).1] at hlt
      exact Nat.le_antisymm (Nat.le_of_lt_succ hlt) hle
    have htn : t < n := Nat.lt_trans hs.before hrep.before
    cases h.source hrep.before hda hr hs with
    | direct hd' => rw [hdt] at hd'; cases hd'
    | @held key p ms' m' hd' hp hkey ho htask hawake hs' hpush ha =>
      rw [hdt] at hd'
      cases hd'
      obtain ⟨hk, hm⟩ := h.task_of_key hi hd ht hit (Nat.le_of_lt htn) hp hkey
      obtain rfl : k' = k := ho.symm.trans hk
      obtain rfl : m' = m := by
        have hresume := congrArg (fun task : Task => task.resume false) (htask.symm.trans hm)
        cases hresume
        rfl
      exact ⟨t, hit, htn, ⟨hdt, hpush⟩, hawake, hs, rfl, hs', ha⟩
    | asked hd' => rw [hdt] at hd'; cases hd'

/-- If a node is told to stop while it holds a message, nothing is ever raised for that message. -/
theorem unanswered_of_told (hi : i < n) (hd : deed i = .act (.hand k m)) (ht : TakesUp (state i) k node (Delay.behaviour ms))
    (hl : l ≤ n) (hp : p ∈ (state l).tasks) (hkey : p.key = (state i).nextTask) (htold : Told (state l) k) :
    Unanswered state deed n i := by
  intro j k' s hrep
  obtain ⟨t, -, htn, hres, hawake, -⟩ := h.held_reply hi hd ht hrep
  have hnot (htold : Told (state t) k) : False := by
    rw [htold.isCancelled] at hawake
    cases hawake
  rcases Nat.lt_or_ge t l with htl | hlt
  · rcases h.after_resumed htn hres (h.key_lt htn hres) htl hl with hgone | ⟨-, hstill⟩
    · exact hgone p hp hkey
    · exact hnot (htold.of_cancelled (cancelled_of_still hstill k).symm)
  · exact hnot (h.told hlt (Nat.le_of_lt htn) htold)

/-! ## What becomes of a message that is held -/

/-- Only a task that has had its way is over. -/
theorem resumed_of_finished (hi : i < n) (hd : deed i = .act (.hand k m)) (ht : TakesUp (state i) k node (Delay.behaviour ms))
    (hl : l < n) (hdl : deed l = .act (.finishTask (state i).nextTask)) :
    ∃ t, i < t ∧ t < l ∧ ResumedAt state deed k m (state i).nextTask t := by
  have hdoes := h.does l hl
  rw [hdl] at hdoes
  obtain ⟨agenda, hagenda⟩ := hdoes.exists_agenda
  obtain ⟨t, hs⟩ := h.exists_spawns (j := l) (by simp [hagenda])
  have hm := (h.unmixed (Nat.le_of_lt hl)).of_message (hagenda ▸ List.mem_cons_self) rfl
  obtain ⟨-, before, a, after, hbrought, hpush, hla⟩ := h.spawns (Nat.le_of_lt hl) hs hm
  obtain rfl : a = .finishTask (state i).nextTask := List.head_eq_of_cons_eq (hla.symm.trans hagenda)
  have htn : t < n := Nat.lt_trans hs.before hl
  generalize hdt : deed t = d at hbrought
  generalize hlist : before ++ .finishTask (state i).nextTask :: after = pushed at hbrought hpush
  have hmem : .finishTask (state i).nextTask ∈ pushed := hlist ▸ List.mem_append_right _ List.mem_cons_self
  cases hbrought with
  | nothing => cases hmem
  | act hp =>
    cases hp with
    | passes _ hpass => exact nomatch hpass _ hmem
    | takes =>
      rcases List.mem_append.mp hmem with hf | hf
      · obtain ⟨f, -, hf⟩ := List.mem_map.mp hf
        cases hf
      · cases List.mem_singleton.mp hf
  | call => cases List.mem_singleton.mp hmem
  | asked hasked =>
    obtain hpass | ⟨_, _, he⟩ := hasked _ hmem
    · cases hpass
    · cases he
  | @task key p hfind hk =>
    obtain ⟨hp, rfl⟩ := mem_of_find?_key hfind
    have hkey : p.key = (state i).nextTask := by
      rcases List.mem_append.mp hmem with hf | hf
      · obtain ⟨f, -, hf⟩ := List.mem_map.mp hf
        cases hf
      · exact (Action.finishTask.inj (List.mem_singleton.mp hf)).symm
    -- a task of this key is there only after the message has been handed over
    have hit : i < t := by
      refine Nat.lt_of_not_le fun hti => absurd ((h.keyed (Nat.le_of_lt htn)).below p hp) ?_
      rw [hkey]
      exact Nat.not_lt.mpr (h.nextTask_le hti (Nat.le_of_lt hi))
    obtain ⟨rfl, htask⟩ := h.task_of_key hi hd ht hit (Nat.le_of_lt htn) hp hkey
    refine ⟨t, hit, hs.before, hkey ▸ hdt, ?_⟩
    rw [hpush, (h.turn_at htn hdt).1, htask, hkey]
    rfl

end History

/-- In its turn at t the task is dropped, since its node has been told to stop. -/
structure DroppedAt (state : Nat → Engine) (deed : Nat → Deed) (k : NodeKey) (key : TaskKey) (t : Nat) : Prop where
  turn : deed t = .turn (.task key)
  there : ∃ p ∈ (state t).tasks, p.key = key
  told : Told (state t) k

/-- What has become of a message that a node began to hold at i. -/
inductive HeldFate (state : Nat → Engine) (deed : Nat → Deed) (n i : Nat) (k : NodeKey) (ms : Nat) (m : Message) : Prop
  /-- It is still held, and not forgotten. -/
  | waits {p : Pending} (hp : p ∈ (state n).tasks) (hkey : p.key = (state i).nextTask) (howner : p.owner = k)
      (htask : p.task = Delay.hold ms m) (hx : Expected (state n) p) (hno : Unanswered state deed n i)
  /-- It is being sent on, with all that comes of that. -/
  | leaves {t : Nat} {above : List Action} (hit : i < t) (hres : ResumedAt state deed k m (state i).nextTask t)
      (ha : (state n).agenda = above ++ [.effect k (.complete m), .finishTask (state i).nextTask])
      (hno : Unanswered state deed n i)
  /-- It has been completed when it had been sent on and all that came of that was over. -/
  | completed {t j : Nat} (hit : i < t) (hres : ResumedAt state deed k m (state i).nextTask t) (hsent : t + 1 < j)
      (ha : (state j).agenda = [.effect k (.complete m), .finishTask (state i).nextTask])
      (hreply : Replies state deed n i j k (.complete m))
      (honly : ∀ j' k' s, Replies state deed n i j' k' s → j' = j ∧ k' = k ∧ s = .complete m)
  | dropped {t : Nat} (hit : i < t) (htn : t < n) (hdrop : DroppedAt state deed k (state i).nextTask t)
      (hno : Unanswered state deed n i)

namespace History

variable (h : History state deed n)
include h

/-- The task of a message waits, until it has its way or is dropped. -/
theorem held_waits (hi : i < n) (hd : deed i = .act (.hand k m)) (ht : TakesUp (state i) k node (Delay.behaviour ms))
    (hil : i < l) (hl : l ≤ n) :
    (∃ p ∈ (state l).tasks, p.key = (state i).nextTask ∧ Expected (state l) p) ∨
    (∃ t, i < t ∧ t < l ∧ ResumedAt state deed k m (state i).nextTask t) ∨
    ∃ t, i < t ∧ t < l ∧ DroppedAt state deed k (state i).nextTask t := by
  induction l, hil using Nat.le_induction with
  | base =>
    obtain ⟨-, p, hp, hkey, -, -, hx⟩ := h.begins hi hd ht
    exact .inl ⟨p, hp, hkey, hx⟩
  | succ l hil ih =>
    rcases ih (Nat.le_of_succ_le hl) with ⟨p, hp, hkey, hx⟩ | ⟨t, hit, htl, hres⟩ | ⟨t, hit, htl, hdrop⟩
    · obtain ⟨rfl, htask⟩ := h.task_of_key hi hd ht hil (Nat.le_of_succ_le hl) hp hkey
      have hdoes := h.does l hl
      generalize hdl : deed l = d at hdoes
      have hwait : p.task.wait = .time ms := htask ▸ rfl
      rcases hdoes.keeps (h.stocked (Nat.le_of_succ_le hl)) (h.keyed (Nat.le_of_succ_le hl)) hp hwait hx with
        ⟨p', hp', hsame, hx'⟩ | hends
      · exact .inl ⟨p', hp', hsame.key.trans hkey, hx'⟩
      · cases hends with
        | finished =>
          obtain ⟨t, hit, htl, hres⟩ := h.resumed_of_finished hi hd ht hl (hkey ▸ hdl)
          exact .inr (.inl ⟨t, hit, Nat.lt_succ_of_lt htl, hres⟩)
        | dropped _ hc =>
          obtain ⟨node', hn', -⟩ := (h.grows (Nat.le_of_lt hil) (Nat.le_of_succ_le hl)).node p.owner node ht.there
          have htold : Told (state l) p.owner := ⟨node', hn', by simpa [isCancelled, hn'] using hc⟩
          exact .inr (.inr ⟨l, hil, Nat.lt_succ_self l, hkey ▸ hdl, ⟨p, hp, hkey⟩, htold⟩)
        | resumed _ ha =>
          refine .inr (.inl ⟨l, hil, Nat.lt_succ_self l, hkey ▸ hdl, ?_⟩)
          rw [ha, htask, hkey]
          rfl
    · exact .inr (.inl ⟨t, hit, Nat.lt_succ_of_lt htl, hres⟩)
    · exact .inr (.inr ⟨t, hit, Nat.lt_succ_of_lt htl, hdrop⟩)

/-- A message whose task has its way is completed once, or still being sent on. -/
theorem releases (hi : i < n) (hd : deed i = .act (.hand k m)) (ht : TakesUp (state i) k node (Delay.behaviour ms))
    (hit : i < t) (htn : t < n) (hres : ResumedAt state deed k m (state i).nextTask t) : HeldFate state deed n i k ms m := by
  have hpush : (state (t + 1)).agenda =
      [.effect k (.send 0 m)] ++ .effect k (.complete m) :: [.finishTask (state i).nextTask] := hres.push
  -- a reply is given when the time of the complete has come
  have hnot {j : Nat} (hbetween : ∀ l, t + 1 ≤ l → l < j →
      ([.effect k (.complete m), .finishTask (state i).nextTask] : List Action).length < (state l).agenda.length) {l : Nat}
      {k' : NodeKey} {s : Signal} (hl : l < j) (hrep : Replies state deed n i l k' s) : False := by
    obtain ⟨t', -, htn', hres', -, hs, -, -, ha⟩ := h.held_reply hi hd ht hrep
    obtain rfl := h.resumed_unique htn htn' hres hres'
    exact absurd (hbetween l hs.before hl) (by rw [ha]; exact Nat.lt_irrefl _)
  rcases h.reaches (i := t + 1) htn hpush rfl with ⟨j, htj, hjn, ha, hbetween⟩ | ⟨above, -, ha, hbetween⟩
  · rcases Nat.lt_or_eq_of_le hjn with hj | rfl
    · obtain ⟨hda, -, -⟩ := h.act_at hj ha rfl
      have hs : Spawns state t j :=
        ⟨htj, by simp [ha], by rw [(h.turn_at htn hres.turn).1]; exact Nat.zero_le _,
          fun l htl hlj => by rw [ha]; exact hbetween l htl hlj⟩
      have hkey : (state i).nextTask < (state (i + 1)).nextTask := by
        rw [(h.begins hi hd ht).1]
        exact Nat.lt_succ_self _
      have hserves : DoneFor state deed i j := .inr ⟨t, _, hit, Nat.le_refl _, hkey, hres.turn, hs⟩
      refine .completed hit hres (Nat.lt_of_le_of_ne htj fun hj => ?_) ha ⟨hj, hserves, _, hda, .complete k m⟩
        fun j' k' s hrep => ?_
      · rw [← hj, hpush] at ha
        cases ha
      · obtain ⟨t', -, htn', hres', -, hs', hk, hsignal, ha'⟩ := h.held_reply hi hd ht hrep
        obtain rfl := h.resumed_unique htn htn' hres hres'
        exact ⟨hs'.eq_of_length hs (by rw [ha, ha']), hk, hsignal⟩
    · rw [← List.nil_append [Action.effect k (.complete m), _]] at ha
      exact .leaves hit hres ha fun l k' s hrep => hnot hbetween hrep.before hrep
  · exact .leaves hit hres ha fun l k' s hrep =>
      hnot (j := n) (fun l hl hln => hbetween l hl (Nat.le_of_lt hln)) hrep.before hrep

/-- A message that is held is completed once, unless the node is told to stop before. -/
theorem holds (hi : i < n) (hd : deed i = .act (.hand k m)) (ht : TakesUp (state i) k node (Delay.behaviour ms)) :
    HeldFate state deed n i k ms m := by
  by_cases hres : ∃ t, i < t ∧ t < n ∧ ResumedAt state deed k m (state i).nextTask t
  · obtain ⟨t, hit, htn, hres⟩ := hres
    exact h.releases hi hd ht hit htn hres
  · have hno : Unanswered state deed n i := fun j k' s hrep => by
      obtain ⟨t, hit, htn, hres', -⟩ := h.held_reply hi hd ht hrep
      exact hres ⟨t, hit, htn, hres'⟩
    rcases h.held_waits hi hd ht hi (Nat.le_refl n) with ⟨p, hp, hkey, hx⟩ | hres' | ⟨t, hit, htn, hdrop⟩
    · obtain ⟨howner, htask⟩ := h.task_of_key hi hd ht hi (Nat.le_refl n) hp hkey
      exact .waits hp hkey howner htask hx hno
    · exact absurd hres' hres
    · exact .dropped hit htn hdrop hno

end History

end Flowgraph.Engine
