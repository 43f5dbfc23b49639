import Flowgraph.Proofs.Forwarding
/-! How a delay node comes to its end. Once a stop has taken it out of its level, its tasks drop what they hold in their
next turns; the last of them gives the close signal. Until then no time passes, and nothing leaves the node any more. -/
namespace Flowgraph.Engine

variable {e e' : Engine} {k : NodeKey} {ms since moment : Nat} {d : Deed} {p : Pending} {arrived : List (Nat × Message)}
  {passed : List (Nat × Passage)}

/-- How far the close of a delay node has come that has been taken out of its level at a moment. -/
inductive Ending (ms : Nat) (k : NodeKey) (since : Nat) (e : Engine) : Prop
  /-- One task waits for the others, which have been woken. -/
  | waits {l : List Pending} {q : Pending} {b : Bool} (hnow : e.now = since)
      (hm : (e.sight k).marks = some (true, none, b)) (ht : e.tasksOf k = l ++ [q])
      (hheld : ∀ p ∈ l, Holds ms p ∧ p.key ∈ e.woken k) (hq : SignalsClose q) (hlast : l = [] → q.key ∈ e.woken k)
      (hf : ∀ a ∈ e.agenda, Foreign e k a)
  /-- It is left alone, and is just giving the signal. -/
  | signals {q : Pending} {b : Bool} (hnow : e.now = since) (hm : (e.sight k).marks = some (true, none, b))
      (ht : e.tasksOf k = [q]) (hq : SignalsClose q)
      (hagenda : e.agenda = [.effect k (.closed (.ok ())), .finishTask q.key])
  /-- The signal has been given. -/
  | signalled {b : Bool} (hm : (e.sight k).marks = some (true, some (.ok ()), b))
      (ht : ∀ p ∈ e.tasksOf k, SignalsClose p) (hf : ∀ a ∈ e.agenda, a.passage? k = none)

/-- A delay node has been taken out of its level at a moment. -/
structure Winds (ms : Nat) (k : NodeKey) (since : Nat) (e : Engine) : Prop where
  numbered : Numbered e
  putOff : (e.sight k).putOff = []
  ending : Ending ms k since e

namespace Ending

theorem told (h : Ending ms k since e) : Told e k := by
  have hmarks : ∃ signal begun, (e.sight k).marks = some (true, signal, begun) := by
    cases h with
    | waits _ hm => exact ⟨_, _, hm⟩
    | signals _ hm => exact ⟨_, _, hm⟩
    | signalled hm => exact ⟨_, _, hm⟩
  obtain ⟨signal, begun, hm⟩ := hmarks
  obtain ⟨node, hn, he⟩ := Option.map_eq_some_iff.mp hm
  exact ⟨node, hn, congrArg Prod.fst he⟩

/-- Nothing leaves the node any more. -/
theorem passage (h : Ending ms k since e) : ∀ a ∈ e.agenda, a.passage? k = none := by
  cases h with
  | waits _ _ _ _ _ _ hf => exact fun a ha => (hf a ha).passage
  | signals _ _ _ _ hagenda =>
    rw [hagenda]
    exact List.forall_mem_cons.mpr ⟨if_pos rfl, List.forall_mem_singleton.mpr rfl⟩
  | signalled _ _ hf => exact hf

/-- Time does not move on before the signal has been given. -/
theorem now_or_signal (h : Ending ms k since e) (moment : Nat) : (e.now = since ∧ e.signal? k = none ∧ ¬e.OnTime moment) ∨
    e.signal? k = some (.ok ()) ∧ ∀ p ∈ e.tasksOf k, ¬Holds ms p := by
  have hbusy {key : TaskKey} (hm : key ∈ e.woken k) : ¬e.OnTime moment := fun hon => by
    rw [mem_woken, hon.idle.2.1] at hm
    cases hm.1
  cases h with
  | @waits held q begun hnow hm ht hheld hq hlast hf =>
    refine .inl ⟨hnow, by rw [signal?_eq, hm]; rfl, ?_⟩
    cases held with
    | nil => exact hbusy (hlast rfl)
    | cons p held => exact hbusy (hheld p List.mem_cons_self).2
  | signals hnow hm _ _ hagenda =>
    refine .inl ⟨hnow, by rw [signal?_eq, hm]; rfl, fun hon => ?_⟩
    rw [hon.idle.1] at hagenda
    cases hagenda
  | signalled hm ht =>
    refine .inr ⟨by rw [signal?_eq, hm]; rfl, fun p hp hheld => ?_⟩
    obtain ⟨m, hhold⟩ := hheld
    have hwait : signalWhenIdle.wait = (Delay.hold ms m).wait := congrArg Task.wait ((ht p hp).symm.trans hhold)
    cases hwait

end Ending

theorem Holds.not_signals (h : Holds ms p) : ¬SignalsClose p := fun hs => by
  obtain ⟨m, ht⟩ := h
  have hwait : signalWhenIdle.wait = (Delay.hold ms m).wait := congrArg Task.wait (hs.symm.trans ht)
  cases hwait

theorem TakesUp.not_told {node : Node} {b : Behaviour} (h : TakesUp e k node b) : ¬Told e k := by
  rintro ⟨node', hn, hc⟩
  obtain rfl := Option.some.inj (hn.symm.trans h.there)
  rw [h.awake] at hc
  cases hc

/-- Nobody who has been told to stop is active. -/
theorem Reachable.not_isActive (h : Reachable e) (ht : Told e k) : ¬e.IsActive k := fun ha => by
  obtain ⟨node, hn, hc⟩ := ht
  rw [h.informed.awake k node ha hn] at hc
  cases hc

/-- The stop that takes the node out of its level. -/
theorem Retires.winds (h : Paced ms k e d e') (hr : Retires ms k e d e') (hput : (e.sight k).putOff = []) :
    Winds ms k e.now e' := by
  obtain ⟨call, agenda, hagenda, rfl, he, hd⟩ := hr.by_call
  have hplans : ∀ a ∈ e.agenda, a.plans = true := h.unmixed.of_plan (hagenda ▸ List.mem_cons_self) rfl
  have hf : ∀ a ∈ e'.agenda, Foreign e' k a := fun a ha =>
    foreign_of_plans e' k (h.does.plots h.idle (by simp [hagenda]) hplans a ha)
  refine ⟨hd.draining.numbered, hd.draining.putOff.trans hput, ?_⟩
  cases hd.draining.state with
  | waits hm ht hheld hq hlast => exact .waits hd.draining.now hm ht hheld hq hlast hf
  | signalled hm ht => exact .signalled hm ht fun a ha => (hf a ha).passage

/-! ## Step by step -/

theorem isCancelled_turned {signal : Option CloseResult} {begun : Bool} {w : Waiter}
    (hm : (e.sight k).marks = some (true, signal, begun)) : (e.turned w).isCancelled k = true := by
  rw [isCancelled_eq, sight_turned]
  change ((e.sight k).marks.map (·.1)).getD true = true
  rw [hm]
  rfl

/-- The turn of a task that holds a message drops it. -/
theorem winds_drop {held : List Pending} {q : Pending} {begun : Bool} (hn : Numbered e) (hput : (e.sight k).putOff = [])
    (hnow : e.now = since) (hm : (e.sight k).marks = some (true, none, begun)) (ht : e.tasksOf k = held ++ [q])
    (hheld : ∀ p ∈ held, Holds ms p ∧ p.key ∈ e.woken k) (hq : SignalsClose q) (hp : p ∈ held) (hagenda : e.agenda = []) :
    Winds ms k since ((e.turned (.task p.key)).runTask p) := by
  have hpk : p ∈ e.tasksOf k := ht ▸ List.mem_append_left _ hp
  have hown : p.owner = k := (mem_tasksOf.mp hpk).2
  have hrun : (e.turned (.task p.key)).runTask p = (e.turned (.task p.key)).finishTask p.key :=
    runTask_drop (hheld p hp).1 (hown ▸ isCancelled_turned hm)
  have hpt : p ∈ (e.turned (.task p.key)).tasksOf k := hpk
  obtain ⟨hn', woken, hs, hsub, hlast, -⟩ := sight_finishTask (hn.turned (.task p.key)) hpt
  have hqp : q.key ≠ p.key := fun he => by
    have hqk : q ∈ e.tasksOf k := ht ▸ List.mem_append_right _ List.mem_cons_self
    have hsame := hn.unique (mem_tasksOf.mp hqk).1 (mem_tasksOf.mp hpk).1 he
    exact (hheld p hp).1.not_signals (hsame ▸ hq)
  have htasks : (e.tasksOf k).filter (·.key != p.key) = held.filter (·.key != p.key) ++ [q] := by
    rw [ht, List.filter_append, List.filter_cons_of_pos (by simpa using hqp)]
    rfl
  rw [hrun]
  have hwoken : ((e.turned (.task p.key)).finishTask p.key).woken k = woken := congrArg Sight.woken hs
  refine ⟨hn', (congrArg Sight.putOff hs).trans hput, .waits (l := held.filter (·.key != p.key)) (q := q) (b := begun)
    ((congrArg Sight.now hs).trans hnow) ((congrArg Sight.marks hs).trans hm) ((congrArg Sight.tasks hs).trans htasks)
    (fun p' hp' => ?_) hq (fun hnone => ?_) ?_⟩
  · obtain ⟨hp', hne⟩ := List.mem_filter.mp hp'
    have hne : p'.key ≠ p.key := by simpa using hne
    refine ⟨(hheld p' hp').1, hwoken ▸ hsub ?_⟩
    have hturned : (e.turned (.task p.key)).woken k = (e.woken k).filter fun key => Waiter.task key != .task p.key :=
      congrArg Sight.woken (sight_turned e k (.task p.key))
    rw [hturned, filter_task_ne, List.filter_filter]
    exact List.mem_filter.mpr ⟨(hheld p' hp').2, by simpa using hne⟩
  · refine hwoken ▸ hlast q ?_ ?_
    · change (e.tasksOf k).filter (·.key != p.key) = [q]
      rw [htasks, hnone]
      rfl
    · rw [show q.task = signalWhenIdle from hq]
      rfl
  · rw [(finishTask_frame _ _).1]
    change ∀ a ∈ e.agenda, _
    rw [hagenda]
    nofun

/-- The turn of the task that waits for the others: it gives the signal when it is left alone. -/
theorem winds_signal {held : List Pending} {q : Pending} {begun : Bool} (hn : Numbered e) (hput : (e.sight k).putOff = [])
    (hnow : e.now = since) (hm : (e.sight k).marks = some (true, none, begun)) (ht : e.tasksOf k = held ++ [q])
    (hheld : ∀ p ∈ held, Holds ms p ∧ p.key ∈ e.woken k) (hq : SignalsClose q) (hagenda : e.agenda = []) :
    Winds ms k since ((e.turned (.task q.key)).runTask q) := by
  have hqk : q ∈ e.tasksOf k := ht ▸ List.mem_append_right _ List.mem_cons_self
  have hown : q.owner = k := (mem_tasksOf.mp hqk).2
  have hs := sight_turned e k (.task q.key)
  have hturned := hn.turned (.task q.key)
  rw [runTask_signal hq, hown]
  change Winds ms k since (if (e.tasksOf k).length ≤ 1 then _ else _)
  rw [ht]
  cases held with
  | nil =>
    rw [List.nil_append, List.length_singleton, if_pos (Nat.le_refl 1)]
    obtain ⟨hn', hs'⟩ := bypasses_push (k := k) (e.turned (.task q.key))
      [.effect k (.closed (.ok ())), .finishTask q.key] hturned
    have hs' := hs'.trans hs
    refine ⟨hn', (congrArg Sight.putOff hs').trans hput, .signals (b := begun) ((congrArg Sight.now hs').trans hnow)
      ((congrArg Sight.marks hs').trans hm) ((congrArg Sight.tasks hs').trans ht) hq ?_⟩
    change _ ++ e.agenda = _
    rw [hagenda]
    rfl
  | cons p held =>
    rw [if_neg (by simp)]
    refine ⟨hturned, (congrArg Sight.putOff hs).trans hput, .waits (l := p :: held) (q := q) (b := begun)
      ((congrArg Sight.now hs).trans hnow) ((congrArg Sight.marks hs).trans hm) ((congrArg Sight.tasks hs).trans ht)
      (fun p' hp' => ?_) hq (fun hnone => absurd hnone (List.cons_ne_nil _ _)) ?_⟩
    · have hwoken : (e.turned (.task q.key)).woken k = (e.woken k).filter fun key => Waiter.task key != .task q.key :=
        congrArg Sight.woken hs
      have hne : p'.key ≠ q.key := fun he => by
        have hpk : p' ∈ e.tasksOf k := ht ▸ List.mem_append_left _ hp'
        have hsame := hn.unique (mem_tasksOf.mp hpk).1 (mem_tasksOf.mp hqk).1 he
        exact (hheld p' hp').1.not_signals (hsame ▸ hq)
      refine ⟨(hheld p' hp').1, ?_⟩
      rw [hwoken, filter_task_ne]
      exact List.mem_filter.mpr ⟨(hheld p' hp').2, by simpa using hne⟩
    · change ∀ a ∈ e.agenda, _
      rw [hagenda]
      nofun

/-- Time moves on only when the signal has been given. -/
theorem winds_moveTo (h : Winds ms k since e) (hagenda : e.agenda = []) (htime : moment = e.now ∨ e.OnTime moment) :
    Winds ms k since (e.moveTo moment) := by
  obtain ⟨ready, heq⟩ := moveTo_eq hagenda moment
  have hready : ∀ w ∈ e.ready, w ∈ (e.moveTo moment).ready := fun w hw => by
    rw [moveTo_eq_foldl hagenda]
    exact mem_ready_foldl_wake id _ _ (.inl hw)
  have htasks : (e.moveTo moment).tasksOf k = e.tasksOf k := by rw [heq]; rfl
  have hmarks : ((e.moveTo moment).sight k).marks = (e.sight k).marks := by rw [heq]; rfl
  have hnone (P : Action → Prop) : ∀ a ∈ (e.moveTo moment).agenda, P a := by
    rw [(moveTo_frame e moment).1, hagenda]
    nofun
  have hwoken : ∀ key ∈ e.woken k, key ∈ (e.moveTo moment).woken k := fun key hm => by
    obtain ⟨hm, hown⟩ := mem_woken.mp hm
    exact mem_woken.mpr ⟨hready _ hm, owns_of_tasksOf htasks ▸ hown⟩
  have hnow : (e.moveTo moment).now = moment := (moves_moveTo hagenda moment).now
  refine ⟨h.numbered.moveTo hagenda moment, by rw [heq]; exact h.putOff, ?_⟩
  rcases h.ending.now_or_signal moment with ⟨hsince, hsig, hbusy⟩ | ⟨hsig, -⟩
  · have hsame := htime.resolve_right hbusy
    cases h.ending with
    | waits _ hm ht hheld hq hlast =>
      exact .waits (hnow.trans (hsame.trans hsince)) (hmarks.trans hm) (htasks.trans ht)
        (fun p hp => (hheld p hp).imp_right (hwoken _)) hq (fun hno => hwoken _ (hlast hno)) (hnone _)
    | signals _ _ _ _ ha =>
      rw [hagenda] at ha
      cases ha
    | signalled hm =>
      rw [signal?_eq, hm] at hsig
      cases hsig
  · cases h.ending with
    | waits _ hm =>
      rw [signal?_eq, hm] at hsig
      cases hsig
    | signals _ hm =>
      rw [signal?_eq, hm] at hsig
      cases hsig
    | signalled hm ht => exact .signalled (hmarks.trans hm) (htasks ▸ ht) (hnone _)

/-- While the tasks of the node drop what they hold. -/
theorem winds_waits {held : List Pending} {q : Pending} {begun : Bool} (h : Paced ms k e d e') (hw : Winds ms k since e)
    (hnow : e.now = since) (hm : (e.sight k).marks = some (true, none, begun)) (ht : e.tasksOf k = held ++ [q])
    (hheld : ∀ p ∈ held, Holds ms p ∧ p.key ∈ e.woken k) (hq : SignalsClose q) (hlast : held = [] → q.key ∈ e.woken k)
    (hf : ∀ a ∈ e.agenda, Foreign e k a) : Winds ms k since e' := by
  have hact := h.reachable.not_isActive hw.ending.told
  cases h.befalls hw.numbered (.inr hact) hw.putOff with
  | apart hn' hs _ hturn =>
    have hwoken : e'.woken k = e.woken k := congrArg Sight.woken hs
    exact ⟨hn', (congrArg Sight.putOff hs).trans hw.putOff, .waits ((congrArg Sight.now hs).trans hnow)
      ((congrArg Sight.marks hs).trans hm) ((congrArg Sight.tasks hs).trans ht) (hwoken ▸ hheld) hq (hwoken ▸ hlast)
      (h.foreign hw.numbered hf hturn)⟩
  | born _ hnone =>
    rw [sight, hnone] at hm
    cases hm
  | dismissed _ hd => exact absurd hd.active hact
  | takes htakes => exact absurd hw.ending.told htakes.not_told
  | signals => exact absurd rfl ((hf _ h.act_mem).closed _)
  | finishes hpk =>
    have hown := ((hf _ h.act_mem).finish _ rfl).2
    rw [owns_of_mem hpk] at hown
    cases hown
  | @turn p hpk hagenda hready =>
    rw [ht] at hpk
    rcases List.mem_append.mp hpk with hp | hp
    · exact winds_drop hw.numbered hw.putOff hnow hm ht hheld hq hp hagenda
    · obtain rfl := List.mem_singleton.mp hp
      exact winds_signal hw.numbered hw.putOff hnow hm ht hheld hq hagenda
  | @time moment hagenda hon =>
    have hmoved : (e.moveTo moment).now = moment := (moves_moveTo hagenda moment).now
    exact winds_moveTo hw hagenda (hmoved ▸ h.onTime)

/-- When the signal has been given, nothing is left but the end of the task that has given it. -/
theorem winds_signalled {begun : Bool} (h : Paced ms k e d e') (hw : Winds ms k since e)
    (hm : (e.sight k).marks = some (true, some (.ok ()), begun)) (ht : ∀ p ∈ e.tasksOf k, SignalsClose p)
    (hf : ∀ a ∈ e.agenda, a.passage? k = none) : Winds ms k since e' := by
  have hact := h.reachable.not_isActive hw.ending.told
  -- nothing leaves the node by what others put on the agenda
  have hagenda (hturn : ∀ p ∈ e.tasksOf k, d ≠ .turn (.task p.key)) : ∀ a ∈ e'.agenda, a.passage? k = none := fun a ha =>
    (h.does.agenda_foreign h.stocked h.idle h.unmixed hw.numbered h.holds h.own hturn a ha).elim
      (fun hm => hf a (List.mem_of_mem_tail hm)) (·.passage)
  cases h.befalls hw.numbered (.inr hact) hw.putOff with
  | apart hn' hs _ hturn =>
    have htasks : e'.tasksOf k = e.tasksOf k := congrArg Sight.tasks hs
    exact ⟨hn', (congrArg Sight.putOff hs).trans hw.putOff, .signalled ((congrArg Sight.marks hs).trans hm) (htasks ▸ ht)
      (hagenda hturn)⟩
  | born _ hnone =>
    rw [sight, hnone] at hm
    cases hm
  | dismissed _ hd => exact absurd hd.active hact
  | takes htakes => exact absurd hw.ending.told htakes.not_told
  | signals hn' hs =>
    have htasks : e'.tasksOf k = e.tasksOf k := congrArg Sight.tasks hs
    refine ⟨hn', (congrArg Sight.putOff hs).trans hw.putOff, .signalled (b := begun) ((congrArg Sight.marks hs).trans ?_)
      (htasks ▸ ht) (hagenda (by rintro _ _ ⟨⟩))⟩
    change (e.sight k).marks.map _ = _
    rw [hm]
    rfl
  | finishes hpk hn' hs =>
    have htasks : e'.tasksOf k = _ := congrArg Sight.tasks hs
    refine ⟨hn', (congrArg Sight.putOff hs).trans hw.putOff, .signalled ((congrArg Sight.marks hs).trans hm) (fun p hp => ?_)
      (hagenda (by rintro _ _ ⟨⟩))⟩
    rw [htasks] at hp
    exact ht p (List.mem_filter.mp hp).1
  | @turn p hpk hidle hready =>
    have hs := sight_turned e k (.task p.key)
    have hown : p.owner = k := (mem_tasksOf.mp hpk).2
    rw [runTask_signal (ht p hpk), hown]
    split
    · obtain ⟨hn', hs'⟩ := bypasses_push (k := k) (e.turned (.task p.key))
        [.effect k (.closed (.ok ())), .finishTask p.key] (hw.numbered.turned _)
      refine ⟨hn', (congrArg Sight.putOff (hs'.trans hs)).trans hw.putOff, .signalled hm ht fun a ha => ?_⟩
      have ha : a ∈ [Action.effect k (.closed (.ok ())), .finishTask p.key] ++ e.agenda := ha
      rw [hidle, List.append_nil] at ha
      rcases List.mem_cons.mp ha with rfl | ha
      · exact if_pos rfl
      · obtain rfl := List.mem_singleton.mp ha
        rfl
    · exact ⟨hw.numbered.turned _, (congrArg Sight.putOff hs).trans hw.putOff, .signalled hm ht hf⟩
  | @time moment hidle hon =>
    have hmoved : (e.moveTo moment).now = moment := (moves_moveTo hidle moment).now
    exact winds_moveTo hw hidle (hmoved ▸ h.onTime)

/-- The close of the node goes on, and nothing leaves it. -/
theorem Winds.step (h : Paced ms k e d e') (hw : Winds ms k since e) : Winds ms k since e' ∧ e.leaves k d = none := by
  refine ⟨?_, ?_⟩
  · cases hw.ending with
    | waits hnow hm ht hheld hq hlast hf => exact winds_waits h hw hnow hm ht hheld hq hlast hf
    | @signals q begun hnow hm ht hq hagenda =>
      obtain ⟨-, rfl⟩ := h.does.of_agenda hagenda
      have hn := hw.numbered
      have hpop : Numbered { e with agenda := [.finishTask q.key] } := ⟨⟨hn.nodup, hn.below⟩, hn.ready, hn.timers⟩
      obtain ⟨hn', hs⟩ := sight_signalClosed (k := k) hpop (.ok ())
      have htasks : (Engine.perform { e with agenda := [.finishTask q.key] } k (.closed (.ok ()))).tasksOf k = e.tasksOf k :=
        congrArg Sight.tasks hs
      have hmarks : ((Engine.perform { e with agenda := [.finishTask q.key] } k (.closed (.ok ()))).sight k).marks =
          some (true, some (.ok ()), begun) := by
        rw [hs]
        change (e.sight k).marks.map _ = _
        rw [hm]
        rfl
      refine ⟨hn', (congrArg Sight.putOff hs).trans hw.putOff, .signalled hmarks (fun p hp => ?_) fun a ha => ?_⟩
      · have hp : p ∈ e.tasksOf k := htasks ▸ hp
        rw [ht] at hp
        exact List.mem_singleton.mp hp ▸ hq
      · obtain ⟨pushed, hpush, hc⟩ := conveysOn_perform { e with agenda := [.finishTask q.key] } k (.closed (.ok ()))
        have ha : a ∈ pushed ++ [Action.finishTask q.key] := hpush ▸ ha
        rcases List.mem_append.mp ha with ha | ha
        · exact (foreign_of_conveys e k (hc a ha)).passage
        · obtain rfl := List.mem_singleton.mp ha
          rfl
    | signalled hm ht hf => exact winds_signalled h hw hm ht hf
  · cases d with
    | act a => exact Option.map_eq_none_iff.mpr (hw.ending.passage a h.act_mem)
    | _ => rfl

end Flowgraph.Engine
