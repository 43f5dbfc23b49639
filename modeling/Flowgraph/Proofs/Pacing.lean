import Flowgraph.Proofs.Atomicity
import Flowgraph.Proofs.Punctuality
/-! The pace of a run. The engine itself gives tasks their turns in the order in which they have been woken, and lets time
move from timer to timer. -/
namespace Flowgraph.Engine

variable {state : Nat → Engine} {deed : Nat → Deed} {n : Nat} {k : NodeKey} {e e' : Engine} {d : Deed}

/-- Whoever the engine picks for the next turn: if it is a task, then the one that has been woken first. -/
theorem inTurn_of_next? {front : Option CallKey} {turns turns' : Nat} {key : TaskKey}
    (h : e.next? front turns = some (.task key, turns', e')) : InTurn e' key := by
  have hfirst (f : Waiter → Bool) (hf : ∀ key, f (.task key) = true) {ws rest : List Waiter}
      (hw : ws.filter f = .task key :: rest) : (ws.filterMap Waiter.taskKey?).head? = some key := by
    have hall : ws.filterMap Waiter.taskKey? = (ws.filter f).filterMap Waiter.taskKey? := by
      rw [List.filterMap_filter]
      refine List.filterMap_congr fun w _ => ?_
      cases w with
      | task key => rw [hf, if_pos rfl]
      | _ => exact (ite_self none).symm
    rw [hall, hw]
    rfl
  unfold next? at h
  dsimp only at h
  split at h
  · cases h
  split at h
  · rename_i w rest hw
    obtain ⟨rfl, -, rfl⟩ := by simpa using h
    exact hfirst _ (fun key => by cases front <;> rfl) hw
  split at h
  · rename_i w hw
    obtain ⟨rfl, -, -⟩ := by simpa using h
    have hfront := List.find?_some hw
    cases front <;> cases hfront
  · rename_i w rest _ hw
    obtain ⟨rfl, -, rfl⟩ := by simpa using h
    rw [InTurn, hw]
    rfl
  · cases h

/-- How a history goes on that has begun without any tasks: tasks have their turns in the order in which they have been
woken, time moves from timer to timer or less far, and nobody outside acts in the name of the node. -/
structure WellPaced (state : Nat → Engine) (deed : Nat → Deed) (n : Nat) (k : NodeKey) : Prop where
  rested : ∀ key, .task key ∉ (state 0).ready ∧ .task key ∉ (state 0).putOff ∧
    ∀ due, (⟨due, .task key⟩ : Timer) ∉ (state 0).timers
  silent : (state 0).signal? k = none
  inTurn : ∀ i < n, ∀ key, deed i = .turn (.task key) → InTurn (state i) key
  onTime : ∀ i < n, (state (i + 1)).now = (state i).now ∨ (state i).OnTime (state (i + 1)).now
  own : ∀ i < n, deed i = .asked → ∀ effect, .effect k effect ∉ (state (i + 1)).agenda

/-- What the engine does next. -/
def nextDeed (e : Engine) : Deed :=
  match e.agenda, e.ready with
  | a :: _, _ => .act a
  | [], w :: _ => .turn w
  | [], [] => .rest

/-- One step of an engine that goes on by itself, and is called or handed messages when there is nothing left on the
agenda. When there is nothing left to do at all, time may pass. -/
inductive Paces (e : Engine) : Deed → Engine → Prop
  | goesOn (hb : e.broken = false)
      (hc : e.agenda = [] ∧ e.ready = [] ∧ e.putOff = [] ∨ e.goOn.now = e.now) : Paces e e.nextDeed e.goOn
  | lapses (moment : Nat) (h : e.OnTime moment) : Paces e .rest (e.moveTo moment)
  | handed (ha : e.agenda = []) (k : NodeKey) (m : Message) : Paces e .asked (e.push [.hand k m])
  | called {stages : List Stage} (ha : e.agenda = []) (h : e.Offers stages) : Paces e .asked (e.begin stages).1

namespace Paces

theorem does (h : Paces e d e') : Does e d e' := by
  cases h with
  | goesOn hb =>
    unfold goOn
    split
    · rename_i a agenda ha
      have hd : e.nextDeed = .act a := by rw [nextDeed, ha]
      exact hd ▸ .act hb ha
    · rename_i w ready ha hr
      have hd : e.nextDeed = .turn w := by rw [nextDeed, ha, hr]
      exact hd ▸ .turn hb ha (hr ▸ List.mem_cons_self)
    · rename_i w putOff ha hr hp
      have hd : e.nextDeed = .rest := by rw [nextDeed, ha, hr]
      exact hd ▸ .wake ha
    · rename_i ha hr hp
      have hd : e.nextDeed = .rest := by rw [nextDeed, ha, hr]
      exact hd ▸ .time _ ha (Nat.le_max_left _ _)
  | lapses moment h => exact .time moment h.idle.1 h.onward
  | handed ha k m => exact .asked ha (.hand k m)
  | called ha h => exact .asked ha (.call h)

/-- Tasks have their turns in the order in which they have been woken. -/
theorem inTurn (h : Paces e d e') {key : TaskKey} (hd : d = .turn (.task key)) : InTurn e key := by
  cases h with
  | goesOn =>
    unfold nextDeed at hd
    split at hd
    · cases hd
    · rename_i w ready _ hr
      obtain rfl : w = .task key := by simpa using hd
      rw [InTurn, hr]
      rfl
    · cases hd
  | _ => cases hd

theorem onTime (h : Paces e d e') : e'.now = e.now ∨ e.OnTime e'.now := by
  cases h with
  | goesOn hb hc =>
    cases lone_goOn hb hc with
    | runs _ hc => exact hc
    | given _ _ hs => exact .inl hs.now
  | lapses moment h =>
    rw [(moves_moveTo h.idle.1 moment).now]
    exact .inr h
  | handed => exact .inl rfl
  | called _ h => exact .inl (Asked.call h).tranquil.now

/-- Nobody acts in the name of a node. -/
theorem own (h : Paces e d e') (hd : d = .asked) (effect : Effect) : .effect k effect ∉ e'.agenda := by
  cases h with
  | goesOn =>
    unfold nextDeed at hd
    split at hd <;> cases hd
  | lapses => cases hd
  | handed ha n m =>
    intro hm
    have hm : Action.effect k effect ∈ [.hand n m] ++ e.agenda := hm
    rw [ha] at hm
    cases List.mem_singleton.mp hm
  | called ha h =>
    rw [untouched_begin e, ha]
    nofun

end Paces

/-- Who goes on by himself keeps the pace. -/
theorem wellPaced (hr : ∀ key, .task key ∉ (state 0).ready ∧ .task key ∉ (state 0).putOff ∧
    ∀ due, (⟨due, .task key⟩ : Timer) ∉ (state 0).timers) (hs : (state 0).signal? k = none)
    (h : ∀ i < n, Paces (state i) (deed i) (state (i + 1))) : WellPaced state deed n k where
  rested := hr
  silent := hs
  inTurn i hi _ hd := (h i hi).inTurn hd
  onTime i hi := (h i hi).onTime
  own i hi hd effect := (h i hi).own hd effect

end Flowgraph.Engine
