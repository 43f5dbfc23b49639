import Mathlib.Logic.Relation
import Flowgraph.Proofs.Quiet
import Flowgraph.Session
/-! Runs of an engine: the steps it takes by itself, what is asked of it between two turns, and the engines
that are reached that way. No order of turns is assumed; that of the scheduler is one of them. -/
namespace Flowgraph.Engine

/-- One step of an engine by itself. A turn begins when nothing is left on the agenda. -/
inductive Tick : Engine → Engine → Prop
  | act {e : Engine} {a : Action} {rest : List Action} (hb : e.broken = false)
      (ha : e.agenda = a :: rest) : Tick e ({ e with agenda := rest }.act a)
  | turn {e : Engine} {w : Waiter} (hb : e.broken = false) (ha : e.agenda = []) (hw : w ∈ e.ready) :
      Tick e ({ e with ready := e.ready.filter (· != w), room := turnRoom }.runWaiter w)
  | wake {e : Engine} (ha : e.agenda = []) : Tick e e.wakePutOff
  | time {e : Engine} (moment : Nat) : Tick e (e.moveTo moment)

/-- Any number of steps. -/
def Reach : Engine → Engine → Prop := Relation.ReflTransGen Tick

variable {e e' e'' : Engine}

namespace Reach

theorem refl (e : Engine) : Reach e e := Relation.ReflTransGen.refl

theorem single (h : Tick e e') : Reach e e' := Relation.ReflTransGen.single h

theorem trans (h : Reach e e') (h' : Reach e' e'') : Reach e e'' := Relation.ReflTransGen.trans h h'

theorem tail (h : Reach e e') (h' : Tick e' e'') : Reach e e'' := Relation.ReflTransGen.tail h h'

/-- What every step preserves holds at the end of a run. -/
theorem invariant {P : Engine → Prop} (step : ∀ e e', P e → Tick e e' → P e') (h : Reach e e')
    (he : P e) : P e' := by
  induction h with
  | refl => exact he
  | tail _ ht ih => exact step _ _ ih ht

end Reach

/-! ## The scheduler takes such steps only -/

theorem finishWithin_succ (fuel : Nat) (hb : e.broken = false) {a : Action} {rest : List Action}
    (ha : e.agenda = a :: rest) :
    finishWithin (fuel + 1) e = finishWithin fuel ({ e with agenda := rest }.act a) := by
  rw [finishWithin, if_neg (by simp [hb])]
  split
  · rename_i h
    rw [ha] at h
    cases h
  · rename_i h
    rw [ha] at h
    cases h
    rfl

theorem finishWithin_idle (ha : e.agenda = []) (fuel : Nat) : finishWithin fuel e = e := by
  cases fuel with
  | zero => rfl
  | succ fuel =>
    unfold Engine.finishWithin
    split
    · rfl
    · rw [ha]

theorem finishWithin_add (fuel fuel' : Nat) (e : Engine) :
    finishWithin (fuel + fuel') e = finishWithin fuel' (finishWithin fuel e) := by
  induction fuel generalizing e with
  | zero => rw [Nat.zero_add]; rfl
  | succ fuel ih =>
    by_cases hb : e.broken = true
    · have hstuck (fuel : Nat) : finishWithin fuel e = e := by
        cases fuel with
        | zero => rfl
        | succ => rw [finishWithin, if_pos hb]
      rw [hstuck, hstuck, hstuck]
    · cases ha : e.agenda with
      | nil => rw [finishWithin_idle ha, finishWithin_idle ha, finishWithin_idle ha]
      | cons a rest =>
        rw [Nat.add_right_comm, finishWithin_succ _ (Bool.eq_false_iff.mpr hb) ha,
          finishWithin_succ _ (Bool.eq_false_iff.mpr hb) ha, ih]

theorem reach_finishWithin (fuel : Nat) (e : Engine) : Reach e (finishWithin fuel e) := by
  induction fuel generalizing e with
  | zero => exact .refl e
  | succ fuel ih =>
    by_cases hb : e.broken = true
    · rw [finishWithin, if_pos hb]
      exact .refl e
    · have hb : e.broken = false := by simpa using hb
      cases ha : e.agenda with
      | nil =>
        rw [finishWithin, if_neg (by simp [hb]), ha]
        exact .refl e
      | cons a rest =>
        rw [finishWithin_succ fuel hb ha]
        exact (Reach.single (.act hb ha)).trans (ih _)

theorem reach_takeTurn (hb : e.broken = false) (ha : e.agenda = []) {w : Waiter} (hw : w ∈ e.ready) :
    Reach e (e.takeTurn w) :=
  (Reach.single (.turn hb ha hw)).trans (reach_finishWithin _ _)

theorem mem_ready_of_next? {front : Option CallKey} {turns turns' : Nat} {w : Waiter}
    (h : e.next? front turns = some (w, turns', e')) :
    e.broken = false ∧ e.agenda = [] ∧ w ∈ e'.ready ∧ (e' = e ∨ e' = e.wakePutOff) := by
  unfold next? at h
  dsimp only at h
  split at h
  · simp at h
  · rename_i hq
    have hb : e.broken = false := by
      cases hb : e.broken with
      | false => rfl
      | true => simp [hb] at hq
    have ha : e.agenda = [] := by
      cases ha : e.agenda with
      | nil => rfl
      | cons a rest => simp [ha] at hq
    refine ⟨hb, ha, ?_⟩
    split at h
    · rename_i first rest hw
      obtain ⟨rfl, -, rfl⟩ := by simpa using h
      have hm : first ∈ e.ready.filter fun w => !front.any fun key => w == .call key := by
        rw [hw]
        exact List.mem_cons_self
      exact ⟨(List.mem_filter.mp hm).1, .inl rfl⟩
    · split at h
      · rename_i hw
        obtain ⟨rfl, -, rfl⟩ := by simpa using h
        exact ⟨List.mem_of_find?_eq_some hw, .inr rfl⟩
      · rename_i hw
        obtain ⟨rfl, -, rfl⟩ := by simpa using h
        exact ⟨by rw [hw]; exact List.mem_cons_self, .inr rfl⟩
      · simp at h

theorem wakePutOff_agenda (e : Engine) : e.wakePutOff.agenda = e.agenda := by
  have h (ws : List Waiter) (e : Engine) : (ws.foldl wake e).agenda = e.agenda := by
    induction ws generalizing e with
    | nil => rfl
    | cons w ws ih =>
      rw [List.foldl_cons, ih]
      unfold wake
      split <;> rfl
  exact h _ _

theorem reach_settleWithin (front : Option CallKey) (fuel turns : Nat) (e : Engine) :
    Reach e (settleWithin front fuel turns e) := by
  induction fuel generalizing turns e with
  | zero => exact .refl e
  | succ fuel ih =>
    unfold settleWithin
    cases hn : e.next? front turns with
    | none => exact .refl e
    | some next =>
      obtain ⟨w, turns', e'⟩ := next
      obtain ⟨hb, ha, hw, he⟩ := mem_ready_of_next? hn
      have h' : Reach e e' ∧ e'.broken = false ∧ e'.agenda = [] := by
        rcases he with rfl | rfl
        · exact ⟨.refl _, hb, ha⟩
        · exact ⟨.single (.wake ha), (broken_of_still (quiet_wakePutOff e).still).trans hb,
            (wakePutOff_agenda e).trans ha⟩
      have ht := h'.1.trans (reach_takeTurn h'.2.1 h'.2.2 hw)
      dsimp only
      split
      · exact ht
      · exact ht.trans (ih _ _)

theorem reach_settle (front : Option CallKey) (e : Engine) : Reach e (e.settle front) :=
  reach_settleWithin _ _ _ _

theorem reach_awaitWithin (front : Option CallKey) (calls : List CallKey) (fuel : Nat) (e : Engine) :
    Reach e (awaitWithin front calls fuel e) := by
  induction fuel generalizing e with
  | zero => exact .refl e
  | succ fuel ih =>
    have hs := reach_settle front e
    unfold awaitWithin
    dsimp only
    split
    · exact hs
    · split
      · rename_i due _
        exact (hs.tail (.time due)).trans (ih _)
      · exact hs

theorem reach_passUntil (moment fuel : Nat) (e : Engine) : Reach e (passUntil moment fuel e) := by
  induction fuel generalizing e with
  | zero => exact .refl e
  | succ fuel ih =>
    have hs := reach_settle none e
    unfold passUntil
    dsimp only
    split
    · rename_i due _
      exact (hs.tail (.time due)).trans (ih _)
    · exact (hs.tail (.time _)).trans (reach_settle none _)

/-- A call that is waited for is begun, and the engine runs. -/
theorem reach_complete (e : Engine) (stages : List Stage) :
    Reach (e.begin stages).1 (e.complete stages).1 := reach_awaitWithin _ _ _ _

/-! ## What a step touches -/

/-- The actions that belong to calls and to the making of nodes. -/
def plan (e : Engine) : List Action := e.agenda.filter fun a => !a.isQuiet

theorem plan_push (e : Engine) (actions : List Action) :
    (e.push actions).plan = actions.filter (fun a => !a.isQuiet) ++ e.plan := by
  simp [plan, push]

theorem Quiet.plan (h : Quiet e e') : e'.plan = e.plan := by
  obtain ⟨pushed, ha, hq⟩ := h.pushes
  have : pushed.filter (fun a => !a.isQuiet) = [] := by
    rw [List.filter_eq_nil_iff]
    intro a hp
    simp [hq a hp]
  simp [Engine.plan, ha, this]

/-- A step is quiet, begins the turn of a call, or is an action of a call or of the making of nodes. -/
theorem Tick.kinds (h : Tick e e') :
    (e'.still = e.still ∧ e'.plan = e.plan) ∨
    (∃ key, e.agenda = [] ∧ e'.still = e.still ∧ e'.agenda = [.resume key]) ∨
    ∃ a rest, e.broken = false ∧ a.isQuiet = false ∧ e.agenda = a :: rest ∧
      e' = { e with agenda := rest }.act a := by
  cases h with
  | @act a rest hb ha =>
    cases hq : a.isQuiet with
    | true =>
      have h := quiet_act { e with agenda := rest } hq
      refine .inl ⟨h.still.trans rfl, h.plan.trans ?_⟩
      simp [Engine.plan, ha, hq]
    | false => exact .inr (.inr ⟨a, rest, hb, hq, ha, rfl⟩)
  | @turn w hb ha hw =>
    have h₀ : Quiet e { e with ready := e.ready.filter (· != w), room := turnRoom } := .of_still rfl rfl
    cases w with
    | task key =>
      refine .inl ?_
      have h : Quiet e ({ e with ready := e.ready.filter (· != Waiter.task key), room := turnRoom }.runWaiter
          (.task key)) := by
        unfold runWaiter
        dsimp only
        split
        · exact h₀.trans (quiet_runTask _ _)
        · exact h₀
      exact ⟨h.still, h.plan⟩
    | call key => exact .inr (.inl ⟨key, ha, rfl, by simp [runWaiter, push, ha]⟩)
    | reader =>
      have h := h₀.trans (quiet_readEvents _)
      exact .inl ⟨h.still, h.plan⟩
  | wake ha => exact .inl ⟨(quiet_wakePutOff e).still, (quiet_wakePutOff e).plan⟩
  | time moment => exact .inl ⟨(quiet_moveTo e moment).still, (quiet_moveTo e moment).plan⟩

end Flowgraph.Engine
