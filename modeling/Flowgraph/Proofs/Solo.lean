import Flowgraph.Proofs.Calls
/-! One call under way alone. What the others still have on the agenda comes to nothing, so that a step is one of
the call, makes a node, or changes neither flows nor nodes. -/
namespace Flowgraph

/-- Actions that make nodes. -/
def Action.makes : Action → Bool
  | .create .. | .install .. | .refresh _ => true
  | _ => false

namespace Engine

variable {e e' e'' : Engine} {key : CallKey}

/-- All calls but one have nothing left to do. -/
def Solo (e : Engine) (key : CallKey) : Prop := ∀ j c, e.call? j = some c → j ≠ key → c.over = true

/-- An engine without its calls. -/
def uncalled (e : Engine) : Engine := { e with calls := [] }

/-- A step that leaves everything but messages, tasks and calls as it is. -/
structure Lulls (e e' : Engine) : Prop where
  still : e'.uncalled.still = e.uncalled.still
  plan : ∀ a ∈ e'.plan, a ∈ e.plan ∨ ∃ j, a = .resume j
  makes : ∀ a ∈ e.plan, a.makes = true → a ∈ e'.plan

/-- A step that leaves this call alone as well. -/
structure Idles (key : CallKey) (e e' : Engine) : Prop extends Lulls e e' where
  call : e'.call? key = e.call? key

namespace Lulls

theorem of_still (hs : e'.still = e.still) (hp : ∀ a ∈ e'.plan, a ∈ e.plan ∨ ∃ j, a = .resume j)
    (hm : ∀ a ∈ e.plan, a.makes = true → a ∈ e'.plan) : Lulls e e' := by
  refine ⟨?_, hp, hm⟩
  have := congrArg uncalled hs
  exact this

theorem trans (h : Lulls e e') (h' : Lulls e' e'') : Lulls e e'' := by
  refine ⟨h'.still.trans h.still, fun a ha => ?_, fun a ha hm => h'.makes a (h.makes a ha hm) hm⟩
  rcases h'.plan a ha with ha | ha
  · exact h.plan a ha
  · exact .inr ha

theorem level? (h : Lulls e e') (k : LevelKey) : e'.level? k = e.level? k :=
  level?_of_still h.still k

theorem node? (h : Lulls e e') (n : NodeKey) :
    (e'.node? n).map Node.still = (e.node? n).map Node.still := node?_of_still h.still n

theorem broken (h : Lulls e e') : e'.broken = e.broken := by
  have := broken_of_still h.still
  exact this

theorem flows (h : Lulls e e') : e'.flows = e.flows := by
  have := congrArg Engine.flows h.still
  exact this

theorem global (h : Lulls e e') : e'.global = e.global := by
  have := congrArg Engine.global h.still
  exact this

theorem deployed (h : Lulls e e') : e'.deployed = e.deployed := by
  have := congrArg Engine.deployed h.still
  exact this

theorem modifyCall (e : Engine) (key : CallKey) (f : Call → Call) : Lulls e (e.modifyCall key f) :=
  ⟨rfl, fun _ ha => .inl ha, fun _ ha _ => ha⟩

theorem push (e : Engine) {actions : List Action} (h : ∀ a ∈ actions, a.isQuiet = true ∨ ∃ j, a = .resume j) :
    Lulls e (e.push actions) := by
  refine ⟨rfl, fun a ha => ?_, fun a ha _ => by
    rw [plan_push]
    exact List.mem_append_right _ ha⟩
  rw [plan_push] at ha
  rcases List.mem_append.mp ha with ha | ha
  · obtain ⟨ha, hq⟩ := List.mem_filter.mp ha
    exact .inr ((h a ha).resolve_left (by simpa using hq))
  · exact .inl ha

theorem resume (e : Engine) (key : CallKey) : Lulls e (e.push [.resume key]) := push e (by simp)

theorem proceed (e : Engine) (key : CallKey) (stages : List Stage) : Lulls e (e.proceed key stages) :=
  (modifyCall e key _).trans (resume _ key)

theorem refuse (e : Engine) (key : CallKey) (fault : FlowFault) : Lulls e (e.refuse key fault) :=
  (modifyCall e key _).trans (resume _ key)

end Lulls

theorem Proceeds.lulls {stops : List Stopping} (h : Proceeds e key stops e') : Lulls e e' := by
  cases h with
  | waits _ hs =>
    have hplan : e'.plan = (e.modifyCall key fun c => { c with waiting := stops }).plan := by
      unfold plan
      rw [hs.agenda]
    refine (Lulls.modifyCall e key fun c => { c with waiting := stops }).trans (.of_still hs.still ?_ ?_)
    · exact fun a ha => .inl (hplan ▸ ha)
    · exact fun a ha _ => hplan ▸ ha
  | done _ => exact (Lulls.modifyCall e key _).trans (.resume _ key)

theorem call?_proceed {c : Call} (hc : e.call? key = some c) (stages : List Stage) :
    (e.proceed key stages).call? key = some { c with stages := stages ++ c.stages } := by
  have h := call?_modifyCall e key (fun c => { c with stages := stages ++ c.stages }) key
  rw [if_pos rfl, hc] at h
  exact h

theorem call?_refuse {c : Call} (hc : e.call? key = some c) (fault : FlowFault) :
    (e.refuse key fault).call? key = some { c with stages := [], fault := some fault } := by
  have h := call?_modifyCall e key (fun c => { c with stages := [], fault := some fault }) key
  rw [if_pos rfl, hc] at h
  exact h

theorem call?_hold {c : Call} (hc : e.call? key = some c) (levels : List LevelKey) :
    (e.hold key levels).call? key = some { c with holds := levels ++ c.holds } := by
  have h := call?_modifyCall e key (fun c => { c with holds := levels ++ c.holds }) key
  rw [if_pos rfl, hc] at h
  exact h

/-- A call that goes on with its stops, or waits for them, has the same stages left. -/
theorem Proceeds.call {stops : List Stopping} (h : Proceeds e key stops e') {c : Call} (hc : e.call? key = some c) :
    ∃ waiting report, e'.call? key = some { c with waiting, report } := by
  cases h with
  | waits _ hs =>
    have hm := call?_modifyCall e key (fun c => { c with waiting := stops }) key
    rw [if_pos rfl, hc] at hm
    exact ⟨stops, c.report, (call?_of_still hs.still key).trans hm⟩
  | done _ =>
    have hm := call?_modifyCall e key (fun c =>
      { c with waiting := [], report := (reports stops).foldl (· ++ ·) c.report }) key
    rw [if_pos rfl, hc] at hm
    exact ⟨[], (reports stops).foldl (· ++ ·) c.report, hm⟩

theorem mem_plan_pop {a b : Action} {rest : List Action} (ha : e.agenda = a :: rest)
    (hb : b ∈ { e with agenda := rest }.plan) : b ∈ e.plan := by
  unfold plan at *
  rw [ha]
  exact List.mem_filter.mpr ⟨List.mem_cons_of_mem _ (List.mem_filter.mp hb).1, (List.mem_filter.mp hb).2⟩

/-- The next step of a call leaves the agenda. -/
theorem Lulls.pop {j : CallKey} {rest : List Action} (ha : e.agenda = .resume j :: rest) :
    Lulls e { e with agenda := rest } := by
  refine ⟨rfl, fun a hm => .inl (mem_plan_pop ha hm), fun a hm hmakes => ?_⟩
  rw [Engine.plan, ha] at hm
  obtain ⟨hm, hq⟩ := List.mem_filter.mp hm
  rcases List.mem_cons.mp hm with rfl | hm
  · cases hmakes
  · exact List.mem_filter.mpr ⟨hm, hq⟩

/-- A call is about to go on. -/
theorem Lulls.of_resume {j : CallKey} (hs : e'.still = e.still) (ha : e.agenda = []) (ha' : e'.agenda = [.resume j]) :
    Lulls e e' := by
  refine .of_still hs (fun a hm => .inr ⟨j, ?_⟩) fun a hm _ => ?_
  · have hm := (List.mem_filter.mp hm).1
    rw [ha'] at hm
    exact List.mem_singleton.mp hm
  · rw [Engine.plan, ha] at hm
    cases hm

/-- What a step is while a call is under way alone. -/
inductive Advances (e : Engine) (key : CallKey) : Engine → Prop
  | idles {e' : Engine} (h : Idles key e e') : Advances e key e'
  | makes {a : Action} {rest : List Action} (hb : e.broken = false) (ha : e.agenda = a :: rest)
      (hm : a.makes = true) : Advances e key ({ e with agenda := rest }.act a)
  | resumes {rest : List Action} {e' : Engine} (hb : e.broken = false)
      (ha : e.agenda = .resume key :: rest) (h : Resumes { e with agenda := rest } key e') : Advances e key e'

/-- The next step of a call that is over changes at most that call, which stays over. -/
theorem resumes_over (hr : Resumes e key e') (ho : ∀ c, e.call? key = some c → c.over = true) :
    e'.uncalled = e.uncalled ∧ ∀ c, e'.call? key = some c → c.over = true := by
  have hover (c : Call) (hc : e.call? key = some c) : c.stages = [] ∧ c.waiting = [] := by
    have := ho c hc
    simpa only [Call.over, Bool.and_eq_true, List.isEmpty_iff] using this
  cases hr with
  | unknown => exact ⟨rfl, ho⟩
  | @ends c hc hw hst =>
    refine ⟨rfl, fun c' hc' => ?_⟩
    rw [call?_modifyCall, if_pos rfl, hc] at hc'
    cases hc'
    exact ho c hc
  | @stage c stage rest hc hw hst =>
    rw [(hover c hc).1] at hst
    cases hst
  | @waits c hc hw => exact absurd (hover c hc).2 hw

theorem mem_plan_of_makes {a : Action} {rest : List Action} (ha : e.agenda = a :: rest) (hm : a.makes = true) :
    a ∈ e.plan := by
  rw [plan, ha]
  refine List.mem_filter.mpr ⟨List.mem_cons_self, ?_⟩
  cases a with
  | create k r templates => rfl
  | install k r inst => rfl
  | refresh k => rfl
  | _ => cases hm

theorem Solo.tick (h : Solo e key) (ht : Tick e e') : Solo e' key ∧ Advances e key e' := by
  have hcalls (hc : e'.calls = e.calls) : Solo e' key := fun j c hj => h j c ((call?_of_calls hc j).symm.trans hj)
  rcases ht.kinds with ⟨hs, hp⟩ | ⟨j, ha, hs, ha'⟩ | ⟨a, rest, hb, hq, ha, rfl⟩
  · exact ⟨hcalls (calls_of_still hs),
      .idles ⟨.of_still hs (fun a ha => .inl (hp ▸ ha)) fun a ha _ => hp ▸ ha, call?_of_still hs key⟩⟩
  · exact ⟨hcalls (calls_of_still hs), .idles ⟨.of_resume hs ha ha', call?_of_still hs key⟩⟩
  by_cases hr : ∃ j, a = .resume j
  · obtain ⟨j, rfl⟩ := hr
    have hres := resumes_resume { e with agenda := rest } j
    have hother (i : CallKey) (hi : i ≠ j) : (act { e with agenda := rest } (.resume j)).call? i = e.call? i :=
      call?_of_besides hres.besides hi
    by_cases hj : j = key
    · subst hj
      refine ⟨fun i c hi hne => ?_, .resumes hb ha hres⟩
      rw [hother i hne] at hi
      exact h i c hi hne
    · have ho := resumes_over hres fun c hc => h j c hc hj
      have hagenda : (act { e with agenda := rest } (.resume j)).agenda = rest := by
        have := congrArg agenda ho.1
        exact this
      refine ⟨fun i c hi hne => ?_, .idles ⟨⟨?_, fun a hm => .inl ?_, fun a hm hmakes => ?_⟩,
        hother key (Ne.symm hj)⟩⟩
      · by_cases hij : i = j
        · subst hij
          exact ho.2 c hi
        · rw [hother i hij] at hi
          exact h i c hi hne
      · have := congrArg still ho.1
        exact this
      · refine mem_plan_pop ha ?_
        unfold plan at *
        rwa [hagenda] at hm
      · have hp := (Lulls.pop ha).makes a hm hmakes
        unfold plan at *
        rwa [hagenda]
  · have hne (j : CallKey) : a ≠ .resume j := fun ha => hr ⟨j, ha⟩
    refine ⟨hcalls (calls_of_register (register_act hne)), .makes hb ha ?_⟩
    cases a with
    | resume j => exact absurd rfl (hne j)
    | create k r templates => rfl
    | install k r inst => rfl
    | refresh k => rfl
    | _ => cases hq

/-- All calls but a new one have nothing left to do if nothing is under way. -/
theorem AtRest.solo (h : AtRest e) (hk : KeysBelow e) (stages : List Stage) :
    Solo (e.begin stages).1 e.nextCall := by
  intro j c hj hne
  rw [call?_begin hk, if_neg hne] at hj
  exact h.calls _ (mem_calls_of_call? hj)

end Engine
end Flowgraph
