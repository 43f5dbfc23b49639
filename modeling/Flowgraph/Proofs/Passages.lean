import Flowgraph.Proofs.Outcomes
import Flowgraph.Proofs.Upkeep
/-! What comes to a delay node and what leaves it. Nothing leaves it but by the turns of its own tasks, and no call goes on
to ask it to close. -/
namespace Flowgraph

/-- What leaves a node: a message that it sends, or its word that it is done with one. -/
inductive Passage
  | sent (port : Nat) (m : Message)
  | completed (m : Message)

def Passage.effect : Passage → Effect
  | .sent port m => .send port m
  | .completed m => .complete m

def Effect.passage? : Effect → Option Passage
  | .send port m => some (.sent port m)
  | .complete m => some (.completed m)
  | _ => none

/-- What leaves the node by this action. -/
def Action.passage? (k : NodeKey) : Action → Option Passage
  | .effect n x => if n = k then x.passage? else none
  | .conclude n m .handled => if n = k then some (.completed m) else none
  | _ => none

theorem Action.passage?_effect (k : NodeKey) (x : Passage) : (Action.effect k x.effect).passage? k = some x := by
  cases x <;> exact if_pos rfl

namespace Engine

def Deed.passage? (k : NodeKey) : Deed → Option Passage
  | .act a => a.passage? k
  | _ => none

/-- The message that the node is handed by this deed. -/
def Deed.arrival? (k : NodeKey) : Deed → Option Message
  | .act (.hand n m) => if n = k then some m else none
  | _ => none

/-- What leaves the node by this deed, and when. -/
def leaves (e : Engine) (k : NodeKey) (d : Deed) : Option (Nat × Passage) := (d.passage? k).map fun x => (e.now, x)

/-- The message that the node, if it is there, is handed by this deed, and when. -/
def arrives (e : Engine) (k : NodeKey) (d : Deed) : Option (Nat × Message) :=
  if (e.node? k).isSome then (d.arrival? k).map fun m => (e.now, m) else none

/-- What has left a node by its steps so far, and when. -/
def passages (state : Nat → Engine) (deed : Nat → Deed) (k : NodeKey) (i : Nat) : List (Nat × Passage) :=
  (List.range i).filterMap fun l => (state l).leaves k (deed l)

/-- The messages that a node has been handed so far since it is there, and when. -/
def arrivals (state : Nat → Engine) (deed : Nat → Deed) (k : NodeKey) (i : Nat) : List (Nat × Message) :=
  (List.range i).filterMap fun l => (state l).arrives k (deed l)

theorem filterMap_singleton {α β : Type} (f : α → Option β) (x : α) : [x].filterMap f = (f x).toList := by
  cases h : f x <;> simp [h]

theorem passages_succ (state : Nat → Engine) (deed : Nat → Deed) (k : NodeKey) (i : Nat) :
    passages state deed k (i + 1) = passages state deed k i ++ ((state i).leaves k (deed i)).toList := by
  rw [passages, passages, List.range_succ, List.filterMap_append, filterMap_singleton]

theorem arrivals_succ (state : Nat → Engine) (deed : Nat → Deed) (k : NodeKey) (i : Nat) :
    arrivals state deed k (i + 1) = arrivals state deed k i ++ ((state i).arrives k (deed i)).toList := by
  rw [arrivals, arrivals, List.range_succ, List.filterMap_append, filterMap_singleton]

variable {e e' : Engine} {k n : NodeKey} {ms : Nat} {call : CallKey} {p : Pending} {a : Action} {d : Deed}

/-! ## Calls go on to ask usage nodes only -/

/-- Of the nodes that a call waits for, none has still to be asked to close but usage nodes. -/
def AsksUsages (e : Engine) : Prop :=
  ∀ call c, e.call? call = some c → ∀ o ∈ c.waiting.flatMap Stopping.orders, e.StandsIn o.node

theorem AsksUsages.of_calls (h : AsksUsages e) (hg : Grows e e') (hc : ∀ call, e'.call? call = e.call? call) :
    AsksUsages e' := fun call c hc' o ho => hg.standsIn (h call c ((hc call).symm.trans hc') o ho)

theorem AsksUsages.resume (h : AsksUsages e) (hr : Reachable e) {agenda : List Action} (hb : e.broken = false)
    (ha : e.agenda = .resume call :: agenda) : AsksUsages (Engine.act { e with agenda } (.resume call)) := by
  have hg : Grows e (Engine.act { e with agenda } (.resume call)) := (Tick.act hb ha).grows
  have hres := resumes_resume { e with agenda } call
  intro j c' hc' o ho
  by_cases hj : j = call
  · subst hj
    obtain ⟨b, hledger⟩ := hr.books.2
    -- a call that has not waited for anybody waits for those whom it has just told
    cases hc : e.call? j with
    | none =>
      have hsame : Engine.act { e with agenda } (.resume j) = { e with agenda } := by
        change Engine.resume { e with agenda } j = _
        unfold Engine.resume
        rw [show ({ e with agenda } : Engine).call? j = none from hc]
      rw [hsame] at hc'
      cases hc.symm.trans hc'
    | some c =>
      by_cases hw : c.waiting = []
      · cases hs : c.stages with
        | nil =>
          change Resumes { e with agenda } j (Engine.act { e with agenda } (.resume j)) at hres
          generalize Engine.act { e with agenda } (.resume j) = e' at hres hc'
          have hpop : ({ e with agenda } : Engine).call? j = some c := hc
          cases hres with
          | unknown hn => cases hpop.symm.trans hn
          | ends hc'' =>
            rw [call?_modifyCall, if_pos rfl, hpop] at hc'
            obtain rfl := Option.some.inj hc'
            rw [show c.waiting = [] from hw] at ho
            cases ho
          | stage hc'' _ hs' =>
            obtain rfl := Option.some.inj (hpop.symm.trans hc'')
            cases hs.symm.trans hs'
          | waits hc'' hw' =>
            obtain rfl := Option.some.inj (hpop.symm.trans hc'')
            exact absurd hw hw'
        | cons stage stages =>
          cases hrq : stage.requests? e with
          | none =>
            have hst := (stands_taken e j agenda stages).trans (stands_runStage (e := e.taken j agenda stages)
              (by have := hr.accounted.orderly; rw [plan_pop ha rfl] at this; exact this) j
              ((requests?_taken _ _ _ _).trans hrq)).1
            rw [← act_resume hc hw hs] at hst
            obtain ⟨c₀, hc₀, -, hw₀⟩ := hst.retains.call hc'
            obtain rfl := Option.some.inj (hc.symm.trans hc₀)
            rw [hw₀, hw] at ho
            cases ho
          | some requests =>
            obtain ⟨m, stops, given, served, c₁, js, hopen, hp, hlate, -⟩ :=
              closes_begin hr hledger hc hw hs hrq agenda
            have hcall : m.call? j = some { c with stages } :=
              (call?_of_shell (hopen.departs (hr.layout.laid.taken j agenda stages)).stops.shell j).trans
                (call?_taken hc agenda stages)
            obtain ⟨c₂, hc₂, -, horders, -⟩ := hp.call_account hcall
            obtain rfl := Option.some.inj (hc₂.symm.trans hc')
            rw [horders] at ho
            exact hg.standsIn (hlate o ho)
      · have hact := act_pollAll agenda hc hw
        obtain ⟨stops, served, hstops, hs, -⟩ := serving_pollStops j c.waiting ({ e with agenda }, [])
        rw [List.nil_append] at hstops
        have hp := proceeds_afterStops (pollStops j ({ e with agenda }, []) c.waiting).1 j stops
        rw [hact, pollAll_eq, hstops] at hc'
        have hcall : (pollStops j ({ e with agenda }, []) c.waiting).1.call? j = some c :=
          (call?_of_shell hs.stops.shell j).trans hc
        obtain ⟨c₂, hc₂, -, horders, -⟩ := hp.call_account hcall
        obtain rfl := Option.some.inj (hc₂.symm.trans hc')
        rw [horders] at ho
        exact hg.standsIn (h j c hc o (hs.orders.subset (List.mem_append_right _ ho)))
  · have hother : (Engine.act { e with agenda } (.resume call)).call? j = e.call? j := call?_of_besides hres.besides hj
    exact hg.standsIn (h j c' (hother.symm.trans hc') o ho)

theorem Reachable.asksUsages (h : Reachable e) : AsksUsages e := by
  refine h.invariant (P := AsksUsages) (fun r o s v t call c hc => ?_) (fun e e' hr hu ht => ?_)
    fun e e' hr hu ha hi => ?_
  · simp [call?, Engine.make] at hc
  · rcases ht.kinds with ⟨hst, -⟩ | ⟨_, -, hst, -⟩ | ⟨a, agenda, hb, -, hagenda, rfl⟩
    · exact hu.of_calls ht.grows fun call => call?_of_still hst call
    · exact hu.of_calls ht.grows fun call => call?_of_still hst call
    · by_cases hres : ∃ call, a = .resume call
      · obtain ⟨call, rfl⟩ := hres
        exact hu.resume hr hb hagenda
      · exact hu.of_calls ht.grows fun call =>
          call?_of_calls (calls_of_register (register_act fun call he => hres ⟨call, he⟩)) call
  · cases hi with
    | call =>
      intro call c hc
      rw [call?_begin hr.keysBelow] at hc
      split at hc
      · obtain rfl := Option.some.inj hc
        simp [Call.make]
      · rename_i hne
        exact fun o ho => (Input.grows (.call ‹_›)).standsIn (hu call c hc o ho)
    | quiet hq => exact hu.of_calls (Input.grows (.quiet hq)) fun call => call?_of_still hq.still call
    | keep levels nodes => exact hu.of_calls (Input.grows (.keep levels nodes)) fun _ => rfl
    | flow hk hc => exact hu.of_calls (Input.grows (.flow hk hc)) fun _ => rfl
    | update hk hc => exact hu.of_calls (Input.grows (.update hk hc)) fun _ => rfl

/-- No call goes on to ask the node to close. -/
theorem HoldsFor.unasked (h : e.HoldsFor ms k) (hr : Reachable e) (call : CallKey) (c : Call)
    (hc : e.call? call = some c) : k ∉ (c.waiting.flatMap Stopping.orders).map (·.node) := fun hm => by
  obtain ⟨o, ho, rfl⟩ := List.mem_map.mp hm
  exact h.not_standsIn (hr.asksUsages call c hc o ho)

/-! ## What others put on the agenda -/

/-- An action by which nothing leaves the node, and which touches none of its tasks. -/
structure Foreign (e : Engine) (k : NodeKey) (a : Action) : Prop where
  passage : a.passage? k = none
  closed : ∀ result, a ≠ .effect k (.closed result)
  finish : ∀ key, a = .finishTask key → key < e.nextTask ∧ e.owns k key = false

theorem foreign_of_plans (e : Engine) (k : NodeKey) (h : a.plans = true) : Foreign e k a := by
  cases a with
  | effect | conclude | finishTask => cases h
  | _ => exact ⟨rfl, nofun, nofun⟩

theorem foreign_of_conveys (e : Engine) (k : NodeKey) (h : a.Conveys) : Foreign e k a := by
  cases h <;> exact ⟨rfl, nofun, nofun⟩

theorem foreign_effect (e : Engine) (hne : n ≠ k) (effect : Effect) : Foreign e k (.effect n effect) :=
  ⟨if_neg hne, fun result he => hne (by cases he; rfl), nofun⟩

theorem foreign_conclude (e : Engine) (hne : n ≠ k) (m : Message) (outcome : Outcome) :
    Foreign e k (.conclude n m outcome) := by
  refine ⟨?_, nofun, nofun⟩
  cases outcome with
  | handled => exact if_neg hne
  | _ => rfl

/-- Tasks do not change their owners, and their keys are not given again. -/
theorem Foreign.later {P : Pending → Prop} (h : Foreign e k a) (hi : Inherits P e e') : Foreign e' k a := by
  refine ⟨h.passage, h.closed, fun key he => ?_⟩
  obtain ⟨hlt, hown⟩ := h.finish key he
  refine ⟨Nat.lt_of_lt_of_le hlt hi.next, List.any_eq_false.mpr fun q hq hkey => ?_⟩
  obtain ⟨hq, ho⟩ := mem_tasksOf.mp hq
  obtain rfl : q.key = key := by simpa using hkey
  rcases hi.tasks q hq with ⟨p, hp, hsame⟩ | ⟨hle, -⟩
  · rw [hsame.key, owns_of_mem (mem_tasksOf.mpr ⟨hp, hsame.owner.symm.trans ho⟩)] at hown
    cases hown
  · exact absurd hlt (Nat.not_lt.mpr hle)

/-- What an action puts on the agenda concerns the node at most when it arrives there. -/
theorem foreign_pushed (hd : e.HoldsFor ms k) (hp : a.plans = false) :
    ∃ pushed, (e.act a).agenda = pushed ++ e.agenda ∧ ∀ b ∈ pushed, ∀ s, Foreign s k b := by
  by_cases h : ∃ n m node b, a = .hand n m ∧ TakesUp e n node b
  · obtain ⟨n, m, node, b, rfl, ht⟩ := h
    refine ⟨(b.onInput (e.situation n node) m).effects.map (.effect n) ++
      [.conclude n m (b.onInput (e.situation n node) m).outcome], ?_, fun x hx s => ?_⟩
    · change (e.hand n m).agenda = _
      rw [ht.hand_eq m]
      exact congrArg (_ ++ ·) (agenda_foldl_startTask n _ e)
    · by_cases hne : n = k
      · subst hne
        obtain rfl : b = Delay.behaviour ms := Part.ordinary.inj (ht.part.symm.trans (hd node ht.there))
        rcases List.mem_cons.mp hx with rfl | hx
        · exact ⟨if_pos rfl, nofun, nofun⟩
        · obtain rfl := List.mem_singleton.mp hx
          exact ⟨rfl, nofun, nofun⟩
      · rcases List.mem_append.mp hx with hx | hx
        · obtain ⟨effect, -, rfl⟩ := List.mem_map.mp hx
          exact foreign_effect s hne effect
        · obtain rfl := List.mem_singleton.mp hx
          exact foreign_conclude s hne _ _
  · have hno (n : NodeKey) (m : Message) (he : a = .hand n m) (node : Node) (b : Behaviour) : ¬TakesUp e n node b :=
      fun ht => h ⟨n, m, node, b, he, ht⟩
    rcases conveysOn_act e hp hno with ⟨pushed, ha, hc⟩ | ⟨n, m, rfl, hr⟩
    · exact ⟨pushed, ha, fun b hb s => foreign_of_conveys s k (hc b hb)⟩
    · refine ⟨[.effect n (.send 0 m)], by rw [hr.sends]; rfl, fun b hb s => ?_⟩
      obtain rfl := List.mem_singleton.mp hb
      obtain ⟨node, hn, hpart⟩ := hr.relay
      refine foreign_effect s (fun he => ?_) _
      subst he
      cases hpart.symm.trans (hd node hn)

/-- Where there are no plans, a step that is no turn of the node's own tasks puts on the agenda only what does not touch
the node, unless it is asked to. -/
theorem Does.foreign (h : Does e d e') (hs : Stocked e) (hk : Numbered e) (hd : e.HoldsFor ms k)
    (hm : ∀ a ∈ e.agenda, a.plans = false) (hown : d = .asked → ∀ effect, .effect k effect ∉ e'.agenda)
    (hturn : ∀ p ∈ e.tasksOf k, d ≠ .turn (.task p.key)) :
    ∃ pushed, e'.agenda = pushed ++ e.agenda.tail ∧ ∀ a ∈ pushed, Foreign e' k a := by
  have hdoes := h
  cases h with
  | @act a agenda hb ha =>
    obtain ⟨pushed, hpush, hp⟩ := foreign_pushed (e := { e with agenda }) hd (hm a (ha ▸ List.mem_cons_self))
    exact ⟨pushed, by rw [ha]; exact hpush, fun b hb => hp b hb _⟩
  | @turn w hb ha hw =>
    obtain ⟨pushed, hpush, hbrought⟩ := hdoes.brought hm
    refine ⟨pushed, hpush, fun b hb => ?_⟩
    cases hbrought with
    | nothing => cases hb
    | call key =>
      obtain rfl := List.mem_singleton.mp hb
      exact foreign_of_plans _ k rfl
    | @task key p hfind hk' =>
      obtain ⟨hp, rfl⟩ := mem_of_find?_key hfind
      have hne : p.owner ≠ k := fun ho => hturn p (mem_tasksOf.mpr ⟨hp, ho⟩) rfl
      rcases List.mem_append.mp hb with hb | hb
      · obtain ⟨effect, -, rfl⟩ := List.mem_map.mp hb
        exact foreign_effect _ hne effect
      · obtain rfl := List.mem_singleton.mp hb
        have hnow : Foreign e k (.finishTask p.key) := ⟨rfl, nofun, fun key he => by
          cases he
          exact ⟨hk.below p hp, owns_eq_false hk.toKeyed hp hne⟩⟩
        exact hnow.later (hdoes.inherits hs)
  | wake ha => exact ⟨[], by rw [ha, List.tail_nil, (wakePutOff_frame e).1, ha]; rfl, nofun⟩
  | time moment ha => exact ⟨[], by rw [ha, List.tail_nil, (moveTo_frame e moment).1, ha]; rfl, nofun⟩
  | asked ha h =>
    obtain ⟨pushed, hpush, hbrought⟩ := h.brought
    refine ⟨pushed, by rw [ha, List.tail_nil, ← ha]; exact hpush, fun b hb => ?_⟩
    have hmem : b ∈ e'.agenda := hpush ▸ List.mem_append_left _ hb
    have hother (n : NodeKey) (effect : Effect) (he : b = .effect n effect) : Foreign e' k b := by
      subst he
      refine foreign_effect e' (fun hn => ?_) effect
      subst hn
      exact hown rfl effect hmem
    cases hbrought with
    | nothing => cases hb
    | asked hp =>
      rcases hp b hb with hp | ⟨n, effect, he⟩
      · cases hp with
        | send n port m => exact hother n _ rfl
        | _ => exact ⟨rfl, nofun, nofun⟩
      · exact hother n effect he

/-- Whatever is on the agenda after a step that is no turn of the node's own tasks was there before, or does not touch the
node. -/
theorem Does.agenda_foreign (h : Does e d e') (hs : Stocked e) (hi : e.registry.Idle) (hu : Unmixed e) (hk : Numbered e)
    (hd : e.HoldsFor ms k) (hown : d = .asked → ∀ effect, .effect k effect ∉ e'.agenda)
    (hturn : ∀ p ∈ e.tasksOf k, d ≠ .turn (.task p.key)) : ∀ a ∈ e'.agenda, a ∈ e.agenda.tail ∨ Foreign e' k a := by
  by_cases hm : ∀ a ∈ e.agenda, a.plans = false
  · obtain ⟨pushed, hpush, hp⟩ := h.foreign hs hk hd hm hown hturn
    intro a ha
    rw [hpush] at ha
    exact (List.mem_append.mp ha).symm.imp_right (hp a)
  · have hne : e.agenda ≠ [] := fun hnone => hm (by simp [hnone])
    obtain ⟨a, agenda, ha⟩ := List.exists_cons_of_ne_nil hne
    obtain ⟨-, rfl⟩ := h.of_agenda ha
    have hp : a.plans = true := hu.resolve_right hm a (ha ▸ List.mem_cons_self)
    intro b hb
    refine (plots_act (e := { e with agenda }) hi hp b hb).imp (fun hb => ?_) (foreign_of_plans _ k)
    rw [ha]
    exact hb

end Engine
end Flowgraph
