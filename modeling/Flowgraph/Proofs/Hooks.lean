import Flowgraph.Proofs.Withdrawal
/-! The hooks of nodes. Every step of an engine is written down with the hooks that it calls: those of the nodes that are
entered, of the node that takes a message, of the nodes that are wired anew, and of those that are asked to close. -/
namespace Flowgraph

/-- What can be called on a node. -/
inductive Hook
  | start | input | rewire | close
  deriving DecidableEq, Repr

/-- A hook of a node is called. -/
structure HookCall where
  node : NodeKey
  hook : Hook
  deriving DecidableEq, Repr

/-- The hooks of one node among those that are called. -/
def hooksOf (n : NodeKey) (calls : List HookCall) : List Hook := (calls.filter (·.node = n)).map (·.hook)

/-- The close hooks that are called to serve these orders. -/
def closeCalls (served : List Order) : List HookCall := served.map fun o => ⟨o.node, .close⟩

theorem hooksOf_append (n : NodeKey) (calls calls' : List HookCall) :
    hooksOf n (calls ++ calls') = hooksOf n calls ++ hooksOf n calls' := by
  rw [hooksOf, List.filter_append, List.map_append]
  rfl

/-- A hook of each of these nodes is called once. -/
theorem hooksOf_map (n : NodeKey) (hook : Hook) {ns : List NodeKey} (hn : ns.Nodup) :
    hooksOf n (ns.map fun m => ⟨m, hook⟩) = if n ∈ ns then [hook] else [] := by
  induction ns with
  | nil => rfl
  | cons m ns ih =>
    obtain ⟨hm, hns⟩ := List.nodup_cons.mp hn
    have hcons : hooksOf n ((m :: ns).map fun m => (⟨m, hook⟩ : HookCall)) =
        (if m = n then [hook] else []) ++ hooksOf n (ns.map fun m => ⟨m, hook⟩) := by
      unfold hooksOf
      by_cases hmn : m = n <;> simp [hmn]
    rw [hcons, ih hns]
    by_cases hmn : m = n
    · subst hmn
      simp [hm]
    · simp [hmn, Ne.symm hmn]

theorem hooksOf_closeCalls (n : NodeKey) {served : List Order} (hn : (served.map (·.node)).Nodup) :
    hooksOf n (closeCalls served) = if n ∈ served.map (·.node) then [.close] else [] := by
  rw [← hooksOf_map n .close hn, closeCalls, List.map_map]
  rfl

namespace Engine

variable {e e' e'' m : Engine} {k : LevelKey} {n : NodeKey} {key : CallKey} {b b' : Book} {K L : List HookCall}

/-! ## What is called -/

/-- What is called along a fold, step by step. -/
def callsAlong {α : Type} (f : Engine → α → Engine) (calls : Engine → α → List HookCall) :
    Engine → List α → List HookCall
  | _, [] => []
  | e, x :: xs => calls e x ++ callsAlong f calls (f e x) xs

/-- The node of an instance is rewired if it is active and its wiring is another one now. -/
def rewireNodeCalls (inst : LevelKey) (e : Engine) (r : Record) : List HookCall :=
  match e.activeKey? inst r.id with
  | none => []
  | some k => if (e.node? k).map (·.dispatch.toWires) = some r.outputs then [] else [⟨k, .rewire⟩]

def rewireInstanceCalls (e : Engine) (inst : LevelKey) (outer : Wires) : List HookCall :=
  match (e.binding? inst).bind (·.expand? outer) with
  | none => []
  | some nodes => callsAlong (rewireNode inst) (rewireNodeCalls inst) e nodes

def rewireOneCalls (k : LevelKey) (config : FlowConfig) (e : Engine) (id : NodeId) : List HookCall :=
  match config.node? id, e.activeKey? k id with
  | some r, some n =>
    (match e.instance? k id with
      | some inst => e.rewireInstanceCalls inst r.outputs
      | none => []) ++ [⟨n, .rewire⟩]
  | _, _ => []

/-- What a stage calls that stops nothing. -/
def stageCalls (e : Engine) : Stage → List HookCall
  | .apply k config (some diff) => callsAlong (rewireOne k config) (rewireOneCalls k config) e (onlyRewired diff)
  | _ => []

/-- What an action calls, unless a call goes on: the input hook of a node that takes a message, and the start hooks of
the nodes that are entered. -/
def actionCalls (e : Engine) : Action → List HookCall
  | .hand k _ => if (e.node? k).map (·.cancelled) = some false then [⟨k, .input⟩] else []
  | a => (List.range' e.nodes.size ((e.act a).nodes.size - e.nodes.size)).map fun n => ⟨n, .start⟩

/-- The hooks that a step calls. -/
inductive Calls (e e' : Engine) : List HookCall → Prop
  /-- Nothing is left to be done, and somebody is given a turn. -/
  | between (ha : e.agenda = []) : Calls e e' []
  | time (moment : Nat) (he : e' = e.moveTo moment) : Calls e e' []
  | acts {a : Action} {agenda : List Action} (ha : e.agenda = a :: agenda) (hne : ∀ key, a ≠ .resume key)
      (he : e' = Engine.act { e with agenda } a) : Calls e e' (({ e with agenda } : Engine).actionCalls a)
  /-- A call goes on that is unknown or has nothing left to do. -/
  | rests {key : CallKey} {agenda : List Action} (ha : e.agenda = .resume key :: agenda)
      (hc : ∀ c, e.call? key = some c → c.waiting = [] ∧ c.stages = [])
      (he : e' = Engine.act { e with agenda } (.resume key)) : Calls e e' []
  | stage {key : CallKey} {agenda : List Action} {c : Call} {stage : Stage} {stages : List Stage}
      (ha : e.agenda = .resume key :: agenda) (hc : e.call? key = some c) (hw : c.waiting = [])
      (hs : c.stages = stage :: stages) (hr : stage.requests? e = none)
      (he : e' = Engine.act { e with agenda } (.resume key)) :
      Calls e e' ((e.taken key agenda stages).stageCalls stage)
  /-- A call begins stops, which serve some of their orders at once. -/
  | begins {key : CallKey} {agenda : List Action} {c : Call} {stage : Stage} {stages : List Stage}
      {requests : List StopRequest} {given served : List Order} (ha : e.agenda = .resume key :: agenda)
      (hc : e.call? key = some c) (hw : c.waiting = []) (hs : c.stages = stage :: stages)
      (hr : stage.requests? e = some requests)
      (ho : Opening (e.taken key agenda stages) requests (beginStops key (e.taken key agenda stages, []) requests).1
        (beginStops key (e.taken key agenda stages, []) requests).2 given served)
      (he : e' = Engine.act { e with agenda } (.resume key)) : Calls e e' (closeCalls served)
  /-- A call goes on with its stops, which serve some of the orders that are left. -/
  | goesOn {key : CallKey} {agenda : List Action} {c : Call} {served : List Order}
      (ha : e.agenda = .resume key :: agenda) (hc : e.call? key = some c) (hw : c.waiting ≠ [])
      (hs : Serving { e with agenda } (pollStops key ({ e with agenda }, []) c.waiting).1
        (c.waiting.flatMap Stopping.orders)
        ((pollStops key ({ e with agenda }, []) c.waiting).2.flatMap Stopping.orders)
        (c.waiting.flatMap (Stopping.docket e.idsOf))
        ((pollStops key ({ e with agenda }, []) c.waiting).2.flatMap (Stopping.docket e.idsOf)) served)
      (he : e' = Engine.act { e with agenda } (.resume key)) : Calls e e' (closeCalls served)

/-- There is a list of what a step calls if the stops that it begins can be accounted for. -/
theorem Tick.calls_of_opening (ht : Tick e e') (ho : ∀ key agenda c stage stages requests,
      e.agenda = .resume key :: agenda → e.call? key = some c → c.waiting = [] → c.stages = stage :: stages →
      stage.requests? e = some requests → ∃ given served, Opening (e.taken key agenda stages) requests
        (beginStops key (e.taken key agenda stages, []) requests).1
        (beginStops key (e.taken key agenda stages, []) requests).2 given served) : ∃ K, Calls e e' K := by
  cases ht with
  | turn _ ha => exact ⟨[], .between ha⟩
  | wake ha => exact ⟨[], .between ha⟩
  | time moment => exact ⟨[], .time moment rfl⟩
  | @act a agenda hb ha =>
    by_cases hres : ∃ key, a = .resume key
    · obtain ⟨key, rfl⟩ := hres
      cases hc : e.call? key with
      | none => exact ⟨[], .rests ha (fun c hc' => by simp [hc] at hc') rfl⟩
      | some c =>
        by_cases hw : c.waiting = []
        · cases hs : c.stages with
          | nil =>
            refine ⟨[], .rests ha (fun c' hc' => ?_) rfl⟩
            obtain rfl := Option.some.inj (hc.symm.trans hc')
            exact ⟨hw, hs⟩
          | cons stage stages =>
            cases hrq : stage.requests? e with
            | none => exact ⟨_, .stage ha hc hw hs hrq rfl⟩
            | some requests =>
              obtain ⟨given, served, ho⟩ := ho key agenda c stage stages requests ha hc hw hs hrq
              exact ⟨_, .begins ha hc hw hs hrq ho rfl⟩
        · obtain ⟨stops, served, hstops, hs, -⟩ := serving_pollStops key c.waiting ({ e with agenda }, [])
          rw [List.nil_append] at hstops
          exact ⟨_, .goesOn ha hc hw (hstops ▸ hs) rfl⟩
    · exact ⟨_, .acts ha (fun key h => hres ⟨key, h⟩) rfl⟩

/-- Stops that begin when nothing is out of place can be accounted for. -/
theorem exists_opening (hl : Laid e) (hh : Housed e) (key : CallKey) (requests : List StopRequest) :
    ∃ given served, Opening e requests (beginStops key (e, []) requests).1 (beginStops key (e, []) requests).2 given
      served := by
  obtain ⟨stops, given, served, hstops, ho, -⟩ := opening_beginStops key requests (e, []) hl hh
  rw [List.nil_append] at hstops
  exact ⟨given, served, hstops ▸ ho⟩

/-- For every step there is a list of what it calls. -/
theorem Tick.calls (hr : Reachable e) (ht : Tick e e') : ∃ K, Calls e e' K :=
  ht.calls_of_opening fun key agenda _ _ stages requests _ _ _ _ _ =>
    exists_opening (hr.layout.laid.taken key agenda stages)
      ((stands_taken e key agenda stages).housed hr.books.1.housed) key requests

/-! ## Rewiring concerns active nodes -/

theorem forall_callsAlong {α : Type} {P : Engine → Prop} {Q : HookCall → Prop} {f : Engine → α → Engine}
    {calls : Engine → α → List HookCall} (hf : ∀ e x, P e → P (f e x)) (hc : ∀ e x, P e → ∀ c ∈ calls e x, Q c)
    (xs : List α) (h : P e) : ∀ c ∈ callsAlong f calls e xs, Q c := by
  induction xs generalizing e with
  | nil => simp [callsAlong]
  | cons x xs ih =>
    intro c hm
    rcases List.mem_append.mp hm with hm | hm
    · exact hc e x h c hm
    · exact ih (hf e x h) c hm

/-- An active node is wired anew. -/
def RewiresActive (e : Engine) (c : HookCall) : Prop := c.hook = .rewire ∧ e.IsActive c.node

theorem stageCalls_active (stage : Stage) : ∀ c ∈ e.stageCalls stage, e.RewiresActive c := by
  -- rewiring leaves everybody where he is
  let Same : Engine → Prop := fun s => ∀ j id, s.activeKey? j id = e.activeKey? j id
  have hsame {s s' : Engine} (hs : Same s) (h : Rewires s s') : Same s' :=
    fun j id => (h.entries j id).1.trans (hs j id)
  have hone {s : Engine} (hs : Same s) {j : LevelKey} {id : NodeId} {n : NodeKey} (hn : s.activeKey? j id = some n) :
      e.RewiresActive ⟨n, .rewire⟩ := ⟨rfl, j, id, (hs j id).symm.trans hn⟩
  have hnode (inst : LevelKey) (s : Engine) (r : Record) (hs : Same s) :
      ∀ c ∈ s.rewireNodeCalls inst r, e.RewiresActive c := by
    intro c hc
    unfold rewireNodeCalls at hc
    split at hc
    · cases hc
    · rename_i n hn
      split at hc
      · cases hc
      · obtain rfl := List.mem_singleton.mp hc
        exact hone hs hn
  have hinst (inst : LevelKey) (s : Engine) (outer : Wires) (hs : Same s) :
      ∀ c ∈ s.rewireInstanceCalls inst outer, e.RewiresActive c := by
    intro c hc
    unfold rewireInstanceCalls at hc
    split at hc
    · cases hc
    · exact forall_callsAlong (fun s r hs => hsame hs (rewires_rewireNode inst s r)) (fun s r hs => hnode inst s r hs) _
        hs c hc
  cases stage with
  | apply k config diff =>
    cases diff with
    | none => simp [stageCalls]
    | some d =>
      refine forall_callsAlong (P := Same) (fun s id hs => hsame hs (rewires_rewireOne k config s id))
        (fun s id hs c hc => ?_) (onlyRewired d) fun _ _ => rfl
      unfold rewireOneCalls at hc
      split at hc
      · rename_i r n _ hn
        rcases List.mem_append.mp hc with hc | hc
        · split at hc
          · exact hinst _ s _ hs c hc
          · cases hc
        · obtain rfl := List.mem_singleton.mp hc
          exact hone hs hn
      · cases hc
  | _ => simp [stageCalls]

end Engine
end Flowgraph
