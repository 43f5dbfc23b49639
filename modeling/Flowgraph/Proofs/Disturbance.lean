import Flowgraph.Proofs.Atomicity
import Flowgraph.Proofs.Rewiring
import Flowgraph.Proofs.WiringHooks
/-! What a start disturbs. It takes out the nodes that its diff has go, with everything in their instances, and wires
anew those that the diff has for nothing else. All other nodes go on as the same instances, and no hook is called on them
but those of messages. -/
namespace Flowgraph

/-- The diff has the node go, for good or to come back as another one. -/
def Diff.Drops (d : Diff) (id : NodeId) : Prop := id ∈ d.changed ∨ id ∈ d.removed

/-- The hooks of one node but for those of messages. -/
def lifecycle (n : NodeKey) (calls : List HookCall) : List Hook := (hooksOf n calls).filter (· ≠ .input)

variable {d : Diff} {L K : List HookCall} {n : NodeKey} {id : NodeId}

theorem lifecycle_append (n : NodeKey) (L K : List HookCall) :
    lifecycle n (L ++ K) = lifecycle n L ++ lifecycle n K := by
  rw [lifecycle, hooksOf_append, List.filter_append]
  rfl

theorem lifecycle_of_hooksOf {hs : List Hook} (h : hooksOf n K = hs) (hi : Hook.input ∉ hs) : lifecycle n K = hs := by
  rw [lifecycle, h, List.filter_eq_self]
  rintro hook hm
  simp only [ne_eq, decide_not, Bool.not_eq_true', decide_eq_false_iff_not]
  rintro rfl
  exact hi hm

namespace Engine

variable {e m s s' t : Engine} {i j k : LevelKey} {u : NodeId} {key : CallKey} {config : FlowConfig} {c c' : Call}

theorem mem_onlyRewired : id ∈ onlyRewired d ↔ id ∈ d.rewired ∧ ¬d.Drops id := by
  simp [onlyRewired, Diff.Drops]

/-- The entries that a start with the diff takes out: those of the nodes that are to go, and all that is inside their
instances. -/
inductive Disturbed (e : Engine) (k : LevelKey) (d : Diff) : LevelKey → NodeId → Prop
  | own {id : NodeId} (h : d.Drops id) : Disturbed e k d k id
  | inner {u id : NodeId} {i j : LevelKey} (h : d.Drops u) (hi : e.instance? k u = some i) (hin : e.Inside i j) :
      Disturbed e k d j id

theorem Regular.disturbed_own (h : Regular k e) : e.Disturbed k d k id ↔ d.Drops id := by
  obtain ⟨old, hl⟩ := h.laid
  refine ⟨fun hd => ?_, .own⟩
  cases hd with
  | own h => exact h
  | inner _ hi hin => exact absurd (.configured k old hin) (hl.not_inside ((instance?_configured k old k _).trans hi))

theorem Regular.disturbed_inner (h : Regular k e) (hi : e.instance? k u = some i) (hin : e.Inside i j) :
    e.Disturbed k d j id ↔ d.Drops u := by
  obtain ⟨old, hl⟩ := h.laid
  have hi' := (instance?_configured k old k u).trans hi
  have hin' := hin.configured k old
  refine ⟨fun hd => ?_, fun hd => .inner hd hi hin⟩
  cases hd with
  | own _ => exact absurd hin' (hl.not_inside hi')
  | inner h hi₁ hin₁ =>
    rwa [hl.inside_unique hi' ((instance?_configured k old k _).trans hi₁) hin' (hin₁.configured k old)]

/-- What a stop of such nodes takes out. -/
theorem disturbed_of_takes {ids : List NodeId} {removal : Removal} {removed : Bool} (h : Dwindles e t)
    (hids : ∀ id ∈ ids, d.Drops id) (ht : StopRequest.Takes ⟨k, some ids, removal⟩ t j id removed) :
    e.Disturbed k d j id := by
  cases ht with
  | own hc => exact .own (hids id (hc ids rfl))
  | nested hc hi hin => exact .inner (hids _ (hc ids rfl)) (h.inst k _ _ hi) (h.inside hin)

/-- The entry of an active node that the start is to leave as it is. -/
def Stays (e : Engine) (k : LevelKey) (d : Diff) (j : LevelKey) (id : NodeId) : Prop :=
  (e.activeKey? j id).isSome = true ∧ ¬e.Disturbed k d j id

theorem stays (hn : e.activeKey? j id = some n) (hd : ¬e.Disturbed k d j id) : e.Stays k d j id := ⟨by rw [hn]; rfl, hd⟩

theorem Grows.nodes_le (h : Grows e s) : e.nodes.size ≤ s.nodes.size :=
  Nat.le_of_not_lt fun hlt => Nat.lt_irrefl _ (h.known hlt)

/-- No such entry is in a level that is still to come. -/
theorem Grows.not_stays (h : Grows e s) (id : NodeId) : ¬e.Stays k d s.levels.size id := by
  rintro ⟨ha, -⟩
  obtain ⟨n, hn⟩ := Option.isSome_iff_exists.mp ha
  obtain ⟨l, hl, -⟩ := Option.bind_eq_some_iff.mp hn
  obtain ⟨l', hl', -⟩ := h.level _ l hl
  exact Nat.lt_irrefl _ (level?_lt s _ hl')

/-! ## Hooks of other nodes -/

/-- Hooks that do not concern the nodes which are to stay. -/
inductive Elsewhere (e : Engine) (k : LevelKey) (d : Diff) : HookCall → Prop
  | message (n : NodeKey) : Elsewhere e k d ⟨n, .input⟩
  | starts {n : NodeKey} (h : e.nodes.size ≤ n) : Elsewhere e k d ⟨n, .start⟩
  | closes {n : NodeKey} {j : LevelKey} {id : NodeId} (hn : e.activeKey? j id = some n) (hd : e.Disturbed k d j id) :
      Elsewhere e k d ⟨n, .close⟩

theorem lifecycle_eq_nil (hp : Placed e) (hn : e.activeKey? j id = some n) (hd : ¬e.Disturbed k d j id)
    (hL : ∀ call ∈ L, e.Elsewhere k d call) : lifecycle n L = [] := by
  refine List.filter_eq_nil_iff.mpr fun hook hm => ?_
  obtain ⟨call, hc, rfl⟩ := List.mem_map.mp hm
  obtain ⟨hc, hnode⟩ := List.mem_filter.mp hc
  cases hL call hc with
  | message => simp
  | starts h =>
    obtain rfl := of_decide_eq_true hnode
    exact absurd (hp.lt_size hn) (Nat.not_lt_of_le h)
  | closes hn' hd' =>
    obtain rfl := of_decide_eq_true hnode
    obtain ⟨rfl, rfl⟩ := hp.inj hn hn'
    exact absurd hd' hd

theorem elsewhere_actionCalls (hsize : e.nodes.size ≤ s.nodes.size) (a : Action) :
    ∀ call ∈ s.actionCalls a, e.Elsewhere k d call := by
  intro call hc
  cases a with
  | hand n message =>
    simp only [actionCalls] at hc
    split at hc
    · obtain rfl := List.mem_singleton.mp hc
      exact .message n
    · cases hc
  | _ =>
    obtain ⟨n, hn, rfl⟩ := List.mem_map.mp hc
    exact .starts (Nat.le_trans hsize (List.mem_range'_1.mp hn).1)

theorem elsewhere_closeCalls {served : List Order}
    (h : ∀ o ∈ served, ∃ j id, e.activeKey? j id = some o.node ∧ e.Disturbed k d j id) :
    ∀ call ∈ closeCalls served, e.Elsewhere k d call := by
  intro call hc
  obtain ⟨o, ho, rfl⟩ := List.mem_map.mp hc
  obtain ⟨j, id, hn, hd⟩ := h o ho
  exact .closes hn hd

/-- What is called while a call under way alone does not go on itself, or has nothing left to do. -/
theorem Calls.elsewhere (hK : Calls s s' K) (hs : Solo s key) (hsize : e.nodes.size ≤ s.nodes.size)
    (hown : ∀ agenda c, s.agenda = .resume key :: agenda → s.call? key = some c → c.stages = [] ∧ c.waiting = []) :
    ∀ call ∈ K, e.Elsewhere k d call := by
  have hover {key' : CallKey} {agenda : List Action} {c : Call} (ha : s.agenda = .resume key' :: agenda)
      (hc : s.call? key' = some c) : c.stages = [] ∧ c.waiting = [] := by
    by_cases hkey : key' = key
    · subst hkey
      exact hown agenda c ha hc
    · have hover := hs key' c hc hkey
      simpa only [Call.over, Bool.and_eq_true, List.isEmpty_iff] using hover
  cases hK with
  | between => simp
  | time => simp
  | @acts a agenda => exact elsewhere_actionCalls (s := { s with agenda }) hsize a
  | rests => simp
  | stage ha hc _ hst =>
    rw [(hover ha hc).1] at hst
    cases hst
  | begins ha hc _ hst =>
    rw [(hover ha hc).1] at hst
    cases hst
  | goesOn ha hc hw => exact absurd (hover ha hc).2 hw

/-! ## What comes of the nodes that stay -/

/-- What has been called on a node that stays, and how it is wired now: nothing has happened to it, or it has been wired
anew, because the diff names it or, if it is in an instance, its usage node. -/
inductive Treated (e : Engine) (k : LevelKey) (config : FlowConfig) (d : Diff) (j : LevelKey) (id : NodeId) (n : NodeKey)
    (s : Engine) : List Hook → Prop
  | passed (h : j = k → id ∈ d.rewired → config.node? id = none)
      (hw : (s.node? n).map (·.dispatch) = (e.node? n).map (·.dispatch)) : Treated e k config d j id n s []
  | rewired {r : Record} (hj : j = k) (hm : id ∈ d.rewired) (hr : config.node? id = some r)
      (hw : (s.node? n).map (·.dispatch.toWires) = some r.outputs) : Treated e k config d j id n s [.rewire]
  | within {u : NodeId} (hj : j ≠ k) (hi : e.instance? k u = some j) (hm : u ∈ d.rewired) (hr : (config.node? u).isSome = true) :
      Treated e k config d j id n s [.rewire]

theorem Treated.keeps {hs : List Hook} (h : Treated e k config d j id n s hs)
    (hw : (s'.node? n).map (·.dispatch) = (s.node? n).map (·.dispatch)) : Treated e k config d j id n s' hs := by
  cases h with
  | passed h hw' => exact .passed h (hw.trans hw')
  | rewired hj hm hr hw' =>
    have htoWires := congrArg (Option.map Dispatch.toWires) hw
    rw [Option.map_map, Option.map_map] at htoWires
    exact .rewired hj hm hr (htoWires.trans hw')
  | within hj hi hm hr => exact .within hj hi hm hr

/-- The application of a configuration treats the nodes that stay as it should. -/
theorem treated_apply (hr : Regular k e) (hnodup : d.rewired.Nodup) (hp : Placed t) (hg : Grows e t) (hd : Dwindles e t)
    (hs : Spares (e.Stays k d) e t) (hn : e.activeKey? j id = some n) (hdist : ¬e.Disturbed k d j id) :
    Treated e k config d j id n ((onlyRewired d).foldl (rewireOne k config) t)
      (lifecycle n (callsAlong (rewireOne k config) (rewireOneCalls k config) t (onlyRewired d))) := by
  obtain ⟨old, hl⟩ := hr.laid
  have hstays := stays hn hdist
  have hnt : t.activeKey? j id = some n := (hs.active j id hstays).trans hn
  have hnodup' : (onlyRewired d).Nodup := hnodup.filter _
  by_cases hj : j = k
  · subst hj
    have hapart (u : NodeId) : t.instance? j u ≠ some j := fun hi => hr.apart u (hd.inst j u j hi)
    have hdrops : ¬d.Drops id := fun h => hdist (.own h)
    have hhooks := hooksOf_rewire hp hapart hnt hnodup' config
    by_cases hm : id ∈ onlyRewired d ∧ (config.node? id).isSome = true
    · obtain ⟨hm, hc⟩ := hm
      obtain ⟨r, hc⟩ := Option.isSome_iff_exists.mp hc
      rw [if_pos ⟨hm, by rw [hc]; rfl⟩] at hhooks
      rw [lifecycle_of_hooksOf hhooks (by decide)]
      exact .rewired rfl (mem_onlyRewired.mp hm).1 hc (wiring_rewire hp hapart hnt hc hm)
    · rw [if_neg hm] at hhooks
      rw [lifecycle_of_hooksOf hhooks (by decide)]
      refine .passed (fun _ hrew => ?_) ?_
      · cases hc : config.node? id with
        | none => rfl
        | some r => exact absurd ⟨mem_onlyRewired.mpr ⟨hrew, hdrops⟩, by rw [hc]; rfl⟩ hm
      · have hspares : Spares (fun j' id' => j' = j ∧ id' = id) t ((onlyRewired d).foldl (rewireOne j config) t) := by
          refine spares_rewireAll hp (fun u hu hc ⟨_, he⟩ => hm (he ▸ ⟨hu, hc⟩)) fun u _ _ inst hi _ ⟨he, _⟩ => ?_
          exact hapart u (he ▸ hi)
        exact (hspares.wiring j id n ⟨rfl, rfl⟩ hnt).trans (hs.wiring j id n hstays hn)
  · -- only the nodes in the instance of a usage node may be wired anew
    have hinst {u : NodeId} (hi : t.instance? k u = some j) : (e.configured k old).instance? k u = some j :=
      (instance?_configured k old k u).trans (hd.inst k u j hi)
    have hbinding (u : NodeId) (hi : t.instance? k u = some j) : ∃ b, t.binding? j = some b ∧ b.Made := by
      obtain ⟨b, hb⟩ := (hl.isInstance (hinst hi)).binding?
      exact ⟨b, hg.binding? ((binding?_configured k old j).symm.trans hb), hl.made hb⟩
    have hone (u u' : NodeId) (hi : t.instance? k u = some j) (hi' : t.instance? k u' = some j) : u = u' :=
      ((hl.isInstance (hinst hi)).unique (hl.isInstance (hinst hi'))).2
    rcases passes_rewire hp hj hbinding hnt hone hnodup' config with h | ⟨h, u, hu, hi, hc⟩
    · rw [lifecycle_of_hooksOf h.hooks (by decide)]
      exact .passed (fun he => absurd he hj) (h.wiring.trans (hs.wiring j id n hstays hn))
    · rw [lifecycle_of_hooksOf h (by decide)]
      exact .within hj (hd.inst k u j hi) (mem_onlyRewired.mp hu).1 hc

/-! ## Before the configuration is applied -/

/-- What a start that has not been applied yet has left as it was, and what has been called until then. -/
structure Ahead (e : Engine) (key : CallKey) (k : LevelKey) (config : FlowConfig) (d : Diff) (s : Engine) (c : Call)
    (L : List HookCall) : Prop extends Heading key k config (some d) s c where
  placed : Placed s
  grows : Grows e s
  spares : Spares (e.Stays k d) e s
  dwindles : Dwindles e s
  /-- Nothing is out of place before the stop stage. -/
  early : c.stages ≠ [.apply k config (some d)] → Regular k s
  asked : ∀ o ∈ c.waiting.flatMap Stopping.orders, ∃ j id, e.activeKey? j id = some o.node ∧ e.Disturbed k d j id
  elsewhere : ∀ call ∈ L, e.Elsewhere k d call

theorem forall_mem_append {P : HookCall → Prop} (h : ∀ call ∈ L, P call) (h' : ∀ call ∈ K, P call) :
    ∀ call ∈ L ++ K, P call := fun call hm => (List.mem_append.mp hm).elim (h call) (h' call)

/-- Nothing but messages, tasks and calls changes. -/
theorem Ahead.lulls (h : Ahead e key k config d s c L) (hl : Lulls s s') (hh : Heading key k config (some d) s' c')
    (hearly : c'.stages ≠ [.apply k config (some d)] → c.stages ≠ [.apply k config (some d)])
    (hw : c'.waiting ⊆ c.waiting) (hK : ∀ call ∈ K, e.Elsewhere k d call) :
    Ahead e key k config d s' c' (L ++ K) where
  toHeading := hh
  placed := h.placed.lulls hl
  grows := h.grows.trans hl.grows
  spares := h.spares.trans hl.spares
  dwindles := h.dwindles.trans (.of_levels hl.level?)
  early hne := (h.early (hearly hne)).lulls hl
  asked o ho := by
    obtain ⟨stop, hstop, ho⟩ := List.mem_flatMap.mp ho
    exact h.asked o (List.mem_flatMap.mpr ⟨stop, hw hstop, ho⟩)
  elsewhere := forall_mem_append h.elsewhere hK

theorem Ahead.idles (h : Ahead e key k config d s c L) (hi : Idles key s s') (hK : ∀ call ∈ K, e.Elsewhere k d call) :
    Ahead e key k config d s' c (L ++ K) :=
  h.lulls hi.toLulls (h.toHeading.idles hi) id (fun _ hm => hm) hK

/-- Stops begin or go on that spare the nodes which are to stay. -/
theorem Ahead.stops (h : Ahead e key k config d s c L) (hl : Lulls s t) (hst : Stops t m)
    (hs : Spares (e.Stays k d) t m) {stops : List Stopping} (hp : Proceeds m key stops s')
    (hh : Heading key k config (some d) s' c') (ha : c'.stages = [.apply k config (some d)])
    {c₀ : Call} (hc : t.call? key = some c₀) (ho : ∀ o ∈ stops.flatMap Stopping.orders,
      ∃ j id, e.activeKey? j id = some o.node ∧ e.Disturbed k d j id)
    (hK : ∀ call ∈ K, e.Elsewhere k d call) : Ahead e key k config d s' c' (L ++ K) where
  toHeading := hh
  placed := ((h.placed.lulls hl).stops hst).lulls hp.lulls
  grows := h.grows.trans (hl.grows.trans (hst.grows.trans hp.lulls.grows))
  spares := h.spares.trans (hl.spares.trans (hs.trans hp.lulls.spares))
  dwindles := h.dwindles.trans (Dwindles.trans (.of_levels hl.level?)
    ((hst.dwindles_placed (h.placed.lulls hl)).trans (.of_levels hp.lulls.level?)))
  early hne := absurd ha hne
  asked o hm := by
    obtain ⟨c₁, hc₁, -, horders, -⟩ := hp.call_account ((call?_of_shell hst.shell key).trans hc)
    obtain rfl := Option.some.inj (hc₁.symm.trans hh.call)
    exact ho o (horders ▸ hm)
  elsewhere := forall_mem_append h.elsewhere hK

/-- The start has been asked. -/
theorem Ahead.start {agenda : List Action} (h : Ahead e key k config d s c L) (ha : s.agenda = .resume key :: agenda)
    (hw : c.waiting = []) (hst : c.stages = [.start k (some d)]) :
    ∃ c', Ahead e key k config d (Engine.act { s with agenda } (.resume key)) c' (L ++ []) := by
  have hpop : Lulls s { s with agenda } := .pop ha
  have hh := h.toHeading.pop ha
  have hact : Engine.act { s with agenda } (.resume key) = (s.taken key agenda []).runStage key (.start k (some d)) :=
    act_resume h.call hw hst
  rw [hact]
  obtain ⟨c', hc', hw', -, ⟨hnone, -⟩ | ⟨hl, -⟩⟩ := hh.begins hst hw (starts_start (s.taken key agenda []) key k (some d))
  · cases hnone
  · refine ⟨c', h.lulls (hpop.trans hl) hc' (fun _ => ?_) ?_ (by simp)⟩
    · simp [hst]
    · simp [hw']

/-- The stop stage begins. -/
theorem Ahead.stop {agenda : List Action} {ids : List NodeId} {removal : Removal} {given served : List Order}
    (h : Ahead e key k config d s c L) (ha : s.agenda = .resume key :: agenda) (hw : c.waiting = [])
    (hst : c.stages = [.stop [⟨k, some ids, removal⟩], .apply k config (some d)]) (hids : ∀ id ∈ ids, d.Drops id)
    (ho : Opening (s.taken key agenda [.apply k config (some d)]) [⟨k, some ids, removal⟩]
      (beginStops key (s.taken key agenda [.apply k config (some d)], []) [⟨k, some ids, removal⟩]).1
      (beginStops key (s.taken key agenda [.apply k config (some d)], []) [⟨k, some ids, removal⟩]).2 given served) :
    ∃ c', Ahead e key k config d (Engine.act { s with agenda } (.resume key)) c' (L ++ closeCalls served) := by
  have hl : Lulls s (s.taken key agenda [.apply k config (some d)]) := (Lulls.pop ha).trans (.modifyCall _ key _)
  have hcall := call?_taken h.call agenda [.apply k config (some d)]
  have hmid := h.toHeading.lulls hl hcall h.fault h.unended .applies (fun _ => rfl) nofun
  have hact : Engine.act { s with agenda } (.resume key) =
      (s.taken key agenda [.apply k config (some d)]).stopAll key [⟨k, some ids, removal⟩] := act_resume h.call hw hst
  rw [hact, stopAll_eq]
  generalize s.taken key agenda [.apply k config (some d)] = t at *
  have hp := proceeds_afterStops (beginStops key (t, []) [⟨k, some ids, removal⟩]).1 key
    (beginStops key (t, []) [⟨k, some ids, removal⟩]).2
  have hstops : Stops t (beginStops key (t, []) [⟨k, some ids, removal⟩]).1 := stops_beginStops key (t, []) _
  obtain ⟨c', hc', hstages⟩ := hmid.stops hstops hp rfl
  have hdw : Dwindles e t := h.dwindles.trans (.of_levels hl.level?)
  obtain ⟨stop, hcommences⟩ := ho.single
  have hgiven (o : Order) (hm : o ∈ given) : ∃ j id, e.activeKey? j id = some o.node ∧ e.Disturbed k d j id := by
    obtain ⟨j, id, hn, ht⟩ := (hcommences.given o).mp hm
    exact ⟨j, id, hdw.active j id _ hn, disturbed_of_takes hdw hids ht⟩
  have hspares := hcommences.spares.mono fun j id (hk : e.Stays k d j id) removed ht =>
    hk.2 (disturbed_of_takes hdw hids ht)
  have horders := ho.serving.orders
  refine ⟨c', h.stops hl hstops hspares hp hc' hstages hcall (fun o hm => hgiven o ?_)
    (elsewhere_closeCalls fun o hm => hgiven o ?_)⟩
  · exact horders.subset (List.mem_append_right _ hm)
  · exact horders.subset (List.mem_append_left _ hm)

/-- The start goes on with its stops. -/
theorem Ahead.poll {agenda : List Action} {served : List Order} {is is' : List NodeId}
    (h : Ahead e key k config d s c L) (ha : s.agenda = .resume key :: agenda) (hw : c.waiting ≠ [])
    (hserving : Serving ({ s with agenda } : Engine) (pollStops key ({ s with agenda }, []) c.waiting).1
      (c.waiting.flatMap Stopping.orders)
      ((pollStops key ({ s with agenda }, []) c.waiting).2.flatMap Stopping.orders) is is' served) :
    ∃ c', Ahead e key k config d (Engine.act { s with agenda } (.resume key)) c' (L ++ closeCalls served) := by
  have hpop : Lulls s { s with agenda } := .pop ha
  have hh := h.toHeading.pop ha
  rw [act_pollAll agenda h.call hw, pollAll_eq]
  have hp := proceeds_afterStops (pollStops key ({ s with agenda }, []) c.waiting).1 key
    (pollStops key ({ s with agenda }, []) c.waiting).2
  obtain ⟨c', hc', hstages⟩ := hh.stops hserving.stops hp (h.waits hw)
  have hwithin : StopsWithin (fun j id => ¬e.Stays k d j id) ({ s with agenda } : Engine)
      (pollStops key ({ s with agenda }, []) c.waiting).1 := stopsWithin_pollStops key ({ s with agenda }, []) c.waiting
  refine ⟨c', h.stops hpop hserving.stops (hwithin.spares (h.placed.lulls hpop)) hp hc' (hstages.trans (h.waits hw)) h.call
    (fun o hm => h.asked o ?_) (elsewhere_closeCalls fun o hm => h.asked o ?_)⟩
  · exact hserving.orders.subset (List.mem_append_right _ hm)
  · exact hserving.orders.subset (List.mem_append_left _ hm)

/-! ## After the configuration has been applied -/

/-- What a start that has been applied has left as it was, and what has been called until then. -/
structure Past (e : Engine) (key : CallKey) (k : LevelKey) (config : FlowConfig) (d : Diff) (s : Engine) (c : Call)
    (L : List HookCall) : Prop extends Applied key k s c where
  placed : Placed s
  grows : Grows e s
  active : ∀ j id, e.Stays k d j id → s.activeKey? j id = e.activeKey? j id
  inst : ∀ j id, e.Stays k d j id → s.instance? j id = e.instance? j id
  treated : ∀ j id n, e.activeKey? j id = some n → ¬e.Disturbed k d j id →
    Treated e k config d j id n s (lifecycle n L)
  plan : ∀ a ∈ s.plan, Avoids (e.Stays k d) s a
  fresh : ∀ j id n, s.activeKey? j id = some n → e.activeKey? j id = some n ∨ e.nodes.size ≤ n
  starts : ∀ call ∈ L, call.hook = .start → e.nodes.size ≤ call.node

theorem Elsewhere.fresh {call : HookCall} (h : e.Elsewhere k d call) (hs : call.hook = .start) :
    e.nodes.size ≤ call.node := by
  cases h with
  | message => cases hs
  | starts h => exact h
  | closes => cases hs

/-- A step that spares the nodes which are to stay. -/
theorem Past.keeps (h : Past e key k config d s c L) (hp : Placed e) (hs : Spares (e.Stays k d) s s') (hg : Grows s s')
    (happ : Applied key k s' c') (hplaced : Placed s') (hplan : ∀ a ∈ s'.plan, Avoids (e.Stays k d) s' a)
    (hfresh : ∀ j id n, s'.activeKey? j id = some n → s.activeKey? j id = some n ∨ s.nodes.size ≤ n)
    (hK : ∀ call ∈ K, e.Elsewhere k d call) : Past e key k config d s' c' (L ++ K) where
  toApplied := happ
  placed := hplaced
  grows := h.grows.trans hg
  active j id hk := (hs.active j id hk).trans (h.active j id hk)
  inst j id hk := (hs.inst j id hk).trans (h.inst j id hk)
  treated j id n hn hd := by
    have hk := stays hn hd
    rw [lifecycle_append, lifecycle_eq_nil hp hn hd hK, List.append_nil]
    exact (h.treated j id n hn hd).keeps (hs.wiring j id n hk ((h.active j id hk).trans hn))
  plan := hplan
  fresh j id n hn := (hfresh j id n hn).elim (h.fresh j id n) fun hle => .inr (Nat.le_trans h.grows.nodes_le hle)
  starts := forall_mem_append h.starts fun call hm => (hK call hm).fresh

theorem Past.lulls (h : Past e key k config d s c L) (hp : Placed e) (hl : Lulls s s') (happ : Applied key k s' c')
    (hK : ∀ call ∈ K, e.Elsewhere k d call) : Past e key k config d s' c' (L ++ K) := by
  refine h.keeps hp hl.spares hl.grows happ (h.placed.lulls hl) (fun a hm => ?_) (fun j id n hn => .inl ?_) hK
  · rcases hl.plan a hm with hm | ⟨j, rfl⟩
    · exact hl.spares.avoids (h.plan a hm)
    · trivial
  · rwa [activeKey?, hl.level?] at hn

/-- Nodes are made. -/
theorem Past.makes (h : Past e key k config d s c L) (hp : Placed e) {a : Action} {agenda : List Action}
    (ha : s.agenda = a :: agenda) (hm : a.makes = true) (hK : ∀ call ∈ K, e.Elsewhere k d call) :
    Past e key k config d (Engine.act { s with agenda } a) c (L ++ K) := by
  have hpop : Spares (e.Stays k d) s { s with agenda } := .of_nodes (fun _ => rfl) fun _ => rfl
  have hplaced : Placed { s with agenda } := h.placed
  have hgrows : Grows s { s with agenda } := .of_eq rfl rfl rfl rfl
  have hne (j : CallKey) : a ≠ .resume j := by
    rintro rfl
    cases hm
  have hkeeps : KeepsPlaces s { s with agenda } := .of_level? fun _ => rfl
  have happ : Applied key k (Engine.act { s with agenda } a) c := h.toApplied.keeps (hkeeps.trans (keepsPlaces_act hne))
    (call?_of_calls (calls_of_register (register_act (e := { s with agenda }) hne)) key)
  obtain ⟨hspares, hplan⟩ := spares_makes hplaced (h.grows.not_stays (s := s))
    (hpop.avoids (h.plan a (mem_plan_of_makes ha hm))) hm
  refine h.keeps hp (hpop.trans hspares) (hgrows.trans (grows_makes hm)) happ (hplaced.makes hm) (fun b hb => ?_)
    (fun j id n hn => ?_) hK
  · rcases hplan b hb with hb | hb
    · exact (hpop.trans hspares).avoids (h.plan b (mem_plan_pop ha hb))
    · exact hb
  · exact (activeKey?_makes (e := { s with agenda }) hm hn).imp_right fun he => Nat.le_of_eq he.symm

/-- The configuration is applied. -/
theorem Ahead.apply {agenda : List Action} (h : Ahead e key k config d s c L) (hp : Placed e) (hr : Regular k e)
    (hconfig : config.Sound) (hnodup : d.rewired.Nodup) (ha : s.agenda = .resume key :: agenda) (hw : c.waiting = [])
    (hst : c.stages = [.apply k config (some d)]) :
    ∃ c', Past e key k config d (Engine.act { s with agenda } (.resume key)) c'
      (L ++ (s.taken key agenda []).stageCalls (.apply k config (some d))) := by
  have hpop : Lulls s { s with agenda } := .pop ha
  have hh := h.toHeading.pop ha
  have hl : Lulls s (s.taken key agenda []) := hpop.trans (.modifyCall _ key _)
  have hact : Engine.act { s with agenda } (.resume key) = (s.taken key agenda []).apply key k config (some d) :=
    act_resume h.call hw hst
  have happlies := applies_apply (s.taken key agenda []) key k config (some d)
  obtain ⟨c', happ, -⟩ := hh.applies hconfig hw happlies
  obtain ⟨-, order, -, he⟩ := hh.activates hconfig happlies
  change (s.taken key agenda []).apply key k config (some d) = (((s.taken key agenda []).rewired k config (some d)).push
    [.announce k, .resume key]).activated k config order at he
  have hplans : ∀ a ∈ (s.taken key agenda []).plan, ∃ j, a = .resume j := fun a hm => hh.plan a hm
  have hplaced := h.placed.lulls hl
  have hgrows := h.grows.trans hl.grows
  have hspares := h.spares.trans hl.spares
  have hdw : Dwindles e (s.taken key agenda []) := h.dwindles.trans (.of_levels hl.level?)
  rw [hact]
  generalize s.taken key agenda [] = t at *
  have htreated {j : LevelKey} {id : NodeId} {n : NodeKey} (hn : e.activeKey? j id = some n)
      (hd : ¬e.Disturbed k d j id) : Treated e k config d j id n ((onlyRewired d).foldl (rewireOne k config) t)
        (lifecycle n (callsAlong (rewireOne k config) (rewireOneCalls k config) t (onlyRewired d))) :=
    treated_apply hr hnodup hplaced hgrows hdw hspares hn hd
  have hrewires := rewires_rewire t k config d
  rw [rewire_eq] at hrewires
  have hphase : StopsWithin (fun _ _ => False) ((onlyRewired d).foldl (rewireOne k config) t)
      (t.rewired k config (some d)) := StopsWithin.single (.phase k .started)
  have hstarted : Placed (t.rewired k config (some d)) := (hplaced.rewires hrewires).stops hphase
  have hlater : Spares (fun _ _ => True) ((onlyRewired d).foldl (rewireOne k config) t)
      (t.apply key k config (some d)) := by
    rw [he]
    have hspares : Spares (fun _ _ => True) (t.rewired k config (some d))
        ((t.rewired k config (some d)).push [.announce k, .resume key]) := .of_nodes (fun _ => rfl) fun _ => rfl
    exact ((hphase.mono fun _ _ h => h.elim).spares (hplaced.rewires hrewires)).trans
      (hspares.trans (spares_activated _ _ _ _))
  have hactive (j : LevelKey) (id : NodeId) : (t.apply key k config (some d)).activeKey? j id = t.activeKey? j id :=
    (hlater.active j id trivial).trans (hrewires.entries j id).1
  have hkept {j : LevelKey} {id : NodeId} (hk : e.Stays k d j id) :
      (t.apply key k config (some d)).activeKey? j id = e.activeKey? j id := (hactive j id).trans (hspares.active j id hk)
  refine ⟨c', happ, ?_, ?_, fun j id hk => hkept hk, fun j id hk => ?_, fun j id n hn hd => ?_, fun a hm => ?_,
    fun j id n hn => .inl ?_, ?_⟩
  · rw [he]
    have hpushed : Placed ((t.rewired k config (some d)).push [.announce k, .resume key]) := hstarted
    exact hpushed.activated _ _ _
  · rw [he]
    have hpushed : Grows (t.rewired k config (some d)) ((t.rewired k config (some d)).push [.announce k, .resume key]) :=
      .of_eq rfl rfl rfl rfl
    exact hgrows.trans (hrewires.grows.trans (hphase.stops.grows.trans (hpushed.trans (grows_activated _ _ _ _))))
  · exact (hlater.inst j id trivial).trans ((hrewires.entries j id).2.trans (hspares.inst j id hk))
  · have hk := stays hn hd
    rw [lifecycle_append, lifecycle_eq_nil hp hn hd h.elsewhere, List.nil_append]
    exact (htreated hn hd).keeps (hlater.wiring j id n trivial
      ((hrewires.entries j id).1.trans ((hspares.active j id hk).trans hn)))
  · have hplan : a ∈ creations k config order ++ [.refresh k] ∨ ∃ j, a = .resume j := by
      rw [he, plan_activated, plan_push] at hm
      rcases List.mem_append.mp hm with hm | hm
      · exact .inl hm
      rcases List.mem_append.mp hm with hm | hm
      · exact .inr ⟨key, by simpa [Action.isQuiet] using hm⟩
      · exact .inr (hplans a (plan_rewired_subset t k config d hm))
    rcases hplan with hm | ⟨j, rfl⟩
    · rcases List.mem_append.mp hm with hm | hm
      · obtain ⟨r, -, rfl⟩ := mem_creations hm
        exact fun hk => by rw [hkept hk]; exact hk.1
      · obtain rfl := List.mem_singleton.mp hm
        trivial
    · trivial
  · exact hdw.active j id n ((hactive j id).symm.trans hn)
  · refine forall_mem_append (fun call hm => (h.elsewhere call hm).fresh) fun call hm hs => ?_
    rw [(stageCalls_active _ call hm).1] at hs
    cases hs

/-! ## Whole runs -/

/-- What a start has left as it was at some moment, and what has been called until then. -/
def Disturbs (e : Engine) (key : CallKey) (k : LevelKey) (config : FlowConfig) (d : Diff) (s : Engine) (c : Call)
    (L : List HookCall) : Prop := Ahead e key k config d s c L ∨ Past e key k config d s c L

/-- The start goes on itself. -/
theorem Ahead.goesOn {agenda : List Action} (h : Ahead e key k config d s c L) (hp : Placed e) (hr : Regular k e)
    (hconfig : config.Sound) (hnodup : d.rewired.Nodup) (ha : s.agenda = .resume key :: agenda) (hK : Calls s s' K) :
    ∃ c', Disturbs e key k config d s' c' (L ++ K) := by
  have hcall {key' : CallKey} {agenda' : List Action} {c' : Call} (ha' : s.agenda = .resume key' :: agenda')
      (hc' : s.call? key' = some c') : key' = key ∧ agenda' = agenda ∧ c' = c := by
    rw [ha] at ha'
    cases ha'
    exact ⟨rfl, rfl, Option.some.inj (hc'.symm.trans h.call)⟩
  have hleads := h.leads
  cases hK with
  | between hidle =>
    rw [ha] at hidle
    cases hidle
  | time moment he =>
    have hsame : s' = s := by
      rw [he, moveTo, ha]
      rfl
    rw [hsame, List.append_nil]
    exact ⟨c, .inl h⟩
  | acts ha' hne =>
    rw [ha] at ha'
    cases ha'
    exact absurd rfl (hne key)
  | rests ha' hc' =>
    rw [ha] at ha'
    cases ha'
    rw [(hc' c h.call).2] at hleads
    cases hleads
  | @stage _ _ _ stage stages ha' hc' hw hst hrq he =>
    obtain ⟨rfl, rfl, rfl⟩ := hcall ha' hc'
    subst he
    rw [hst] at hleads
    cases hleads with
    | asked => exact (h.start ha hw hst).imp fun _ h => .inl h
    | stops => cases hrq
    | applies => exact (h.apply hp hr hconfig hnodup ha hw hst).imp fun _ h => .inr h
  | @begins _ _ _ stage stages requests given served ha' hc' hw hst hrq ho he =>
    obtain ⟨rfl, rfl, rfl⟩ := hcall ha' hc'
    subst he
    rw [hst] at hleads
    cases hleads with
    | asked => cases hrq
    | stops ids removal hids =>
      cases hrq
      refine (h.stop ha hw hst (fun id hid => ?_) ho).imp fun _ h => .inl h
      obtain ⟨d', hd', hdrops⟩ := hids id hid
      cases hd'
      exact hdrops
    | applies => cases hrq
  | goesOn ha' hc' hw hserving he =>
    obtain ⟨rfl, rfl, rfl⟩ := hcall ha' hc'
    subst he
    exact (h.poll ha hw hserving).imp fun _ h => .inl h

/-- One step of the engine after the application. -/
theorem Past.tick (h : Past e key k config d s c L) (hp : Placed e) (hs : Solo s key) (ht : Tick s s')
    (hK : Calls s s' K) : ∃ c', Past e key k config d s' c' (L ++ K) := by
  have hcalls : ∀ call ∈ K, e.Elsewhere k d call := by
    refine hK.elsewhere hs h.grows.nodes_le fun _ c' _ hc' => ?_
    obtain rfl := Option.some.inj (hc'.symm.trans h.call)
    exact ⟨h.stages, h.waiting⟩
  cases (hs.tick ht).2 with
  | idles hi => exact ⟨c, h.lulls hp hi.toLulls (h.toApplied.keeps (.of_level? hi.level?) hi.call) hcalls⟩
  | makes _ ha hm => exact ⟨c, h.makes hp ha hm hcalls⟩
  | @resumes agenda _ _ ha hres =>
    have hpop : Lulls s { s with agenda } := .pop ha
    have happ : Applied key k { s with agenda } c := h.toApplied.keeps (.of_level? hpop.level?) rfl
    obtain ⟨c', happ', hl, -⟩ := happ.resumes hres
    exact ⟨c', h.lulls hp (hpop.trans hl) happ' hcalls⟩

/-- One step of the engine. -/
theorem Disturbs.tick (h : Disturbs e key k config d s c L) (hp : Placed e) (hr : Regular k e) (hconfig : config.Sound)
    (hnodup : d.rewired.Nodup) (hs : Solo s key) (ht : Tick s s') (hK : Calls s s' K) :
    ∃ c', Disturbs e key k config d s' c' (L ++ K) := by
  rcases h with h | h
  · by_cases hres : ∃ agenda, s.agenda = .resume key :: agenda
    · obtain ⟨agenda, ha⟩ := hres
      exact h.goesOn hp hr hconfig hnodup ha hK
    · have hne (agenda : List Action) : s.agenda ≠ .resume key :: agenda := fun ha => hres ⟨agenda, ha⟩
      exact ⟨c, .inl (h.idles ((hs.tick ht).2.idle hne h.plan)
        (hK.elsewhere hs h.grows.nodes_le fun agenda _ ha _ => absurd ha (hne agenda)))⟩
  · exact (h.tick hp hs ht hK).imp fun _ h => .inr h

/-- Messages and signals come from outside. -/
theorem Disturbs.quiet (h : Disturbs e key k config d s c L) (hp : Placed e) (hq : Quiet s s') :
    Disturbs e key k config d s' c L := by
  have hi : Idles key s s' := by
    refine ⟨.of_still hq.still (fun a hm => .inl (hq.plan ▸ hm)) fun a hm _ => hq.plan ▸ hm, call?_of_still hq.still key⟩
  rw [← List.append_nil L]
  rcases h with h | h
  · exact .inl (h.idles hi (by simp))
  · exact .inr (h.lulls hp hi.toLulls (h.toApplied.keeps (.of_level? hi.level?) hi.call) (by simp))

/-- Whatever configuration the level has been given, a stop that begins can be accounted for. -/
theorem Regular.exists_opening (hr : Regular k e) (hl : ∃ l, e.level? k = some l) (key : CallKey)
    (requests : List StopRequest) : ∃ given served, Opening e requests (beginStops key (e, []) requests).1
      (beginStops key (e, []) requests).2 given served := by
  obtain ⟨l, hl⟩ := hl
  obtain ⟨old, hlaid, hhoused, -⟩ := hr.restored
  obtain ⟨given, served, ho⟩ := Engine.exists_opening hlaid hhoused key requests
  have hself : (e.configured k old).configured k l.config = e := by
    rw [configured_configured, configured_self hl]
  have hstops := beginStops_configured k l.config key requests (e.configured k old, [])
  have ho' := ho.configured k l.config
  rw [hself] at ho'
  rw [show Prod.map (configured k l.config) id (e.configured k old, ([] : List Stopping)) = (e, []) from
    Prod.ext hself rfl] at hstops
  rw [hstops]
  exact ⟨given, served, ho'⟩

/-- There is a list of what each step calls. -/
theorem Disturbs.calls (h : Disturbs e key k config d s c L) (hs : Solo s key) (ht : Tick s s') :
    ∃ K, Calls s s' K := by
  refine ht.calls_of_opening fun key' agenda c' stage stages requests ha hc hw hst hrq => ?_
  obtain rfl : key' = key := by
    by_contra hne
    have hover := hs key' c' hc hne
    rw [Call.over, hst] at hover
    cases hover
  rcases h with h | h
  · obtain rfl := Option.some.inj (hc.symm.trans h.call)
    have hne : c'.stages ≠ [.apply k config (some d)] := by
      intro happly
      rw [hst] at happly
      cases happly
      cases hrq
    have hl : Lulls s (s.taken key' agenda stages) := (Lulls.pop ha).trans (.modifyCall _ key' _)
    obtain ⟨l, hlevel, -⟩ := h.level
    exact ((h.early hne).lulls hl).exists_opening ⟨l, (hl.level? k).trans hlevel⟩ key' requests
  · obtain rfl := Option.some.inj (hc.symm.trans h.call)
    rw [h.stages] at hst
    cases hst

/-- What comes of an engine of which nothing is asked but to deal with messages and signals, and the hooks that are
called, in their order. -/
inductive LoneTraced (e : Engine) : List HookCall → Engine → Prop
  | refl : LoneTraced e [] e
  | runs {s s' : Engine} {L K : List HookCall} (h : LoneTraced e L s) (ht : Tick s s') (hK : Calls s s' K) :
      LoneTraced e (L ++ K) s'
  | given {s s' : Engine} {L : List HookCall} (h : LoneTraced e L s) (ha : s.agenda = []) (hq : Quiet s s') :
      LoneTraced e L s'

theorem Disturbs.traced {s₀ : Engine} (h : Disturbs e key k config d s₀ c []) (hp : Placed e) (hr : Regular k e)
    (hconfig : config.Sound) (hnodup : d.rewired.Nodup) (hs : Solo s₀ key) (ht : LoneTraced s₀ L s) :
    Solo s key ∧ ∃ c', Disturbs e key k config d s c' L := by
  induction ht with
  | refl => exact ⟨hs, c, h⟩
  | runs _ ht hK ih =>
    obtain ⟨hs, c', h⟩ := ih
    exact ⟨(hs.tick ht).1, h.tick hp hr hconfig hnodup hs ht hK⟩
  | given _ _ hq ih =>
    obtain ⟨hs, c', h⟩ := ih
    exact ⟨fun j c hj => hs j c ((call?_of_still hq.still j).symm.trans hj), c', h.quiet hp hq⟩

/-! ## The beginning -/

theorem disturbs_begin {l : Level} (hp : Placed e) (hr : Regular k e) (hrest : AtRest e) (hk : KeysBelow e)
    (hl : e.level? k = some l) (hd : ¬l.Refuses (some d)) :
    ∃ c, Disturbs e e.nextCall k l.config d (e.begin [.start k (some d)]).1 c [] := by
  have hlevel (j : LevelKey) := level?_begin e [.start k (some d)] j
  have hgrows : Grows e (e.begin [.start k (some d)]).1 := by
    refine .of_eq ?_ ?_ ?_ ?_ <;> rw [untouched_begin]
    rfl
  refine ⟨_, .inl ⟨heading_begin hr hrest hk hl hd, hp.of_levels hgrows hlevel, hgrows, .of_nodes hlevel fun n => ?_,
    .of_levels hlevel, fun _ => hr.begin _, ?_, by simp⟩⟩
  · rw [node?_begin]
  · simp [Call.make]

/-- What has become of a node that a start is to leave in its place. -/
structure Spared (e : Engine) (k : LevelKey) (config : FlowConfig) (d : Diff) (s : Engine) (c : Call) (L : List HookCall)
    (j : LevelKey) (id : NodeId) (n : NodeKey) : Prop where
  active : s.activeKey? j id = some n
  inst : s.instance? j id = e.instance? j id
  face : (s.node? n).map Node.face = (e.node? n).map Node.face
  treated : Treated e k config d j id n s (lifecycle n L) ∨ c.ended = none ∧ lifecycle n L = [] ∧
    (s.node? n).map (·.dispatch) = (e.node? n).map (·.dispatch)

theorem Grows.face (h : Grows e s) {node : Node} (hn : e.node? n = some node) :
    (s.node? n).map Node.face = (e.node? n).map Node.face := by
  obtain ⟨node', hn', hkin⟩ := h.node n node hn
  rw [hn, hn', Option.map_some, Option.map_some, Node.face, Node.face, hkin.record, hkin.level, hkin.part]

theorem Disturbs.spared (h : Disturbs e key k config d s c L) (hp : Placed e) (hn : e.activeKey? j id = some n)
    (hd : ¬e.Disturbed k d j id) : Spared e k config d s c L j id n := by
  obtain ⟨node, hnode, -⟩ := hp.node hn
  have hk := stays hn hd
  rcases h with h | h
  · exact ⟨(h.spares.active j id hk).trans hn, h.spares.inst j id hk, h.grows.face hnode,
      .inr ⟨h.unended, lifecycle_eq_nil hp hn hd h.elsewhere, h.spares.wiring j id n hk hn⟩⟩
  · exact ⟨(h.active j id hk).trans hn, h.inst j id hk, h.grows.face hnode, .inl (h.treated j id n hn hd)⟩

theorem Disturbs.call (h : Disturbs e key k config d s c L) : s.call? key = some c ∧ c.fault = none :=
  h.elim (fun h => ⟨h.call, h.fault⟩) fun h => ⟨h.call, h.fault⟩

/-- Whoever comes is counted on from the nodes that have been there. -/
theorem Disturbs.fresh (h : Disturbs e key k config d s c L) :
    (∀ call ∈ L, call.hook = .start → e.nodes.size ≤ call.node) ∧
      ∀ j id n, s.activeKey? j id = some n → e.activeKey? j id = some n ∨ e.nodes.size ≤ n := by
  rcases h with h | h
  · exact ⟨fun call hm => (h.elsewhere call hm).fresh, fun j id n hn => .inl (h.dwindles.active j id n hn)⟩
  · exact ⟨h.starts, h.fresh⟩

end Engine

namespace Session
open Engine

variable {s : Session} {e : Engine} {k : LevelKey} {l : Level}

/-- A start disturbs only what its diff names. Whatever configuration a flow has been given, if the start with a diff is
not refused, every node that is active before stays in its place unless the diff has it go, or has a usage node go in
whose instance it is. At every moment of the start, however it is interleaved with messages, tasks and timers, it is
the same node, of the same instance, and nothing has been called on it but the hooks of messages, and its rewire hook
once: if the node is one of the flow, that is called exactly if the diff has it rewired and it is still in the
configuration, whose wiring it has then. And whoever is made gets a key above those of all nodes before. -/
theorem start_disturbs_only_named (h : Reachable e) (hrest : AtRest e) (hl : e.level? k = some l) {config : FlowConfig}
    (hs : s.engine = e.configured k config) {d : Diff} (hd : ¬({ l with config } : Level).Refuses (some d))
    (hnodup : d.rewired.Nodup) :
    (∀ id, s.engine.Disturbed k d k id ↔ id ∈ d.changed ∨ id ∈ d.removed) ∧
    (∀ u i j id, s.engine.instance? k u = some i → s.engine.Inside i j →
      (s.engine.Disturbed k d j id ↔ u ∈ d.changed ∨ u ∈ d.removed)) ∧
    (s.start k (some d)).1 = .ok () ∧
    (∃ L, LoneTraced (s.engine.begin [.start k (some d)]).1 L (s.start k (some d)).2.engine) ∧
    ∀ L e', LoneTraced (s.engine.begin [.start k (some d)]).1 L e' →
      (∀ e'', Tick e' e'' → ∃ K, Calls e' e'' K) ∧
      ∃ c, e'.call? s.engine.nextCall = some c ∧ c.fault = none ∧
        (∀ j id n, s.engine.activeKey? j id = some n → ¬s.engine.Disturbed k d j id →
          Spared s.engine k config d e' c L j id n) ∧
        (∀ call ∈ L, call.hook = .start → s.engine.nodes.size ≤ call.node) ∧
        ∀ j id n, e'.activeKey? j id = some n → s.engine.activeKey? j id = some n ∨ s.engine.nodes.size ≤ n := by
  have hregular : Regular k s.engine := hs ▸ h.regular hl config
  have hplaced : Placed s.engine := hs ▸ .configured k config h.layout.laid.placed
  have hlevel : s.engine.level? k = some { l with config } := by
    rw [hs, level?_configured, hl, Option.map_some, if_pos rfl]
  have hkeys : KeysBelow s.engine := hs ▸ h.keysBelow
  have hrest' : AtRest s.engine := hs ▸ ⟨hrest.unbroken, hrest.idle, hrest.calls⟩
  have hsound : config.Sound := sound_of_not_refuses hd
  have hsolo := hrest'.solo hkeys [.start k (some d)]
  obtain ⟨c₀, hbegin⟩ := disturbs_begin hplaced hregular hrest' hkeys hlevel hd
  have htraced {L : List HookCall} {e' : Engine} (ht : LoneTraced (s.engine.begin [.start k (some d)]).1 L e') :=
    hbegin.traced hplaced hregular hsound hnodup hsolo ht
  obtain ⟨L, ht⟩ : ∃ L, LoneTraced (s.engine.begin [.start k (some d)]).1 L (s.engine.complete [.start k (some d)]).1 := by
    refine (reach_complete s.engine [.start k (some d)]).invariant
      (P := fun e' => ∃ L, LoneTraced (s.engine.begin [.start k (some d)]).1 L e') (fun e' e'' ⟨L, ht⟩ htick => ?_)
      ⟨[], .refl⟩
    obtain ⟨hsolo', c, hdist⟩ := htraced ht
    obtain ⟨K, hK⟩ := hdist.calls hsolo' htick
    exact ⟨_, ht.runs htick hK⟩
  refine ⟨fun id => hregular.disturbed_own, fun u i j id hi hin => hregular.disturbed_inner hi hin, ?_, ⟨L, ht⟩,
    fun L e' ht => ?_⟩
  · obtain ⟨-, c, hdist⟩ := htraced ht
    have hstart : (s.start k (some d)).1 = outcome (((s.engine.complete [.start k (some d)]).1.call?
      s.engine.nextCall).getD (.make [] (s.engine.complete [.start k (some d)]).1.now)) := rfl
    rw [hstart, hdist.call.1, Option.getD_some, outcome, hdist.call.2]
  · obtain ⟨hsolo', c, hdist⟩ := htraced ht
    exact ⟨fun e'' htick => hdist.calls hsolo' htick, c, hdist.call.1, hdist.call.2,
      fun j id n hn hd => hdist.spared hplaced hn hd, hdist.fresh⟩

/-- The old target is to come back as another node, and the usage node is wired to the new one. -/
def oldAnew : Diff := ⟨[], ["old"], [], ["u"], []⟩

/-- The tab before the start, and what the start comes to. -/
theorem oldAnew_run :
    (AtRest nestedFlow.engine ∧ ((nestedFlow.engine.level? 0).map fun l =>
      (checkStart { l with config := nestedConfig "new" } (some oldAnew)).isOk) = some true) ∧
    (renewedFlow.engine.instance? 0 "u" = some 1 ∧ renewedFlow.engine.activeKey? 0 "u" = some 6 ∧
      renewedFlow.engine.activeKey? 0 "new" = some 1 ∧
      ((renewedFlow.engine.node? 4).bind fun node => renewedFlow.engine.activeKey? 1 node.id) = some 4) ∧
    ((renewedFlow.start 0 (some oldAnew)).2.engine.call? renewedFlow.engine.nextCall).map (·.ended.isSome) = some true ∧
    (((nestedConfig "new").node? "u").map (·.outputs) = some [["new"]] ∧ "new" ∉ oldAnew.rewired) ∧
    ((renewedFlow.start 0 (some oldAnew)).2.engine.activeKey? 0 "old").any (7 ≤ ·) = true := by
  decide +kernel

/-- The usage node stays with its instance and is wired anew, once. Nothing is called on the new target, and at most the
rewire hook on a node of the instance. The old target has been replaced. -/
theorem start_spares_usage_node : (renewedFlow.start 0 (some oldAnew)).1 = .ok () ∧
    ∃ L, LoneTraced (renewedFlow.engine.begin [.start 0 (some oldAnew)]).1 L
        (renewedFlow.start 0 (some oldAnew)).2.engine ∧
      ((renewedFlow.start 0 (some oldAnew)).2.engine.activeKey? 0 "u" = some 6 ∧
        (renewedFlow.start 0 (some oldAnew)).2.engine.instance? 0 "u" = some 1 ∧ lifecycle 6 L = [.rewire] ∧
        ((renewedFlow.start 0 (some oldAnew)).2.engine.node? 6).map (·.dispatch.toWires) = some [["new"]]) ∧
      lifecycle 1 L = [] ∧
      (∃ id, (renewedFlow.start 0 (some oldAnew)).2.engine.activeKey? 1 id = some 4 ∧
        (lifecycle 4 L = [] ∨ lifecycle 4 L = [.rewire])) ∧
      ∃ n, (renewedFlow.start 0 (some oldAnew)).2.engine.activeKey? 0 "old" = some n ∧ 7 ≤ n := by
  obtain ⟨⟨hrest, hcheck⟩, ⟨hi, hu, hnew, hin⟩, hended, ⟨hwires, hnot⟩, hanew⟩ := oldAnew_run
  obtain ⟨l, hl, hok⟩ := Option.map_eq_some_iff.mp hcheck
  have hd : ¬({ l with config := nestedConfig "new" } : Level).Refuses (some oldAnew) := not_refuses_of_isOk hok
  obtain ⟨hown, hinner, hresult, ⟨L, hL⟩, hall⟩ :=
    start_disturbs_only_named reachable_nestedFlow hrest hl (s := renewedFlow) rfl hd (by decide)
  obtain ⟨-, c, hc, -, hspared, -, -⟩ := hall L _ hL
  have hover : c.ended ≠ none := by
    rw [hc] at hended
    intro hnone
    rw [Option.map_some, hnone] at hended
    cases hended
  have hstays {id : NodeId} (h : id ≠ "old") : ¬renewedFlow.engine.Disturbed 0 oldAnew 0 id := by
    rw [hown]
    simp [oldAnew, h]
  have hsu := hspared 0 "u" 6 hu (hstays (by decide))
  have hsn := hspared 0 "new" 1 hnew (hstays (by decide))
  obtain ⟨node, -, ha⟩ := Option.bind_eq_some_iff.mp hin
  have hs4 := hspared 1 node.id 4 ha (by
    rw [hinner "u" 1 1 node.id hi .here]
    decide)
  obtain ⟨n, hn, hle⟩ := (Option.any_eq_true _ _).mp hanew
  refine ⟨hresult, L, hL, ⟨hsu.active, hsu.inst.trans hi, ?_⟩, ?_, ⟨node.id, hs4.active, ?_⟩, n, hn, of_decide_eq_true hle⟩
  · have ht := hsu.treated.resolve_right fun h => hover h.1
    generalize lifecycle 6 L = hs at ht
    cases ht with
    | passed h =>
      rw [h rfl (by decide)] at hwires
      cases hwires
    | rewired _ _ hr hw =>
      rw [hr] at hwires
      exact ⟨rfl, hw.trans hwires⟩
    | within hj => exact absurd rfl hj
  · have ht := hsn.treated.resolve_right fun h => hover h.1
    generalize lifecycle 1 L = hs at ht
    cases ht with
    | passed => rfl
    | rewired _ hm => exact absurd hm hnot
    | within hj => exact absurd rfl hj
  · have ht := hs4.treated.resolve_right fun h => hover h.1
    generalize lifecycle 4 L = hs at ht
    cases ht with
    | passed => exact .inl rfl
    | rewired hj => cases hj
    | within => exact .inr rfl

end Session
end Flowgraph
