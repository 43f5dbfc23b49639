import Flowgraph.Kind.Probe
import Flowgraph.Proofs.Usage
import Flowgraph.Proofs.Refusals
/-! The start that rewires a usage node in place. Its instance gets the wiring of a new one, but the instances
inside that one keep theirs, whatever the new wiring makes of the usage nodes they belong to. -/
namespace Flowgraph.Engine

variable {e e' e'' : Engine} {i j k inst : LevelKey} {u : NodeId} {outer : Wires}

/-! ## The start that rewires it -/

section Start

variable {e₀ : Engine} {key : CallKey} {n : NodeKey} {r : Record} {b : Binding} {config : FlowConfig} {diff : Diff}
  {c : Call}

/-- A start that has still to apply a configuration to a flow. -/
inductive Awaits (k : LevelKey) (u : NodeId) (config : FlowConfig) (diff : Diff) (c : Call) : Prop
  | start (hs : c.stages = [.start k (some diff)]) (hw : c.waiting = [])
  | stop {stale : List NodeId} (hu : u ∉ stale)
      (hs : c.stages = [.stop [⟨k, some stale, .ids diff.removed⟩], .apply k config (some diff)])
      (hw : c.waiting = [])
  | apply (hs : c.stages = [.apply k config (some diff)])

/-- Nothing that belongs to the usage node has been touched yet. -/
structure Before (e₀ : Engine) (key : CallKey) (k : LevelKey) (u : NodeId) (inst : LevelKey) (config : FlowConfig)
    (diff : Diff) (e : Engine) : Prop where
  spares : Spares (Using.Holds e₀ k u inst) e₀ e
  configured : e.config? k = some config
  plan : ∀ a ∈ e.plan, ∃ j, a = .resume j
  call : ∃ c, e.call? key = some c ∧ c.ended = none ∧ Awaits k u config diff c

/-- The engine broke when the usage node was to be rewired. -/
structure Stuck (key : CallKey) (e : Engine) : Prop where
  broken : e.broken = true
  call : ∃ c, e.call? key = some c ∧ c.ended = none

/-- The usage node has been rewired, and nodes that are missing are made. -/
structure After (e₀ : Engine) (key : CallKey) (k : LevelKey) (u : NodeId) (inst : LevelKey) (n : NodeKey)
    (r : Record) (b : Binding) (e : Engine) : Prop where
  anew : ∃ nodes, b.expand? r.outputs = some nodes ∧ Anew e₀ k u inst n r.outputs nodes e
  plan : ∀ a ∈ e.plan, Avoids (Using.Holds e₀ k u inst) e a
  call : ∃ c, e.call? key = some c ∧ c.stages = [] ∧ c.waiting = []

theorem Before.lulls (h : Before e₀ key k u inst config diff e) (hl : Lulls e e')
    (hc : ∃ c, e'.call? key = some c ∧ c.ended = none ∧ Awaits k u config diff c) :
    Before e₀ key k u inst config diff e' := by
  refine ⟨h.spares.trans hl.spares, (KeepsConfigs.of_level? hl.level?) _ _ h.configured, fun a ha => ?_, hc⟩
  rcases hl.plan a ha with ha | ha
  · exact h.plan a ha
  · exact ha

/-- The stop of what a diff makes stale leaves a usage node alone that is only rewired. -/
theorem stops_stale (hu : Using e₀ k u inst) (hg : Grows e₀ e) (hl : Laid e) {stale : List NodeId} (hs : u ∉ stale)
    (removal : Removal) : StopsWithin (fun j id => ¬Using.Holds e₀ k u inst j id) e
      (beginStops key (e, []) [⟨k, some stale, removal⟩]).1 := by
  refine stopsWithin_beginStop key (e.levelCount + 1) e ⟨k, some stale, removal⟩ (hu.closed hg hl)
    fun l hlevel n hn node hnode hh => hs ?_
  unfold stopTargets at hn
  rw [List.mem_mergeSort] at hn
  obtain ⟨id, hid, hget⟩ := List.mem_filterMap.mp hn
  obtain ⟨node', hnode', -, rfl⟩ := (hl k l hlevel).active id n hget
  obtain rfl := Option.some.inj (hnode.symm.trans hnode')
  have he := hu.eq_of_holds hh
  rw [he] at hid
  exact List.mem_eraseDups.mp hid

theorem Before.stops (h : Before e₀ key k u inst config diff e) (hl : Laid e)
    (hs : StopsWithin (fun j id => ¬Using.Holds e₀ k u inst j id) e e') {stops : List Stopping}
    (hp : Proceeds e' key stops e'') (hc : e.call? key = some c) (he : c.ended = none)
    (ha : c.stages = [.apply k config (some diff)]) : Before e₀ key k u inst config diff e'' := by
  have hc' : e'.call? key = some c := (call?_of_shell (Stops.shell hs.stops) key).trans hc
  have hb : Before e₀ key k u inst config diff e' := by
    refine ⟨h.spares.trans (hs.spares hl.placed), (Stops.keepsConfigs hs.stops) _ _ h.configured, fun a hm => h.plan a ?_,
      c, hc', he, .apply ha⟩
    unfold Engine.plan at *
    rwa [Stops.agenda hs.stops] at hm
  obtain ⟨waiting, report, hcall⟩ := hp.call hc'
  exact hb.lulls hp.lulls ⟨_, hcall, he, .apply ha⟩

theorem plan_rewired_subset (e : Engine) (k : LevelKey) (config : FlowConfig) (diff : Diff) {a : Action}
    (ha : a ∈ (e.rewired k config (some diff)).plan) : a ∈ e.plan := by
  have hm : a ∈ (e.rewire k config diff).plan := ha
  unfold Engine.plan at *
  rcases (rewires_rewire e k config diff).frame.2 with hf | hf
  · rwa [hf] at hm
  · rw [hf] at hm
    cases hm

/-- The application rewires the usage node, unless a port number is out of range. -/
theorem rewired_usage (hu : Using e₀ k u inst) (hn : e₀.activeKey? k u = some n) (hr : config.node? u = some r)
    (hb : e₀.binding? inst = some b) (hd : u ∈ onlyRewired diff) (hg : Grows e₀ e) (hl : Laid e)
    (hs : Spares (Using.Holds e₀ k u inst) e₀ e) :
    (e.rewired k config (some diff)).broken = true ∨ ∃ nodes, b.expand? r.outputs = some nodes ∧
      Anew e₀ k u inst n r.outputs nodes (e.rewired k config (some diff)) := by
  have hund : Unmoved e₀ k u inst e := (Unmoved.refl e₀).spares hs
  cases hx : b.expand? r.outputs with
  | none =>
    refine .inl (breaks_rewireAll ((hund.active k u (.inl ⟨rfl, rfl⟩)).trans hn) ?_ hr (hg.binding? hb) hx hd)
    exact (hund.instances k u (.inl ⟨rfl, rfl⟩)).trans hu.inst
  | some nodes =>
    have ha := anew_rewireAll hu hn hr hb hx (onlyRewired diff) hg hl hund (.inl hd)
    rw [← rewire_eq] at ha
    exact .inr ⟨nodes, rfl, ha.spares hn (.modifyLevel _ (fun _ _ _ _ => rfl) fun _ _ _ _ => rfl)⟩

theorem applies_usage (hu : Using e₀ k u inst) (hn : e₀.activeKey? k u = some n) (hr : config.node? u = some r)
    (hb : e₀.binding? inst = some b) (hd : u ∈ onlyRewired diff) (hg : Grows e₀ e) (hl : Laid e)
    (hs : Spares (Using.Holds e₀ k u inst) e₀ e) (hp : ∀ a ∈ e.plan, ∃ j, a = .resume j)
    (hc : e.call? key = some c) (hst : c.stages = []) (hw : c.waiting = []) (he : c.ended = none)
    (ha : Applies e key k config (some diff) e') (hf : ∀ c, e'.call? key = some c → c.fault = none) :
    Stuck key e' ∨ After e₀ key k u inst n r b e' := by
  have hc' : (e.rewired k config (some diff)).call? key = some c :=
    (call?_of_calls (calls_rewired e k config (some diff)) key).trans hc
  have hrew := rewired_usage hu hn hr hb hd hg hl hs
  have hplan {a : Action} (hm : a ∈ ((e.rewired k config (some diff)).push [.announce k, .resume key]).plan) :
      ∃ j, a = .resume j := by
    rw [plan_push] at hm
    rcases List.mem_append.mp hm with hm | hm
    · simp [Action.isQuiet] at hm
      exact ⟨key, hm⟩
    · exact hp a (plan_rewired_subset e k config diff hm)
  cases ha with
  | nowhere =>
    rcases hrew with hbr | ⟨nodes, hx, ha⟩
    · exact .inl ⟨hbr, c, hc', he⟩
    · refine .inr ⟨⟨nodes, hx, ha.spares hn (.of_nodes (fun _ => rfl) fun _ => rfl)⟩, fun a hm => ?_, c, hc', hst, hw⟩
      obtain ⟨j, rfl⟩ := hplan hm
      trivial
  | @activates l order hlevel ho =>
    have hc'' : (((e.rewired k config (some diff)).push [.announce k, .resume key]).activated k l.config
        order).call? key = some c := by
      rw [call?_activated, call?_push]
      exact hc'
    rcases hrew with hbr | ⟨nodes, hx, ha⟩
    · refine .inl ⟨?_, c, hc'', he⟩
      rw [broken_activated]
      exact hbr
    · have hpush : Anew e₀ k u inst n r.outputs nodes
          ((e.rewired k config (some diff)).push [.announce k, .resume key]) :=
        ha.spares hn (.of_nodes (fun _ => rfl) fun _ => rfl)
      have hact := hpush.spares hn (spares_activated _ k l.config order)
      refine .inr ⟨⟨nodes, hx, hact⟩, fun a hm => ?_, c, hc'', hst, hw⟩
      rw [plan_activated] at hm
      rcases List.mem_append.mp hm with hm | hm
      · rcases List.mem_append.mp hm with hm | hm
        · obtain ⟨r', -, rfl⟩ := mem_creations hm
          intro hh
          obtain rfl := hu.eq_of_holds hh
          rw [hact.active k _ (.inl ⟨rfl, rfl⟩), hn]
          rfl
        · obtain rfl := List.mem_singleton.mp hm
          trivial
      · obtain ⟨j, rfl⟩ := hplan hm
        trivial
  | refused => cases hf _ (call?_refuse hc' _)

/-- The start finds what is stale, which the usage node is not. -/
theorem Before.before_start (h : Before e₀ key k u inst config diff e) (hl : Lulls e e') (hd : u ∈ onlyRewired diff)
    (hc : e'.call? key = some c) (hs : c.stages = []) (hw : c.waiting = []) (he : c.ended = none)
    (hst : Starts e' key k (some diff) e'') (hf : ∀ c, e''.call? key = some c → c.fault = none) :
    Before e₀ key k u inst config diff e'' := by
  obtain ⟨l, hlevel, -, hconfig⟩ := config?_eq_some.mp h.configured
  rw [← hl.level? k] at hlevel
  cases hst with
  | nowhere hn =>
    rw [hlevel] at hn
    cases hn
  | refused => cases hf _ (call?_refuse hc _)
  | fresh _ hnone => cases hnone
  | @again l' d hlevel' hsome _ =>
    cases hsome
    obtain rfl := Option.some.inj (hlevel.symm.trans hlevel')
    refine h.lulls (hl.trans (.proceed e' key _)) ⟨_, call?_proceed hc _, he, ?_⟩
    rw [hs, hconfig]
    split
    · exact .apply rfl
    · refine .stop (fun hm => ?_) rfl hw
      -- what is stale is named as changed or removed
      have hnot := (List.mem_filter.mp hd).2
      simp only [Bool.and_eq_true, Bool.not_eq_true', List.contains_eq_mem, decide_eq_false_iff_not] at hnot
      exact (List.mem_append.mp (List.mem_filter.mp hm).1).elim hnot.1 hnot.2

theorem Before.resumes (h : Before e₀ key k u inst config diff e) (hu : Using e₀ k u inst)
    (hn : e₀.activeKey? k u = some n) (hr : config.node? u = some r) (hb : e₀.binding? inst = some b)
    (hd : u ∈ onlyRewired diff) (hg : Grows e₀ e) (hl : Laid e) (hres : Resumes e key e')
    (hf : ∀ c, e'.call? key = some c → c.fault = none) :
    Before e₀ key k u inst config diff e' ∨ Stuck key e' ∨ After e₀ key k u inst n r b e' := by
  obtain ⟨c, hc, hend, hawaits⟩ := h.call
  cases hres with
  | unknown hnone =>
    rw [hc] at hnone
    cases hnone
  | @ends c' hc' hw hst =>
    obtain rfl := Option.some.inj (hc.symm.trans hc')
    cases hawaits with
    | start hs => rw [hs] at hst; cases hst
    | stop _ hs => rw [hs] at hst; cases hst
    | apply hs => rw [hs] at hst; cases hst
  | @waits c' hc' hw =>
    obtain rfl := Option.some.inj (hc.symm.trans hc')
    cases hawaits with
    | start _ hw' => exact absurd hw' hw
    | stop _ _ hw' => exact absurd hw' hw
    | apply hs =>
      exact .inl (h.stops hl (stopsWithin_pollStops key (e, []) c.waiting) (proceeds_afterStops _ key _) hc hend hs)
  | @stage c' stage rest hc' hw hst =>
    obtain rfl := Option.some.inj (hc.symm.trans hc')
    have hlull : Lulls e (e.modifyCall key fun c => { c with stages := rest }) := .modifyCall e key _
    have hcall : (e.modifyCall key fun c => { c with stages := rest }).call? key = some { c with stages := rest } := by
      rw [call?_modifyCall, if_pos rfl, hc]
      rfl
    have hg' : Grows e₀ (e.modifyCall key fun c => { c with stages := rest }) := hg.trans (grows_modifyCall _ _ _)
    have hl' : Laid (e.modifyCall key fun c => { c with stages := rest }) :=
      hl.of_levels (grows_modifyCall _ _ _) fun _ => rfl
    cases hawaits with
    | start hs _ =>
      rw [hs] at hst
      cases hst
      exact .inl (h.before_start hlull hd hcall rfl hw hend (starts_start _ key k (some diff)) hf)
    | @stop stale hstale hs _ =>
      rw [hs] at hst
      cases hst
      have hb' := h.lulls hlull ⟨_, hcall, hend, .apply rfl⟩
      exact .inl (hb'.stops hl' (stops_stale hu hg' hl' hstale _) (proceeds_afterStops _ key _) hcall hend rfl)
    | apply hs =>
      rw [hs] at hst
      cases hst
      exact .inr (applies_usage hu hn hr hb hd hg' hl' (h.spares.trans hlull.spares) h.plan hcall rfl hw hend
        (applies_apply _ _ _ _ _) hf)

theorem After.tick (h : After e₀ key k u inst n r b e) (hu : Using e₀ k u inst) (hn : e₀.activeKey? k u = some n)
    (hg : Grows e₀ e) (hl : Laid e) (ha : Advances e key e') : After e₀ key k u inst n r b e' := by
  obtain ⟨nodes, hx, hanew⟩ := h.anew
  obtain ⟨c, hc, hst, hw⟩ := h.call
  have hpop {a b : Action} {rest : List Action} (hagenda : e.agenda = a :: rest)
      (hm : b ∈ { e with agenda := rest }.plan) : Avoids (Using.Holds e₀ k u inst) e b :=
    h.plan b (mem_plan_pop hagenda hm)
  cases ha with
  | idles hi =>
    refine ⟨⟨nodes, hx, hanew.spares hn hi.toLulls.spares⟩, fun a hm => ?_, c, hi.call.trans hc, hst, hw⟩
    rcases hi.plan a hm with hm | ⟨j, rfl⟩
    · exact hi.toLulls.spares.avoids (h.plan a hm)
    · trivial
  | @makes a rest hbr hagenda hmakes =>
    have hl' : Laid { e with agenda := rest } := hl.of_levels (.of_eq rfl rfl rfl rfl) fun _ => rfl
    have hs₀ : Spares (Using.Holds e₀ k u inst) e { e with agenda := rest } :=
      .of_nodes (fun _ => rfl) fun _ => rfl
    have hmem := mem_plan_of_makes hagenda hmakes
    have hg' : Grows e₀ { e with agenda := rest } := hg.trans (.of_eq rfl rfl rfl rfl)
    obtain ⟨hs, hplan⟩ := spares_makes hl'.placed (hu.fresh hg') (hs₀.avoids (h.plan a hmem)) hmakes
    refine ⟨⟨nodes, hx, hanew.spares hn (hs₀.trans hs)⟩, fun b hb => ?_, c, ?_, hst, hw⟩
    · rcases hplan b hb with hb | hb
      · exact (hs₀.trans hs).avoids (hpop hagenda hb)
      · exact hb
    · have hne (j : CallKey) : a ≠ .resume j := by
        rintro rfl
        cases hmakes
      exact (call?_of_calls (calls_of_register (register_act hne)) key).trans hc
  | @resumes rest e' hbr hagenda hres =>
    have hs₀ : Spares (Using.Holds e₀ k u inst) e { e with agenda := rest } :=
      .of_nodes (fun _ => rfl) fun _ => rfl
    cases hres with
    | unknown hnone =>
      have hsome : { e with agenda := rest }.call? key = some c := hc
      rw [hsome] at hnone
      cases hnone
    | ends hc' _ _ =>
      refine ⟨⟨nodes, hx, hanew.spares hn (hs₀.trans (Lulls.modifyCall _ key _).spares)⟩,
        fun b hb => hpop hagenda hb, { c with ended := c.ended <|> some e.now, holds := [] }, ?_, hst, hw⟩
      have hsome : { e with agenda := rest }.call? key = some c := hc
      rw [call?_modifyCall, if_pos rfl, hsome]
      rfl
    | @stage c' stage rest' hc' hw' hst' =>
      obtain rfl := Option.some.inj (hc.symm.trans hc')
      rw [hst] at hst'
      cases hst'
    | @waits c' hc' hw' =>
      obtain rfl := Option.some.inj (hc.symm.trans hc')
      exact absurd hw hw'

theorem Stuck.tick (h : Stuck key e) (ha : Advances e key e') : Stuck key e' := by
  obtain ⟨c, hc, hend⟩ := h.call
  cases ha with
  | idles hi => exact ⟨hi.broken.trans h.broken, c, hi.call.trans hc, hend⟩
  | makes hb => rw [h.broken] at hb; cases hb
  | resumes hb => rw [h.broken] at hb; cases hb

/-- One step of the start. -/
theorem Before.tick (h : Before e₀ key k u inst config diff e) (hu : Using e₀ k u inst)
    (hn : e₀.activeKey? k u = some n) (hr : config.node? u = some r) (hb : e₀.binding? inst = some b)
    (hd : u ∈ onlyRewired diff) (hg : Grows e₀ e) (hl : Laid e) (ha : Advances e key e')
    (hf : ∀ c, e'.call? key = some c → c.fault = none) :
    Before e₀ key k u inst config diff e' ∨ Stuck key e' ∨ After e₀ key k u inst n r b e' := by
  obtain ⟨c, hc, hend, hawaits⟩ := h.call
  cases ha with
  | idles hi => exact .inl (h.lulls hi.toLulls ⟨c, hi.call.trans hc, hend, hawaits⟩)
  | @makes a rest hbr hagenda hmakes =>
    obtain ⟨j, rfl⟩ := h.plan a (mem_plan_of_makes hagenda hmakes)
    cases hmakes
  | @resumes rest e' hbr hagenda hres =>
    exact (h.lulls (.pop hagenda) ⟨c, hc, hend, hawaits⟩).resumes hu hn hr hb hd (hg.trans (.of_eq rfl rfl rfl rfl))
      (hl.of_levels (.of_eq rfl rfl rfl rfl) fun _ => rfl) hres hf

/-- A whole run of the start. -/
theorem usage_reach (hu : Using e₀ k u inst) (hn : e₀.activeKey? k u = some n) (hr : config.node? u = some r)
    (hb : e₀.binding? inst = some b) (hd : u ∈ onlyRewired diff) (hun : Unrefused e₀ key)
    (hbefore : Before e₀ key k u inst config diff e₀) (hreach : Reach e₀ e) :
    Before e₀ key k u inst config diff e ∨ Stuck key e ∨ After e₀ key k u inst n r b e := by
  have h : Unrefused e key ∧ Grows e₀ e ∧
      (Before e₀ key k u inst config diff e ∨ Stuck key e ∨ After e₀ key k u inst n r b e) := by
    refine hreach.invariant (P := fun e => Unrefused e key ∧ Grows e₀ e ∧
      (Before e₀ key k u inst config diff e ∨ Stuck key e ∨ After e₀ key k u inst n r b e))
      (fun e e' ⟨hue, hg, hcase⟩ ht => ?_) ⟨hun, .refl e₀, .inl hbefore⟩
    have hue' := hue.tick ht
    obtain ⟨-, hadv⟩ := hue.others.tick ht
    have hl := hue.reachable.layout.laid
    refine ⟨hue', hg.trans ht.grows, ?_⟩
    rcases hcase with h | h | h
    · refine h.tick hu hn hr hb hd hg hl hadv fun c hc => ?_
      obtain ⟨c', hc', hs⟩ := hue'.call
      obtain rfl := Option.some.inj (hc.symm.trans hc')
      exact hs.fault
    · exact .inr (.inl (h.tick hadv))
    · exact .inr (.inr (h.tick hu hn hg hl hadv))
  exact h.2.2

/-! ## How far the new wiring reaches -/

theorem Using.deeper (h : Using e₀ k u inst) {id : NodeId} (hj : Inside e₀ inst j)
    (hi : e₀.instance? j id = some i) (id' : NodeId) : Deeper e₀ inst i id' := by
  refine ⟨.deeper hj hi, ?_⟩
  rintro rfl
  obtain ⟨rfl, -⟩ := (h.laid.isInstance hi).unique (h.laid.isInstance h.inst)
  exact h.not_inside hj

/-- What lies deeper is wired for the same outputs as before. -/
theorem wiredFor_deeper (h : Using e₀ k u inst) (hg : Grows e₀ e) (hu : Unmoved e₀ k u inst e)
    (hi : ∀ id, Deeper e₀ inst i id) : WiredFor e i outer ↔ WiredFor e₀ i outer := by
  have hbinding {j : LevelKey} (hj : ∀ id, Deeper e₀ inst j id) : e.binding? j = e₀.binding? j := by
    have hholds : Using.Holds e₀ k u inst j u := .inr (hj u).1
    obtain ⟨l, hl⟩ := h.level?_of_holds hholds
    obtain ⟨l', hl', hkin⟩ := hg.level j l hl
    rw [binding?, binding?, hl, hl']
    dsimp only
    rw [hkin.kind]
  constructor
  · intro hw
    refine hw.transfer hu.deeper.symm (fun j b hj hb => (hbinding hj).symm.trans hb) (fun j id j' hj hj' => ?_) hi
    exact h.deeper hj.1 ((hu.instances j id (.inr hj.1)).symm.trans hj')
  · intro hw
    exact hw.transfer hu.deeper (fun j b hj hb => (hbinding hj).trans hb)
      (fun j id j' hj hj' => h.deeper hj.1 hj') hi

theorem wiredFor_begin (e : Engine) (stages : List Stage) :
    WiredFor (e.begin stages).1 i outer ↔ WiredFor e i outer := by
  have hs : Spares (fun _ _ => True) e (e.begin stages).1 :=
    .of_nodes (level?_begin e stages) fun n => by rw [node?_begin]
  have hb (j : LevelKey) : (e.begin stages).1.binding? j = e.binding? j := by
    rw [binding?, binding?, level?_begin]
  constructor
  · intro h
    exact h.transfer hs.symm (fun j b _ hj => (hb j).symm.trans hj) (fun _ _ _ _ _ _ => trivial) fun _ => trivial
  · intro h
    exact h.transfer hs (fun j b _ hj => (hb j).trans hj) (fun _ _ _ _ _ _ => trivial) fun _ => trivial

end Start

/-- A usage node whose wiring has changed is rewired in place by the next start. Its instance goes on, and the
nodes of the instance get the wiring they have in a new one. The instances inside it are left as they are: all is
wired as in a new instance if and only if each of them was, before, what the new wiring asks of its usage node. -/
theorem rewiring_reaches_one_level (h : Reachable e) (hr : AtRest e) {l : Level} (hl : e.level? k = some l)
    (hp : l.parent = none) (hs : l.config.Sound) {n : NodeKey} (hn : e.activeKey? k u = some n)
    (hi : e.instance? k u = some inst) {r : Record} (hw : l.config.node? u = some r) {diff : Diff}
    (hd : u ∈ onlyRewired diff) (hreach : Reach (e.begin [.start k (some diff)]).1 e') {c : Call}
    (hc : e'.call? e.nextCall = some c) (hend : c.ended.isSome = true) :
    e'.activeKey? k u = some n ∧ e'.instance? k u = some inst ∧
      (e'.node? n).map (·.dispatch.toWires) = some r.outputs ∧
      ∃ b nodes, e'.binding? inst = some b ∧ b.expand? r.outputs = some nodes ∧
        (∀ r' ∈ nodes, ∀ m, e'.activeKey? inst r'.id = some m →
          (e'.node? m).map (·.dispatch.toWires) = some r'.outputs) ∧
        (WiredFor e' inst r.outputs ↔
          ∀ r' ∈ nodes, ∀ i, e.instance? inst r'.id = some i → WiredFor e i r'.outputs) := by
  have hentries : Spares (fun _ _ => True) e (e.begin [.start k (some diff)]).1 :=
    .of_nodes (level?_begin e _) fun n => by rw [node?_begin]
  have hlaid := h.layout.laid
  have hlevel : (e.begin [.start k (some diff)]).1.level? k = some l := (level?_begin e _ k).trans hl
  have ho : l.kind.isOutermost = true := by
    cases hk : l.kind with
    | expansion b =>
      obtain ⟨p, hp', -⟩ := ((hlaid k l hl).enclosed b hk).parent
      rw [hp] at hp'
      cases hp'
    | _ => rfl
  have hconfig : e.config? k = some l.config := config?_eq_some.mpr ⟨l, hl, ho, rfl⟩
  have hun : Unrefused (e.begin [.start k (some diff)]).1 e.nextCall :=
    unrefused_begin h hr (.start k _) ⟨⟨l.config, hconfig, hs⟩, trivial⟩ (by simp [NoFresh])
  have hu : Using (e.begin [.start k (some diff)]).1 k u inst :=
    ⟨hun.reachable.layout.laid, ⟨l, hlevel, hp⟩, (hentries.inst k u trivial).trans hi⟩
  have hn₀ := (hentries.active k u trivial).trans hn
  obtain ⟨b, hb⟩ := (hu.laid.isInstance hu.inst).binding?
  have hbefore : Before (e.begin [.start k (some diff)]).1 e.nextCall k u inst l.config diff
      (e.begin [.start k (some diff)]).1 := by
    refine ⟨.refl _, config?_eq_some.mpr ⟨l, hlevel, ho, rfl⟩, fun a ha => ?_,
      .make [.start k (some diff)] e.now, ?_, rfl, .start rfl rfl⟩
    · have hagenda : (e.begin [.start k (some diff)]).1.agenda = [] := (wake_agenda _ _).trans hr.idle
      rw [Engine.plan, hagenda] at ha
      cases ha
    · rw [call?_begin h.keysBelow, if_pos rfl]
  have hg := hreach.grows
  rcases usage_reach hu hn₀ hw hb hd hun hbefore hreach with hcase | hcase | hcase
  · obtain ⟨c', hc', hend', -⟩ := hcase.call
    obtain rfl := Option.some.inj (hc.symm.trans hc')
    rw [hend'] at hend
    cases hend
  · obtain ⟨c', hc', hend'⟩ := hcase.call
    obtain rfl := Option.some.inj (hc.symm.trans hc')
    rw [hend'] at hend
    cases hend
  obtain ⟨nodes, hx, ha⟩ := hcase.anew
  have hund := ha.toUnmoved
  refine ⟨(ha.active k u (.inl ⟨rfl, rfl⟩)).trans hn₀, (ha.instances k u (.inl ⟨rfl, rfl⟩)).trans hu.inst, ha.usage,
    b, nodes, hg.binding? hb, hx, ha.own, ?_, ?_⟩
  · intro hwired r' hr' i hi'
    have hi₀ := (hentries.inst inst r'.id trivial).trans hi'
    cases hwired with
    | intro hb' hx' _ nested =>
      obtain rfl := Option.some.inj ((hg.binding? hb).symm.trans hb')
      obtain rfl := Option.some.inj (hx.symm.trans hx')
      have := nested r' hr' i ((ha.instances inst r'.id (.inr .here)).trans hi₀)
      exact (wiredFor_begin e _).mp ((wiredFor_deeper hu hg hund (hu.deeper .here hi₀)).mp this)
  · intro hall
    refine .intro (hg.binding? hb) hx ha.own fun r' hr' i hi' => ?_
    rw [ha.instances inst r'.id (.inr .here)] at hi'
    refine (wiredFor_deeper hu hg hund (hu.deeper .here hi')).mpr ((wiredFor_begin e _).mpr (hall r' hr' i ?_))
    exact (hentries.inst inst r'.id trivial).symm.trans hi'

end Flowgraph.Engine

namespace Flowgraph.Session
open Engine

/-- A template inside another, and a tab that uses the outer one and is wired to this node. -/
def nestedRecords (target : NodeId) : List Json :=
  let ends (id : NodeId) : Json := .arr [.obj [("wires", .arr [.obj [("id", .str id)]])]]
  [.obj [("id", .str "t"), ("type", .str "tab")],
    .obj [("id", .str "inner"), ("in", ends "a"), ("out", ends "a"), ("type", .str "subflow")],
    .obj [("id", .str "a"), ("type", .str "test"), ("wires", .arr [.arr []]), ("z", .str "inner")],
    .obj [("id", .str "outer"), ("in", ends "b"), ("out", ends "b"), ("type", .str "subflow")],
    .obj [("id", .str "b"), ("type", .str "subflow:inner"), ("wires", .arr [.arr []]), ("z", .str "outer")],
    .obj [("id", .str "u"), ("type", .str "subflow:outer"), ("wires", .arr [.arr [.str target]]), ("z", .str "t")],
    .obj [("id", .str "old"), ("type", .str "test"), ("z", .str "t")],
    .obj [("id", .str "new"), ("type", .str "test"), ("z", .str "t")]]

def nestedDeployment (target : NodeId) : Deployment :=
  (Deployment.parse (nestedRecords target)).toOption.getD .empty

def nestedConfig (target : NodeId) : FlowConfig :=
  (nestedDeployment target).tabs.headD (nestedDeployment target).global

/-- The tab, started with the old wiring. -/
def nestedFlow : Session :=
  (start ⟨((Engine.make .instrumented .standalone [] [] 500).addLevel
    (.make .tab none (nestedConfig "old"))).1, some 0, .empty, []⟩ 0 none).2

/-- The tab when its configuration has been replaced by that with the new wiring. -/
def renewedFlow : Session :=
  { nestedFlow with engine := nestedFlow.engine.modifyLevel 0 fun l => { l with config := nestedConfig "new" } }

/-- What the new wiring changes. -/
def renewal : Diff := (Diff.between? (nestedDeployment "old") (nestedDeployment "new")).getD default

theorem parsed_nestedConfig {target : NodeId} (h : (Deployment.parse (nestedRecords target)).isOk = true) :
    (nestedConfig target).Parsed := by
  cases hp : Deployment.parse (nestedRecords target) with
  | error fault =>
    rw [hp] at h
    cases h
  | ok d =>
    refine ⟨_, d, hp, ?_⟩
    have hd : nestedDeployment target = d := by
      unfold nestedDeployment
      rw [hp]
      rfl
    rw [nestedConfig, hd]
    cases d.tabs with
    | nil => exact .inl rfl
    | cons c cs => exact .inr List.mem_cons_self

theorem reachable_nestedFlow : Reachable nestedFlow.engine := by
  have hmade : Reachable ((Engine.make .instrumented .standalone [] [] 500).addLevel
      (.make .tab none (nestedConfig "old"))).1 :=
    (Reachable.make _ _ _ _ _).input rfl (.flow (.inl rfl) (parsed_nestedConfig (by decide +kernel)))
  exact reachable_start hmade rfl

theorem reachable_renewedFlow : Reachable renewedFlow.engine := by
  refine reachable_nestedFlow.input (by decide +kernel) (.update (fun l hl => ?_) (parsed_nestedConfig (by decide +kernel)))
  have hparent : (nestedFlow.engine.level? 0).bind (·.parent) = none := by decide +kernel
  rw [hl] at hparent
  exact hparent

/-- The tab before the start, and what the start comes to. -/
theorem renewal_run :
    (AtRest renewedFlow.engine ∧ renewedFlow.engine.activeKey? 0 "u" = some 6 ∧
      renewedFlow.engine.instance? 0 "u" = some 1 ∧
      (renewedFlow.engine.level? 0).map (fun l => (l.parent, (StartOrder.validate l.config).isOk,
        (l.config.node? "u").map (·.outputs))) = some (none, true, some [["new"]])) ∧
    "u" ∈ onlyRewired renewal ∧
    ((renewedFlow.start 0 (some renewal)).2.engine.call? renewedFlow.engine.nextCall).map (·.ended.isSome) =
      some true ∧
    (renewedFlow.start 0 (some renewal)).2.engine.wiredWithin 3 1 [["new"]] = false ∧
    ((renewedFlow.start 0 (some renewal)).2.engine.node? 2).map (·.dispatch.toWires) = some [["old"]] := by
  decide +kernel

/-- The new wiring does not reach the inner instance, whose node still sends to the old target. -/
theorem renewal_misses_inner_instance : AtRest renewedFlow.engine ∧ "u" ∈ onlyRewired renewal ∧
    ((renewedFlow.start 0 (some renewal)).2.engine.node? 6).map (·.dispatch.toWires) = some [["new"]] ∧
    (renewedFlow.start 0 (some renewal)).2.engine.instance? 0 "u" = some 1 ∧
    ¬WiredFor (renewedFlow.start 0 (some renewal)).2.engine 1 [["new"]] ∧
    ((renewedFlow.start 0 (some renewal)).2.engine.node? 2).map (·.dispatch.toWires) = some [["old"]] := by
  obtain ⟨⟨hr, hn, hi, hlevel⟩, hd, hcall, hwithin, hnode⟩ := renewal_run
  obtain ⟨l, hl, hfacts⟩ := Option.map_eq_some_iff.mp hlevel
  obtain ⟨hp, hvalid, houtputs⟩ := by simpa only [Prod.mk.injEq] using hfacts
  obtain ⟨r, hw, houtputs⟩ := Option.map_eq_some_iff.mp houtputs
  obtain ⟨c, hc, hend⟩ := Option.map_eq_some_iff.mp hcall
  have hs : l.config.Sound := by
    cases hv : StartOrder.validate l.config with
    | ok order => exact ⟨order, hv⟩
    | error fault =>
      rw [hv] at hvalid
      cases hvalid
  obtain ⟨-, hi', hwires, -⟩ := rewiring_reaches_one_level reachable_renewedFlow hr hl hp hs hn hi hw hd
    (reach_complete renewedFlow.engine _) hc hend
  rw [houtputs] at hwires
  refine ⟨hr, hd, hwires, hi', fun h => ?_, hnode⟩
  have := h.within 3
  rw [hwithin] at this
  cases this

end Flowgraph.Session
