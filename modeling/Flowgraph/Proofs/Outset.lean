import Flowgraph.Proofs.Accounting
import Flowgraph.Proofs.Verdicts
/-! How closes begin. Every node that a stop takes out is asked when the stop begins, wherever it is inside; only usage
nodes are left for later, while their instances stop. So all deadlines of a stop are the same. -/
namespace Flowgraph.Engine

variable {e e' e'' m : Engine} {i j k : LevelKey} {n : NodeKey} {call key : CallKey} {D : Nat} {r : StopRequest}

theorem Laid.taken (h : Laid e) (key : CallKey) (agenda : List Action) (stages : List Stage) :
    Laid (e.taken key agenda stages) := h.of_levels (.of_eq rfl rfl rfl rfl) fun _ => rfl

/-! ## Usage nodes -/

/-- A usage node with an instance has no behaviour of its own. -/
def Manned (e : Engine) : Prop :=
  ∀ k u i n, e.instance? k u = some i → e.activeKey? k u = some n → e.StandsIn n

theorem standsIn_of_face (hf : (e'.node? n).map Node.face = (e.node? n).map Node.face) (hb : e.StandsIn n) :
    e'.StandsIn n := by
  obtain ⟨node, inst, hn, hp⟩ := hb
  obtain ⟨node', hn', hpart⟩ := exists_part_of_face hf hn
  exact ⟨node', inst, hn', hpart.trans hp⟩

/-- Nodes and instances only go. -/
theorem Manned.dwindles (h : Manned e) (hd : Dwindles e e')
    (hf : ∀ n, (e'.node? n).map Node.face = (e.node? n).map Node.face) : Manned e' := fun k u i n hi hn =>
  standsIn_of_face (hf n) (h k u i n (hd.inst k u i hi) (hd.active k u n hn))

theorem Manned.stops (h : Manned e) (hl : Laid e) (hs : Stops e e') : Manned e' :=
  h.dwindles (hs.dwindles hl) (StopsWithin.face hs)

theorem Manned.stands (h : Manned e) (hs : Stands e e') : Manned e' :=
  h.dwindles ⟨fun j id n hn => by rwa [hs.active] at hn, fun j id i hi => by rwa [hs.inst] at hi⟩ hs.face

/-- A node is entered. If it has a behaviour of its own, it has no instance. -/
theorem manned_enter {r : Record} {part : Part} (h : Manned e)
    (hp : (∃ inst, part = .standIn inst) ∨ e.instance? k r.id = none) : Manned (e.enter k r part) := by
  intro j u i n hi hn
  rw [instance?_enter] at hi
  have hkeep (hn : e.activeKey? j u = some n) : (e.enter k r part).StandsIn n := by
    obtain ⟨node, inst, hnode, hb⟩ := h j u i n hi hn
    refine ⟨node, inst, ?_, hb⟩
    rw [node?_enter, if_neg (Nat.ne_of_lt (node?_lt e n hnode)), hnode]
  rw [activeKey?_enter] at hn
  split at hn
  · rename_i hj
    subst hj
    obtain ⟨l, hl, hn'⟩ := Option.bind_eq_some_iff.mp hn
    clear hn
    split at hn'
    · rename_i hid
      subst hid
      cases hn'
      obtain ⟨inst, hpart⟩ := hp.resolve_right (by simp [hi])
      exact ⟨_, inst, (node?_enter e _ k r part).trans (if_pos rfl), hpart⟩
    · exact hkeep (by rwa [activeKey?, hl])
  · exact hkeep hn

/-- A usage node is entered together with its instance. -/
theorem manned_install {r : Record} (h : Manned e) (hn : e.activeKey? k r.id = none) (i : LevelKey) :
    Manned (e.install k r i) := by
  refine manned_enter (fun j u i' n hi hact => ?_) (.inl ⟨i, rfl⟩)
  have hact' : e.activeKey? j u = some n := by
    rw [activeKey?_modifyLevel] at hact
    split at hact <;> exact hact
  refine h j u i' n ?_ hact'
  rw [instance?_modifyLevel] at hi
  split at hi
  · rename_i hj
    subst hj
    obtain ⟨l, hl, hi⟩ := Option.bind_eq_some_iff.mp hi
    rw [Dict.get?_insert] at hi
    split at hi
    · rename_i hid
      subst hid
      rw [hn] at hact'
      cases hact'
    · rwa [instance?, hl]
  · exact hi

theorem Housed.instance?_of_none (h : Housed e) {u : NodeId} (hn : e.activeKey? k u = none) :
    e.instance? k u = none := by
  cases hi : e.instance? k u with
  | none => rfl
  | some i =>
    have hs := h k u i hi
    rw [hn] at hs
    cases hs

theorem Creates.manned {r : Record} {templates : Templates} (hc : Creates e k r templates e') (h : Manned e)
    (hr : Registered e) (hp : Precedes e k) : Manned e' := by
  cases hc with
  | present => exact h
  | noTemplate => exact h.stands (.failCreation _ _ _ _)
  | refused => exact h.stands (.failCreation _ _ _ _)
  | @made part notes hn hu hb =>
    have hs : Stands e (e.note notes) := .still (quiet_note _ _).still
    exact manned_enter (r := e.resolvedAt k r) (h.stands hs) (.inr (hr.housed.instance?_of_none hn))
  | usage hn hu ht ho => exact h.stands (ho.registered hr hn hp).1

/-- A call takes up its stops. -/
theorem Manned.proceeds {stops : List Stopping} (h : Manned e) (hl : Laid e) (hs : Stops e m)
    (hp : Proceeds m key stops e') : Manned e' := by
  have hlevel (k : LevelKey) : e'.level? k = m.level? k := by
    cases hp with
    | waits _ hs => exact level?_of_still hs.still k
    | done => rfl
  exact (h.stops hl hs).dwindles (.of_levels hlevel) hp.stands.2

theorem Manned.resumes (h : Manned e) (hl : Laid e) (hp : e.plan = []) (hr : Resumes e key e') : Manned e' := by
  cases hr with
  | unknown => exact h
  | ends => exact h.stands (.modifyCall _ _ _ fun _ => ⟨rfl, rfl⟩)
  | @stage c stage stages hc hw hs =>
    have hst : Stands e (e.modifyCall key fun c => { c with stages }) := .modifyCall _ _ _ fun _ => ⟨rfl, rfl⟩
    have hlm : Laid (e.modifyCall key fun c => { c with stages }) := hl.of_levels (.of_eq rfl rfl rfl rfl) fun _ => rfl
    cases hrq : stage.requests? (e.modifyCall key fun c => { c with stages }) with
    | some requests =>
      rw [runStage_of_requests? hrq, stopAll_eq]
      exact (h.stands hst).proceeds hlm (stops_beginStops key (_, []) requests) (proceeds_afterStops _ _ _)
    | none =>
      exact (h.stands hst).stands (stands_runStage (e := e.modifyCall key fun c => { c with stages }) hp key hrq).1
  | waits hc hw =>
    rw [pollAll_eq]
    exact h.proceeds hl (stops_pollStops key (e, []) _) (proceeds_afterStops _ _ _)

theorem Manned.tick (hr : Reachable e) (h : Manned e) (ht : Tick e e') : Manned e' := by
  rcases ht.kinds with ⟨hs, -⟩ | ⟨_, -, hs, -⟩ | ⟨a, agenda, -, hq, ha, rfl⟩
  · exact h.stands (.still hs)
  · exact h.stands (.still hs)
  have hm : Manned { e with agenda } := h.stands (stands_agenda e agenda)
  have hreg := hr.books.1
  have hpop := hreg.pop ha hq
  have hmem : a ∈ e.plan := by simp [plan, ha, hq]
  cases a with
  | create k r templates => exact (creates_create _ k r templates).manned hm hpop.1 (hpop.2 k rfl)
  | install k r i => exact manned_install hm (hreg.vacant k r i hmem) i
  | refresh k => exact hm.stands (.refresh _ k)
  | resume j =>
    have ho := hr.accounted.orderly
    rw [plan_pop ha hq] at ho
    have hlaid : Laid ({ e with agenda } : Engine) := hr.layout.laid.of_levels (.of_eq rfl rfl rfl rfl) fun _ => rfl
    exact hm.resumes hlaid ho (resumes_resume _ _)
  | _ => cases hq

theorem Manned.input (h : Manned e) (hi : Input e e') : Manned e' := by
  cases hi with
  | @call stages ho =>
    refine h.dwindles (.of_levels fun k => level?_begin e stages k) fun n => ?_
    rw [node?_begin]
  | quiet hq => exact h.stands (.still hq.still)
  | keep levels nodes => exact h
  | flow => exact h.stands (.addLevel e rfl rfl)
  | @update k config => exact h.stands (.modifyLevel _ _ _ fun _ => ⟨rfl, rfl⟩)

/-- In every engine that can come about, usage nodes with instances have no behaviour of their own. -/
theorem Reachable.manned (h : Reachable e) : Manned e := by
  refine h.invariant (P := Manned) (fun r o s v t k u i n hi _ => ?_) (fun e e' hr hm ht => hm.tick hr ht)
    fun e e' _ hm _ hi => hm.input hi
  have hnone : (Engine.make r o s v t).instance? k u = none := rfl
  rw [hnone] at hi
  cases hi

/-! ## Stops that begin -/

namespace Goes

variable {ps ps' qs : List Order} {as' : List (NodeKey × Nat)} {t t' : Tally}

theorem regroup (h : Goes D call e e' ps ps' as' t t') (hp : qs.Perm ps) : Goes D call e e' qs ps' as' t t' := by
  obtain ⟨js, hj, ht⟩ := h
  exact ⟨js, hj.regroup hp (.refl _) (.refl _) (.refl _), ht⟩

/-- Something has gone before that concerns no signals. -/
theorem before (h : Goes D call m e' ps ps' as' t t') (hs : Stops e m) (hst : Tranquil [] e m) :
    Goes D call e e' ps ps' as' t t' := by
  obtain ⟨js, hj, ht⟩ := h
  exact ⟨js, hj.before hs (hst.mono (List.nil_subset _)), by rw [ht, hs.entries]⟩

theorem stops (h : Goes D call e e' ps ps' as' t t') : Stops e e' := h.choose_spec.1.stops

theorem tranquil (h : Goes D call e e' ps ps' as' t t') : Tranquil (ps.map (·.node)) e e' := h.choose_spec.1.tranquil

end Goes

theorem Stops.closeTimeout (h : Stops e e') : e'.closeTimeout = e.closeTimeout := by
  have := congrArg Engine.closeTimeout h.shell
  exact this

/-- The deadline of a close that begins now. -/
def dueNow (e : Engine) : Nat := e.now + e.closeTimeout

theorem Stops.dueNow (hs : Stops e e') {ns : List NodeKey} (hst : Tranquil ns e e') : e'.dueNow = e.dueNow := by
  rw [Engine.dueNow, hst.now, hs.closeTimeout]
  rfl

/-- A stop has begun with these orders: some have got their verdicts, the others have been asked in time, or are those
of usage nodes. -/
structure Asks (call : CallKey) (e e' : Engine) (orders : List Order) (s : Stopping) : Prop where
  departs : Departs e e' orders
  goes : Goes e.dueNow call e e' orders s.pending s.deadlines 0 s.tally
  standsIn : ∀ o ∈ s.orders, e.StandsIn o.node
  alive : s.Alive

/-- Nothing is stopped. -/
theorem Asks.idle (call : CallKey) (e : Engine) : Asks call e e [] (.finished .empty) :=
  ⟨.silent (.refl e), ⟨[], .idle (.refl e) (.refl _ e), (add_zero _).symm⟩, by simp [Stopping.orders], .inr ⟨_, rfl⟩⟩

/-- The stop of an instance with all that is inside, the nodes of which are all told the same. -/
def AsksInside (call : CallKey) (stopInner : Engine → StopRequest → Engine × Stopping) : Prop :=
  ∀ (e : Engine) (inst : LevelKey) (removed : Bool), Laid e → Manned e →
    ∀ removal, removal = (if removed then .all else .none) →
      ∃ orders, Asks call e (stopInner e ⟨inst, none, removal⟩).1 orders (stopInner e ⟨inst, none, removal⟩).2 ∧
        ∀ o ∈ orders, o.removed = removed ∧ ∃ j id, e.activeKey? j id = some o.node ∧ e.Inside inst j

/-- Once a node has been asked, no order is left. -/
theorem orders_askToClose (e : Engine) (call : CallKey) (k : NodeKey) (removed : Bool) (report : StopReport) :
    (e.askToClose call k removed report).2.orders = [] := by
  have h := (serving_askToClose e call k removed report).orders.length_eq
  rw [List.length_append] at h
  exact List.eq_nil_of_length_eq_zero (by simpa using h)

/-- The close of a node begins that has been taken out of its level. -/
theorem asks_beginClosing {stopInner : Engine → StopRequest → Engine × Stopping} (hs : AsksInside call stopInner)
    (hl : Laid e) (hm : Manned e) (level : LevelKey) (k : NodeKey) (removed : Bool) (hout : ¬e.IsActive k)
    (hb : ∀ node i, e.node? k = some node → e.instance? level node.id = some i → e.StandsIn k) :
    ∃ nested, Departs e (beginClosing stopInner call e level k removed).1 nested ∧
      Goes e.dueNow call e (beginClosing stopInner call e level k removed).1 (nested ++ [⟨k, removed⟩])
        (beginClosing stopInner call e level k removed).2.pending
        (beginClosing stopInner call e level k removed).2.deadlines 0
        (beginClosing stopInner call e level k removed).2.tally ∧
      (∀ o ∈ (beginClosing stopInner call e level k removed).2.orders, e.StandsIn o.node) ∧
      (beginClosing stopInner call e level k removed).2.Alive ∧
      ∀ o ∈ nested, o.removed = removed ∧ e.NestedIn level k o := by
  have hnone (m : Engine) (report : StopReport) (o : Order)
      (ho : o ∈ (m.askToClose call k removed report).2.orders) : e.StandsIn o.node := by
    rw [orders_askToClose] at ho
    cases ho
  unfold beginClosing
  cases hn : e.node? k with
  | none =>
    refine ⟨[], .silent (.refl e), ⟨[(⟨k, removed⟩, .closed)], .single (.refl e) (.refl _ e) (.nobody hn), ?_⟩, by
      simp [Closing.orders], .inr ⟨_, rfl⟩, by simp⟩
    simp [entries, entry, idsOf, hn, Closing.tally]
    rfl
  | some node =>
    dsimp only
    cases hi : e.instance? level node.id with
    | none =>
      have hend : Ends e.dueNow call e ⟨k, removed⟩ .empty (e.askToClose call k removed .empty) :=
        ends_askToClose (.inl rfl) .empty
      obtain ⟨js, hj, ht⟩ := hend
      exact ⟨[], .silent (silent_askToClose _ _ _ _ _), ⟨js, hj, ht⟩, hnone _ _, alive_askToClose _ _ _ _ _, by simp⟩
    | some inst =>
      dsimp only
      have hforget : Stops e (e.modifyLevel level fun l => { l with instances := l.instances.erase node.id }) :=
        StopsWithin.single (.forget level node.id trivial)
      have htranquil : Tranquil [] e (e.modifyLevel level fun l => { l with instances := l.instances.erase node.id }) :=
        tranquil_modifyLevel _ _ _
      have hd₀ : Departs e (e.modifyLevel level fun l => { l with instances := l.instances.erase node.id }) [] := by
        refine .nobody hforget fun j id => ?_
        rw [activeKey?_modifyLevel]
        split <;> rfl
      obtain ⟨nested, ⟨hd, hg, hbi, halive⟩, hin⟩ := hs _ inst removed (hforget.laid hl) (hm.stops hl hforget) _ rfl
      have hdw := hforget.dwindles hl
      rw [hforget.dueNow htranquil] at hg
      have hg := hg.before hforget htranquil
      have hdep := hd₀.trans hl hd
      rw [List.nil_append] at hdep
      have hself := hb node inst hn hi
      have hnotin : k ∉ nested.map (·.node) := fun hk => hout ((hdep.left k).mp hk).1
      have hnested : ∀ o ∈ nested, o.removed = removed ∧ e.NestedIn level k o := by
        intro o ho
        obtain ⟨hr, j, id, ha, hins⟩ := hin o ho
        exact ⟨hr, node, inst, j, id, hn, hi, hdw.active j id _ ha, hdw.inside hins⟩
      split
      · rename_i m report hr
        rw [hr] at hg hdep
        refine ⟨nested, ?_, hg.ask (ends_askToClose (.inl (hg.stops.dueNow hg.tranquil)) report) hnotin, hnone _ _,
          alive_askToClose _ _ _ _ _, hnested⟩
        simpa using hdep.trans hl (.silent (silent_askToClose _ _ _ _ _))
      · rename_i m s hne hr
        rw [hr] at hg hdep hbi halive
        refine ⟨nested, hdep, hg.keep hself hnotin, fun o ho => ?_, alive_inner halive hne k removed, hnested⟩
        rcases List.mem_append.mp ho with ho | ho
        · exact standsIn_of_face (StopsWithin.face hforget o.node).symm (hbi o ho)
        · obtain rfl := List.mem_singleton.mp ho
          exact hself

/-- The closes of a stop begin one after the other. -/
theorem asks_beginAll {stopInner : Engine → StopRequest → Engine × Stopping} (hs : AsksInside call stopInner)
    (r : StopRequest) (targets : List NodeKey) (e : Engine) (begun : List Closing) (hl : Laid e) (hm : Manned e)
    (hnodup : targets.Nodup) (hout : ∀ n ∈ targets, ¬e.IsActive n)
    (hb : ∀ n ∈ targets, ∀ node i, e.node? n = some node → e.instance? r.level node.id = some i → e.StandsIn n) :
    ∃ nested closings, (beginAll stopInner call r (e, begun) targets).2 = begun ++ closings ∧
      Departs e (beginAll stopInner call r (e, begun) targets).1 nested ∧
      Goes e.dueNow call e (beginAll stopInner call r (e, begun) targets).1 (targets.map (e.ordered r) ++ nested)
        (Stopping.pendingOf closings) (Stopping.deadlinesOf closings) 0 (Stopping.tallyOf closings) ∧
      (∀ o ∈ Stopping.ordersOf closings, e.StandsIn o.node) ∧ (∀ c ∈ closings, c.Alive) ∧
      ∀ o ∈ nested, ∃ n ∈ targets, o.removed = (e.ordered r n).removed ∧ e.NestedIn r.level n o := by
  induction targets generalizing e begun with
  | nil =>
    exact ⟨[], [], (List.append_nil _).symm, .silent (.refl _), ⟨[], .idle (.refl e) (.refl _ e), (add_zero _).symm⟩,
      by simp [Stopping.ordersOf], by simp, by simp⟩
  | cons n ns ih =>
    have hns := List.nodup_cons.mp hnodup
    obtain ⟨nested, hd, hg, hbi, halive, hin⟩ := asks_beginClosing hs hl hm r.level n (e.ordered r n).removed
      (hout n List.mem_cons_self) (hb n List.mem_cons_self)
    have hdw := hd.stops.dwindles hl
    have hb' : ∀ m ∈ ns, ∀ node' i,
        (beginClosing stopInner call e r.level n (e.ordered r n).removed).1.node? m = some node' →
        (beginClosing stopInner call e r.level n (e.ordered r n).removed).1.instance? r.level node'.id = some i →
        (beginClosing stopInner call e r.level n (e.ordered r n).removed).1.StandsIn m := by
      intro m hmem node' i hnode' hi
      have hrec := StopsWithin.record hd.stops m
      rw [hnode'] at hrec
      obtain ⟨node, hnode, hrec⟩ := Option.map_eq_some_iff.mp hrec.symm
      have hid : node'.id = node.id := (congrArg Record.id hrec).symm
      rw [hid] at hi
      exact hd.stops.standsIn (hb m (List.mem_cons_of_mem n hmem) node i hnode (hdw.inst _ _ _ hi))
    obtain ⟨nested', closings, hcs, hd', hg', hbi', halive', hin'⟩ :=
      ih (beginClosing stopInner call e r.level n (e.ordered r n).removed).1
        (begun ++ [(beginClosing stopInner call e r.level n (e.ordered r n).removed).2]) (hd.stops.laid hl)
        (hm.stops hl hd.stops) hns.2 (fun m hmem ha => hout m (List.mem_cons_of_mem n hmem) (hdw.isActive ha)) hb'
    rw [StopsWithin.ordered hd.stops] at hin' hg'
    rw [hd.stops.dueNow hg.tranquil] at hg'
    -- whoever is nested was active, and none of the others was
    have hapart : ∀ m ∈ (nested ++ [e.ordered r n]).map (·.node),
        m ∉ (ns.map (e.ordered r) ++ nested').map (·.node) := by
      intro m hm₁ hm₂
      rw [List.map_append, List.mem_append] at hm₁ hm₂
      rw [map_node_ordered] at hm₂
      rcases hm₁ with hm₁ | hm₁
      · obtain ⟨ha, hgone⟩ := (hd.left m).mp hm₁
        rcases hm₂ with hm₂ | hm₂
        · exact hout m (List.mem_cons_of_mem n hm₂) ha
        · exact hgone ((hd'.left m).mp hm₂).1
      · have hmn : m = n := List.mem_singleton.mp hm₁
        subst hmn
        rcases hm₂ with hm₂ | hm₂
        · exact hns.1 hm₂
        · exact hout m List.mem_cons_self (hdw.isActive ((hd'.left m).mp hm₂).1)
    have hall := hg.append hg' hapart
    rw [add_zero] at hall
    refine ⟨nested ++ nested', (beginClosing stopInner call e r.level n (e.ordered r n).removed).2 :: closings, ?_,
      hd.trans hl hd', Goes.regroup hall ?_, fun o ho => ?_, List.forall_mem_cons.mpr ⟨halive, halive'⟩, fun o ho => ?_⟩
    · exact hcs.trans (by simp)
    · rw [List.perm_iff_count]
      intro o
      have heq : (⟨n, (e.ordered r n).removed⟩ : Order) = e.ordered r n := rfl
      simp only [heq, List.map_cons, List.count_append, List.count_cons, List.count_nil]
      omega
    · rcases List.mem_append.mp ho with ho | ho
      · exact hbi o ho
      · exact standsIn_of_face (StopsWithin.face hd.stops o.node).symm (hbi' o ho)
    · rcases List.mem_append.mp ho with ho | ho
      · exact ⟨n, List.mem_cons_self, hin o ho⟩
      · obtain ⟨m, hmem, hr, hnest⟩ := hin' o ho
        exact ⟨m, List.mem_cons_of_mem n hmem, hr, hnest.before hd.stops hl⟩

/-- A stop begins: each node that leaves has been asked, unless it is a usage node whose instance is still stopping. -/
theorem asks_beginStop (call : CallKey) (fuel : Nat) (e : Engine) (hl : Laid e) (hm : Manned e) (r : StopRequest) :
    ∃ orders, Asks call e (beginStop call fuel e r).1 orders (beginStop call fuel e r).2 ∧
      ∀ o ∈ orders, ∃ j id, e.activeKey? j id = some o.node ∧ r.Takes e j id o.removed := by
  induction fuel generalizing e r with
  | zero => exact ⟨[], .idle call e, by simp⟩
  | succ fuel ih =>
    cases hlevel : e.level? r.level with
    | none =>
      unfold beginStop
      rw [hlevel]
      exact ⟨[], .idle call e, by simp⟩
    | some l =>
      have hs : AsksInside call (beginStop call fuel) := by
        intro m inst removed hlm hmm removal hr
        obtain ⟨orders, hasks, hall⟩ := ih m hlm hmm ⟨inst, none, removal⟩
        have hholds (id : NodeId) : removal.holds id = removed := by
          subst hr
          cases removed <;> rfl
        refine ⟨orders, hasks, fun o ho => ?_⟩
        obtain ⟨j, id, ha, ht⟩ := hall o ho
        obtain ⟨node, told⟩ := o
        cases ht with
        | own => exact ⟨hholds _, inst, id, ha, .here⟩
        | nested _ hi hin => exact ⟨hholds _, j, id, ha, .of_instance hi hin⟩
      -- the nodes of the stop's own level
      have hnode (n : NodeKey) (hn : n ∈ e.stopTargets l r.filter) : ∃ node, e.node? n = some node ∧
          e.activeKey? r.level node.id = some n ∧ r.Covers node.id ∧ e.ordered r n = ⟨n, r.removal.holds node.id⟩ := by
        obtain ⟨id, hn, hc⟩ := (mem_stopTargets hl hlevel).mp hn
        have ha : l.active.get? id = some n := by rwa [activeKey?, hlevel] at hn
        obtain ⟨node, hnode, -, rfl⟩ := (hl _ l hlevel).active id n ha
        exact ⟨node, hnode, hn, hc, by simp [Engine.ordered, hnode]⟩
      rw [beginStop_eq call fuel hlevel]
      have hv := departs_vacated hl hlevel
      have hlv := hv.stops.laid hl
      have htranquil : Tranquil [] e (e.vacated l r) := tranquil_vacated e l r
      obtain ⟨nested, closings, hcs, hd, hg, hbi, halive, hin⟩ :=
        asks_beginAll hs r (e.stopTargets l r.filter) (e.vacated l r) [] hlv (hm.stops hl hv.stops)
          (nodup_stopTargets (hl _ l hlevel) r.filter)
          (fun n hn ha => ((isActive_vacated hl hlevel).mp ha).2 hn) fun n hn node' i hnode' hi => by
            obtain ⟨node, hnode, ha, -⟩ := hnode n hn
            have hrec := StopsWithin.record hv.stops n
            rw [hnode', hnode] at hrec
            have hid : node'.id = node.id := congrArg Record.id (Option.some.inj hrec)
            rw [hid, instance?_vacated] at hi
            exact hv.stops.standsIn (hm _ _ i n hi ha)
      rw [StopsWithin.ordered hv.stops, hv.stops.dueNow htranquil] at hg
      have hg := goes_finishStop r.level r.filter.isNone l.phase false (hg.before hv.stops htranquil)
      have hdep := (hv.trans hl hd).trans hl
        (departs_finishStop (hd.stops.laid hlv) r.level r.filter.isNone l.phase false closings)
      rw [List.append_nil] at hdep
      rw [hcs, List.nil_append]
      refine ⟨(e.stopTargets l r.filter).map (e.ordered r) ++ nested, ⟨hdep, hg, fun o ho => ?_,
        alive_finishStop _ _ _ _ _ halive⟩,
        fun o ho => ?_⟩
      · have hperm := (serving_finishStop (beginAll (beginStop call fuel) call r (e.vacated l r, [])
          (e.stopTargets l r.filter)).1 r.level r.filter.isNone l.phase false closings e.idsOf).orders
        exact standsIn_of_face (StopsWithin.face hv.stops o.node).symm (hbi o (hperm.subset (by simpa using ho)))
      · rcases List.mem_append.mp ho with ho | ho
        · obtain ⟨n, hn, rfl⟩ := List.mem_map.mp ho
          obtain ⟨node, -, ha, hc, hord⟩ := hnode n hn
          rw [hord]
          exact ⟨r.level, node.id, ha, .own hc⟩
        · obtain ⟨n, hn, hr, hnest⟩ := hin o ho
          obtain ⟨node, hk, -, hc, hord⟩ := hnode n hn
          obtain ⟨node', inst, j, id, hk', hi, ha, hins⟩ := hnest.before hv.stops hl
          obtain rfl := Option.some.inj (hk.symm.trans hk')
          rw [StopsWithin.ordered hv.stops, hord] at hr
          refine ⟨j, id, ha, ?_⟩
          rw [hr]
          exact .nested hc hi hins

/-- The orders of a stop that begins are determined by who leaves and what they are told. -/
theorem Commences.perm {s : Stopping} {given served orders : List Order} (h : Commences e r e' s given served)
    (hl : Laid e) (hd : Departs e e' orders)
    (hall : ∀ o ∈ orders, ∃ j id, e.activeKey? j id = some o.node ∧ r.Takes e j id o.removed) :
    given.Perm orders := by
  refine (List.perm_ext_iff_of_nodup (.of_map _ h.once) (.of_map _ hd.once)).mpr fun o => ⟨fun ho => ?_, fun ho => ?_⟩
  · obtain ⟨o', ho', hnode⟩ := List.mem_map.mp ((hd.left o.node).mpr ((h.left hl).mp (List.mem_map_of_mem ho)))
    obtain ⟨j, id, ha, ht⟩ := (h.given o).mp ho
    obtain ⟨j', id', ha', ht'⟩ := hall o' ho'
    rw [hnode] at ha'
    obtain ⟨rfl, rfl⟩ := hl.activeKey?_inj ha' ha
    have hremoved := hl.takes_unique ht' ht
    obtain ⟨node, removed⟩ := o
    obtain ⟨node', removed'⟩ := o'
    obtain rfl : node' = node := hnode
    obtain rfl : removed' = removed := hremoved
    exact ho'
  · exact (h.given o).mpr (hall o ho)

/-- Stops begin side by side with these orders. -/
theorem asks_beginStops (key : CallKey) (requests : List StopRequest) (s : Engine × List Stopping) (hl : Laid s.1)
    (hh : Housed s.1) (hm : Manned s.1) : ∃ stops given served, (beginStops key s requests).2 = s.2 ++ stops ∧
      Opening s.1 requests (beginStops key s requests).1 stops given served ∧
      Goes s.1.dueNow key s.1 (beginStops key s requests).1 given (stops.flatMap Stopping.pending)
        (stops.flatMap Stopping.deadlines) 0 (stops.map Stopping.tally).sum ∧
      (∀ stop ∈ stops, stop.Alive ∧ Known s.1 stop.nodes) ∧
      ∀ o ∈ stops.flatMap Stopping.orders, s.1.StandsIn o.node := by
  induction requests generalizing s with
  | nil =>
    exact ⟨[], [], [], (List.append_nil _).symm, .nil _, ⟨[], .idle (.refl _) (.refl _ _), (add_zero _).symm⟩, by simp,
      by simp⟩
  | cons r rs ih =>
    obtain ⟨given, served, hc⟩ := commences_stop hl hh key r
    obtain ⟨orders, hasks, hall⟩ := asks_beginStop key (s.1.levelCount + 1) s.1 hl hm r
    change Asks key s.1 (s.1.stop key r).1 orders (s.1.stop key r).2 at hasks
    have hlm := hc.stops.laid hl
    obtain ⟨stops, given', served', hstops, ho, hg, hk, hb⟩ :=
      ih ((s.1.stop key r).1, s.2 ++ [(s.1.stop key r).2]) hlm (hc.housed hl hh) (hm.stops hl hc.stops)
    rw [Stops.dueNow hc.stops hasks.goes.tranquil] at hg
    have hfirst := Goes.regroup hasks.goes (hc.perm hl hasks.departs hall)
    have hapart : ∀ n ∈ given.map (·.node), n ∉ given'.map (·.node) := fun n hn hn' =>
      ((hc.left hl).mp hn).2 (((ho.departs hlm).left n).mp hn').1
    have hgoes := hfirst.append hg hapart
    rw [add_zero] at hgoes
    refine ⟨(s.1.stop key r).2 :: stops, _, _, ?_, .cons hc ho, ?_, fun stop hmem => ?_, fun o ho => ?_⟩
    · exact hstops.trans (by simp)
    · rw [List.map_cons, List.sum_cons]
      exact hgoes
    · rcases List.mem_cons.mp hmem with rfl | hmem
      · exact ⟨hasks.alive, known_beginStop _ _ _ _⟩
      · refine ⟨(hk stop hmem).1, fun n hn => ?_⟩
        rw [← size_of_face (StopsWithin.face hc.stops)]
        exact (hk stop hmem).2 n hn
    · rw [List.flatMap_cons] at ho
      rcases List.mem_append.mp ho with ho | ho
      · exact hasks.standsIn o ho
      · exact standsIn_of_face (StopsWithin.face hc.stops o.node).symm (hb o ho)

end Flowgraph.Engine
