import Flowgraph.Proofs.Following
import Flowgraph.Proofs.Ordering
import Flowgraph.Proofs.Difference
/-! Which nodes run. Every node that is active in a running flow is an enabled node of that flow in the generation
that is deployed, unless deployments in place have left it behind: its record has moved into a template, and the
difference of two generations names no node whose record is in a template then. -/
namespace Flowgraph
open Engine

/-- The flow has an enabled node of this id. -/
def FlowConfig.Enlists (c : FlowConfig) (id : NodeId) : Prop := ∃ r ∈ c.nodes, r.id = id ∧ r.disabled = false

instance (c : FlowConfig) (id : NodeId) : Decidable (c.Enlists id) :=
  inferInstanceAs (Decidable (∃ r ∈ c.nodes, r.id = id ∧ r.disabled = false))

/-! ## What is known of the nodes of a level -/

/-- The nodes that may be active in a level. -/
structure Roster where
  config : FlowConfig
  may : NodeId → Prop
  /-- The call has dealt with the level. -/
  settled : Bool

namespace Roster

/-- The entries of the level that no node may have. -/
def Bars (s : Roster) (k j : LevelKey) (id : NodeId) : Prop := j = k ∧ ¬s.may id

/-- No other nodes are active in the level, and no others are going to be made in it. -/
structure Tells (e : Engine) (k : LevelKey) (s : Roster) : Prop where
  flow : ∃ l, e.level? k = some l ∧ l.kind.isOutermost = true ∧ l.config = s.config ∧ l.id = s.config.id
  absent : ∀ id, ¬s.may id → e.activeKey? k id = none
  planned : ∀ a ∈ e.plan, Avoids (s.Bars k) e a

variable {e e' : Engine} {k : LevelKey} {s t : Roster} {a : Action}

/-- An action that avoids the entries makes none of them, whatever becomes of the engine. -/
theorem Tells.avoids (h : Tells e k s) (ha : Avoids (s.Bars k) e a) : Avoids (s.Bars k) e' a := by
  cases a with
  | create j r templates =>
    rintro ⟨rfl, hr⟩
    have hsome := ha ⟨rfl, hr⟩
    rw [h.absent r.id hr] at hsome
    cases hsome
  | install j r i => exact ha
  | _ => trivial

theorem avoids_elsewhere (ha : a.makesIn? ≠ some k) : Avoids (s.Bars k) e a := by
  cases a with
  | create j r templates =>
    rintro ⟨rfl, -⟩
    exact absurd rfl ha
  | install j r i =>
    rintro ⟨rfl, -⟩
    exact ha rfl
  | _ => trivial

theorem Tells.transfer (h : Tells e k s) (hr : Resembles k e e') (ha : ∀ id, ¬s.may id → e'.activeKey? k id = none)
    (hp : ∀ a ∈ e'.plan, Avoids (s.Bars k) e' a) : Tells e' k s := by
  obtain ⟨l, hl, ho, hc, hi⟩ := h.flow
  obtain ⟨l', hl', halike⟩ := hr l hl
  exact ⟨⟨l', hl', halike.kind ▸ ho, halike.config.trans hc, halike.id.trans hi⟩, ha, hp⟩

theorem Tells.beside (h : Tells e k s) (hb : Beside k e e') : Tells e' k s := by
  refine h.transfer hb.level (fun id hm => (hb.active k id rfl).trans (h.absent id hm)) fun a ha => ?_
  by_cases hk : a.makesIn? = some k
  · exact h.avoids (h.planned a (hb.gains a ha hk))
  · exact avoids_elsewhere hk

theorem Tells.makes {rest : List Action} (hl : Laid e) (h : Tells e k s) (ha : e.agenda = a :: rest)
    (hk : a.makesIn? = some k) : Tells ({ e with agenda := rest }.act a) k s := by
  have hm := makes_of_makesIn? hk
  have hlaid : Laid { e with agenda := rest } := hl.of_levels (.of_eq rfl rfl rfl rfl) fun _ => rfl
  obtain ⟨l, hlev, -⟩ := h.flow
  have hnew (id : NodeId) : ¬s.Bars k ({ e with agenda := rest } : Engine).levels.size id := fun hb =>
    Nat.ne_of_lt (level?_lt e k hlev) hb.1.symm
  obtain ⟨hs, hplan⟩ := spares_makes hlaid.placed hnew (h.avoids (h.planned a (mem_plan_of_makes ha hm))) hm
  have hpop : Resembles k e { e with agenda := rest } := .of_level? rfl
  refine h.transfer (hpop.trans (resembles_makes hm))
    (fun id hid => (hs.active k id ⟨rfl, hid⟩).trans (h.absent id hid)) fun b hb => ?_
  exact (hplan b hb).elim (fun hb => h.avoids (h.planned b (mem_plan_pop ha hb))) id

theorem Tells.stops (hl : Laid e) (h : Tells e k s) (hs : Engine.Stops e e') : Tells e' k s := by
  refine h.transfer (StopsWithin.resembles hs) (fun id hid => (hs.dwindles hl).none_of_none (h.absent id hid))
    fun a ha => ?_
  rw [plan, hs.agenda] at ha
  exact h.avoids (h.planned a ha)

theorem Tells.vacates {ids : List NodeId} (h : Tells e k s) (hp : e.plan = [])
    (hi : ∀ id ∈ ids, e.activeKey? k id = none) : Tells e k { s with may := fun id => s.may id ∧ id ∉ ids } := by
  refine ⟨h.flow, fun id hid => ?_, by simp [hp]⟩
  by_cases hm : id ∈ ids
  · exact hi id hm
  · exact h.absent id fun hmay => hid ⟨hmay, hm⟩

theorem Tells.updates {c : FlowConfig} (h : Tells e k s) (hp : e.plan = []) (hc : c.id = s.config.id) :
    Tells (e.modifyLevel k fun l => { l with config := c }) k { s with config := c } := by
  obtain ⟨l, hl, ho, -, hi⟩ := h.flow
  refine ⟨⟨{ l with config := c }, ?_, ho, rfl, hi.trans hc.symm⟩, fun id hid => ?_, fun a ha => ?_⟩
  · rw [level?_modifyLevel, if_pos rfl, hl]
    rfl
  · have hs : Spares (fun _ _ => True) e (e.modifyLevel k fun l => { l with config := c }) :=
      .modifyLevel e (fun _ _ _ _ => rfl) fun _ _ _ _ => rfl
    exact (hs.active k id trivial).trans (h.absent id hid)
  · change a ∈ e.plan at ha
    simp [hp] at ha

theorem tells_appears {kind : LevelKind} {c : FlowConfig} (hp : e.plan = []) (hk : kind.isOutermost = true) :
    Tells (e.addLevel (.make kind none c)).1 e.levels.size ⟨c, fun _ => False, false⟩ := by
  refine ⟨⟨.make kind none c, by rw [level?_addLevel, if_pos rfl], hk, rfl, rfl⟩, fun id _ => ?_, fun a ha => ?_⟩
  · rw [activeKey?, level?_addLevel, if_pos rfl]
    rfl
  · change a ∈ e.plan at ha
    simp [hp] at ha

/-- The nodes that are made when a configuration is applied are its enabled ones. -/
theorem Tells.applies {diff : Option Diff} {order : List Nat} (h : Tells e k s) (hp : e.plan = [])
    (hc : t.config = s.config) (hm : ∀ id, s.may id ∨ s.config.Enlists id → t.may id)
    (ho : StartOrder.resolve s.config.nodes = .ok order) (key : CallKey) :
    Tells (((e.rewired k s.config diff).push [.announce k, .resume key]).activated k s.config order) k t := by
  obtain ⟨l, hl, hkind, hcfg, hi⟩ := h.flow
  have hflow : e.IsFlow k := Option.isSome_iff_exists.mpr ⟨_, config?_eq_some.mpr ⟨l, hl, hkind, rfl⟩⟩
  obtain ⟨l', hl', halike⟩ := resembles_rewired hflow k s.config diff l hl
  have hactive (id : NodeId) : (((e.rewired k s.config diff).push [.announce k, .resume key]).activated k s.config
      order).activeKey? k id = e.activeKey? k id := by
    have hs : Spares (fun _ _ => True) ((e.rewired k s.config diff).push [.announce k, .resume key])
        (((e.rewired k s.config diff).push [.announce k, .resume key]).activated k s.config order) :=
      spares_activated _ _ _ _
    exact (hs.active k id trivial).trans (activeKey?_rewired e k s.config diff k id)
  refine ⟨⟨{ l' with env := Scope.evaluate (((e.rewired k s.config diff).push
    [.announce k, .resume key]).settingAround k) s.config.env }, ?_, ?_, ?_, ?_⟩, fun id hid => ?_, fun a ha => ?_⟩
  · rw [level?_activated, if_pos rfl, level?_push, hl']
    rfl
  · exact halike.kind ▸ hkind
  · exact halike.config.trans (hcfg.trans hc.symm)
  · exact halike.id.trans (hi.trans (congrArg _ hc.symm))
  · exact (hactive id).trans (h.absent id fun hmay => hid (hm id (.inl hmay)))
  · rw [plan_activated, plan_push, plan_rewired hp, List.append_nil] at ha
    rcases List.mem_append.mp ha with ha | ha
    · rcases List.mem_append.mp ha with ha | ha
      · obtain ⟨r, hr, rfl⟩ := List.mem_map.mp ha
        obtain ⟨pos, hpos, hr⟩ := List.mem_filterMap.mp hr
        obtain ⟨r', hr', hd⟩ := (StartOrder.mem_resolve ho).mp hpos
        obtain rfl := Option.some.inj (hr.symm.trans hr')
        rintro ⟨-, hmay⟩
        exact absurd (hm r.id (.inr ⟨r, List.mem_of_getElem? hr, rfl, hd⟩)) hmay
      · obtain rfl := List.mem_singleton.mp ha
        trivial
    · exact avoids_elsewhere (by
        rcases List.mem_cons.mp (List.mem_of_mem_filter ha) with rfl | ha
        · simp [Action.makesIn?]
        · obtain rfl := List.mem_singleton.mp ha
          simp [Action.makesIn?])

/-- What is known of levels in terms of the nodes that may be active in them. -/
def reading : Reading Roster where
  config := Roster.config
  Due s := s.settled = false
  Lacks s id := ¬s.may id
  bare c := ⟨c, fun _ => False, false⟩
  without s ids := { s with may := fun id => s.may id ∧ id ∉ ids }
  under s c := { s with config := c }
  Opens _ _ := True
  Applies _ s t := t.config = s.config ∧ ∀ id, s.may id ∨ s.config.Enlists id → t.may id
  Tells := Tells
  config_bare _ := rfl
  config_without _ _ := rfl
  config_under _ _ := rfl
  config_applies h := h.1
  due_bare _ := rfl
  due_without _ h := h
  due_under _ h := h
  flow h := h.flow
  absent h hl := h.absent _ hl
  beside h hb := h.beside hb
  makes hl h ha hk := h.makes hl ha hk
  stops hl h _ hs := h.stops hl hs
  vacates h _ hp hi := h.vacates hp hi
  updates h _ hp hc := h.updates hp hc
  appears hp hk _ := tells_appears hp hk
  applies _ h _ hp ha ho _ key := h.applies hp ha.1 ha.2 ho key

end Roster

/-! ## What is left behind -/

/-- The flow goes on in the next generation. -/
def Deployment.GoesOn (previous next : Deployment) (flow : String) : Prop :=
  flow = globalId ∨ survives previous next flow = true

/-- The difference of two generations names the node neither as changed nor as removed. -/
def Diff.Overlooks (previous next : Deployment) (id : NodeId) : Prop :=
  ∃ diff, between? previous next = some diff ∧ id ∉ diff.changed ∧ id ∉ diff.removed

/-- A node that deployments in place have left behind in a flow, in a list of generations with the newest first:
its record was in the flow and moved into a template while the flow went on, and no difference has named it then or
since. -/
inductive Deployment.LeftBehind (flow : String) (id : NodeId) : List Deployment → Prop
  | moves {next previous : Deployment} {older : List Deployment} {c : FlowConfig} {r : Record}
      (hg : previous.GoesOn next flow) (hd : Diff.Overlooks previous next id) (hc : c ∈ previous.global :: previous.tabs)
      (hi : c.id = flow) (he : c.Enlists id) (hr : next.nodes.get? id = some r)
      (ht : Diff.inTemplate next r.container = true) : LeftBehind flow id (next :: previous :: older)
  | stays {next previous : Deployment} {older : List Deployment} (hg : previous.GoesOn next flow)
      (hd : Diff.Overlooks previous next id) (h : LeftBehind flow id (previous :: older)) :
      LeftBehind flow id (next :: previous :: older)

/-- An enabled node of a flow that the difference overlooks is an enabled node of the flow that takes its place, or
in a template then. -/
theorem Deployment.Arranged.enlists {previous next : Deployment} {olds news : List Record} {diff : Diff}
    (ho : previous.Arranged olds) (hn : next.Arranged news) (hd : Diff.between? previous next = some diff)
    {c c' : FlowConfig} {p : Option String → Bool} (hc : c.nodes = olds.filter (p ·.container))
    (hc' : c'.nodes = news.filter (p ·.container)) {id : NodeId} (he : c.Enlists id) (hch : id ∉ diff.changed)
    (hrm : id ∉ diff.removed) :
    c'.Enlists id ∨ ∃ r, next.nodes.get? id = some r ∧ Diff.inTemplate next r.container = true := by
  obtain ⟨r, hr, rfl, hdis⟩ := he
  rw [hc] at hr
  obtain ⟨hr, hb⟩ := List.mem_filter.mp hr
  by_cases hin : ∃ r' ∈ news, r'.id = r.id ∧ Diff.inTemplate next r'.container = true
  · obtain ⟨r', hr', hid, ht⟩ := hin
    refine .inr ⟨r', ?_, ht⟩
    rw [hn.nodes, ← hid]
    exact find?_of_nodup hn.nodup hr'
  · have hout : ∀ r' ∈ news, r'.id = r.id → Diff.inTemplate next r'.container = false := fun r' hr' hid =>
      Bool.eq_false_iff.mpr fun ht => hin ⟨r', hr', hid, ht⟩
    obtain ⟨r', hr', hid, hsame, -⟩ := ho.kept hn hd hr hout hch hrm
    obtain ⟨-, hcont, hdis', -⟩ := Diff.nodeDiffers_eq_false.mp hsame
    refine .inl ⟨r', ?_, hid, hdis' ▸ hdis⟩
    rw [hc']
    exact List.mem_filter.mpr ⟨hr', hcont ▸ hb⟩

namespace Roster

/-- The nodes of a flow once it has started. -/
def ofFlow (generations : List Deployment) (c : FlowConfig) : Roster :=
  ⟨c, fun id => c.Enlists id ∨ Deployment.LeftBehind c.id id generations, true⟩

/-- Another call has not dealt with the level yet. -/
def rest (s : Roster) : Roster := { s with settled := false }

/-- The flows that run are those of the generation at the head of the list. -/
def Enrolled (generations : List Deployment) (S : Scene Roster) : Prop :=
  S.Shows (fun d _ => generations.head? = some d) (ofFlow generations)

variable {S : Scene Roster} {previous next d : Deployment} {older generations : List Deployment} {diff : Diff}
  {c c' : FlowConfig} {olds news rs : List Record}

theorem pictures_ofFlow (generations : List Deployment) (d : Deployment) :
    reading.Pictures (ofFlow generations) d where
  settled _ := Bool.noConfusion
  opens_global := trivial
  opens_tab _ _ := trivial
  applies _ _ := ⟨rfl, fun _ h => .inl (h.resolve_left id)⟩

theorem enrolled_of_runs (ha : d.Arranged rs) (hg : generations.head? = some d) {runs : FlowConfig → Bool}
    (S : Scene Roster) (hd : S.deployed = some d) (hr : S.Runs (ofFlow generations) d (d.tabs.filter runs) S.flows) :
    Enrolled generations S := .generation hd ha hg hr

/-- A flow goes on with its nodes: those of the next generation, and those that are left behind. -/
theorem renews_ofFlow (hd : Diff.between? previous next = some diff) (hc : c ∈ previous.global :: previous.tabs)
    (hi : c'.id = c.id) (hg : previous.GoesOn next c.id) (he : ∀ id, c.Enlists id → id ∉ diff.changed →
      id ∉ diff.removed → c'.Enlists id ∨ ∃ r, next.nodes.get? id = some r ∧ Diff.inTemplate next r.container = true) :
    reading.Renews diff (rest ∘ ofFlow (previous :: older)) (ofFlow (next :: previous :: older)) c c' := by
  refine ⟨hi, fun id hid hm => hm.2 hid, rfl, fun id hm => ?_⟩
  change (c.Enlists id ∨ Deployment.LeftBehind c.id id (previous :: older)) ∧ id ∉ diff.changed ++ diff.removed ∨
    c'.Enlists id at hm
  change c'.Enlists id ∨ Deployment.LeftBehind c'.id id (next :: previous :: older)
  rw [hi]
  rcases hm with ⟨hm, hid⟩ | hm
  · rw [List.mem_append, not_or] at hid
    have hover : Diff.Overlooks previous next id := ⟨diff, hd, hid⟩
    rcases hm with hm | hm
    · rcases he id hm hid.1 hid.2 with hm' | ⟨r, hr, ht⟩
      · exact .inl hm'
      · exact .inr (.moves hg hover hc rfl hm hr ht)
    · exact .inr (.stays hg hover hm)
  · exact .inl hm

theorem leads_startAll (hn : next.Arranged news) (hg : generations.head? = some next) (hf : S.flows = []) :
    reading.Leads (Enrolled generations) [.startAll next] S :=
  Reading.leads_startAll (P := fun _ => True) (pictures_ofFlow generations next)
    (fun S hd hr _ => enrolled_of_runs hn hg S hd hr) hf fun _ _ => trivial

theorem leads_deployNodes (ho : previous.Arranged olds) (hn : next.Arranged news)
    (hd : Diff.between? previous next = some diff) {runs : FlowConfig → Bool} (hdue : S.Due reading)
    (hr : S.Runs (rest ∘ ofFlow (previous :: older)) previous (previous.tabs.filter runs) S.flows)
    (hg : S.gathered = []) :
    reading.Leads (Enrolled (next :: previous :: older)) [.deployNodes previous next diff] S := by
  refine Reading.leads_deployNodes (P := fun _ => True) (pictures_ofFlow _ next)
    (fun e kept _ S hd hr _ => enrolled_of_runs hn rfl S hd hr) ho.tabIds hn.tabIds (fun _ => rfl) hdue hr hg
    (fun _ _ => .inr (.inr trivial)) ?_ fun c hc _ c' hc' hi hs => ?_
  · refine renews_ofFlow hd List.mem_cons_self (by rw [ho.global, hn.global]) (.inl (by rw [ho.global])) fun id he =>
      ho.enlists hn hd (p := Option.isNone) (by rw [ho.global]) (by rw [hn.global]) he
  · refine renews_ofFlow hd (List.mem_cons_of_mem _ hc) hi (.inr hs) fun id he =>
      ho.enlists hn hd (p := (· == some c.id)) ((ho.tabs c hc).1) (hi ▸ (hn.tabs c' hc').1) he

end Roster

/-! ## Runs of a runtime -/

namespace Session

/-- What is asked of a runtime. -/
inductive Request
  | load (records : List Json)
  | deploy (records : List Json) (kind : DeployKind)

def Request.records : Request → List Json
  | .load records | .deploy records _ => records

def request (s : Session) : Request → Except FlowFault Unit × Session
  | .load records => s.load records
  | .deploy records kind => ((s.deploy records kind).1.map fun _ => (), (s.deploy records kind).2)

/-- The generations since everything has been started last, the newest first, when a request has been answered. -/
def generations (s : Session) (older : List Deployment) (r : Request) : List Deployment :=
  match (s.request r).1, Deployment.parse r.records, r with
  | .ok _, .ok next, .deploy _ .nodes => next :: older
  | .ok _, .ok next, _ => [next]
  | _, _, _ => older

/-- The runs of a runtime: loads and deployments one after the other, each of which has come to its end. -/
inductive Run : Session → List Deployment → Prop
  | begin (registry : Registry) (outside : Outside) (settings : Dict Json) (processEnv : Dict String)
      (closeTimeout : Nat) : Run (onRuntime (.make registry outside settings processEnv closeTimeout)) []
  | request {s : Session} {older : List Deployment} {r : Request} (h : Run s older)
      (hr : AtRest (s.request r).2.engine) : Run (s.request r).2 (s.generations older r)

/-- At rest, with the flows of the generation at the head of the list. -/
structure Settled (s : Session) (generations : List Deployment) : Prop where
  reachable : Reachable s.engine
  atRest : AtRest s.engine
  shown : ∃ S, Roster.reading.Shown s.engine S ∧ Roster.Enrolled generations S

variable {s : Session} {older : List Deployment}

theorem generations_error {r : Request} {fault : FlowFault} (h : (s.request r).1 = .error fault) :
    s.generations older r = older := by
  unfold generations
  rw [h]

/-- What is known at rest is what is known at the beginning of the next call. -/
theorem Settled.retold (h : s.Settled older) : ∃ S : Scene Roster, Roster.reading.Shown s.engine S ∧
    S.Due Roster.reading ∧ S.gathered = [] ∧
      S.Shows (fun d _ => older.head? = some d) (Roster.rest ∘ Roster.ofFlow older) := by
  obtain ⟨S, hs, he⟩ := h.shown
  obtain ⟨hshown, hdue⟩ := hs.retell (f := Roster.rest) (fun _ => rfl) fun _ _ h => ⟨h.flow, h.absent, h.planned⟩
  refine ⟨S.retell Roster.rest, hshown, hdue, rfl, ?_⟩
  cases he with
  | nothing hd hf hg => exact .nothing hd hf hg
  | generation hd ha hp hr => exact .generation hd ha hp (hr.retell Roster.rest)

/-- A call that leads from the flows of one generation to those of another does so, if it comes to its end. -/
theorem Settled.call {stages : List Stage} {generations : List Deployment} (h : s.Settled older)
    (ho : s.engine.Offers stages) (hr : AtRest (s.call stages).2.engine) (hf : outcome (s.call stages).1 = .ok ())
    (hl : ∀ S : Scene Roster, S.Due Roster.reading → S.gathered = [] → s.engine.flows = S.flows →
      s.engine.deployed = S.deployed → S.Shows (fun d _ => older.head? = some d) (Roster.rest ∘ Roster.ofFlow older) →
      Roster.reading.Leads (Roster.Enrolled generations) stages S) :
    (s.call stages).2.Settled generations := by
  obtain ⟨S, hs, hdue, hga, hshows⟩ := h.retold
  obtain ⟨S', hfinal, hs'⟩ := hs.session h.reachable h.atRest ho hga
    (hl S hdue hga hs.flows hs.deployed hshows) hr hf
  exact ⟨reachable_call h.reachable h.atRest.idle ho, hr, S', hs', hfinal⟩

theorem flows_of_shows {Fits : Deployment → (FlowConfig → Bool) → Prop} {picture : FlowConfig → Roster}
    {S : Scene Roster} (h : S.Shows Fits picture) (hd : S.deployed = none) : S.flows = [] := by
  cases h with
  | nothing _ hf _ => exact hf
  | generation hd' => cases hd'.symm.trans hd

theorem Settled.load {records : List Json} (h : s.Settled older) (hr : AtRest (s.load records).2.engine) :
    (s.load records).2.Settled (s.generations older (.load records)) := by
  rcases load_cases h.reachable h.atRest records with ⟨-, ⟨fault, hf⟩, hu⟩ | ⟨hn, hok⟩
  · rw [generations_error (r := .load records) hf]
    obtain ⟨S, hs, he⟩ := h.shown
    exact ⟨reachable_load h.reachable h.atRest.idle, hr, S, hs.untouched hu, he⟩
  · rw [not_or] at hn
    have hdep : s.engine.deployed = none := by simpa using hn.1
    cases hp : Deployment.parse records with
    | error fault => exact absurd (.inl ⟨fault, hp⟩) hn.2
    | ok next =>
      have hst : s.engine.stagesOfLoad records = .ok [.startAll next] := by
        unfold stagesOfLoad
        rw [if_neg hn.1, hp]
      have hload : s.load records = (outcome (s.call [.startAll next]).1, (s.call [.startAll next]).2) := by
        unfold Session.load
        rw [hst]
      obtain ⟨rs, hrs⟩ := Deployment.parse_arranged hp
      have hout : outcome (s.call [.startAll next]).1 = .ok () := by
        rw [hload] at hok
        cases ho : outcome (s.call [.startAll next]).1 with
        | ok u => rfl
        | error fault => exact absurd ho (hok fault)
      have hgen : s.generations older (.load records) = [next] := by
        simp [generations, request, Request.records, hload, hout, hp]
      rw [hgen]
      rw [hload] at hr ⊢
      exact h.call (.load hst) hr hout fun S _ _ _ hd hs =>
        Roster.leads_startAll hrs rfl (flows_of_shows hs (hd.symm.trans hdep))

theorem Settled.deploy {records : List Json} {kind : DeployKind} (h : s.Settled older)
    (hr : AtRest (s.deploy records kind).2.engine) :
    (s.deploy records kind).2.Settled (s.generations older (.deploy records kind)) := by
  rcases deploy_cases h.reachable h.atRest records kind with ⟨-, ⟨fault, hf⟩, hsame⟩ | ⟨-, hok⟩
  · have herr : (s.request (.deploy records kind)).1 = .error fault := by simp [request, hf, Except.map]
    rw [generations_error herr, hsame]
    exact h
  · rcases stagesOfDeploy_cases s.engine records kind with
      ⟨fault, -, hst⟩ | ⟨next, hp, ⟨fault, -, hst⟩ | ⟨-, ⟨stages, diff⟩, hcase, hst⟩⟩
    · exact absurd (by unfold Session.deploy; rw [hst]) (hok (.config fault))
    · exact absurd (by unfold Session.deploy; rw [hst]) (hok (.config fault))
    · have hdeploy : s.deploy records kind = ((outcome (s.call stages).1).map fun _ =>
          (diff, (stopResult (s.call stages).1).elapsed), (s.call stages).2) := by
        unfold Session.deploy
        rw [hst]
      have hout : outcome (s.call stages).1 = .ok () := by
        rw [hdeploy] at hok
        cases ho : outcome (s.call stages).1 with
        | ok u => rfl
        | error fault =>
          rw [ho] at hok
          exact absurd rfl (hok fault)
      have hgen : s.generations older (.deploy records kind) = if kind = .nodes then next :: older else [next] := by
        cases kind <;> simp [generations, request, Request.records, hdeploy, hout, hp, Except.map]
      rw [hgen]
      rw [hdeploy] at hr ⊢
      obtain ⟨rs, hrs⟩ := Deployment.parse_arranged hp
      refine h.call (.deploy hst) hr hout fun S hdue hga _ hd hs => ?_
      cases hcase with
      | endless => exact .stuck
      | first hnone =>
        refine Roster.leads_startAll hrs ?_ (flows_of_shows hs (hd.symm.trans hnone))
        split <;> rfl
      | full hprev =>
        exact Reading.leads_stopAll hdue fun _ hf _ => Roster.leads_startAll hrs rfl hf
      | nodes hprev hdiff =>
        cases hs with
        | nothing hd' => cases (hd.trans hd').symm.trans hprev
        | @generation d olds runs hd' ha hhead hruns =>
          obtain rfl := Option.some.inj ((hd.trans hd').symm.trans hprev)
          obtain ⟨older, rfl⟩ := List.head?_eq_some_iff.mp hhead
          exact Roster.leads_deployNodes ha hrs hdiff hdue hruns hga

theorem Run.answered {s' : Session} {r : Request} (h : s.Run older) (hs : s' = (s.request r).2)
    (hr : AtRest s'.engine) : ∃ generations, s'.Run generations := by
  subst hs
  exact ⟨_, h.request hr⟩

/-- Whatever has been asked of a runtime, one request after the other, the flows that run are those of the generation
that is deployed. -/
theorem Run.settled {generations : List Deployment} (h : s.Run generations) : s.Settled generations := by
  induction h with
  | begin registry outside settings processEnv closeTimeout =>
    refine ⟨.make _ _ _ _ _, ⟨rfl, rfl, by simp [onRuntime, Engine.make]⟩,
      ⟨fun _ => none, [], [], none, none⟩, Reading.shown_make _ _ _ _ _, .nothing rfl rfl rfl⟩
  | @request s older r h hr ih =>
    cases r with
    | load records => exact ih.load hr
    | deploy records kind => exact ih.deploy hr

/-- No node outlives its record, unless it is left behind. After each load and each deployment of a run, a node that
is active in the global flow or in a running tab is an enabled node of that flow in the generation that is deployed,
or deployments in place have left it behind there since the last start of everything. -/
theorem active_nodes_enrolled {generations : List Deployment} (h : s.Run generations) {k : LevelKey}
    (hk : s.engine.global = some k ∨ k ∈ s.engine.flows) :
    ∃ d c, s.engine.deployed = some d ∧ generations.head? = some d ∧ s.engine.config? k = some c ∧
      (s.engine.global = some k ∧ c = d.global ∨ k ∈ s.engine.flows ∧ c ∈ d.tabs) ∧
      ∀ id, (s.engine.activeKey? k id).isSome = true → c.Enlists id ∨ Deployment.LeftBehind c.id id generations := by
  obtain ⟨S, hs, he⟩ := h.settled.shown
  rw [hs.flows, hs.global] at hk ⊢
  cases he with
  | nothing hd hf hg =>
    rw [hf, hg] at hk
    simp at hk
  | @generation d rs runs hd ha hhead hr =>
    have hlevel {c : FlowConfig} (hkc : S.sketch k = some (Roster.ofFlow generations c)) :
        s.engine.config? k = some c ∧ ∀ id, (s.engine.activeKey? k id).isSome = true →
          c.Enlists id ∨ Deployment.LeftBehind c.id id generations := by
      have ht := hs.sketch k _ hkc
      obtain ⟨l, hl, ho, hc, -⟩ := ht.flow
      refine ⟨config?_eq_some.mpr ⟨l, hl, ho, hc⟩, fun id hactive => ?_⟩
      by_contra hno
      rw [ht.absent id hno] at hactive
      cases hactive
    obtain ⟨g, hg, -, hgs⟩ := hr.global
    rcases hk with hk | hk
    · obtain rfl := Option.some.inj (hk.symm.trans hg)
      exact ⟨d, d.global, hs.deployed.trans hd, hhead, (hlevel hgs).1, .inl ⟨hk, rfl⟩, (hlevel hgs).2⟩
    · obtain ⟨c, hc, hkc⟩ := exists_of_forall₂ hr.tabs hk
      exact ⟨d, c, hs.deployed.trans hd, hhead, (hlevel hkc).1, .inr ⟨hk, List.mem_of_mem_filter hc⟩, (hlevel hkc).2⟩

/-- A tab with one node, beside a template; the node is in the tab or in the template. -/
def oneNode (container : String) : List Json := [
  .obj [("id", .str "t"), ("type", .str "tab")],
  .obj [("id", .str "s"), ("type", .str "subflow")],
  .obj [("id", .str "a"), ("type", .str "test"), ("z", .str container)]]

/-- The node has been loaded in the tab. -/
def inTab : Session := ((onRuntime (.make .instrumented .shared [] [] 500)).request (.load (oneNode "t"))).2

/-- Then a deployment in place has moved its record into the template. -/
def intoTemplate : Session := (inTab.request (.deploy (oneNode "s") .nodes)).2

/-- A node whose record moves into a template is left behind in its tab. -/
theorem moved_into_template_left_behind : ∃ generations k c, intoTemplate.Run generations ∧
    k ∈ intoTemplate.engine.flows ∧ intoTemplate.engine.config? k = some c ∧
    (intoTemplate.engine.activeKey? k "a").isSome = true ∧ ¬c.Enlists "a" ∧
    Deployment.LeftBehind c.id "a" generations := by
  obtain ⟨hr, hr', hk, ha, hn⟩ : AtRest inTab.engine ∧ AtRest intoTemplate.engine ∧ 1 ∈ intoTemplate.engine.flows ∧
      (intoTemplate.engine.activeKey? 1 "a").isSome = true ∧
      (intoTemplate.engine.config? 1).all (fun c => !decide (c.Enlists "a")) = true := by decide +kernel
  obtain ⟨_, hrun⟩ : ∃ older, inTab.Run older :=
    (Run.begin .instrumented .shared [] [] 500).answered (by rw [inTab]) hr
  obtain ⟨generations, hrun⟩ : ∃ generations, intoTemplate.Run generations :=
    hrun.answered (by rw [intoTemplate]) hr'
  obtain ⟨-, c, -, -, hc, -, hall⟩ := active_nodes_enrolled hrun (.inr hk)
  rw [hc] at hn
  have hno : ¬c.Enlists "a" := by simpa using hn
  exact ⟨generations, 1, c, hrun, hk, hc, ha, hno, (hall "a" ha).resolve_left hno⟩

end Session
end Flowgraph
