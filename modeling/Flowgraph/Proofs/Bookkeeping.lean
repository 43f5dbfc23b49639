import Flowgraph.Proofs.Accounting
import Flowgraph.Proofs.Membership
/-! The books of a runtime. Whenever no call is under way, the deployment, the global flow and the list of running
flows fit together, and nothing is active in any other flow: as long as no load and no deployment overlaps with
another call. Stops of everything may overlap with each other. -/
namespace Flowgraph
open Engine

namespace Engine

variable {e e' : Engine} {key : CallKey} {k : LevelKey}

/-- The level is a started flow of this configuration. -/
def RunsAs (e : Engine) (k : LevelKey) (c : FlowConfig) : Prop :=
  ∃ l, e.level? k = some l ∧ l.kind.isOutermost = true ∧ l.config = c ∧ l.id = c.id ∧ l.phase = .started

/-- The enabled tabs of the deployment. -/
def enabledTabs (e : Engine) : List FlowConfig :=
  match e.deployed with
  | some d => d.tabs.filter (!·.disabled)
  | none => []

/-- The books are right. -/
structure Balanced (e : Engine) : Prop where
  deployed : e.deployed.isSome = e.global.isSome
  global : ∀ d g, e.deployed = some d → e.global = some g → e.RunsAs g d.global
  tabs : List.Forall₂ e.RunsAs e.flows e.enabledTabs
  /-- One flow for each id. -/
  ids : (e.flows.map e.flowId).Nodup
  /-- Nothing is active in any other flow, or anywhere inside it. -/
  others : ∀ k, e.IsFlow k → e.global ≠ some k → k ∉ e.flows → ∀ j, e.Inside k j → ∀ id, e.activeKey? j id = none

/-- Nothing is inside a level without nodes. -/
theorem Deserted.inside (h : e.Deserted k) (hh : Housed e) {j : LevelKey} (hj : e.Inside k j) (id : NodeId) :
    e.activeKey? j id = none := by
  rcases hj.first with rfl | ⟨u, i, hi, -⟩
  · exact h.inactive id
  · have := hh k u i hi
    rw [h.inactive u] at this
    cases this

end Engine

/-! ## One generation takes the place of another -/

namespace Roster

/-- A flow that runs, whatever its nodes are. -/
def running (c : FlowConfig) : Roster := ⟨c, fun _ => True, true⟩

/-- No tab of the generation passes for its global flow, and all that are enabled run. -/
def Plain (d : Deployment) (runs : FlowConfig → Bool) : Prop :=
  Deployment.globalId ∉ d.tabIds ∧ runs = (!·.disabled)

/-- The running flows are those of the generation that is deployed, and no others are known. -/
structure Booked (S : Scene Roster) : Prop where
  shows : S.Shows Plain running
  covers : S.Covers fun _ => False

variable {S : Scene Roster} {previous next : Deployment} {diff : Diff} {olds news : List Record}

theorem pictures_running (d : Deployment) : reading.Pictures running d where
  settled _ := Bool.noConfusion
  opens_global := trivial
  opens_tab _ _ := trivial
  applies _ _ := ⟨rfl, fun _ _ => trivial⟩

theorem renews_running {c c' : FlowConfig} (hi : c'.id = c.id) :
    reading.Renews diff (rest ∘ running) running c c' :=
  ⟨hi, fun _ hid hm => hm.2 hid, rfl, fun _ _ => trivial⟩

theorem Booked.knowsNothing (h : Booked S) (hd : S.deployed = none) : S.flows = [] ∧ S.KnowsOnly fun _ => False := by
  cases h.shows with
  | nothing _ hf hg =>
    refine ⟨hf, fun k hk => ?_⟩
    have := h.covers k hk
    simp [hf, hg] at this
  | generation hd' => cases hd'.symm.trans hd

theorem leads_startAll_booked (hn : next.Arranged news) (hg : Deployment.globalId ∉ next.tabIds) (hf : S.flows = [])
    (hk : S.KnowsOnly fun _ => False) : reading.Leads Booked [.startAll next] S :=
  Reading.leads_startAll (pictures_running next)
    (fun _ hd hr hc => ⟨.generation hd hn ⟨hg, rfl⟩ hr, hc⟩) hf hk

/-- The tabs that go on are among the enabled ones. -/
theorem filter_runsNext {e : Engine} {kept : List LevelKey} (hn : next.Arranged news)
    (hg : Deployment.globalId ∉ next.tabIds) (hk : ∀ k ∈ kept, survives previous next (e.flowId k) = true) :
    next.tabs.filter (e.runsNext kept) = next.tabs.filter (!·.disabled) := by
  refine List.filter_congr fun tab htab => ?_
  unfold runsNext
  cases hf : kept.find? fun k => e.flowId k == tab.id with
  | none => simp
  | some k =>
    have hi : e.flowId k = tab.id := by simpa using List.find?_some hf
    obtain ⟨c, hc, hd⟩ := flow?_of_survives (hk k (List.mem_of_find?_eq_some hf))
    rw [hi] at hc
    rcases Deployment.mem_of_flow? hc with hid | ⟨hc, hid⟩
    · exact absurd (hid ▸ List.mem_map_of_mem htab) hg
    · obtain rfl := List.inj_on_of_nodup_map hn.tabIds hc htab hid
      simp [hd]

theorem leads_deployNodes_booked (ho : previous.Arranged olds) (hn : next.Arranged news)
    (hpg : Deployment.globalId ∉ previous.tabIds) (hg : Deployment.globalId ∉ next.tabIds) (hdue : S.Due reading)
    (hr : S.Runs (rest ∘ running) previous (previous.tabs.filter (!·.disabled)) S.flows) (hga : S.gathered = [])
    (hk : S.Covers fun _ => False) : reading.Leads Booked [.deployNodes previous next diff] S := by
  refine Reading.leads_deployNodes (pictures_running next) (fun e kept hkept S hd hr hc => ?_) ho.tabIds hn.tabIds
    (fun _ => rfl) hdue hr hga hk (renews_running (by rw [ho.global, hn.global])) fun c _ _ c' _ hi _ =>
    renews_running hi
  rw [filter_runsNext hn hg fun k hk => (hkept k hk).2] at hr
  refine ⟨.generation hd hn ⟨hg, rfl⟩ hr, fun k hs => (hc k hs).imp_right (Or.imp_right fun hk => ?_)⟩
  obtain ⟨hk, hi⟩ := hk.resolve_left id
  exact hpg (hi ▸ (hkept k hk).1)

end Roster

/-! ## Loads and deployments -/

namespace Engine

variable {e e' : Engine} {key : CallKey} {k : LevelKey} {stages : List Stage}

/-- The engine is as its books say, and no other flows are known. -/
def Recorded (e : Engine) : Prop := ∃ S, Roster.reading.Shown e S ∧ Roster.Booked S

theorem runsAs_of_shown {S : Scene Roster} (hs : Roster.reading.Shown e S) {c : FlowConfig}
    (hk : S.sketch k = some (Roster.running c)) : e.RunsAs k c := by
  obtain ⟨l, hl, ho, hc, hi⟩ := (hs.sketch k _ hk).flow
  obtain ⟨l', hl', hp⟩ := hs.started k _ hk Bool.noConfusion
  obtain rfl := Option.some.inj (hl.symm.trans hl')
  exact ⟨l, hl, ho, hc, hi, hp⟩

theorem Recorded.balanced (h : Recorded e) (hr : Reachable e) : Balanced e := by
  obtain ⟨S, hs, hb⟩ := h
  have hothers (k : LevelKey) (hf : e.IsFlow k) (hg : e.global ≠ some k) (hk : k ∉ e.flows) (j : LevelKey)
      (hj : e.Inside k j) (id : NodeId) : e.activeKey? j id = none := by
    rw [hs.global] at hg
    rw [hs.flows] at hk
    have hnone : S.sketch k = none := by
      by_contra hno
      rcases hb.covers k hno with h | h | h
      · exact hg h
      · exact hk h
      · exact h
    exact (hs.others k hnone hf).inside hr.books.1.housed hj id
  cases hb.shows with
  | nothing hd hf hg =>
    refine ⟨by rw [hs.deployed, hs.global, hd, hg]; rfl, fun d g hd' => ?_, ?_, ?_, hothers⟩
    · rw [hs.deployed, hd] at hd'
      cases hd'
    · rw [enabledTabs, hs.flows, hs.deployed, hd, hf]
      exact .nil
    · rw [hs.flows, hf]
      exact List.nodup_nil
  | @generation d rs runs hd ha hp hruns =>
    obtain ⟨-, rfl⟩ := hp
    obtain ⟨g, hg, -, hgs⟩ := hruns.global
    refine ⟨by rw [hs.deployed, hs.global, hd, hg]; rfl, fun d' g' hd' hg' => ?_, ?_, ?_, hothers⟩
    · obtain rfl := Option.some.inj ((hs.deployed.trans hd).symm.trans hd')
      obtain rfl := Option.some.inj ((hs.global.trans hg).symm.trans hg')
      exact runsAs_of_shown hs hgs
    · rw [enabledTabs, hs.flows, hs.deployed, hd]
      exact hruns.tabs.imp fun _ _ hk => runsAs_of_shown hs hk
    · rw [hs.flows, hruns.flowIds (R := Roster.reading) (fun _ => rfl) fun k s hk => ?_]
      · exact ha.tabIds.sublist (List.filter_sublist.map _)
      · obtain ⟨l, hl, -, -, hi⟩ := (hs.sketch k s hk).flow
        simp only [flowId, hl, Option.map_some, Option.getD_some]
        exact hi

/-- The stages of a load or of a deployment in which no tab passes for the global flow. -/
inductive Replaces (e : Engine) : List Stage → Prop
  | load {records : List Json} {d : Deployment} {stages : List Stage} (hp : Deployment.parse records = .ok d)
      (hg : Deployment.globalId ∉ d.tabIds) (h : e.stagesOfLoad records = .ok stages) : Replaces e stages
  | deploy {records : List Json} {d : Deployment} {kind : DeployKind} {stages : List Stage} {diff : Diff}
      (hp : Deployment.parse records = .ok d) (hg : Deployment.globalId ∉ d.tabIds)
      (h : e.stagesOfDeploy records kind = .ok (stages, diff)) : Replaces e stages

theorem Replaces.offers (h : Replaces e stages) : e.Offers stages := by
  cases h with
  | load _ _ h => exact .load h
  | deploy _ _ h => exact .deploy h

/-- A load that is going to be refused, or has been, and the engine as it was. -/
def Refusing (S : Scene Roster) (next : Deployment) (e : Engine) (key : CallKey) : Prop :=
  e.broken = true ∨ Roster.reading.Shown e S ∧
    ∃ c, e.call? key = some c ∧ c.waiting = [] ∧ (c.stages = [.startAll next] ∨ c.stages = [])

theorem Refusing.resumes {S : Scene Roster} {next : Deployment} {fault : ConfigFault}
    (hv : StartOrder.validateAll next = .error fault) (hb : e.broken = false) (h : Refusing S next e key)
    (hr : Resumes e key e') : Refusing S next e' key := by
  obtain ⟨hs, c, hc, hw, hst⟩ := h.resolve_left (by simp [hb])
  have hcall {c' : Call} (hc' : e.call? key = some c') : c' = c := Option.some.inj (hc'.symm.trans hc)
  cases hr with
  | unknown hn =>
    rw [hc] at hn
    cases hn
  | ends =>
    refine .inr ⟨hs.lulls (.modifyCall e key _), { c with ended := c.ended <|> some e.now, holds := [] }, ?_, hw, hst⟩
    rw [call?_modifyCall, if_pos rfl, hc]
    rfl
  | @stage c' stage rest hc' _ hst' =>
    obtain rfl := hcall hc'
    rcases hst with hst | hst
    · rw [hst] at hst'
      obtain ⟨rfl, rfl⟩ := List.cons.inj hst'
      have hrun : (e.modifyCall key fun c => { c with stages := [] }).runStage key (.startAll next) =
          (e.modifyCall key fun c => { c with stages := [] }).refuse key (.config fault) := by
        change Engine.startAll _ key next = _
        unfold Engine.startAll
        rw [hv]
      have hmod : (e.modifyCall key fun c => { c with stages := [] }).call? key = some { c' with stages := [] } := by
        rw [call?_modifyCall, if_pos rfl, hc]
        rfl
      rw [hrun]
      exact .inr ⟨(hs.lulls (.modifyCall e key _)).lulls (.refuse _ key _), _, call?_refuse hmod _, hw, .inr rfl⟩
    · rw [hst] at hst'
      cases hst'
  | waits hc' hw' =>
    obtain rfl := hcall hc'
    exact absurd hw hw'

theorem Refusing.tick {S : Scene Roster} {next : Deployment} {fault : ConfigFault}
    (hv : StartOrder.validateAll next = .error fault) (hr : Reachable e) (hsolo : Solo e key)
    (h : Refusing S next e key) (ht : Tick e e') : Refusing S next e' key := by
  rcases h with hb | ⟨hs, c, hc, hw, hst⟩
  · exact .inl (broken_tick hb ht)
  cases (hsolo.tick ht).2 with
  | idles hi => exact .inr ⟨hs.lulls hi.toLulls, c, hi.call.trans hc, hw, hst⟩
  | @makes a rest hb ha hm =>
    have hne (j : CallKey) : a ≠ .resume j := by
      rintro rfl
      cases hm
    have hc' := (call?_of_calls (calls_of_register (register_act (e := { e with agenda := rest }) hne)) key).trans hc
    exact (hs.makes hr.layout.laid ha hm).imp_right fun hs => ⟨hs, c, hc', hw, hst⟩
  | @resumes rest e' hb ha hres =>
    exact Refusing.resumes hv (e := { e with agenda := rest }) hb (.inr ⟨hs.lulls (.pop ha), c, hc, hw, hst⟩) hres

/-- A load of flows without an order to start in is refused and leaves everything as it was. -/
theorem Recorded.refusal {next : Deployment} {fault : ConfigFault} (h : Recorded e) (hr : Reachable e)
    (hrest : AtRest e) (ho : e.Offers [.startAll next]) (hv : StartOrder.validateAll next = .error fault)
    (hreach : Reach (e.begin [.startAll next]).1 e') (hrest' : AtRest e') : Recorded e' := by
  obtain ⟨S, hs, hb⟩ := h
  have hk := hr.keysBelow
  have hbegin : Refusing S next (e.begin [.startAll next]).1 e.nextCall :=
    .inr ⟨hs.begins _, .make [.startAll next] e.now, by rw [call?_begin hk, if_pos rfl], rfl, .inl rfl⟩
  have hrun : Reachable e' ∧ Solo e' e.nextCall ∧ Refusing S next e' e.nextCall :=
    hreach.invariant (P := fun e' => Reachable e' ∧ Solo e' e.nextCall ∧ Refusing S next e' e.nextCall)
      (fun s s' ⟨hs, hsolo, hf⟩ ht => ⟨hs.tick ht, (hsolo.tick ht).1, hf.tick hv hs hsolo ht⟩)
      ⟨hr.input hrest.idle (.call ho), hrest.solo hk _, hbegin⟩
  exact ⟨S, (hrun.2.2.resolve_left (by simp [hrest'.unbroken])).1, hb⟩

/-- Loads and deployments, one after the other, keep the books. -/
theorem Recorded.replaces (h : Recorded e) (hr : Reachable e) (hrest : AtRest e) (hst : Replaces e stages)
    (hreach : Reach (e.begin stages).1 e') (hrest' : AtRest e') : Recorded e' := by
  obtain ⟨S, hs, hb⟩ := h
  obtain ⟨hshown, hdue⟩ := hs.retell (f := Roster.rest) (fun _ => rfl) fun _ _ h => ⟨h.flow, h.absent, h.planned⟩
  have hcovers : (S.retell Roster.rest).Covers fun _ => False := fun k hk => hb.covers k fun hn => hk (by
    simp [Scene.retell, hn])
  have hgo (hfit : Fits e.config? stages) (hn : NoFresh stages)
      (hl : Roster.reading.Leads Roster.Booked stages (S.retell Roster.rest)) : Recorded e' := by
    have hu := (unrefused_begin hr hrest hst.offers hfit hn).reach hreach
    obtain ⟨S', hb', hs'⟩ := hshown.call hr hrest hst.offers rfl hl hreach hrest' fun c hc => by
      obtain ⟨c', hc', hsmooth⟩ := hu.call
      obtain rfl := Option.some.inj (hc.symm.trans hc')
      exact hsmooth.fault
    exact ⟨S', hs', hb'⟩
  have hshows : (S.retell Roster.rest).Shows Roster.Plain (Roster.rest ∘ Roster.running) := by
    cases hb.shows with
    | nothing hd hf hg => exact .nothing hd hf hg
    | generation hd ha hp hr => exact .generation hd ha hp (hr.retell Roster.rest)
  have hnothing (hd : e.deployed = none) :
      (S.retell Roster.rest).flows = [] ∧ (S.retell Roster.rest).KnowsOnly fun _ => False := by
    obtain ⟨hf, hk⟩ := hb.knowsNothing (hs.deployed.symm.trans hd)
    refine ⟨hf, fun k hno => hk k fun hn => hno ?_⟩
    simp [Scene.retell, hn]
  cases hst with
  | @load records d _ hp hg hst =>
    obtain ⟨rs, ha⟩ := Deployment.parse_arranged hp
    have ho := Offers.load hst
    unfold stagesOfLoad at hst
    split at hst
    · cases hst
    · rename_i hd
      obtain ⟨hf, hk⟩ := hnothing (by simpa using hd)
      rw [hp] at hst
      obtain rfl := Except.ok.inj hst
      cases hv : StartOrder.validateAll d with
      | error fault => exact Recorded.refusal ⟨S, hs, hb⟩ hr hrest ho hv hreach hrest'
      | ok u => exact hgo ⟨validateAll_ok.mp hv, trivial⟩ (by simp [NoFresh]) (Roster.leads_startAll_booked ha hg hf hk)
  | @deploy records d kind _ diff hp hg hst =>
    obtain ⟨rs, ha⟩ := Deployment.parse_arranged hp
    rcases stagesOfDeploy_cases e records kind with
      ⟨fault, -, hs'⟩ | ⟨next, hp', ⟨fault, -, hs'⟩ | ⟨hv, result, hcase, hs'⟩⟩
    · cases hs'.symm.trans hst
    · cases hs'.symm.trans hst
    · obtain rfl := Except.ok.inj (hp.symm.trans hp')
      obtain rfl := Except.ok.inj (hs'.symm.trans hst)
      have hsound := validateAll_ok.mp hv
      cases hcase with
      | endless => exact hgo trivial (by simp [NoFresh]) .stuck
      | first hnone =>
        obtain ⟨hf, hk⟩ := hnothing hnone
        exact hgo ⟨hsound, trivial⟩ (by simp [NoFresh]) (Roster.leads_startAll_booked ha hg hf hk)
      | full =>
        refine hgo ⟨hsound, trivial⟩ (by simp [NoFresh]) (Reading.leads_stopAll hdue fun S' hf hk =>
          Roster.leads_startAll_booked ha hg hf fun k hno => ?_)
        obtain ⟨hk, hglob, hflows⟩ := hk k hno
        exact (hcovers k hk).elim hglob fun h => h.elim hflows id
      | nodes hprev =>
        cases hshows with
        | nothing hd' => cases (hs.deployed.trans hd').symm.trans hprev
        | generation hd' ha' hplain hruns =>
          obtain rfl := Option.some.inj ((hs.deployed.trans hd').symm.trans hprev)
          obtain ⟨hpg, rfl⟩ := hplain
          exact hgo ⟨hsound, rfl⟩ (by simp [NoFresh])
            (Roster.leads_deployNodes_booked ha' ha hpg hg hdue hruns rfl hcovers)

/-! ## Stops of everything -/

/-- The call stops everything, or is over. -/
inductive Unwinds (c : Call) : Prop
  | ended (h : c.over = true)
  | before (hs : c.stages = stagesOfStopAll) (hw : c.waiting = [])
  | under (requests : List (List StopRequest)) (hs : c.stages = requests.map .stop ++ [.withdraw])

/-- The call has not begun to stop anything. -/
def Idle (c : Call) : Prop := c.over = true ∨ c.stages = stagesOfStopAll ∧ c.waiting = []

/-- A call is going to stop the level. -/
def Doomed (e : Engine) (k : LevelKey) : Prop :=
  ∃ j c requests, e.call? j = some c ∧ .stop requests ∈ c.stages ∧ StopRequest.Empties requests k

/-- The level is one of the flows that run. -/
def Listed (e : Engine) (k : LevelKey) : Prop := e.global = some k ∨ k ∈ e.flows

/-- All flows have been taken out, and the deployment goes in the end. -/
structure TakenDown (e : Engine) : Prop where
  flows : e.flows = []
  global : e.global = none
  deployed : e.deployed = none ∨ ∃ j c, e.call? j = some c ∧ .withdraw ∈ c.stages

/-- Only stops of everything are under way. -/
structure Winding (e : Engine) : Prop where
  plan : ∀ a ∈ e.plan, ∃ j, a = .resume j
  unwinds : ∀ j c, e.call? j = some c → Unwinds c
  /-- There is something only in flows that run or are going to be stopped. -/
  pending : ∀ k, e.IsFlow k → e.Deserted k ∨ e.Listed k ∨ e.Doomed k
  books : Recorded e ∧ (∀ j c, e.call? j = some c → Idle c) ∨ TakenDown e

theorem Idle.unwinds {c : Call} (h : Idle c) : Unwinds c := h.elim .ended fun h => .before h.1 h.2

theorem Recorded.pending (h : Recorded e) (hf : e.IsFlow k) : e.Deserted k ∨ e.Listed k := by
  obtain ⟨S, hs, hb⟩ := h
  by_cases hk : S.sketch k = none
  · exact .inl (hs.others k hk hf)
  · refine .inr ?_
    rw [Listed, hs.global, hs.flows]
    exact (hb.covers k hk).imp id fun h => h.resolve_right id

theorem Recorded.winding (h : Recorded e) (hrest : AtRest e) : Winding e := by
  have hover (j : CallKey) (c : Call) (hc : e.call? j = some c) : c.over = true :=
    hrest.calls _ (mem_calls_of_call? hc)
  refine ⟨?_, fun j c hc => .ended (hover j c hc), fun k hf => (h.pending hf).imp_right .inl,
    .inl ⟨h, fun j c hc => .inl (hover j c hc)⟩⟩
  simp [plan, hrest.idle]

/-- When everything has come to rest the books are right again. -/
theorem Winding.recorded (h : Winding e) (hrest : AtRest e) : Recorded e := by
  have hstages (j : CallKey) (c : Call) (hc : e.call? j = some c) : c.stages = [] := by
    have := hrest.calls _ (mem_calls_of_call? hc)
    simp only [Call.over, Bool.and_eq_true, List.isEmpty_iff] at this
    exact this.1
  rcases h.books with ⟨hrec, -⟩ | hdown
  · exact hrec
  · refine ⟨⟨fun _ => none, [], [], none, none⟩, ⟨?_, ?_, fun k _ hf => ?_, hdown.flows, hdown.global, ?_⟩,
      .nothing rfl rfl rfl, fun k hk => absurd rfl hk⟩
    · rintro k s ⟨⟩
    · rintro k s ⟨⟩
    · rcases h.pending k hf with hd | hl | ⟨j, c, requests, hc, hm, -⟩
      · exact hd
      · simp [Listed, hdown.flows, hdown.global] at hl
      · simp [hstages j c hc] at hm
    · refine hdown.deployed.resolve_right ?_
      rintro ⟨j, c, hc, hm⟩
      simp [hstages j c hc] at hm

/-! ## One step -/

/-- A step that leaves flows, nodes and calls as they are. -/
theorem Winding.lulls (h : Winding e) (hl : Lulls e e') (hc : ∀ j, e'.call? j = e.call? j) : Winding e' := by
  refine ⟨fun a ha => ?_, fun j c hj => h.unwinds j c (hc j ▸ hj), fun k hf => ?_, ?_⟩
  · rcases hl.plan a ha with ha | ha
    · exact h.plan a ha
    · exact ha
  · unfold Listed Doomed
    simp only [hl.flows, hl.global, hc]
    exact (h.pending k (FoundsNone.of_level? hl.level? k hf)).imp_left fun hd => hd.beside hl.beside
  · refine h.books.imp ?_ ?_
    · rintro ⟨⟨S, hs, hb⟩, hi⟩
      exact ⟨⟨S, hs.lulls hl, hb⟩, fun j c hj => hi j c (hc j ▸ hj)⟩
    · rintro ⟨hf, hg, hd⟩
      refine ⟨hl.flows.trans hf, hl.global.trans hg, ?_⟩
      rw [hl.deployed]
      simpa only [hc] using hd

/-- One call goes on. -/
theorem Winding.goes {c c' : Call} (h : Winding e) (hc : e.call? key = some c)
    (hcalls : ∀ j, e'.call? j = if j = key then some c' else e.call? j) (hu : Unwinds c')
    (hp : ∀ a ∈ e'.plan, a ∈ e.plan ∨ ∃ j, a = .resume j) (hn : FoundsNone e e')
    (hq : ∀ k, e.Deserted k → e'.Deserted k)
    (hlist : ∀ k, e.Listed k → e'.Listed k ∨ ∃ requests, .stop requests ∈ c'.stages ∧ StopRequest.Empties requests k)
    (hstop : ∀ requests k, .stop requests ∈ c.stages → StopRequest.Empties requests k →
      e'.Deserted k ∨ .stop requests ∈ c'.stages)
    (hb : Recorded e' ∧ (∀ j c, e'.call? j = some c → Idle c) ∨ TakenDown e') : Winding e' := by
  have hkey : e'.call? key = some c' := by rw [hcalls, if_pos rfl]
  refine ⟨fun a ha => (hp a ha).elim (h.plan a) id, fun j c hj => ?_, fun k hf => ?_, hb⟩
  · rw [hcalls] at hj
    split at hj
    · exact Option.some.inj hj ▸ hu
    · exact h.unwinds j c hj
  · rcases h.pending k (hn k hf) with hd | hl | ⟨j, c₀, requests, hj, hm, he⟩
    · exact .inl (hq k hd)
    · refine .inr ((hlist k hl).imp_right ?_)
      rintro ⟨requests, hm, he⟩
      exact ⟨key, c', requests, hkey, hm, he⟩
    · by_cases hjk : j = key
      · subst hjk
        obtain rfl := Option.some.inj (hc.symm.trans hj)
        exact (hstop requests k hm he).imp_right fun hm => .inr ⟨j, c', requests, hkey, hm, he⟩
      · exact .inr (.inr ⟨j, c₀, requests, by rw [hcalls, if_neg hjk, hj], hm, he⟩)

theorem TakenDown.goes {c c' : Call} (h : TakenDown e) (hc : e.call? key = some c)
    (hcalls : ∀ j, e'.call? j = if j = key then some c' else e.call? j) (hf : e'.flows = e.flows)
    (hg : e'.global = e.global)
    (hd : e'.deployed = none ∨ e'.deployed = e.deployed ∧ (.withdraw ∈ c.stages → .withdraw ∈ c'.stages)) :
    TakenDown e' := by
  refine ⟨hf.trans h.flows, hg.trans h.global, ?_⟩
  rcases hd with hd | ⟨hd, hw⟩
  · exact .inl hd
  · refine h.deployed.imp hd.trans ?_
    rintro ⟨j, c₀, hj, hm⟩
    by_cases hjk : j = key
    · subst hjk
      obtain rfl := Option.some.inj (hc.symm.trans hj)
      exact ⟨j, c', by rw [hcalls, if_pos rfl], hw hm⟩
    · exact ⟨j, c₀, by rw [hcalls, if_neg hjk, hj], hm⟩

theorem calls_of_besides {c' : Call} (hb : e'.besides key = e.besides key) (hk : e'.call? key = some c')
    (j : CallKey) : e'.call? j = if j = key then some c' else e.call? j := by
  split
  · rename_i hj
    rw [hj, hk]
  · exact call?_of_besides hb ‹_›

theorem Unwinds.under_of_waiting {c : Call} (h : Unwinds c) (hw : c.waiting ≠ []) :
    ∃ requests : List (List StopRequest), c.stages = requests.map .stop ++ [.withdraw] := by
  cases h with
  | ended ho =>
    simp only [Call.over, Bool.and_eq_true, List.isEmpty_iff] at ho
    exact absurd ho.2 hw
  | before _ hw' => exact absurd hw' hw
  | under requests hs => exact ⟨requests, hs⟩

theorem call?_runs {c : Call} (hc : e.call? key = some c) (stages : List Stage) :
    (e.modifyCall key fun c => { c with stages }).call? key = some { c with stages } := by
  rw [call?_modifyCall, if_pos rfl, hc]
  rfl

theorem besides_runs (e : Engine) (key : CallKey) (stages : List Stage) (stage : Stage) :
    ((e.modifyCall key fun c => { c with stages }).runStage key stage).besides key = e.besides key :=
  (besides_runStage _ key stage).trans (besides_modifyCall e key _)

/-- One call goes on without touching levels or nodes. -/
theorem Winding.turns {m : Engine} {c c' : Call} (h : Winding e) (hc : e.call? key = some c) (hl : Lulls m e')
    (hlevels : m.levels = e.levels) (hnodes : m.nodes = e.nodes) (hworld : m.world = e.world)
    (hprivate : m.nextPrivate = e.nextPrivate) (hagenda : m.agenda = e.agenda)
    (hcalls : ∀ j, e'.call? j = if j = key then some c' else e.call? j) (hu : Unwinds c')
    (hlist : ∀ k, e.Listed k → e'.Listed k ∨ ∃ requests, .stop requests ∈ c'.stages ∧ StopRequest.Empties requests k)
    (hstop : ∀ requests, .stop requests ∈ c.stages → .stop requests ∈ c'.stages)
    (hb : Recorded e' ∧ (∀ j c, e'.call? j = some c → Idle c) ∨ TakenDown e') : Winding e' := by
  have hlevel (k : LevelKey) : m.level? k = e.level? k := by rw [level?, hlevels, level?]
  have hbeside (k : LevelKey) : Beside k e m := .of_eq hlevels hnodes hworld hprivate hagenda
  refine h.goes hc hcalls hu (fun a ha => ?_) (.of_level? fun k => (hl.level? k).trans (hlevel k))
    (fun k hd => hd.beside ((hbeside k).trans hl.beside)) hlist (fun requests k hm _ => .inr (hstop requests hm)) hb
  have hplan : m.plan = e.plan := by rw [Engine.plan, hagenda, Engine.plan]
  exact hplan ▸ hl.plan a ha

/-- The flows are taken out, and their stops come next. -/
theorem Winding.takesDown {c : Call} (h : Winding e) (hc : e.call? key = some c) (hs : c.stages = stagesOfStopAll) :
    Winding ((e.modifyCall key fun c => { c with stages := [.withdraw] }).runStage key .stopAll) := by
  have hl : Lulls { e.modifyCall key fun c => { c with stages := [.withdraw] } with flows := [], global := none }
      ((e.modifyCall key fun c => { c with stages := [.withdraw] }).runStage key .stopAll) :=
    (Lulls.modifyCall _ key _).trans (.proceed _ key _)
  have hcall := call?_proceed (call?_hold (e := { e.modifyCall key fun c => { c with stages := [.withdraw] } with
    flows := [], global := none }) (call?_runs hc [.withdraw]) (e.flows ++ e.global.toList))
    [.stop (e.flows.map (⟨·, none, .none⟩)), .stop (e.global.toList.map (⟨·, none, .none⟩))]
  refine h.turns hc hl rfl rfl rfl rfl rfl (calls_of_besides (besides_runs e key [.withdraw] .stopAll) hcall)
    (.under [_, _] rfl) (fun k hk => .inr ?_) (fun requests hm => ?_)
    (.inr ⟨hl.flows, hl.global, .inr ⟨key, _, hcall, by simp⟩⟩)
  · rcases hk with hk | hk
    · refine ⟨_, List.mem_cons_of_mem _ List.mem_cons_self, StopRequest.empties_map.mpr ?_⟩
      rw [hk]
      exact List.mem_singleton_self k
    · exact ⟨_, List.mem_cons_self, StopRequest.empties_map.mpr hk⟩
  · simp [hs, stagesOfStopAll] at hm

theorem Winding.takenDown {c : Call} (h : Winding e) (hc : e.call? key = some c) (hn : ¬Idle c) : TakenDown e :=
  h.books.resolve_left fun hb => hn (hb.2 key c hc)

/-- The levels of the next stops are emptied. -/
theorem Winding.stops {c : Call} (h : Winding e) (hl : Laid e) (hc : e.call? key = some c)
    {requests : List StopRequest} {rest : List (List StopRequest)}
    (hs : c.stages = .stop requests :: (rest.map .stop ++ [.withdraw])) :
    Winding ((e.modifyCall key fun c => { c with stages := rest.map .stop ++ [.withdraw] }).runStage key
      (.stop requests)) := by
  have hdown := h.takenDown hc (by simp [Idle, Call.over, hs, stagesOfStopAll])
  obtain ⟨m, hm⟩ : ∃ m, m = e.modifyCall key fun c => { c with stages := rest.map .stop ++ [.withdraw] } := ⟨_, rfl⟩
  have hlm : Lulls e m := hm ▸ .modifyCall e key _
  have hlaid : Laid m := hl.of_levels (hm ▸ grows_modifyCall e key _) hlm.level?
  have hplan : m.plan = e.plan := by rw [hm]; rfl
  have hcm : m.call? key = some { c with stages := rest.map .stop ++ [.withdraw] } := hm ▸ call?_runs hc _
  have hbesides : (m.runStage key (.stop requests)).besides key = e.besides key := hm ▸ besides_runs e key _ _
  rw [← hm]
  have hstops : Stops m (beginStops key (m, []) requests).1 := stops_beginStops key (m, []) requests
  have hp : Proceeds (beginStops key (m, []) requests).1 key (beginStops key (m, []) requests).2
      (m.runStage key (.stop requests)) := proceeds_afterStops _ _ _
  obtain ⟨waiting, report, hcall⟩ := hp.call ((call?_of_shell hstops.shell key).trans hcm)
  have hcalls := calls_of_besides hbesides hcall
  have hreg := register_of_shell hstops.shell
  have hplan' {a : Action} (ha : a ∈ (beginStops key (m, []) requests).1.plan) : a ∈ e.plan := by
    rw [Engine.plan, hstops.agenda] at ha
    exact hplan ▸ ha
  refine h.goes hc hcalls (.under rest rfl) (fun a ha => (hp.lulls.plan a ha).imp_left hplan')
    ((FoundsNone.of_level? hlm.level?).trans ((StopsWithin.foundsNone hstops).trans (.of_level? hp.lulls.level?)))
    (fun k hd => ((hd.beside hlm.beside).stops hlaid hstops).beside hp.lulls.beside) (fun k hk => ?_)
    (fun requests' k hmem he => ?_) (.inr (hdown.goes hc hcalls ?_ ?_ (.inr ⟨?_, fun _ => by simp⟩)))
  · simp [Listed, hdown.flows, hdown.global] at hk
  · rw [hs] at hmem
    rcases List.mem_cons.mp hmem with hmem | hmem
    · obtain rfl := Stage.stop.inj hmem
      obtain ⟨r, hr, rfl, hall⟩ := he
      refine .inl (Deserted.beside ⟨fun id => ?_, fun a ha => ?_⟩ hp.lulls.beside)
      · exact inactive_beginStops key (m, []) hlaid (.inr ⟨r, hr, rfl, fun ids hids => by simp [hall] at hids⟩)
      · obtain ⟨j, rfl⟩ := h.plan a (hplan' ha)
        simp [Action.makesIn?]
    · exact .inr hmem
  · exact hp.lulls.flows.trans ((congrArg (·.2.2.2.2) hreg).trans hlm.flows)
  · exact hp.lulls.global.trans ((congrArg (·.2.2.2.1) hreg).trans hlm.global)
  · exact hp.lulls.deployed.trans ((congrArg (·.2.2.1) hreg).trans hlm.deployed)

/-- The deployment goes. -/
theorem Winding.withdraws {c : Call} (h : Winding e) (hc : e.call? key = some c) (hs : c.stages = [.withdraw])
    (hw : c.waiting = []) : Winding ((e.modifyCall key fun c => { c with stages := [] }).runStage key .withdraw) := by
  have hdown := h.takenDown hc (by simp [Idle, Call.over, hs, stagesOfStopAll])
  have hl : Lulls { e.modifyCall key fun c => { c with stages := [] } with deployed := none }
      ((e.modifyCall key fun c => { c with stages := [] }).runStage key .withdraw) := .proceed _ key []
  have hcall := call?_proceed (e := { e.modifyCall key fun c => { c with stages := [] } with deployed := none })
    (call?_runs hc []) []
  have hcalls := calls_of_besides (besides_runs e key [] .withdraw) hcall
  refine h.turns hc hl rfl rfl rfl rfl rfl hcalls (.ended (by simp [Call.over, hw])) (fun k hk => .inl ?_)
    (fun requests hm => ?_) (.inr (hdown.goes hc hcalls hl.flows hl.global (.inl hl.deployed)))
  · rw [Listed, hl.flows, hl.global]
    exact hk
  · simp [hs] at hm

/-- A call that waits for its stops looks after them. -/
theorem Winding.waits {c : Call} (h : Winding e) (hl : Laid e) (hc : e.call? key = some c) (hw : c.waiting ≠ []) :
    Winding (e.pollAll key c.waiting) := by
  have hdown := h.takenDown hc (by simp [Idle, Call.over, hw])
  obtain ⟨rest, hs⟩ := (h.unwinds key c hc).under_of_waiting hw
  have hstops : Stops e (pollStops key (e, []) c.waiting).1 := stops_pollStops key (e, []) c.waiting
  have hp : Proceeds (pollStops key (e, []) c.waiting).1 key (pollStops key (e, []) c.waiting).2
      (e.pollAll key c.waiting) := proceeds_afterStops _ _ _
  obtain ⟨waiting, report, hcall⟩ := hp.call ((call?_of_shell hstops.shell key).trans hc)
  have hcalls := calls_of_besides (hp.besides.trans (besides_of_shell hstops.shell key)) hcall
  have hreg := register_of_shell hstops.shell
  refine h.goes hc hcalls (.under rest hs) (fun a ha => (hp.lulls.plan a ha).imp_left fun ha => ?_)
    ((StopsWithin.foundsNone hstops).trans (.of_level? hp.lulls.level?))
    (fun k hd => (hd.stops hl hstops).beside hp.lulls.beside) (fun k hk => ?_)
    (fun requests' k hmem he => .inr hmem) (.inr (hdown.goes hc hcalls ?_ ?_ (.inr ⟨?_, id⟩)))
  · rwa [Engine.plan, hstops.agenda] at ha
  · simp [Listed, hdown.flows, hdown.global] at hk
  · exact hp.lulls.flows.trans (congrArg (·.2.2.2.2) hreg)
  · exact hp.lulls.global.trans (congrArg (·.2.2.2.1) hreg)
  · exact hp.lulls.deployed.trans (congrArg (·.2.2.1) hreg)

/-- A call that is over is noted as such. -/
theorem Winding.ends {c : Call} (h : Winding e) (hc : e.call? key = some c) (hw : c.waiting = []) (hs : c.stages = []) :
    Winding (e.modifyCall key fun c => { c with ended := c.ended <|> some e.now, holds := [] }) := by
  have hl : Lulls e (e.modifyCall key fun c => { c with ended := c.ended <|> some e.now, holds := [] }) :=
    .modifyCall e key _
  have hover : Call.over { c with ended := c.ended <|> some e.now, holds := [] } = true := by simp [Call.over, hs, hw]
  have hcall : (e.modifyCall key fun c => { c with ended := c.ended <|> some e.now, holds := [] }).call? key =
      some { c with ended := c.ended <|> some e.now, holds := [] } := by
    rw [call?_modifyCall, if_pos rfl, hc]
    rfl
  have hcalls := calls_of_besides (besides_modifyCall e key _) hcall
  refine h.turns hc hl rfl rfl rfl rfl rfl hcalls (.ended hover) (fun _ hk => .inl hk) (fun requests hm => ?_)
    (h.books.imp ?_ fun hdown => hdown.goes hc hcalls rfl rfl (.inr ⟨rfl, id⟩))
  · simp [hs] at hm
  · rintro ⟨⟨S, hs, hb⟩, hi⟩
    refine ⟨⟨S, hs.lulls hl, hb⟩, fun j c hj => ?_⟩
    rw [hcalls] at hj
    split at hj
    · exact .inl (Option.some.inj hj ▸ hover)
    · exact hi j c hj

theorem Winding.resumes (h : Winding e) (hl : Laid e) (hr : Resumes e key e') : Winding e' := by
  cases hr with
  | unknown => exact h
  | ends hc hw hs => exact h.ends hc hw hs
  | @stage c stage rest hc hw hs =>
    cases h.unwinds key c hc with
    | ended ho => simp [Call.over, hs] at ho
    | before hb =>
      obtain ⟨rfl, rfl⟩ := List.cons.inj (hs.symm.trans hb)
      exact h.takesDown hc hb
    | under requests hu =>
      cases requests with
      | nil =>
        obtain ⟨rfl, rfl⟩ := List.cons.inj (hs.symm.trans hu)
        exact h.withdraws hc hu hw
      | cons r requests =>
        obtain ⟨rfl, rfl⟩ := List.cons.inj (hs.symm.trans hu)
        exact h.stops hl hc hu
  | waits hc hw => exact h.waits hl hc hw

theorem Winding.tick (h : Winding e) (hr : Reachable e) (ht : Tick e e') : Winding e' := by
  rcases ht.kinds with ⟨hs, hp⟩ | ⟨j, ha, hs, ha'⟩ | ⟨a, rest, hb, hq, ha, rfl⟩
  · exact h.lulls (.of_still hs (fun a ha => .inl (hp ▸ ha)) fun a ha _ => hp ▸ ha) (call?_of_still hs)
  · exact h.lulls (.of_resume hs ha ha') (call?_of_still hs)
  · obtain ⟨j, rfl⟩ := h.plan a (by
      rw [Engine.plan, ha]
      exact List.mem_filter.mpr ⟨List.mem_cons_self, by simp [hq]⟩)
    have hpop : Winding { e with agenda := rest } := h.lulls (.pop ha) fun _ => rfl
    refine hpop.resumes ?_ (resumes_resume { e with agenda := rest } j)
    exact hr.layout.laid.of_levels (.of_eq rfl rfl rfl rfl) fun _ => rfl

/-- Another stop of everything begins. -/
theorem Winding.begins (h : Winding e) (hk : KeysBelow e) : Winding (e.begin stagesOfStopAll).1 := by
  have hbeside := beside_begin e stagesOfStopAll
  have hcalls := call?_begin hk stagesOfStopAll
  obtain ⟨hf, hg, hd⟩ := books_begin e stagesOfStopAll
  have hold {j : CallKey} {c : Call} (hc : e.call? j = some c) : (e.begin stagesOfStopAll).1.call? j = some c := by
    rw [hcalls, if_neg (Nat.ne_of_lt (hk _ (mem_calls_of_call? hc)))]
    exact hc
  have hcases {j : CallKey} {c : Call} (hc : (e.begin stagesOfStopAll).1.call? j = some c) :
      c = .make stagesOfStopAll e.now ∨ e.call? j = some c := by
    rw [hcalls] at hc
    split at hc
    · exact .inl (Option.some.inj hc).symm
    · exact .inr hc
  refine ⟨fun a ha => ?_, fun j c hc => ?_, fun k hflow => ?_, h.books.imp ?_ ?_⟩
  · refine h.plan a ?_
    rwa [Engine.plan, (show (e.begin stagesOfStopAll).1.agenda = e.agenda from wake_agenda _ _)] at ha
  · rcases hcases hc with rfl | hc
    · exact .before rfl rfl
    · exact h.unwinds j c hc
  · refine (h.pending k (FoundsNone.of_level? (level?_begin e _) k hflow)).imp (fun hd => hd.beside (hbeside k)) ?_
    rintro (hl | ⟨j, c, requests, hc, hm, he⟩)
    · exact .inl (by rwa [Listed, hf, hg])
    · exact .inr ⟨j, c, requests, hold hc, hm, he⟩
  · rintro ⟨⟨S, hs, hb⟩, hi⟩
    refine ⟨⟨S, hs.begins _, hb⟩, fun j c hc => ?_⟩
    rcases hcases hc with rfl | hc
    · exact .inr ⟨rfl, rfl⟩
    · exact hi j c hc
  · rintro ⟨hflows, hglobal, hdep⟩
    refine ⟨hf.trans hflows, hg.trans hglobal, hdep.imp hd.trans ?_⟩
    rintro ⟨j, c, hc, hm⟩
    exact ⟨j, c, hold hc, hm⟩

/-! ## Whole runs -/

/-- The engine goes on by itself, someone hands in messages, or another stop of everything begins. -/
inductive WindStep (e : Engine) : Engine → Prop
  | tick {e' : Engine} (ht : Tick e e') : WindStep e e'
  | quiet {e' : Engine} (ha : e.agenda = []) (hq : Quiet e e') : WindStep e e'
  | stopAll (ha : e.agenda = []) : WindStep e (e.begin stagesOfStopAll).1

theorem Winding.step (h : Winding e) (hr : Reachable e) (hs : WindStep e e') : Winding e' ∧ Reachable e' := by
  cases hs with
  | tick ht => exact ⟨h.tick hr ht, hr.tick ht⟩
  | quiet ha hq =>
    refine ⟨h.lulls (.of_still hq.still (fun a ha => .inl (hq.plan ▸ ha)) fun a ha _ => hq.plan ▸ ha)
      (call?_of_still hq.still), hr.input ha (.quiet hq)⟩
  | stopAll ha => exact ⟨h.begins hr.keysBelow, hr.input ha (.call .stopAll)⟩

/-- The runs of a runtime whose loads and deployments do not overlap with any other call. Any number of stops of
everything overlap with each other. -/
inductive Course : Engine → Prop
  | make (registry : Registry) (outside : Outside) (settings : Dict Json) (processEnv : Dict String)
      (closeTimeout : Nat) : Course (make registry outside settings processEnv closeTimeout)
  | replaces {e e' : Engine} {stages : List Stage} (h : Course e) (hst : Replaces e stages)
      (hr : Reach (e.begin stages).1 e') (hrest : AtRest e') : Course e'
  | winds {e e' : Engine} (h : Course e) (hw : Relation.ReflTransGen WindStep e e') (hrest : AtRest e') : Course e'

theorem Course.recorded (h : Course e) : Reachable e ∧ AtRest e ∧ Recorded e := by
  induction h with
  | make registry outside settings processEnv closeTimeout =>
    refine ⟨.make _ _ _ _ _, ⟨rfl, rfl, by simp [Engine.make]⟩, _, Reading.shown_make _ _ _ _ _,
      .nothing rfl rfl rfl, fun k hk => absurd rfl hk⟩
  | @replaces e e' stages _ hst hreach hrest' ih =>
    obtain ⟨hr, hrest, h⟩ := ih
    exact ⟨(hr.input hrest.idle (.call hst.offers)).reach hreach, hrest', h.replaces hr hrest hst hreach hrest'⟩
  | @winds e e' _ hw hrest' ih =>
    obtain ⟨hr, hrest, h⟩ := ih
    have hrun : Winding e' ∧ Reachable e' := by
      clear hrest'
      induction hw with
      | refl => exact ⟨h.winding hrest, hr⟩
      | tail _ hs ih => exact ih.1.step ih.2 hs
    exact ⟨hrun.2, hrest', hrun.1.recorded hrest'⟩

/-- Whenever no call is under way, the books of a runtime are right, and with nothing deployed nothing is active in
any flow that has ever been made: as long as loads and deployments do not overlap with other calls, and no tab passes
for the global flow. -/
theorem books_balance (h : Course e) : Balanced e ∧
    (e.deployed = none → ∀ k, e.IsFlow k → ∀ j, e.Inside k j → ∀ id, e.activeKey? j id = none) := by
  obtain ⟨hr, -, hrec⟩ := h.recorded
  have hb := hrec.balanced hr
  refine ⟨hb, fun hd k hk => hb.others k hk ?_ ?_⟩
  · have hg := hb.deployed
    rw [hd] at hg
    intro hk
    rw [hk] at hg
    cases hg
  · have ht := hb.tabs
    rw [enabledTabs, hd] at ht
    rw [List.forall₂_nil_right_iff.mp ht]
    exact List.not_mem_nil

end Engine

namespace Session

variable {s : Session}

theorem course_load {records : List Json} {d : Deployment} (h : Course s.engine)
    (hp : Deployment.parse records = .ok d) (hg : Deployment.globalId ∉ d.tabIds)
    (hrest : AtRest (s.load records).2.engine) : Course (s.load records).2.engine := by
  unfold load at hrest ⊢
  split
  · exact h
  · rename_i stages hs
    rw [hs] at hrest
    exact h.replaces (.load hp hg hs) (reach_complete _ _) hrest

theorem windSteps_of_reach {e e' : Engine} (h : Reach e e') : Relation.ReflTransGen WindStep e e' :=
  Relation.ReflTransGen.mono (fun _ _ ht => WindStep.tick ht) _ _ h

/-- Another stop of everything begins while others may be under way. -/
theorem windSteps_beginCall (ha : s.engine.agenda = []) :
    Relation.ReflTransGen WindStep s.engine (s.beginCall stagesOfStopAll).engine :=
  (Relation.ReflTransGen.single (.stopAll ha)).trans (windSteps_of_reach (reach_settle none _))

theorem windSteps_awaitStops : Relation.ReflTransGen WindStep s.engine s.awaitStops.2.engine :=
  windSteps_of_reach (reach_awaitWithin none s.begun patience s.engine)

/-- A tab with a node that closes slowly. -/
def slowTab : Session := ((onRuntime (.make .instrumented .shared [] [] 500)).load slowRecords).2

/-- A stop of everything is under way. -/
def stoppingOnce : Session := slowTab.beginCall stagesOfStopAll

/-- Another one has begun meanwhile, and both have come to their end. -/
def stoppedTwice : Session := (stoppingOnce.beginCall stagesOfStopAll).awaitStops.2

/-- Two stops of everything that overlap leave the books right, and nothing active. -/
theorem overlapping_stops_balance : slowTab.engine.deployed.isSome = true ∧ Balanced slowTab.engine ∧
    stoppingOnce.engine.calls.countP (!·.2.over) = 1 ∧ Balanced stoppedTwice.engine ∧
    ∀ k, stoppedTwice.engine.IsFlow k → ∀ j, stoppedTwice.engine.Inside k j →
      ∀ id, stoppedTwice.engine.activeKey? j id = none := by
  obtain ⟨hrest, hdep, hfirst, hunder, hlast, hnone⟩ : AtRest slowTab.engine ∧
      slowTab.engine.deployed.isSome = true ∧ stoppingOnce.engine.agenda.isEmpty = true ∧
      stoppingOnce.engine.calls.countP (!·.2.over) = 1 ∧ AtRest stoppedTwice.engine ∧
      stoppedTwice.engine.deployed.isNone = true := by decide +kernel
  have hloaded : Course slowTab.engine := by
    have hplain : (Deployment.parse slowRecords).toOption.map
        (fun d => decide (Deployment.globalId ∈ d.tabIds)) = some false := by decide +kernel
    cases hp : Deployment.parse slowRecords with
    | error fault => simp [hp, Except.toOption] at hplain
    | ok d => exact course_load (.make _ _ _ _ _) hp (by simpa [hp, Except.toOption] using hplain) hrest
  have hstopped : Course stoppedTwice.engine := by
    refine hloaded.winds (Relation.ReflTransGen.trans ?_ windSteps_awaitStops) hlast
    exact (windSteps_beginCall hrest.idle).trans (windSteps_beginCall (List.isEmpty_iff.mp hfirst))
  obtain ⟨hb, hempty⟩ := books_balance hstopped
  exact ⟨hdep, (books_balance hloaded).1, hunder, hb, hempty (Option.isNone_iff_eq_none.mp hnone)⟩

end Session
end Flowgraph
