import Flowgraph.Proofs.Configs
import Flowgraph.Proofs.InFlight
import Flowgraph.Proofs.Solo
/-! A call of a runtime is refused before it touches anything or not at all: once its flows have been found
sound, every later check of the call succeeds. -/
namespace Flowgraph

/-- A configuration whose flow has an order to start in. -/
def FlowConfig.Sound (c : FlowConfig) : Prop := ∃ order, StartOrder.validate c = .ok order

/-- A deployment whose flows all have an order to start in. -/
def Deployment.Sound (d : Deployment) : Prop := ∀ c ∈ d.global :: d.tabs, c.Sound

theorem FlowConfig.Sound.resolve {c : FlowConfig} (h : c.Sound) :
    ∃ order, StartOrder.resolve c.nodes = .ok order := by
  obtain ⟨order, h⟩ := h
  unfold StartOrder.validate at h
  cases hr : StartOrder.resolve c.nodes with
  | ok order => exact ⟨order, rfl⟩
  | error fault => rw [hr] at h; cases h

theorem forM_ok {α ε : Type} {f : α → Except ε Unit} {xs : List α} :
    (xs.forM f = .ok ()) ↔ ∀ x ∈ xs, f x = .ok () := by
  induction xs with
  | nil => simp [pure, Except.pure]
  | cons x xs ih =>
    have hc : (x :: xs).forM f = (f x >>= fun _ => xs.forM f) := rfl
    rw [hc]
    cases h : f x with
    | error fault => simp [bind, Except.bind, h]
    | ok u =>
      simp only [bind, Except.bind, List.forall_mem_cons, h, true_and]
      exact ih

theorem validateAll_ok {d : Deployment} : StartOrder.validateAll d = .ok () ↔ d.Sound := by
  unfold StartOrder.validateAll
  rw [forM_ok]
  refine forall₂_congr fun c _ => ?_
  unfold FlowConfig.Sound
  cases StartOrder.validate c with
  | ok order => simp [Except.map]
  | error fault => simp [Except.map]

theorem sound_tab {d : Deployment} (h : d.Sound) {c : FlowConfig} (hc : c ∈ d.tabs) : c.Sound :=
  h c (List.mem_cons_of_mem _ hc)

namespace Engine

variable {e e' : Engine} {key : CallKey}

/-! ## The stages of a call fit the flows they come upon -/

/-- Whether the checks of the stages succeed one after the other, given the configurations of outermost
levels. -/
def Fits (f : LevelKey → Option FlowConfig) : List Stage → Prop
  | [] => True
  | .update k config :: stages =>
    Fits (fun j => if k = j then (f j).map fun _ => config else f j) stages
  | .start k _ :: stages => (∃ c, f k = some c ∧ c.Sound) ∧ Fits f stages
  | .apply k _ _ :: stages => (∃ c, f k = some c ∧ c.Sound) ∧ Fits f stages
  | .startTab config _ :: stages => config.Sound ∧ Fits f stages
  | .startAll next :: stages => next.Sound ∧ Fits f stages
  | .deployNodes _ next _ :: stages => next.Sound ∧ stages = []
  | _ :: stages => Fits f stages

theorem Fits.mono {f g : LevelKey → Option FlowConfig} {stages : List Stage}
    (hfg : ∀ k c, f k = some c → g k = some c) (h : Fits f stages) : Fits g stages := by
  induction stages generalizing f g with
  | nil => trivial
  | cons stage stages ih =>
    cases stage with
    | update k config =>
      refine ih (fun j c hj => ?_) h
      split
      · rename_i hk
        rw [if_pos hk] at hj
        obtain ⟨c', hc', rfl⟩ := Option.map_eq_some_iff.mp hj
        rw [hfg j c' hc']
        rfl
      · rename_i hk
        rw [if_neg hk] at hj
        exact hfg j c hj
    | start k diff =>
      obtain ⟨⟨c, hc, hs⟩, h⟩ := h
      exact ⟨⟨c, hfg k c hc, hs⟩, ih hfg h⟩
    | apply k config diff =>
      obtain ⟨⟨c, hc, hs⟩, h⟩ := h
      exact ⟨⟨c, hfg k c hc, hs⟩, ih hfg h⟩
    | startTab config listed => exact ⟨h.1, ih hfg h.2⟩
    | startAll next => exact ⟨h.1, ih hfg h.2⟩
    | deployNodes previous next diff => exact h
    | _ => exact ih hfg h

/-- No stage starts a flow anew. -/
def NoFresh (stages : List Stage) : Prop := ∀ s ∈ stages, ∀ k, s ≠ .start k none

/-- A flow is started anew at once after it has been made. -/
def Fresh (e : Engine) : List Stage → Prop
  | .start k none :: stages => (∃ l, e.level? k = some l ∧ l.phase = .created) ∧ NoFresh stages
  | stages => NoFresh stages

theorem NoFresh.fresh {stages : List Stage} (h : NoFresh stages) : Fresh e stages := by
  cases stages with
  | nil => exact h
  | cons stage stages =>
    cases stage with
    | start k diff =>
      cases diff with
      | none => exact absurd rfl (h _ List.mem_cons_self k)
      | some d => exact h
    | _ => exact h

theorem Fresh.tail {stage : Stage} {stages : List Stage} (h : Fresh e (stage :: stages)) :
    NoFresh stages := by
  cases stage with
  | start k diff =>
    cases diff with
    | none => exact h.2
    | some d => exact fun s hs => h s (List.mem_cons_of_mem _ hs)
  | _ => exact fun s hs => h s (List.mem_cons_of_mem _ hs)

theorem noFresh_append {stages stages' : List Stage} (h : NoFresh stages) (h' : NoFresh stages') :
    NoFresh (stages ++ stages') := fun s hs => (List.mem_append.mp hs).elim (h s) (h' s)

/-- The stages of a call that is not refused. -/
structure Smooth (e : Engine) (c : Call) : Prop where
  fault : c.fault = none
  fits : Fits e.config? c.stages
  fresh : Fresh e c.stages
  waits : c.waiting ≠ [] → NoFresh c.stages

/-- A call is under way alone, and is not refused. -/
structure Unrefused (e : Engine) (key : CallKey) : Prop where
  reachable : Reachable e
  call : ∃ c, e.call? key = some c ∧ Smooth e c
  others : Solo e key

/-- A step that leaves the call as it is. -/
theorem Smooth.keeps {c : Call} (h : Smooth e c) (hk : KeepsPlaces e e') : Smooth e' c := by
  refine ⟨h.fault, h.fits.mono hk.keepsConfigs, ?_, h.waits⟩
  have hf := h.fresh
  revert hf
  cases c.stages with
  | nil => exact id
  | cons stage stages =>
    cases stage with
    | start k diff =>
      cases diff with
      | none =>
        rintro ⟨⟨l, hl, hp⟩, hn⟩
        obtain ⟨l', hl', -, -, hp'⟩ := hk k l hl
        exact ⟨⟨l', hl', hp'.trans hp⟩, hn⟩
      | some d => exact id
    | _ => exact id

/-- A call that has something to do next. -/
theorem smooth_proceed {s : Engine} {c : Call} {stages : List Stage} (hc : s.call? key = some c)
    (hf : c.fault = none) (hw : c.waiting = []) (hfit : Fits s.config? (stages ++ c.stages))
    (hfr : Fresh s (stages ++ c.stages)) :
    ∃ c', (s.proceed key stages).call? key = some c' ∧ Smooth (s.proceed key stages) c' :=
  ⟨_, call?_proceed hc stages, hf, hfit, hfr, fun h => absurd hw h⟩

theorem smooth_proceeds {e₁ : Engine} {c : Call} {stops : List Stopping} (h : Smooth e₁ c)
    (hc : e₁.call? key = some c) (hn : NoFresh c.stages) (hp : Proceeds e₁ key stops e') :
    ∃ c', e'.call? key = some c' ∧ Smooth e' c' := by
  cases hp with
  | waits _ hs =>
    refine ⟨{ c with waiting := stops }, ?_, ?_⟩
    · rw [call?_of_still hs.still, call?_modifyCall, if_pos rfl, hc]
      rfl
    · have hk : KeepsPlaces e₁ e' := KeepsPlaces.trans
        (m := e₁.modifyCall key fun c => { c with waiting := stops }) (.of_level? fun _ => rfl)
        (.still hs.still)
      exact ⟨h.fault, h.fits.mono hk.keepsConfigs, hn.fresh, fun _ => hn⟩
  | done _ =>
    refine ⟨{ c with waiting := [], report := (reports stops).foldl (· ++ ·) c.report }, ?_,
      h.fault, h.fits, hn.fresh, fun _ => hn⟩
    change (e₁.modifyCall key fun c =>
      { c with waiting := [], report := (reports stops).foldl (· ++ ·) c.report }).call? key = _
    rw [call?_modifyCall, if_pos rfl, hc]
    rfl

/-! ## Every stage succeeds -/

theorem checkStart_ok {l : Level} {diff : Option Diff} (hs : l.config.Sound)
    (hp : l.phase ≠ .stopping) (hd : diff = none → l.phase = .created) : checkStart l diff = .ok () := by
  obtain ⟨order, ho⟩ := hs
  unfold checkStart
  rw [ho]
  dsimp only
  cases diff with
  | none => rw [hd rfl]
  | some d =>
    cases h : l.phase with
    | stopping => exact absurd h hp
    | _ => rfl

variable {c : Call}

theorem smooth_start {k : LevelKey} {diff : Option Diff} (hn : ¬e.IsStopping k)
    (hc : e.call? key = some c) (hw : c.waiting = []) (hf : c.fault = none)
    (hfit : Fits e.config? (.start k diff :: c.stages)) (hfr : Fresh e (.start k diff :: c.stages))
    (h : Starts e key k diff e') : ∃ c', e'.call? key = some c' ∧ Smooth e' c' := by
  obtain ⟨⟨config, hk, hs⟩, hfit⟩ := hfit
  obtain ⟨l', hl', -, hlc⟩ := config?_eq_some.mp hk
  cases h with
  | nowhere hl => rw [hl] at hl'; cases hl'
  | @refused l fault hl hcheck =>
    obtain rfl : l = l' := Option.some.inj (hl.symm.trans hl')
    subst hlc
    have hok : checkStart l diff = .ok () := by
      refine checkStart_ok hs (fun hp => hn ⟨l, hl, hp⟩) fun hd => ?_
      subst hd
      obtain ⟨⟨l', hl', hp⟩, -⟩ := hfr
      obtain rfl : l = l' := Option.some.inj (hl.symm.trans hl')
      exact hp
    rw [hok] at hcheck
    cases hcheck
  | @fresh l hl hd hcheck =>
    obtain rfl : l = l' := Option.some.inj (hl.symm.trans hl')
    subst hlc
    have hm : KeepsPlaces e (e.modifyLevel k fun l => { l with failures := [] }) :=
      .modifyLevel _ _ _ fun _ => ⟨rfl, rfl, rfl⟩
    have hc' : (e.modifyLevel k fun l => { l with failures := [] }).call? key = some c := hc
    refine smooth_proceed hc' hf hw ?_ ?_
    · exact ⟨⟨l.config, hm.keepsConfigs k _ hk, hs⟩, hfit.mono hm.keepsConfigs⟩
    · exact (noFresh_append (by simp [NoFresh]) hfr.tail).fresh
  | @again l d hl hd hcheck =>
    obtain rfl : l = l' := Option.some.inj (hl.symm.trans hl')
    subst hlc
    refine smooth_proceed hc hf hw ?_ ?_
    · split
      · exact ⟨⟨l.config, hk, hs⟩, hfit⟩
      · exact ⟨⟨l.config, hk, hs⟩, hfit⟩
    · refine (noFresh_append (noFresh_append ?_ (by simp [NoFresh])) hfr.tail).fresh
      split <;> simp [NoFresh]

theorem smooth_apply {k : LevelKey} {config : FlowConfig} {diff : Option Diff}
    (hc : e.call? key = some c) (hw : c.waiting = []) (hf : c.fault = none)
    (hfit : Fits e.config? (.apply k config diff :: c.stages)) (hn : NoFresh c.stages)
    (h : Applies e key k config diff e') : ∃ c', e'.call? key = some c' ∧ Smooth e' c' := by
  obtain ⟨⟨config', hk, hs⟩, hfit⟩ := hfit
  have hkeep : KeepsConfigs e (e.rewired k config diff) := by
    unfold rewired
    refine KeepsConfigs.trans ?_ (.modifyLevel _ _ _ fun _ => ⟨rfl, rfl⟩)
    cases diff with
    | none => exact .refl e
    | some d => exact (rewires_rewire e k config d).keepsConfigs
  have hcr : (e.rewired k config diff).call? key = some c :=
    (call?_of_calls (calls_rewired e k config diff) key).trans hc
  obtain ⟨l', hl', -, hlc⟩ := config?_eq_some.mp (hkeep k config' hk)
  have hsm : Smooth (e.rewired k config diff) c :=
    ⟨hf, hfit.mono hkeep, hn.fresh, fun h => absurd hw h⟩
  cases h with
  | nowhere hl => rw [hl] at hl'; cases hl'
  | @refused l fault hl ho =>
    rw [hl] at hl'
    cases hl'
    obtain ⟨order, ho'⟩ := hs.resolve
    rw [hlc, ho'] at ho
    cases ho
  | @activates l order hl ho =>
    refine ⟨c, hcr, hsm.keeps ?_⟩
    have hp : KeepsPlaces (e.rewired k config diff)
        ((e.rewired k config diff).push [.announce k, .resume key]) := .of_level? fun _ => rfl
    exact hp.trans (keepsPlaces_activated _ k l.config order)

/-- The stages of the flows of the next generation fit as long as the flows that go on are there. -/
theorem fits_tabStages {kept : List LevelKey} {diff : Diff} {rest : List Stage} (tabs : List FlowConfig)
    (hs : ∀ tab ∈ tabs, tab.Sound) (hr : ∀ f : LevelKey → Option FlowConfig, Fits f rest)
    (f : LevelKey → Option FlowConfig) (hk : ∀ k ∈ kept, (f k).isSome = true) :
    Fits f (tabs.flatMap (e.tabStages kept diff) ++ rest) := by
  induction tabs generalizing f with
  | nil => exact hr f
  | cons tab tabs ih =>
    have ih := ih fun t ht => hs t (List.mem_cons_of_mem _ ht)
    have hsound := hs tab List.mem_cons_self
    rw [List.flatMap_cons, List.append_assoc]
    unfold tabStages
    split
    · rename_i k hfind
      obtain ⟨c, hc⟩ := Option.isSome_iff_exists.mp (hk k (List.mem_of_find?_eq_some hfind))
      refine ⟨⟨tab, by simp [hc], hsound⟩, ih _ fun j hj => ?_⟩
      split
      · rw [Option.isSome_map]
        exact hk j hj
      · exact hk j hj
    · exact ⟨hsound, ih f hk⟩

theorem fits_startTabs {f : LevelKey → Option FlowConfig} {listed : Bool} {rest : List Stage}
    (tabs : List FlowConfig) (hs : ∀ tab ∈ tabs, tab.Sound) (hr : Fits f rest) :
    Fits f (tabs.map (Stage.startTab · listed) ++ rest) := by
  induction tabs with
  | nil => exact hr
  | cons tab tabs ih =>
    exact ⟨hs tab List.mem_cons_self, ih fun t ht => hs t (List.mem_cons_of_mem _ ht)⟩

theorem smooth_deployNodes {previous next : Deployment} {diff : Diff} (hrt : Rooted e)
    (hc : e.call? key = some c) (hw : c.waiting = []) (hf : c.fault = none) (hs : next.Sound)
    (hstages : c.stages = []) : ∃ c', (e.deployNodes key previous next diff).call? key = some c' ∧
      Smooth (e.deployNodes key previous next diff) c' := by
  rw [deployNodes_eq, deployStages]
  have hc' : (e.hold key (e.flows ++ e.global.toList)).call? key =
      some { c with holds := (e.flows ++ e.global.toList) ++ c.holds } := by
    unfold hold
    rw [call?_modifyCall, if_pos rfl, hc]
    rfl
  have hkept (k : LevelKey) (hk : k ∈ e.keptFlows previous next) : (e.config? k).isSome = true :=
    hrt.flows k (List.mem_filter.mp hk).1
  have htabs (tab : FlowConfig) (ht : tab ∈ next.tabs) : tab.Sound := sound_tab hs ht
  have hlast (f : LevelKey → Option FlowConfig) : Fits f [.enlistGathered, .commit next] := trivial
  refine smooth_proceed hc' hf hw ?_ (NoFresh.fresh ?_)
  · change Fits e.config? (_ ++ c.stages)
    rw [hstages, List.append_nil, List.append_assoc, List.append_assoc]
    cases hg : e.global with
    | none => exact fits_tabStages next.tabs htabs hlast e.config? hkept
    | some g =>
      have hflow := hrt.global g hg
      obtain ⟨old, hold⟩ := Option.isSome_iff_exists.mp hflow
      refine ⟨⟨next.global, by simp [hold], hs _ List.mem_cons_self⟩, ?_⟩
      refine fits_tabStages next.tabs htabs hlast _ fun k hk => ?_
      split
      · rw [Option.isSome_map]
        exact hkept k hk
      · exact hkept k hk
  · change NoFresh (_ ++ c.stages)
    rw [hstages, List.append_nil]
    intro s hm k
    simp only [List.mem_append, List.mem_cons, List.not_mem_nil, or_false, List.mem_flatMap] at hm
    rcases hm with ((((rfl | rfl | rfl) | ⟨g, -, hm⟩) | ⟨tab, -, hm⟩) | rfl | rfl)
    · simp
    · simp
    · simp
    · simp only [globalStages, List.mem_cons, List.not_mem_nil, or_false] at hm
      rcases hm with rfl | rfl <;> simp
    · unfold tabStages at hm
      split at hm
      · simp only [List.mem_cons, List.not_mem_nil, or_false] at hm
        rcases hm with rfl | rfl | rfl <;> simp
      · obtain rfl := List.mem_singleton.mp hm
        simp
    · simp
    · simp

/-- A flow that has just been made can be started. -/
theorem smooth_added (kind : LevelKind) {config : FlowConfig} (e₁ : Engine) (c₁ : Call)
    {stages : List Stage} (hk : kind.isOutermost = true) (hs : config.Sound)
    (hl : ∀ j, e₁.level? j = (e.addLevel (.make kind none config)).1.level? j)
    (hc : e₁.call? key = some c₁) (hw : c₁.waiting = []) (hf : c₁.fault = none)
    (hfit : Fits e.config? (stages ++ c₁.stages)) (hn : NoFresh (stages ++ c₁.stages)) :
    ∃ c', (e₁.proceed key (.start e.levels.size none :: stages)).call? key = some c' ∧
      Smooth (e₁.proceed key (.start e.levels.size none :: stages)) c' := by
  have hkeep : KeepsConfigs e e₁ := (KeepsConfigs.addLevel e _).trans (.of_level? hl)
  have hnew : e₁.level? e.levels.size = some (.make kind none config) := by
    rw [hl, level?_addLevel, if_pos rfl]
  refine smooth_proceed hc hf hw ⟨⟨config, ?_, hs⟩, hfit.mono hkeep⟩ ⟨⟨_, hnew, rfl⟩, hn⟩
  exact config?_eq_some.mpr ⟨_, hnew, hk, rfl⟩

theorem smooth_startAll {next : Deployment} (hc : e.call? key = some c) (hw : c.waiting = [])
    (hf : c.fault = none) (hfit : Fits e.config? (.startAll next :: c.stages)) (hn : NoFresh c.stages) :
    ∃ c', (e.startAll key next).call? key = some c' ∧ Smooth (e.startAll key next) c' := by
  obtain ⟨hs, hfit⟩ := hfit
  unfold startAll
  rw [validateAll_ok.mpr hs]
  dsimp only
  refine smooth_added .global (hold _ key _) { c with
    holds := [e.levels.size] ++ c.holds } rfl (hs _ List.mem_cons_self) (fun _ => rfl) ?_ hw hf ?_ ?_
  · unfold hold
    rw [call?_modifyCall, if_pos rfl]
    change (e.call? key).map _ = _
    rw [hc]
    rfl
  · change Fits e.config? ((next.tabs.map (Stage.startTab · true) ++ [.commit next]) ++ c.stages)
    rw [List.append_assoc]
    exact fits_startTabs next.tabs (fun t ht => sound_tab hs ht) hfit
  · refine noFresh_append (noFresh_append ?_ (by simp [NoFresh])) hn
    intro s hm k
    obtain ⟨tab, -, rfl⟩ := List.mem_map.mp hm
    simp

theorem smooth_startTab {config : FlowConfig} {listed : Bool} (hc : e.call? key = some c)
    (hw : c.waiting = []) (hf : c.fault = none)
    (hfit : Fits e.config? (.startTab config listed :: c.stages)) (hn : NoFresh c.stages) :
    ∃ c', (e.startTab key config listed).call? key = some c' ∧
      Smooth (e.startTab key config listed) c' := by
  obtain ⟨hs, hfit⟩ := hfit
  unfold startTab
  split
  · exact smooth_proceed hc hf hw hfit hn.fresh
  · refine smooth_added .tab (hold _ key _) { c with
      holds := [e.levels.size] ++ c.holds } rfl hs (fun _ => rfl) ?_ hw hf ?_ ?_
    · unfold hold
      rw [call?_modifyCall, if_pos rfl]
      change (e.call? key).map _ = _
      rw [hc]
      rfl
    · cases listed <;> exact hfit
    · refine noFresh_append ?_ hn
      cases listed <;> simp [NoFresh]

theorem smooth_stopAll {requests : List StopRequest} (h : Smooth e c) (hc : e.call? key = some c)
    (hn : NoFresh c.stages) : ∃ c', (e.stopAll key requests).call? key = some c' ∧
      Smooth (e.stopAll key requests) c' := by
  have hst := stops_beginStops key (e, []) requests
  refine smooth_proceeds ⟨h.fault, h.fits.mono hst.keepsConfigs, hn.fresh, h.waits⟩ ?_ hn
    (proceeds_afterStops _ key _)
  exact (call?_of_shell hst.shell key).trans hc

/-- No stage refuses a call whose stages fit. -/
theorem smooth_runStage {stage : Stage} (hrt : Rooted e) (hst : ∀ k, ¬e.IsStopping k)
    (hc : e.call? key = some c) (hw : c.waiting = []) (hf : c.fault = none)
    (hfit : Fits e.config? (stage :: c.stages)) (hfr : Fresh e (stage :: c.stages)) :
    ∃ c', (e.runStage key stage).call? key = some c' ∧ Smooth (e.runStage key stage) c' := by
  have hn := hfr.tail
  cases stage with
  | stop requests => exact smooth_stopAll ⟨hf, hfit, hn.fresh, fun _ => hn⟩ hc hn
  | stopAmong levels ids removed => exact smooth_stopAll ⟨hf, hfit, hn.fresh, fun _ => hn⟩ hc hn
  | start k diff => exact smooth_start (hst k) hc hw hf hfit hfr (starts_start e key k diff)
  | apply k config diff => exact smooth_apply hc hw hf hfit hn (applies_apply e key k config diff)
  | update k config =>
    have hc' : (e.modifyLevel k fun l => { l with config }).call? key = some c := hc
    refine smooth_proceed hc' hf hw (Fits.mono (fun j c hj => ?_) hfit) hn.fresh
    rw [config?, level?_modifyLevel]
    split at hj
    · rename_i hk
      subst hk
      obtain ⟨c', hc', rfl⟩ := Option.map_eq_some_iff.mp hj
      obtain ⟨l, hl, ho, -⟩ := config?_eq_some.mp hc'
      simp [hl, ho]
    · rename_i hk
      rw [if_neg hk]
      exact hj
  | deployNodes previous next diff => exact smooth_deployNodes hrt hc hw hf hfit.1 hfit.2
  | stopAll =>
    have hc' : (hold { e with flows := [], global := none } key (e.flows ++ e.global.toList)).call? key =
        some { c with holds := (e.flows ++ e.global.toList) ++ c.holds } := by
      unfold hold
      rw [call?_modifyCall, if_pos rfl]
      change (e.call? key).map _ = _
      rw [hc]
      rfl
    refine smooth_proceed hc' hf hw hfit (NoFresh.fresh (noFresh_append ?_ hn))
    simp [NoFresh]
  | startAll next => exact smooth_startAll hc hw hf hfit hn
  | startTab config listed => exact smooth_startTab hc hw hf hfit hn
  | enlist k =>
    exact smooth_proceed (s := { e with flows := e.flows ++ [k] }) hc hf hw hfit hn.fresh
  | gather k =>
    have hc' : (e.modifyCall key fun c => { c with gathered := c.gathered ++ [k] }).call? key =
        some { c with gathered := c.gathered ++ [k] } := by
      rw [call?_modifyCall, if_pos rfl, hc]
      rfl
    exact smooth_proceed hc' hf hw hfit hn.fresh
  | enlistGathered =>
    exact smooth_proceed (s := { e with flows := _ }) hc hf hw hfit hn.fresh
  | commit next => exact smooth_proceed (s := { e with deployed := some next }) hc hf hw hfit hn.fresh
  | withdraw => exact smooth_proceed (s := { e with deployed := none }) hc hf hw hfit hn.fresh
  | stuck =>
    refine ⟨{ c with stages := .stuck :: c.stages }, ?_, hf, hfit, hfr, fun h => absurd hw h⟩
    change (e.modifyCall key fun c => { c with stages := .stuck :: c.stages }).call? key = _
    rw [call?_modifyCall, if_pos rfl, hc]
    rfl

/-! ## No step refuses the call -/

/-- With one call under way alone that waits for nothing, no level is in its stopping phase. -/
theorem Unrefused.not_isStopping (h : Unrefused e key) (hc : e.call? key = some c)
    (hw : c.waiting = []) (k : LevelKey) : ¬e.IsStopping k := by
  refine h.reachable.not_isStopping (fun j c' hj => ?_) k
  by_cases hk : j = key
  · subst hk
    obtain rfl : c = c' := Option.some.inj (hc.symm.trans hj)
    exact hw
  · have ho := h.others j c' hj hk
    simp only [Call.over, Bool.and_eq_true, List.isEmpty_iff] at ho
    exact ho.2

theorem smooth_resumes (hrt : Rooted e) (hst : c.waiting = [] → ∀ k, ¬e.IsStopping k)
    (hc : e.call? key = some c) (hs : Smooth e c) (hr : Resumes e key e') :
    ∃ c', e'.call? key = some c' ∧ Smooth e' c' := by
  cases hr with
  | unknown hn => rw [hn] at hc; cases hc
  | @ends c' hc' hw hend =>
    refine ⟨{ c with ended := c.ended <|> some e.now, holds := [] }, ?_, hs.fault, hs.fits, hs.fresh,
      hs.waits⟩
    rw [call?_modifyCall, if_pos rfl, hc]
    rfl
  | @stage c' stage rest hc' hw hstage =>
    obtain rfl : c = c' := Option.some.inj (hc.symm.trans hc')
    have hroot : Rooted (e.modifyCall key fun c => { c with stages := rest }) := by
      refine hrt.modifyCall key _ fun c' hc' hroot => ⟨hroot.gathered, fun s hm => ?_⟩
      obtain rfl : c = c' := Option.some.inj (hc.symm.trans hc')
      exact hroot.stages s (by rw [hstage]; exact List.mem_cons_of_mem _ hm)
    have hfit := hs.fits
    have hfr := hs.fresh
    rw [hstage] at hfit hfr
    refine smooth_runStage (c := { c with stages := rest }) hroot (hst hw) ?_ hw hs.fault hfit hfr
    rw [call?_modifyCall, if_pos rfl, hc]
    rfl
  | @waits c' hc' hw =>
    obtain rfl : c = c' := Option.some.inj (hc.symm.trans hc')
    have hpoll := stops_pollStops key (e, []) c.waiting
    refine smooth_proceeds ⟨hs.fault, hs.fits.mono hpoll.keepsConfigs, (hs.waits hw).fresh, hs.waits⟩ ?_
      (hs.waits hw) (proceeds_afterStops _ key _)
    exact (call?_of_shell hpoll.shell key).trans hc

theorem Unrefused.tick (h : Unrefused e key) (ht : Tick e e') : Unrefused e' key := by
  obtain ⟨c, hc, hs⟩ := h.call
  obtain ⟨hsolo, hadv⟩ := h.others.tick ht
  refine ⟨h.reachable.tick ht, ?_, hsolo⟩
  cases hadv with
  | idles hi => exact ⟨c, hi.call.trans hc, hs.keeps (.of_level? hi.level?)⟩
  | @makes a rest hb ha hm =>
    have hne (j : CallKey) : a ≠ .resume j := by
      rintro rfl
      cases hm
    refine ⟨c, ?_, hs.keeps ((KeepsPlaces.of_level? fun _ => rfl).trans
      (keepsPlaces_act (e := { e with agenda := rest }) hne))⟩
    exact (call?_of_calls (calls_of_register (register_act hne)) key).trans hc
  | @resumes rest e' hb ha hr =>
    have hroot : Rooted { e with agenda := rest } := h.reachable.rooted.register (fun _ hk => hk) rfl
    have hs₀ : Smooth { e with agenda := rest } c := hs.keeps (.of_level? fun _ => rfl)
    exact smooth_resumes hroot (fun hw k => h.not_isStopping hc hw k) hc hs₀ hr

/-! ## A call that begins at rest -/

/-- A call that begins while nothing is under way is not refused if its stages fit. -/
theorem unrefused_begin (h : Reachable e) (hr : AtRest e) {stages : List Stage} (ho : e.Offers stages)
    (hfit : Fits e.config? stages) (hn : NoFresh stages) :
    Unrefused (e.begin stages).1 e.nextCall := by
  have hk := h.keysBelow
  refine ⟨h.input hr.idle (.call ho), ⟨.make stages e.now, ?_, rfl, ?_, hn.fresh, fun h => absurd rfl h⟩,
    hr.solo hk stages⟩
  · rw [call?_begin hk, if_pos rfl]
  · exact hfit.mono (KeepsConfigs.of_level? (level?_begin e stages))

theorem Unrefused.reach (h : Unrefused e key) (hr : Reach e e') : Unrefused e' key :=
  hr.invariant (P := fun e => Unrefused e key) (fun _ _ h ht => h.tick ht) h

end Engine
end Flowgraph
