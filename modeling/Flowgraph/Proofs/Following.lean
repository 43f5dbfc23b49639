import Flowgraph.Proofs.AllOrNothing
import Flowgraph.Proofs.Departures
import Flowgraph.Proofs.Scenes
/-! A run follows what is known of a call's stages. While a call is under way alone, the engine is at every step as
the scene shows it, up to the stage the call has come to. -/
namespace Flowgraph
open Engine

namespace Engine

variable {e e' : Engine} {k : LevelKey} {id : NodeId}

/-! ## The nodes that stops ask for -/

/-- The nodes that a stop asks for have left its level when it has begun. -/
theorem inactive_stop (hl : Laid e) (call : CallKey) {r : StopRequest} (hc : r.Covers id) :
    (e.stop call r).1.activeKey? r.level id = none := by
  cases hlk : e.level? r.level with
  | none => exact ((stops_stop e call _).dwindles hl).none_of_none (by rw [activeKey?, hlk]; rfl)
  | some l =>
    have hlaid : Laid (e.vacated l r) := Stops.laid (stops_vacated hlk fun _ _ _ _ _ _ => trivial) hl
    have hv : (e.vacated l r).activeKey? r.level id = none := by
      rw [activeKey?_vacated hl, if_pos rfl]
      cases hn : e.activeKey? r.level id with
      | none => rfl
      | some n => simp [Option.filter, (mem_stopTargets hl hlk).mpr ⟨id, hn, hc⟩]
    have hclosed (s : Engine) : Closed (fun _ _ => True) s := fun _ _ _ _ _ _ _ _ => trivial
    have hrest : Stops (e.vacated l r) (beginStop call (e.levelCount + 1) e r).1 := by
      rw [beginStop_eq call e.levelCount hlk]
      refine StopsWithin.trans (stops_beginAll (fun s inst removal _ _ => ?_) call _ _ (e.vacated l r, []) (hclosed _)
        fun _ _ _ _ => trivial) (stops_finishStop _ _ _ _ _ _)
      exact stopsWithin_beginStop call _ s _ (hclosed s) fun _ _ _ _ _ _ => trivial
    exact (hrest.dwindles hlaid).none_of_none hv

/-- The nodes that stops ask for are active in none of their levels when all of them have begun. -/
theorem inactive_beginStops (call : CallKey) {requests : List StopRequest} (s : Engine × List Stopping)
    (hl : Laid s.1) (h : s.1.activeKey? k id = none ∨ ∃ r ∈ requests, r.level = k ∧ r.Covers id) :
    (beginStops call s requests).1.activeKey? k id = none := by
  induction requests generalizing s with
  | nil => exact h.resolve_right (by simp)
  | cons r requests ih =>
    have hstop := stops_stop s.1 call r
    refine ih _ (hstop.laid hl) ?_
    rcases h with ha | ⟨r', hr', rfl, hc⟩
    · exact .inl ((hstop.dwindles hl).none_of_none ha)
    · rcases List.mem_cons.mp hr' with rfl | hr'
      · exact .inl (inactive_stop hl call hc)
      · exact .inr ⟨r', hr', rfl, hc⟩

end Engine

/-! ## The engine as a scene shows it -/

variable {σ : Type} {R : Reading σ} {Final : Scene σ → Prop} {S : Scene σ} {e e' : Engine} {key : CallKey} {c : Call}
  {k : LevelKey} {s t : σ} {stages : List Stage}

/-- The engine is as the scene shows it. -/
structure Reading.Shown (R : Reading σ) (e : Engine) (S : Scene σ) : Prop where
  sketch : ∀ k s, S.sketch k = some s → R.Tells e k s
  /-- What the call has dealt with has started. -/
  started : ∀ k s, S.sketch k = some s → ¬R.Due s → e.HasStarted k
  /-- There is nothing in flows of which nothing is known. -/
  others : ∀ k, S.sketch k = none → e.IsFlow k → e.Deserted k
  flows : e.flows = S.flows
  global : e.global = S.global
  deployed : e.deployed = S.deployed

/-- The call leads to a last scene from the one that shows the engine, unless it has been refused or the engine is
broken. While it waits for stops it has dealt with no level yet. -/
def Reading.Follows (R : Reading σ) (Final : Scene σ → Prop) (e : Engine) (key : CallKey) : Prop :=
  e.broken = true ∨ ∃ c, e.call? key = some c ∧ (c.fault.isSome = true ∧ c.over = true ∨
    ∃ S, R.Shown e S ∧ c.gathered = S.gathered ∧ (c.waiting ≠ [] → S.Due R) ∧ R.Leads Final c.stages S)

namespace Reading

theorem Shown.isFlow (h : R.Shown e S) (hs : S.sketch k = some s) : e.IsFlow k := by
  obtain ⟨l, hl, ho, -, -⟩ := R.flow (h.sketch k s hs)
  exact Option.isSome_iff_exists.mpr ⟨l.config, config?_eq_some.mpr ⟨l, hl, ho, rfl⟩⟩

/-- A level that is not there yet is not known. -/
theorem Shown.unknown (h : R.Shown e S) : S.sketch e.levels.size = none := by
  cases hs : S.sketch e.levels.size with
  | none => rfl
  | some s =>
    obtain ⟨l, hl, -⟩ := R.flow (h.sketch _ s hs)
    exact absurd (level?_lt e _ hl) (Nat.lt_irrefl _)

theorem Shown.lulls (h : R.Shown e S) (hl : Lulls e e') : R.Shown e' S :=
  ⟨fun k s hs => R.beside (h.sketch k s hs) hl.beside,
    fun k s hs hd => (h.started k s hs hd).of_level? (hl.level? k),
    fun k hk hf => (h.others k hk (FoundsNone.of_level? hl.level? k hf)).beside hl.beside,
    hl.flows.trans h.flows, hl.global.trans h.global, hl.deployed.trans h.deployed⟩

/-- A step in which the flows stay the same. -/
theorem Shown.register (h : R.Shown e S) (hr : e'.register = e.register)
    (hs : ∀ k s, S.sketch k = some s → R.Tells e' k s)
    (hp : ∀ k s, S.sketch k = some s → ¬R.Due s → e.HasStarted k → e'.HasStarted k) (hn : FoundsNone e e')
    (hq : ∀ k, e.IsFlow k → e.Deserted k → e'.Deserted k) : R.Shown e' S := by
  have hd := congrArg (·.2.2.1) hr
  have hg := congrArg (·.2.2.2.1) hr
  have hf := congrArg (·.2.2.2.2) hr
  exact ⟨hs, fun k s hk hdue => hp k s hk hdue (h.started k s hk hdue),
    fun k hk hflow => hq k (hn k hflow) (h.others k hk (hn k hflow)), Eq.trans hf h.flows, Eq.trans hg h.global,
    Eq.trans hd h.deployed⟩

/-- Something else is known of one level. -/
theorem Shown.draw (h : R.Shown e S) (hr : e'.register = e.register) (ht : R.Tells e' k t)
    (hk : ¬R.Due t → e'.HasStarted k) (hb : ∀ j, j ≠ k → e.IsFlow j → Beside j e e')
    (hp : ∀ j, e.HasStarted j → e'.HasStarted j) (hn : ∀ j, j ≠ k → e'.IsFlow j → e.IsFlow j) :
    R.Shown e' (S.draw k t) := by
  have hd := congrArg (·.2.2.1) hr
  have hg := congrArg (·.2.2.2.1) hr
  have hf := congrArg (·.2.2.2.2) hr
  refine ⟨fun j s hs => ?_, fun j s hs hdue => ?_, fun j hj hflow => ?_, Eq.trans hf h.flows, Eq.trans hg h.global,
    Eq.trans hd h.deployed⟩
  · by_cases hj : j = k
    · subst hj
      rw [Scene.sketch_draw_self] at hs
      exact Option.some.inj hs ▸ ht
    · rw [Scene.sketch_draw_of_ne hj] at hs
      exact R.beside (h.sketch j s hs) (hb j hj (h.isFlow hs))
  · by_cases hj : j = k
    · subst hj
      rw [Scene.sketch_draw_self] at hs
      cases hs
      exact hk hdue
    · rw [Scene.sketch_draw_of_ne hj] at hs
      exact hp j (h.started j s hs hdue)
  · have hne : j ≠ k := by
      rintro rfl
      rw [Scene.sketch_draw_self] at hj
      cases hj
    rw [Scene.sketch_draw_of_ne hne] at hj
    have hflow' := hn j hne hflow
    exact (h.others j hj hflow').beside (hb j hne hflow')

/-- The flows that run, or the deployment, are other ones. -/
theorem Shown.enrolls {S' : Scene σ} (h : R.Shown e S) (hb : ∀ k, Beside k e e') (hl : ∀ k, e'.level? k = e.level? k)
    (hs : S'.sketch = S.sketch) (hf : e'.flows = S'.flows) (hg : e'.global = S'.global)
    (hd : e'.deployed = S'.deployed) : R.Shown e' S' :=
  ⟨fun k s hk => R.beside (h.sketch k s (hs ▸ hk)) (hb k),
    fun k s hk hdue => (h.started k s (hs ▸ hk) hdue).of_level? (hl k),
    fun k hk hflow => (h.others k (hs ▸ hk) (FoundsNone.of_level? hl k hflow)).beside (hb k), hf, hg, hd⟩

/-! ## Going on -/

theorem Follows.proceed (hs : R.Shown e S) (hc : e.call? key = some c) (hw : c.waiting = [])
    (hg : c.gathered = S.gathered) (hl : R.Leads Final (stages ++ c.stages) S) :
    R.Follows Final (e.proceed key stages) key :=
  .inr ⟨_, call?_proceed hc stages, .inr ⟨S, hs.lulls (.proceed e key stages), hg, absurd hw, hl⟩⟩

theorem Follows.refuse (hc : e.call? key = some c) (hw : c.waiting = []) (fault : FlowFault) :
    R.Follows Final (e.refuse key fault) key :=
  .inr ⟨_, call?_refuse hc fault, .inl ⟨rfl, by simp [Call.over, hw]⟩⟩

theorem Follows.proceeds {stops : List Stopping} (hp : Proceeds e key stops e') (hs : R.Shown e S) (hd : S.Due R)
    (hc : e.call? key = some c) (hg : c.gathered = S.gathered) (hl : R.Leads Final c.stages S) :
    R.Follows Final e' key := by
  obtain ⟨waiting, report, hc'⟩ := hp.call hc
  exact .inr ⟨_, hc', .inr ⟨S, hs.lulls hp.lulls, hg, fun _ => hd, hl⟩⟩

theorem Shown.stops (h : R.Shown e S) (hl : Laid e) (hd : S.Due R) (hs : Stops e e') : R.Shown e' S :=
  h.register (register_of_shell hs.shell) (fun k s hk => R.stops hl (h.sketch k s hk) (hd k s hk) hs)
    (fun k s hk hdue => absurd (hd k s hk) hdue) (StopsWithin.foundsNone hs) fun _ _ hq => hq.stops hl hs

/-- Levels that have been emptied need not be known any more. -/
theorem Shown.forget (h : R.Shown e S) {requests : List StopRequest}
    (hr : ∀ k, StopRequest.Empties requests k → e.Deserted k) : R.Shown e (S.forget requests) := by
  refine ⟨fun k s hs => h.sketch k s (Scene.sketch_of_forget hs),
    fun k s hs hdue => h.started k s (Scene.sketch_of_forget hs) hdue, fun k hk hflow => ?_, h.flows, h.global,
    h.deployed⟩
  rw [Scene.sketch_forget] at hk
  split at hk
  · exact hr k ‹_›
  · exact h.others k hk hflow

/-- The call stops levels side by side. -/
theorem Follows.stopAll {requests : List StopRequest} {S' : Scene σ}
    (hs : R.Shown (beginStops key (e, []) requests).1 S') (hd : S'.Due R) (hc : e.call? key = some c)
    (hg : c.gathered = S'.gathered) (hl : R.Leads Final c.stages S') :
    R.Follows Final (e.stopAll key requests) key := by
  have hc' := (call?_of_shell (stops_beginStops key (e, []) requests).shell key).trans hc
  exact Follows.proceeds (proceeds_afterStops _ _ _) hs hd hc' hg hl

theorem Shown.without (h : R.Shown e S) (hp : e.plan = []) (hd : S.Due R) {ks : List LevelKey} {ids : List NodeId}
    (hi : ∀ k ∈ ks, ∀ id ∈ ids, e.activeKey? k id = none) : R.Shown e (S.without R ks ids) := by
  refine ⟨fun k s hs => ?_, fun k s hs hdue => absurd (hd.without k s hs) hdue, fun k hk hflow => h.others k ?_ hflow,
    h.flows, h.global, h.deployed⟩
  · rw [Scene.sketch_without] at hs
    split at hs
    · rename_i hk
      obtain ⟨s', hs', rfl⟩ := Option.map_eq_some_iff.mp hs
      exact R.vacates (h.sketch k s' hs') (hd k s' hs') hp (hi k hk)
    · exact h.sketch k s hs
  · rw [Scene.sketch_without] at hk
    split at hk
    · exact Option.map_eq_none_iff.mp hk
    · exact hk

/-! ## The stages of a call -/

/-- A flow is checked before it starts. Nothing is stopped then, since none of the nodes that the difference names
is active. -/
theorem Follows.start {diff : Option Diff} {e' : Engine} (h : R.Shown e S) (hc : e.call? key = some c)
    (hw : c.waiting = []) (hg : c.gathered = S.gathered) (hs : S.sketch k = some s)
    (hd : ∀ d, diff = some d → ∀ id ∈ d.changed ++ d.removed, R.Lacks s id)
    (hl : R.Leads Final (.apply k (R.config s) diff :: c.stages) S) (hst : Starts e key k diff e') :
    R.Follows Final e' key := by
  have ht := h.sketch k s hs
  obtain ⟨l, hlev, ho, hcfg, hid⟩ := R.flow ht
  cases hst with
  | nowhere hl' =>
    rw [hlev] at hl'
    cases hl'
  | refused => exact .refuse hc hw _
  | @fresh l' hl' hdiff =>
    obtain rfl := Option.some.inj (hlev.symm.trans hl')
    subst hdiff
    have hb (j : LevelKey) : Beside j e (e.modifyLevel k fun l => { l with failures := [] }) :=
      .modifyLevel e (fun _ => ⟨rfl, rfl, rfl⟩) fun _ _ => ⟨⟨⟨rfl, rfl, rfl⟩, rfl, rfl⟩, rfl, rfl⟩
    have hp : KeepsPlaces e (e.modifyLevel k fun l => { l with failures := [] }) :=
      .modifyLevel e k _ fun _ => ⟨rfl, rfl, rfl⟩
    refine Follows.proceed (h.register rfl (fun j s' hj => R.beside (h.sketch j s' hj) (hb j))
      (fun _ _ _ _ hst => hst.keepsPlaces hp) (.modifyLevel e k fun _ => rfl) fun j _ hq => hq.beside (hb j)) hc hw hg ?_
    rw [hcfg]
    exact hl
  | @again l' d hl' hdiff =>
    obtain rfl := Option.some.inj (hlev.symm.trans hl')
    subst hdiff
    have hstale : (d.changed ++ d.removed).filter l.active.contains = [] := by
      rw [List.filter_eq_nil_iff]
      intro id hid
      have := R.absent ht (hd d rfl id hid)
      rw [activeKey?, hlev] at this
      rw [Dict.contains_eq_isSome, show l.active.get? id = none from this]
      simp
    rw [hstale, hcfg]
    exact .proceed h hc hw hg hl

/-- The configuration of a flow is applied. -/
theorem Follows.apply {diff : Option Diff} {e' : Engine} (hlaid : Laid e) (hp : e.plan = []) (h : R.Shown e S)
    (hc : e.call? key = some c) (hw : c.waiting = []) (hg : c.gathered = S.gathered) (hs : S.sketch k = some s)
    (hd : R.Due s) (ha : R.Applies diff s t) (hl : R.Leads Final c.stages (S.draw k t))
    (happ : Engine.Applies e key k (R.config s) diff e') : R.Follows Final e' key := by
  have ht := h.sketch k s hs
  obtain ⟨l, hlev, -, hcfg, -⟩ := R.flow ht
  have hcall : (e.rewired k (R.config s) diff).call? key = some c :=
    (call?_of_calls (calls_rewired _ _ _ _) key).trans hc
  have hreg : (e.rewired k (R.config s) diff).register = e.register := by
    cases diff with
    | none => rfl
    | some d => exact (rewires_rewire e k (R.config s) d).register
  obtain ⟨l', hl', halike⟩ := resembles_rewired (h.isFlow hs) k (R.config s) diff l hlev
  cases happ with
  | nowhere hn =>
    rw [hl'] at hn
    cases hn
  | @activates l₁ order hl₁ ho =>
    obtain rfl := Option.some.inj (hl'.symm.trans hl₁)
    rw [halike.config, hcfg] at ho ⊢
    cases hb : (e.rewired k (R.config s) diff).broken with
    | true => exact .inl hb
    | false =>
      have hstarted (j : LevelKey) (hj : j = k ∨ e.HasStarted j) :
          (((e.rewired k (R.config s) diff).push [.announce k, .resume key]).activated k (R.config s) order).HasStarted
            j := by
        exact hasStarted_applied _ diff _ order (hj.imp_left fun hj => ⟨hj, l, hj ▸ hlev⟩)
      refine .inr ⟨c, hcall, .inr ⟨S.draw k t, h.draw hreg (R.applies hlaid ht hd hp ha ho hb key)
        (fun _ => hstarted k (.inl rfl)) (fun j hj hflow => ?_) (fun j hj => hstarted j (.inr hj)) fun j _ => ?_, hg,
        absurd hw, hl⟩⟩
      · have hpush : Lulls (e.rewired k (R.config s) diff)
            ((e.rewired k (R.config s) diff).push [.announce k, .resume key]) := .push _ (by simp [Action.isQuiet])
        exact ((beside_rewired hlaid hp hflow (Ne.symm hj) _ diff).trans hpush.beside).trans
          (beside_activated _ (Ne.symm hj) _ _)
      · have hpush : FoundsNone (e.rewired k (R.config s) diff)
            ((e.rewired k (R.config s) diff).push [.announce k, .resume key]) :=
          .of_level? fun i => level?_push _ i _
        exact ((foundsNone_rewired e k _ diff).trans hpush).trans (foundsNone_activated _ _ _ _) j
  | refused => exact .refuse hcall hw _

/-- A new flow is known from then on. -/
theorem Shown.appears (h : R.Shown e S) (hp : e.plan = []) {kind : LevelKind} (hk : kind.isOutermost = true)
    {config : FlowConfig} (hi : R.Opens kind config) :
    R.Shown (e.addLevel (.make kind none config)).1 (S.draw e.levels.size (R.bare config)) := by
  refine h.draw rfl (R.appears hp hk hi) (absurd (R.due_bare config)) (fun j _ hflow => .addLevel ?_ _)
    (fun j hj => hj.keepsPlaces (.addLevel e _)) fun j hj hflow => ?_
  · obtain ⟨l, hl, -⟩ := isFlow_iff.mp hflow
    exact level?_lt e j hl
  · rwa [isFlow_iff, level?_addLevel, if_neg hj, ← isFlow_iff] at hflow

theorem Follows.startAll {next : Deployment} (hp : e.plan = []) (h : R.Shown e S) (hc : e.call? key = some c)
    (hw : c.waiting = []) (hg : c.gathered = S.gathered) (hl : R.Leads Final (.startAll next :: c.stages) S) :
    R.Follows Final (e.startAll key next) key := by
  cases hl with
  | startAll hi hl =>
    unfold Engine.startAll
    split
    · exact .refuse hc hw _
    · have hnew := h.appears hp (show LevelKind.global.isOutermost = true from rfl) hi
      have hs : R.Shown { (e.addLevel (.make .global none next.global)).1 with global := some e.levels.size }
          { S.draw e.levels.size (R.bare next.global) with global := some e.levels.size } :=
        hnew.enrolls (fun _ => .of_eq rfl rfl rfl rfl rfl) (fun _ => rfl) rfl hnew.flows rfl hnew.deployed
      exact Follows.proceed (hs.lulls (.modifyCall _ key _)) (call?_hold hc [e.levels.size]) hw hg
        (hl e.levels.size h.unknown)

theorem Follows.startTab {config : FlowConfig} {listed : Bool} (hp : e.plan = []) (h : R.Shown e S)
    (hc : e.call? key = some c) (hw : c.waiting = []) (hg : c.gathered = S.gathered)
    (hl : R.Leads Final (.startTab config listed :: c.stages) S) :
    R.Follows Final (e.startTab key config listed) key := by
  unfold Engine.startTab
  cases hl with
  | skipTab hd hl =>
    rw [if_pos hd]
    exact .proceed h hc hw hg hl
  | openTab hd hi hl =>
    rw [if_neg (by simp [hd])]
    have hnew := h.appears hp (show LevelKind.tab.isOutermost = true from rfl) hi
    exact Follows.proceed (hnew.lulls (.modifyCall _ key _)) (call?_hold hc [e.levels.size]) hw hg
      (hl e.levels.size h.unknown)

/-- The stage that a call has come to is run. -/
theorem Follows.runStage {stage : Stage} (hlaid : Laid e) (hp : e.plan = []) (h : R.Shown e S)
    (hc : e.call? key = some c) (hw : c.waiting = []) (hg : c.gathered = S.gathered)
    (hl : R.Leads Final (stage :: c.stages) S) : R.Follows Final (e.runStage key stage) key := by
  cases stage with
  | stop requests =>
    cases hl with
    | stop hf hl =>
      have hstops := stops_beginStops key (e, []) requests
      have hplan : (beginStops key (e, []) requests).1.plan = [] := by
        unfold plan at *
        rwa [hstops.agenda]
      refine .stopAll ((h.stops hlaid hf hstops).forget ?_) (hf.forget requests) hc hg hl
      rintro k ⟨r, hr, rfl, hall⟩
      refine ⟨fun id => inactive_beginStops key (e, []) hlaid (.inr ⟨r, hr, rfl, fun ids hids => ?_⟩), by simp [hplan]⟩
      rw [hall] at hids
      cases hids
  | stopAmong levels ids removed =>
    cases hl with
    | stopAmong hf hl =>
      have hstops := stops_beginStops key (e, []) (levels.map fun k =>
        ⟨k, some (ids.filter fun id => (e.activeKey? k id).isSome), .ids removed⟩)
      refine .stopAll ((h.stops hlaid hf hstops).without ?_ hf fun k hk id hid => ?_) hf.without hc hg hl
      · unfold plan at *
        rwa [hstops.agenda]
      · refine inactive_beginStops key (e, []) hlaid ?_
        by_cases ha : (e.activeKey? k id).isSome = true
        · refine .inr ⟨_, List.mem_map_of_mem hk, rfl, fun ids hids => ?_⟩
          obtain rfl := Option.some.inj hids
          exact List.mem_filter.mpr ⟨hid, ha⟩
        · exact .inl (by simpa using ha)
  | start k diff =>
    cases hl with
    | start hs hd hl => exact .start h hc hw hg hs hd hl (starts_start e key k diff)
  | apply k config diff =>
    cases hl with
    | apply hs hf ha hl => exact .apply hlaid hp h hc hw hg hs hf ha hl (applies_apply e key k _ diff)
  | update k config =>
    cases hl with
    | @update _ _ _ _ s hs hf hi hl =>
      have hnew : R.Shown (e.modifyLevel k fun l => { l with config }) (S.draw k (R.under s config)) :=
        h.draw rfl (R.updates (h.sketch k s hs) hf hp hi) (absurd (R.due_under config hf))
          (fun j hj _ => .elsewhere e (Ne.symm hj) fun _ => ⟨rfl, rfl, rfl⟩)
          (fun j hj => hj.modifyLevel k (fun l => { l with config }) fun _ h => h)
          fun j _ => FoundsNone.modifyLevel e k (f := fun l => { l with config }) (fun _ => rfl) j
      exact Follows.proceed hnew hc hw hg hl
  | deployNodes previous next diff =>
    cases hl with
    | deployNodes hl =>
      change R.Follows Final (e.deployNodes key previous next diff) key
      rw [deployNodes_eq]
      refine Follows.proceed (h.lulls (.modifyCall e key _)) (call?_hold hc _) hw hg
        (hl e h.flows h.global fun k s hs => ?_)
      obtain ⟨l, hlev, -, -, hid⟩ := R.flow (h.sketch k s hs)
      simp [flowId, hlev, hid]
  | stopAll =>
    cases hl with
    | stopAll hl =>
      have hs : R.Shown { e with flows := [], global := none } { S with flows := [], global := none } :=
        h.enrolls (fun _ => .of_eq rfl rfl rfl rfl rfl) (fun _ => rfl) rfl rfl rfl h.deployed
      rw [← h.flows, ← h.global] at hl
      exact Follows.proceed (hs.lulls (.modifyCall _ key _))
        (call?_hold (e := { e with flows := [], global := none }) hc (e.flows ++ e.global.toList)) hw hg hl
  | startAll next => exact .startAll hp h hc hw hg hl
  | startTab config listed => exact .startTab hp h hc hw hg hl
  | enlist k =>
    cases hl with
    | enlist hl =>
      have hs : R.Shown { e with flows := e.flows ++ [k] } { S with flows := S.flows ++ [k] } :=
        h.enrolls (fun _ => .of_eq rfl rfl rfl rfl rfl) (fun _ => rfl) rfl (by rw [h.flows]) h.global h.deployed
      exact Follows.proceed hs hc hw hg hl
  | gather k =>
    cases hl with
    | gather hl =>
      refine Follows.proceed (S := { S with gathered := S.gathered ++ [k] })
        (c := { c with gathered := c.gathered ++ [k] })
        (Shown.lulls ⟨h.sketch, h.started, h.others, h.flows, h.global, h.deployed⟩ (.modifyCall e key _)) ?_ hw (by rw [← hg]) hl
      rw [call?_modifyCall, if_pos rfl, hc]
      rfl
  | enlistGathered =>
    cases hl with
    | enlistGathered hl =>
      have hs : R.Shown { e with flows := e.gathered key } { S with flows := S.gathered } :=
        h.enrolls (fun _ => .of_eq rfl rfl rfl rfl rfl) (fun _ => rfl) rfl (by simpa [gathered, hc] using hg) h.global
          h.deployed
      rw [runStage_enlistGathered]
      exact Follows.proceed hs hc hw hg hl
  | commit next =>
    cases hl with
    | commit hl =>
      have hs : R.Shown { e with deployed := some next } { S with deployed := some next } :=
        h.enrolls (fun _ => .of_eq rfl rfl rfl rfl rfl) (fun _ => rfl) rfl h.flows h.global rfl
      exact Follows.proceed hs hc hw hg hl
  | withdraw =>
    cases hl with
    | withdraw hl =>
      have hs : R.Shown { e with deployed := none } { S with deployed := none } :=
        h.enrolls (fun _ => .of_eq rfl rfl rfl rfl rfl) (fun _ => rfl) rfl h.flows h.global rfl
      exact Follows.proceed hs hc hw hg hl
  | stuck =>
    refine .inr ⟨{ c with stages := .stuck :: c.stages }, ?_,
      .inr ⟨S, h.lulls (.modifyCall e key fun c => { c with stages := .stuck :: c.stages }), hg, absurd hw, .stuck⟩⟩
    refine (call?_modifyCall e key (fun c => { c with stages := .stuck :: c.stages }) key).trans ?_
    rw [if_pos rfl, hc]
    rfl

/-! ## Whole runs -/

theorem Follows.resumes (hlaid : Laid e) (hp : e.plan = []) (hb : e.broken = false) (h : R.Follows Final e key)
    (hr : Resumes e key e') : R.Follows Final e' key := by
  obtain ⟨c, hc, h⟩ := h.resolve_left (by simp [hb])
  have hcall {c' : Call} (hc' : e.call? key = some c') : c' = c := Option.some.inj (hc'.symm.trans hc)
  cases hr with
  | unknown hn =>
    rw [hc] at hn
    cases hn
  | ends =>
    refine .inr ⟨{ c with ended := c.ended <|> some e.now, holds := [] }, ?_, h.imp id ?_⟩
    · rw [call?_modifyCall, if_pos rfl, hc]
      rfl
    · rintro ⟨S, hs, hg, hd, hl⟩
      exact ⟨S, hs.lulls (.modifyCall e key _), hg, hd, hl⟩
  | @stage c' stage rest hc' hw hst =>
    obtain rfl := hcall hc'
    rcases h with ⟨-, ho⟩ | ⟨S, hs, hg, -, hl⟩
    · simp [Call.over, hst] at ho
    · rw [hst] at hl
      refine .runStage (c := { c' with stages := rest }) ?_ hp (hs.lulls (.modifyCall e key _)) ?_ hw hg hl
      · exact hlaid.of_levels (grows_modifyCall e key _) fun _ => rfl
      · rw [call?_modifyCall, if_pos rfl, hc]
        rfl
  | @waits c' hc' hw =>
    obtain rfl := hcall hc'
    rcases h with ⟨-, ho⟩ | ⟨S, hs, hg, hd, hl⟩
    · simp only [Call.over, Bool.and_eq_true, List.isEmpty_iff] at ho
      exact absurd ho.2 hw
    · have hpoll : StopsWithin (fun _ _ => False) e (pollStops key (e, []) c'.waiting).1 :=
        stopsWithin_pollStops key (e, []) c'.waiting
      rw [pollAll_eq]
      exact .proceeds (proceeds_afterStops _ _ _) (hs.stops hlaid (hd hw) hpoll.stops) (hd hw)
        ((call?_of_shell hpoll.stops.shell key).trans hc) hg hl

end Reading

theorem Engine.broken_tick (h : e.broken = true) (ht : Tick e e') : e'.broken = true := by
  cases ht with
  | act hb => simp [h] at hb
  | turn hb => simp [h] at hb
  | wake => exact (broken_of_still (quiet_wakePutOff e).still).trans h
  | time moment => exact (broken_of_still (quiet_moveTo e moment).still).trans h

namespace Reading

/-- A node is made, or will be. -/
theorem Shown.makes {a : Action} {rest : List Action} (h : R.Shown e S) (hl : Laid e) (ha : e.agenda = a :: rest)
    (hm : a.makes = true) :
    ({ e with agenda := rest }.act a).broken = true ∨ R.Shown ({ e with agenda := rest }.act a) S := by
  have hlaid : Laid { e with agenda := rest } := hl.of_levels (.of_eq rfl rfl rfl rfl) fun _ => rfl
  have hne (j : CallKey) : a ≠ .resume j := by
    rintro rfl
    cases hm
  by_cases hb : ({ e with agenda := rest }.act a).broken = true
  · exact .inl hb
  have hbeside {k : LevelKey} (hk : a.makesIn? ≠ some k) (hlt : k < e.levels.size) :
      Beside k e ({ e with agenda := rest }.act a) := by
    have hpop : Beside k e { e with agenda := rest } := by
      refine ⟨.of_nodes (fun _ => rfl) fun _ => rfl, .of_eq rfl rfl rfl rfl, .of_level? rfl,
        fun b hb _ => mem_plan_pop ha hb, fun b hb hbk => ?_⟩
      rw [plan, ha] at hb
      obtain ⟨hb, hq⟩ := List.mem_filter.mp hb
      rcases List.mem_cons.mp hb with rfl | hb
      · exact absurd hbk hk
      · exact List.mem_filter.mpr ⟨hb, hq⟩
    exact hpop.trans ((beside_makes (e := { e with agenda := rest }) hlaid hlt hm hk).resolve_left hb)
  refine .inr (h.register (register_act (e := { e with agenda := rest }) hne) (fun k s hs => ?_)
    (fun _ _ _ _ hst => HasStarted.keepsPlaces (e := { e with agenda := rest }) hst (keepsPlaces_act hne))
    (foundsNone_makes (e := { e with agenda := rest }) hm) fun k hflow hq => ?_)
  · by_cases hk : a.makesIn? = some k
    · exact R.makes hl (h.sketch k s hs) ha hk
    · obtain ⟨l, hlev, -⟩ := R.flow (h.sketch k s hs)
      exact R.beside (h.sketch k s hs) (hbeside hk (level?_lt e k hlev))
  · obtain ⟨l, hlev, -⟩ := isFlow_iff.mp hflow
    exact hq.beside (hbeside (hq.unplanned a (mem_plan_of_makes ha hm)) (level?_lt e k hlev))

theorem Follows.tick (hr : Reachable e) (hsolo : Solo e key) (h : R.Follows Final e key) (ht : Tick e e') :
    R.Follows Final e' key := by
  rcases h with hb | ⟨c, hc, h⟩
  · exact .inl (broken_tick hb ht)
  have hlaid := hr.layout.laid
  cases (hsolo.tick ht).2 with
  | idles hi =>
    exact .inr ⟨c, hi.call.trans hc, h.imp id fun ⟨S, hs, hg, hd, hl⟩ => ⟨S, hs.lulls hi.toLulls, hg, hd, hl⟩⟩
  | @makes a rest hb ha hm =>
    have hne (j : CallKey) : a ≠ .resume j := by
      rintro rfl
      cases hm
    have hc' := (call?_of_calls (calls_of_register (register_act (e := { e with agenda := rest }) hne)) key).trans hc
    rcases h with h | ⟨S, hs, hg, hd, hl⟩
    · exact .inr ⟨c, hc', .inl h⟩
    · exact (hs.makes hlaid ha hm).imp_right fun hs => ⟨c, hc', .inr ⟨S, hs, hg, hd, hl⟩⟩
  | @resumes rest e' hb ha hres =>
    have hpop : Lulls e { e with agenda := rest } := .pop ha
    -- going on with a call comes after everything has been made
    have hplan : ({ e with agenda := rest } : Engine).plan = [] := by
      have ho := hr.accounted.orderly
      rw [plan, ha] at ho
      exact ho
    refine Follows.resumes (e := { e with agenda := rest }) ?_ hplan hb ?_ hres
    · exact hlaid.of_levels (.of_eq rfl rfl rfl rfl) fun _ => rfl
    · exact .inr ⟨c, hc, h.imp id fun ⟨S, hs, hg, hd, hl⟩ => ⟨S, hs.lulls hpop, hg, hd, hl⟩⟩

/-- The beginning of a call changes nothing yet. -/
theorem Shown.begins (h : R.Shown e S) (stages : List Stage) : R.Shown (e.begin stages).1 S := by
  obtain ⟨hf, hg, hd⟩ := books_begin e stages
  exact h.enrolls (beside_begin e stages) (level?_begin e stages) rfl (hf.trans h.flows) (hg.trans h.global)
    (hd.trans h.deployed)

/-- A call that begins while nothing is under way and comes to its end without being refused has led to a last
scene. -/
theorem Shown.call (hs : R.Shown e S) (hr : Reachable e) (hrest : AtRest e) (ho : e.Offers stages)
    (hg : S.gathered = []) (hl : R.Leads Final stages S) (hreach : Reach (e.begin stages).1 e')
    (hrest' : AtRest e') (hf : ∀ c, e'.call? e.nextCall = some c → c.fault = none) :
    ∃ S', Final S' ∧ R.Shown e' S' := by
  have hk := hr.keysBelow
  have hbegin : R.Follows Final (e.begin stages).1 e.nextCall :=
    .inr ⟨.make stages e.now, by rw [call?_begin hk, if_pos rfl],
      .inr ⟨S, hs.begins stages, hg.symm, absurd rfl, hl⟩⟩
  have hrun : Reachable e' ∧ Solo e' e.nextCall ∧ R.Follows Final e' e.nextCall :=
    hreach.invariant (P := fun e' => Reachable e' ∧ Solo e' e.nextCall ∧ R.Follows Final e' e.nextCall)
      (fun s s' ⟨hs, hsolo, hf⟩ ht => ⟨hs.tick ht, (hsolo.tick ht).1, hf.tick hs hsolo ht⟩)
      ⟨hr.input hrest.idle (.call ho), hrest.solo hk stages, hbegin⟩
  rcases hrun.2.2 with hb | ⟨c, hc, h⟩
  · simp [hrest'.unbroken] at hb
  · rcases h with ⟨hfault, -⟩ | ⟨S', hs', -, -, hl'⟩
    · simp [hf c hc] at hfault
    · have hover := hrest'.calls _ (mem_calls_of_call? hc)
      simp only [Call.over, Bool.and_eq_true, List.isEmpty_iff] at hover
      rw [hover.1] at hl'
      cases hl' with
      | done hfinal => exact ⟨S', hfinal, hs'⟩

/-- The same of a session that waits for the call. -/
theorem Shown.session {s : Session} (hs : R.Shown s.engine S) (hr : Reachable s.engine) (hrest : AtRest s.engine)
    (ho : s.engine.Offers stages) (hg : S.gathered = []) (hl : R.Leads Final stages S)
    (hrest' : AtRest (s.call stages).2.engine) (hf : Session.outcome (s.call stages).1 = .ok ()) :
    ∃ S', Final S' ∧ R.Shown (s.call stages).2.engine S' := by
  refine hs.call hr hrest ho hg hl (reach_complete _ _) hrest' fun c hc => ?_
  have he : (s.call stages).1 = ((s.call stages).2.engine.call? s.engine.nextCall).getD (.make [] _) := rfl
  rw [he, hc, Option.getD_some, Session.outcome] at hf
  cases hfault : c.fault with
  | none => rfl
  | some fault =>
    rw [hfault] at hf
    cases hf

/-- At the beginning nothing is known, and there is nothing. -/
theorem shown_make (registry : Registry) (outside : Outside) (settings : Dict Json) (processEnv : Dict String)
    (closeTimeout : Nat) :
    R.Shown (.make registry outside settings processEnv closeTimeout) ⟨fun _ => none, [], [], none, none⟩ := by
  refine ⟨?_, ?_, fun k _ hflow => ?_, rfl, rfl, rfl⟩
  · rintro k s ⟨⟩
  · rintro k s ⟨⟩
  obtain ⟨l, hl, -⟩ := isFlow_iff.mp hflow
  exact absurd (level?_lt _ k hl) (Nat.not_lt_zero k)

/-- What is known is told in another way at the beginning of another call. -/
theorem Shown.retell (h : R.Shown e S) {f : σ → σ} (hf : ∀ s, R.Due (f s))
    (ht : ∀ k s, R.Tells e k s → R.Tells e k (f s)) :
    R.Shown e (S.retell f) ∧ (S.retell f).Due R := by
  have hdue : (S.retell f).Due R := fun k t hk => by
    obtain ⟨s, -, rfl⟩ := Option.map_eq_some_iff.mp hk
    exact hf s
  refine ⟨⟨fun k t hk => ?_, fun k t hk hnot => absurd (hdue k t hk) hnot,
    fun k hk => h.others k (Option.map_eq_none_iff.mp hk), h.flows, h.global, h.deployed⟩, hdue⟩
  obtain ⟨s, hs, rfl⟩ := Option.map_eq_some_iff.mp hk
  exact ht k s (h.sketch k s hs)

/-- What is not touched is shown as before. -/
theorem Shown.untouched (h : R.Shown e S) (hu : Untouched e e') : R.Shown e' S := by
  rw [hu]
  exact h.enrolls (fun _ => .of_eq rfl rfl rfl rfl rfl) (fun _ => rfl) rfl h.flows h.global h.deployed

end Reading
end Flowgraph
