import Flowgraph.Proofs.Calls
/-! The configurations of outermost levels. Nothing but an update gives a flow another configuration. -/
namespace Flowgraph

def LevelKind.isOutermost : LevelKind → Bool
  | .expansion _ => false
  | _ => true

namespace Engine

/-- The configuration of an outermost level. -/
def config? (e : Engine) (k : LevelKey) : Option FlowConfig :=
  (e.level? k).bind fun l => if l.kind.isOutermost then some l.config else none

/-- A step that leaves the configurations of outermost levels as they are. -/
def KeepsConfigs (e e' : Engine) : Prop := ∀ k c, e.config? k = some c → e'.config? k = some c

variable {e e' e'' : Engine} {key : CallKey}

theorem config?_eq_some {k : LevelKey} {c : FlowConfig} :
    e.config? k = some c ↔ ∃ l, e.level? k = some l ∧ l.kind.isOutermost = true ∧ l.config = c := by
  unfold config?
  cases e.level? k with
  | none => simp
  | some l => cases h : l.kind.isOutermost <;> simp [h]

namespace KeepsConfigs

theorem refl (e : Engine) : KeepsConfigs e e := fun _ _ h => h

theorem trans (h : KeepsConfigs e e') (h' : KeepsConfigs e' e'') : KeepsConfigs e e'' :=
  fun k c hc => h' k c (h k c hc)

theorem of_level? (h : ∀ j, e'.level? j = e.level? j) : KeepsConfigs e e' := fun k c hc => by
  unfold config? at *
  rw [h]
  exact hc

theorem still (h : e'.still = e.still) : KeepsConfigs e e' := of_level? (level?_of_still h)

theorem modifyLevel (e : Engine) (k : LevelKey) (f : Level → Level)
    (hf : ∀ l, (f l).kind = l.kind ∧ (f l).config = l.config) : KeepsConfigs e (e.modifyLevel k f) := by
  intro j c hc
  obtain ⟨l, hl, ho, rfl⟩ := config?_eq_some.mp hc
  by_cases hk : k = j
  · exact config?_eq_some.mpr ⟨f l, by simp [hk, hl], by rw [(hf l).1, ho], (hf l).2⟩
  · exact config?_eq_some.mpr ⟨l, by simp [hk, hl], ho, rfl⟩

theorem addLevel (e : Engine) (l : Level) : KeepsConfigs e (e.addLevel l).1 := by
  intro j c hc
  obtain ⟨l', hl', ho, rfl⟩ := config?_eq_some.mp hc
  refine config?_eq_some.mpr ⟨l', ?_, ho, rfl⟩
  rw [level?_addLevel, if_neg (Nat.ne_of_lt (level?_lt e j hl')), hl']

end KeepsConfigs

theorem Stops.keepsConfigs (h : Stops e e') : KeepsConfigs e e' := by
  refine h.invariant (P := KeepsConfigs e) (fun s s' hs ht => hs.trans ?_) (.refl e)
  cases ht with
  | still h _ => exact .still h
  | phase k p => exact .modifyLevel _ _ _ fun _ => ⟨rfl, rfl⟩
  | receivers k rs => exact .modifyLevel _ _ _ fun _ => ⟨rfl, rfl⟩
  | leave k targets _ _ => exact .modifyLevel _ _ _ fun _ => ⟨rfl, rfl⟩
  | cancel n => exact .of_level? fun _ => rfl
  | forget k id _ => exact .modifyLevel _ _ _ fun _ => ⟨rfl, rfl⟩

theorem Rewires.keepsConfigs (h : Rewires e e') : KeepsConfigs e e' := by
  refine h.invariant (P := KeepsConfigs e) (fun s s' hs ht => hs.trans ?_) (.refl e)
  cases ht with
  | note notes => exact .of_level? fun _ => rfl
  | wires k wires => exact .of_level? fun _ => rfl
  | nodes inst nodes hb =>
    -- the configuration that changes is that of an instance
    intro j c hc
    obtain ⟨l, hl, ho, rfl⟩ := config?_eq_some.mp hc
    refine config?_eq_some.mpr ⟨l, ?_, ho, rfl⟩
    rw [level?_modifyLevel, if_neg, hl]
    rintro rfl
    obtain ⟨b, -, hb, -⟩ := hb
    simp only [binding?, hl] at hb
    cases hk : l.kind with
    | expansion b => simp [hk, LevelKind.isOutermost] at ho
    | tab => simp [hk] at hb
    | global => simp [hk] at hb
  | breaks => exact .of_level? fun _ => rfl

/-! ## Making -/

/-- A step in which no level changes its phase or its configuration. -/
def KeepsPlaces (e e' : Engine) : Prop :=
  ∀ k l, e.level? k = some l → ∃ l', e'.level? k = some l' ∧ l'.kind = l.kind ∧ l'.config = l.config ∧
    l'.phase = l.phase

namespace KeepsPlaces

theorem refl (e : Engine) : KeepsPlaces e e := fun _ l h => ⟨l, h, rfl, rfl, rfl⟩

theorem trans {m : Engine} (h : KeepsPlaces e m) (h' : KeepsPlaces m e') : KeepsPlaces e e' := by
  intro k l hl
  obtain ⟨l', hl', hk, hc, hp⟩ := h k l hl
  obtain ⟨l'', hl'', hk', hc', hp'⟩ := h' k l' hl'
  exact ⟨l'', hl'', hk'.trans hk, hc'.trans hc, hp'.trans hp⟩

theorem of_level? (h : ∀ j, e'.level? j = e.level? j) : KeepsPlaces e e' := fun k l hl =>
  ⟨l, (h k).trans hl, rfl, rfl, rfl⟩

theorem still (h : e'.still = e.still) : KeepsPlaces e e' := of_level? (level?_of_still h)

theorem modifyLevel (e : Engine) (k : LevelKey) (f : Level → Level)
    (hf : ∀ l, (f l).kind = l.kind ∧ (f l).config = l.config ∧ (f l).phase = l.phase) :
    KeepsPlaces e (e.modifyLevel k f) := by
  intro j l hl
  by_cases hk : k = j
  · exact ⟨f l, by simp [hk, hl], hf l⟩
  · exact ⟨l, by simp [hk, hl], rfl, rfl, rfl⟩

theorem addLevel (e : Engine) (l : Level) : KeepsPlaces e (e.addLevel l).1 := by
  intro j l' hl'
  refine ⟨l', ?_, rfl, rfl, rfl⟩
  rw [level?_addLevel, if_neg (Nat.ne_of_lt (level?_lt e j hl')), hl']

theorem keepsConfigs (h : KeepsPlaces e e') : KeepsConfigs e e' := by
  intro k c hc
  obtain ⟨l, hl, ho, rfl⟩ := config?_eq_some.mp hc
  obtain ⟨l', hl', hk, hc', -⟩ := h k l hl
  exact config?_eq_some.mpr ⟨l', hl', by rw [hk, ho], hc'⟩

end KeepsPlaces

theorem keepsPlaces_enter (e : Engine) (k : LevelKey) (r : Record) (part : Part) :
    KeepsPlaces e (e.enter k r part) := by
  intro j l hl
  rw [level?_enter, hl]
  split
  · exact ⟨_, rfl, rfl, rfl, rfl⟩
  · exact ⟨l, rfl, rfl, rfl, rfl⟩

theorem keepsPlaces_failCreation (e : Engine) (k : LevelKey) (r : Record) (fault : NodeFault) :
    KeepsPlaces e (e.failCreation k r fault) := by
  intro j l hl
  rw [level?_failCreation, hl]
  split
  · exact ⟨_, rfl, rfl, rfl, rfl⟩
  · exact ⟨l, rfl, rfl, rfl, rfl⟩

theorem keepsPlaces_withInstance (e : Engine) (k : LevelKey) (l : Level) (b : Binding)
    (nodes : List Record) : KeepsPlaces e (e.withInstance k l b nodes) := by
  refine KeepsPlaces.trans ?_ (.addLevel _ (instanceLevel k l b nodes))
  exact .of_level? fun _ => rfl

theorem keepsPlaces_activated (e : Engine) (k : LevelKey) (c : FlowConfig) (order : List Nat) :
    KeepsPlaces e (e.activated k c order) := by
  refine KeepsPlaces.trans ?_ (.of_level? fun _ => rfl)
  exact .modifyLevel e k _ fun _ => ⟨rfl, rfl, rfl⟩

theorem Creates.keepsPlaces {k : LevelKey} {r : Record} {templates : Templates}
    (h : Creates e k r templates e') : KeepsPlaces e e' := by
  cases h with
  | present => exact .refl e
  | noTemplate => exact keepsPlaces_failCreation _ _ _ _
  | refused => exact keepsPlaces_failCreation _ _ _ _
  | @made part notes =>
    exact KeepsPlaces.trans (m := e.note notes) (.of_level? fun _ => rfl) (keepsPlaces_enter _ _ _ _)
  | usage _ _ _ ho =>
    cases ho with
    | nowhere => exact .refl e
    | breaks => exact .of_level? fun _ => rfl
    | collapses => exact (keepsPlaces_withInstance _ _ _ _ _).trans (keepsPlaces_failCreation _ _ _ _)
    | opens =>
      refine KeepsPlaces.trans ?_ (keepsPlaces_activated _ _ _ _)
      exact (keepsPlaces_withInstance _ _ _ _ _).trans (.of_level? fun _ => rfl)

/-- Nothing but the next step of a call changes phases and configurations. -/
theorem keepsPlaces_act {a : Action} (h : ∀ key, a ≠ .resume key) : KeepsPlaces e (e.act a) := by
  cases a with
  | resume key => exact absurd rfl (h key)
  | create k r templates => exact (creates_create e k r templates).keepsPlaces
  | install k r inst =>
    refine KeepsPlaces.trans ?_ (keepsPlaces_enter _ k r (.standIn inst))
    exact .modifyLevel _ _ _ fun _ => ⟨rfl, rfl, rfl⟩
  | refresh k =>
    change KeepsPlaces e (e.refresh k)
    unfold refresh
    split
    · exact .refl e
    · exact .modifyLevel _ _ _ fun _ => ⟨rfl, rfl, rfl⟩
  | _ => exact .still (quiet_act e rfl).still

/-! ## Running flows are outermost levels -/

/-- The level that a stage is to enter among flows. -/
def entering? : Stage → Option LevelKey
  | .enlist k | .gather k => some k
  | _ => none

/-- A level at which a flow can run. -/
def IsFlow (e : Engine) (k : LevelKey) : Prop := (e.config? k).isSome = true

theorem Grows.isFlow (h : Grows e e') {k : LevelKey} (hk : e.IsFlow k) : e'.IsFlow k := by
  obtain ⟨c, hc⟩ := Option.isSome_iff_exists.mp hk
  obtain ⟨l, hl, ho, -⟩ := config?_eq_some.mp hc
  obtain ⟨l', hl', hk'⟩ := h.level k l hl
  exact Option.isSome_iff_exists.mpr ⟨_, config?_eq_some.mpr ⟨l', hl', by rw [hk'.kind, ho], rfl⟩⟩

/-- What a call has gathered and is going to enter are flows. -/
structure CallRooted (flow : LevelKey → Prop) (c : Call) : Prop where
  gathered : ∀ k ∈ c.gathered, flow k
  stages : ∀ s ∈ c.stages, ∀ k, entering? s = some k → flow k

/-- Everything that runs as a flow is an outermost level. -/
structure Rooted (e : Engine) : Prop where
  flows : ∀ k ∈ e.flows, e.IsFlow k
  global : ∀ k, e.global = some k → e.IsFlow k
  calls : ∀ j c, e.call? j = some c → CallRooted e.IsFlow c

theorem CallRooted.mono {flow flow' : LevelKey → Prop} (hf : ∀ k, flow k → flow' k) {c : Call}
    (h : CallRooted flow c) : CallRooted flow' c := ⟨fun k hk => hf k (h.gathered k hk), fun s hs k hk => hf k (h.stages s hs k hk)⟩

theorem Rooted.register (h : Rooted e) (hf : ∀ k, e.IsFlow k → e'.IsFlow k)
    (hr : e'.register = e.register) : Rooted e' := by
  have hc := calls_of_register hr
  have hg : e'.global = e.global := by
    have := congrArg (·.2.2.2.1) hr
    exact this
  have hl : e'.flows = e.flows := by
    have := congrArg (·.2.2.2.2) hr
    exact this
  refine ⟨fun k hk => hf k (h.flows k (by rwa [hl] at hk)),
    fun k hk => hf k (h.global k (by rwa [hg] at hk)), fun j c hj => ?_⟩
  rw [call?_of_calls hc] at hj
  exact (h.calls j c hj).mono hf

/-- A change to one call. -/
theorem Rooted.modifyCall (h : Rooted e) (key : CallKey) (f : Call → Call)
    (hf : ∀ c, e.call? key = some c → CallRooted e.IsFlow c → CallRooted e.IsFlow (f c)) :
    Rooted (e.modifyCall key f) := by
  refine ⟨h.flows, h.global, fun j c hj => ?_⟩
  rw [call?_modifyCall] at hj
  split at hj
  · rename_i hk
    subst hk
    obtain ⟨c', hc', rfl⟩ := Option.map_eq_some_iff.mp hj
    exact hf c' hc' (h.calls key c' hc')
  · exact h.calls j c hj

theorem Rooted.push (h : Rooted e) (actions : List Action) : Rooted (e.push actions) :=
  h.register (fun _ hk => hk) rfl

theorem Rooted.proceed (h : Rooted e) (key : CallKey) {stages : List Stage}
    (hs : ∀ s ∈ stages, ∀ k, entering? s = some k → e.IsFlow k) : Rooted (e.proceed key stages) := by
  refine Rooted.push (h.modifyCall key (fun c => { c with stages := stages ++ c.stages })
    fun c _ hc => ⟨hc.gathered, fun s hm k hk => ?_⟩) [.resume key]
  rcases List.mem_append.mp hm with hm | hm
  · exact hs s hm k hk
  · exact hc.stages s hm k hk

theorem Rooted.refuse (h : Rooted e) (key : CallKey) (fault : FlowFault) : Rooted (e.refuse key fault) :=
  Rooted.push (h.modifyCall key (fun c => { c with stages := [], fault := some fault })
    fun _ _ hc => ⟨hc.gathered, by simp⟩) [.resume key]

theorem Rooted.hold (h : Rooted e) (key : CallKey) (levels : List LevelKey) : Rooted (e.hold key levels) :=
  h.modifyCall key _ fun _ _ hc => ⟨hc.gathered, hc.stages⟩

theorem Rooted.proceeds (h : Rooted e) {stops : List Stopping} (hp : Proceeds e key stops e') :
    Rooted e' := by
  cases hp with
  | waits _ hs =>
    have hm : Rooted (e.modifyCall key fun c => { c with waiting := stops }) :=
      h.modifyCall key _ fun _ _ hc => ⟨hc.gathered, hc.stages⟩
    exact hm.register (fun k hk => (Grows.still hs.still).isFlow hk) (register_of_still hs.still)
  | done _ =>
    exact Rooted.push (h.modifyCall key (fun c =>
      { c with waiting := [], report := (reports stops).foldl (· ++ ·) c.report })
        fun _ _ hc => ⟨hc.gathered, hc.stages⟩) [.resume key]

theorem Rooted.stops (h : Rooted e) (hs : Stops e e') : Rooted e' :=
  h.register (fun _ hk => hs.grows.isFlow hk) (register_of_shell hs.shell)

theorem Rooted.stopAll (h : Rooted e) (key : CallKey) (requests : List StopRequest) :
    Rooted (e.stopAll key requests) :=
  (h.stops (stops_beginStops key (e, []) requests)).proceeds (proceeds_afterStops _ _ _)

theorem isFlow_addLevel (e : Engine) {l : Level} (hl : l.kind.isOutermost = true) :
    (e.addLevel l).1.IsFlow (e.addLevel l).2 := by
  refine Option.isSome_iff_exists.mpr ⟨l.config, config?_eq_some.mpr ⟨l, ?_, hl, rfl⟩⟩
  exact (level?_addLevel e _ l).trans (if_pos rfl)

theorem Rooted.addLevel (h : Rooted e) (l : Level) : Rooted (e.addLevel l).1 :=
  h.register (fun _ hk => (Grows.addLevel e l).isFlow hk) rfl

theorem Rooted.startTab (h : Rooted e) (key : CallKey) (config : FlowConfig) (listed : Bool) :
    Rooted (e.startTab key config listed) := by
  unfold Engine.startTab
  split
  · exact h.proceed key (by simp)
  · have hf := isFlow_addLevel e (l := .make .tab none config) rfl
    refine Rooted.proceed ((h.addLevel _).hold key _) key fun s hs k hk => ?_
    cases listed with
    | true =>
      rcases List.mem_cons.mp hs with rfl | hs
      · simp [entering?] at hk
      · obtain rfl := List.mem_singleton.mp hs
        cases hk
        exact hf
    | false =>
      rcases List.mem_cons.mp hs with rfl | hs
      · simp [entering?] at hk
      · obtain rfl := List.mem_singleton.mp hs
        cases hk
        exact hf

theorem Rooted.startAll (h : Rooted e) (key : CallKey) (next : Deployment) :
    Rooted (e.startAll key next) := by
  unfold Engine.startAll
  split
  · exact h.refuse key _
  · have hf := isFlow_addLevel e (l := .make .global none next.global) rfl
    have hg : Rooted { (e.addLevel (.make .global none next.global)).1 with
        global := some (e.addLevel (.make .global none next.global)).2 } := by
      have ha := h.addLevel (.make .global none next.global)
      refine ⟨ha.flows, fun k hk => ?_, ha.calls⟩
      cases hk
      exact hf
    refine (hg.hold key _).proceed key fun s hs k hk => ?_
    rcases List.mem_append.mp hs with hs | hs
    · rcases List.mem_append.mp hs with hs | hs
      · obtain rfl := List.mem_singleton.mp hs
        simp [entering?] at hk
      · obtain ⟨c, -, rfl⟩ := List.mem_map.mp hs
        simp [entering?] at hk
    · obtain rfl := List.mem_singleton.mp hs
      simp [entering?] at hk

theorem Rooted.deployNodes (h : Rooted e) (key : CallKey) (previous next : Deployment) (diff : Diff) :
    Rooted (e.deployNodes key previous next diff) := by
  rw [deployNodes_eq, deployStages]
  refine (h.hold key _).proceed key fun s hs k hk => ?_
  simp only [List.mem_append, List.mem_cons, List.not_mem_nil, or_false, List.mem_flatMap] at hs
  rcases hs with ((((rfl | rfl | rfl) | ⟨g, -, hs⟩) | ⟨tab, -, hs⟩) | rfl | rfl)
  · simp [entering?] at hk
  · simp [entering?] at hk
  · simp [entering?] at hk
  · simp only [globalStages, List.mem_cons, List.not_mem_nil, or_false] at hs
    rcases hs with rfl | rfl <;> simp [entering?] at hk
  · unfold tabStages at hs
    split at hs
    · rename_i j hj
      simp only [List.mem_cons, List.not_mem_nil, or_false] at hs
      rcases hs with rfl | rfl | rfl
      · simp [entering?] at hk
      · simp [entering?] at hk
      · obtain rfl : j = k := by simpa [entering?] using hk
        exact h.flows j (List.mem_filter.mp (List.mem_of_find?_eq_some hj)).1
    · obtain rfl := List.mem_singleton.mp hs
      simp [entering?] at hk
  · simp [entering?] at hk
  · simp [entering?] at hk

theorem Rooted.starts (h : Rooted e) {k : LevelKey} {diff : Option Diff}
    (hs : Starts e key k diff e') : Rooted e' := by
  cases hs with
  | nowhere => exact h.proceed key (by simp)
  | refused => exact h.refuse key _
  | fresh =>
    have hm : Rooted (e.modifyLevel k fun l => { l with failures := [] }) := h.register
      (fun _ hk => (Grows.modifyLevel e k (fun l => { l with failures := [] })
        fun _ => ⟨rfl, rfl, rfl⟩).isFlow hk) rfl
    exact hm.proceed key (by simp [entering?])
  | again =>
    refine h.proceed key fun s hs k hk => ?_
    rcases List.mem_append.mp hs with hs | hs
    · split at hs
      · simp at hs
      · obtain rfl := List.mem_singleton.mp hs
        simp [entering?] at hk
    · obtain rfl := List.mem_singleton.mp hs
      simp [entering?] at hk

theorem Rooted.applies (h : Rooted e) {k : LevelKey} {config : FlowConfig} {diff : Option Diff}
    (ha : Applies e key k config diff e') : Rooted e' := by
  have hr : Rooted (e.rewired k config diff) := by
    refine h.register (fun _ hk => (grows_rewired e k config diff).isFlow hk) ?_
    cases diff with
    | none => rfl
    | some d => exact (rewires_rewire e k config d).register
  cases ha with
  | nowhere => exact hr.push _
  | activates =>
    exact Rooted.register (hr.push _) (fun _ hk => (grows_activated _ _ _ _).isFlow hk) rfl
  | refused => exact hr.refuse key _

theorem Rooted.runStage (h : Rooted e) (key : CallKey) (stage : Stage)
    (hs : ∀ k, entering? stage = some k → e.IsFlow k)
    (hg : ∀ c, e.call? key = some c → ∀ k ∈ c.gathered, e.IsFlow k) : Rooted (e.runStage key stage) := by
  cases stage with
  | stop requests => exact h.stopAll key _
  | stopAmong levels ids removed => exact h.stopAll key _
  | start k diff => exact h.starts (starts_start e key k diff)
  | apply k config diff => exact h.applies (applies_apply e key k config diff)
  | update k config =>
    have hm : Rooted (e.modifyLevel k fun l => { l with config }) := h.register
      (fun _ hk => (Grows.modifyLevel e k (fun l => { l with config }) fun _ => ⟨rfl, rfl, rfl⟩).isFlow hk) rfl
    exact hm.proceed key (by simp)
  | deployNodes previous next diff => exact h.deployNodes key previous next diff
  | stopAll =>
    have hm : Rooted { e with flows := [], global := none } :=
      ⟨by simp, by simp, h.calls⟩
    exact (hm.hold key _).proceed key (by simp [entering?])
  | startAll next => exact h.startAll key next
  | startTab config listed => exact h.startTab key config listed
  | enlist k =>
    have hm : Rooted { e with flows := e.flows ++ [k] } := by
      refine ⟨fun j hj => ?_, h.global, h.calls⟩
      rcases List.mem_append.mp hj with hj | hj
      · exact h.flows j hj
      · obtain rfl := List.mem_singleton.mp hj
        exact hs j rfl
    exact hm.proceed key (by simp)
  | gather k =>
    have hm : Rooted (e.modifyCall key fun c => { c with gathered := c.gathered ++ [k] }) := by
      refine h.modifyCall key _ fun c _ hc => ⟨fun j hj => ?_, hc.stages⟩
      rcases List.mem_append.mp hj with hj | hj
      · exact hc.gathered j hj
      · obtain rfl := List.mem_singleton.mp hj
        exact hs j rfl
    exact hm.proceed key (by simp)
  | enlistGathered =>
    have hm : Rooted { e with flows := e.gathered key } := by
      refine ⟨fun j hj => ?_, h.global, h.calls⟩
      change j ∈ e.gathered key at hj
      cases hc : e.call? key with
      | none => simp [gathered, hc] at hj
      | some c => exact hg c hc j (by simpa [gathered, hc] using hj)
    rw [runStage_enlistGathered]
    exact hm.proceed key (by simp)
  | commit next =>
    have hm : Rooted { e with deployed := some next } :=
      ⟨h.flows, h.global, h.calls⟩
    exact hm.proceed key (by simp)
  | withdraw =>
    have hm : Rooted { e with deployed := none } :=
      ⟨h.flows, h.global, h.calls⟩
    exact hm.proceed key (by simp)
  | stuck =>
    refine h.modifyCall key (fun c => { c with stages := .stuck :: c.stages })
      fun c _ hc => ⟨hc.gathered, fun s hs k hk => ?_⟩
    rcases List.mem_cons.mp hs with rfl | hs
    · simp [entering?] at hk
    · exact hc.stages s hs k hk

theorem Rooted.resumes (h : Rooted e) (hr : Resumes e key e') : Rooted e' := by
  cases hr with
  | unknown => exact h
  | ends => exact h.modifyCall key _ fun _ _ hc => ⟨hc.gathered, hc.stages⟩
  | @stage c stage rest hc hw hs =>
    have hcr := h.calls key c hc
    have hm : Rooted (e.modifyCall key fun c => { c with stages := rest }) := by
      refine h.modifyCall key _ fun c' hc' hr => ⟨hr.gathered, fun s hsm => ?_⟩
      rw [hc] at hc'
      cases hc'
      exact hr.stages s (by rw [hs]; exact List.mem_cons_of_mem _ hsm)
    refine hm.runStage key stage (fun k hk => ?_) fun c' hc' k hk => ?_
    · exact hcr.stages stage (by rw [hs]; exact List.mem_cons_self) k hk
    · exact (hm.calls key c' hc').gathered k hk
  | waits => exact (h.stops (stops_pollStops key (e, []) _)).proceeds (proceeds_afterStops _ _ _)

theorem Rooted.tick (h : Rooted e) (ht : Tick e e') : Rooted e' := by
  rcases ht.kinds with ⟨hs, -⟩ | ⟨_, -, hs, -⟩ | ⟨a, rest, -, -, -, rfl⟩
  · exact h.register (fun _ hk => ht.grows.isFlow hk) (register_of_still hs)
  · exact h.register (fun _ hk => ht.grows.isFlow hk) (register_of_still hs)
  · by_cases hr : ∃ key, a = .resume key
    · obtain ⟨key, rfl⟩ := hr
      have hm : Rooted { e with agenda := rest } := h.register (fun _ hk => hk) rfl
      exact hm.resumes (resumes_resume _ _)
    · have hreg := register_act (e := { e with agenda := rest }) fun key ha => hr ⟨key, ha⟩
      exact h.register (fun _ hk => ht.grows.isFlow hk) hreg

theorem entering?_of_offers {stages : List Stage} (h : e.Offers stages) :
    ∀ s ∈ stages, entering? s = none := by
  cases h with
  | load h =>
    unfold stagesOfLoad at h
    split at h
    · cases h
    · split at h
      · cases h
      · cases h
        simp [entering?]
  | @deploy records kind stages diff h =>
    rcases stagesOfDeploy_cases e records kind with
      ⟨fault, -, hs⟩ | ⟨next, -, ⟨fault, -, hs⟩ | ⟨-, result, hd, hs⟩⟩
    · rw [hs] at h
      cases h
    · rw [hs] at h
      cases h
    · rw [hs] at h
      cases h
      cases hd <;> simp [entering?]
  | stopAll => simp [stagesOfStopAll, entering?]
  | stop requests => simp [entering?]
  | start k diff => simp [entering?]

theorem Reachable.rooted (h : Reachable e) : Rooted e := by
  refine h.invariant (P := Rooted) (fun r o s v t => ?_) (fun _ _ _ hr ht => hr.tick ht)
    fun e e' hreach hr _ hi => ?_
  · exact ⟨by simp [Engine.make], by simp [Engine.make], by simp [Engine.make, call?]⟩
  · cases hi with
    | @call stages ho =>
      have hf (k : LevelKey) (hk : e.IsFlow k) : (e.begin stages).1.IsFlow k :=
        (Input.call ho).grows.isFlow hk
      have hl : (e.begin stages).1.flows = e.flows ∧ (e.begin stages).1.global = e.global := by
        unfold begin wake
        dsimp only
        split <;> exact ⟨rfl, rfl⟩
      refine ⟨fun k hk => hf k (hr.flows k (hl.1 ▸ hk)), fun k hk => hf k (hr.global k (hl.2 ▸ hk)),
        fun j c hj => ?_⟩
      rw [call?_begin hreach.keysBelow] at hj
      split at hj
      · cases hj
        refine ⟨by simp [Call.make], fun s hs k hk => ?_⟩
        rw [entering?_of_offers ho s hs] at hk
        cases hk
      · exact (hr.calls j c hj).mono hf
    | quiet h => exact hr.register (fun _ hk => h.grows.isFlow hk) (register_of_still h.still)
    | keep levels nodes => exact hr.register (fun _ hk => hk) rfl
    | flow hk hc => exact hr.addLevel _
    | update hk hc =>
      exact hr.register (fun _ hk' => (Input.update hk hc).grows.isFlow hk') rfl

end Engine
end Flowgraph
