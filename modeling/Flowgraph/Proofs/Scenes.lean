import Flowgraph.Proofs.Beside
/-! A call as it looks from outside: what is known of the flows at each of its stages. Whatever is told of single
flows, a load, a deployment in place and a stop of everything lead from the flows of one generation to those of the
next. -/
namespace Flowgraph

open Engine

/-- One of these stops takes everything out of the level. -/
def StopRequest.Empties (requests : List StopRequest) (k : LevelKey) : Prop :=
  ∃ r ∈ requests, r.level = k ∧ r.filter = none

instance (requests : List StopRequest) (k : LevelKey) : Decidable (StopRequest.Empties requests k) :=
  inferInstanceAs (Decidable (∃ r ∈ requests, r.level = k ∧ r.filter = none))

/-- Stops of levels as wholes empty just these. -/
theorem StopRequest.empties_map {ks : List LevelKey} {removal : Removal} {k : LevelKey} :
    Empties (ks.map (⟨·, none, removal⟩)) k ↔ k ∈ ks := by
  constructor
  · rintro ⟨r, hr, rfl, -⟩
    obtain ⟨k, hk, rfl⟩ := List.mem_map.mp hr
    exact hk
  · intro hk
    exact ⟨_, List.mem_map_of_mem hk, rfl, rfl⟩

/-- What is known of the flows of an engine and of those a call has gathered. -/
structure Scene (σ : Type) where
  sketch : LevelKey → Option σ
  gathered : List LevelKey
  flows : List LevelKey
  global : Option LevelKey
  deployed : Option Deployment

/-- A way of telling what is known of an outermost level, and how that changes with what a call does. -/
structure Reading (σ : Type) where
  config : σ → FlowConfig
  /-- The call has not dealt with the level yet. -/
  Due : σ → Prop
  /-- No node of this id is active. -/
  Lacks : σ → NodeId → Prop
  /-- A new level. -/
  bare : FlowConfig → σ
  /-- The level without these nodes. -/
  without : σ → List NodeId → σ
  /-- The level with another configuration. -/
  under : σ → FlowConfig → σ
  Opens : LevelKind → FlowConfig → Prop
  /-- What is known before and after the configuration of the level is applied. -/
  Applies : Option Diff → σ → σ → Prop
  Tells : Engine → LevelKey → σ → Prop
  config_bare : ∀ c, config (bare c) = c
  config_without : ∀ s ids, config (without s ids) = config s
  config_under : ∀ s c, config (under s c) = c
  config_applies : ∀ {diff : Option Diff} {s t : σ}, Applies diff s t → config t = config s
  due_bare : ∀ c, Due (bare c)
  due_without : ∀ {s : σ} (ids : List NodeId), Due s → Due (without s ids)
  due_under : ∀ {s : σ} (c : FlowConfig), Due s → Due (under s c)
  flow : ∀ {e : Engine} {k : LevelKey} {s : σ}, Tells e k s →
    ∃ l, e.level? k = some l ∧ l.kind.isOutermost = true ∧ l.config = config s ∧ l.id = (config s).id
  absent : ∀ {e : Engine} {k : LevelKey} {s : σ} {id : NodeId}, Tells e k s → Lacks s id → e.activeKey? k id = none
  beside : ∀ {e e' : Engine} {k : LevelKey} {s : σ}, Tells e k s → Beside k e e' → Tells e' k s
  makes : ∀ {e : Engine} {k : LevelKey} {s : σ} {a : Action} {rest : List Action}, Laid e → Tells e k s →
    e.agenda = a :: rest → a.makesIn? = some k → Tells ({ e with agenda := rest }.act a) k s
  stops : ∀ {e e' : Engine} {k : LevelKey} {s : σ}, Laid e → Tells e k s → Due s → Engine.Stops e e' → Tells e' k s
  vacates : ∀ {e : Engine} {k : LevelKey} {s : σ} {ids : List NodeId}, Tells e k s → Due s → e.plan = [] →
    (∀ id ∈ ids, e.activeKey? k id = none) → Tells e k (without s ids)
  updates : ∀ {e : Engine} {k : LevelKey} {s : σ} {c : FlowConfig}, Tells e k s → Due s → e.plan = [] →
    c.id = (config s).id → Tells (e.modifyLevel k fun l => { l with config := c }) k (under s c)
  appears : ∀ {e : Engine} {kind : LevelKind} {c : FlowConfig}, e.plan = [] → kind.isOutermost = true →
    Opens kind c → Tells (e.addLevel (.make kind none c)).1 e.levels.size (bare c)
  applies : ∀ {e : Engine} {k : LevelKey} {s t : σ} {diff : Option Diff} {order : List Nat}, Laid e → Tells e k s →
    Due s → e.plan = [] → Applies diff s t → StartOrder.resolve (config s).nodes = .ok order →
    (e.rewired k (config s) diff).broken = false → ∀ key,
    Tells (((e.rewired k (config s) diff).push [.announce k, .resume key]).activated k (config s) order) k t

variable {σ : Type}

namespace Scene

def draw (S : Scene σ) (k : LevelKey) (s : σ) : Scene σ :=
  { S with sketch := fun j => if j = k then some s else S.sketch j }

/-- None of these nodes is active any more in any of these levels. -/
def without (R : Reading σ) (S : Scene σ) (ks : List LevelKey) (ids : List NodeId) : Scene σ :=
  { S with sketch := fun j => if j ∈ ks then (S.sketch j).map (R.without · ids) else S.sketch j }

/-- These stops of whole levels have begun: the levels are empty, and nothing more needs to be known of them. -/
def forget (S : Scene σ) (requests : List StopRequest) : Scene σ :=
  { S with sketch := fun k => if StopRequest.Empties requests k then none else S.sketch k }

/-- Something is known of these levels alone. -/
def KnowsOnly (S : Scene σ) (p : LevelKey → Prop) : Prop := ∀ k, S.sketch k ≠ none → p k

variable {S : Scene σ} {j k : LevelKey} {s t : σ}

theorem KnowsOnly.draw {p q : LevelKey → Prop} (h : S.KnowsOnly p) (hk : q k) (hq : ∀ j, p j → q j) :
    (S.draw k s).KnowsOnly q := by
  intro j hj
  by_cases hjk : j = k
  · exact hjk ▸ hk
  · simp only [Scene.draw, if_neg hjk] at hj
    exact hq j (h j hj)

theorem sketch_forget {requests : List StopRequest} : (S.forget requests).sketch k =
    if StopRequest.Empties requests k then none else S.sketch k := rfl

theorem sketch_of_forget {requests : List StopRequest} (h : (S.forget requests).sketch k = some s) :
    S.sketch k = some s := by
  rw [sketch_forget] at h
  split at h
  · cases h
  · exact h

theorem KnowsOnly.forget {p : LevelKey → Prop} (h : S.KnowsOnly p) (requests : List StopRequest) :
    (S.forget requests).KnowsOnly fun k => p k ∧ ¬StopRequest.Empties requests k := by
  intro k hk
  rw [sketch_forget] at hk
  split at hk
  · exact absurd rfl hk
  · rename_i hno
    exact ⟨h k hk, hno⟩

theorem sketch_draw_self : (S.draw k s).sketch k = some s := if_pos rfl

theorem sketch_draw_of_ne (h : j ≠ k) : (S.draw k s).sketch j = S.sketch j := if_neg h

theorem draw_draw : (S.draw k s).draw k t = S.draw k t := by
  simp only [draw]
  congr 1
  funext j
  split
  · rfl
  · rfl

/-- A level of which something else is known is another one. -/
theorem sketch_draw_of_sketch (hk : S.sketch k ≠ some t) (hj : S.sketch j = some t) :
    (S.draw k s).sketch j = some t := by
  rw [sketch_draw_of_ne]
  · exact hj
  · rintro rfl
    exact hk hj

variable {R : Reading σ} {ks : List LevelKey} {ids : List NodeId}

theorem sketch_without : (S.without R ks ids).sketch k =
    if k ∈ ks then (S.sketch k).map (R.without · ids) else S.sketch k := rfl

theorem sketch_without_of_mem (hk : k ∈ ks) (hs : S.sketch k = some s) :
    (S.without R ks ids).sketch k = some (R.without s ids) := by
  rw [sketch_without, if_pos hk, hs]
  rfl

theorem sketch_without_of_not_mem (hk : k ∉ ks) : (S.without R ks ids).sketch k = S.sketch k := if_neg hk

/-- The call has dealt with none of the levels yet. -/
def Due (R : Reading σ) (S : Scene σ) : Prop := ∀ k s, S.sketch k = some s → R.Due s

theorem KnowsOnly.without {p : LevelKey → Prop} (h : S.KnowsOnly p) : (S.without R ks ids).KnowsOnly p := by
  intro k hk
  refine h k fun hn => hk ?_
  rw [sketch_without, hn]
  split
  · rfl
  · rfl

theorem Due.forget (h : S.Due R) (requests : List StopRequest) : (S.forget requests).Due R :=
  fun k s hs => h k s (sketch_of_forget hs)

theorem Due.without (h : S.Due R) : (S.without R ks ids).Due R := by
  intro j s hs
  rw [sketch_without] at hs
  split at hs
  · obtain ⟨s', hs', rfl⟩ := Option.map_eq_some_iff.mp hs
    exact R.due_without ids (h j s' hs')
  · exact h j s hs

/-- Of the global flow and of these tabs of a deployment this is known. -/
structure Runs (picture : FlowConfig → σ) (d : Deployment) (tabs : List FlowConfig) (ks : List LevelKey)
    (S : Scene σ) : Prop where
  global : ∃ g, S.global = some g ∧ g ∉ ks ∧ S.sketch g = some (picture d.global)
  tabs : List.Forall₂ (fun k c => S.sketch k = some (picture c)) ks tabs

/-- Nothing is deployed, or the running flows are those that run of the generation that is deployed, in their order,
and of each this is known. -/
inductive Shows (Fits : Deployment → (FlowConfig → Bool) → Prop) (picture : FlowConfig → σ) (S : Scene σ) : Prop
  | nothing (hd : S.deployed = none) (hf : S.flows = []) (hg : S.global = none)
  | generation {d : Deployment} {rs : List Record} {runs : FlowConfig → Bool} (hd : S.deployed = some d)
      (ha : d.Arranged rs) (hp : Fits d runs) (hr : S.Runs picture d (d.tabs.filter runs) S.flows)

/-- The scene at the beginning of another call, with what is known of the levels told in another way. -/
def retell (f : σ → σ) (S : Scene σ) : Scene σ := { S with sketch := fun k => (S.sketch k).map f, gathered := [] }

theorem Runs.retell {picture : FlowConfig → σ} {d : Deployment} {tabs : List FlowConfig} (h : S.Runs picture d tabs ks)
    (f : σ → σ) : (S.retell f).Runs (f ∘ picture) d tabs ks := by
  obtain ⟨g, hg, hn, hs⟩ := h.global
  exact ⟨⟨g, hg, hn, by simp [Scene.retell, hs]⟩, h.tabs.imp fun _ _ hk => by simp [Scene.retell, hk]⟩

end Scene

/-- The stages of a call that lead from such flows to others. -/
inductive Reading.Leads (R : Reading σ) (Final : Scene σ → Prop) : List Stage → Scene σ → Prop
  | done {S : Scene σ} (h : Final S) : Leads R Final [] S
  | stuck {S : Scene σ} {rest : List Stage} : Leads R Final (.stuck :: rest) S
  | stop {S : Scene σ} {requests : List StopRequest} {rest : List Stage} (hf : S.Due R)
      (h : Leads R Final rest (S.forget requests)) : Leads R Final (.stop requests :: rest) S
  | stopAmong {S : Scene σ} {ks : List LevelKey} {ids removed : List NodeId} {rest : List Stage} (hf : S.Due R)
      (h : Leads R Final rest (S.without R ks ids)) : Leads R Final (.stopAmong ks ids removed :: rest) S
  | update {S : Scene σ} {k : LevelKey} {config : FlowConfig} {rest : List Stage} {s : σ} (hs : S.sketch k = some s)
      (hf : R.Due s) (hi : config.id = (R.config s).id) (h : Leads R Final rest (S.draw k (R.under s config))) :
      Leads R Final (.update k config :: rest) S
  | start {S : Scene σ} {k : LevelKey} {diff : Option Diff} {rest : List Stage} {s : σ} (hs : S.sketch k = some s)
      (hd : ∀ d, diff = some d → ∀ id ∈ d.changed ++ d.removed, R.Lacks s id)
      (h : Leads R Final (.apply k (R.config s) diff :: rest) S) : Leads R Final (.start k diff :: rest) S
  | apply {S : Scene σ} {k : LevelKey} {diff : Option Diff} {rest : List Stage} {s t : σ} (hs : S.sketch k = some s)
      (hf : R.Due s) (ha : R.Applies diff s t) (h : Leads R Final rest (S.draw k t)) :
      Leads R Final (.apply k (R.config s) diff :: rest) S
  | skipTab {S : Scene σ} {config : FlowConfig} {listed : Bool} {rest : List Stage} (hd : config.disabled = true)
      (h : Leads R Final rest S) : Leads R Final (.startTab config listed :: rest) S
  | openTab {S : Scene σ} {config : FlowConfig} {listed : Bool} {rest : List Stage} (hd : config.disabled = false)
      (hi : R.Opens .tab config)
      (h : ∀ k, S.sketch k = none → Leads R Final
        (.start k none :: (if listed then .enlist k else .gather k) :: rest) (S.draw k (R.bare config))) :
      Leads R Final (.startTab config listed :: rest) S
  | enlist {S : Scene σ} {k : LevelKey} {rest : List Stage}
      (h : Leads R Final rest { S with flows := S.flows ++ [k] }) : Leads R Final (.enlist k :: rest) S
  | gather {S : Scene σ} {k : LevelKey} {rest : List Stage}
      (h : Leads R Final rest { S with gathered := S.gathered ++ [k] }) : Leads R Final (.gather k :: rest) S
  | enlistGathered {S : Scene σ} {rest : List Stage} (h : Leads R Final rest { S with flows := S.gathered }) :
      Leads R Final (.enlistGathered :: rest) S
  | commit {S : Scene σ} {next : Deployment} {rest : List Stage}
      (h : Leads R Final rest { S with deployed := some next }) : Leads R Final (.commit next :: rest) S
  | withdraw {S : Scene σ} {rest : List Stage} (h : Leads R Final rest { S with deployed := none }) :
      Leads R Final (.withdraw :: rest) S
  | stopAll {S : Scene σ} {rest : List Stage}
      (h : Leads R Final
        (.stop (S.flows.map (⟨·, none, .none⟩)) :: .stop (S.global.toList.map (⟨·, none, .none⟩)) :: rest)
        { S with flows := [], global := none }) : Leads R Final (.stopAll :: rest) S
  | startAll {S : Scene σ} {next : Deployment} {rest : List Stage} (hi : R.Opens .global next.global)
      (h : ∀ k, S.sketch k = none → Leads R Final
        ([.start k none] ++ next.tabs.map (Stage.startTab · true) ++ [.commit next] ++ rest)
        { S.draw k (R.bare next.global) with global := some k }) : Leads R Final (.startAll next :: rest) S
  | deployNodes {S : Scene σ} {previous next : Deployment} {diff : Diff} {rest : List Stage}
      (h : ∀ e : Engine, e.flows = S.flows → e.global = S.global →
        (∀ k s, S.sketch k = some s → e.flowId k = (R.config s).id) →
        Leads R Final (e.deployStages previous next diff ++ rest) S) :
      Leads R Final (.deployNodes previous next diff :: rest) S

variable {R : Reading σ} {Final : Scene σ → Prop} {S : Scene σ} {k g : LevelKey} {c c' : FlowConfig} {s t : σ}
  {rest : List Stage}

/-! ## A flow starts -/

/-- A new flow starts. -/
theorem Reading.leads_start_bare (ha : R.Applies none (R.bare c) t) (h : R.Leads Final rest (S.draw k t)) :
    R.Leads Final (.start k none :: rest) (S.draw k (R.bare c)) := by
  refine .start Scene.sketch_draw_self (fun d hd => by cases hd) ?_
  refine .apply Scene.sketch_draw_self (R.due_bare c) ha ?_
  rwa [Scene.draw_draw]

/-- A flow of which this is known can go on with another configuration, and then that is known of it. -/
structure Reading.Ready (R : Reading σ) (diff : Diff) (c : FlowConfig) (s t : σ) : Prop where
  due : R.Due s
  id : c.id = (R.config s).id
  lacks : ∀ id ∈ diff.changed ++ diff.removed, R.Lacks (R.under s c) id
  applies : R.Applies (some diff) (R.under s c) t

theorem Reading.Ready.leads {diff : Diff} (hr : R.Ready diff c s t) (hs : S.sketch k = some s)
    (h : R.Leads Final rest (S.draw k t)) : R.Leads Final (.update k c :: .start k (some diff) :: rest) S := by
  refine .update hs hr.due hr.id (.start Scene.sketch_draw_self (fun d hd => ?_)
    (.apply Scene.sketch_draw_self (R.due_under c hr.due) hr.applies ?_))
  · cases hd
    exact hr.lacks
  · rwa [Scene.draw_draw]

/-! ## A generation starts -/

/-- What is known of a flow of a generation once it has started. -/
structure Reading.Pictures (R : Reading σ) (picture : FlowConfig → σ) (d : Deployment) : Prop where
  settled : ∀ c, ¬R.Due (picture c)
  opens_global : R.Opens .global d.global
  opens_tab : ∀ c ∈ d.tabs, R.Opens .tab c
  applies : ∀ c ∈ d.global :: d.tabs, R.Applies none (R.bare c) (picture c)

section Generation

variable {picture : FlowConfig → σ} {d : Deployment} {tabs : List FlowConfig} {ks : List LevelKey}
  {P : LevelKey → Prop}

/-- Another level is drawn. -/
theorem Scene.Runs.draw (h : S.Runs picture d tabs ks) (hk : ∀ c, S.sketch k ≠ some (picture c)) :
    (S.draw k s).Runs picture d tabs ks := by
  obtain ⟨g, hg, hn, hs⟩ := h.global
  exact ⟨⟨g, hg, hn, Scene.sketch_draw_of_sketch (hk _) hs⟩,
    h.tabs.imp fun _ c hj => Scene.sketch_draw_of_sketch (hk c) hj⟩

/-- Another tab runs. -/
theorem Scene.Runs.append (h : S.Runs picture d tabs ks) (hk : ∀ c, S.sketch k ≠ some (picture c)) (c : FlowConfig) :
    (S.draw k (picture c)).Runs picture d (tabs ++ [c]) (ks ++ [k]) := by
  obtain ⟨g, hg, hn, hs⟩ := h.global
  have hne : g ≠ k := by
    rintro rfl
    exact hk _ hs
  refine ⟨⟨g, hg, ?_, Scene.sketch_draw_of_sketch (hk _) hs⟩,
    List.rel_append (h.draw hk).tabs (.cons Scene.sketch_draw_self .nil)⟩
  rw [List.mem_append, List.mem_singleton]
  exact not_or.mpr ⟨hn, hne⟩

/-- Something is known of the flows that run, and of these other levels alone. -/
def Scene.Covers (S : Scene σ) (P : LevelKey → Prop) : Prop :=
  S.KnowsOnly fun k => S.global = some k ∨ k ∈ S.flows ∨ P k

/-- The tabs of a generation that are still to be started follow those that have been. -/
theorem Reading.leads_startTabs (hp : R.Pictures picture d)
    (hfinal : ∀ S : Scene σ, S.deployed = some d → S.Runs picture d (d.tabs.filter (!·.disabled)) S.flows →
      S.Covers P → Final S)
    {started tabs : List FlowConfig} (ht : d.tabs = started ++ tabs)
    (hr : S.Runs picture d (started.filter (!·.disabled)) S.flows) (hk : S.Covers P) :
    R.Leads Final (tabs.map (Stage.startTab · true) ++ [.commit d]) S := by
  induction tabs generalizing S started with
  | nil =>
    rw [List.append_nil] at ht
    exact .commit (.done (hfinal _ rfl (ht ▸ ⟨hr.global, hr.tabs⟩) hk))
  | cons tab tabs ih =>
    have hmem : tab ∈ d.tabs := ht ▸ List.mem_append_right _ List.mem_cons_self
    have ht' : d.tabs = started ++ [tab] ++ tabs := by simp [ht]
    rw [List.map_cons, List.cons_append]
    cases hd : tab.disabled with
    | true =>
      refine .skipTab hd (ih ht' ?_ hk)
      simpa [List.filter_append, hd] using hr
    | false =>
      refine .openTab hd (hp.opens_tab tab hmem) fun k hnew =>
        R.leads_start_bare (hp.applies tab (List.mem_cons_of_mem _ hmem)) (.enlist (ih ht' ?_ ?_))
      · have hruns := hr.append (k := k) (fun c => by rw [hnew]; simp) tab
        rw [List.filter_append, List.filter_cons_of_pos (by simp [hd]), List.filter_nil]
        exact ⟨hruns.global, hruns.tabs⟩
      · refine hk.draw (.inr (.inl (List.mem_append_right _ (List.mem_singleton_self k)))) fun j hj => ?_
        exact hj.imp_right (Or.imp_left (List.mem_append_left _))

theorem Reading.leads_startAll (hp : R.Pictures picture d)
    (hfinal : ∀ S : Scene σ, S.deployed = some d → S.Runs picture d (d.tabs.filter (!·.disabled)) S.flows →
      S.Covers P → Final S)
    (hf : S.flows = []) (hk : S.KnowsOnly P) : R.Leads Final [.startAll d] S := by
  refine .startAll hp.opens_global fun k _ => ?_
  rw [List.append_nil, List.append_assoc]
  change R.Leads Final _ ({ S with global := some k }.draw k (R.bare d.global))
  refine R.leads_start_bare (hp.applies d.global List.mem_cons_self) ?_
  refine R.leads_startTabs hp hfinal (List.nil_append d.tabs).symm ⟨⟨k, rfl, ?_, Scene.sketch_draw_self⟩, ?_⟩ ?_
  · change k ∉ S.flows
    simp [hf]
  · change List.Forall₂ _ S.flows _
    rw [hf]
    exact .nil
  · have hs : ({ S with global := some k } : Scene σ).KnowsOnly P := hk
    exact hs.draw (.inl rfl) fun j hj => .inr (.inr hj)

/-- After the stop of everything no flow runs, and all that ran are empty. -/
theorem Reading.leads_stopAll (hf : S.Due R)
    (h : ∀ S' : Scene σ, S'.flows = [] →
      S'.KnowsOnly (fun k => S.sketch k ≠ none ∧ S.global ≠ some k ∧ k ∉ S.flows) → R.Leads Final rest S') :
    R.Leads Final (.stopAll :: .withdraw :: rest) S := by
  have hknows : S.KnowsOnly fun k => S.sketch k ≠ none := fun _ hk => hk
  have hdue : ({ S with flows := [], global := none } : Scene σ).Due R := hf
  refine .stopAll (.stop hdue (.stop (hdue.forget _) (.withdraw (h _ rfl fun k hk => ?_))))
  obtain ⟨⟨hk, hflows⟩, hglobal⟩ := ((hknows.forget (S.flows.map (⟨·, none, .none⟩))).forget
    (S.global.toList.map (⟨·, none, .none⟩))) k hk
  rw [StopRequest.empties_map] at hflows hglobal
  exact ⟨hk, fun hg => hglobal (by simp [hg]), hflows⟩

end Generation

/-! ## A generation takes the place of another -/

theorem exists_of_forall₂ {α β : Type} {P : α → β → Prop} {xs : List α} {ys : List β} (h : List.Forall₂ P xs ys)
    {x : α} (hx : x ∈ xs) : ∃ y ∈ ys, P x y := by
  induction h with
  | nil => cases hx
  | cons hp _ ih =>
    rcases List.mem_cons.mp hx with rfl | hx
    · exact ⟨_, List.mem_cons_self, hp⟩
    · obtain ⟨y, hy, hp⟩ := ih hx
      exact ⟨y, List.mem_cons_of_mem _ hy, hp⟩

section Renewal

variable {previous next : Deployment} {diff : Diff} {resting picture : FlowConfig → σ}

/-- A flow whose nodes that the difference names have been stopped can go on with the configuration that it has in
the next generation. -/
structure Reading.Renews (R : Reading σ) (diff : Diff) (resting picture : FlowConfig → σ) (c c' : FlowConfig) :
    Prop where
  id : c'.id = c.id
  lacks : ∀ id ∈ diff.changed ++ diff.removed,
    R.Lacks (R.under (R.without (resting c) (diff.changed ++ diff.removed)) c') id
  applies : R.Applies (some diff) (R.under (R.without (resting c) (diff.changed ++ diff.removed)) c') (picture c')

theorem Reading.Renews.ready (hr : R.Renews diff resting picture c c') (hc : R.config (resting c) = c)
    (hd : R.Due (resting c)) :
    R.Ready diff c' (R.without (resting c) (diff.changed ++ diff.removed)) (picture c') :=
  ⟨R.due_without _ hd, by rw [R.config_without, hc, hr.id], hr.lacks, hr.applies⟩

/-- The tabs that run in the next generation: those that are enabled, and those that go on. -/
def Engine.runsNext (e : Engine) (kept : List LevelKey) (tab : FlowConfig) : Bool :=
  !tab.disabled || (kept.find? fun k => e.flowId k == tab.id).isSome

/-- The flow goes on as one of these tabs. -/
def Engine.GoesOnAs (e : Engine) (kept : List LevelKey) (tabs : List FlowConfig) (k : LevelKey) : Prop :=
  ∃ tab ∈ tabs, kept.find? (fun k => e.flowId k == tab.id) = some k

/-- The tabs of the next generation, those that go on and those that are new, follow the ones that have been dealt
with. -/
theorem Reading.leads_tabs {e : Engine} {kept : List LevelKey} {P : LevelKey → Prop} (hp : R.Pictures picture next)
    (hfinal : ∀ S : Scene σ, S.deployed = some next →
      S.Runs picture next (next.tabs.filter (e.runsNext kept)) S.flows → S.Covers P → Final S)
    (hids : next.tabIds.Nodup) {started tabs : List FlowConfig} (ht : next.tabs = started ++ tabs)
    (hr : S.Runs picture next (started.filter (e.runsNext kept)) S.gathered)
    (hk : S.KnowsOnly fun k => S.global = some k ∨ k ∈ S.gathered ∨ P k ∨ e.GoesOnAs kept tabs k)
    (hready : ∀ tab ∈ tabs, ∀ k, kept.find? (fun k => e.flowId k == tab.id) = some k →
      ∃ s, S.sketch k = some s ∧ R.Ready diff tab s (picture tab)) :
    R.Leads Final (tabs.flatMap (e.tabStages kept diff) ++ [.enlistGathered, .commit next]) S := by
  induction tabs generalizing S started with
  | nil =>
    rw [List.append_nil] at ht
    refine .enlistGathered (.commit (.done (hfinal _ rfl (ht ▸ ⟨hr.global, hr.tabs⟩) fun k hs => ?_)))
    rcases hk k hs with hg | hg | hg | ⟨tab, htab, -⟩
    · exact .inl hg
    · exact .inr (.inl hg)
    · exact .inr (.inr hg)
    · cases htab
  | cons tab tabs ih =>
    have hmem : tab ∈ next.tabs := ht ▸ List.mem_append_right _ List.mem_cons_self
    have ht' : next.tabs = started ++ [tab] ++ tabs := by simp [ht]
    have hrest {j : LevelKey} (hj : e.GoesOnAs kept (tab :: tabs) j) :
        kept.find? (fun k => e.flowId k == tab.id) = some j ∨ e.GoesOnAs kept tabs j := by
      obtain ⟨t, hm, hf⟩ := hj
      rcases List.mem_cons.mp hm with rfl | hm
      · exact .inl hf
      · exact .inr ⟨t, hm, hf⟩
    -- a level that has been gathered is known, and the other ones are known as before
    have hgathers {k : LevelKey} (hf : ∀ j, kept.find? (fun k => e.flowId k == tab.id) = some j → j = k) :
        (S.draw k (picture tab)).KnowsOnly fun j =>
          S.global = some j ∨ j ∈ S.gathered ++ [k] ∨ P j ∨ e.GoesOnAs kept tabs j := by
      have hself : k ∈ S.gathered ++ [k] := List.mem_append_right _ (List.mem_singleton_self k)
      refine hk.draw (.inr (.inl hself)) fun j hj => ?_
      rcases hj with hj | hj | hj | hj
      · exact .inl hj
      · exact .inr (.inl (List.mem_append_left _ hj))
      · exact .inr (.inr (.inl hj))
      · rcases hrest hj with hj | hj
        · exact .inr (.inl (hf j hj ▸ hself))
        · exact .inr (.inr (.inr hj))
    -- the levels of the other tabs are other ones, since the ids of tabs are different
    have hother {k j : LevelKey} {s s' : σ} (hk : S.sketch k = some s) (hj : S.sketch j = some s')
        (hrk : R.Ready diff tab s (picture tab)) {t : FlowConfig} (hm : t ∈ tabs)
        (hrj : R.Ready diff t s' (picture t)) : j ≠ k := by
      rintro rfl
      obtain rfl := Option.some.inj (hk.symm.trans hj)
      rw [Deployment.tabIds, ht, List.map_append, List.map_cons, List.nodup_append, List.nodup_cons] at hids
      exact hids.2.1.1 (hrk.id.trans hrj.id.symm ▸ List.mem_map_of_mem hm)
    rw [List.flatMap_cons, List.append_assoc]
    cases hfind : kept.find? fun k => e.flowId k == tab.id with
    | some k =>
      obtain ⟨s, hs, hrk⟩ := hready tab List.mem_cons_self k hfind
      have hstages : e.tabStages kept diff tab = [.update k tab, .start k (some diff), .gather k] := by
        rw [Engine.tabStages, hfind]
      have hne (c : FlowConfig) : S.sketch k ≠ some (picture c) := by
        rw [hs]
        intro he
        exact hp.settled c (Option.some.inj he ▸ hrk.due)
      rw [hstages]
      refine hrk.leads hs (.gather (ih ht' ?_ (hgathers fun j hj => Option.some.inj (hj.symm.trans hfind))
        fun t hm j hj => ?_))
      · have hnew := hr.append hne tab
        rw [List.filter_append, List.filter_cons_of_pos (by simp [Engine.runsNext, hfind]), List.filter_nil]
        exact ⟨hnew.global, hnew.tabs⟩
      · obtain ⟨s', hs', hrj⟩ := hready t (List.mem_cons_of_mem _ hm) j hj
        exact ⟨s', (Scene.sketch_draw_of_ne (hother hs hs' hrk hm hrj)).trans hs', hrj⟩
    | none =>
      have hstages : e.tabStages kept diff tab = [.startTab tab false] := by
        rw [Engine.tabStages, hfind]
      rw [hstages]
      have hnone (k j : LevelKey) (hj : kept.find? (fun k => e.flowId k == tab.id) = some j) : j = k := by
        rw [hfind] at hj
        cases hj
      have hready' : ∀ t ∈ tabs, ∀ j, kept.find? (fun k => e.flowId k == t.id) = some j →
          ∃ s, S.sketch j = some s ∧ R.Ready diff t s (picture t) := fun t hm => hready t (List.mem_cons_of_mem _ hm)
      cases hd : tab.disabled with
      | true =>
        refine .skipTab hd (ih ht' ?_ (fun j hj => ?_) hready')
        · rw [List.filter_append, List.filter_cons_of_neg (by simp [Engine.runsNext, hfind, hd]), List.filter_nil,
            List.append_nil]
          exact hr
        · refine (hk j hj).imp_right (Or.imp_right (Or.imp_right fun hj => (hrest hj).resolve_left fun hj => ?_))
          rw [hfind] at hj
          cases hj
      | false =>
        refine .openTab hd (hp.opens_tab tab hmem) fun k hk =>
          R.leads_start_bare (hp.applies tab (List.mem_cons_of_mem _ hmem)) (.gather (ih ht' ?_ (hgathers (hnone k))
            fun t hm j hj => ?_))
        · have hnew := hr.append (k := k) (fun c => by rw [hk]; simp) tab
          rw [List.filter_append, List.filter_cons_of_pos (by simp [Engine.runsNext, hd]), List.filter_nil]
          exact ⟨hnew.global, hnew.tabs⟩
        · obtain ⟨s', hs', hrj⟩ := hready' t hm j hj
          refine ⟨s', (Scene.sketch_draw_of_ne ?_).trans hs', hrj⟩
          rintro rfl
          rw [hk] at hs'
          cases hs'

/-- The flows have the ids of the tabs that they run. -/
theorem Scene.Runs.flowIds {e : Engine} {d : Deployment} {tabs : List FlowConfig} {ks : List LevelKey}
    (h : S.Runs resting d tabs ks) (hconfig : ∀ c, R.config (resting c) = c)
    (he : ∀ k s, S.sketch k = some s → e.flowId k = (R.config s).id) :
    ks.map e.flowId = tabs.map (·.id) := by
  have hall := h.tabs
  induction hall with
  | nil => rfl
  | cons hk hrest ih =>
    rw [List.map_cons, List.map_cons, ih ⟨?_, hrest⟩, he _ _ hk, hconfig]
    obtain ⟨g, hg, hn, hs⟩ := h.global
    exact ⟨g, hg, fun hm => hn (List.mem_cons_of_mem _ hm), hs⟩

/-- A flow that is kept goes on as the tab of its id, if the next generation has one. -/
theorem Engine.goesOnAs_of_mem {e : Engine} {kept : List LevelKey} (hn : (kept.map e.flowId).Nodup)
    {tabs : List FlowConfig} {tab : FlowConfig} (ht : tab ∈ tabs) {k : LevelKey} (hk : k ∈ kept)
    (hi : e.flowId k = tab.id) : e.GoesOnAs kept tabs k := by
  refine ⟨tab, ht, ?_⟩
  cases hf : kept.find? fun k => e.flowId k == tab.id with
  | none => simpa [hi] using List.find?_eq_none.mp hf k hk
  | some j =>
    have hj : e.flowId j = tab.id := by simpa using List.find?_some hf
    rw [List.inj_on_of_nodup_map hn (List.mem_of_find?_eq_some hf) hk (hj.trans hi.symm)]

theorem Deployment.mem_of_flow? {d : Deployment} {id : String} {c : FlowConfig} (h : d.flow? id = some c) :
    id = globalId ∨ c ∈ d.tabs ∧ c.id = id := by
  unfold Deployment.flow? at h
  split at h
  · exact .inl ‹_›
  · exact .inr ⟨List.mem_of_find?_eq_some h, by simpa using List.find?_some h⟩

theorem Engine.flow?_of_survives {flow : String} (h : survives previous next flow = true) :
    ∃ c, next.flow? flow = some c ∧ c.disabled = false := by
  unfold survives at h
  split at h
  · rename_i old new _ hn
    simp only [Bool.and_eq_true, Bool.not_eq_true'] at h
    exact ⟨new, hn, h.1.1⟩
  · cases h

/-- A deployment in place leads from the flows of one generation to those of the next. -/
theorem Reading.leads_deployNodes {P : LevelKey → Prop} (hp : R.Pictures picture next)
    {runs : FlowConfig → Bool}
    (hfinal : ∀ (e : Engine) (kept : List LevelKey),
      (∀ k ∈ kept, e.flowId k ∈ previous.tabIds ∧ survives previous next (e.flowId k) = true) →
      ∀ S : Scene σ, S.deployed = some next → S.Runs picture next (next.tabs.filter (e.runsNext kept)) S.flows →
      S.Covers (fun k => P k ∨ k ∈ kept ∧ e.flowId k = Deployment.globalId) → Final S)
    (hold : previous.tabIds.Nodup) (hids : next.tabIds.Nodup) (hconfig : ∀ c, R.config (resting c) = c)
    (hdue : S.Due R) (hr : S.Runs resting previous (previous.tabs.filter runs) S.flows) (hga : S.gathered = [])
    (hk : S.Covers P) (hglobal : R.Renews diff resting picture previous.global next.global)
    (htabs : ∀ c ∈ previous.tabs, runs c = true → ∀ c' ∈ next.tabs, c'.id = c.id →
      survives previous next c.id = true → R.Renews diff resting picture c c') :
    R.Leads Final [.deployNodes previous next diff] S := by
  obtain ⟨g, hg, hgn, hgs⟩ := hr.global
  refine .deployNodes fun e hef heg hflow => ?_
  rw [Engine.deployStages, heg, hg, List.append_nil]
  simp only [Option.toList_some, List.flatMap_cons, List.flatMap_nil, List.append_nil, Engine.globalStages,
    List.cons_append, List.nil_append]
  have hkept : ∀ k ∈ e.keptFlows previous next, k ∈ S.flows := fun k hk => hef ▸ (List.mem_filter.mp hk).1
  have hgk : g ∉ e.keptFlows previous next := fun hk => hgn (hkept g hk)
  have hdropped {k : LevelKey} : k ∈ e.droppedFlows previous next ↔ k ∈ S.flows ∧ k ∉ e.keptFlows previous next := by
    simp only [Engine.droppedFlows, Engine.keptFlows, List.mem_filter, hef]
    cases survives previous next (e.flowId k) <;> simp
  generalize hS₁ : S.forget ((e.droppedFlows previous next).map (⟨·, none, .ids diff.removed⟩)) = S₁
  have hsame {k : LevelKey} (hd : k ∉ e.droppedFlows previous next) : S₁.sketch k = S.sketch k := by
    rw [← hS₁, Scene.sketch_forget, if_neg fun h => hd (StopRequest.empties_map.mp h)]
  have hdue₁ : S₁.Due R := hS₁ ▸ hdue.forget _
  -- the stops: from here on no node that the difference names is active in a flow that goes on
  refine .stop hdue ?_
  rw [hS₁]
  refine .stopAmong hdue₁ (.stopAmong hdue₁.without ?_)
  have hsketch {k : LevelKey} {c : FlowConfig} (hk : k ∈ e.keptFlows previous next)
      (hs : S.sketch k = some (resting c)) :
      ((S₁.without R (e.keptFlows previous next) (diff.changed ++ diff.removed)).without R [g]
        (diff.changed ++ diff.removed)).sketch k = some (R.without (resting c) (diff.changed ++ diff.removed)) := by
    rw [Scene.sketch_without_of_not_mem fun h => hgk ((List.mem_singleton.mp h : k = g) ▸ hk)]
    exact Scene.sketch_without_of_mem hk ((hsame fun hd => (hdropped.mp hd).2 hk).trans hs)
  have hgsketch : ((S₁.without R (e.keptFlows previous next) (diff.changed ++ diff.removed)).without R [g]
      (diff.changed ++ diff.removed)).sketch g =
      some (R.without (resting previous.global) (diff.changed ++ diff.removed)) :=
    Scene.sketch_without_of_mem (List.mem_singleton_self g) ((Scene.sketch_without_of_not_mem hgk).trans
      ((hsame fun hd => hgn (hdropped.mp hd).1).trans hgs))
  have hflowIds : (S.flows.map e.flowId).Sublist previous.tabIds := by
    rw [hr.flowIds hconfig hflow]
    exact List.filter_sublist.map _
  have hids' : ((e.keptFlows previous next).map e.flowId).Nodup := by
    refine List.Nodup.sublist (List.filter_sublist.map e.flowId) ?_
    rw [hef]
    exact hold.sublist hflowIds
  have hglob : S₁.global = some g := hS₁ ▸ hg
  have hgath : S₁.gathered = [] := hS₁ ▸ hga
  refine (hglobal.ready (hconfig _) (hdue g _ hgs)).leads hgsketch (R.leads_tabs hp
    (hfinal e (e.keptFlows previous next) fun k hk => ⟨hflowIds.subset (List.mem_map_of_mem (hkept k hk)),
      (List.mem_filter.mp hk).2⟩) hids (List.nil_append next.tabs).symm
    ⟨⟨g, hglob, ?_, Scene.sketch_draw_self⟩, ?_⟩ ?_ fun tab htab k hfind => ?_)
  · change g ∉ S₁.gathered
    simp [hgath]
  · change List.Forall₂ _ S₁.gathered _
    rw [hgath]
    exact .nil
  · -- what is still known are the global flow and the flows that go on
    have hknows : S₁.KnowsOnly _ := hS₁ ▸ hk.forget _
    refine hknows.without.without.draw (.inl hglob) fun k hk => ?_
    obtain ⟨hk, hnot⟩ := hk
    rw [StopRequest.empties_map] at hnot
    rcases hk with hk | hk | hk
    · obtain rfl := Option.some.inj (hk.symm.trans hg)
      exact .inl hglob
    · have hkk : k ∈ e.keptFlows previous next := by
        by_contra hno
        exact hnot (hdropped.mpr ⟨hk, hno⟩)
      obtain ⟨c, hc, -⟩ := Engine.flow?_of_survives (List.mem_filter.mp hkk).2
      rcases Deployment.mem_of_flow? hc with hi | ⟨hc, hi⟩
      · exact .inr (.inr (.inl (.inr ⟨hkk, hi⟩)))
      · exact .inr (.inr (.inr (Engine.goesOnAs_of_mem hids' hc hkk hi.symm)))
    · exact .inr (.inr (.inl (.inl hk)))
  · have hflowId : e.flowId k = tab.id := by simpa using List.find?_some hfind
    have hk := List.mem_of_find?_eq_some hfind
    obtain ⟨-, hsurvives⟩ := List.mem_filter.mp hk
    obtain ⟨c, hc, hsk⟩ := exists_of_forall₂ hr.tabs (hkept k hk)
    obtain ⟨hct, hcr⟩ := List.mem_filter.mp hc
    have hci : tab.id = c.id := hflowId.symm.trans ((hflow k _ hsk).trans (by rw [hconfig]))
    rw [hflowId, hci] at hsurvives
    refine ⟨_, (Scene.sketch_draw_of_ne ?_).trans (hsketch hk hsk),
      (htabs c hct hcr tab htab hci hsurvives).ready (hconfig c) (hdue k _ hsk)⟩
    rintro rfl
    exact hgk hk

end Renewal

end Flowgraph
