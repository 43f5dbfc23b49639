import Flowgraph.Proofs.Activations
import Flowgraph.Proofs.Joining
/-! The nodes of an instance are those of an expansion of its template, under ids that no other instance has, and each
is wired as in an expansion. Rewiring may join their outputs to something else, and they are never wired in any other
way. -/
namespace Flowgraph

/-! ## The ids of instances -/

namespace Binding

variable {b c : Binding} {low high low' high' : Nat} {id : NodeId}

/-- The private ids of a binding are among those between two. -/
def Within (b : Binding) (low high : Nat) : Prop :=
  ∃ t usage next, (t.nodes.map (·.id)).Nodup ∧ b = .make t usage next ∧ low ≤ next ∧ next + idsNeeded t ≤ high

theorem Within.mono (h : b.Within low high) (hl : low' ≤ low) (hh : high ≤ high') : b.Within low' high' := by
  obtain ⟨t, usage, next, ht, rfl, hlow, hhigh⟩ := h
  exact ⟨t, usage, next, ht, rfl, Nat.le_trans hl hlow, Nat.le_trans hhigh hh⟩

theorem place_lt {t : Template} {i : Nat} (h : i ∈ places t) : i < idsNeeded t := by
  unfold places at h
  unfold idsNeeded
  simp only [List.mem_append, List.mem_map, List.mem_singleton, List.mem_range] at h
  rcases h with h | ⟨_, hs, rfl⟩ | ⟨_, hs, rfl⟩ | rfl
  · omega
  · have := List.length_pos_of_mem hs
    omega
  · have := List.length_pos_of_mem hs
    omega
  · omega

theorem Within.private (h : b.Within low high) (hid : id ∈ b.members.map (·.id)) :
    ∃ n, low ≤ n ∧ n < high ∧ id = privateId n := by
  obtain ⟨t, usage, next, ht, rfl, hlow, hhigh⟩ := h
  rw [members_make ht] at hid
  obtain ⟨i, hi, rfl⟩ := List.mem_map.mp hid
  have := place_lt hi
  exact ⟨next + i, by omega, by omega, rfl⟩

/-- Two bindings have no id in common. -/
def Apart (b c : Binding) : Prop := ∀ id ∈ b.members.map (·.id), id ∉ c.members.map (·.id)

theorem Apart.symm (h : b.Apart c) : c.Apart b := fun id hc hb => h id hb hc

theorem Within.apart (h : b.Within low high) (h' : c.Within low' high') (hle : high ≤ low') : b.Apart c := by
  intro id hb hc
  obtain ⟨n, -, hn, rfl⟩ := h.private hb
  obtain ⟨m, hm, -, he⟩ := h'.private hc
  have := privateId_injective he
  omega

end Binding

namespace Engine

variable {e e' e'' : Engine} {i j k : LevelKey} {n : NodeKey} {key : CallKey} {l : Level} {b : Binding} {r : Record}
  {nodes : List Record} {outer : Wires}

/-! ## Bindings -/

theorem binding?_of_levels (h : e'.levels = e.levels) (k : LevelKey) : e'.binding? k = e.binding? k := by
  rw [binding?, binding?, level?, level?, h]

/-- Levels change, but not what they are levels of. -/
theorem binding?_of_map {f : LevelKey → Level → Level} (h : ∀ k, e'.level? k = (e.level? k).map (f k))
    (hf : ∀ k l, (f k l).kind = l.kind) (k : LevelKey) : e'.binding? k = e.binding? k := by
  rw [binding?, binding?, h]
  cases e.level? k with
  | none => rfl
  | some l => simp [hf]

theorem binding?_modifyLevel (e : Engine) (k : LevelKey) (f : Level → Level) (hf : ∀ l, (f l).kind = l.kind)
    (j : LevelKey) : (e.modifyLevel k f).binding? j = e.binding? j := by
  refine binding?_of_map (f := fun j => if k = j then f else id) (fun j => ?_) (fun j l => ?_) j
  · rw [level?_modifyLevel]
    split
    · rfl
    · rw [Option.map_id_fun, id]
  · split
    · exact hf l
    · rfl

theorem binding?_of_still (h : e'.still = e.still) (k : LevelKey) : e'.binding? k = e.binding? k :=
  binding?_of_levels (levels_of_still h) k

theorem binding?_of_level? (h : ∀ k, e'.level? k = e.level? k) (k : LevelKey) : e'.binding? k = e.binding? k := by
  rw [binding?, binding?, h]

/-! ## The configurations of instances -/

/-- The nodes that a level can have: those of an instance are an expansion of its template. -/
def Suits (e : Engine) (k : LevelKey) (nodes : List Record) : Prop :=
  ∃ l, e.level? k = some l ∧ ∀ b, l.kind = .expansion b → ∃ outer, b.expand? outer = some nodes

theorem Grows.suits (h : Grows e e') (hs : e.Suits k nodes) : e'.Suits k nodes := by
  obtain ⟨l, hl, hb⟩ := hs
  obtain ⟨l', hl', hkin⟩ := h.level k l hl
  exact ⟨l', hl', fun b hk => hb b (hkin.kind ▸ hk)⟩

theorem suits_of_outermost (hl : e.level? k = some l) (hk : ∀ b, l.kind ≠ .expansion b) (nodes : List Record) :
    e.Suits k nodes := ⟨l, hl, fun b hb => absurd hb (hk b)⟩

/-- A step after which each level has the nodes it had, or others that suit it, and new instances have ids of their
own. -/
structure Tailors (e e' : Engine) : Prop where
  grows : Grows e e'
  nodes : ∀ k l', e'.level? k = some l' →
    (∃ l, e.level? k = some l ∧ l'.config.nodes = l.config.nodes) ∨ e'.Suits k l'.config.nodes
  fresh : ∀ k b, e'.binding? k = some b → e.binding? k = some b ∨ b.Within e.nextPrivate e'.nextPrivate
  apart : ∀ i j b c, i ≠ j → e'.binding? i = some b → e'.binding? j = some c →
    e.binding? i = some b ∨ e.binding? j = some c ∨ b.Apart c

namespace Tailors

theorem trans (h : Tailors e e') (h' : Tailors e' e'') : Tailors e e'' := by
  refine ⟨h.grows.trans h'.grows, fun k l'' hl'' => ?_, fun k b hb => ?_, fun i j b c hij hb hc => ?_⟩
  · rcases h'.nodes k l'' hl'' with ⟨l', hl', he'⟩ | hs
    · rcases h.nodes k l' hl' with ⟨l, hl, he⟩ | hs
      · exact .inl ⟨l, hl, he'.trans he⟩
      · exact .inr (h'.grows.suits (he' ▸ hs))
    · exact .inr hs
  · rcases h'.fresh k b hb with hb | hw
    · exact (h.fresh k b hb).imp_right fun hw => hw.mono (Nat.le_refl _) h'.grows.nextPrivate
    · exact .inr (hw.mono h.grows.nextPrivate (Nat.le_refl _))
  · rcases h'.apart i j b c hij hb hc with hb' | hc' | ha
    · -- The first has been there before the second step, and the second may come with it.
      rcases h'.fresh j c hc with hc' | hwc
      · exact h.apart i j b c hij hb' hc'
      · exact (h.fresh i b hb').imp_right fun hwb => .inr (hwb.apart hwc (Nat.le_refl _))
    · rcases h'.fresh i b hb with hb' | hwb
      · exact h.apart i j b c hij hb' hc'
      · rcases h.fresh j c hc' with hc | hwc
        · exact .inr (.inl hc)
        · exact .inr (.inr (hwc.apart hwb (Nat.le_refl _)).symm)
    · exact .inr (.inr ha)

/-- No instance is made. -/
theorem of_bindings (hg : Grows e e') (hb : ∀ k b, e'.binding? k = some b → e.binding? k = some b)
    (hn : ∀ k l', e'.level? k = some l' →
      (∃ l, e.level? k = some l ∧ l'.config.nodes = l.config.nodes) ∨ e'.Suits k l'.config.nodes) : Tailors e e' :=
  ⟨hg, hn, fun k b h => .inl (hb k b h), fun i _ b _ _ h _ => .inl (hb i b h)⟩

theorem of_levels (hg : Grows e e') (h : ∀ k, e'.level? k = e.level? k) : Tailors e e' :=
  of_bindings hg (fun k b hb => by rwa [binding?_of_level? h k] at hb) fun k l' hl' => .inl ⟨l', (h k) ▸ hl', rfl⟩

theorem of_eq (hl : e'.levels = e.levels) (hn : e'.nodes = e.nodes) (hw : e'.world = e.world)
    (hp : e'.nextPrivate = e.nextPrivate) : Tailors e e' :=
  of_levels (.of_eq hl hn hw hp) fun k => by rw [level?, level?, hl]

theorem refl (e : Engine) : Tailors e e := of_eq rfl rfl rfl rfl

theorem still (h : e'.still = e.still) : Tailors e e' := of_levels (.still h) (level?_of_still h)

/-- No level comes, and none changes its configuration. -/
theorem of_keeps (hk : KeepsPlaces e e') (hg : Grows e e') (hnew : ∀ k, e.level? k = none → e'.level? k = none) :
    Tailors e e' := by
  have hold (k : LevelKey) (l' : Level) (hl' : e'.level? k = some l') :
      ∃ l, e.level? k = some l ∧ l'.kind = l.kind ∧ l'.config = l.config := by
    cases hl : e.level? k with
    | none =>
      rw [hnew k hl] at hl'
      cases hl'
    | some l =>
      obtain ⟨l₁, hl₁, -, hc, -⟩ := hk k l hl
      obtain ⟨l₂, hl₂, hkin⟩ := hg.level k l hl
      rw [hl'] at hl₁ hl₂
      cases hl₁
      cases hl₂
      exact ⟨l, rfl, hkin.kind, hc⟩
  refine of_bindings hg (fun k b hb => ?_) fun k l' hl' => ?_
  · obtain ⟨l', hl', hkind⟩ := level?_of_binding? hb
    obtain ⟨l, hl, hk, -⟩ := hold k l' hl'
    rw [binding?, hl]
    dsimp only
    rw [← hk, hkind]
  · obtain ⟨l, hl, -, hc⟩ := hold k l' hl'
    exact .inl ⟨l, hl, by rw [hc]⟩

theorem modifyLevel (e : Engine) (k : LevelKey) (f : Level → Level)
    (hf : ∀ l, Level.Kin l (f l) ∧ (f l).config = l.config) : Tailors e (e.modifyLevel k f) := by
  refine of_bindings (.modifyLevel e k f fun l => (hf l).1)
    (fun j b hb => by rwa [binding?_modifyLevel e k f (fun l => (hf l).1.kind)] at hb) fun j l' hl' => .inl ?_
  rw [level?_modifyLevel] at hl'
  split at hl'
  · obtain ⟨l, hl, rfl⟩ := Option.map_eq_some_iff.mp hl'
    exact ⟨l, hl, by rw [(hf l).2]⟩
  · exact ⟨l', hl', rfl⟩

theorem stops (h : Stops e e') : Tailors e e' := by
  refine h.invariant (P := Tailors e) (fun s s' hs ht => hs.trans ?_) (.refl e)
  cases ht with
  | still h _ => exact .still h
  | phase => exact .modifyLevel _ _ _ fun _ => ⟨⟨rfl, rfl, rfl⟩, rfl⟩
  | receivers => exact .modifyLevel _ _ _ fun _ => ⟨⟨rfl, rfl, rfl⟩, rfl⟩
  | leave => exact .modifyLevel _ _ _ fun _ => ⟨⟨rfl, rfl, rfl⟩, rfl⟩
  | cancel m => exact .of_levels (.modifyNode _ _ _ fun _ => ⟨rfl, rfl, rfl⟩) fun _ => rfl
  | forget => exact .modifyLevel _ _ _ fun _ => ⟨⟨rfl, rfl, rfl⟩, rfl⟩

theorem rewires (h : Rewires e e') : Tailors e e' := by
  refine h.invariant (P := Tailors e) (fun s s' hs ht => hs.trans ?_) (.refl e)
  cases ht with
  | note => exact .of_eq rfl rfl rfl rfl
  | wires m wires => exact .of_levels (.modifyNode _ _ _ fun _ => ⟨rfl, rfl, rfl⟩) fun _ => rfl
  | breaks => exact .of_eq rfl rfl rfl rfl
  | nodes inst nodes hx =>
    have hg : Grows s (s.modifyLevel inst fun l => { l with config := { l.config with nodes } }) :=
      .modifyLevel _ _ _ fun _ => ⟨rfl, rfl, rfl⟩
    have hbind (j : LevelKey) := binding?_modifyLevel s inst
      (fun l => { l with config := { l.config with nodes } }) (fun _ => rfl) j
    refine of_bindings hg (fun j b hb => hbind j ▸ hb) fun j l' hl' => ?_
    have hl := hl'
    rw [level?_modifyLevel] at hl
    split at hl
    · rename_i hj
      subst hj
      obtain ⟨b, outer, hb, hx⟩ := hx
      obtain ⟨l, hlev, hkind⟩ := level?_of_binding? hb
      rw [hlev] at hl
      cases hl
      refine .inr (hg.suits ⟨l, hlev, fun b' hb' => ⟨outer, ?_⟩⟩)
      rw [hkind] at hb'
      cases hb'
      exact hx
    · exact .inl ⟨l', hl, rfl⟩

theorem rewired (e : Engine) (k : LevelKey) (config : FlowConfig) (diff : Option Diff) :
    Tailors e (e.rewired k config diff) := by
  have hphase (s : Engine) : Tailors s (s.modifyLevel k fun l => { l with phase := .started }) :=
    .modifyLevel s k _ fun _ => ⟨⟨rfl, rfl, rfl⟩, rfl⟩
  cases diff with
  | none => exact hphase e
  | some d => exact (Tailors.rewires (rewires_rewire e k config d)).trans (hphase _)

theorem addFlow (e : Engine) {kind : LevelKind} (hk : kind.isOutermost = true) (config : FlowConfig) :
    Tailors e (e.addLevel (.make kind none config)).1 := by
  have hnot (b : Binding) : kind ≠ .expansion b := by
    rintro rfl
    cases hk
  refine of_bindings (.addLevel e _) (fun j b hb => ?_) fun j l' hl' => ?_
  · obtain ⟨l, hl, hkind⟩ := level?_of_binding? hb
    rw [level?_addLevel] at hl
    split at hl
    · cases hl
      exact absurd hkind (hnot b)
    · rw [binding?, hl]
      dsimp only
      rw [hkind]
  · have hl := hl'
    rw [level?_addLevel] at hl
    split at hl
    · cases hl
      exact .inr (suits_of_outermost hl' (fun b hb => hnot b hb) _)
    · exact .inl ⟨l', hl, rfl⟩

/-- A flow is given another configuration. -/
theorem update (hlaid : Laid e) (hk : ∀ l, e.level? k = some l → l.parent = none) (config : FlowConfig) :
    Tailors e (e.modifyLevel k fun l => { l with config }) := by
  have hg : Grows e (e.modifyLevel k fun l => { l with config }) := .modifyLevel _ _ _ fun _ => ⟨rfl, rfl, rfl⟩
  have hbind (j : LevelKey) := binding?_modifyLevel e k (fun l => { l with config }) (fun _ => rfl) j
  refine of_bindings hg (fun j b hb => hbind j ▸ hb) fun j l' hl' => ?_
  rw [level?_modifyLevel] at hl'
  split at hl'
  · rename_i hj
    subst hj
    obtain ⟨l, hl, rfl⟩ := Option.map_eq_some_iff.mp hl'
    refine .inr (hg.suits (suits_of_outermost hl (fun b hb => ?_) _))
    obtain ⟨p, hp, -⟩ := ((hlaid k l hl).enclosed b hb).parent
    rw [hk l hl] at hp
    cases hp
  · exact .inl ⟨l', hl', rfl⟩

theorem activated (e : Engine) (k : LevelKey) (c : FlowConfig) (order : List Nat) : Tailors e (e.activated k c order) := by
  have hm : Tailors e (e.modifyLevel k fun l => { l with env := Scope.evaluate (e.settingAround k) c.env }) :=
    .modifyLevel e k _ fun _ => ⟨⟨rfl, rfl, rfl⟩, rfl⟩
  exact hm.trans (.of_eq rfl rfl rfl rfl)

theorem withInstance {t : Template} {usage : Record} (ht : (t.nodes.map (·.id)).Nodup)
    (hx : (Binding.make t usage e.nextPrivate).expand? outer = some nodes) (k : LevelKey) (l : Level) :
    Tailors e (e.withInstance k l (.make t usage e.nextPrivate) nodes) := by
  have hnext : (e.withInstance k l (.make t usage e.nextPrivate) nodes).nextPrivate =
    e.nextPrivate + Binding.idsNeeded t := rfl
  have hold {j : LevelKey} {b : Binding}
      (hb : (e.withInstance k l (.make t usage e.nextPrivate) nodes).binding? j = some b) :
      e.binding? j = some b ∨ j = e.levels.size ∧ b = .make t usage e.nextPrivate := by
    obtain ⟨l', hl', hkind⟩ := level?_of_binding? hb
    rw [level?_withInstance] at hl'
    split at hl'
    · rename_i hj
      cases hl'
      cases hkind
      exact .inr ⟨hj, rfl⟩
    · refine .inl ?_
      rw [binding?, hl']
      dsimp only
      rw [hkind]
  refine ⟨grows_withInstance e k l _ nodes, fun j l' hl' => ?_, fun j b hb => ?_, fun i j b c hij hb hc => ?_⟩
  · have hl := hl'
    rw [level?_withInstance] at hl
    split at hl
    · cases hl
      refine .inr ⟨_, hl', fun b' hb' => ⟨outer, ?_⟩⟩
      cases hb'
      exact hx
    · exact .inl ⟨l', hl, rfl⟩
  · refine (hold hb).imp_right fun h => ⟨t, usage, e.nextPrivate, ht, h.2, Nat.le_refl _, ?_⟩
    rw [hnext]
  · rcases hold hb with h | ⟨hi, -⟩
    · exact .inl h
    · rcases hold hc with h | ⟨hj, -⟩
      · exact .inr (.inl h)
      · exact absurd (hi.trans hj.symm) hij

theorem failCreation (e : Engine) (k : LevelKey) (r : Record) (fault : NodeFault) :
    Tailors e (e.failCreation k r fault) := by
  unfold Engine.failCreation
  split
  · exact .refl e
  · exact (Tailors.still (quiet_publish _ _).still).trans (.modifyLevel _ _ _ fun _ => ⟨⟨rfl, rfl, rfl⟩, rfl⟩)

end Tailors

theorem Creates.tailors {templates : Templates} (h : Creates e k r templates e') (htidy : Tidy templates) :
    Tailors e e' := by
  have hfail (s : Engine) (r : Record) (fault : NodeFault) : Tailors s (s.failCreation k r fault) :=
    .failCreation s k r fault
  cases h with
  | present => exact .refl e
  | noTemplate => exact hfail _ _ _
  | refused => exact hfail _ _ _
  | @made part notes =>
    have hn : Tailors e (e.note notes) := .of_eq rfl rfl rfl rfl
    refine hn.trans (.of_keeps (keepsPlaces_enter _ _ _ _) (grows_enter _ _ _ _) fun j hj => ?_)
    rw [level?_enter, hj]
    split <;> rfl
  | usage hn hu ht ho =>
    cases ho with
    | nowhere => exact .refl e
    | breaks => exact .of_eq rfl rfl rfl rfl
    | collapses hl hx => exact (Tailors.withInstance (htidy _ _ ht) hx k _).trans (hfail _ _ _)
    | opens hl hx =>
      have hpush (s : Engine) (actions : List Action) : Tailors s (s.push actions) := .of_eq rfl rfl rfl rfl
      exact ((Tailors.withInstance (htidy _ _ ht) hx k _).trans (hpush _ _)).trans (.activated _ _ _ _)

/-! ## Steps of calls -/

theorem Proceeds.tailors {stops : List Stopping} (h : Proceeds e key stops e') : Tailors e e' := by
  cases h with
  | waits _ hs =>
    have hm : Tailors e (e.modifyCall key fun c => { c with waiting := stops }) := .of_eq rfl rfl rfl rfl
    exact hm.trans (.still hs.still)
  | done => exact .of_eq rfl rfl rfl rfl

theorem Starts.tailors {diff : Option Diff} (h : Starts e key k diff e') : Tailors e e' := by
  cases h with
  | nowhere => exact .of_eq rfl rfl rfl rfl
  | refused => exact .of_eq rfl rfl rfl rfl
  | fresh =>
    have hm : Tailors e (e.modifyLevel k fun l => { l with failures := [] }) :=
      .modifyLevel e k _ fun _ => ⟨⟨rfl, rfl, rfl⟩, rfl⟩
    exact hm.trans (.of_eq rfl rfl rfl rfl)
  | again => exact .of_eq rfl rfl rfl rfl

theorem Applies.tailors {config : FlowConfig} {diff : Option Diff} (h : Applies e key k config diff e') :
    Tailors e e' := by
  have hr := Tailors.rewired e k config diff
  have hp : Tailors e ((e.rewired k config diff).push [.announce k, .resume key]) := hr.trans (.of_eq rfl rfl rfl rfl)
  cases h with
  | nowhere => exact hp
  | activates => exact hp.trans (.activated _ _ _ _)
  | refused => exact hr.trans (.of_eq rfl rfl rfl rfl)

theorem tailors_stopAll (e : Engine) (key : CallKey) (requests : List StopRequest) : Tailors e (e.stopAll key requests) :=
  (Tailors.stops (stops_beginStops key (e, []) requests)).trans (proceeds_afterStops _ _ _).tailors

theorem tailors_runStage (hl : Layout e) (key : CallKey) {stage : Stage} (hs : e.StageApt stage) :
    Tailors e (e.runStage key stage) := by
  have hproceed {s : Engine} (h : Tailors e s) (stages : List Stage) : Tailors e (s.proceed key stages) :=
    h.trans (.of_eq rfl rfl rfl rfl)
  have hhold {s : Engine} (h : Tailors e s) (levels : List LevelKey) : Tailors e (s.hold key levels) :=
    h.trans (.of_eq rfl rfl rfl rfl)
  cases stage with
  | stop requests => exact tailors_stopAll e key requests
  | stopAmong levels ids removed => exact tailors_stopAll e key _
  | start k diff => exact (starts_start e key k diff).tailors
  | apply k config diff => exact (applies_apply e key k config diff).tailors
  | update k config => exact hproceed (.update hl.laid (parent_of_isFlow hl.laid hs.1) config) []
  | startAll next =>
    change Tailors e (e.startAll key next)
    unfold startAll
    split
    · exact .of_eq rfl rfl rfl rfl
    · have hadd := Tailors.addFlow e (show LevelKind.global.isOutermost = true from rfl) next.global
      exact hproceed (s := ({ (e.addLevel (.make .global none next.global)).1 with
        global := some e.levels.size } : Engine).hold key _) (hadd.trans (.of_eq rfl rfl rfl rfl)) _
  | startTab config listed =>
    change Tailors e (e.startTab key config listed)
    unfold startTab
    split
    · exact .of_eq rfl rfl rfl rfl
    · exact hproceed (hhold (.addFlow e rfl config) _) _
  | enlistGathered =>
    rw [runStage_enlistGathered]
    exact .of_eq rfl rfl rfl rfl
  | _ => exact .of_eq rfl rfl rfl rfl

/-- A call is about to apply a configuration to a level. -/
def Applying (e : Engine) (k : LevelKey) (config : FlowConfig) : Prop :=
  ∃ key c diff, e.call? key = some c ∧ .apply k config diff ∈ c.stages

/-- What calls are about to apply, they have been before, or it is the configuration of a level. -/
def Brings (e e' : Engine) : Prop :=
  ∀ k config, e'.Applying k config → e.Applying k config ∨ ∃ l, e.level? k = some l ∧ l.config = config

/-- Calls have no stages but those they had. -/
def FewerStages (e e' : Engine) : Prop :=
  ∀ key c', e'.call? key = some c' → ∃ c, e.call? key = some c ∧ c'.stages ⊆ c.stages

namespace FewerStages

theorem of_call? (h : ∀ j, e'.call? j = e.call? j) : FewerStages e e' := fun key c hc =>
  ⟨c, (h key) ▸ hc, List.Subset.refl _⟩

theorem trans (h : FewerStages e e') (h' : FewerStages e' e'') : FewerStages e e'' := by
  intro key c'' hc''
  obtain ⟨c', hc', hs'⟩ := h' key c'' hc''
  obtain ⟨c, hc, hs⟩ := h key c' hc'
  exact ⟨c, hc, List.Subset.trans hs' hs⟩

theorem modifyCall (e : Engine) (key : CallKey) (f : Call → Call)
    (hf : ∀ c, e.call? key = some c → (f c).stages ⊆ c.stages) : FewerStages e (e.modifyCall key f) := by
  intro j c' hc'
  rw [call?_modifyCall] at hc'
  split at hc'
  · rename_i hj
    subst hj
    obtain ⟨c, hc, rfl⟩ := Option.map_eq_some_iff.mp hc'
    exact ⟨c, hc, hf c hc⟩
  · exact ⟨c', hc', List.Subset.refl _⟩

theorem hold (e : Engine) (key : CallKey) (levels : List LevelKey) : FewerStages e (e.hold key levels) :=
  modifyCall e key _ fun _ _ => List.Subset.refl _

theorem brings (h : FewerStages e e') : Brings e e' := by
  rintro k config ⟨key, c', diff, hc', hm⟩
  obtain ⟨c, hc, hs⟩ := h key c' hc'
  exact .inl ⟨key, c, diff, hc, hs hm⟩

theorem andBrings (h : FewerStages e e') (hl : ∀ k, e'.level? k = e.level? k) (h' : Brings e' e'') : Brings e e'' := by
  intro k config ha
  rcases h' k config ha with ha | ⟨l, hlev, hc⟩
  · exact h.brings k config ha
  · exact .inr ⟨l, (hl k) ▸ hlev, hc⟩

/-- The stages that a call goes on with apply only what levels have. -/
theorem proceed {s : Engine} (h : FewerStages e s) (key : CallKey) {stages : List Stage}
    (hs : ∀ k config diff, .apply k config diff ∈ stages → ∃ l, e.level? k = some l ∧ l.config = config) :
    Brings e (s.proceed key stages) := by
  rintro k config ⟨j, c', diff, hc', hm⟩
  change (s.modifyCall key fun c => { c with stages := stages ++ c.stages }).call? j = some c' at hc'
  rw [call?_modifyCall] at hc'
  split at hc'
  · obtain ⟨c₁, hc₁, rfl⟩ := Option.map_eq_some_iff.mp hc'
    rcases List.mem_append.mp hm with hm | hm
    · exact .inr (hs k config diff hm)
    · obtain ⟨c, hc, hsub⟩ := h j c₁ hc₁
      exact .inl ⟨j, c, diff, hc, hsub hm⟩
  · obtain ⟨c, hc, hsub⟩ := h j c' hc'
    exact .inl ⟨j, c, diff, hc, hsub hm⟩

end FewerStages

theorem fewerStages_refuse (e : Engine) (key : CallKey) (fault : FlowFault) : FewerStages e (e.refuse key fault) :=
  FewerStages.modifyCall e key (fun c => { c with stages := [], fault := some fault }) fun _ _ => List.nil_subset _

theorem Proceeds.fewerStages {stops : List Stopping} (h : Proceeds e key stops e') : FewerStages e e' := by
  cases h with
  | waits _ hs =>
    exact (FewerStages.modifyCall e key (fun c => { c with waiting := stops }) fun _ _ => List.Subset.refl _).trans
      (.of_call? (call?_of_still hs.still))
  | done =>
    exact FewerStages.modifyCall e key (fun c =>
      { c with waiting := [], report := (reports stops).foldl (· ++ ·) c.report }) fun _ _ => List.Subset.refl _

theorem Starts.brings {diff : Option Diff} (h : Starts e key k diff e') : Brings e e' := by
  have hsame : FewerStages e e := .of_call? fun _ => rfl
  cases h with
  | nowhere => exact hsame.proceed key (by simp)
  | refused => exact (fewerStages_refuse _ _ _).brings
  | @fresh l hl =>
    have hm : FewerStages e (e.modifyLevel k fun l => { l with failures := [] }) := .of_call? fun _ => rfl
    refine hm.proceed key fun j config d hmem => ?_
    cases List.mem_singleton.mp hmem
    exact ⟨l, hl, rfl⟩
  | @again l d hl =>
    refine hsame.proceed key fun j config d' hmem => ?_
    rcases List.mem_append.mp hmem with hmem | hmem
    · split at hmem
      · cases hmem
      · cases List.mem_singleton.mp hmem
    · cases List.mem_singleton.mp hmem
      exact ⟨l, hl, rfl⟩

theorem Applies.fewerStages {config : FlowConfig} {diff : Option Diff} (h : Applies e key k config diff e') :
    FewerStages e e' := by
  have hr : FewerStages e (e.rewired k config diff) := by
    refine .of_call? fun j => ?_
    cases diff with
    | none => rfl
    | some d => exact call?_of_calls (rewires_rewire e k config d).frame.1 j
  cases h with
  | nowhere => exact hr
  | activates => exact hr
  | refused => exact hr.trans (fewerStages_refuse _ _ _)

theorem fewerStages_stopAll (e : Engine) (key : CallKey) (requests : List StopRequest) :
    FewerStages e (e.stopAll key requests) :=
  (FewerStages.of_call? (call?_of_calls (calls_of_shell (stops_beginStops key (e, []) requests).shell))).trans
    (proceeds_afterStops _ _ _).fewerStages

theorem brings_runStage (e : Engine) (key : CallKey) (stage : Stage) : Brings e (e.runStage key stage) := by
  have hsame {s : Engine} (hc : s.calls = e.calls) : FewerStages e s := .of_call? (call?_of_calls hc)
  have hhold {s : Engine} (hc : s.calls = e.calls) (levels : List LevelKey) : FewerStages e (s.hold key levels) :=
    (hsame hc).trans (.hold s key levels)
  cases stage with
  | stop requests => exact (fewerStages_stopAll e key requests).brings
  | stopAmong levels ids removed => exact (fewerStages_stopAll e key _).brings
  | start k diff => exact (starts_start e key k diff).brings
  | apply k config diff => exact (applies_apply e key k config diff).fewerStages.brings
  | update k config => exact (hsame (s := e.modifyLevel k _) rfl).proceed key (by simp)
  | deployNodes previous next diff =>
    change Brings e (e.deployNodes key previous next diff)
    rw [deployNodes_eq]
    refine (hhold rfl _).proceed key fun j config d hm => ?_
    simp [deployStages, globalStages, tabStages] at hm
    obtain ⟨tab, -, hm⟩ := hm
    split at hm <;> simp at hm
  | stopAll => exact (hhold (s := { e with flows := [], global := none }) rfl _).proceed key (by simp)
  | startAll next =>
    change Brings e (e.startAll key next)
    unfold startAll
    split
    · exact (fewerStages_refuse e key _).brings
    · exact (hhold (s := { (e.addLevel (.make .global none next.global)).1 with global := some e.levels.size }) rfl
        _).proceed key (by simp)
  | startTab config listed =>
    change Brings e (e.startTab key config listed)
    unfold startTab
    split
    · exact (hsame rfl).proceed key (by simp)
    · refine (hhold (s := (e.addLevel (.make .tab none config)).1) rfl _).proceed key fun j c d hm => ?_
      cases listed <;> simp at hm
  | enlist k => exact (hsame (s := { e with flows := e.flows ++ [k] }) rfl).proceed key (by simp)
  | gather k =>
    exact (FewerStages.modifyCall e key (fun c => { c with gathered := c.gathered ++ [k] })
      fun _ _ => List.Subset.refl _).proceed key (by simp)
  | enlistGathered =>
    rw [runStage_enlistGathered]
    exact (hsame (s := { e with flows := e.gathered key }) rfl).proceed key (by simp)
  | commit next => exact (hsame (s := { e with deployed := some next }) rfl).proceed key (by simp)
  | withdraw => exact (hsame (s := { e with deployed := none }) rfl).proceed key (by simp)
  | stuck =>
    rintro k config ⟨j, c', diff, hc', hm⟩
    change (e.modifyCall key _).call? j = some c' at hc'
    rw [call?_modifyCall] at hc'
    split at hc'
    · obtain ⟨c, hc, rfl⟩ := Option.map_eq_some_iff.mp hc'
      exact .inl ⟨j, c, diff, hc, (List.mem_cons.mp hm).resolve_left (by simp)⟩
    · exact .inl ⟨j, c', diff, hc', hm⟩

theorem Resumes.brings (h : Resumes e key e') : Brings e e' := by
  cases h with
  | unknown => exact (FewerStages.of_call? fun _ => rfl).brings
  | ends =>
    exact (FewerStages.modifyCall e key (fun c => { c with ended := c.ended <|> some e.now, holds := [] })
      fun _ _ => List.Subset.refl _).brings
  | @stage c stage rest hc hw hs =>
    have hf : FewerStages e (e.modifyCall key fun c => { c with stages := rest }) := by
      refine .modifyCall e key _ fun c' hc' => ?_
      rw [hc] at hc'
      cases hc'
      rw [hs]
      exact List.subset_cons_self _ _
    exact hf.andBrings (fun _ => rfl) (brings_runStage _ key stage)
  | waits hc hw =>
    have hs := stops_pollStops key (e, [])
    rw [pollAll_eq]
    exact ((FewerStages.of_call? (call?_of_calls (calls_of_shell (hs _).shell))).trans
      (proceeds_afterStops _ _ _).fewerStages).brings

theorem Resumes.tailors (h : Resumes e key e') (hl : Layout e) : Tailors e e' := by
  cases h with
  | unknown => exact .refl e
  | ends => exact .of_eq rfl rfl rfl rfl
  | @stage c stage rest hc hw hs =>
    have hm : Tailors e (e.modifyCall key fun c => { c with stages := rest }) := .of_eq rfl rfl rfl rfl
    have hlay : Layout (e.modifyCall key fun c => { c with stages := rest }) := by
      refine hl.modifyCall key _ fun c' hc' s hs' => ?_
      rw [hc] at hc'
      cases hc'
      exact hl.stages key c hc s (hs ▸ List.mem_cons_of_mem _ hs')
    exact hm.trans (tailors_runStage hlay key (hl.stages key c hc stage (hs ▸ List.mem_cons_self)))
  | waits => exact (Tailors.stops (stops_pollStops key (e, []) _)).trans (proceeds_afterStops _ _ _).tailors

/-! ## Every engine -/

/-- The nodes of instances are expansions of their templates, and no call is about to give them others. -/
structure Tailored (e : Engine) : Prop where
  levels : ∀ k l, e.level? k = some l → e.Suits k l.config.nodes
  calls : ∀ k config, e.Applying k config → e.Suits k config.nodes
  /-- The ids of instances have been given away, each to one of them only. -/
  given : ∀ k b, e.binding? k = some b → b.Within 0 e.nextPrivate
  apart : ∀ i j b c, i ≠ j → e.binding? i = some b → e.binding? j = some c → b.Apart c

theorem Tailored.step (h : Tailored e) (ht : Tailors e e') (hb : Brings e e') : Tailored e' := by
  refine ⟨fun k l' hl' => ?_, fun k config ha => ?_, fun k b hb => ?_, fun i j b c hij hb hc => ?_⟩
  · rcases ht.nodes k l' hl' with ⟨l, hl, he⟩ | hs
    · rw [he]
      exact ht.grows.suits (h.levels k l hl)
    · exact hs
  · rcases hb k config ha with ha | ⟨l, hl, rfl⟩
    · exact ht.grows.suits (h.calls k config ha)
    · exact ht.grows.suits (h.levels k l hl)
  · rcases ht.fresh k b hb with hb | hw
    · exact (h.given k b hb).mono (Nat.le_refl _) ht.grows.nextPrivate
    · exact hw.mono (Nat.zero_le _) (Nat.le_refl _)
  · rcases ht.fresh i b hb with hb' | hwb
    · rcases ht.fresh j c hc with hc' | hwc
      · exact h.apart i j b c hij hb' hc'
      · exact (h.given i b hb').apart hwc (Nat.le_refl _)
    · rcases ht.fresh j c hc with hc' | hwc
      · exact ((h.given j c hc').apart hwb (Nat.le_refl _)).symm
      · rcases ht.apart i j b c hij hb hc with hb' | hc' | ha
        · exact (h.given i b hb').apart hwc (Nat.le_refl _)
        · exact ((h.given j c hc').apart hwb (Nat.le_refl _)).symm
        · exact ha

theorem tailors_install (e : Engine) (k : LevelKey) (r : Record) (i : LevelKey) : Tailors e (e.install k r i) := by
  refine .of_keeps (keepsPlaces_act (a := .install k r i) fun _ h => by cases h) (grows_install _ _ _ _)
    fun j hj => ?_
  unfold install
  rw [level?_enter, level?_modifyLevel, hj]
  simp

theorem Tailored.tick (hr : Reachable e) (h : Tailored e) (ht : Tick e e') : Tailored e' := by
  rcases ht.kinds with ⟨hs, -⟩ | ⟨key, -, hs, -⟩ | ⟨a, rest, -, hq, ha, rfl⟩
  · exact h.step (.still hs) (FewerStages.of_call? (call?_of_still hs)).brings
  · exact h.step (.still hs) (FewerStages.of_call? (call?_of_still hs)).brings
  · have hpop : Tailored { e with agenda := rest } := h.step (.of_eq rfl rfl rfl rfl) (FewerStages.of_call? fun _ => rfl).brings
    have hcalls (hne : ∀ key, a ≠ .resume key) : Brings { e with agenda := rest } ({ e with agenda := rest }.act a) :=
      (FewerStages.of_call? (call?_of_calls (calls_of_register (register_act hne)))).brings
    cases a with
    | create k r templates =>
      have hapt : e.Apt (.create k r templates) := hr.layout.makes _ (plan_pop ha hq ▸ List.mem_cons_self)
      exact hpop.step ((creates_create { e with agenda := rest } k r templates).tailors hapt.1)
        (hcalls fun _ h => by cases h)
    | install k r inst => exact hpop.step (tailors_install _ k r inst) (hcalls fun _ h => by cases h)
    | refresh k =>
      have hst : Stops { e with agenda := rest } (({ e with agenda := rest } : Engine).refresh k) := stops_refresh _ k
      exact hpop.step (.stops hst) (hcalls fun _ h => by cases h)
    | resume key =>
      have hres := resumes_resume { e with agenda := rest } key
      exact hpop.step (hres.tailors (hr.layout.popped (plan_pop ha hq))) hres.brings
    | _ => cases hq

/-- No call begins with the application of a configuration. -/
theorem not_apply_of_offers {stages : List Stage} (h : e.Offers stages) (k : LevelKey) (config : FlowConfig)
    (diff : Option Diff) : .apply k config diff ∉ stages := by
  cases h with
  | load h =>
    unfold stagesOfLoad at h
    split at h
    · cases h
    · split at h
      · cases h
      · cases h
        simp
  | @deploy records kind stages diff h =>
    rcases stagesOfDeploy_cases e records kind with
      ⟨fault, -, hs⟩ | ⟨next, hp, ⟨fault, -, hs⟩ | ⟨-, result, hd, hs⟩⟩
    · rw [hs] at h
      cases h
    · rw [hs] at h
      cases h
    · rw [hs] at h
      cases h
      cases hd <;> simp
  | stopAll => simp [stagesOfStopAll]
  | stop requests => simp
  | start k diff => simp

theorem Tailored.input (hr : Reachable e) (h : Tailored e) (hi : Input e e') : Tailored e' := by
  cases hi with
  | @call stages ho =>
    have hl : Tailors e (e.begin stages).1 :=
      .of_levels (Input.grows (.call ho)) (level?_begin e stages)
    refine h.step hl fun k config ⟨key, c, diff, hc, hm⟩ => .inl ?_
    rw [call?_begin hr.keysBelow] at hc
    split at hc
    · cases hc
      exact absurd hm (not_apply_of_offers ho k config diff)
    · exact ⟨key, c, diff, hc, hm⟩
  | quiet hq => exact h.step (.still hq.still) (FewerStages.of_call? (call?_of_still hq.still)).brings
  | keep => exact h.step (.of_eq rfl rfl rfl rfl) (FewerStages.of_call? fun _ => rfl).brings
  | @flow kind config hk hc =>
    have hb : FewerStages e (e.addLevel (.make kind none config)).1 := .of_call? fun _ => rfl
    refine h.step (.addFlow e ?_ config) hb.brings
    rcases hk with rfl | rfl <;> rfl
  | @update k config hk hc =>
    have hb : FewerStages e (e.modifyLevel k fun l => { l with config }) := .of_call? fun _ => rfl
    exact h.step (.update hr.layout.laid hk _) hb.brings

theorem Reachable.tailored (h : Reachable e) : Tailored e := by
  refine h.invariant (P := Tailored) (fun r o s v t => ⟨fun k l hl => ?_, fun k config ha => ?_,
    fun k b hb => ?_, fun i j b c hij hb hc => ?_⟩) (fun _ _ hr h ht => h.tick hr ht) fun _ _ hr h _ hi => h.input hr hi
  · simp [level?, Engine.make] at hl
  · obtain ⟨key, c, diff, hc, -⟩ := ha
    simp [call?, Engine.make] at hc
  · simp [binding?, level?, Engine.make] at hb
  · simp [binding?, level?, Engine.make] at hb

/-! ## Wiring -/

/-- A node of an instance is wired as a record of its id in an expansion of the template. -/
def Wired (e : Engine) (node : Node) : Prop :=
  ∀ b, e.binding? node.level = some b → ∃ outer nodes r, b.expand? outer = some nodes ∧ r ∈ nodes ∧ r.id = node.id ∧
    node.dispatch = .ofWires r.outputs

theorem Wired.of_binding? {node : Node} (h : e.Wired node) (hb : ∀ k, e'.binding? k = e.binding? k) : e'.Wired node :=
  fun b hb' => h b (hb node.level ▸ hb')

/-- A node after a step: its wiring is what it was, that of its record, or that of an expansion. -/
inductive WiringComes (e e' : Engine) (node' : Node) : Prop
  | stays {n : NodeKey} {node : Node} (hn : e.node? n = some node) (hf : node'.face = node.face)
      (hd : node'.dispatch = node.dispatch)
  | made (hd : node'.dispatch = .ofWires node'.record.outputs)
  | wired (h : e'.Wired node')

/-- What a step means for the wiring of all nodes. -/
def Wirings (e e' : Engine) : Prop := ∀ n node', e'.node? n = some node' → WiringComes e e' node'

theorem WiringComes.of_binding? {node : Node} (h : WiringComes e e' node) (hb : ∀ k, e''.binding? k = e'.binding? k) :
    WiringComes e e'' node := by
  cases h with
  | stays hn hf hd => exact .stays hn hf hd
  | made hd => exact .made hd
  | wired h => exact .wired (h.of_binding? hb)

/-- Nodes keep what they are and their wiring. -/
theorem wires_of_same (hf : ∀ n, (e'.node? n).map Node.face = (e.node? n).map Node.face)
    (hd : ∀ n, (e'.node? n).map (·.dispatch) = (e.node? n).map (·.dispatch)) : Wirings e e' := by
  intro n node' hn
  have hface := hf n
  have hdispatch := hd n
  rw [hn] at hface hdispatch
  obtain ⟨node, hnode, he⟩ := Option.map_eq_some_iff.mp hface.symm
  rw [hnode] at hdispatch
  exact .stays hnode he.symm (Option.some.inj hdispatch)

theorem wires_of_node? (h : ∀ n, e'.node? n = e.node? n) : Wirings e e' :=
  wires_of_same (fun n => by rw [h]) fun n => by rw [h]

theorem wires_still (h : e'.still = e.still) : Wirings e e' := by
  refine wires_of_same (face_of_still h) fun n => ?_
  have hn := congrArg (Option.map Node.dispatch) (node?_of_still h n)
  rwa [Option.map_map, Option.map_map] at hn

theorem wires_stops (h : Stops e e') : Wirings e e' := wires_of_same (StopsWithin.face h) h.wiring

theorem Wirings.trans_node? (h : Wirings e e') (hn : ∀ n, e''.node? n = e'.node? n) (hb : ∀ k, e''.binding? k = e'.binding? k) :
    Wirings e e'' := fun n node' hnode => (h n node' (hn n ▸ hnode)).of_binding? hb

theorem Wirings.of_node? {e₁ : Engine} (h : Wirings e₁ e') (hn : ∀ n, e₁.node? n = e.node? n) : Wirings e e' := by
  intro n node' hnode
  cases h n node' hnode with
  | stays hn' hf hd => exact .stays (hn _ ▸ hn') hf hd
  | made hd => exact .made hd
  | wired h => exact .wired h

theorem wires_enter (e : Engine) (k : LevelKey) (r : Record) (part : Part) : Wirings e (e.enter k r part) := by
  intro n node' hn
  rw [node?_enter] at hn
  split at hn
  · cases hn
    exact .made rfl
  · exact .stays hn rfl rfl

theorem Creates.wires {templates : Templates} (h : Creates e k r templates e') : Wirings e e' := by
  cases h with
  | present => exact wires_of_node? fun _ => rfl
  | noTemplate => exact wires_of_node? fun n => node?_failCreation _ _ _ _ _
  | refused => exact wires_of_node? fun n => node?_failCreation _ _ _ _ _
  | @made part notes => exact (wires_enter (e.note notes) k (e.resolvedAt k r) part).of_node? fun _ => rfl
  | usage hn hu ht ho =>
    cases ho with
    | nowhere => exact wires_of_node? fun _ => rfl
    | breaks => exact wires_of_node? fun _ => rfl
    | collapses => exact wires_of_node? fun n => (node?_failCreation _ _ _ _ _).trans rfl
    | opens => exact wires_of_node? fun _ => rfl

/-! ## Rewiring -/

/-- A node gets the wiring of a record of an expansion. -/
theorem Wirings.updateWires (h : Wirings e e') {wires : Wires}
    (hw : ∀ node, e'.node? n = some node → e'.Wired { node with dispatch := .ofWires wires }) :
    Wirings e (e'.updateWires n wires) := by
  intro m node' hm
  have hb := binding?_of_levels (levels_updateWires e' n wires)
  rw [node?_updateWires] at hm
  split at hm
  · rename_i hnm
    subst hnm
    obtain ⟨node, hnode, rfl⟩ := Option.map_eq_some_iff.mp hm
    exact .wired ((hw node hnode).of_binding? hb)
  · exact (h m node' hm).of_binding? hb

theorem Laid.activeKey?_node (h : Laid e) {id : NodeId} (hn : e.activeKey? k id = some n) :
    ∃ node, e.node? n = some node ∧ node.level = k ∧ node.id = id := h.placed.node hn

theorem Wirings.rewireNode (h : Wirings e e') (hl : Laid e') (hb : e'.binding? i = some b) (hx : b.expand? outer = some nodes)
    (hr : r ∈ nodes) : Wirings e (e'.rewireNode i r) := by
  unfold Engine.rewireNode
  split
  · exact h
  · rename_i m hm
    split
    · exact h
    · refine h.updateWires fun node hnode b' hb' => ?_
      obtain ⟨node', hnode', hlevel, hid⟩ := hl.activeKey?_node hm
      rw [hnode] at hnode'
      cases hnode'
      rw [show ({ node with dispatch := Dispatch.ofWires r.outputs } : Node).level = i from hlevel, hb] at hb'
      cases hb'
      exact ⟨outer, nodes, r, hx, hr, hid.symm, rfl⟩

theorem Wirings.rewireNodes (h : Wirings e e') (hl : Laid e') (hb : e'.binding? i = some b)
    (hx : b.expand? outer = some nodes) {rs : List Record} (hr : ∀ r ∈ rs, r ∈ nodes) :
    Wirings e (rs.foldl (Engine.rewireNode i) e') := by
  induction rs generalizing e' with
  | nil => exact h
  | cons r rs ih =>
    refine ih (h.rewireNode hl hb hx (hr r List.mem_cons_self)) ((rewires_rewireNode i e' r).laid hl) ?_
      fun r' hr' => hr r' (List.mem_cons_of_mem _ hr')
    rw [binding?_of_levels (levels_rewireNode i e' r)]
    exact hb

theorem Wirings.rewireInstance (h : Wirings e e') (hl : Laid e') (i : LevelKey) (outer : Wires) :
    Wirings e (e'.rewireInstance i outer) := by
  cases hb : e'.binding? i with
  | none =>
    unfold Engine.rewireInstance
    rw [hb]
    exact h
  | some b =>
    cases hx : b.expand? outer with
    | none =>
      unfold Engine.rewireInstance
      rw [hb]
      dsimp only
      rw [hx]
      exact h.trans_node? (fun _ => rfl) fun _ => rfl
    | some nodes =>
      rw [rewireInstance_eq hb hx]
      exact (h.rewireNodes hl hb hx fun _ hr => hr).trans_node? (fun _ => rfl) fun k =>
        binding?_modifyLevel _ i (fun l => { l with config := { l.config with nodes } }) (fun _ => rfl) k

theorem Wirings.rewireOne (h : Wirings e e') (hl : Laid e') {config : FlowConfig} (hs : e'.Suits k config.nodes) (id : NodeId) :
    Wirings e (e'.rewireOne k config id) := by
  unfold Engine.rewireOne
  split
  · rename_i r m hr hm
    have hmem : r ∈ config.nodes := List.mem_of_find?_eq_some hr
    have hrid : r.id = id := by simpa using List.find?_some hr
    have hupdate {s : Engine} (hws : Wirings e s) (hrw : Rewires e' s) : Wirings e (s.updateWires m r.outputs) := by
      refine hws.updateWires fun node hnode b hb => ?_
      have hm' : s.activeKey? k id = some m := by rw [(hrw.entries k id).1]; exact hm
      obtain ⟨node', hnode', hlevel, hid⟩ := (hrw.laid hl).activeKey?_node hm'
      rw [hnode] at hnode'
      cases hnode'
      obtain ⟨l, hk, hkind⟩ := hrw.grows.suits hs
      obtain ⟨l', hl', hb'⟩ := level?_of_binding? hb
      rw [show ({ node with dispatch := Dispatch.ofWires r.outputs } : Node).level = k from hlevel, hk] at hl'
      cases hl'
      obtain ⟨outer, hx⟩ := hkind b hb'
      exact ⟨outer, config.nodes, r, hx, hmem, hrid.trans hid.symm, rfl⟩
    split
    · exact hupdate (h.rewireInstance hl _ _) (rewires_rewireInstance _ _ _)
    · exact hupdate h (.refl e')
  · exact h

theorem wires_rewired (hl : Laid e) {config : FlowConfig} (hs : e.Suits k config.nodes) (diff : Option Diff) :
    Wirings e (e.rewired k config diff) := by
  have hsame : Wirings e e := wires_of_node? fun _ => rfl
  have hall (ids : List NodeId) (s : Engine) (hw : Wirings e s) (hls : Laid s) (hss : s.Suits k config.nodes) :
      Wirings e (ids.foldl (Engine.rewireOne k config) s) := by
    induction ids generalizing s with
    | nil => exact hw
    | cons id ids ih =>
      have hr := rewires_rewireOne k config s id
      exact ih _ (hw.rewireOne hls hss id) (hr.laid hls) (hr.grows.suits hss)
  have hphase {s : Engine} (hw : Wirings e s) : Wirings e (s.modifyLevel k fun l => { l with phase := .started }) := by
    exact hw.trans_node? (fun _ => rfl) fun j => 
      binding?_modifyLevel s k (fun l => { l with phase := .started }) (fun _ => rfl) j
  cases diff with
  | none => exact hphase hsame
  | some d => exact hphase (hall _ e hsame hl hs)

/-! ## Wiring along a run -/

theorem Proceeds.wires {stops : List Stopping} {e₁ : Engine} (h : Proceeds e₁ key stops e') (hs : Stops e e₁) :
    Wirings e e' := by
  cases h with
  | waits _ hsilent =>
    refine wires_of_same (fun n => (face_of_still hsilent.still n).trans (StopsWithin.face hs n)) fun n => ?_
    have hn := congrArg (Option.map Node.dispatch) (node?_of_still hsilent.still n)
    rw [Option.map_map, Option.map_map] at hn
    exact hn.trans (hs.wiring n)
  | done => exact wires_of_same (fun n => StopsWithin.face hs n) fun n => hs.wiring n

theorem Applies.wires {config : FlowConfig} {diff : Option Diff} (h : Applies e key k config diff e') (hl : Laid e)
    (hs : e.Suits k config.nodes) : Wirings e e' := by
  have hr := wires_rewired hl hs diff
  cases h with
  | nowhere => exact hr.trans_node? (fun _ => rfl) fun _ => rfl
  | @activates l order hlev ho =>
    exact hr.trans_node? (fun _ => rfl) fun j =>
      binding?_modifyLevel ((e.rewired k config diff).push [.announce k, .resume key]) k
        (fun lev => { lev with env := Scope.evaluate _ l.config.env }) (fun _ => rfl) j
  | refused => exact hr.trans_node? (fun _ => rfl) fun _ => rfl

theorem Starts.wires {diff : Option Diff} (h : Starts e key k diff e') : Wirings e e' := by
  cases h with
  | nowhere => exact wires_of_node? fun _ => rfl
  | refused => exact wires_of_node? fun _ => rfl
  | fresh => exact wires_of_node? fun _ => rfl
  | again => exact wires_of_node? fun _ => rfl

theorem wires_runStage (hl : Laid e) (key : CallKey) {stage : Stage}
    (hs : ∀ k config diff, stage = .apply k config diff → e.Suits k config.nodes) : Wirings e (e.runStage key stage) := by
  cases stage with
  | stop requests =>
    exact (proceeds_afterStops _ _ _).wires (stops_beginStops key (e, []) requests)
  | stopAmong levels ids removed =>
    exact (proceeds_afterStops _ _ _).wires (stops_beginStops key (e, []) _)
  | start k diff => exact (starts_start e key k diff).wires
  | apply k config diff => exact (applies_apply e key k config diff).wires hl (hs k config diff rfl)
  | startAll next =>
    change Wirings e (e.startAll key next)
    unfold startAll
    split <;> exact wires_of_node? fun _ => rfl
  | startTab config listed =>
    change Wirings e (e.startTab key config listed)
    unfold startTab
    split <;> exact wires_of_node? fun _ => rfl
  | enlistGathered =>
    rw [runStage_enlistGathered]
    exact wires_of_node? fun _ => rfl
  | _ => exact wires_of_node? fun _ => rfl

theorem Resumes.wires (h : Resumes e key e') (hl : Laid e) (ht : Tailored e) : Wirings e e' := by
  cases h with
  | unknown => exact wires_of_node? fun _ => rfl
  | ends => exact wires_of_node? fun _ => rfl
  | @stage c stage rest hc hw hs =>
    have hlm : Laid (e.modifyCall key fun c => { c with stages := rest }) := hl.of_levels (.of_eq rfl rfl rfl rfl) fun _ => rfl
    refine (wires_runStage hlm key fun k config diff he => ?_).of_node? fun _ => rfl
    subst he
    exact ht.calls k config ⟨key, c, diff, hc, hs ▸ List.mem_cons_self⟩
  | waits => exact (proceeds_afterStops _ _ _).wires (stops_pollStops key (e, []) _)

theorem Tick.wires (hr : Reachable e) (ht : Tick e e') : Wirings e e' := by
  rcases ht.kinds with ⟨hs, -⟩ | ⟨key, -, hs, -⟩ | ⟨a, rest, -, hq, ha, rfl⟩
  · exact wires_still hs
  · exact wires_still hs
  · cases a with
    | create k r templates => exact (creates_create { e with agenda := rest } k r templates).wires.of_node? fun _ => rfl
    | install k r inst => exact (wires_enter _ k r (.standIn inst)).of_node? fun _ => rfl
    | refresh k =>
      exact (wires_stops (stops_refresh { e with agenda := rest } k)).of_node? fun _ => rfl
    | resume key =>
      have hl := (hr.layout.popped (plan_pop ha hq)).laid
      have hpop : Tailored { e with agenda := rest } :=
        hr.tailored.step (.of_eq rfl rfl rfl rfl) (FewerStages.of_call? fun _ => rfl).brings
      exact ((resumes_resume { e with agenda := rest } key).wires hl hpop).of_node? fun _ => rfl
    | _ => cases hq

theorem Input.wires (hi : Input e e') : Wirings e e' := by
  cases hi with
  | call => exact wires_of_node? (node?_begin e _)
  | quiet hq => exact wires_still hq.still
  | keep => exact wires_of_node? fun _ => rfl
  | flow => exact wires_of_node? fun _ => rfl
  | update => exact wires_of_node? fun _ => rfl

/-- At any time, a node of an instance is wired as in an expansion of its template. -/
theorem Reachable.wired (h : Reachable e) : ∀ n node, e.node? n = some node → e.Wired node := by
  have hstep {e e' : Engine} (hr : Reachable e) (h : ∀ n node, e.node? n = some node → e.Wired node)
      (hr' : Reachable e') (hg : Grows e e') (hw : Wirings e e') :
      ∀ n node, e'.node? n = some node → e'.Wired node := by
    intro n node' hn
    cases hw n node' hn with
    | @stays m node hm hf hd =>
      obtain ⟨l, hl⟩ := (hr.furnished.nodes m node hm).level
      have hlevel : node'.level = node.level := congrArg (·.2.1) hf
      have hrec : node'.record = node.record := congrArg (·.1) hf
      obtain ⟨l', hl', hkin⟩ := hg.level _ l hl
      intro b hb
      obtain ⟨outer, nodes, r, hx, hmem, hid, hdis⟩ := h m node hm b (by
        obtain ⟨l₁, hl₁, hk₁⟩ := level?_of_binding? hb
        rw [hlevel, hl'] at hl₁
        cases hl₁
        rw [binding?, hl]
        dsimp only
        rw [← hkin.kind, hk₁])
      exact ⟨outer, nodes, r, hx, hmem, by rw [hid, Node.id, Node.id, hrec], hd.trans hdis⟩
    | made hd =>
      intro b hb
      obtain ⟨e₀, l₀, r, hr₀, hlater, hl₀, hmem, hres⟩ := hr'.furnished.nodes n node' hn
      obtain ⟨l₁, hl₁, hk₁⟩ := level?_of_binding? hb
      obtain ⟨l', hl', hkin⟩ := hlater.grows.level _ l₀ hl₀
      rw [hl₁] at hl'
      cases hl'
      obtain ⟨l, hl, hsuits⟩ := hr₀.tailored.levels _ l₀ hl₀
      rw [hl₀] at hl
      cases hl
      obtain ⟨outer, hx⟩ := hsuits b (hkin.kind ▸ hk₁)
      refine ⟨outer, _, r, hx, hmem, ?_, ?_⟩
      · rw [Node.id, hres]
        rfl
      · rw [hd, hres]
        rfl
    | wired hw => exact hw
  refine h.invariant (P := fun e => ∀ n node, e.node? n = some node → e.Wired node) (fun r o s v t n node hn => ?_)
    (fun e e' hr h ht => hstep hr h (hr.tick ht) (ht.grows) (ht.wires hr)) fun e e' hr h ha hi =>
      hstep hr h (hr.input ha hi) hi.grows hi.wires
  simp [node?, Engine.make] at hn

/-! ## The nodes of an instance -/

/-- An active node of an instance is of the type that a node of its id has there. -/
theorem Reachable.member (h : Reachable e) (hb : e.binding? k = some b) (hr : r ∈ b.members)
    (hn : e.activeKey? k r.id = some n) :
    ∃ node, e.node? n = some node ∧ node.level = k ∧ node.id = r.id ∧ node.record.type = r.type := by
  obtain ⟨node, hnode, hlevel, hid⟩ := h.layout.laid.activeKey?_node hn
  refine ⟨node, hnode, hlevel, hid, ?_⟩
  obtain ⟨e₀, l₀, r₀, hr₀, hlater, hl₀, hmem, hres⟩ := h.furnished.nodes n node hnode
  rw [hlevel] at hl₀
  obtain ⟨l, hl, hkind⟩ := level?_of_binding? hb
  obtain ⟨l', hl', hkin⟩ := hlater.grows.level k l₀ hl₀
  rw [hl] at hl'
  cases hl'
  have hkind₀ : l₀.kind = .expansion b := hkin.kind.symm.trans hkind
  obtain ⟨l', hl', hsuits⟩ := hr₀.tailored.levels k l₀ hl₀
  rw [hl₀] at hl'
  cases hl'
  obtain ⟨outer, hx⟩ := hsuits b hkind₀
  have hmade := ((hr₀.layout.laid k l₀ hl₀).enclosed b hkind₀).made
  have hbare : r₀.bare ∈ b.members.map Record.bare := Binding.expand?_bare hmade.fitting hx ▸ List.mem_map_of_mem hmem
  obtain ⟨r₁, hr₁, he⟩ := List.mem_map.mp hbare
  have hid₁ : r₁.id = r.id := (congrArg Record.id he).trans (((congrArg Record.id hres).symm.trans hid : r₀.id = r.id))
  obtain rfl := List.inj_on_of_nodup_map hmade.nodup hr₁ hr hid₁
  rw [hres]
  exact (congrArg Record.type he).symm

/-- The nodes to which an output of a node leads. -/
def outlets (node : Node) (port : Nat) : List NodeId := (node.dispatch.targets port).map (·.node)

theorem outlets_ofWires {node : Node} {wires : Wires} (hd : node.dispatch = .ofWires wires) (port : Nat) :
    outlets node port = wires[port]?.getD [] := by
  rw [outlets, hd, Dispatch.targets, Dispatch.ofWires, List.getElem?_map]
  cases wires[port]? with
  | none => rfl
  | some ids => simp [Function.comp_def]

/-- A node of an instance is wired as in some expansion. -/
theorem Reachable.outlets_eq (h : Reachable e) (hb : e.binding? k = some b) {node : Node} (hn : e.node? n = some node)
    (hlevel : node.level = k) : ∃ outer nodes, b.expand? outer = some nodes ∧
      ∀ port, outlets node port = wiring nodes node.id port := by
  obtain ⟨outer, nodes, r, hx, hmem, hid, hd⟩ := h.wired n node hn b (by rw [hlevel]; exact hb)
  refine ⟨outer, nodes, hx, fun port => ?_⟩
  obtain ⟨l, hl, hkind⟩ := level?_of_binding? hb
  have hmade := ((h.layout.laid k l hl).enclosed b hkind).made
  have hnodup : (nodes.map (·.id)).Nodup := by
    rw [Binding.expand?_ids hmade.fitting hx]
    exact hmade.nodup
  rw [outlets_ofWires hd, ← hid, wiring_of_mem hnodup hmem]
  rfl

end Engine
end Flowgraph
