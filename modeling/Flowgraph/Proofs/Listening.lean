import Flowgraph.Proofs.Hearing
/-! Receivers and tables along a run. Unless nodes are being made in a level or a stop of it is under way, its table
holds the receivers that are active in it, in the order of their creation; and whoever a table selects is there and has
not been told to stop, unless a stop of the level is under way. -/
namespace Flowgraph

/-- The table of a level is built anew after its nodes have been made. -/
def Renewed : List Action → Prop
  | [] => True
  | a :: rest => (∀ k, a.makesIn? = some k → .refresh k ∈ rest) ∧ Renewed rest

theorem renewed_append {makes rest : List Action} (hm : ∀ a ∈ makes, ∀ k, a.makesIn? = some k → .refresh k ∈ rest)
    (hr : Renewed rest) : Renewed (makes ++ rest) := by
  induction makes with
  | nil => exact hr
  | cons a makes ih =>
    exact ⟨fun k hk => List.mem_append_right _ (hm a List.mem_cons_self k hk),
      ih fun b hb => hm b (List.mem_cons_of_mem a hb)⟩

namespace Engine

variable {e e' e'' : Engine} {i j k : LevelKey} {id : NodeId} {n : NodeKey} {key : CallKey} {c : Call}

theorem renewed_creations (k : LevelKey) (config : FlowConfig) (order : List Nat) {rest : List Action}
    (hr : Renewed rest) : Renewed (creations k config order ++ [.refresh k] ++ rest) := by
  rw [List.append_assoc]
  refine renewed_append (fun a ha j hj => ?_) ⟨(fun j hj => by cases hj), hr⟩
  obtain ⟨r, -, rfl⟩ := mem_creations ha
  cases hj
  exact List.mem_cons_self

/-! ## Steps by which no receiver comes or goes -/

/-- No receiver comes or goes and no table changes, but for new levels with neither. -/
structure Steady (e e' : Engine) : Prop where
  tables : ∀ j, e'.hearing? j = e.hearing? j ∨ e'.hearing? j = some (.none, [])
  awake : Awake e → Awake e'
  waiting : SameWaiting e e'

theorem attuned_of_bare (h : e.hearing? j = some (.none, [])) : e.Attuned j := by
  intro rs records hj
  rw [h] at hj
  cases hj
  rfl

namespace Steady

theorem refl (e : Engine) : Steady e e := ⟨fun _ => .inl rfl, id, fun _ => rfl⟩

theorem trans (h : Steady e e') (h' : Steady e' e'') : Steady e e'' := by
  refine ⟨fun j => ?_, h'.awake ∘ h.awake, h.waiting.trans h'.waiting⟩
  rcases h'.tables j with hj | hj
  · exact (h.tables j).imp hj.trans hj.trans
  · exact .inr hj

theorem of_eq (hl : e'.levels = e.levels) (hn : e'.nodes = e.nodes) (hw : SameWaiting e e') : Steady e e' := by
  have hlevel (j : LevelKey) : e'.level? j = e.level? j := by rw [level?, level?, hl]
  have hnode (n : NodeKey) : e'.node? n = e.node? n := by rw [node?, node?, hn]
  refine ⟨fun j => .inl (hearing?_congr (by rw [hlevel]) fun n => by rw [hnode]), fun ha => ?_, hw⟩
  exact ha.of_active (fun n => (isActive_of_levels hlevel n).mp) fun n _ => by rw [hnode]

theorem still (h : e'.still = e.still) : Steady e e' :=
  ⟨fun j => .inl (hearing?_of_still h j), fun ha => ha.still h, sameWaiting_of_calls (calls_of_still h)⟩

theorem modifyLevel (e : Engine) (k : LevelKey) (f : Level → Level)
    (hf : ∀ l, (f l).receivers = l.receivers ∧ (f l).active = l.active) : Steady e (e.modifyLevel k f) :=
  ⟨fun j => .inl (hearing?_modifyLevel e k f hf j), fun ha => ha.modifyLevel k f fun l => (hf l).2, fun _ => rfl⟩

theorem modifyCall (e : Engine) (key : CallKey) (f : Call → Call) (hf : ∀ c, (f c).waiting = c.waiting) :
    Steady e (e.modifyCall key f) := of_eq rfl rfl (sameWaiting_modifyCall e key f hf)

theorem proceed (e : Engine) (key : CallKey) (stages : List Stage) : Steady e (e.proceed key stages) :=
  of_eq rfl rfl (sameWaiting_proceed e key stages)

theorem refuse (e : Engine) (key : CallKey) (fault : FlowFault) : Steady e (e.refuse key fault) :=
  of_eq rfl rfl (sameWaiting_refuse e key fault)

theorem hold (e : Engine) (key : CallKey) (levels : List LevelKey) : Steady e (e.hold key levels) :=
  of_eq rfl rfl (sameWaiting_hold e key levels)

theorem addLevel (e : Engine) {l : Level} (hr : l.receivers = .none) (ha : l.active = []) :
    Steady e (e.addLevel l).1 := by
  have hlevel (j : LevelKey) := level?_addLevel e j l
  refine ⟨fun j => ?_, fun hawake => ?_, fun _ => rfl⟩
  · by_cases hj : j = e.levels.size
    · refine .inr ?_
      simp [hearing?, hlevel, hj, hr, ha, receiverRecords, Dict.values]
    · exact .inl (hearing?_congr (by rw [hlevel, if_neg hj]) fun _ => rfl)
  · refine hawake.of_active (fun n => ?_) fun _ _ => rfl
    rintro ⟨j, id, hn⟩
    rw [activeKey?, hlevel] at hn
    split at hn
    · rw [Option.bind_some, ha] at hn
      cases hn
    · exact ⟨j, id, hn⟩

theorem rewires (h : Rewires e e') : Steady e e' := by
  refine h.invariant (P := Steady e) (fun s s' hs ht => hs.trans ?_) (.refl e)
  cases ht with
  | note notes => exact of_eq rfl rfl fun _ => rfl
  | wires n wires =>
    have hn (m : NodeKey) : ((s.modifyNode n fun n => { n with dispatch := .ofWires wires }).node? m).map
        (fun n => (n.record, n.cancelled)) = (s.node? m).map fun n => (n.record, n.cancelled) := by
      rw [node?_modifyNode]
      split
      · rw [Option.map_map]
        rfl
      · rfl
    have hpart {α : Type} (f : Record × Bool → α) (m : NodeKey) := congrArg (Option.map f) (hn m)
    simp only [Option.map_map] at hpart
    exact ⟨fun j => .inl (hearing?_congr rfl (hpart (·.1))),
      fun ha => ha.of_active (fun _ h => h) fun m _ => hpart (·.2) m, fun _ => rfl⟩
  | nodes inst nodes _ => exact .modifyLevel s inst _ fun _ => ⟨rfl, rfl⟩
  | breaks => exact of_eq rfl rfl fun _ => rfl

theorem activated (e : Engine) (k : LevelKey) (c : FlowConfig) (order : List Nat) :
    Steady e (e.activated k c order) :=
  (modifyLevel e k (fun l => { l with env := Scope.evaluate (e.settingAround k) c.env }) fun _ => ⟨rfl, rfl⟩).trans
    (of_eq rfl rfl fun _ => rfl)

theorem failCreation (e : Engine) (k : LevelKey) (r : Record) (fault : NodeFault) :
    Steady e (e.failCreation k r fault) := by
  unfold Engine.failCreation
  split
  · exact .refl e
  · exact (still (quiet_publish _ _).still).trans (.modifyLevel _ _ _ fun _ => ⟨rfl, rfl⟩)

theorem withInstance (e : Engine) (k : LevelKey) (l : Level) (b : Binding) (nodes : List Record) :
    Steady e (e.withInstance k l b nodes) := by
  have h : Steady e { e with nextPrivate := e.nextPrivate + Binding.idsNeeded b.template } :=
    of_eq rfl rfl fun _ => rfl
  exact h.trans (addLevel _ rfl rfl)

theorem rewired (e : Engine) (k : LevelKey) (config : FlowConfig) (diff : Option Diff) :
    Steady e (e.rewired k config diff) := by
  unfold Engine.rewired
  refine Steady.trans ?_ (.modifyLevel _ _ _ fun _ => ⟨rfl, rfl⟩)
  cases diff with
  | none => exact .refl e
  | some d => exact rewires (rewires_rewire _ _ _ _)

end Steady

/-! ## The stages of a call that stop nothing -/

theorem renewed_resume (hp : e.plan = []) (key : CallKey) : Renewed (e.push [.resume key]).plan := by
  rw [plan_push, hp]
  exact ⟨(fun _ h => by cases h), trivial⟩

theorem Starts.steady {diff : Option Diff} (h : Starts e key k diff e') (hp : e.plan = []) :
    Steady e e' ∧ Renewed e'.plan := by
  cases h with
  | nowhere => exact ⟨.proceed _ _ _, renewed_resume hp key⟩
  | refused => exact ⟨.refuse _ _ _, renewed_resume hp key⟩
  | fresh =>
    exact ⟨(Steady.modifyLevel e k (fun l => { l with failures := [] }) fun _ => ⟨rfl, rfl⟩).trans (.proceed _ _ _),
      renewed_resume hp key⟩
  | again => exact ⟨.proceed _ _ _, renewed_resume hp key⟩

theorem Applies.steady {config : FlowConfig} {diff : Option Diff} (h : Applies e key k config diff e')
    (hp : e.plan = []) : Steady e e' ∧ Renewed e'.plan := by
  have hr := Steady.rewired e k config diff
  have hplan : ((e.rewired k config diff).push [.announce k, .resume key]).plan = [.resume key] := by
    rw [plan_push, plan_rewired hp k config diff]
    rfl
  have hpush : Steady (e.rewired k config diff) ((e.rewired k config diff).push [.announce k, .resume key]) :=
    .of_eq rfl rfl fun _ => rfl
  have hresume : Renewed [.resume key] := ⟨(fun _ h => by cases h), trivial⟩
  cases h with
  | nowhere =>
    refine ⟨hr.trans hpush, ?_⟩
    rw [hplan]
    exact hresume
  | activates =>
    refine ⟨(hr.trans hpush).trans (.activated _ _ _ _), ?_⟩
    rw [plan_activated, hplan]
    exact renewed_creations _ _ _ hresume
  | refused => exact ⟨hr.trans (.refuse _ _ _), renewed_resume (plan_rewired hp k config diff) key⟩

theorem steady_startAll (hp : e.plan = []) (key : CallKey) (next : Deployment) :
    Steady e (e.startAll key next) ∧ Renewed (e.startAll key next).plan := by
  unfold startAll
  split
  · exact ⟨.refuse _ _ _, renewed_resume hp key⟩
  · have hl : Steady e (e.addLevel (.make .global none next.global)).1 := .addLevel e rfl rfl
    have hg : Steady (e.addLevel (.make .global none next.global)).1
        { (e.addLevel (.make .global none next.global)).1 with
          global := some (e.addLevel (.make .global none next.global)).2 } := .of_eq rfl rfl fun _ => rfl
    exact ⟨((hl.trans hg).trans (.hold _ _ _)).trans (.proceed _ _ _), renewed_resume hp key⟩

theorem steady_startTab (hp : e.plan = []) (key : CallKey) (config : FlowConfig) (listed : Bool) :
    Steady e (e.startTab key config listed) ∧ Renewed (e.startTab key config listed).plan := by
  unfold startTab
  split
  · exact ⟨.proceed _ _ _, renewed_resume hp key⟩
  · have hl : Steady e (e.addLevel (.make .tab none config)).1 := .addLevel e rfl rfl
    exact ⟨(hl.trans (.hold _ _ _)).trans (.proceed _ _ _), renewed_resume hp key⟩

/-- No receiver comes or goes by a stage that begins no stops. -/
theorem steady_runStage (hp : e.plan = []) (key : CallKey) {stage : Stage} (hs : stage.requests? e = none) :
    Steady e (e.runStage key stage) ∧ Renewed (e.runStage key stage).plan := by
  have hsame {s : Engine} (hl : s.levels = e.levels) (hn : s.nodes = e.nodes) (hc : s.calls = e.calls)
      (ha : s.agenda = e.agenda) (stages : List Stage) :
      Steady e (s.proceed key stages) ∧ Renewed (s.proceed key stages).plan := by
    refine ⟨(Steady.of_eq hl hn (sameWaiting_of_calls hc)).trans (.proceed _ _ _),
      renewed_resume (e := s.modifyCall key _) ?_ key⟩
    change s.agenda.filter _ = []
    rw [ha]
    exact hp
  cases stage with
  | stop requests => cases hs
  | stopAmong levels ids removed => cases hs
  | start k diff => exact (starts_start e key k diff).steady hp
  | apply k config diff => exact (applies_apply e key k config diff).steady hp
  | update k config =>
    exact ⟨(Steady.modifyLevel e k (fun l => { l with config }) fun _ => ⟨rfl, rfl⟩).trans (.proceed _ _ _),
      renewed_resume hp key⟩
  | deployNodes previous next diff =>
    exact ⟨(Steady.hold e key _).trans (.proceed _ _ _), renewed_resume hp key⟩
  | stopAll =>
    have hst : Steady e { e with flows := [], global := none } := .of_eq rfl rfl fun _ => rfl
    exact ⟨(hst.trans (.hold _ key _)).trans (.proceed _ _ _), renewed_resume hp key⟩
  | startAll next => exact steady_startAll hp key next
  | startTab config listed => exact steady_startTab hp key config listed
  | enlist k => exact hsame (s := { e with flows := e.flows ++ [k] }) rfl rfl rfl rfl []
  | gather k =>
    exact ⟨(Steady.modifyCall e key (fun c => { c with gathered := c.gathered ++ [k] }) fun _ => rfl).trans
      (.proceed _ _ _), renewed_resume hp key⟩
  | enlistGathered =>
    rw [runStage_enlistGathered]
    exact hsame (s := { e with flows := e.gathered key }) rfl rfl rfl rfl []
  | commit next => exact hsame (s := { e with deployed := some next }) rfl rfl rfl rfl []
  | withdraw => exact hsame (s := { e with deployed := none }) rfl rfl rfl rfl []
  | stuck =>
    refine ⟨.modifyCall e key (fun c => { c with stages := .stuck :: c.stages }) fun _ => rfl, ?_⟩
    change Renewed e.plan
    rw [hp]
    trivial

/-! ## The making of nodes -/

theorem mem_receiverRecords {l : Level} {r : Record} : r ∈ e.receiverRecords l ↔
    ∃ n ∈ l.active.values, (e.node? n).map (·.record) = some r ∧ isReceiverType r.type = true := by
  unfold receiverRecords
  simp only [List.mem_filterMap, List.mem_mergeSort, Option.filter_eq_some_iff]

/-- Receivers may come to one level. -/
structure Admission (e e' : Engine) (k : LevelKey) : Prop where
  tables : ∀ j, j ≠ k → e'.hearing? j = e.hearing? j ∨ e'.hearing? j = some (.none, [])
  sound : e.Sound k → e'.Sound k
  awake : Awake e → Awake e'
  waiting : SameWaiting e e'

theorem sound_of_steady (h : e'.hearing? j = e.hearing? j ∨ e'.hearing? j = some (.none, [])) (hs : e.Sound j) :
    e'.Sound j := by
  rcases h with h | h
  · exact sound_of_hearing h hs
  · exact (attuned_of_bare h).sound

theorem attuned_of_steady (h : e'.hearing? j = e.hearing? j ∨ e'.hearing? j = some (.none, [])) (ha : e.Attuned j) :
    e'.Attuned j := by
  rcases h with h | h
  · exact attuned_of_hearing h ha
  · exact attuned_of_bare h

theorem Steady.admission (h : Steady e e') (k : LevelKey) : Admission e e' k :=
  ⟨fun j _ => h.tables j, sound_of_steady (h.tables k), h.awake, h.waiting⟩

theorem Steady.andAdmission (h : Steady e e') (h' : Admission e' e'' k) : Admission e e'' k := by
  refine ⟨fun j hj => ?_, h'.sound ∘ sound_of_steady (h.tables k), h'.awake ∘ h.awake, h.waiting.trans h'.waiting⟩
  rcases h'.tables j hj with hj' | hj'
  · exact (h.tables j).imp hj'.trans hj'.trans
  · exact .inr hj'

/-- The entries of active nodes are in order, and lead to nodes. -/
def Peopled (e : Engine) : Prop :=
  ∀ j l, e.level? j = some l → l.active.Sorted ∧ ∀ n ∈ l.active.values, ∃ node, e.node? n = some node

theorem Laid.peopled (h : Laid e) : Peopled e := by
  intro j l hl
  refine ⟨(h j l hl).sortedActive, fun n hm => ?_⟩
  obtain ⟨id, hid⟩ := Dict.exists_key_of_mem_values (h j l hl).sortedActive hm
  obtain ⟨node, hnode, -⟩ := (h j l hl).active id n hid
  exact ⟨node, hnode⟩

theorem Peopled.modifyLevel (h : Peopled e) (k : LevelKey) (f : Level → Level) (hf : ∀ l, (f l).active = l.active) :
    Peopled (e.modifyLevel k f) := by
  intro j l' hl'
  rw [level?_modifyLevel] at hl'
  split at hl'
  · obtain ⟨l, hl, rfl⟩ := Option.map_eq_some_iff.mp hl'
    rw [hf]
    exact h j l hl
  · exact h j l' hl'

/-- A node that is entered where there is none takes no place of a receiver. -/
theorem admission_enter (hl : Peopled e) {r : Record} (hk : e.Admits k r.id) (hn : e.activeKey? k r.id = none)
    (part : Part) : Admission e (e.enter k r part) k := by
  have hold {n : NodeKey} {node : Node} (h : e.node? n = some node) : (e.enter k r part).node? n = some node := by
    rw [node?_enter, if_neg (Nat.ne_of_lt (node?_lt e n h)), h]
  have hret := retains_enter hk hn part
  refine ⟨fun j hj => .inl ?_, fun hs rs records hj => ?_, fun ha n node hact hnode => ?_, ?_⟩
  · have hlevel := level?_enter e j k r part
    rw [if_neg (Ne.symm hj)] at hlevel
    unfold hearing?
    rw [hlevel]
    cases hj' : e.level? j with
    | none => rfl
    | some l =>
      refine congrArg (fun records => some (l.receivers, records)) (receiverRecords_congr rfl fun n hm => ?_)
      obtain ⟨node, hnode⟩ := (hl j l hj').2 n hm
      rw [hold hnode, hnode]
  · unfold hearing? at hj
    rw [level?_enter, if_pos rfl, Option.map_map, Option.map_eq_some_iff] at hj
    obtain ⟨l, hl', he⟩ := hj
    obtain ⟨rfl, rfl⟩ := Prod.mk.inj he
    intro reporting signal id hid
    obtain ⟨r', hr', rfl⟩ := List.mem_map.mp (hs _ _ (by rw [hearing?, hl']; rfl) reporting signal id hid)
    obtain ⟨n, hm, hnode, htype⟩ := mem_receiverRecords.mp hr'
    obtain ⟨id, hid⟩ := Dict.exists_key_of_mem_values (hl k l hl').1 hm
    obtain ⟨node, hnode', hrec⟩ := Option.map_eq_some_iff.mp hnode
    have hne : r.id ≠ id := by
      rintro rfl
      rw [activeKey?, hl', Option.bind_some, hid] at hn
      cases hn
    refine List.mem_map_of_mem (mem_receiverRecords.mpr ⟨n, ?_, ?_, htype⟩)
    · have hkept : (l.active.insert r.id e.nodes.size).get? id = some n := by
        rw [Dict.get?_insert, if_neg hne]
        exact hid
      exact Dict.mem_values hkept
    · rw [hold hnode']
      exact congrArg some hrec
  · by_cases hlt : n < e.nodes.size
    · obtain ⟨node', hnode'⟩ : ∃ node', e.node? n = some node' := ⟨_, Array.getElem?_eq_getElem hlt⟩
      have hsame := hold hnode'
      rw [hnode] at hsame
      cases hsame
      exact ha n node ((hret.active n hlt).mp hact) hnode'
    · rw [node?_enter] at hnode
      split at hnode
      · cases hnode
        rfl
      · exact absurd (node?_lt e n hnode) hlt
  · exact sameWaiting_of_calls (calls_of_register (register_enter _ _ _ _))

theorem admission_install (hl : Laid e) {r : Record} (hk : e.Admits k r.id) (hn : e.activeKey? k r.id = none)
    (inst : LevelKey) : Admission e (e.install k r inst) k := by
  have hm : Steady e (e.modifyLevel k fun l => { l with instances := l.instances.insert r.id inst }) :=
    .modifyLevel _ _ _ fun _ => ⟨rfl, rfl⟩
  have hg : Grows e (e.modifyLevel k fun l => { l with instances := l.instances.insert r.id inst }) :=
    .modifyLevel _ _ _ fun _ => ⟨rfl, rfl, rfl⟩
  refine hm.andAdmission (admission_enter (hl.peopled.modifyLevel k
    (fun l => { l with instances := l.instances.insert r.id inst }) fun _ => rfl) (hg.admits hk) ?_ _)
  rw [activeKey?_modifyLevel, if_pos rfl]
  exact hn

theorem Opens.steady {usage : Record} {t : Template} (h : Opens e k usage t e') : Steady e e' := by
  cases h with
  | nowhere => exact .refl e
  | breaks => exact .of_eq rfl rfl fun _ => rfl
  | @collapses l nodes fault hl hx ho => exact (Steady.withInstance e k l _ nodes).trans (.failCreation _ _ _ _)
  | @opens l nodes order hl hx ho =>
    have hp : Steady e ((e.withInstance k l (Binding.make t usage e.nextPrivate) nodes).push
        [.install k usage e.levels.size]) := (Steady.withInstance e k l _ nodes).trans (.of_eq rfl rfl fun _ => rfl)
    exact hp.trans (.activated _ _ _ _)

theorem Creates.admission {r : Record} {templates : Templates} (h : Creates e k r templates e') (hl : Laid e)
    (hk : e.Admits k r.id) : Admission e e' k := by
  cases h with
  | present => exact (Steady.refl e).admission k
  | noTemplate => exact (Steady.failCreation _ _ _ _).admission k
  | refused => exact (Steady.failCreation _ _ _ _).admission k
  | @made part notes hn hu hb =>
    have hs : Steady e (e.note notes) := .still (quiet_note _ _).still
    exact hs.andAdmission (admission_enter (e := e.note notes) (r := e.resolvedAt k r)
      (hl.still (quiet_note _ _).still).peopled hk hn part)
  | usage hn hu ht ho => exact ho.steady.admission k

/-- A new instance has its nodes made, and its table built, before its usage node is entered. -/
theorem Opens.renewed {usage : Record} {t : Template} (h : Opens e k usage t e') (hr : Renewed e.plan)
    (hk : .refresh k ∈ e.plan) (hb : e'.broken = false) : Renewed e'.plan ∧ e.plan ⊆ e'.plan := by
  cases h with
  | nowhere => exact ⟨hr, List.Subset.refl _⟩
  | breaks => cases hb
  | collapses =>
    rw [plan_failCreation]
    exact ⟨hr, List.Subset.refl _⟩
  | @opens l nodes order hl hx ho =>
    have hplan : (e.opened k l (Binding.make t usage e.nextPrivate) nodes order).plan =
        creations e.levels.size (instanceLevel k l (Binding.make t usage e.nextPrivate) nodes).config order ++
          [.refresh e.levels.size] ++ .install k usage e.levels.size :: e.plan := by
      unfold opened
      rw [plan_activated, plan_push]
      rfl
    rw [hplan]
    refine ⟨renewed_creations _ _ _ ⟨fun j hj => ?_, hr⟩, fun a ha => ?_⟩
    · cases hj
      exact hk
    · exact List.mem_append_right _ (List.mem_cons_of_mem _ ha)

theorem Creates.renewed {r : Record} {templates : Templates} (h : Creates e k r templates e') (hr : Renewed e.plan)
    (hk : .refresh k ∈ e.plan) (hb : e'.broken = false) : Renewed e'.plan ∧ e.plan ⊆ e'.plan := by
  have hsame {e' : Engine} (hp : e'.plan = e.plan) : Renewed e'.plan ∧ e.plan ⊆ e'.plan := by
    rw [hp]
    exact ⟨hr, List.Subset.refl _⟩
  cases h with
  | present => exact hsame rfl
  | noTemplate => exact hsame (plan_failCreation _ _ _ _)
  | refused => exact hsame (plan_failCreation _ _ _ _)
  | made => exact hsame (plan_enter _ _ _ _)
  | usage hn hu ht ho => exact ho.renewed hr hk hb

/-! ## Stops of a call -/

/-- The levels that stops of a call are stopping. -/
def stopped (stops : List Stopping) : List LevelKey := stops.flatMap Stopping.levels

theorem unseats_beginStops (key : CallKey) (requests : List StopRequest) (s : Engine × List Stopping)
    (h : Unseats e s.1 (stopped s.2)) :
    Unseats e (beginStops key s requests).1 (stopped (beginStops key s requests).2) := by
  induction requests generalizing s with
  | nil => exact h
  | cons r rs ih =>
    have hr := unseats_beginStop key (s.1.levelCount + 1) s.1 r h.laid
    refine ih ((s.1.stop key r).1, s.2 ++ [(s.1.stop key r).2]) ((h.trans hr).mono ?_)
    simp [stopped, stop]

theorem resettles_pollStops (key : CallKey) (stops : List Stopping) (s : Engine × List Stopping) :
    Resettles s.1 (pollStops key s stops).1 (stopped (s.2 ++ stops)) (stopped (pollStops key s stops).2) := by
  induction stops generalizing s with
  | nil =>
    rw [List.append_nil]
    exact .of_silent (.refl _)
  | cons stop stops ih =>
    have hp := resettles_pollStop key s.1 stop
    have hrest := ih ((pollStop key s.1 stop).1, s.2 ++ [(pollStop key s.1 stop).2])
    refine ⟨fun j => ?_, hrest.awake ∘ hp.awake⟩
    rcases hrest.tables j with hj | ⟨hj, hm⟩
    · exact .inl hj
    · rcases hp.tables j with hj' | ⟨hj', hm'⟩
      · exact .inl (attuned_of_hearing hj hj')
      · refine .inr ⟨hj.trans hj', fun hin => hm ?_⟩
        simp only [stopped, List.flatMap_append, List.flatMap_cons, List.flatMap_nil, List.append_nil,
          List.mem_append] at hin ⊢
        rcases hin with hin | hin | hin
        · exact .inl (.inl hin)
        · exact .inl (.inr (hm' hin))
        · exact .inr hin

theorem stopped_eq_nil {stops : List Stopping} (h : ¬(reports stops).length < stops.length) : stopped stops = [] := by
  induction stops with
  | nil => rfl
  | cons s stops ih =>
    have hle : (reports stops).length ≤ stops.length := List.length_filterMap_le _ _
    cases s with
    | finished report =>
      have : (reports (.finished report :: stops)).length = (reports stops).length + 1 := rfl
      rw [this, List.length_cons] at h
      have := ih (by omega)
      simpa [stopped, Stopping.levels] using this
    | running k full previous backward closings =>
      have : (reports (.running k full previous backward closings :: stops)).length = (reports stops).length := rfl
      rw [this, List.length_cons] at h
      omega

/-! ## The invariant -/

/-- What tables and receivers have to do with each other. -/
structure Informed (e : Engine) : Prop where
  /-- A table is right, or will be built anew. -/
  tuned : e.broken = false → ∀ j, e.Attuned j ∨ .refresh j ∈ e.plan ∨ e.UnderStop j
  renewed : e.broken = false → Renewed e.plan
  sound : ∀ j, e.Sound j ∨ e.UnderStop j
  awake : Awake e

theorem SameWaiting.underStop (h : SameWaiting e e') (hj : e.UnderStop j) : e'.UnderStop j := by
  obtain ⟨i, c, hc, s, hs, hjs⟩ := hj
  have hw := h i
  rw [hc] at hw
  obtain ⟨c', hc', he⟩ := Option.map_eq_some_iff.mp hw
  exact ⟨i, c', hc', s, he ▸ hs, hjs⟩

/-- A step by which no receiver comes or goes. -/
theorem Informed.steady (h : Informed e) (hs : Steady e e') (hb : e'.broken = false → e.broken = false)
    (hp : ∀ j, .refresh j ∈ e.plan → .refresh j ∈ e'.plan) (hr : e'.broken = false → Renewed e'.plan) :
    Informed e' := by
  refine ⟨fun hb' j => ?_, hr, fun j => ?_, hs.awake h.awake⟩
  · rcases h.tuned (hb hb') j with hj | hj | hj
    · exact .inl (attuned_of_steady (hs.tables j) hj)
    · exact .inr (.inl (hp j hj))
    · exact .inr (.inr (hs.waiting.underStop hj))
  · exact (h.sound j).imp (sound_of_steady (hs.tables j)) hs.waiting.underStop

/-- The next stage of a call, which begins when nothing is planned. -/
theorem Informed.staged (h : Informed e) (hb : e.broken = false) (hp : e.plan = [])
    (hs : Steady e e' ∧ Renewed e'.plan) : Informed e' := by
  refine h.steady hs.1 (fun _ => hb) (fun j hj => ?_) fun _ => hs.2
  rw [hp] at hj
  cases hj

/-- A call takes up the stops that it has begun or gone on with. -/
theorem Informed.proceeds {e₁ : Engine} {stops : List Stopping} (h : Informed e) (hb : e.broken = false)
    (hp : e.plan = []) (hc : e.call? key = some c) (hcalls : e₁.calls = e.calls) (hp₁ : e₁.plan = [])
    (ht : ∀ j, e₁.Attuned j ∨ j ∈ stopped stops ∨
      e₁.hearing? j = e.hearing? j ∧ (j ∈ stopped c.waiting → j ∈ stopped stops))
    (ha : Awake e₁) (h' : Proceeds e₁ key stops e') : Informed e' := by
  -- what a call still stops remains with the call, and the stops of others go on as they were
  have hunder (f : Call → Call) (hf : ∀ j, j ∈ stopped stops → j ∈ stopped (f c).waiting) (j : LevelKey) :
      j ∈ stopped stops ∨ e.UnderStop j ∧ (j ∈ stopped c.waiting → j ∈ stopped stops) →
        (e₁.modifyCall key f).UnderStop j := by
    have hown (hj : j ∈ stopped stops) : (e₁.modifyCall key f).UnderStop j := by
      obtain ⟨s, hs, hjs⟩ := List.mem_flatMap.mp (hf j hj)
      refine ⟨key, f c, ?_, s, hs, hjs⟩
      rw [call?_modifyCall, if_pos rfl, call?_of_calls hcalls, hc]
      rfl
    rintro (hj | ⟨⟨i, c', hc', s, hs, hjs⟩, hm⟩)
    · exact hown hj
    · by_cases hi : key = i
      · subst hi
        rw [hc] at hc'
        cases hc'
        exact hown (hm (List.mem_flatMap.mpr ⟨s, hs, hjs⟩))
      · refine ⟨i, c', ?_, s, hs, hjs⟩
        rw [call?_modifyCall, if_neg hi, call?_of_calls hcalls]
        exact hc'
  have hbefore (j : LevelKey) : e.Attuned j ∨ e.UnderStop j := by
    rcases h.tuned hb j with hj | hj | hj
    · exact .inl hj
    · rw [hp] at hj
      cases hj
    · exact .inr hj
  have hkey (f : Call → Call) (hf : ∀ j, j ∈ stopped stops → j ∈ stopped (f c).waiting) (j : LevelKey) :
      (e₁.modifyCall key f).Attuned j ∨ (e₁.modifyCall key f).UnderStop j := by
    rcases ht j with hj | hj | ⟨hj, hm⟩
    · exact .inl hj
    · exact .inr (hunder f hf j (.inl hj))
    · rcases hbefore j with hj' | hj'
      · exact .inl (attuned_of_hearing (e := e) hj hj')
      · exact .inr (hunder f hf j (.inr ⟨hj', hm⟩))
  have hnext {s : Engine} (hs : ∀ j, s.Attuned j ∨ s.UnderStop j) (haw : Awake s) (hr : Renewed s.plan) : Informed s :=
    ⟨fun _ j => (hs j).imp_right .inr, fun _ => hr, fun j => (hs j).imp_left Attuned.sound, haw⟩
  cases h' with
  | waits hlt hsil =>
    refine hnext (fun j => ?_) (Awake.still (e := e₁.modifyCall key _) ha hsil.still) ?_
    · refine (hkey (fun c => { c with waiting := stops }) (fun _ h => h) j).imp (fun hj => ?_) fun hj => ?_
      · exact attuned_of_hearing (hearing?_of_still hsil.still j) hj
      · exact (sameWaiting_of_calls (calls_of_still hsil.still)).underStop hj
    · have hplan : e'.plan = [] := by
        unfold plan
        rw [hsil.agenda]
        exact hp₁
      rw [hplan]
      trivial
  | done hlt =>
    refine hnext (fun j => hkey (fun c =>
      { c with waiting := [], report := (reports stops).foldl (· ++ ·) c.report }) (fun j hj => ?_) j) ha ?_
    · rw [stopped_eq_nil hlt] at hj
      cases hj
    · exact renewed_resume (e := e₁.modifyCall key _) hp₁ key

theorem Informed.stopAll (h : Informed e) (hl : Laid e) (hb : e.broken = false) (hp : e.plan = [])
    (hc : e.call? key = some c) (hw : c.waiting = []) (requests : List StopRequest) :
    Informed (e.stopAll key requests) := by
  have hst := stops_beginStops key (e, []) requests
  have hu := unseats_beginStops key requests (e, []) (e := e) (.of_silent (.refl e) hl)
  rw [stopAll_eq]
  refine h.proceeds hb hp hc (calls_of_shell hst.shell) (hst.plan.trans hp) (fun j => ?_) (hu.awake h.awake)
    (proceeds_afterStops _ _ _)
  refine (hu.tables j).imp_right (Or.imp_right fun hj => ⟨hj, fun hm => ?_⟩)
  rw [hw] at hm
  cases hm

theorem Informed.pollAll (h : Informed e) (hb : e.broken = false) (hp : e.plan = []) (hc : e.call? key = some c) :
    Informed (e.pollAll key c.waiting) := by
  have hst := stops_pollStops key (e, []) c.waiting
  have hr := resettles_pollStops key c.waiting (e, [])
  rw [pollAll_eq]
  exact h.proceeds hb hp hc (calls_of_shell hst.shell) (hst.plan.trans hp)
    (fun j => (hr.tables j).imp_right .inr) (hr.awake h.awake) (proceeds_afterStops _ _ _)

theorem Informed.resumes (h : Informed e) (hl : Laid e) (hb : e.broken = false) (hp : e.plan = [])
    (hr : Resumes e key e') : Informed e' := by
  have hcall (f : Call → Call) (hf : ∀ c, (f c).waiting = c.waiting) : Informed (e.modifyCall key f) := by
    refine h.staged hb hp ⟨.modifyCall e key f hf, ?_⟩
    change Renewed e.plan
    rw [hp]
    trivial
  cases hr with
  | unknown => exact h
  | ends => exact hcall _ fun _ => rfl
  | @stage c stage rest hc hw hs =>
    have h₀ := hcall (fun c => { c with stages := rest }) fun _ => rfl
    have hc₀ : (e.modifyCall key fun c => { c with stages := rest }).call? key = some { c with stages := rest } := by
      rw [call?_modifyCall, if_pos rfl, hc]
      rfl
    cases hrq : stage.requests? (e.modifyCall key fun c => { c with stages := rest }) with
    | some requests =>
      rw [runStage_of_requests? hrq]
      exact h₀.stopAll (hl.of_levels (.of_eq rfl rfl rfl rfl) fun _ => rfl) hb hp hc₀ hw requests
    | none => exact h₀.staged hb hp (steady_runStage (e := e.modifyCall key fun c => { c with stages := rest }) hp key hrq)
  | waits hc hw => exact h.pollAll hb hp hc

/-! ## Every step keeps it -/

/-- Work that is taken off the agenda and builds no table. -/
theorem Informed.pop (h : Informed e) {a : Action} {rest : List Action} (ha : e.agenda = a :: rest)
    (hq : a.isQuiet = false) (hr : ∀ j, a ≠ .refresh j) : Informed { e with agenda := rest } := by
  have hs : Steady e { e with agenda := rest } := .of_eq rfl rfl fun _ => rfl
  have hplan := plan_pop ha hq
  refine h.steady hs id (fun j hj => ?_) fun hb => ?_
  · rw [hplan] at hj
    exact (List.mem_cons.mp hj).resolve_left fun hj => hr j hj.symm
  · have hren := h.renewed hb
    rw [hplan] at hren
    exact hren.2

/-- A receiver may come to a level whose table will be built anew. -/
theorem Informed.admits (h : Informed e) (had : Admission e e' k) (hb : e.broken = false) (hk : .refresh k ∈ e.plan)
    (hp : e'.broken = false → Renewed e'.plan ∧ e.plan ⊆ e'.plan) : Informed e' := by
  refine ⟨fun hb' j => ?_, fun hb' => (hp hb').1, fun j => ?_, had.awake h.awake⟩
  · by_cases hj : j = k
    · exact .inr (.inl (hj ▸ (hp hb').2 hk))
    · rcases h.tuned hb j with hj' | hj' | hj'
      · exact .inl (attuned_of_steady (had.tables j hj) hj')
      · exact .inr (.inl ((hp hb').2 hj'))
      · exact .inr (.inr (had.waiting.underStop hj'))
  · refine (h.sound j).imp (fun hj => ?_) had.waiting.underStop
    by_cases hjk : j = k
    · subst hjk
      exact had.sound hj
    · exact sound_of_steady (had.tables j hjk) hj

/-- A table is built anew. -/
theorem Informed.refresh (h : Informed e) (hb : e.broken = false) {rest : List Action}
    (ha : e.agenda = .refresh k :: rest) : Informed (({ e with agenda := rest } : Engine).refresh k) := by
  have hs : Steady e { e with agenda := rest } := .of_eq rfl rfl fun _ => rfl
  have hst : Stops { e with agenda := rest } (({ e with agenda := rest } : Engine).refresh k) := stops_refresh _ k
  have hw : SameWaiting e (({ e with agenda := rest } : Engine).refresh k) :=
    hs.waiting.trans (sameWaiting_of_calls (calls_of_shell hst.shell))
  have hplan := plan_pop ha rfl
  have hren := h.renewed hb
  have htuned := h.tuned hb
  rw [hplan] at hren htuned
  refine ⟨fun _ j => ?_, fun _ => hst.plan ▸ hren.2, fun j => ?_, (hs.awake h.awake).refresh k⟩
  · rcases htuned j with hj | hj | hj
    · exact .inl ((attuned_of_steady (hs.tables j) hj).refresh k)
    · rcases List.mem_cons.mp hj with hj | hj
      · cases hj
        exact .inl (attuned_refresh _ k)
      · exact .inr (.inl (hst.plan ▸ hj))
    · exact .inr (.inr (hw.underStop hj))
  · refine (h.sound j).imp (fun hj => ?_) hw.underStop
    by_cases hk : k = j
    · subst hk
      exact (attuned_refresh _ k).sound
    · exact sound_of_hearing (hearing?_refresh _ hk) (sound_of_steady (hs.tables j) hj)

theorem Informed.tick (hr : Reachable e) (h : Informed e) (ht : Tick e e') : Informed e' := by
  have hstill (hs : e'.still = e.still) (hb : e'.broken = false) : e.broken = false :=
    (broken_of_still hs).symm.trans hb
  rcases ht.kinds with ⟨hs, hp⟩ | ⟨key, ha, hs, ha'⟩ | ⟨a, rest, hb, hq, ha, rfl⟩
  · exact h.steady (.still hs) (hstill hs) (fun j hj => hp ▸ hj) fun hb => hp ▸ h.renewed (hstill hs hb)
  · refine h.steady (.still hs) (hstill hs) (fun j hj => ?_) fun _ => ?_
    · simp [plan, ha] at hj
    · rw [plan, ha']
      exact ⟨(fun _ h => by cases h), trivial⟩
  · have hmem : a ∈ e.plan := by simp [plan, ha, hq]
    have hren := h.renewed hb
    rw [plan_pop ha hq] at hren
    have hg : Grows e { e with agenda := rest } := .of_eq rfl rfl rfl rfl
    have hlaid : Laid ({ e with agenda := rest } : Engine) := hr.layout.laid.of_levels hg fun _ => rfl
    have hapt := hg.apt (hr.layout.makes a hmem)
    cases a with
    | create k r templates =>
      have hc := creates_create { e with agenda := rest } k r templates
      exact (h.pop ha hq (fun _ h => by cases h)).admits (hc.admission hlaid hapt.2) hb (hren.1 k rfl) fun hb' =>
        hc.renewed hren.2 (hren.1 k rfl) hb'
    | install k r inst =>
      have hp : (Engine.act { e with agenda := rest } (.install k r inst)).plan =
          ({ e with agenda := rest } : Engine).plan := plan_enter _ _ _ _
      refine (h.pop ha hq (fun _ h => by cases h)).admits
        (admission_install hlaid hapt.1 (hr.books.1.vacant k r inst hmem) inst) hb (hren.1 k rfl) fun _ => ?_
      rw [hp]
      exact ⟨hren.2, List.Subset.refl _⟩
    | refresh k => exact h.refresh hb ha
    | resume key =>
      have ho := hr.accounted.orderly
      rw [plan_pop ha hq] at ho
      exact (h.pop ha hq (fun _ h => by cases h)).resumes hlaid hb ho (resumes_resume _ _)
    | _ => cases hq

theorem Informed.input (h : Informed e) (hk : KeysBelow e) (ha : e.agenda = []) (hi : Input e e') : Informed e' := by
  have hp : e.plan = [] := by
    rw [plan, ha]
    rfl
  have hsteady {s : Engine} (hs : Steady e s) (hb : s.broken = e.broken) (hps : s.plan = []) : Informed s := by
    refine h.steady hs (fun hb' => hb.symm.trans hb') (fun j hj => ?_) fun _ => ?_
    · rw [hp] at hj
      cases hj
    · rw [hps]
      trivial
  cases hi with
  | @call stages ho =>
    have hplan : (e.begin stages).1.plan = _ := (quiet_wake _ (.call e.nextCall)).plan
    have hlevels (j : LevelKey) := level?_begin e stages j
    have hnodes (n : NodeKey) := node?_begin e stages n
    -- a new call waits for nothing
    have hunder {j : LevelKey} (hj : e.UnderStop j) : (e.begin stages).1.UnderStop j := by
      obtain ⟨i, c, hc, hw⟩ := hj
      refine ⟨i, c, ?_, hw⟩
      rw [call?_begin hk, if_neg (Nat.ne_of_lt (hk _ (mem_calls_of_call? hc)))]
      exact hc
    have hhear (j : LevelKey) : (e.begin stages).1.hearing? j = e.hearing? j :=
      hearing?_congr (by rw [hlevels]) fun n => by rw [hnodes]
    have hbroken : (e.begin stages).1.broken = e.broken := by
      unfold begin wake
      dsimp only
      split <;> rfl
    refine ⟨fun hb j => ?_, fun _ => ?_, fun j => ?_, ?_⟩
    · rcases h.tuned (hbroken.symm.trans hb) j with hj | hj | hj
      · exact .inl (attuned_of_hearing (hhear j) hj)
      · rw [hp] at hj
        cases hj
      · exact .inr (.inr (hunder hj))
    · rw [hplan]
      exact hp ▸ trivial
    · exact (h.sound j).imp (sound_of_hearing (hhear j)) hunder
    · exact h.awake.of_active (fun n => (isActive_of_levels hlevels n).mp) fun n _ => by rw [hnodes]
  | quiet hq => exact hsteady (.still hq.still) (broken_of_still hq.still) (hq.plan.trans hp)
  | keep levels nodes => exact hsteady (.of_eq rfl rfl fun _ => rfl) rfl hp
  | flow => exact hsteady (.addLevel e rfl rfl) rfl hp
  | update => exact hsteady (.modifyLevel _ _ _ fun _ => ⟨rfl, rfl⟩) rfl hp

theorem Reachable.informed (h : Reachable e) : Informed e := by
  refine h.invariant (P := Informed) (fun r o s v t => ?_) (fun _ _ hr hi ht => hi.tick hr ht)
    fun _ _ hr hi ha hin => hi.input hr.keysBelow ha hin
  have hnone (j : LevelKey) : (Engine.make r o s v t).hearing? j = none := rfl
  refine ⟨fun _ j => .inl fun rs records hj => ?_, fun _ => trivial, fun j => .inl fun rs records hj => ?_,
    fun n node _ hn => ?_⟩
  · rw [hnone] at hj
    cases hj
  · rw [hnone] at hj
    cases hj
  · simp [node?, Engine.make] at hn

end Engine
end Flowgraph
