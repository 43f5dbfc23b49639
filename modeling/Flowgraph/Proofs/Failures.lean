import Flowgraph.Proofs.Accounting
import Flowgraph.Proofs.Atomicity
import Flowgraph.Proofs.Membership
import Flowgraph.Proofs.Rewiring
import Flowgraph.Proofs.Unfolding
/-! What a flow reports as failed. After a start these are the enabled nodes that are not active, and besides them those
that could not be made for an earlier configuration, if every start since has had a diff and none has had an enabled node
of that id. -/
namespace Flowgraph
namespace Engine

variable {e e' m : Engine} {j k : LevelKey} {id : NodeId} {key : CallKey} {c c' : Call} {config : FlowConfig}
  {diff : Option Diff} {base : NodeId → Prop} {p q : List Action} {r : Record}

/-! ## Failures by level -/

/-- Why a node of a level could not be made. -/
def fault? (e : Engine) (k : LevelKey) (id : NodeId) : Option NodeFault := (e.level? k).bind (·.failures.get? id)

theorem fault?_of_level? (h : e'.level? k = e.level? k) (id : NodeId) : e'.fault? k id = e.fault? k id := by
  rw [fault?, h, fault?]

theorem activeKey?_of_level? (h : e'.level? k = e.level? k) (id : NodeId) : e'.activeKey? k id = e.activeKey? k id := by
  rw [activeKey?, h, activeKey?]

/-- A change of a level that leaves its failures as they are. -/
theorem fault?_modifyLevel (e : Engine) (j : LevelKey) {f : Level → Level} (hf : ∀ l, (f l).failures = l.failures)
    (k : LevelKey) (id : NodeId) : (e.modifyLevel j f).fault? k id = e.fault? k id := by
  rw [fault?, level?_modifyLevel, fault?]
  split
  · cases e.level? k with
    | none => rfl
    | some l => exact congrArg (Dict.get? · id) (hf l)
  · rfl

theorem fault?_enter (e : Engine) (j : LevelKey) (r : Record) (part : Part) (k : LevelKey) (id : NodeId) :
    (e.enter j r part).fault? k id = if j = k ∧ r.id = id then none else e.fault? k id := by
  rw [fault?, level?_enter, fault?]
  by_cases hj : j = k
  · rw [if_pos hj]
    cases e.level? k with
    | none => simp
    | some l => simp [hj, Dict.get?_erase]
  · simp [hj]

theorem fault?_failCreation {l : Level} (hl : e.level? k = some l) (j : LevelKey) (r : Record) (fault : NodeFault)
    (id : NodeId) : (e.failCreation j r fault).fault? k id = if j = k ∧ r.id = id then some fault else e.fault? k id := by
  rw [fault?, level?_failCreation, fault?]
  by_cases hj : j = k
  · simp [hj, hl, Dict.get?_insert]
  · simp [hj]

theorem activeKey?_failCreation (e : Engine) (j : LevelKey) (r : Record) (fault : NodeFault) (k : LevelKey) (id : NodeId) :
    (e.failCreation j r fault).activeKey? k id = e.activeKey? k id := by
  rw [activeKey?, level?_failCreation, activeKey?]
  split
  · cases e.level? k <;> rfl
  · rfl

/-- Stops change no failures. -/
theorem StopsWithin.fault? {may : LevelKey → NodeId → Prop} (h : StopsWithin may e e') (k : LevelKey) (id : NodeId) :
    e'.fault? k id = e.fault? k id := by
  refine h.invariant (P := fun s => s.fault? k id = e.fault? k id) (fun s s' hs ht => Eq.trans ?_ hs) rfl
  cases ht with
  | still h _ => exact fault?_of_level? (level?_of_still h k) id
  | cancel n => rfl
  | _ => exact fault?_modifyLevel s _ (by intro; rfl) k id

/-- No node of the level has failed that is active. -/
def Sorts (e : Engine) (k : LevelKey) : Prop := ∀ id, (e.fault? k id).isSome = true → e.activeKey? k id = none

/-! ## While nodes are made -/

theorem Covered.of_makesIn? (h : Covered e p k r) (hq : ∀ a ∈ p, a.makesIn? = some k → a ∈ q) : Covered e q k r := by
  rcases h with h | ⟨ts, h⟩ | ⟨u, i, h, hid⟩
  · exact .inl h
  · exact .inr (.inl ⟨ts, hq _ h rfl⟩)
  · exact .inr (.inr ⟨u, i, hq _ h rfl, hid⟩)

/-- If the action makes a node of the level, this is one of the configuration's enabled ones. -/
def Enrols (config : FlowConfig) (k : LevelKey) : Action → Prop
  | .create j r _ => j = k → config.Enlists r.id
  | .install j u _ => j = k → config.Enlists u.id
  | _ => True

/-- A level whose nodes are made, with what is still to be made. What was reported before the start is `base`. -/
structure Making (k : LevelKey) (config : FlowConfig) (base : NodeId → Prop) (e : Engine) (p : List Action) : Prop where
  level : ∃ l, e.level? k = some l ∧ l.config = config
  sorts : Sorts e k
  blamed : ∀ id, (e.fault? k id).isSome = true → config.Enlists id ∨ base id
  kept : ∀ id, base id → ¬config.Enlists id → (e.fault? k id).isSome = true
  covered : ∀ r ∈ config.nodes, r.disabled = false → Covered e p k r ∨ (e.fault? k r.id).isSome = true
  planned : ∀ a ∈ p, Enrols config k a

namespace Making

theorem lt (h : Making k config base e p) : k < e.levels.size := by
  obtain ⟨l, hl, -⟩ := h.level
  exact level?_lt e k hl

/-- A step that does nothing in the level but with nodes of the configuration. -/
theorem step (h : Making k config base e p) (hr : Resembles k e e') (hs : Sorts e' k)
    (hf : ∀ id, ¬config.Enlists id → e'.fault? k id = e.fault? k id)
    (hc : ∀ r, Covered e p k r ∨ (e.fault? k r.id).isSome = true → Covered e' q k r ∨ (e'.fault? k r.id).isSome = true)
    (hq : ∀ a ∈ q, a ∈ p ∨ Enrols config k a) : Making k config base e' q := by
  obtain ⟨l, hl, hconfig⟩ := h.level
  obtain ⟨l', hl', ha⟩ := hr l hl
  refine ⟨⟨l', hl', ha.config.trans hconfig⟩, hs, fun id hid => ?_, fun id hb hn => ?_,
    fun r hm hd => hc r (h.covered r hm hd), fun a ha => (hq a ha).elim (h.planned a) id⟩
  · by_cases hn : config.Enlists id
    · exact .inl hn
    · rw [hf id hn] at hid
      exact h.blamed id hid
  · rw [hf id hn]
    exact h.kept id hb hn

/-- A step that leaves the failures of the level and its nodes as they are. -/
theorem aside (h : Making k config base e p) (hr : Resembles k e e') (hf : ∀ id, e'.fault? k id = e.fault? k id)
    (ha : ∀ id, e'.activeKey? k id = e.activeKey? k id)
    (hc : ∀ r, Covered e p k r → Covered e q k r) (hq : ∀ a ∈ q, a ∈ p ∨ Enrols config k a) :
    Making k config base e' q := by
  refine h.step hr (fun id hid => ?_) (fun id _ => hf id) (fun r hr => ?_) hq
  · rw [ha]
    exact h.sorts id (hf id ▸ hid)
  · rw [hf]
    exact hr.imp_left fun hr => (hc r hr).mono (fun hact => by rwa [ha]) fun _ hm => hm

/-- Whoever is to be made may be dropped if that has been done or concerns another level. -/
theorem drop {a : Action} (h : Making k config base e (a :: p)) (hc : ∀ r, Covered e (a :: p) k r → Covered e p k r) :
    Making k config base e p :=
  h.aside (.refl e) (fun _ => rfl) (fun _ => rfl) hc fun _ hb => .inl (List.mem_cons_of_mem _ hb)

/-- A node enters its level. -/
theorem enter {a : Action} {part : Part} (h : Making k config base e (a :: p)) (ha : j = k → config.Enlists r.id)
    (hcov : ∀ r', Covered e (a :: p) k r' → (j = k ∧ r'.id = r.id) ∨ Covered e p k r') :
    Making k config base (e.enter j r part) p := by
  obtain ⟨l, hl, -⟩ := h.level
  have hactive (id : NodeId) : (e.enter j r part).activeKey? k id =
      if j = k ∧ r.id = id then some e.nodes.size else e.activeKey? k id := by
    rw [activeKey?_enter, activeKey?, hl]
    by_cases hj : j = k <;> simp [hj]
  refine h.step (resembles_enter e j r part) (fun id hid => ?_) (fun id hn => ?_) (fun r' hr' => ?_)
    fun _ hb => .inl (List.mem_cons_of_mem _ hb)
  · rw [fault?_enter] at hid
    rw [hactive]
    split at hid
    · cases hid
    · rename_i hne
      rw [if_neg hne]
      exact h.sorts id hid
  · rw [fault?_enter, if_neg]
    rintro ⟨hj, rfl⟩
    exact hn (ha hj)
  · rw [fault?_enter]
    by_cases hself : j = k ∧ r.id = r'.id
    · refine .inl (.inl ?_)
      rw [hactive, if_pos hself]
      rfl
    · rw [if_neg hself]
      refine hr'.imp_left fun hr' => ?_
      have hrest := (hcov r' hr').resolve_left fun he => hself ⟨he.1, he.2.symm⟩
      refine hrest.mono (fun hact => ?_) fun _ hm => hm
      rwa [hactive, if_neg hself]

/-- A node cannot be made. -/
theorem failCreation {a : Action} (h : Making k config base e (a :: p)) (ha : j = k → config.Enlists r.id)
    (hnew : j = k → e.activeKey? k r.id = none)
    (hcov : ∀ r', Covered e (a :: p) k r' → (j = k ∧ r'.id = r.id) ∨ Covered e p k r') (fault : NodeFault) :
    Making k config base (e.failCreation j r fault) p := by
  obtain ⟨l, hl, -⟩ := h.level
  have hactive := activeKey?_failCreation e j r fault k
  have hfault := fault?_failCreation hl j r fault
  refine h.step (resembles_failCreation e j r fault) (fun id hid => ?_) (fun id hn => ?_) (fun r' hr' => ?_)
    fun _ hb => .inl (List.mem_cons_of_mem _ hb)
  · rw [hactive]
    rw [hfault] at hid
    split at hid
    · rename_i hself
      obtain ⟨hj, rfl⟩ := hself
      exact hnew hj
    · exact h.sorts id hid
  · rw [hfault, if_neg]
    rintro ⟨hj, rfl⟩
    exact hn (ha hj)
  · rw [hfault]
    by_cases hself : j = k ∧ r.id = r'.id
    · rw [if_pos hself]
      exact .inr rfl
    · rw [if_neg hself]
      refine hr'.imp_left fun hr' => ?_
      have hrest := (hcov r' hr').resolve_left fun he => hself ⟨he.1, he.2.symm⟩
      exact hrest.mono (fun hact => by rwa [hactive]) fun _ hm => hm

/-- An instance is opened, whose usage node is still to be entered. -/
theorem opened {ts : Templates} (h : Making k config base e (.create j r ts :: p)) (l : Level) {b : Binding}
    (hid : b.usage.id = r.id) (nodes : List Record) (order : List Nat) :
    Making k config base (e.opened j l b nodes order)
      (creations e.levels.size (instanceLevel j l b nodes).config order ++ [.refresh e.levels.size] ++
        .install j b.usage e.levels.size :: p) := by
  obtain ⟨env, hlevel⟩ := level?_opened e j l b nodes order
  have hsame : (e.opened j l b nodes order).level? k = e.level? k := by
    rw [hlevel, if_neg (Nat.ne_of_lt h.lt)]
  refine h.aside (.of_level? hsame) (fault?_of_level? hsame) (activeKey?_of_level? hsame) (fun r' hr' => ?_) fun a ha => ?_
  · rcases covered_cons hr' with ⟨rfl, rfl⟩ | hr'
    · exact .inr (.inr ⟨b.usage, e.levels.size, by simp, hid⟩)
    · exact hr'.mono id fun a ha => by simp [ha]
  · rcases List.mem_append.mp ha with ha | ha
    · have hnew (i : LevelKey) (hi : a.makesIn? = some i) : i ≠ k := by
        rw [makesIn?_creations ha hi]
        exact Nat.ne_of_gt h.lt
      refine .inr ?_
      cases a with
      | create i r' ts' => exact fun hi => absurd hi (hnew i rfl)
      | install i u inst => exact fun hi => absurd hi (hnew i rfl)
      | _ => trivial
    · rcases List.mem_cons.mp ha with rfl | ha
      · exact .inr fun hj => hid ▸ h.planned _ List.mem_cons_self hj
      · exact .inl (List.mem_cons_of_mem _ ha)

/-- A node is made, or is not. -/
theorem create {ts : Templates} (h : Making k config base e (.create j r ts :: p)) (hp : e.plan = p)
    (hb : (e.create j r ts).broken = false) : Making k config base (e.create j r ts) (e.create j r ts).plan := by
  have henrols : j = k → config.Enlists r.id := h.planned _ List.mem_cons_self
  have hcov (r' : Record) (hr' : Covered e (.create j r ts :: p) k r') : (j = k ∧ r'.id = r.id) ∨ Covered e p k r' :=
    (covered_cons hr').imp_left fun ⟨hk, hr⟩ => ⟨hk.symm, hr ▸ rfl⟩
  have hfails {m : Engine} (hm : Making k config base m (.create j r ts :: p)) (hmp : m.plan = p)
      (hactive : ∀ id, m.activeKey? k id = e.activeKey? k id) (hn : e.activeKey? j r.id = none) {r' : Record}
      (hid : r'.id = r.id) (fault : NodeFault) :
      Making k config base (m.failCreation j r' fault) (m.failCreation j r' fault).plan := by
    rw [plan_failCreation, hmp]
    refine hm.failCreation (hid ▸ henrols) (fun hj => ?_) (fun r₁ hr₁ => ?_) fault
    · rw [hactive, hid, ← hj]
      exact hn
    · exact (covered_cons hr₁).imp_left fun ⟨hk, hr⟩ => ⟨hk.symm, by rw [hr, hid]⟩
  have hc := creates_create e j r ts
  generalize e.create j r ts = s at hb hc ⊢
  cases hc with
  | present ha =>
    rw [hp]
    refine h.drop fun r' hr' => ?_
    rcases covered_cons hr' with ⟨rfl, rfl⟩ | hr'
    · exact .inl ha
    · exact hr'
  | noTemplate hn => exact hfails h hp (fun _ => rfl) hn rfl _
  | refused hn => exact hfails h hp (fun _ => rfl) hn rfl _
  | @made part notes =>
    rw [plan_enter]
    have hnote : Making k config base (e.note notes) (.create j r ts :: p) :=
      h.aside (.of_level? rfl) (fun _ => rfl) (fun _ => rfl) (fun _ hr => hr) fun _ ha => .inl ha
    have hplan : (e.note notes).plan = p := hp
    rw [hplan]
    exact hnote.enter henrols fun r' hr' => hcov r' (hr'.mono id fun _ hm => hm)
  | usage hn _ _ ho =>
    cases ho with
    | nowhere hl =>
      rw [hp]
      refine h.drop fun r' hr' => (covered_cons hr').resolve_left ?_
      rintro ⟨rfl, -⟩
      obtain ⟨l, hl', -⟩ := h.level
      rw [hl] at hl'
      cases hl'
    | breaks => cases hb
    | @collapses l nodes fault hl =>
      have hsame (b : Binding) : (e.withInstance j l b nodes).level? k = e.level? k := by
        rw [level?_withInstance, if_neg (Nat.ne_of_lt h.lt)]
      have haside (b : Binding) : Making k config base (e.withInstance j l b nodes) (.create j r ts :: p) :=
        h.aside (.of_level? (hsame b)) (fault?_of_level? (hsame b)) (activeKey?_of_level? (hsame b))
          (fun _ hr => hr) fun _ ha => .inl ha
      exact hfails (haside _) hp (activeKey?_of_level? (hsame _)) hn rfl _
    | @opens l nodes order hl hx ho =>
      rw [plan_opened, hp]
      exact h.opened l rfl nodes order

/-- A usage node is entered whose instance has been made. -/
theorem install {i : LevelKey} (h : Making k config base e (.install j r i :: p)) :
    Making k config base (e.install j r i) p := by
  have hactive (id : NodeId) : (e.modifyLevel j fun l => { l with instances := l.instances.insert r.id i }).activeKey? k
      id = e.activeKey? k id := by
    rw [activeKey?_modifyLevel]
    split <;> rfl
  have hmid : Making k config base (e.modifyLevel j fun l => { l with instances := l.instances.insert r.id i })
      (.install j r i :: p) :=
    h.aside (.modifyLevel e j fun _ _ => ⟨⟨rfl, rfl, rfl⟩, rfl, rfl⟩) (fault?_modifyLevel e j (by intro; rfl) k) hactive
      (fun _ hr => hr) fun _ ha => .inl ha
  refine hmid.enter (h.planned _ List.mem_cons_self) fun r' hr' => ?_
  rcases hr' with hr' | ⟨ts, hr'⟩ | ⟨u, i', hr', hid⟩
  · exact .inr (.inl hr')
  · exact .inr (.inr (.inl ⟨ts, (List.mem_cons.mp hr').resolve_left (by simp)⟩))
  · rcases List.mem_cons.mp hr' with he | hr'
    · cases he
      exact .inl ⟨rfl, hid.symm⟩
    · exact .inr (.inr (.inr ⟨u, i', hr', hid⟩))

/-- A table is built anew. -/
theorem refresh (h : Making k config base e (.refresh j :: p)) : Making k config base (e.refresh j) p := by
  have hstops : StopsWithin (fun _ _ => True) e (e.refresh j) := stops_refresh e j
  have hactive (id : NodeId) : (e.refresh j).activeKey? k id = e.activeKey? k id := by
    obtain ⟨rs, hrs⟩ := level?_refresh e k j
    rw [activeKey?, hrs, activeKey?]
    split
    · cases e.level? k <;> rfl
    · rfl
  refine h.aside hstops.resembles (hstops.fault? k) hactive (fun r' hr' => ?_) fun a ha => .inl (List.mem_cons_of_mem _ ha)
  exact hr'.of_makesIn? fun a ha hm => (List.mem_cons.mp ha).resolve_left (by rintro rfl; cases hm)

/-- Anything is made that is still to be made. -/
theorem makes {a : Action} (h : Making k config base e (a :: e.plan)) (hm : a.makes = true)
    (hb : (e.act a).broken = false) : Making k config base (e.act a) (e.act a).plan := by
  cases a with
  | create j r ts => exact h.create rfl hb
  | install j r i =>
    have hplan : (e.act (.install j r i)).plan = e.plan := plan_enter _ j r (.standIn i)
    rw [hplan]
    exact h.install
  | refresh j =>
    have hstops : Stops e (e.refresh j) := stops_refresh e j
    have hplan : (e.act (.refresh j)).plan = e.plan := by
      unfold Engine.plan
      exact congrArg _ hstops.agenda
    rw [hplan]
    exact h.refresh
  | _ => cases hm

/-- Something else happens. -/
theorem lulls (h : Making k config base e e.plan) (hl : Lulls e e') : Making k config base e' e'.plan := by
  have hlevel := hl.level? k
  refine h.aside (.of_level? hlevel) (fault?_of_level? hlevel) (activeKey?_of_level? hlevel) (fun r hr => ?_) fun a ha => ?_
  · exact hr.of_makesIn? fun a ha hm => hl.makes a ha (makes_of_makesIn? hm)
  · refine (hl.plan a ha).imp_right ?_
    rintro ⟨key, rfl⟩
    trivial

/-- When all is done, the enabled nodes that are not active have failed, and those from before that are none. -/
theorem reports (h : Making k config base e []) (id : NodeId) :
    (e.fault? k id).isSome = true ↔ config.Enlists id ∧ e.activeKey? k id = none ∨ base id ∧ ¬config.Enlists id := by
  refine ⟨fun hf => ?_, ?_⟩
  · by_cases hm : config.Enlists id
    · exact .inl ⟨hm, h.sorts id hf⟩
    · exact .inr ⟨(h.blamed id hf).resolve_left hm, hm⟩
  · rintro (⟨⟨r, hr, rfl, hd⟩, hn⟩ | ⟨hb, hm⟩)
    · refine (h.covered r hr hd).resolve_left ?_
      rintro (ha | ⟨ts, ha⟩ | ⟨u, i, ha, -⟩)
      · rw [hn] at ha
        cases ha
      · cases ha
      · cases ha
    · exact h.kept id hb hm

end Making

/-! ## Until nodes are made -/

/-- A step in which nobody comes to the level, and what has failed there stays as it is. -/
structure Abides (k : LevelKey) (e e' : Engine) : Prop where
  level : Resembles k e e'
  fault : ∀ id, e'.fault? k id = e.fault? k id
  vacant : ∀ id, e.activeKey? k id = none → e'.activeKey? k id = none

theorem Abides.trans (h : Abides k e m) (h' : Abides k m e') : Abides k e e' :=
  ⟨h.level.trans h'.level, fun id => (h'.fault id).trans (h.fault id), fun id hn => h'.vacant id (h.vacant id hn)⟩

theorem Abides.of_level? (h : e'.level? k = e.level? k) : Abides k e e' :=
  ⟨.of_level? h, fault?_of_level? h, fun id hn => (activeKey?_of_level? h id).trans hn⟩

theorem Stops.abides (h : Stops e e') (hl : Laid e) : Abides k e e' :=
  ⟨StopsWithin.resembles h, h.fault? k, fun _ hn => (h.dwindles hl).none_of_none hn⟩

theorem Sorts.abides (h : Sorts e k) (ha : Abides k e e') : Sorts e' k := fun id hid =>
  ha.vacant id (h id (ha.fault id ▸ hid))

/-- A start that has not been applied yet. What is reported then is `base`. -/
structure Facing (key : CallKey) (k : LevelKey) (config : FlowConfig) (diff : Option Diff) (base : NodeId → Prop)
    (e : Engine) (c : Call) : Prop extends Heading key k config diff e c where
  sorts : Sorts e k
  /-- Without a diff nothing is reported once the start has been asked for. -/
  failures : diff = none ∧ c.stages = [.start k none] ∨ ∀ id, (e.fault? k id).isSome = true ↔ base id

namespace Facing

theorem abides (h : Facing key k config diff base e c) (hh : Heading key k config diff e' c') (ha : Abides k e e')
    (hs : diff = none → c.stages = [.start k none] → c'.stages = [.start k none]) :
    Facing key k config diff base e' c' := by
  refine ⟨hh, h.sorts.abides ha, h.failures.imp (fun hf => ⟨hf.1, hs hf.1 hf.2⟩) fun hf id => ?_⟩
  rw [ha.fault]
  exact hf id

theorem idles (h : Facing key k config diff base e c) (hi : Idles key e e') : Facing key k config diff base e' c :=
  h.abides (h.toHeading.idles hi) (.of_level? (hi.level? k)) fun _ hs => hs

/-- Stops begin or go on before the start is applied. -/
theorem stops (h : Facing key k config diff base e c) (hl : Laid e) (hs : Stops e m) {stops : List Stopping}
    (hp : Proceeds m key stops e') (ha : c.stages = [.apply k config diff]) :
    ∃ c', Facing key k config diff base e' c' := by
  obtain ⟨c', hc', -⟩ := h.toHeading.stops hs hp ha
  refine ⟨c', h.abides hc' ((hs.abides hl).trans (.of_level? (hp.lulls.level? k))) fun _ hs => ?_⟩
  rw [ha] at hs
  cases hs

/-- Without a diff the start forgets what has been reported. -/
theorem forgets (h : Facing key k config none base e c) (hs : c.stages = [.start k none])
    (hst : Starts (e.modifyCall key fun c => { c with stages := [] }) key k none e') (id : NodeId) :
    e'.fault? k id = none := by
  obtain ⟨l, hl, -⟩ := h.level
  have hok := checkStart_eq_ok (h.unrefused hs l hl)
  cases hst with
  | nowhere hnone =>
    have hnone : e.level? k = none := hnone
    rw [hl] at hnone
    cases hnone
  | refused hl' hc =>
    obtain rfl := Option.some.inj (hl.symm.trans hl')
    rw [hok] at hc
    cases hc
  | fresh =>
    rw [fault?, level?_proceed, level?_modifyLevel, if_pos rfl]
    cases (e.modifyCall key fun c => { c with stages := [] }).level? k <;> rfl
  | again _ hd => cases hd

/-- The start is looked at. -/
theorem begins (h : Facing key k config diff base e c) (hs : c.stages = [.start k diff]) (hw : c.waiting = [])
    (hbase : diff = none → ∀ id, ¬base id)
    (hst : Starts (e.modifyCall key fun c => { c with stages := [] }) key k diff e') :
    ∃ c', Facing key k config diff base e' c' := by
  obtain ⟨c', hc', -, -, hafter⟩ := h.toHeading.begins hs hw hst
  refine ⟨c', ?_⟩
  cases diff with
  | some d =>
    obtain ⟨hl, -⟩ := hafter.resolve_left fun hn => by cases hn.1
    exact h.abides hc' (.of_level? (hl.level? k)) fun hd => by cases hd
  | none =>
    have hnone := h.forgets hs hst
    refine ⟨hc', fun id hid => ?_, .inr fun id => ?_⟩
    · rw [hnone] at hid
      cases hid
    · rw [hnone]
      simpa using hbase rfl id

/-- The configuration is applied: its nodes are to be made. -/
theorem applies (h : Facing key k config diff base e c) (hconfig : config.Sound) (hs : c.stages = [.apply k config diff])
    (hw : c.waiting = []) (ha : Applies (e.modifyCall key fun c => { c with stages := [] }) key k config diff e') :
    ∃ c', Applied key k e' c' ∧ Making k config base e' e'.plan := by
  obtain ⟨c', hc', -⟩ := h.toHeading.applies hconfig hw ha
  refine ⟨c', hc', ?_⟩
  obtain ⟨-, order, ho, rfl⟩ := h.toHeading.activates hconfig ha
  have hrewired := level?_rewired (e.modifyCall key fun c => { c with stages := [] }) config diff h.apart
  obtain ⟨l, hl, hconf⟩ := h.level
  rw [show (e.modifyCall key fun c => { c with stages := [] }).level? k = some l from hl, Option.map_some] at hrewired
  generalize hm : ((e.modifyCall key fun c => { c with stages := [] }).rewired k config diff).push
    [.announce k, .resume key] = m
  have hml : m.level? k = some { l with phase := .started } := by rw [← hm, level?_push, hrewired]
  have hlevel : (m.activated k config order).level? k = some { l with
      phase := .started, env := Scope.evaluate (m.settingAround k) config.env } := by
    rw [level?_activated, if_pos rfl, hml]
    rfl
  have hfault (id : NodeId) : (m.activated k config order).fault? k id = e.fault? k id := by
    rw [fault?, hlevel, fault?, hl]
    rfl
  have hactive (id : NodeId) : (m.activated k config order).activeKey? k id = e.activeKey? k id := by
    rw [activeKey?, hlevel, activeKey?, hl]
    rfl
  have hbase (id : NodeId) : (e.fault? k id).isSome = true ↔ base id :=
    h.failures.resolve_left (fun hf => by rw [hs] at hf; cases hf.2) id
  refine ⟨⟨_, hlevel, hconf⟩, fun id hid => ?_, fun id hid => .inr ?_, fun id hb _ => ?_, fun r hr hd => .inl ?_,
    fun a ha => ?_⟩
  · rw [hactive]
    exact h.sorts id (hfault id ▸ hid)
  · exact (hbase id).mp (hfault id ▸ hid)
  · rw [hfault]
    exact (hbase id).mpr hb
  · refine covered_creations ho hr hd fun a ha => ?_
    rw [plan_activated]
    exact List.mem_append_left _ (List.mem_append_left _ ha)
  · rw [plan_activated] at ha
    rcases List.mem_append.mp ha with ha | ha
    · rcases List.mem_append.mp ha with ha | ha
      · obtain ⟨r, hr, rfl⟩ := List.mem_map.mp ha
        obtain ⟨pos, hpos, hr⟩ := List.mem_filterMap.mp hr
        obtain ⟨r', hr', hd⟩ := (StartOrder.mem_resolve ho).mp hpos
        obtain rfl := Option.some.inj (hr.symm.trans hr')
        exact fun _ => ⟨r, List.mem_of_getElem? hr, rfl, hd⟩
      · obtain rfl := List.mem_singleton.mp ha
        trivial
    · have hold : ∀ b ∈ ((e.modifyCall key fun c => { c with stages := [] }).rewired k config diff).plan,
          ∃ j, b = .resume j := fun b hb => h.plan b <| by
        cases diff with
        | none => exact hb
        | some d => exact plan_rewired_subset (e.modifyCall key fun c => { c with stages := [] }) k config d hb
      rw [← hm, plan_push] at ha
      rcases List.mem_append.mp ha with ha | ha
      · obtain rfl : a = .resume key := by simpa [Action.isQuiet] using ha
        trivial
      · obtain ⟨j, rfl⟩ := hold a ha
        trivial

end Facing

/-- A start that is not refused, and what it reports. -/
def Reports (key : CallKey) (k : LevelKey) (config : FlowConfig) (diff : Option Diff) (base : NodeId → Prop)
    (e : Engine) : Prop :=
  ∃ c, Facing key k config diff base e c ∨ Applied key k e c ∧ Making k config base e e.plan

/-- What the next step of a start comes to. -/
theorem Facing.resumes (h : Facing key k config diff base e c) (hl : Laid e) (hconfig : config.Sound)
    (hbase : diff = none → ∀ id, ¬base id) (hres : Resumes e key e') : Reports key k config diff base e' := by
  cases hres with
  | unknown hnone =>
    rw [h.call] at hnone
    cases hnone
  | ends hc _ hs =>
    obtain rfl := Option.some.inj (h.call.symm.trans hc)
    have hl := h.leads
    rw [hs] at hl
    cases hl
  | @waits c' hc hw =>
    obtain rfl := Option.some.inj (h.call.symm.trans hc)
    obtain ⟨c', hc'⟩ := h.stops hl (stops_pollStops key (e, []) c.waiting) (proceeds_afterStops _ key _) (h.waits hw)
    exact ⟨c', .inl hc'⟩
  | @stage c' stage rest hc hw hs =>
    obtain rfl := Option.some.inj (h.call.symm.trans hc)
    have hleads := h.leads
    rw [hs] at hleads
    cases hleads with
    | asked =>
      obtain ⟨c', hc'⟩ := h.begins hs hw hbase (starts_start _ key k diff)
      exact ⟨c', .inl hc'⟩
    | applies =>
      obtain ⟨c', hc'⟩ := h.applies hconfig hs hw (applies_apply _ key k config diff)
      exact ⟨c', .inr hc'⟩
    | stops ids removal _ =>
      have hcall : (e.modifyCall key fun c => { c with stages := [.apply k config diff] }).call? key =
          some { c with stages := [.apply k config diff] } := by
        rw [call?_modifyCall, if_pos rfl, h.call]
        rfl
      have hmid := h.toHeading.lulls (.modifyCall e key _) hcall h.fault h.unended .applies (fun _ => rfl) nofun
      have hfacing := h.abides hmid (.of_level? rfl) fun _ hs' => by
        rw [hs] at hs'
        cases hs'
      have hlaid : Laid (e.modifyCall key fun c => { c with stages := [.apply k config diff] }) :=
        hl.of_levels (.of_eq rfl rfl rfl rfl) fun _ => rfl
      obtain ⟨c', hc'⟩ := hfacing.stops hlaid (stops_beginStops key (_, []) [⟨k, some ids, removal⟩])
        (proceeds_afterStops _ key _) rfl
      exact ⟨c', .inl hc'⟩

/-- What a start reports is what it should, step by step. -/
theorem Reports.tick (h : Reports key k config diff base e) (hr : Reachable e) (hsolo : Solo e key)
    (hconfig : config.Sound) (hbase : diff = none → ∀ id, ¬base id) (ht : Tick e e') (hu : e'.broken = false) :
    Reports key k config diff base e' := by
  obtain ⟨c, h⟩ := h
  cases (hsolo.tick ht).2 with
  | idles hi =>
    exact ⟨c, h.imp (·.idles hi) fun ⟨ha, hm⟩ => ⟨ha.keeps (.of_level? hi.level?) hi.call, hm.lulls hi.toLulls⟩⟩
  | @makes a rest hb hagenda hm =>
    rcases h with h | ⟨happ, hmaking⟩
    · obtain ⟨j, rfl⟩ := h.plan a (mem_plan_of_makes hagenda hm)
      cases hm
    · have hne (j : CallKey) : a ≠ .resume j := by
        rintro rfl
        cases hm
      have hk : KeepsPlaces e { e with agenda := rest } := .of_level? fun _ => rfl
      have hpop : Making k config base { e with agenda := rest } (a :: ({ e with agenda := rest } : Engine).plan) := by
        have hq : a.isQuiet = false := by simpa using (List.mem_filter.mp (mem_plan_of_makes hagenda hm)).2
        rw [plan_pop hagenda hq] at hmaking
        exact hmaking.aside (.of_level? rfl) (fun _ => rfl) (fun _ => rfl) (fun _ hr => hr) fun _ hb => .inl hb
      exact ⟨c, .inr ⟨happ.keeps (hk.trans (keepsPlaces_act hne))
        (call?_of_calls (calls_of_register (register_act (e := { e with agenda := rest }) hne)) key),
        hpop.makes hm hu⟩⟩
  | @resumes rest e' hb hagenda hres =>
    have hpop : Lulls e { e with agenda := rest } := .pop hagenda
    rcases h with h | ⟨happ, hmaking⟩
    · have hlaid : Laid { e with agenda := rest } := hr.layout.laid.of_levels (.of_eq rfl rfl rfl rfl) fun _ => rfl
      exact (h.idles ⟨hpop, rfl⟩).resumes hlaid hconfig hbase hres
    · have hrest : Applied key k { e with agenda := rest } c := happ.keeps (.of_level? fun _ => rfl) rfl
      obtain ⟨c', hc', hl, -⟩ := hrest.resumes hres
      exact ⟨c', .inr ⟨hc', hmaking.lulls (hpop.trans hl)⟩⟩

/-! ## Whole starts -/

theorem facing_begin (h : Reachable e) (hr : AtRest e) {l : Level} (hl : e.level? k = some l) (hd : ¬l.Refuses diff)
    (hs : Sorts e k) : Facing e.nextCall k l.config diff (fun id => diff.isSome = true ∧ (e.fault? k id).isSome = true)
      (e.begin [.start k diff]).1 (.make [.start k diff] e.now) := by
  have hregular : Regular k e := configured_self hl ▸ h.regular hl l.config
  have hlevel := level?_begin e [.start k diff] k
  refine ⟨heading_begin hregular hr h.keysBelow hl hd, hs.abides (.of_level? hlevel), ?_⟩
  cases diff with
  | none => exact .inl ⟨rfl, rfl⟩
  | some d =>
    refine .inr fun id => ?_
    rw [fault?_of_level? hlevel]
    simp

/-- What a level reports when a start has come to its end: its enabled nodes that are not active, and with a diff what
it reported before of those that are none. -/
theorem start_reports (h : Reachable e) (hr : AtRest e) {l : Level} (hl : e.level? k = some l) (hd : ¬l.Refuses diff)
    (hs : Sorts e k) (hend : AtRest (e.complete [.start k diff]).1) :
    Sorts (e.complete [.start k diff]).1 k ∧
    (∃ l', (e.complete [.start k diff]).1.level? k = some l' ∧ l'.config = l.config) ∧
    ∀ id, ((e.complete [.start k diff]).1.fault? k id).isSome = true ↔
      l.config.Enlists id ∧ (e.complete [.start k diff]).1.activeKey? k id = none ∨
      (diff.isSome = true ∧ (e.fault? k id).isSome = true) ∧ ¬l.config.Enlists id := by
  have hbegun : Reachable (e.begin [.start k diff]).1 := h.input hr.idle (.call (.start k diff))
  have hall := (reach_complete e [.start k diff]).invariant (P := fun s => Reachable s ∧ Solo s e.nextCall ∧
      (s.broken = true ∨ Reports e.nextCall k l.config diff
        (fun id => diff.isSome = true ∧ (e.fault? k id).isSome = true) s))
    (fun s s' ⟨hreach, hsolo, hreports⟩ ht => by
      refine ⟨hreach.tick ht, (hsolo.tick ht).1, ?_⟩
      by_cases hb : s'.broken = true
      · exact .inl hb
      · have hu : s'.broken = false := by simpa using hb
        refine .inr (hreports.resolve_left (fun hs => hb (broken_tick hs ht)) |>.tick hreach hsolo
          (sound_of_not_refuses hd) ?_ ht hu)
        rintro rfl id ⟨hn, -⟩
        cases hn)
    ⟨hbegun, hr.solo h.keysBelow _, .inr ⟨_, .inl (facing_begin h hr hl hd hs)⟩⟩
  generalize (e.complete [.start k diff]).1 = e' at *
  obtain ⟨c, hfacing | ⟨-, hmaking⟩⟩ := hall.2.2.resolve_left (by simp [hend.unbroken])
  · -- a call that has nothing left to do has been applied
    have hover := hend.calls _ (mem_calls_of_call? hfacing.call)
    have hstages : c.stages = [] := by
      simp only [Call.over, Bool.and_eq_true, List.isEmpty_iff] at hover
      exact hover.1
    have hleads := hfacing.leads
    rw [hstages] at hleads
    cases hleads
  · have hplan : e'.plan = [] := by
      rw [Engine.plan, hend.idle]
      rfl
    rw [hplan] at hmaking
    exact ⟨hmaking.sorts, hmaking.level, hmaking.reports⟩

/-! ## Stops, messages and time -/

/-- No nodes are to be made, and the call has only stops to begin. -/
structure OnlyStops (key : CallKey) (e : Engine) : Prop where
  stages : ∀ c, e.call? key = some c → ∀ stage ∈ c.stages, ∃ requests, stage = .stop requests
  plan : ∀ a ∈ e.plan, ∃ j, a = .resume j

theorem OnlyStops.lulls (h : OnlyStops key e) (hl : Lulls e e')
    (hs : ∀ c, e'.call? key = some c → ∀ stage ∈ c.stages, ∃ requests, stage = .stop requests) : OnlyStops key e' :=
  ⟨hs, fun a ha => (hl.plan a ha).elim (h.plan a) fun hr => hr⟩

/-- Stops begin or go on. -/
theorem OnlyStops.stops (h : OnlyStops key e) (hl : Laid e) (hc : e.call? key = some c) (hs : Stops e m)
    {stops : List Stopping} (hp : Proceeds m key stops e') : OnlyStops key e' ∧ Abides k e e' := by
  obtain ⟨waiting, report, hcall⟩ := hp.call ((call?_of_shell hs.shell key).trans hc)
  have hmid : OnlyStops key m := by
    refine ⟨fun c' hc' => h.stages c' ((call?_of_shell hs.shell key).symm.trans hc'), fun a ha => h.plan a ?_⟩
    unfold Engine.plan at *
    rwa [hs.agenda] at ha
  refine ⟨hmid.lulls hp.lulls fun c' hc' => ?_, (hs.abides hl).trans (.of_level? (hp.lulls.level? k))⟩
  rw [hcall] at hc'
  cases hc'
  exact h.stages c hc

theorem OnlyStops.resumes (h : OnlyStops key e) (hl : Laid e) (hres : Resumes e key e') :
    OnlyStops key e' ∧ Abides k e e' := by
  cases hres with
  | unknown => exact ⟨h, .of_level? rfl⟩
  | @ends c hc =>
    refine ⟨h.lulls (.modifyCall e key _) fun c' hc' => ?_, .of_level? rfl⟩
    rw [call?_modifyCall, if_pos rfl, hc] at hc'
    cases hc'
    exact h.stages c hc
  | waits hc => exact h.stops hl hc (stops_pollStops key (e, []) _) (proceeds_afterStops _ key _)
  | @stage c stage rest hc hw hs =>
    obtain ⟨requests, rfl⟩ := h.stages c hc stage (by simp [hs])
    have hcall : (e.modifyCall key fun c => { c with stages := rest }).call? key = some { c with stages := rest } := by
      rw [call?_modifyCall, if_pos rfl, hc]
      rfl
    have hmid : OnlyStops key (e.modifyCall key fun c => { c with stages := rest }) := by
      refine h.lulls (.modifyCall e key _) fun c' hc' stage hm => ?_
      rw [hcall] at hc'
      cases hc'
      exact h.stages c hc stage (by simp [hs, hm])
    have hlaid : Laid (e.modifyCall key fun c => { c with stages := rest }) :=
      hl.of_levels (.of_eq rfl rfl rfl rfl) fun _ => rfl
    have hsame : (e.modifyCall key fun c => { c with stages := rest }).level? k = e.level? k := rfl
    generalize e.modifyCall key (fun c => { c with stages := rest }) = m at *
    rw [runStage_of_requests? rfl, stopAll_eq]
    obtain ⟨hstops, habides⟩ := hmid.stops (k := k) hlaid hcall (stops_beginStops key (m, []) requests)
      (proceeds_afterStops _ key (beginStops key (m, []) requests).2)
    exact ⟨hstops, (Abides.of_level? hsame).trans habides⟩

theorem OnlyStops.tick (h : OnlyStops key e) (hr : Reachable e) (hsolo : Solo e key) (ht : Tick e e') :
    OnlyStops key e' ∧ Abides k e e' := by
  cases (hsolo.tick ht).2 with
  | idles hi => exact ⟨h.lulls hi.toLulls fun c hc => h.stages c (hi.call.symm.trans hc), .of_level? (hi.level? k)⟩
  | @makes a rest _ ha hm =>
    obtain ⟨j, rfl⟩ := h.plan a (mem_plan_of_makes ha hm)
    cases hm
  | @resumes rest _ _ ha hres =>
    have hpop : Lulls e { e with agenda := rest } := .pop ha
    have hlaid : Laid { e with agenda := rest } := hr.layout.laid.of_levels (.of_eq rfl rfl rfl rfl) fun _ => rfl
    obtain ⟨h', ha'⟩ := (h.lulls hpop h.stages).resumes (k := k) hlaid hres
    exact ⟨h', (Abides.of_level? (hpop.level? k)).trans ha'⟩

/-- Nothing comes to a level while nodes are only stopped. -/
theorem OnlyStops.reach (h : OnlyStops key e) (hr : Reachable e) (hsolo : Solo e key) (hreach : Reach e e') :
    Abides k e e' := by
  have hall := hreach.invariant (P := fun s => Reachable s ∧ Solo s key ∧ OnlyStops key s ∧ Abides k e s)
    (fun s s' ⟨hreach, hsolo, hs, ha⟩ ht =>
      have hnext := hs.tick (k := k) hreach hsolo ht
      ⟨hreach.tick ht, (hsolo.tick ht).1, hnext.1, ha.trans hnext.2⟩)
    ⟨hr, hsolo, h, .of_level? rfl⟩
  exact hall.2.2.2

end Engine

/-! ## Generations -/

open Engine

/-- A start that was not refused: what the flow was to be, the diff, and the nodes that were active when it had ended. -/
structure Generation where
  config : FlowConfig
  diff : Option Diff
  active : Dict NodeKey

/-- An enabled node that was not active when the start had ended. -/
def Generation.Lacks (g : Generation) (id : NodeId) : Prop := g.config.Enlists id ∧ g.active.get? id = none

/-- What is reported when a flow has been started so often, the last start first: the enabled nodes that are not active;
and if there was a diff, whatever was reported before and is no enabled node now. -/
def Reported : List Generation → NodeId → Prop
  | [], _ => False
  | g :: older, id => g.Lacks id ∨ g.diff.isSome = true ∧ ¬g.config.Enlists id ∧ Reported older id

theorem Deployment.has_of_flow? {d : Deployment} {id : String} {c : FlowConfig} (h : d.flow? id = some c) :
    c = d.global ∨ c ∈ d.tabs := by
  unfold Deployment.flow? at h
  split at h
  · exact .inl (Option.some.inj h).symm
  · exact .inr (List.mem_of_find?_eq_some h)

namespace Session

/-- What happens to a flow: it is started and stopped, its configuration is replaced, and messages and time pass. Each
start and stop has come to its end before the next. -/
inductive FlowRun (k : LevelKey) : Session → List Generation → Prop
  | made {s : Session} (h : Reachable s.engine) (hr : AtRest s.engine) {kind : LevelKind} {config : FlowConfig}
      (hl : s.engine.level? k = some (.make kind none config)) : FlowRun k s []
  | started {s : Session} {gs : List Generation} {diff : Option Diff} {l : Level} (h : FlowRun k s gs)
      (hok : (s.start k diff).1 = .ok ()) (hr : AtRest (s.start k diff).2.engine)
      (hl : (s.start k diff).2.engine.level? k = some l) : FlowRun k (s.start k diff).2 (⟨l.config, diff, l.active⟩ :: gs)
  | refused {s : Session} {gs : List Generation} {diff : Option Diff} {fault : FlowFault} (h : FlowRun k s gs)
      (hfault : (s.start k diff).1 = .error fault) (hr : AtRest (s.start k diff).2.engine) :
      FlowRun k (s.start k diff).2 gs
  | updated {s : Session} {gs : List Generation} (h : FlowRun k s gs) (records : List Json) :
      FlowRun k (s.update k records).2 gs
  | stopped {s : Session} {gs : List Generation} {ids removed : Option (List NodeId)} (h : FlowRun k s gs)
      (hr : AtRest (s.stop k ids removed).2.engine) : FlowRun k (s.stop k ids removed).2 gs
  | passed {s s' : Session} {gs : List Generation} {m : Engine} (h : FlowRun k s gs) (hq : Quiet s.engine m)
      (hm : Reach m s'.engine) (hr : AtRest s'.engine) : FlowRun k s' gs

/-- What is known of a flow between two calls. -/
structure Accounts (k : LevelKey) (s : Session) (gs : List Generation) : Prop where
  reachable : Reachable s.engine
  atRest : AtRest s.engine
  level : ∃ l, s.engine.level? k = some l ∧ l.parent = none
  sorts : Sorts s.engine k
  reports : ∀ id, (s.engine.fault? k id).isSome = true ↔ Reported gs id

variable {s s' : Session} {k : LevelKey} {gs : List Generation} {diff : Option Diff}

theorem Accounts.abides (h : Accounts k s gs) (hr : Reachable s'.engine) (hrest : AtRest s'.engine)
    (ha : Abides k s.engine s'.engine) : Accounts k s' gs := by
  obtain ⟨l, hl, hp⟩ := h.level
  obtain ⟨l', hl', halike⟩ := ha.level l hl
  refine ⟨hr, hrest, ⟨l', hl', halike.parent.trans hp⟩, h.sorts.abides ha, fun id => ?_⟩
  rw [ha.fault]
  exact h.reports id

/-- A start has come to its end that was not refused. -/
theorem Accounts.start (h : Accounts k s gs) (hok : (s.start k diff).1 = .ok ()) (hr : AtRest (s.start k diff).2.engine)
    {l' : Level} (hl' : (s.start k diff).2.engine.level? k = some l') :
    Accounts k (s.start k diff).2 (⟨l'.config, diff, l'.active⟩ :: gs) ∧
      ∃ l, s.engine.level? k = some l ∧ l'.config = l.config := by
  obtain ⟨l, hl, hp⟩ := h.level
  have hd : ¬l.Refuses diff := fun hd => by
    obtain ⟨⟨c, fault, hc, hf⟩, -⟩ := traced_refused h.atRest.unbroken h.atRest.idle h.reachable.keysBelow hl hd
    have hres : (s.start k diff).1 = outcome (((s.engine.complete [.start k diff]).1.call? s.engine.nextCall).getD
      (.make [] (s.engine.complete [.start k diff]).1.now)) := rfl
    rw [hres, hc, Option.getD_some, outcome, hf] at hok
    cases hok
  obtain ⟨hsorts, ⟨l₁, hl₁, hconfig⟩, hreports⟩ := start_reports h.reachable h.atRest hl hd h.sorts hr
  obtain rfl := Option.some.inj (hl₁.symm.trans hl')
  obtain ⟨l₂, hl₂, hkin⟩ := ((Input.call (.start k diff)).grows.trans (reach_complete s.engine _).grows).level k l hl
  refine ⟨⟨reachable_start h.reachable h.atRest.idle, hr, ⟨l₂, hl₂, hkin.parent.trans hp⟩, hsorts, fun id => ?_⟩, l, hl,
    hconfig⟩
  refine (hreports id).trans ?_
  have hactive : (s.engine.complete [.start k diff]).1.activeKey? k id = l₁.active.get? id := by
    rw [activeKey?, hl₁]
    rfl
  rw [Reported, Generation.Lacks, hconfig, hactive, h.reports]
  exact or_congr Iff.rfl (by rw [and_assoc, and_comm (b := ¬_)])

/-- What is refused leaves everything as it was. -/
theorem Accounts.refused {fault : FlowFault} (h : Accounts k s gs) (hfault : (s.start k diff).1 = .error fault)
    (hr : AtRest (s.start k diff).2.engine) : Accounts k (s.start k diff).2 gs := by
  obtain ⟨l, hl, -⟩ := h.level
  have hd : l.Refuses diff := by
    by_contra hd
    have hregular : Regular k s.engine := configured_self hl ▸ h.reachable.regular hl l.config
    obtain ⟨c, hacc, -⟩ := accepts_begin hregular h.atRest h.reachable.keysBelow hl hd
    obtain ⟨c', hacc'⟩ := hacc.reach (sound_of_not_refuses hd) (h.atRest.solo h.reachable.keysBelow _)
      (reach_complete s.engine [.start k diff])
    have hres : (s.start k diff).1 = outcome (((s.engine.complete [.start k diff]).1.call? s.engine.nextCall).getD
      (.make [] (s.engine.complete [.start k diff]).1.now)) := rfl
    rw [hres, hacc'.call, Option.getD_some, outcome, hacc'.fault] at hfault
    cases hfault
  obtain ⟨-, hu, -⟩ := traced_refused h.atRest.unbroken h.atRest.idle h.reachable.keysBelow hl hd
  refine h.abides (reachable_start h.reachable h.atRest.idle) hr (.of_level? ?_)
  change (s.engine.complete [.start k diff]).1.level? k = _
  rw [hu]
  rfl

/-- Another configuration changes nothing yet. -/
theorem Accounts.updated (h : Accounts k s gs) (records : List Json) : Accounts k (s.update k records).2 gs := by
  unfold update
  split
  · exact h
  rename_i next hparse
  split
  · rename_i config diff hconfig _
    obtain ⟨l, hl, hp⟩ := h.level
    have hlevel : (s.engine.modifyLevel k fun l => { l with config }).level? k = some { l with config } := by
      rw [level?_modifyLevel, if_pos rfl, hl]
      rfl
    have hparsed : config.Parsed := ⟨records, next, hparse, Deployment.has_of_flow? hconfig⟩
    have hinput : Input s.engine (s.engine.modifyLevel k fun l => { l with config }) :=
      .update (fun l' hl' => by cases hl.symm.trans hl'; exact hp) hparsed
    refine ⟨h.reachable.input h.atRest.idle hinput, ⟨h.atRest.unbroken, h.atRest.idle, h.atRest.calls⟩, ⟨_, hlevel, hp⟩,
      fun id hid => ?_, fun id => ?_⟩
    · rw [fault?_modifyLevel _ k (by intro; rfl)] at hid
      rw [activeKey?, hlevel]
      have hn := h.sorts id hid
      rwa [activeKey?, hl] at hn
    · rw [fault?_modifyLevel _ k (by intro; rfl)]
      exact h.reports id
  · exact h

theorem Accounts.stopped {ids removed : Option (List NodeId)} (h : Accounts k s gs)
    (hr : AtRest (s.stop k ids removed).2.engine) : Accounts k (s.stop k ids removed).2 gs := by
  have hkeys := h.reachable.keysBelow
  have hoffers : s.engine.Offers (stopStages k ids removed) := .stop _
  have hbegun : OnlyStops s.engine.nextCall (s.engine.begin (stopStages k ids removed)).1 := by
    refine ⟨fun c hc stage hm => ?_, fun a ha => ?_⟩
    · rw [call?_begin hkeys, if_pos rfl] at hc
      cases hc
      exact ⟨_, List.mem_singleton.mp hm⟩
    · rw [Engine.plan, untouched_begin, h.atRest.idle] at ha
      cases ha
  refine h.abides (reachable_call h.reachable h.atRest.idle hoffers) hr ?_
  exact (Abides.of_level? (level?_begin s.engine _ k)).trans
    (hbegun.reach (h.reachable.input h.atRest.idle (.call hoffers)) (h.atRest.solo hkeys _) (reach_complete s.engine _))

theorem Accounts.passed {m : Engine} (h : Accounts k s gs) (hq : Quiet s.engine m) (hm : Reach m s'.engine)
    (hr : AtRest s'.engine) : Accounts k s' gs := by
  have hreach : Reachable m := h.reachable.input h.atRest.idle (.quiet hq)
  have hcall (j : CallKey) : m.call? j = s.engine.call? j := call?_of_still hq.still j
  have hsolo : Solo m s.engine.nextCall := fun j c hj _ =>
    h.atRest.calls _ (mem_calls_of_call? ((hcall j).symm.trans hj))
  have honly : OnlyStops s.engine.nextCall m := by
    refine ⟨fun c hc => ?_, fun a ha => ?_⟩
    · rw [hcall, h.reachable.keysBelow.unknown] at hc
      cases hc
    · rw [hq.plan, Engine.plan, h.atRest.idle] at ha
      cases ha
  exact h.abides (hreach.reach hm) hr ((Abides.of_level? (level?_of_still hq.still k)).trans (honly.reach hreach hsolo hm))

theorem FlowRun.accounts (h : FlowRun k s gs) : Accounts k s gs := by
  induction h with
  | made h hr hl =>
    refine ⟨h, hr, ⟨_, hl, rfl⟩, fun id hid => ?_, fun id => ?_⟩
    · rw [fault?, hl] at hid
      cases hid
    · rw [fault?, hl]
      exact ⟨nofun, False.elim⟩
  | started _ hok hr hl ih => exact (ih.start hok hr hl).1
  | refused _ hfault hr ih => exact ih.refused hfault hr
  | updated _ records ih => exact ih.updated records
  | stopped _ hr ih => exact ih.stopped hr
  | passed _ hq hm hr ih => exact ih.passed hq hm hr

/-- What a flow reports as failed when a start has ended that was not refused, in any run of starts, stops and changes of
its configuration: the enabled nodes of its configuration that are not active. A start with a diff, and only such a one,
reports besides what is no enabled node any more but was reported before. No node is both active and reported, neither
then nor at any time between two calls; and nothing but a start changes what is reported. -/
theorem failures_since_starts (h : FlowRun k s gs) :
    (∃ l, s.engine.level? k = some l ∧ (∀ id, (l.failures.get? id).isSome = true ↔ Reported gs id) ∧
      ∀ id, (l.failures.get? id).isSome = true → l.active.get? id = none) ∧
    ∀ diff, (s.start k diff).1 = .ok () → AtRest (s.start k diff).2.engine →
      ∃ l l', s.engine.level? k = some l ∧ (s.start k diff).2.engine.level? k = some l' ∧ l'.config = l.config ∧
        ∀ id, (l'.failures.get? id).isSome = true ↔ l.config.Enlists id ∧ l'.active.get? id = none ∨
          diff.isSome = true ∧ ¬l.config.Enlists id ∧ (l.failures.get? id).isSome = true := by
  have haccounts := h.accounts
  have hfault {e : Engine} {l : Level} (hl : e.level? k = some l) (id : NodeId) : e.fault? k id = l.failures.get? id := by
    rw [fault?, hl]
    rfl
  have hactive {e : Engine} {l : Level} (hl : e.level? k = some l) (id : NodeId) : e.activeKey? k id = l.active.get? id := by
    rw [activeKey?, hl]
    rfl
  obtain ⟨l, hl, -⟩ := haccounts.level
  refine ⟨⟨l, hl, fun id => ?_, fun id hid => ?_⟩, fun diff hok hr => ?_⟩
  · rw [← hfault hl]
    exact haccounts.reports id
  · rw [← hactive hl]
    exact haccounts.sorts id (by rwa [hfault hl])
  · obtain ⟨l', hl', -⟩ := ((Input.call (.start k diff)).grows.trans (reach_complete s.engine _).grows).level k l hl
    obtain ⟨hnext, l₁, hl₁, hconfig⟩ := haccounts.start hok hr hl'
    obtain rfl := Option.some.inj (hl.symm.trans hl₁)
    refine ⟨l, l', hl, hl', hconfig, fun id => ?_⟩
    have hreports := hnext.reports id
    change ((s.engine.complete [.start k diff]).1.fault? k id).isSome = true ↔ _ at hreports
    rw [hfault hl', Reported, Generation.Lacks, hconfig, ← haccounts.reports, hfault hl] at hreports
    exact hreports

/-- A tab with three nodes whose kind refuses them. -/
def faultyRecords : List Json := [
  .obj [("id", .str "t"), ("type", .str "tab")],
  .obj [("id", .str "a"), ("type", .str "testFail"), ("z", .str "t")],
  .obj [("id", .str "b"), ("type", .str "testFail"), ("z", .str "t")],
  .obj [("id", .str "c"), ("type", .str "testFail"), ("z", .str "t")]]

/-- What the tab is to be next: one of them is gone and another one disabled. -/
def faultyNext : List Json := [
  .obj [("id", .str "t"), ("type", .str "tab")],
  .obj [("d", .bool true), ("id", .str "b"), ("type", .str "testFail"), ("z", .str "t")],
  .obj [("id", .str "c"), ("type", .str "testFail"), ("z", .str "t")]]

def faultyTab : Session :=
  ⟨((Engine.make .instrumented .standalone [] [] 500).addLevel (.make .tab none (firstTab faultyRecords))).1, some 0,
    (Deployment.parse faultyRecords).toOption.getD .empty, []⟩

/-- The tab has been started, and is to be the next one. -/
def faultyUpdated : Session := ((faultyTab.start 0 none).2.update 0 faultyNext).2

/-- The difference between the two. -/
def faultyDiff : Diff := (Diff.between? ((Deployment.parse faultyRecords).toOption.getD .empty)
  ((Deployment.parse faultyNext).toOption.getD .empty)).getD default

theorem faultyTab_run : AtRest faultyTab.engine ∧
    ((faultyTab.start 0 none).1.isOk = true ∧ AtRest (faultyTab.start 0 none).2.engine) ∧
    faultyDiff.removed = ["a"] ∧
    ((faultyUpdated.start 0 (some faultyDiff)).1.isOk = true ∧
      AtRest (faultyUpdated.start 0 (some faultyDiff)).2.engine) ∧
    (faultyUpdated.engine.level? 0).map (fun l => decide (∀ id ∈ ["a", "b"], ¬l.config.Enlists id ∧
      (l.failures.get? id).isSome = true)) = some true := by
  decide +kernel

theorem start_ok_of_isOk (h : (s.start k diff).1.isOk = true) : (s.start k diff).1 = .ok () := by
  cases hres : (s.start k diff).1 with
  | ok u => rfl
  | error fault =>
    rw [hres] at h
    cases h

/-- A node that is gone and one that is disabled are still reported after the tab has been started with the difference. -/
theorem leftovers_reported : (faultyUpdated.start 0 (some faultyDiff)).1 = .ok () ∧
    ∃ l, (faultyUpdated.start 0 (some faultyDiff)).2.engine.level? 0 = some l ∧
      ∀ id ∈ ["a", "b"], ¬l.config.Enlists id ∧ (l.failures.get? id).isSome = true := by
  obtain ⟨hmade, ⟨hok, hstarted⟩, -, ⟨hok', hend⟩, hlevel⟩ := faultyTab_run
  have hreach : Reachable faultyTab.engine :=
    (Reachable.make _ _ _ _ _).input rfl (.flow (.inl rfl) (parsed_firstTab (by decide +kernel)))
  have hlevel₀ : faultyTab.engine.level? 0 = some (.make .tab none (firstTab faultyRecords)) := rfl
  have htab : FlowRun 0 faultyTab [] := .made hreach hmade hlevel₀
  obtain ⟨l₁, hl₁, -⟩ :=
    ((Input.call (.start 0 none)).grows.trans (reach_complete faultyTab.engine _).grows).level 0 _ hlevel₀
  have hrun : FlowRun 0 faultyUpdated _ := (htab.started (start_ok_of_isOk hok) hstarted hl₁).updated faultyNext
  obtain ⟨-, hstarts⟩ := failures_since_starts hrun
  obtain ⟨l, l', hl, hl', hconfig, hreports⟩ := hstarts (some faultyDiff) (start_ok_of_isOk hok') hend
  rw [hl] at hlevel
  have hleft := of_decide_eq_true (Option.some.inj hlevel)
  refine ⟨start_ok_of_isOk hok', l', hl', fun id hid => ⟨?_, (hreports id).mpr (.inr ⟨rfl, hleft id hid⟩)⟩⟩
  rw [hconfig]
  exact (hleft id hid).1

end Session
end Flowgraph
