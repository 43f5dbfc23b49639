import Flowgraph.Proofs.Calls
import Flowgraph.Proofs.Phases
/-! A level is in its stopping phase only while a call waits for its stop, and nodes are made in levels that are
not. Once no stop is under way, no start can come upon a level that is stopping. -/
namespace Flowgraph

/-- The level in which an action makes a node. -/
def Action.makesIn? : Action → Option LevelKey
  | .create k .. | .install k .. => some k
  | _ => none

/-- Going on with a call comes after all nodes have been made. -/
def Orderly : List Action → Prop
  | [] => True
  | .resume _ :: rest => rest = []
  | _ :: rest => Orderly rest

theorem orderly_append {makes rest : List Action} (hm : ∀ a ∈ makes, ∀ key, a ≠ .resume key)
    (hr : Orderly rest) : Orderly (makes ++ rest) := by
  induction makes with
  | nil => exact hr
  | cons a makes ih =>
    have ih := ih fun b hb => hm b (List.mem_cons_of_mem a hb)
    cases a with
    | resume key => exact absurd rfl (hm _ List.mem_cons_self key)
    | _ => exact ih

theorem orderly_tail {a : Action} {rest : List Action} (h : Orderly (a :: rest)) : Orderly rest := by
  cases a with
  | resume key =>
    have : rest = [] := h
    rw [this]
    trivial
  | _ => exact h

namespace Engine

variable {e e' e'' : Engine} {key : CallKey}

/-! ## Steps that bring no level into its stopping phase -/

/-- A step that brings no level into its stopping phase, and makes no node in one that is. -/
def Mild (e e' : Engine) : Prop :=
  ∀ j l', e'.level? j = some l' → l'.phase = .stopping →
    ∃ l, e.level? j = some l ∧ l.phase = .stopping ∧ (l.active = [] → l'.active = [])

namespace Mild

theorem refl (e : Engine) : Mild e e := fun _ l h hp => ⟨l, h, hp, id⟩

theorem trans {m : Engine} (h : Mild e m) (h' : Mild m e') : Mild e e' := by
  intro j l'' hl'' hp''
  obtain ⟨l', hl', hp', ha'⟩ := h' j l'' hl'' hp''
  obtain ⟨l, hl, hp, ha⟩ := h j l' hl' hp'
  exact ⟨l, hl, hp, ha' ∘ ha⟩

theorem of_level? (h : ∀ j, e'.level? j = e.level? j) : Mild e e' := fun j l hl hp =>
  ⟨l, (h j).symm.trans hl, hp, id⟩

theorem still (h : e'.still = e.still) : Mild e e' := of_level? (level?_of_still h)

theorem modifyLevel (e : Engine) (k : LevelKey) (f : Level → Level)
    (hf : ∀ l, (f l).phase = .stopping → l.phase = .stopping ∧ (l.active = [] → (f l).active = [])) :
    Mild e (e.modifyLevel k f) := by
  intro j l' hl' hp'
  rw [level?_modifyLevel] at hl'
  split at hl'
  · obtain ⟨l, hl, rfl⟩ := Option.map_eq_some_iff.mp hl'
    exact ⟨l, hl, hf l hp'⟩
  · exact ⟨l', hl', hp', id⟩

theorem addLevel (e : Engine) {l : Level} (hl : l.phase ≠ .stopping) : Mild e (e.addLevel l).1 := by
  intro j l' hl' hp'
  rw [level?_addLevel] at hl'
  split at hl'
  · cases hl'
    exact absurd hp' hl
  · exact ⟨l', hl', hp', id⟩

theorem foldl {α : Type} (f : Engine → α → Engine) (h : ∀ e a, Mild e (f e a)) (xs : List α)
    (e : Engine) : Mild e (xs.foldl f e) := by
  induction xs generalizing e with
  | nil => exact refl e
  | cons x xs ih => exact (h e x).trans (ih (f e x))

theorem isStopping (h : Mild e e') {k : LevelKey} (hk : e'.IsStopping k) : e.IsStopping k := by
  obtain ⟨l', hl', hp'⟩ := hk
  obtain ⟨l, hl, hp, -⟩ := h k l' hl' hp'
  exact ⟨l, hl, hp⟩

theorem emptied (h : Mild e e') (he : e.Emptied) : e'.Emptied := by
  intro k l' hl' hp'
  obtain ⟨l, hl, hp, ha⟩ := h k l' hl' hp'
  exact ha (he k l hl hp)

end Mild

theorem mild_enter (e : Engine) {k : LevelKey} (hk : ¬e.IsStopping k) (r : Record) (part : Part) :
    Mild e (e.enter k r part) := by
  intro j l' hl' hp'
  rw [level?_enter] at hl'
  split at hl'
  · rename_i hj
    subst hj
    obtain ⟨l, hl, rfl⟩ := Option.map_eq_some_iff.mp hl'
    exact absurd ⟨l, hl, hp'⟩ hk
  · exact ⟨l', hl', hp', id⟩

theorem mild_failCreation (e : Engine) (k : LevelKey) (r : Record) (fault : NodeFault) :
    Mild e (e.failCreation k r fault) := by
  unfold failCreation
  split
  · exact .refl e
  · exact (Mild.still (quiet_publish _ _).still).trans (.modifyLevel _ _ _ fun _ h => ⟨h, id⟩)

theorem mild_refresh (e : Engine) (k : LevelKey) : Mild e (e.refresh k) := by
  unfold refresh
  split
  · exact .refl e
  · exact .modifyLevel _ _ _ fun _ h => ⟨h, id⟩

theorem mild_activated (e : Engine) (k : LevelKey) (c : FlowConfig) (order : List Nat) :
    Mild e (e.activated k c order) := by
  refine Mild.trans ?_ (.of_level? fun _ => rfl)
  exact .modifyLevel e k _ fun _ h => ⟨h, id⟩

theorem mild_withInstance (e : Engine) (k : LevelKey) (l : Level) (b : Binding) (nodes : List Record) :
    Mild e (e.withInstance k l b nodes) := by
  refine Mild.trans ?_ (.addLevel _ (l := instanceLevel k l b nodes) (by simp [instanceLevel]))
  exact .of_level? fun _ => rfl

theorem Rewires.mild (h : Rewires e e') : Mild e e' := by
  refine h.invariant (P := Mild e) (fun s s' hs ht => hs.trans ?_) (.refl e)
  cases ht with
  | note notes => exact .of_level? fun _ => rfl
  | wires k wires => exact .of_level? fun _ => rfl
  | nodes inst nodes _ => exact .modifyLevel _ _ _ fun _ h => ⟨h, fun ha => ha⟩
  | breaks => exact .of_level? fun _ => rfl

theorem mild_rewired (e : Engine) (k : LevelKey) (config : FlowConfig) (diff : Option Diff) :
    Mild e (e.rewired k config diff) := by
  unfold rewired
  refine Mild.trans ?_ (.modifyLevel _ _ _ fun _ h => by simp at h)
  cases diff with
  | none => exact .refl e
  | some d => exact (rewires_rewire _ _ _ _).mild

/-! ## Making a node -/

/-- What a step puts on the plan: nothing that goes on with a call, and no node in a stopping level. -/
structure Plans (e e' : Engine) (makes : List Action) : Prop where
  plan : e'.plan = makes ++ e.plan
  resumes : ∀ a ∈ makes, ∀ key, a ≠ .resume key
  makesIn : ∀ a ∈ makes, ∀ j, a.makesIn? = some j → ¬e'.IsStopping j

theorem Plans.nil (h : e'.plan = e.plan) : Plans e e' [] := ⟨h, by simp, by simp⟩

theorem Plans.trans {makes makes' : List Action} (h : Plans e e' makes) (h' : Plans e' e'' makes')
    (hm : Mild e' e'') : Plans e e'' (makes' ++ makes) := by
  refine ⟨by rw [h'.plan, h.plan, List.append_assoc], fun a ha => ?_, fun a ha j hj hs => ?_⟩
  · rcases List.mem_append.mp ha with ha | ha
    · exact h'.resumes a ha
    · exact h.resumes a ha
  · rcases List.mem_append.mp ha with ha | ha
    · exact h'.makesIn a ha j hj hs
    · exact h.makesIn a ha j hj (hm.isStopping hs)

theorem plan_failCreation (e : Engine) (k : LevelKey) (r : Record) (fault : NodeFault) :
    (e.failCreation k r fault).plan = e.plan := by
  unfold failCreation
  split
  · rfl
  · unfold plan modifyLevel
    rw [(silent_publish _ _).agenda]

theorem plan_enter (e : Engine) (k : LevelKey) (r : Record) (part : Part) :
    (e.enter k r part).plan = e.plan := by
  unfold enter
  cases part with
  | ordinary b =>
    dsimp only
    rw [plan_push, List.filter_eq_nil_iff.mpr]
    · rfl
    · intro a ha
      obtain ⟨x, -, rfl⟩ := List.mem_map.mp ha
      simp [Action.isQuiet]
  | _ => rfl

/-- The actions that activate a level make its nodes and nothing else. -/
theorem filter_creations (k : LevelKey) (c : FlowConfig) (order : List Nat) :
    (creations k c order ++ [Action.refresh k]).filter (fun a => !a.isQuiet) =
      creations k c order ++ [Action.refresh k] := by
  rw [List.filter_eq_self]
  intro a ha
  rcases List.mem_append.mp ha with ha | ha
  · obtain ⟨x, -, rfl⟩ := List.mem_map.mp ha
    rfl
  · obtain rfl := List.mem_singleton.mp ha
    rfl

theorem plan_activated (e : Engine) (k : LevelKey) (c : FlowConfig) (order : List Nat) :
    (e.activated k c order).plan = creations k c order ++ [Action.refresh k] ++ e.plan := by
  unfold activated
  rw [plan_push, filter_creations]
  rfl

theorem mem_creations {a : Action} {k : LevelKey} {c : FlowConfig} {order : List Nat}
    (h : a ∈ creations k c order) : ∃ r ∈ c.nodes, a = .create k r c.templates := by
  obtain ⟨r, hr, rfl⟩ := List.mem_map.mp h
  obtain ⟨pos, -, hp⟩ := List.mem_filterMap.mp hr
  exact ⟨r, List.mem_of_getElem? hp, rfl⟩

theorem plans_activated {k : LevelKey} {c : FlowConfig} {order : List Nat} (hk : ¬e.IsStopping k) :
    Plans e (e.activated k c order) (creations k c order ++ [.refresh k]) := by
  refine ⟨plan_activated _ _ _ _, fun a ha key => ?_, fun a ha j hj hs => ?_⟩
  · rcases List.mem_append.mp ha with ha | ha
    · obtain ⟨r, -, rfl⟩ := mem_creations ha
      simp
    · obtain rfl := List.mem_singleton.mp ha
      simp
  · rcases List.mem_append.mp ha with ha | ha
    · obtain ⟨r, -, rfl⟩ := mem_creations ha
      cases hj
      exact hk ((mild_activated _ _ _ _).isStopping hs)
    · obtain rfl := List.mem_singleton.mp ha
      simp [Action.makesIn?] at hj

/-- The making of an instance leaves calls and phases alone, and plans what belongs to it. -/
theorem Opens.step {k : LevelKey} {usage : Record} {t : Template} (h : Opens e k usage t e')
    (hk : ¬e.IsStopping k) :
    Mild e e' ∧ e'.calls = e.calls ∧ (e'.plan = [] ∨ ∃ makes, Plans e e' makes) := by
  cases h with
  | nowhere => exact ⟨.refl e, rfl, .inr ⟨[], .nil rfl⟩⟩
  | breaks => exact ⟨.of_level? fun _ => rfl, rfl, .inl rfl⟩
  | @collapses l nodes fault hl hx ho =>
    refine ⟨(mild_withInstance e k l _ nodes).trans (mild_failCreation _ _ _ _),
      calls_of_register (register_failCreation _ _ _ _), .inr ⟨[], .nil (plan_failCreation _ _ _ _)⟩⟩
  | @opens l nodes order hl hx ho =>
    have hw := mild_withInstance e k l (Binding.make t usage e.nextPrivate) nodes
    have hi : Mild e ((e.withInstance k l (Binding.make t usage e.nextPrivate) nodes).push
        [.install k usage e.levels.size]) := hw.trans (.of_level? fun _ => rfl)
    have hp : Plans e ((e.withInstance k l (Binding.make t usage e.nextPrivate) nodes).push
        [.install k usage e.levels.size]) [.install k usage e.levels.size] := by
      refine ⟨plan_push _ _, by simp, fun a ha j hj hs => ?_⟩
      obtain rfl := List.mem_singleton.mp ha
      cases hj
      exact hk (hi.isStopping hs)
    refine ⟨hi.trans (mild_activated _ _ _ _), rfl, .inr ⟨_, hp.trans (plans_activated ?_)
      (mild_activated _ _ _ _)⟩⟩
    rintro ⟨l', hl', hp'⟩
    rw [level?_push, level?_withInstance, if_pos rfl] at hl'
    cases hl'
    simp [instanceLevel] at hp'

/-- The making of a node leaves calls and phases alone, and plans what belongs to it. -/
theorem Creates.step {k : LevelKey} {r : Record} {templates : Templates}
    (h : Creates e k r templates e') (hk : ¬e.IsStopping k) :
    Mild e e' ∧ e'.calls = e.calls ∧ (e'.plan = [] ∨ ∃ makes, Plans e e' makes) := by
  have hfail (r : Record) (fault : NodeFault) : Mild e (e.failCreation k r fault) ∧
      (e.failCreation k r fault).calls = e.calls ∧ ((e.failCreation k r fault).plan = [] ∨
        ∃ makes, Plans e (e.failCreation k r fault) makes) :=
    ⟨mild_failCreation _ _ _ _, calls_of_register (register_failCreation _ _ _ _),
      .inr ⟨[], .nil (plan_failCreation _ _ _ _)⟩⟩
  cases h with
  | present => exact ⟨.refl e, rfl, .inr ⟨[], .nil rfl⟩⟩
  | noTemplate => exact hfail _ _
  | refused => exact hfail _ _
  | @made part notes hn hu hb =>
    refine ⟨?_, calls_of_register (register_enter _ _ _ _), .inr ⟨[], .nil (plan_enter _ _ _ _)⟩⟩
    have hk' : ¬(e.note notes).IsStopping k := hk
    exact Mild.trans (m := e.note notes) (.of_level? fun _ => rfl) (mild_enter _ hk' _ _)
  | usage hn hu ht ho => exact ho.step hk

/-! ## The invariant -/

/-- Every level in its stopping phase is being stopped by a call that waits for it. -/
structure Accounted (e : Engine) : Prop where
  emptied : e.Emptied
  restores : ∀ j c, e.call? j = some c → ∀ s ∈ c.waiting, s.Restores
  inFlight : ∀ k, e.IsStopping k → ∃ j c, e.call? j = some c ∧ ∃ s ∈ c.waiting, k ∈ s.fullLevels
  orderly : Orderly e.plan
  makesIn : ∀ a ∈ e.plan, ∀ k, a.makesIn? = some k → ¬e.IsStopping k

/-- A step that leaves the calls as they are. -/
theorem Accounted.mild (h : Accounted e) (hm : Mild e e') (hc : e'.calls = e.calls)
    (hp : e'.plan = [] ∨ ∃ makes, Plans e e' makes) : Accounted e' := by
  refine ⟨hm.emptied h.emptied, fun j c hj => ?_, fun k hk => ?_, ?_, ?_⟩
  · rw [call?_of_calls hc] at hj
    exact h.restores j c hj
  · obtain ⟨j, c, hj, hs⟩ := h.inFlight k (hm.isStopping hk)
    exact ⟨j, c, (call?_of_calls hc j).trans hj, hs⟩
  · rcases hp with hp | ⟨makes, hp⟩
    · rw [hp]
      trivial
    · rw [hp.plan]
      exact orderly_append hp.resumes h.orderly
  · rcases hp with hp | ⟨makes, hp⟩
    · simp [hp]
    · intro a ha k hk hs
      rw [hp.plan] at ha
      rcases List.mem_append.mp ha with ha | ha
      · exact hp.makesIn a ha k hk hs
      · exact h.makesIn a ha k hk (hm.isStopping hs)

/-- Taking an action off the agenda. -/
theorem Accounted.pop {a : Action} {rest : List Action} (h : Accounted e) (ha : e.agenda = a :: rest) :
    Accounted { e with agenda := rest } := by
  have hp : e.plan = [a].filter (fun a => !a.isQuiet) ++ ({ e with agenda := rest } : Engine).plan := by
    simp only [plan, ha, ← List.filter_append, List.singleton_append]
  refine ⟨h.emptied, h.restores, h.inFlight, ?_, fun b hb => ?_⟩
  · have ho := h.orderly
    rw [hp] at ho
    cases hq : a.isQuiet with
    | true => simpa [hq] using ho
    | false =>
      rw [List.filter_cons_of_pos (by simp [hq])] at ho
      exact orderly_tail ho
  · exact h.makesIn b (by rw [hp]; exact List.mem_append_right _ hb)

/-! ## Going on with a call -/

/-- The calls wait for the same stops. -/
def SameWaiting (e e' : Engine) : Prop :=
  ∀ j, (e'.call? j).map (·.waiting) = (e.call? j).map (·.waiting)

theorem sameWaiting_of_calls (h : e'.calls = e.calls) : SameWaiting e e' := fun j => by
  rw [call?_of_calls h]

theorem SameWaiting.trans (h : SameWaiting e e') (h' : SameWaiting e' e'') : SameWaiting e e'' :=
  fun j => (h' j).trans (h j)

theorem sameWaiting_modifyCall (e : Engine) (key : CallKey) (f : Call → Call)
    (hf : ∀ c, (f c).waiting = c.waiting) : SameWaiting e (e.modifyCall key f) := by
  intro j
  rw [call?_modifyCall]
  split
  · cases e.call? j with
    | none => rfl
    | some c => simp [hf c]
  · rfl

/-- A step of a call that neither begins nor ends a stop. -/
structure Staged (e e' : Engine) : Prop where
  mild : Mild e e'
  waiting : SameWaiting e e'
  orderly : Orderly e'.plan
  makesIn : ∀ a ∈ e'.plan, ∀ k, a.makesIn? = some k → ¬e'.IsStopping k

theorem Accounted.staged (h : Accounted e) (hs : Staged e e') : Accounted e' := by
  refine ⟨hs.mild.emptied h.emptied, fun j c hj => ?_, fun k hk => ?_, hs.orderly, hs.makesIn⟩
  · have hw := hs.waiting j
    rw [hj] at hw
    obtain ⟨c', hc', he⟩ := Option.map_eq_some_iff.mp hw.symm
    have := h.restores j c' hc'
    rwa [he] at this
  · obtain ⟨j, c, hj, s, hsw, hk⟩ := h.inFlight k (hs.mild.isStopping hk)
    have hw := hs.waiting j
    rw [hj] at hw
    obtain ⟨c', hc', he⟩ := Option.map_eq_some_iff.mp hw
    exact ⟨j, c', hc', s, by rw [he]; exact hsw, hk⟩

/-- A step that leaves nothing but the next step of the call. -/
theorem Staged.of_resume (hm : Mild e e') (hw : SameWaiting e e')
    (hp : e'.plan = [] ∨ ∃ key, e'.plan = [.resume key]) : Staged e e' := by
  refine ⟨hm, hw, ?_, fun a ha k hk => ?_⟩
  · rcases hp with hp | ⟨key, hp⟩
    · rw [hp]
      trivial
    · rw [hp]
      rfl
  · rcases hp with hp | ⟨key, hp⟩
    · simp [hp] at ha
    · rw [hp] at ha
      obtain rfl := List.mem_singleton.mp ha
      simp [Action.makesIn?] at hk

theorem sameWaiting_proceed (e : Engine) (key : CallKey) (stages : List Stage) :
    SameWaiting e (e.proceed key stages) :=
  sameWaiting_modifyCall e key (fun c => { c with stages := stages ++ c.stages }) fun _ => rfl

theorem sameWaiting_refuse (e : Engine) (key : CallKey) (fault : FlowFault) :
    SameWaiting e (e.refuse key fault) :=
  sameWaiting_modifyCall e key (fun c => { c with stages := [], fault := some fault }) fun _ => rfl

theorem sameWaiting_hold (e : Engine) (key : CallKey) (levels : List LevelKey) :
    SameWaiting e (e.hold key levels) :=
  sameWaiting_modifyCall e key (fun c => { c with holds := levels ++ c.holds }) fun _ => rfl

theorem plan_proceed (e : Engine) (key : CallKey) (stages : List Stage) :
    (e.proceed key stages).plan = .resume key :: e.plan := plan_push _ _

theorem plan_refuse (e : Engine) (key : CallKey) (fault : FlowFault) :
    (e.refuse key fault).plan = .resume key :: e.plan := plan_push _ _

theorem Staged.proceed (hp : e.plan = []) (key : CallKey) (stages : List Stage) :
    Staged e (e.proceed key stages) :=
  .of_resume (.of_level? fun _ => rfl) (sameWaiting_proceed _ _ _) (.inr ⟨key, by rw [plan_proceed, hp]⟩)

theorem Staged.refuse (hp : e.plan = []) (key : CallKey) (fault : FlowFault) :
    Staged e (e.refuse key fault) :=
  .of_resume (.of_level? fun _ => rfl) (sameWaiting_refuse _ _ _) (.inr ⟨key, by rw [plan_refuse, hp]⟩)

theorem Staged.after (hm : Mild e e') (hw : SameWaiting e e') (h : Staged e' e'') : Staged e e'' :=
  ⟨hm.trans h.mild, hw.trans h.waiting, h.orderly, h.makesIn⟩

/-- Rewiring leaves the calls alone, and the agenda too unless it breaks the engine. -/
theorem Rewires.frame (h : Rewires e e') :
    e'.calls = e.calls ∧ (e'.agenda = e.agenda ∨ e'.agenda = []) := by
  refine h.invariant (P := fun s => s.calls = e.calls ∧ (s.agenda = e.agenda ∨ s.agenda = []))
    (fun s s' hs ht => ?_) ⟨rfl, .inl rfl⟩
  cases ht with
  | breaks => exact ⟨hs.1, .inr rfl⟩
  | _ => exact hs

theorem calls_rewired (e : Engine) (k : LevelKey) (config : FlowConfig) (diff : Option Diff) :
    (e.rewired k config diff).calls = e.calls := by
  cases diff with
  | none => rfl
  | some d => exact (rewires_rewire e k config d).frame.1

theorem plan_rewired (hp : e.plan = []) (k : LevelKey) (config : FlowConfig) (diff : Option Diff) :
    (e.rewired k config diff).plan = [] := by
  cases diff with
  | none => exact hp
  | some d =>
    change ((e.rewire k config d).agenda.filter fun a => !a.isQuiet) = []
    rcases (rewires_rewire e k config d).frame.2 with h | h
    · rw [h]
      exact hp
    · rw [h]
      rfl

theorem Applies.staged {k : LevelKey} {config : FlowConfig} {diff : Option Diff}
    (h : Applies e key k config diff e') (hp : e.plan = []) : Staged e e' := by
  have hm := mild_rewired e k config diff
  have hw := sameWaiting_of_calls (calls_rewired e k config diff)
  have hr := plan_rewired hp k config diff
  have hq : ((e.rewired k config diff).push [.announce k, .resume key]).plan = [.resume key] := by
    rw [plan_push, hr]
    rfl
  cases h with
  | nowhere => exact .after hm hw (.of_resume (.of_level? fun _ => rfl) (fun _ => rfl) (.inr ⟨key, hq⟩))
  | refused => exact .after hm hw (.refuse hr _ _)
  | @activates l order hl ho =>
    -- the level has just been started
    have hk : ¬((e.rewired k config diff).push [.announce k, .resume key]).IsStopping k := by
      rintro ⟨l', hl', hp'⟩
      rw [level?_push] at hl'
      unfold rewired at hl'
      rw [level?_modifyLevel, if_pos rfl] at hl'
      obtain ⟨l, -, rfl⟩ := Option.map_eq_some_iff.mp hl'
      simp at hp'
    have hpl := @plans_activated _ _ l.config order hk
    refine .after hm hw ⟨Mild.trans (.of_level? fun _ => rfl) (mild_activated _ _ _ _), fun _ => rfl, ?_, ?_⟩
    · rw [hpl.plan, hq]
      exact orderly_append hpl.resumes rfl
    · intro a ha j hj
      rw [hpl.plan, hq] at ha
      rcases List.mem_append.mp ha with ha | ha
      · exact hpl.makesIn a ha j hj
      · obtain rfl := List.mem_singleton.mp ha
        simp [Action.makesIn?] at hj

theorem Starts.staged {k : LevelKey} {diff : Option Diff} (h : Starts e key k diff e')
    (hp : e.plan = []) : Staged e e' := by
  cases h with
  | nowhere => exact .proceed hp _ _
  | refused => exact .refuse hp _ _
  | again => exact .proceed hp _ _
  | fresh =>
    have hm : Mild e (e.modifyLevel k fun l => { l with failures := [] }) :=
      .modifyLevel _ _ _ fun _ h => ⟨h, id⟩
    have hp' : (e.modifyLevel k fun l => { l with failures := [] }).plan = [] := hp
    exact .after hm (fun _ => rfl) (.proceed hp' _ _)

/-! ## Stops of a call -/

/-- The stops of a call by what they stop as a whole. -/
def fullOf (stops : List Stopping) : List LevelKey := stops.flatMap Stopping.fullLevels

theorem begun_beginStops (key : CallKey) (requests : List StopRequest) (s : Engine × List Stopping)
    (hb : Begun e s.1 (fullOf s.2)) (hr : ∀ stop ∈ s.2, stop.Restores) :
    Begun e (beginStops key s requests).1 (fullOf (beginStops key s requests).2) ∧
      ∀ stop ∈ (beginStops key s requests).2, stop.Restores := by
  induction requests generalizing s with
  | nil => exact ⟨hb, hr⟩
  | cons request requests ih =>
    have h := begun_beginStop key (s.1.levelCount + 1) s.1 request hb.emptied
    refine ih _ ⟨h.1.emptied, fun j hj => ?_⟩ fun stop hm => ?_
    · simp only [fullOf, List.flatMap_append, List.flatMap_cons, List.flatMap_nil, List.append_nil,
        List.mem_append]
      rcases h.1.stopping j hj with hj | hj
      · exact (hb.stopping j hj).imp_right .inl
      · exact .inr (.inr hj)
    · rcases List.mem_append.mp hm with hm | hm
      · exact hr stop hm
      · obtain rfl := List.mem_singleton.mp hm
        exact h.2

theorem continued_pollStops (key : CallKey) (stops : List Stopping) (s : Engine × List Stopping)
    (he : s.1.Emptied) (hs : ∀ stop ∈ s.2, stop.Restores) (hr : ∀ stop ∈ stops, stop.Restores) :
    Continued s.1 (pollStops key s stops).1 (fullOf (s.2 ++ stops)) (fullOf (pollStops key s stops).2) ∧
      ∀ stop ∈ (pollStops key s stops).2, stop.Restores := by
  induction stops generalizing s with
  | nil =>
    rw [List.append_nil]
    exact ⟨.of_silent (.refl _) he, hs⟩
  | cons stop stops ih =>
    have h := continued_pollStop key s.1 he stop (hr stop List.mem_cons_self)
    have ih := ih ((pollStop key s.1 stop).1, s.2 ++ [(pollStop key s.1 stop).2]) h.1.emptied
      (fun t ht => by
        rcases List.mem_append.mp ht with ht | ht
        · exact hs t ht
        · obtain rfl := List.mem_singleton.mp ht
          exact h.2)
      fun t ht => hr t (List.mem_cons_of_mem stop ht)
    refine ⟨⟨ih.1.emptied, fun j hj => ?_⟩, ih.2⟩
    obtain ⟨hj', hm⟩ := ih.1.stopping j hj
    obtain ⟨hj'', hm'⟩ := h.1.stopping j hj'
    refine ⟨hj'', fun hin => hm ?_⟩
    simp only [fullOf, List.flatMap_append, List.flatMap_cons, List.flatMap_nil, List.append_nil,
      List.mem_append] at hin ⊢
    rcases hin with hin | hin | hin
    · exact .inl (.inl hin)
    · exact .inl (.inr (hm' hin))
    · exact .inr hin

/-- When all stops have finished, no level is being stopped any more. -/
theorem fullOf_eq_nil {stops : List Stopping} (h : ¬(reports stops).length < stops.length) :
    fullOf stops = [] := by
  induction stops with
  | nil => rfl
  | cons s stops ih =>
    have hle : (reports stops).length ≤ stops.length := List.length_filterMap_le _ _
    cases s with
    | finished report =>
      have : (reports (.finished report :: stops)).length = (reports stops).length + 1 := rfl
      rw [this, List.length_cons] at h
      have := ih (by omega)
      simpa [fullOf, Stopping.fullLevels] using this
    | running k full previous backward closings =>
      have : (reports (.running k full previous backward closings :: stops)).length =
        (reports stops).length := rfl
      rw [this, List.length_cons] at h
      omega

/-- A call takes up the stops it has begun or gone on with. -/
theorem Accounted.proceeds {e₁ : Engine} {stops : List Stopping} {c : Call}
    (h : Accounted e) (hc : e.call? key = some c) (he : e₁.Emptied)
    (hcalls : e₁.calls = e.calls) (hp : e₁.plan = []) (hr : ∀ stop ∈ stops, stop.Restores)
    (hs : ∀ k, e₁.IsStopping k → k ∈ fullOf stops ∨ e.IsStopping k ∧ k ∉ fullOf c.waiting)
    (h' : Proceeds e₁ key stops e') : Accounted e' := by
  -- the stops of other calls go on as they were
  have hother (f : Call → Call) (k : LevelKey) (hk : e.IsStopping k ∧ k ∉ fullOf c.waiting) :
      ∃ j c', (e₁.modifyCall key f).call? j = some c' ∧ ∃ s ∈ c'.waiting, k ∈ s.fullLevels := by
    obtain ⟨j, c', hj, s, hsw, hks⟩ := h.inFlight k hk.1
    refine ⟨j, c', ?_, s, hsw, hks⟩
    rw [call?_modifyCall, if_neg, call?_of_calls hcalls]
    · exact hj
    · rintro rfl
      rw [hc] at hj
      cases hj
      exact hk.2 (List.mem_flatMap.mpr ⟨s, hsw, hks⟩)
  have hrest (f : Call → Call) (hf : ∀ stop ∈ (f c).waiting, stop.Restores) (j : CallKey) (c' : Call)
      (hj : (e₁.modifyCall key f).call? j = some c') : ∀ stop ∈ c'.waiting, stop.Restores := by
    rw [call?_modifyCall] at hj
    split at hj
    · rename_i hk
      subst hk
      rw [call?_of_calls hcalls, hc] at hj
      cases hj
      exact hf
    · rw [call?_of_calls hcalls] at hj
      exact h.restores j c' hj
  cases h' with
  | waits hlt hsil =>
    have hstop (k : LevelKey) : e'.IsStopping k ↔ e₁.IsStopping k := isStopping_of_still hsil.still k
    have hpl : e'.plan = [] := by
      unfold plan
      rw [hsil.agenda]
      exact hp
    refine ⟨emptied_of_still hsil.still he, fun j c' hj => ?_, fun k hk => ?_, ?_, ?_⟩
    · rw [call?_of_still hsil.still] at hj
      exact hrest _ hr j c' hj
    · rcases hs k ((hstop k).mp hk) with hk | hk
      · obtain ⟨s, hsm, hks⟩ := List.mem_flatMap.mp hk
        refine ⟨key, { c with waiting := stops }, ?_, s, hsm, hks⟩
        rw [call?_of_still hsil.still, call?_modifyCall, if_pos rfl, call?_of_calls hcalls, hc]
        rfl
      · obtain ⟨j, c', hj, hw⟩ := hother (fun c => { c with waiting := stops }) k hk
        exact ⟨j, c', (call?_of_still hsil.still j).trans hj, hw⟩
    · rw [hpl]
      trivial
    · simp [hpl]
  | done hlt =>
    have hpl : ((e₁.modifyCall key fun c =>
        { c with waiting := [], report := (reports stops).foldl (· ++ ·) c.report }).push
          [.resume key]).plan = [.resume key] := by
      rw [plan_push]
      change _ ++ e₁.plan = _
      rw [hp]
      rfl
    refine ⟨he, fun j c' hj => ?_, fun k hk => ?_, ?_, fun a ha k hk => ?_⟩
    · refine hrest (fun c => { c with waiting := [], report := (reports stops).foldl (· ++ ·) c.report })
        ?_ j c' hj
      simp
    · rcases hs k hk with hk | hk
      · simp [fullOf_eq_nil hlt] at hk
      · exact hother (fun c =>
          { c with waiting := [], report := (reports stops).foldl (· ++ ·) c.report }) k hk
    · rw [hpl]
      rfl
    · rw [hpl] at ha
      obtain rfl := List.mem_singleton.mp ha
      simp [Action.makesIn?] at hk

theorem Accounted.stopAll {c : Call} (h : Accounted e) (hp : e.plan = []) (hc : e.call? key = some c)
    (hw : c.waiting = []) (requests : List StopRequest) : Accounted (e.stopAll key requests) := by
  have hst := stops_beginStops key (e, []) requests
  have hb := begun_beginStops key requests (e, []) (e := e) ⟨h.emptied, fun _ hk => .inl hk⟩ (by simp)
  rw [stopAll_eq]
  refine h.proceeds hc hb.1.emptied (calls_of_shell hst.shell) ?_ hb.2 (fun k hk => ?_)
    (proceeds_afterStops _ _ _)
  · unfold plan
    rw [hst.agenda]
    exact hp
  · rcases hb.1.stopping k hk with hk | hk
    · exact .inr ⟨hk, by simp [hw, fullOf]⟩
    · exact .inl hk

theorem Accounted.pollAll {c : Call} (h : Accounted e) (hp : e.plan = []) (hc : e.call? key = some c) :
    Accounted (e.pollAll key c.waiting) := by
  have hst := stops_pollStops key (e, []) c.waiting
  have hb := continued_pollStops key c.waiting (e, []) h.emptied (by simp) (h.restores key c hc)
  rw [pollAll_eq]
  refine h.proceeds hc hb.1.emptied (calls_of_shell hst.shell) ?_ hb.2 (fun k hk => ?_)
    (proceeds_afterStops _ _ _)
  · unfold plan
    rw [hst.agenda]
    exact hp
  · obtain ⟨hk', hm⟩ := hb.1.stopping k hk
    by_cases hin : k ∈ fullOf c.waiting
    · exact .inl (hm hin)
    · exact .inr ⟨hk', hin⟩

/-! ## Every step keeps the account -/

theorem staged_startAll (hp : e.plan = []) (key : CallKey) (next : Deployment) :
    Staged e (e.startAll key next) := by
  unfold startAll
  split
  · exact .refuse hp _ _
  · have hm : Mild e (e.addLevel (.make .global none next.global)).1 :=
      .addLevel e (by simp [Level.make])
    refine .of_resume (hm.trans (.of_level? fun _ => rfl)) ?_ (.inr ⟨key, ?_⟩)
    · exact (sameWaiting_hold _ _ _).trans (sameWaiting_proceed _ _ _)
    · rw [plan_proceed]
      change .resume key :: e.plan = _
      rw [hp]

theorem staged_startTab (hp : e.plan = []) (key : CallKey) (config : FlowConfig) (listed : Bool) :
    Staged e (e.startTab key config listed) := by
  unfold startTab
  split
  · exact .proceed hp _ _
  · have hm : Mild e (e.addLevel (.make .tab none config)).1 := .addLevel e (by simp [Level.make])
    refine .of_resume (hm.trans (.of_level? fun _ => rfl)) ?_ (.inr ⟨key, ?_⟩)
    · exact (sameWaiting_hold _ _ _).trans (sameWaiting_proceed _ _ _)
    · rw [plan_proceed]
      change .resume key :: e.plan = _
      rw [hp]

theorem Accounted.runStage {c : Call} (h : Accounted e) (hp : e.plan = []) (hc : e.call? key = some c)
    (hw : c.waiting = []) (stage : Stage) : Accounted (e.runStage key stage) := by
  have hproceed (e' : Engine) (hm : Mild e e') (hs : SameWaiting e e') (hp' : e'.plan = [.resume key]) :
      Accounted e' := h.staged (.of_resume hm hs (.inr ⟨_, hp'⟩))
  have hpush : .resume key :: e.plan = [Action.resume key] := by rw [hp]
  cases stage with
  | stop requests => exact h.stopAll hp hc hw _
  | stopAmong levels ids removed => exact h.stopAll hp hc hw _
  | start k diff => exact h.staged ((starts_start e key k diff).staged hp)
  | apply k config diff => exact h.staged ((applies_apply e key k config diff).staged hp)
  | update k config =>
    refine hproceed _ (Mild.modifyLevel e k (fun l => { l with config }) fun _ h => ⟨h, id⟩) ?_ hpush
    exact sameWaiting_proceed (e.modifyLevel k fun l => { l with config }) key []
  | deployNodes previous next diff =>
    refine hproceed _ (.of_level? fun _ => rfl) ?_ hpush
    exact (sameWaiting_hold e key _).trans (sameWaiting_proceed _ _ _)
  | stopAll =>
    refine hproceed _ (.of_level? fun _ => rfl) ?_ hpush
    exact (sameWaiting_hold { e with flows := [], global := none } key _).trans
      (sameWaiting_proceed _ _ _)
  | startAll next => exact h.staged (staged_startAll hp key next)
  | startTab config listed => exact h.staged (staged_startTab hp key config listed)
  | enlist k =>
    refine hproceed _ (.of_level? fun _ => rfl) ?_ hpush
    exact sameWaiting_proceed { e with flows := e.flows ++ [k] } key []
  | gather k =>
    refine hproceed _ (.of_level? fun _ => rfl) ?_ hpush
    exact (sameWaiting_modifyCall e key (fun c => { c with gathered := c.gathered ++ [k] })
      fun _ => rfl).trans (sameWaiting_proceed _ _ _)
  | enlistGathered =>
    refine hproceed _ (.of_level? fun _ => rfl) ?_ hpush
    exact sameWaiting_proceed { e with flows := _ } key []
  | commit next =>
    refine hproceed _ (.of_level? fun _ => rfl) ?_ hpush
    exact sameWaiting_proceed { e with deployed := some next } key []
  | withdraw =>
    refine hproceed _ (.of_level? fun _ => rfl) ?_ hpush
    exact sameWaiting_proceed { e with deployed := none } key []
  | stuck =>
    refine h.staged (.of_resume (.of_level? fun _ => rfl) ?_ (.inl hp))
    exact sameWaiting_modifyCall e key (fun c => { c with stages := .stuck :: c.stages }) fun _ => rfl

theorem Accounted.resumes (h : Accounted e) (hp : e.plan = []) (hr : Resumes e key e') :
    Accounted e' := by
  have hcall (f : Call → Call) (hf : ∀ c, (f c).waiting = c.waiting) : Accounted (e.modifyCall key f) :=
    h.staged (.of_resume (.of_level? fun _ => rfl) (sameWaiting_modifyCall e key f hf)
      (.inl hp))
  cases hr with
  | unknown => exact h
  | ends => exact hcall _ fun _ => rfl
  | @stage c stage rest hc hw hs =>
    refine (hcall (fun c => { c with stages := rest }) fun _ => rfl).runStage (c := { c with stages := rest })
      hp ?_ hw stage
    rw [call?_modifyCall, if_pos rfl, hc]
    rfl
  | waits hc hw => exact h.pollAll hp hc

theorem Accounted.tick (h : Accounted e) (ht : Tick e e') : Accounted e' := by
  rcases ht.kinds with ⟨hs, hp⟩ | ⟨key, ha, hs, ha'⟩ | ⟨a, rest, -, hq, ha, rfl⟩
  · refine h.mild (.still hs) (calls_of_still hs) (.inr ⟨[], .nil hp⟩)
  · have hp : e'.plan = [.resume key] := by
      simp [plan, ha', Action.isQuiet]
    exact h.staged (.of_resume (.still hs) (sameWaiting_of_calls (calls_of_still hs)) (.inr ⟨_, hp⟩))
  · have h₀ := h.pop ha
    have hmem : a ∈ e.plan := by simp [plan, ha, hq]
    cases a with
    | create k r templates =>
      obtain ⟨hm, hc, hp⟩ := (creates_create { e with agenda := rest } k r templates).step
        (h.makesIn _ hmem k rfl)
      exact h₀.mild hm hc hp
    | install k r inst =>
      have hm : Mild { e with agenda := rest } (({ e with agenda := rest } : Engine).modifyLevel k
          fun l => { l with instances := l.instances.insert r.id inst }) :=
        .modifyLevel _ _ _ fun _ h => ⟨h, id⟩
      have hk : ¬(({ e with agenda := rest } : Engine).modifyLevel k
          fun l => { l with instances := l.instances.insert r.id inst }).IsStopping k :=
        fun hs => h.makesIn _ hmem k rfl (hm.isStopping hs)
      exact h₀.mild (hm.trans (mild_enter _ hk _ _)) (calls_of_register (register_enter _ _ _ _))
        (.inr ⟨[], .nil (plan_enter _ _ _ _)⟩)
    | refresh k =>
      have hst : Stops _ _ := stops_refresh { e with agenda := rest } k
      refine h₀.mild (mild_refresh _ k) (calls_of_shell hst.shell) (.inr ⟨[], .nil ?_⟩)
      simp only [plan]
      rw [show Engine.agenda (act _ (.refresh k)) = rest from hst.agenda]
    | resume key =>
      refine h₀.resumes ?_ (resumes_resume _ _)
      have ho := h.orderly
      have hp : e.plan = .resume key :: ({ e with agenda := rest } : Engine).plan := by
        simp [plan, ha, Action.isQuiet]
      rw [hp] at ho
      exact ho
    | _ => simp [Action.isQuiet] at hq

theorem accounted_make (registry : Registry) (outside : Outside) (settings : Dict Json)
    (processEnv : Dict String) (closeTimeout : Nat) :
    Accounted (make registry outside settings processEnv closeTimeout) := by
  have hl (k : LevelKey) : (make registry outside settings processEnv closeTimeout).level? k = none := rfl
  refine ⟨fun k l h => ?_, fun j c h => ?_, ?_, trivial, by simp [plan, make]⟩
  · rw [hl] at h
    cases h
  · simp [call?, make] at h
  · rintro k ⟨l, h, -⟩
    rw [hl] at h
    cases h

theorem Accounted.input (h : Accounted e) (hk : KeysBelow e) (ha : e.agenda = []) (hi : Input e e') :
    Accounted e' := by
  have hp : e.plan = [] := by
    unfold plan
    rw [ha]
    rfl
  cases hi with
  | @call stages ho =>
    have hl (j : LevelKey) : (e.begin stages).1.level? j = e.level? j := by
      unfold begin
      exact level?_of_still (quiet_wake _ _).still j
    have hpl : (e.begin stages).1.plan = [] := by
      unfold begin plan
      dsimp only
      rw [wake_agenda]
      exact hp
    have hm : Mild e (e.begin stages).1 := .of_level? hl
    refine ⟨hm.emptied h.emptied, fun j c hj => ?_, fun k hs => ?_, by rw [hpl]; trivial, by simp [hpl]⟩
    · rw [call?_begin hk] at hj
      split at hj
      · cases hj
        simp [Call.make]
      · exact h.restores j c hj
    · obtain ⟨j, c, hj, hw⟩ := h.inFlight k (hm.isStopping hs)
      refine ⟨j, c, ?_, hw⟩
      rw [call?_begin hk, if_neg (Nat.ne_of_lt (hk _ (mem_calls_of_call? hj)))]
      exact hj
  | quiet hq =>
    exact h.mild (.still hq.still) (calls_of_still hq.still) (.inr ⟨[], .nil hq.plan⟩)
  | keep levels nodes => exact h.mild (.of_level? fun _ => rfl) rfl (.inr ⟨[], .nil rfl⟩)
  | flow hk hc => exact h.mild (.addLevel e (by simp [Level.make])) rfl (.inr ⟨[], .nil rfl⟩)
  | @update k config hk hc =>
    have hm : Mild e (e.modifyLevel k fun l => { l with config }) :=
      .modifyLevel _ _ _ fun _ h => ⟨h, id⟩
    exact h.mild hm rfl (.inr ⟨[], .nil rfl⟩)

theorem Reachable.accounted (h : Reachable e) : Accounted e :=
  h.invariant (fun r o s v t => accounted_make r o s v t) (fun _ _ _ ha ht => ha.tick ht)
    fun _ _ hr ha hn hi => ha.input hr.keysBelow hn hi

/-- With every call over, no level is in its stopping phase. -/
theorem Reachable.not_isStopping (h : Reachable e) (hr : ∀ j c, e.call? j = some c → c.waiting = [])
    (k : LevelKey) : ¬e.IsStopping k := by
  intro hk
  obtain ⟨j, c, hj, s, hs, -⟩ := h.accounted.inFlight k hk
  rw [hr j c hj] at hs
  simp at hs

end Engine
end Flowgraph
