import Flowgraph.Kind.Probe
import Flowgraph.Proofs.Solo
import Flowgraph.Proofs.Vacancy
/-! A level that has been stopped stays so until it is started. Nothing comes to be active in it, and its phase
changes only when a stop that had begun before puts back the phase it found. -/
namespace Flowgraph

/-- The stage starts this level, or may go on to do so. -/
def Stage.Starts (k : LevelKey) : Stage → Prop
  | .start j _ | .apply j _ _ => j = k
  | .deployNodes .. => True
  | _ => False

namespace Engine

variable {e e' e'' : Engine} {k : LevelKey} {p : Phase} {key : CallKey}

/-- No call is going to start the level. -/
def Unstarted (e : Engine) (k : LevelKey) : Prop :=
  ∀ j c, e.call? j = some c → ∀ stage ∈ c.stages, ¬stage.Starts k

/-- No start of the level is under way. -/
structure Calm (k : LevelKey) (e : Engine) : Prop where
  unstarted : e.Unstarted k
  makes : ∀ a ∈ e.plan, a.makesIn? ≠ some k

/-- A stop of the level is under way, with the phase it found. -/
def Held (e : Engine) (k : LevelKey) (held : Bool × Phase) : Prop :=
  ∃ j c, e.call? j = some c ∧ ∃ s ∈ c.waiting, held ∈ s.heldAt k

theorem SameWaiting.held (h : SameWaiting e e') {held : Bool × Phase} (hh : e'.Held k held) : e.Held k held := by
  obtain ⟨j, c, hc, s, hs, hm⟩ := hh
  have hw := h j
  rw [hc] at hw
  obtain ⟨c', hc', he⟩ := Option.map_eq_some_iff.mp hw.symm
  exact ⟨j, c', hc', s, by rw [he]; exact hs, hm⟩

/-- What a step does to a level that no call is going to start. -/
structure Soothes (k : LevelKey) (e e' : Engine) : Prop where
  calm : Calm k e'
  vacant : ∀ p, Vacant e k p → ∃ p', Vacant e' k p' ∧
    (p' = p ∨ p' = .stopped ∨ ∃ held, e.Held k held ∧ p' = phaseAfter held)
  held : ∀ p, Vacant e k p → ∀ held, e'.Held k held → e.Held k held

theorem Soothes.of_vacant (hc : Calm k e') (hv : ∀ p, Vacant e k p → Vacant e' k p) (hw : SameWaiting e e') :
    Soothes k e e' :=
  ⟨hc, fun p h => ⟨p, hv p h, .inl rfl⟩, fun _ _ _ h => hw.held h⟩

/-! ## Calls that do not start the level -/

theorem unstarted_of_calls (h : e'.calls = e.calls) (hu : e.Unstarted k) : e'.Unstarted k := fun j c hc =>
  hu j c ((call?_of_calls h j).symm.trans hc)

theorem unstarted_modifyCall {f : Call → Call} (hu : e.Unstarted k)
    (hf : ∀ c, e.call? key = some c → ∀ stage ∈ (f c).stages, ¬stage.Starts k) :
    (e.modifyCall key f).Unstarted k := by
  intro j c hc
  rw [call?_modifyCall] at hc
  split at hc
  · rename_i hj
    subst hj
    obtain ⟨c', hc', rfl⟩ := Option.map_eq_some_iff.mp hc
    exact hf c' hc'
  · exact hu j c hc

theorem unstarted_proceed (hu : e.Unstarted k) {stages : List Stage} (hs : ∀ stage ∈ stages, ¬stage.Starts k) :
    (e.proceed key stages).Unstarted k := by
  have h : (e.modifyCall key fun c => { c with stages := stages ++ c.stages }).Unstarted k :=
    unstarted_modifyCall hu fun c hc stage hm =>
      (List.mem_append.mp hm).elim (hs stage) (hu key c hc stage)
  exact h

theorem unstarted_refuse (hu : e.Unstarted k) (fault : FlowFault) : (e.refuse key fault).Unstarted k := by
  have h : (e.modifyCall key fun c => { c with stages := [], fault := some fault }).Unstarted k :=
    unstarted_modifyCall hu fun c _ stage hm => by cases hm
  exact h

theorem unstarted_hold (hu : e.Unstarted k) (levels : List LevelKey) : (e.hold key levels).Unstarted k := by
  have h : (e.modifyCall key fun c => { c with holds := levels ++ c.holds }).Unstarted k :=
    unstarted_modifyCall hu fun c hc => hu key c hc
  exact h

/-! ## Making nodes elsewhere -/

/-- The making of a node in another level plans none in this one. -/
theorem Opens.elsewhere {j : LevelKey} {usage : Record} {t : Template} (h : Opens e j usage t e') (hj : j ≠ k)
    (hk : k < e.levels.size) : e'.level? k = e.level? k ∧ ∀ a ∈ e'.plan, a ∈ e.plan ∨ a.makesIn? ≠ some k := by
  have hne : k ≠ e.levels.size := Nat.ne_of_lt hk
  cases h with
  | nowhere => exact ⟨rfl, fun a ha => .inl ha⟩
  | breaks => exact ⟨rfl, by simp [plan]⟩
  | collapses =>
    refine ⟨?_, fun a ha => .inl (by rwa [plan_failCreation] at ha)⟩
    rw [level?_failCreation, if_neg hj, level?_withInstance, if_neg hne]
  | @opens l nodes order hl hx ho =>
    obtain ⟨env, hlevel⟩ := level?_opened e j l (.make t usage e.nextPrivate) nodes order
    refine ⟨by rw [hlevel, if_neg hne], fun a ha => ?_⟩
    unfold opened at ha
    rw [plan_activated, plan_push] at ha
    rcases List.mem_append.mp ha with ha | ha
    · rcases List.mem_append.mp ha with ha | ha
      · obtain ⟨r, -, rfl⟩ := mem_creations ha
        exact .inr fun h => hne (Option.some.inj h).symm
      · obtain rfl := List.mem_singleton.mp ha
        exact .inr (by simp [Action.makesIn?])
    · rcases List.mem_append.mp ha with ha | ha
      · obtain rfl := List.mem_singleton.mp ha
        exact .inr fun h => hj (Option.some.inj h)
      · exact .inl ha

theorem Creates.elsewhere {j : LevelKey} {r : Record} {templates : Templates} (h : Creates e j r templates e')
    (hj : j ≠ k) (hk : k < e.levels.size) :
    e'.level? k = e.level? k ∧ ∀ a ∈ e'.plan, a ∈ e.plan ∨ a.makesIn? ≠ some k := by
  have hfail (r : Record) (fault : NodeFault) : (e.failCreation j r fault).level? k = e.level? k ∧
      ∀ a ∈ (e.failCreation j r fault).plan, a ∈ e.plan ∨ a.makesIn? ≠ some k := by
    refine ⟨?_, fun a ha => .inl (by rwa [plan_failCreation] at ha)⟩
    rw [level?_failCreation, if_neg hj]
  cases h with
  | present => exact ⟨rfl, fun a ha => .inl ha⟩
  | noTemplate => exact hfail _ _
  | refused => exact hfail _ _
  | made =>
    refine ⟨?_, fun a ha => .inl (by rwa [plan_enter] at ha)⟩
    rw [level?_enter, if_neg hj]
    rfl
  | usage _ _ _ ho => exact ho.elsewhere hj hk

theorem Rewires.vacant (h : Rewires e e') (hv : Vacant e k p) : Vacant e' k p := by
  refine h.invariant (P := fun s => Vacant s k p) (fun s s' hs ht => ?_) hv
  cases ht with
  | nodes inst nodes _ => exact hs.modifyLevel _ (fun _ h => h) fun _ _ => rfl
  | _ => exact hs

/-! ## Stops of a call -/

/-- What stops of a call leave of a vacant level. -/
def Sets (k : LevelKey) (e e' : Engine) (held held' : List (Bool × Phase)) : Prop :=
  ∀ p, Vacant e k p → (∃ p', Vacant e' k p' ∧ (p' = p ∨ p' = .stopped ∨ ∃ h ∈ held, p' = phaseAfter h)) ∧
    ∀ h ∈ held', h ∈ held

theorem sets_beginStops (key : CallKey) (requests : List StopRequest) (s : Engine × List Stopping)
    (h : Sets k e s.1 [] (s.2.flatMap (·.heldAt k))) :
    Sets k e (beginStops key s requests).1 [] ((beginStops key s requests).2.flatMap (·.heldAt k)) := by
  induction requests generalizing s with
  | nil => exact h
  | cons request requests ih =>
    refine ih _ fun p hp => ?_
    obtain ⟨⟨q, hq, hpq⟩, hheld⟩ := h p hp
    have hb := passes_beginStop key (s.1.levelCount + 1) s.1 request q hq
    obtain ⟨p', hv, hp'⟩ := hb.vacant
    refine ⟨⟨p', hv, ?_⟩, fun x hx => ?_⟩
    · rcases hp' with rfl | rfl
      · exact hpq
      · exact .inr (.inl rfl)
    · rw [List.flatMap_append, List.mem_append] at hx
      rcases hx with hx | hx
      · exact hheld x hx
      · have hnil : (s.1.stop key request).2.heldAt k = [] := hb.held
        simp [hnil] at hx

theorem sets_pollStops (key : CallKey) (stops : List Stopping) (s : Engine × List Stopping) :
    Sets k s.1 (pollStops key s stops).1 ((s.2 ++ stops).flatMap (·.heldAt k))
      ((pollStops key s stops).2.flatMap (·.heldAt k)) := by
  induction stops generalizing s with
  | nil =>
    intro p hp
    refine ⟨⟨p, hp, .inl rfl⟩, fun x hx => ?_⟩
    rw [List.append_nil]
    exact hx
  | cons stop stops ih =>
    intro p hp
    have hl := lasts_pollStop key s.1 hp stop
    obtain ⟨q, hq, hpq⟩ := hl.vacant
    obtain ⟨⟨p', hv, hp'⟩, hheld⟩ := ih ((pollStop key s.1 stop).1, s.2 ++ [(pollStop key s.1 stop).2]) q hq
    have hmem (x : Bool × Phase) (hx : x ∈ (s.2 ++ [(pollStop key s.1 stop).2] ++ stops).flatMap (·.heldAt k)) :
        x ∈ (s.2 ++ stop :: stops).flatMap (·.heldAt k) := by
      simp only [List.flatMap_append, List.flatMap_cons, List.flatMap_nil, List.append_nil, List.mem_append] at hx ⊢
      rcases hx with (hx | hx) | hx
      · exact .inl hx
      · exact .inr (.inl (hl.held x hx))
      · exact .inr (.inr hx)
    refine ⟨⟨p', hv, ?_⟩, fun x hx => hmem x (hheld x hx)⟩
    rcases hp' with rfl | rfl | ⟨x, hx, rfl⟩
    · rcases hpq with hpq | ⟨x, hx, he⟩
      · exact .inl hpq
      · refine .inr (.inr ⟨x, ?_, he⟩)
        simp only [List.flatMap_append, List.flatMap_cons, List.mem_append]
        exact .inr (.inl hx)
    · exact .inr (.inl rfl)
    · exact .inr (.inr ⟨x, hmem x hx, rfl⟩)

/-- A call takes up the stops it has begun or gone on with. -/
theorem Soothes.proceeds {m : Engine} {stops : List Stopping} {c : Call} (h : Calm k e)
    (hc : e.call? key = some c) (hcalls : m.calls = e.calls) (hplan : m.plan = e.plan)
    (hs : Sets k e m (c.waiting.flatMap (·.heldAt k)) (stops.flatMap (·.heldAt k)))
    (h' : Proceeds m key stops e') : Soothes k e e' := by
  have hcall (f : Call → Call) (hf : ∀ c, (f c).stages = c.stages) : (m.modifyCall key f).Unstarted k :=
    unstarted_modifyCall (unstarted_of_calls hcalls h.unstarted) fun c hc stage hm =>
      h.unstarted key c ((call?_of_calls hcalls key).symm.trans hc) stage (hf c ▸ hm)
  have hheld (f : Call → Call) (hf : ∀ x ∈ (f c).waiting.flatMap (·.heldAt k),
      x ∈ stops.flatMap (·.heldAt k)) (p : Phase) (hp : Vacant e k p) (x : Bool × Phase)
      (hx : (m.modifyCall key f).Held k x) : e.Held k x := by
    obtain ⟨j, c', hj, s, hsw, hm⟩ := hx
    rw [call?_modifyCall] at hj
    split at hj
    · rename_i hkey
      subst hkey
      rw [call?_of_calls hcalls, hc] at hj
      cases hj
      have := (hs p hp).2 x (hf x (List.mem_flatMap.mpr ⟨s, hsw, hm⟩))
      obtain ⟨s', hs', hm'⟩ := List.mem_flatMap.mp this
      exact ⟨key, c, hc, s', hs', hm'⟩
    · exact ⟨j, c', (call?_of_calls hcalls j).symm.trans hj, s, hsw, hm⟩
  have hvacant (p : Phase) (hp : Vacant e k p) : ∃ p', Vacant m k p' ∧
      (p' = p ∨ p' = .stopped ∨ ∃ held, e.Held k held ∧ p' = phaseAfter held) := by
    obtain ⟨p', hv, hp'⟩ := (hs p hp).1
    refine ⟨p', hv, hp'.imp_right fun hp' => hp'.imp_right fun ⟨x, hx, he⟩ => ⟨x, ?_, he⟩⟩
    obtain ⟨s, hsw, hm⟩ := List.mem_flatMap.mp hx
    exact ⟨key, c, hc, s, hsw, hm⟩
  cases h' with
  | waits hlt hsil =>
    have hpl : e'.plan = m.plan := by
      unfold plan
      rw [hsil.agenda]
      rfl
    have hcalls' : e'.calls = (m.modifyCall key fun c => { c with waiting := stops }).calls :=
      calls_of_still hsil.still
    refine ⟨⟨unstarted_of_calls hcalls' (hcall (fun c => { c with waiting := stops }) fun _ => rfl),
      fun a ha => ?_⟩, fun p hp => ?_, fun p hp x hx => ?_⟩
    · rw [hpl, hplan] at ha
      exact h.makes a ha
    · obtain ⟨p', hv, hp'⟩ := hvacant p hp
      exact ⟨p', hv.of_level? (level?_of_still hsil.still k), hp'⟩
    · exact hheld (fun c => { c with waiting := stops }) (fun _ h => h) p hp x
        ((sameWaiting_of_calls hcalls').held hx)
  | done hlt =>
    refine ⟨⟨?_, fun a ha => ?_⟩, fun p hp => ?_, fun p hp x hx => ?_⟩
    · have := hcall (fun c =>
        { c with waiting := [], report := (reports stops).foldl (· ++ ·) c.report }) fun _ => rfl
      exact this
    · rw [plan_push] at ha
      rcases List.mem_append.mp ha with ha | ha
      · obtain rfl := List.mem_singleton.mp (List.mem_filter.mp ha).1
        simp [Action.makesIn?]
      · exact h.makes a (hplan ▸ ha)
    · exact hvacant p hp
    · exact hheld (fun c => { c with waiting := [], report := (reports stops).foldl (· ++ ·) c.report })
        (fun _ h => by cases h) p hp x hx

theorem Soothes.stopAll {c : Call} (h : Calm k e) (hc : e.call? key = some c) (requests : List StopRequest) :
    Soothes k e (e.stopAll key requests) := by
  have hst := stops_beginStops key (e, []) requests
  have hs := sets_beginStops (e := e) (k := k) key requests (e, []) fun p hp => ⟨⟨p, hp, .inl rfl⟩, fun x hx => hx⟩
  rw [stopAll_eq]
  refine .proceeds h hc (calls_of_shell hst.shell) ?_ (fun p hp => ?_) (proceeds_afterStops _ _ _)
  · unfold plan
    rw [hst.agenda]
  · obtain ⟨⟨p', hv, hp'⟩, hheld⟩ := hs p hp
    refine ⟨⟨p', hv, hp'.imp_right fun hp' => hp'.imp_right fun ⟨x, hx, _⟩ => by cases hx⟩, fun x hx => ?_⟩
    cases hheld x hx

theorem Soothes.pollAll {c : Call} (h : Calm k e) (hc : e.call? key = some c) :
    Soothes k e (e.pollAll key c.waiting) := by
  have hst := stops_pollStops key (e, []) c.waiting
  rw [pollAll_eq]
  refine .proceeds h hc (calls_of_shell hst.shell) ?_ ?_ (proceeds_afterStops _ _ _)
  · unfold plan
    rw [hst.agenda]
  · have := sets_pollStops (k := k) key c.waiting (e, [])
    simpa using this

/-! ## The stages of a call -/

/-- A stage that stops nothing. -/
theorem Soothes.stage (h : Calm k e) (hv : ∀ p, Vacant e k p → Vacant e' k p) (hw : SameWaiting e e') (hu : e'.Unstarted k)
    (hp : ∀ a ∈ e'.plan, a ∈ e.plan ∨ a.makesIn? ≠ some k) : Soothes k e e' :=
  .of_vacant ⟨hu, fun a ha => (hp a ha).elim (h.makes a) id⟩ hv hw

theorem mem_plan_proceed {a : Action} {stages : List Stage} (ha : a ∈ (e.proceed key stages).plan) :
    a ∈ e.plan ∨ a.makesIn? ≠ some k := by
  rw [plan_proceed] at ha
  rcases List.mem_cons.mp ha with rfl | ha
  · exact .inr (by simp [Action.makesIn?])
  · exact .inl ha

theorem mem_plan_refuse {a : Action} {fault : FlowFault} (ha : a ∈ (e.refuse key fault).plan) :
    a ∈ e.plan ∨ a.makesIn? ≠ some k := by
  rw [plan_refuse] at ha
  rcases List.mem_cons.mp ha with rfl | ha
  · exact .inr (by simp [Action.makesIn?])
  · exact .inl ha

/-- A step that leaves the calls alone, followed by the next stages. -/
theorem Soothes.proceed {m : Engine} (h : Calm k e) (hv : ∀ p, Vacant e k p → Vacant m k p) (hw : SameWaiting e m) (hu : m.Unstarted k)
    (hp : ∀ a ∈ m.plan, a ∈ e.plan ∨ a.makesIn? ≠ some k) {stages : List Stage}
    (hs : ∀ stage ∈ stages, ¬stage.Starts k) : Soothes k e (m.proceed key stages) := by
  refine .stage h (fun p hv' => (hv p hv').of_level? rfl) (hw.trans (sameWaiting_proceed _ _ _))
    (unstarted_proceed hu hs) fun a ha => ?_
  exact (mem_plan_proceed ha).elim (hp a) .inr

theorem Soothes.refuse {m : Engine} (h : Calm k e) (hv : ∀ p, Vacant e k p → Vacant m k p) (hw : SameWaiting e m) (hu : m.Unstarted k)
    (hp : ∀ a ∈ m.plan, a ∈ e.plan ∨ a.makesIn? ≠ some k) (fault : FlowFault) :
    Soothes k e (m.refuse key fault) := by
  refine .stage h (fun p hv' => (hv p hv').of_level? rfl) (hw.trans (sameWaiting_refuse _ _ _))
    (unstarted_refuse hu fault) fun a ha => ?_
  exact (mem_plan_refuse ha).elim (hp a) .inr

theorem Starts.soothes {j : LevelKey} {diff : Option Diff} (hs : Starts e key j diff e') (h : Calm k e)
    (hj : j ≠ k) : Soothes k e e' := by
  have hsame (p : Phase) (hv : Vacant e k p) : Vacant e k p := hv
  cases hs with
  | nowhere => exact .proceed h hsame (fun _ => rfl) h.unstarted (fun _ => .inl) (by simp)
  | refused => exact .refuse h hsame (fun _ => rfl) h.unstarted (fun _ => .inl) _
  | fresh =>
    refine .proceed (m := e.modifyLevel j fun l => { l with failures := [] }) h (fun p hv => ?_) (fun _ => rfl) h.unstarted
      (fun _ => .inl) ?_
    · exact hv.modifyLevel j (fun _ h => h) fun _ _ => rfl
    · rintro stage hm
      obtain rfl := List.mem_singleton.mp hm
      exact hj
  | again =>
    refine .proceed h hsame (fun _ => rfl) h.unstarted (fun _ => .inl) fun stage hm => ?_
    rcases List.mem_append.mp hm with hm | hm
    · split at hm
      · cases hm
      · obtain rfl := List.mem_singleton.mp hm
        exact id
    · obtain rfl := List.mem_singleton.mp hm
      exact hj

theorem Applies.soothes {j : LevelKey} {config : FlowConfig} {diff : Option Diff}
    (ha : Applies e key j config diff e') (h : Calm k e) (hj : j ≠ k) : Soothes k e e' := by
  have hv (p : Phase) (hv : Vacant e k p) : Vacant (e.rewired j config diff) k p := by
    unfold rewired
    refine Vacant.modifyLevel ?_ j (fun _ h => h) fun _ he => absurd he hj
    cases diff with
    | none => exact hv
    | some d => exact (rewires_rewire e j config d).vacant hv
  have hw := sameWaiting_of_calls (calls_rewired e j config diff)
  have hu : (e.rewired j config diff).Unstarted k := unstarted_of_calls (calls_rewired e j config diff) h.unstarted
  have hp (a : Action) (ha : a ∈ (e.rewired j config diff).plan) : a ∈ e.plan ∨ a.makesIn? ≠ some k := by
    cases diff with
    | none => exact .inl ha
    | some d =>
      change a ∈ ((e.rewire j config d).agenda.filter fun a => !a.isQuiet) at ha
      rcases (rewires_rewire e j config d).frame.2 with hr | hr
      · rw [hr] at ha
        exact .inl ha
      · rw [hr] at ha
        cases ha
  have hq (a : Action) (ha : a ∈ ((e.rewired j config diff).push [.announce j, .resume key]).plan) :
      a ∈ e.plan ∨ a.makesIn? ≠ some k := by
    rw [plan_push] at ha
    rcases List.mem_append.mp ha with ha | ha
    · obtain rfl := List.mem_singleton.mp (show a ∈ [Action.resume key] from ha)
      exact .inr (by simp [Action.makesIn?])
    · exact hp a ha
  cases ha with
  | nowhere => exact .stage h (fun p hv' => (hv p hv').of_level? rfl) hw hu hq
  | refused => exact .refuse h hv hw hu hp _
  | activates =>
    refine .stage h (fun p hv' => ?_) hw hu fun a ha => ?_
    · have hpush : Vacant ((e.rewired j config diff).push [.announce j, .resume key]) k p := (hv p hv').of_level? rfl
      refine hpush.of_level? ?_
      rw [level?_activated, if_neg hj]
    · rw [plan_activated] at ha
      rcases List.mem_append.mp ha with ha | ha
      · rcases List.mem_append.mp ha with ha | ha
        · obtain ⟨r, -, rfl⟩ := mem_creations ha
          exact .inr fun he => hj (Option.some.inj he)
        · obtain rfl := List.mem_singleton.mp ha
          exact .inr (by simp [Action.makesIn?])
      · exact hq a ha

/-- The flow of a new tab, or the global one, is another level. -/
theorem Soothes.make (h : Calm k e) (hk : k < e.levels.size) {l : Level} {m : Engine}
    (hl : m.levels = (e.addLevel l).1.levels) (hc : m.calls = e.calls) (ha : m.agenda = e.agenda)
    (levels : List LevelKey) {stages : List Stage} (hs : ∀ stage ∈ stages, ¬stage.Starts k) :
    Soothes k e ((m.hold key levels).proceed key stages) := by
  refine .proceed h (fun p hv => hv.of_level? ?_) ((sameWaiting_of_calls hc).trans (sameWaiting_hold _ _ _))
    (unstarted_hold (unstarted_of_calls hc h.unstarted) levels) (fun a hm => .inl ?_) hs
  · have hsame : (m.hold key levels).level? k = (e.addLevel l).1.level? k := by
      rw [level?_hold, level?, hl]
      rfl
    rw [hsame, level?_addLevel, if_neg (Nat.ne_of_lt hk)]
  · unfold plan at hm ⊢
    rw [show (m.hold key levels).agenda = e.agenda from ha] at hm
    exact hm

theorem Soothes.runStage {c : Call} (h : Calm k e) (hk : k < e.levels.size) (hc : e.call? key = some c)
    {stage : Stage} (hs : ¬stage.Starts k) : Soothes k e (e.runStage key stage) := by
  have hsame (p : Phase) (hv : Vacant e k p) : Vacant e k p := hv
  have hplain {m : Engine} (hl : m.levels = e.levels) (hc : m.calls = e.calls) (ha : m.agenda = e.agenda) :
      Soothes k e (m.proceed key []) := by
    refine .proceed h (fun p hv => hv.of_level? (by simp only [level?, hl])) (sameWaiting_of_calls hc)
      (unstarted_of_calls hc h.unstarted) (fun a hm => .inl ?_) (by simp)
    unfold plan at hm ⊢
    rw [ha] at hm
    exact hm
  have hnew : e.levels.size ≠ k := Ne.symm (Nat.ne_of_lt hk)
  cases stage with
  | stop requests => exact .stopAll h hc _
  | stopAmong levels ids removed => exact .stopAll h hc _
  | start j diff => exact (starts_start e key j diff).soothes h hs
  | apply j config diff => exact (applies_apply e key j config diff).soothes h hs
  | update j config =>
    refine .proceed (m := e.modifyLevel j fun l => { l with config }) h (fun p hv => ?_) (fun _ => rfl) h.unstarted
      (fun _ => .inl) (by simp)
    exact hv.modifyLevel j (fun _ h => h) fun _ _ => rfl
  | deployNodes previous next diff => exact absurd trivial hs
  | stopAll =>
    refine .proceed (m := ({ e with flows := [], global := none } : Engine).hold key _) h
      (fun p hv => hv.of_level? rfl) (sameWaiting_hold { e with flows := [], global := none } key _)
      (unstarted_hold (e := { e with flows := [], global := none }) h.unstarted _) (fun _ => .inl) ?_
    simp [Stage.Starts]
  | startAll next =>
    change Soothes k e (e.startAll key next)
    unfold Engine.startAll
    split
    · exact .refuse h hsame (fun _ => rfl) h.unstarted (fun _ => .inl) _
    · refine Soothes.make (m := { (e.addLevel (.make .global none next.global)).1 with
        global := some e.levels.size }) h hk rfl rfl rfl [e.levels.size] fun stage hm => ?_
      simp only [List.cons_append, List.nil_append, List.mem_cons, List.mem_append, List.mem_map] at hm
      rcases hm with rfl | ⟨tab, -, rfl⟩ | hm
      · exact hnew
      · exact id
      · rcases hm with rfl | hm
        · exact id
        · cases hm
  | startTab config listed =>
    change Soothes k e (e.startTab key config listed)
    unfold Engine.startTab
    split
    · exact .proceed h hsame (fun _ => rfl) h.unstarted (fun _ => .inl) (by simp)
    · refine Soothes.make (m := (e.addLevel (.make .tab none config)).1) h hk rfl rfl rfl [e.levels.size]
        fun stage hm => ?_
      simp only [List.mem_cons, List.not_mem_nil, or_false] at hm
      rcases hm with rfl | rfl
      · exact hnew
      · split <;> exact id
  | enlist j => exact hplain (m := { e with flows := e.flows ++ [j] }) rfl rfl rfl
  | gather j =>
    refine .proceed (m := e.modifyCall key fun c => { c with gathered := c.gathered ++ [j] }) h
      (fun p hv => hv.of_level? rfl) (sameWaiting_modifyCall e key _ fun _ => rfl) ?_ (fun _ => .inl) (by simp)
    exact unstarted_modifyCall h.unstarted fun c hc => h.unstarted key c hc
  | enlistGathered => exact hplain (m := { e with flows := _ }) rfl rfl rfl
  | commit next => exact hplain (m := { e with deployed := some next }) rfl rfl rfl
  | withdraw => exact hplain (m := { e with deployed := none }) rfl rfl rfl
  | stuck =>
    refine .stage h (fun p hv => hv.of_level? rfl)
      (sameWaiting_modifyCall e key (fun c => { c with stages := .stuck :: c.stages }) fun _ => rfl) ?_
      fun _ => .inl
    refine unstarted_modifyCall h.unstarted fun c hc stage hm => ?_
    rcases List.mem_cons.mp hm with rfl | hm
    · exact id
    · exact h.unstarted key c hc stage hm

/-! ## Steps -/

theorem Calm.modifyCall {f : Call → Call} (h : Calm k e)
    (hf : ∀ c, e.call? key = some c → ∀ stage ∈ (f c).stages, stage ∈ c.stages) : Calm k (e.modifyCall key f) :=
  ⟨unstarted_modifyCall h.unstarted fun c hc stage hm => h.unstarted key c hc stage (hf c hc stage hm), h.makes⟩

theorem Soothes.after (h : Soothes k e' e'') (hv : ∀ p, Vacant e k p → Vacant e' k p) (hw : SameWaiting e e') :
    Soothes k e e'' := by
  refine ⟨h.calm, fun p hp => ?_, fun p hp held hh => hw.held (h.held p (hv p hp) held hh)⟩
  obtain ⟨p', hv', hp'⟩ := h.vacant p (hv p hp)
  exact ⟨p', hv', hp'.imp_right fun hp' => hp'.imp_right fun ⟨held, hh, he⟩ => ⟨held, hw.held hh, he⟩⟩

theorem Resumes.soothes (hr : Resumes e key e') (h : Calm k e) (hk : k < e.levels.size) : Soothes k e e' := by
  cases hr with
  | unknown => exact .of_vacant h (fun _ hv => hv) fun _ => rfl
  | ends =>
    exact .of_vacant (h.modifyCall fun c _ stage hm => hm) (fun p hv => hv.of_level? rfl)
      (sameWaiting_modifyCall e key _ fun _ => rfl)
  | @stage c stage rest hc hw hs =>
    have hcalm : Calm k (e.modifyCall key fun c => { c with stages := rest }) := by
      refine h.modifyCall fun c' hc' stage hm => ?_
      obtain rfl := Option.some.inj (hc.symm.trans hc')
      rw [hs]
      exact List.mem_cons_of_mem _ hm
    have hrun : Soothes k (e.modifyCall key fun c => { c with stages := rest })
        ((e.modifyCall key fun c => { c with stages := rest }).runStage key stage) := by
      refine .runStage (c := { c with stages := rest }) hcalm hk ?_
        (h.unstarted key c hc stage (by rw [hs]; exact List.mem_cons_self))
      rw [call?_modifyCall, if_pos rfl, hc]
      rfl
    exact hrun.after (fun p hv => hv.of_level? rfl) (sameWaiting_modifyCall e key _ fun _ => rfl)
  | waits hc hw => exact .pollAll h hc

theorem Calm.tick (h : Calm k e) (hk : k < e.levels.size) (ht : Tick e e') : Soothes k e e' := by
  have hstill (hs : e'.still = e.still) (hp : ∀ a ∈ e'.plan, a ∈ e.plan ∨ a.makesIn? ≠ some k) : Soothes k e e' :=
    .stage h (fun p hv => hv.still hs) (sameWaiting_of_calls (calls_of_still hs))
      (unstarted_of_calls (calls_of_still hs) h.unstarted) hp
  rcases ht.kinds with ⟨hs, hp⟩ | ⟨key, -, hs, ha⟩ | ⟨a, rest, -, hq, ha, rfl⟩
  · exact hstill hs fun a ha => .inl (hp ▸ ha)
  · refine hstill hs fun a hm => .inr ?_
    have hm := (List.mem_filter.mp hm).1
    rw [ha] at hm
    obtain rfl := List.mem_singleton.mp hm
    simp [Action.makesIn?]
  have h₀ : Calm k { e with agenda := rest } := ⟨h.unstarted, fun b hb => h.makes b (mem_plan_pop ha hb)⟩
  have hmem : a ∈ e.plan := by simp [plan, ha, hq]
  have hpop : Soothes k { e with agenda := rest } (act { e with agenda := rest } a) →
      Soothes k e (act { e with agenda := rest } a) := fun h => h.after (fun p hv => hv.of_level? rfl) fun _ => rfl
  refine hpop ?_
  cases a with
  | create j r templates =>
    have hc := creates_create { e with agenda := rest } j r templates
    have hj : j ≠ k := fun he => h.makes _ hmem (congrArg some he)
    obtain ⟨hl, hp⟩ := hc.elsewhere hj hk
    exact .stage h₀ (fun p hv => hv.of_level? hl) (sameWaiting_of_calls (calls_of_register hc.register))
      (unstarted_of_calls (calls_of_register hc.register) h₀.unstarted) hp
  | install j r inst =>
    have hj : j ≠ k := fun he => h.makes _ hmem (congrArg some he)
    have hcalls : (act { e with agenda := rest } (.install j r inst)).calls = e.calls :=
      calls_of_register (register_enter _ _ _ _)
    refine .stage h₀ (fun p hv => hv.of_level? ?_) (sameWaiting_of_calls hcalls)
      (unstarted_of_calls hcalls h.unstarted) fun a ha => .inl ?_
    · refine (level?_enter _ _ _ _ _).trans ?_
      rw [if_neg hj, level?_modifyLevel, if_neg hj]
    · change a ∈ (Engine.install _ j r inst).plan at ha
      unfold Engine.install at ha
      rwa [plan_enter] at ha
  | refresh j =>
    have hst : Stops _ _ := stops_refresh { e with agenda := rest } j
    refine .stage h₀ (fun p hv => ?_) (sameWaiting_of_calls (calls_of_shell hst.shell))
      (unstarted_of_calls (calls_of_shell hst.shell) h₀.unstarted) fun a ha => .inl ?_
    · obtain ⟨rs, hl⟩ := level?_refresh { e with agenda := rest } k j
      obtain ⟨l, hlk, hact, hph⟩ := hv
      rw [hlk] at hl
      split at hl
      · exact ⟨_, hl, hact, hph⟩
      · exact ⟨_, hl, hact, hph⟩
    · unfold plan at ha ⊢
      rwa [show Engine.agenda (act _ (.refresh j)) = rest from hst.agenda] at ha
  | resume key => exact (resumes_resume _ key).soothes h₀ hk
  | _ => simp [Action.isQuiet] at hq

theorem Input.soothes (hi : Input e e') (ha : e.agenda = []) (hb : KeysBelow e) (hk : k < e.levels.size)
    (hu : e'.Unstarted k) : Soothes k e e' := by
  have hcalm (hp : e'.plan = []) : Calm k e' := ⟨hu, by simp [hp]⟩
  have hplan : e.plan = [] := by
    unfold plan
    rw [ha]
    rfl
  cases hi with
  | @call stages ho =>
    have hp : (e.begin stages).1.plan = [] := by
      unfold begin plan
      dsimp only
      rw [wake_agenda]
      exact hplan
    refine ⟨hcalm hp, fun p hv => ⟨p, hv.of_level? (level?_begin _ _ _), .inl rfl⟩, fun p _ held hh => ?_⟩
    obtain ⟨j, c, hj, s, hs, hm⟩ := hh
    rw [call?_begin hb] at hj
    split at hj
    · cases hj
      simp [Call.make] at hs
    · exact ⟨j, c, hj, s, hs, hm⟩
  | quiet hq =>
    exact .of_vacant (hcalm (hq.plan.trans hplan)) (fun p hv => hv.still hq.still)
      (sameWaiting_of_calls (calls_of_still hq.still))
  | keep => exact .of_vacant (hcalm hplan) (fun p hv => hv.of_level? rfl) fun _ => rfl
  | flow =>
    refine .of_vacant (hcalm hplan) (fun p hv => hv.of_level? ?_) fun _ => rfl
    rw [level?_addLevel, if_neg (Nat.ne_of_lt hk)]
  | @update j config =>
    exact .of_vacant (hcalm hplan) (fun p hv => hv.modifyLevel j (fun _ h => h) fun _ _ => rfl) fun _ => rfl

/-! ## Runs without a start -/

/-- A run in which no start of the level begins. -/
inductive Undisturbed (k : LevelKey) (e : Engine) : Engine → Prop
  | refl : Undisturbed k e e
  | tick {e' e'' : Engine} (h : Undisturbed k e e') (ht : Tick e' e'') : Undisturbed k e e''
  | input {e' e'' : Engine} (h : Undisturbed k e e') (ha : e'.agenda = []) (hi : Input e' e'')
      (hu : e''.Unstarted k) : Undisturbed k e e''

namespace Undisturbed

theorem of_reach (h : Reach e e') : Undisturbed k e e' := h.invariant (fun _ _ hs ht => hs.tick ht) .refl

theorem reachable (h : Undisturbed k e e') (hr : Reachable e) : Reachable e' := by
  induction h with
  | refl => exact hr
  | tick _ ht ih => exact ih.tick ht
  | input _ ha hi _ ih => exact ih.input ha hi

theorem grows (h : Undisturbed k e e') : Grows e e' := by
  induction h with
  | refl => exact .refl e
  | tick _ ht ih => exact ih.trans ht.grows
  | input _ _ hi _ ih => exact ih.trans hi.grows

theorem known (h : Undisturbed k e e') (hk : k < e.levels.size) : k < e'.levels.size := by
  obtain ⟨l', hl', -⟩ := h.grows.level k e.levels[k] (Array.getElem?_eq_getElem hk)
  exact level?_lt e' k hl'

/-- What every step and every input that starts nothing preserves holds at the end of the run. -/
theorem soothes {P : Engine → Prop} (h : Undisturbed k e e') (hr : Reachable e) (hk : k < e.levels.size)
    (hc : Calm k e) (hp : P e) (tick : ∀ s s', Calm k s → k < s.levels.size → P s → Tick s s' → P s')
    (input : ∀ s s', s.agenda = [] → KeysBelow s → Soothes k s s' → P s → Input s s' → P s') :
    Calm k e' ∧ P e' := by
  induction h with
  | refl => exact ⟨hc, hp⟩
  | tick h ht ih => exact ⟨(ih.1.tick (h.known hk) ht).calm, tick _ _ ih.1 (h.known hk) ih.2 ht⟩
  | input h ha hi hu ih =>
    have hs := hi.soothes ha (h.reachable hr).keysBelow (h.known hk) hu
    exact ⟨hs.calm, input _ _ ha (h.reachable hr).keysBelow hs ih.2 hi⟩

end Undisturbed

/-- Nothing is active, and the phase is that of a stopped level or one that a stop of these puts back. -/
def Rests (e : Engine) (k : LevelKey) (s : Engine) : Prop :=
  (∃ p, Vacant s k p ∧ (p = .stopped ∨ e.Held k (false, p))) ∧ ∀ held, s.Held k held → e.Held k held

theorem Rests.soothes {s s' : Engine} (h : Rests e k s) (hs : Soothes k s s') : Rests e k s' := by
  obtain ⟨⟨p, hv, hp⟩, hheld⟩ := h
  refine ⟨?_, fun held hh => hheld held (hs.held p hv held hh)⟩
  obtain ⟨p', hv', rfl | rfl | ⟨⟨full, previous⟩, hh, rfl⟩⟩ := hs.vacant p hv
  · exact ⟨p', hv', hp⟩
  · exact ⟨_, hv', .inl rfl⟩
  · refine ⟨_, hv', ?_⟩
    cases full with
    | true => exact .inl rfl
    | false => exact .inr (hheld _ hh)

/-! ## The stop of a whole level -/

/-- A stop of the whole level, asked for or under way. -/
inductive Halting (k : LevelKey) (e : Engine) (key : CallKey) : Prop
  | asked {c : Call} {removal : Removal} (hc : e.call? key = some c)
      (hs : c.stages = [.stop [⟨k, none, removal⟩]]) (hw : c.waiting = [])
  | goesOn {c : Call} {previous : Phase} {backward : Bool} {closings : List Closing} (hc : e.call? key = some c)
      (hs : c.stages = []) (hw : c.waiting = [.running k true previous backward closings])
      (hv : ∃ p, Vacant e k p)

/-- The call has nothing left to do, and the level is stopped. -/
def Halted (k : LevelKey) (e : Engine) (key : CallKey) : Prop :=
  (∃ c, e.call? key = some c ∧ c.over = true) ∧ Vacant e k .stopped

/-- A call whose only stop goes on, or is over. -/
theorem halting_of_proceeds {e₁ : Engine} {s : Stopping} {c : Call} {previous : Phase}
    (hc : e₁.call? key = some c) (hs : c.stages = [])
    (h : (∃ backward closings, (∃ p, Vacant e₁ k p) ∧ s = .running k true previous backward closings) ∨
      ∃ report, Vacant e₁ k .stopped ∧ s = .finished report) (hp : Proceeds e₁ key [s] e') :
    Halting k e' key ∨ Halted k e' key := by
  rcases h with ⟨backward, closings, ⟨p, hv⟩, rfl⟩ | ⟨report, hv, rfl⟩
  · cases hp with
    | waits _ hsil =>
      refine .inl (.goesOn (c := { c with waiting := [.running k true previous backward closings] }) ?_ hs rfl
        ⟨p, hv.of_level? (level?_of_still hsil.still k)⟩)
      rw [call?_of_still hsil.still, call?_modifyCall, if_pos rfl, hc]
      rfl
    | done hlt => exact absurd (show 0 < 1 by omega) hlt
  · cases hp with
    | waits hlt _ => exact absurd (show 1 < 1 from hlt) (by omega)
    | done _ =>
      refine .inr ⟨⟨{ c with waiting := [], report := c.report ++ report }, ?_, ?_⟩, hv.of_level? rfl⟩
      · rw [call?_push, call?_modifyCall, if_pos rfl, hc]
        rfl
      · simp [Call.over, hs]

theorem Halting.resumes (h : Halting k e key) (hk : k < e.levels.size) (hr : Resumes e key e') :
    Halting k e' key ∨ Halted k e' key := by
  cases h with
  | @asked c removal hc hs hw =>
    cases hr with
    | unknown hn => rw [hn] at hc; cases hc
    | ends hc' _ hs' =>
      obtain rfl := Option.some.inj (hc.symm.trans hc')
      rw [hs] at hs'
      cases hs'
    | waits hc' hw' =>
      obtain rfl := Option.some.inj (hc.symm.trans hc')
      exact absurd hw hw'
    | @stage c' stage rest hc' _ hs' =>
      obtain rfl := Option.some.inj (hc.symm.trans hc')
      rw [hs] at hs'
      cases hs'
      have hl : (e.modifyCall key fun c => { c with stages := [] }).level? k = some e.levels[k] :=
        Array.getElem?_eq_getElem hk
      have hcall : (e.modifyCall key fun c => { c with stages := [] }).call? key = some { c with stages := [] } := by
        rw [call?_modifyCall, if_pos rfl, hc]
        rfl
      have hst := stops_stop (e.modifyCall key fun c => { c with stages := [] }) key ⟨k, none, removal⟩
      refine halting_of_proceeds ((call?_of_shell hst.shell key).trans hcall) rfl
        (vacant_beginFull key _ hl removal) ?_
      exact proceeds_afterStops _ _ _
  | @goesOn c previous backward closings hc hs hw hv =>
    cases hr with
    | unknown hn => rw [hn] at hc; cases hc
    | ends hc' hw' _ =>
      obtain rfl := Option.some.inj (hc.symm.trans hc')
      rw [hw] at hw'
      cases hw'
    | stage hc' hw' _ =>
      obtain rfl := Option.some.inj (hc.symm.trans hc')
      rw [hw] at hw'
      cases hw'
    | waits hc' _ =>
      obtain rfl := Option.some.inj (hc.symm.trans hc')
      obtain ⟨p, hv⟩ := hv
      have hst : Stops e (pollStop key e (.running k true previous backward closings)).1 := stops_pollStop key e _
      rw [hw]
      refine halting_of_proceeds ((call?_of_shell hst.shell key).trans hc) hs
        (vacant_pollFull key hv previous backward closings) ?_
      exact proceeds_afterStops _ _ _

theorem Halting.other (h : Halting k e key) (hc : e'.call? key = e.call? key)
    (hv : ∀ p, Vacant e k p → ∃ p', Vacant e' k p') : Halting k e' key := by
  cases h with
  | asked hc' hs hw => exact .asked (hc.trans hc') hs hw
  | goesOn hc' hs hw hp => exact .goesOn (hc.trans hc') hs hw (hp.elim hv)

/-- A step leaves the stop as it is, takes it further, or brings it to its end. -/
theorem Halting.tick (h : Halting k e key) (hc : Calm k e) (hk : k < e.levels.size) (ht : Tick e e') :
    Halting k e' key ∨ Halted k e' key := by
  have hsoothes := hc.tick hk ht
  have hv (p : Phase) (hp : Vacant e k p) : ∃ p', Vacant e' k p' := by
    obtain ⟨p', hp', -⟩ := hsoothes.vacant p hp
    exact ⟨p', hp'⟩
  rcases ht.kinds with ⟨hs, -⟩ | ⟨_, -, hs, -⟩ | ⟨a, rest, -, -, ha, rfl⟩
  · exact .inl (h.other (call?_of_still hs key) hv)
  · exact .inl (h.other (call?_of_still hs key) hv)
  · by_cases hr : ∃ j, a = .resume j
    · obtain ⟨j, rfl⟩ := hr
      have hres := resumes_resume { e with agenda := rest } j
      by_cases hj : j = key
      · subst hj
        have h₀ : Halting k { e with agenda := rest } j := h.other rfl fun p hp => ⟨p, hp.of_level? rfl⟩
        exact h₀.resumes hk hres
      · exact .inl (h.other (call?_of_besides hres.besides (Ne.symm hj)) hv)
    · have hreg := register_act (e := { e with agenda := rest }) fun j ha => hr ⟨j, ha⟩
      exact .inl (h.other (call?_of_calls (calls_of_register hreg) key) hv)

theorem over_resumes {c : Call} (hc : e.call? key = some c) (ho : c.over = true) (hr : Resumes e key e') :
    ∃ c, e'.call? key = some c ∧ c.over = true := by
  have hover : c.stages = [] ∧ c.waiting = [] := by
    simpa only [Call.over, Bool.and_eq_true, List.isEmpty_iff] using ho
  cases hr with
  | unknown => exact ⟨c, hc, ho⟩
  | ends =>
    refine ⟨{ c with ended := c.ended <|> some e.now, holds := [] }, ?_, ho⟩
    rw [call?_modifyCall, if_pos rfl, hc]
    rfl
  | stage hc' _ hs =>
    obtain rfl := Option.some.inj (hc.symm.trans hc')
    rw [hover.1] at hs
    cases hs
  | waits hc' hw =>
    obtain rfl := Option.some.inj (hc.symm.trans hc')
    exact absurd hover.2 hw

/-- A call that is over stays so. -/
theorem over_tick {c : Call} (hc : e.call? key = some c) (ho : c.over = true) (ht : Tick e e') :
    ∃ c, e'.call? key = some c ∧ c.over = true := by
  rcases ht.kinds with ⟨hs, -⟩ | ⟨_, -, hs, -⟩ | ⟨a, rest, -, -, -, rfl⟩
  · exact ⟨c, (call?_of_still hs key).trans hc, ho⟩
  · exact ⟨c, (call?_of_still hs key).trans hc, ho⟩
  · by_cases hr : ∃ j, a = .resume j
    · obtain ⟨j, rfl⟩ := hr
      have hres := resumes_resume { e with agenda := rest } j
      by_cases hj : j = key
      · subst hj
        exact over_resumes (e := { e with agenda := rest }) hc ho hres
      · exact ⟨c, (call?_of_besides hres.besides (Ne.symm hj)).trans hc, ho⟩
    · have hreg := register_act (e := { e with agenda := rest }) fun j ha => hr ⟨j, ha⟩
      exact ⟨c, (call?_of_calls (calls_of_register hreg) key).trans hc, ho⟩

theorem call?_input {c : Call} (hc : e.call? key = some c) (hb : KeysBelow e) (hi : Input e e') :
    e'.call? key = some c := by
  cases hi with
  | call =>
    rw [call?_begin hb, if_neg (Nat.ne_of_lt (hb _ (mem_calls_of_call? hc)))]
    exact hc
  | quiet hq => exact (call?_of_still hq.still key).trans hc
  | _ => exact hc

/-- The step with which a call comes to its end. -/
structure Resolves (key : CallKey) (e e' : Engine) : Prop where
  before : (e.call? key).map Call.over = some false
  step : Tick e e'
  after : (e'.call? key).map Call.over = some true

/-- From its begin to its end, a stop of the whole level comes to leave it stopped. -/
theorem vacant_of_resolves {e₁ e₂ : Engine} (h : Reachable e) (hk : k < e.levels.size) (hc : Calm k e)
    (hh : Halting k e key) (hr : Undisturbed k e e₁) (ht : Resolves key e₁ e₂) :
    Calm k e₂ ∧ Vacant e₂ k .stopped := by
  have hrun := hr.soothes (P := fun s => Halting k s key ∨ ∃ c, s.call? key = some c ∧ c.over = true) h hk hc
    (.inl hh) (fun s s' hcalm hks hs ht => ?_) fun s s' _ hb hsoothes hs hi => ?_
  · obtain ⟨hcalm, hs⟩ := hrun
    have hks := hr.known hk
    have hgoes : Halting k e₁ key := by
      refine hs.resolve_right fun ⟨c, hc, ho⟩ => ?_
      have hbefore := ht.before
      rw [hc, Option.map_some, ho] at hbefore
      cases hbefore
    refine ⟨(hcalm.tick hks ht.step).calm, ?_⟩
    rcases hgoes.tick hcalm hks ht.step with hs' | hs'
    · -- a stop that still goes on is not over
      have hafter := ht.after
      cases hs' with
      | asked hc hs hw =>
        rw [hc, Option.map_some, Call.over, hs] at hafter
        cases hafter
      | goesOn hc hs hw _ =>
        rw [hc, Option.map_some, Call.over, hs, hw] at hafter
        cases hafter
    · exact hs'.2
  · rcases hs with hs | ⟨c, hc, ho⟩
    · exact (hs.tick hcalm hks ht).imp_right (·.1)
    · exact .inr (over_tick hc ho ht)
  · refine hs.imp (fun hs => ?_) fun ⟨c, hc, ho⟩ => ⟨c, call?_input hc hb hi, ho⟩
    have hcall : s'.call? key = s.call? key := by
      cases hs with
      | asked hc => exact (call?_input hc hb hi).trans hc.symm
      | goesOn hc => exact (call?_input hc hb hi).trans hc.symm
    exact hs.other hcall fun p hp => (hsoothes.vacant p hp).imp fun _ h => h.1

/-- No level is in its stopping phase while no stop is under way. When a stop of a whole level resolves that
began with no start of the level under way, and none begins, then the level is stopped and nothing is active in
it. Until a start begins nothing comes to be active, and the level stays stopped, unless a stop of some of its
nodes that was still under way puts back the phase it found. -/
theorem stopped_until_started (h : Reachable e) :
    ((∀ j c, e.call? j = some c → c.waiting = []) → ∀ j, ¬e.IsStopping j) ∧
    ∀ (k : LevelKey) (removal : Removal) (e₁ e₂ e₃ : Engine), e.agenda = [] → k < e.levels.size → e.Unstarted k →
      Undisturbed k (e.begin [.stop [⟨k, none, removal⟩]]).1 e₁ → Resolves e.nextCall e₁ e₂ → Undisturbed k e₂ e₃ →
      Vacant e₂ k .stopped ∧ ∃ p, Vacant e₃ k p ∧ (p = .stopped ∨ e₂.Held k (false, p)) := by
  refine ⟨fun hn => h.not_isStopping hn, fun k removal e₁ e₂ e₃ ha hk hu hr ht hr' => ?_⟩
  have hbegin : Input e (e.begin [.stop [⟨k, none, removal⟩]]).1 := .call (.stop _)
  have hunstarted : (e.begin [.stop [⟨k, none, removal⟩]]).1.Unstarted k := by
    intro j c hc stage hm
    rw [call?_begin h.keysBelow] at hc
    split at hc
    · cases hc
      obtain rfl := List.mem_singleton.mp hm
      exact id
    · exact hu j c hc stage hm
  have hcalm := (hbegin.soothes ha h.keysBelow hk hunstarted).calm
  have hreach : Reachable (e.begin [.stop [⟨k, none, removal⟩]]).1 := h.input ha hbegin
  have hknown : k < (e.begin [.stop [⟨k, none, removal⟩]]).1.levels.size :=
    Undisturbed.known (.input .refl ha hbegin hunstarted) hk
  have hasked : Halting k (e.begin [.stop [⟨k, none, removal⟩]]).1 e.nextCall :=
    .asked ((call?_begin h.keysBelow _ _).trans (if_pos rfl)) rfl rfl
  obtain ⟨hcalm₂, hv⟩ := vacant_of_resolves hreach hknown hcalm hasked hr ht
  have hrests : Rests e₂ k e₂ := ⟨⟨_, hv, .inl rfl⟩, fun _ hh => hh⟩
  refine ⟨hv, ?_⟩
  have hr₂ : Undisturbed k (e.begin [.stop [⟨k, none, removal⟩]]).1 e₂ := hr.tick ht.step
  exact (hr'.soothes (hr₂.reachable hreach) (hr₂.known hknown) hcalm₂ hrests
    (fun s s' hc hk hs ht => hs.soothes (hc.tick hk ht)) fun s s' _ _ hsoothes hs _ => hs.soothes hsoothes).2.1

end Engine

namespace Session
open Engine

/-- A tab with one node, which takes its time to close. -/
def slowRecords : List Json := [
  .obj [("id", .str "t"), ("type", .str "tab")],
  .obj [("closeDelay", .int 50), ("id", .str "a"), ("type", .str "testAsync"), ("z", .str "t")]]

/-- The first tab that these records describe. -/
def firstTab (records : List Json) : FlowConfig :=
  ((Deployment.parse records).toOption.getD .empty).tabs.headD
    ((Deployment.parse records).toOption.getD .empty).global

theorem parsed_firstTab {records : List Json} (h : (Deployment.parse records).isOk = true) :
    (firstTab records).Parsed := by
  cases hp : Deployment.parse records with
  | error fault =>
    rw [hp] at h
    cases h
  | ok d =>
    refine ⟨records, d, hp, ?_⟩
    rw [firstTab, hp]
    change d.tabs.headD d.global = d.global ∨ d.tabs.headD d.global ∈ d.tabs
    cases d.tabs with
    | nil => exact .inl rfl
    | cons c cs => exact .inr List.mem_cons_self

def slowFlow : Session :=
  (start ⟨((Engine.make .instrumented .standalone [] [] 500).addLevel (.make .tab none (firstTab slowRecords))).1,
    some 0, .empty, []⟩ 0 none).2

/-- The tab is running, and a stop of its node has begun. -/
def slowing : Engine := (slowFlow.beginCall (stopStages 0 (some ["a"]) none)).engine

/-- A call has its turn. -/
def turnOf (e : Engine) (key : CallKey) : Engine :=
  { e with ready := e.ready.filter (· != Waiter.call key), room := turnRoom }.runWaiter (.call key)

theorem tick_turn {e : Engine} {key : CallKey} (hb : e.broken = false) (ha : e.agenda = [])
    (hw : Waiter.call key ∈ e.ready) : Tick e (turnOf e key) := .turn hb ha hw

theorem tick_turnOf {e : Engine} {key : CallKey} (ha : e.agenda = []) (hb : (turnOf e key).broken = false) :
    Tick (turnOf e key) ({ turnOf e key with agenda := [] }.act (.resume key)) := by
  refine .act hb ?_
  change .resume key :: e.agenda = _
  rw [ha]

/-- The turn in which a stop of the whole tab comes. -/
def slowingTurn : Engine := turnOf (slowing.begin [.stop [⟨0, none, .none⟩]]).1 slowing.nextCall

def slowed : Engine := { slowingTurn with agenda := [] }.act (.resume slowing.nextCall)

/-- What the run of the tab comes to, step by step. -/
theorem slowing_run : (slowFlow.engine.agenda = [] ∧ slowing.agenda = [] ∧ 0 < slowing.levels.size ∧
      slowing.calls.all (fun entry => entry.2.stages.isEmpty) = true) ∧
    ((slowing.begin [.stop [⟨0, none, .none⟩]]).1.broken = false ∧
      (slowing.begin [.stop [⟨0, none, .none⟩]]).1.agenda = [] ∧
      Waiter.call slowing.nextCall ∈ (slowing.begin [.stop [⟨0, none, .none⟩]]).1.ready) ∧
    (slowingTurn.broken = false ∧ (slowingTurn.call? slowing.nextCall).map Call.over = some false ∧
      (slowed.call? slowing.nextCall).map Call.over = some true) ∧
    ((slowed.finish.advance 100).level? 0).map (·.phase) = some .started := by
  decide +kernel

theorem reachable_slowing : Reachable slowing := by
  have hmade : Reachable ((Engine.make .instrumented .standalone [] [] 500).addLevel
      (.make .tab none (firstTab slowRecords))).1 :=
    (Reachable.make _ _ _ _ _).input rfl (.flow (.inl rfl) (parsed_firstTab (by decide +kernel)))
  have hstarted : Reachable slowFlow.engine := reachable_start hmade rfl
  exact reachable_beginCall hstarted slowing_run.1.1 (.stop _)

/-- The tab has stopped, and is in its running phase again when the stop that began before is over. -/
theorem slow_stop_puts_phase_back : Reachable slowing ∧ Resolves slowing.nextCall slowingTurn slowed ∧
    Vacant slowed 0 .stopped ∧ slowed.Held 0 (false, .started) ∧
    Vacant (slowed.finish.advance 100) 0 .started := by
  obtain ⟨⟨-, hagenda, hknown, hcalls⟩, ⟨hb, ha, hw⟩, ⟨hb', hbefore, hafter⟩, hphase⟩ := slowing_run
  have hunstarted : slowing.Unstarted 0 := by
    intro j c hc stage hm
    have hempty := List.all_eq_true.mp hcalls _ (mem_calls_of_call? hc)
    rw [List.isEmpty_iff.mp hempty] at hm
    cases hm
  have hturn : Undisturbed 0 (slowing.begin [.stop [⟨0, none, .none⟩]]).1 slowingTurn :=
    .tick .refl (tick_turn hb ha hw)
  have hresolves : Resolves slowing.nextCall slowingTurn slowed := ⟨hbefore, tick_turnOf ha hb', hafter⟩
  have hlater : Undisturbed 0 slowed (slowed.finish.advance 100) :=
    .of_reach ((reach_finishWithin _ _).trans (reach_passUntil _ _ _))
  obtain ⟨hv, p, ⟨l, hl, hempty, hp⟩, hback⟩ := (stopped_until_started reachable_slowing).2 0 .none slowingTurn
    slowed (slowed.finish.advance 100) hagenda hknown hunstarted hturn hresolves hlater
  rw [hl, Option.map_some, hp] at hphase
  obtain rfl := Option.some.inj hphase
  exact ⟨reachable_slowing, hresolves, hv, hback.resolve_left (by decide), l, hl, hempty, hp⟩

end Session
end Flowgraph
