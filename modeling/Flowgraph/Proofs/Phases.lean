import Flowgraph.Proofs.Updates
import Flowgraph.Proofs.Stops
/-! The phase of a level that is being stopped. A level is in its stopping phase only while a stop of the whole
level is under way, and nothing is active in it. -/
namespace Flowgraph

mutual
/-- The levels that are being stopped as a whole. -/
def Closing.fullLevels : Closing → List LevelKey
  | .inner _ _ stop => stop.fullLevels
  | .asked .. | .done _ => []
termination_by structural c => c

def Stopping.fullLevels : Stopping → List LevelKey
  | .running level full _ _ closings =>
    (if full then [level] else []) ++ Stopping.fullLevelsOf closings
  | .finished _ => []
termination_by structural s => s

def Stopping.fullLevelsOf : List Closing → List LevelKey
  | [] => []
  | c :: cs => c.fullLevels ++ Stopping.fullLevelsOf cs
termination_by structural cs => cs
end

mutual
/-- A stop of some nodes never brings the stopping phase back. -/
def Closing.Restores : Closing → Prop
  | .inner _ _ stop => stop.Restores
  | .asked .. | .done _ => True
termination_by structural c => c

def Stopping.Restores : Stopping → Prop
  | .running _ full previous _ closings =>
    (full = false → previous ≠ .stopping) ∧ Stopping.AllRestore closings
  | .finished _ => True
termination_by structural s => s

def Stopping.AllRestore : List Closing → Prop
  | [] => True
  | c :: cs => c.Restores ∧ Stopping.AllRestore cs
termination_by structural cs => cs
end

theorem Stopping.fullLevelsOf_append (cs ds : List Closing) :
    fullLevelsOf (cs ++ ds) = fullLevelsOf cs ++ fullLevelsOf ds := by
  induction cs with
  | nil => rfl
  | cons c cs ih => simp [fullLevelsOf, ih]

theorem Stopping.allRestore_append (cs ds : List Closing) :
    AllRestore (cs ++ ds) ↔ AllRestore cs ∧ AllRestore ds := by
  induction cs with
  | nil => simp [AllRestore]
  | cons c cs ih => simp [AllRestore, ih, and_assoc]

/-- The reports of the closes that are done. -/
def Closing.report? : Closing → Option StopReport
  | .done report => some report
  | _ => none

/-- When every close is done, no level is being stopped any more. -/
theorem Stopping.fullLevelsOf_eq_nil {closings : List Closing}
    (h : ¬(closings.filterMap Closing.report?).length < closings.length) :
    fullLevelsOf closings = [] := by
  induction closings with
  | nil => rfl
  | cons c cs ih =>
    have hle : (cs.filterMap Closing.report?).length ≤ cs.length := List.length_filterMap_le _ _
    cases c with
    | done report =>
      simp only [List.filterMap_cons, Closing.report?, List.length_cons] at h
      simp [fullLevelsOf, Closing.fullLevels, ih (by omega)]
    | inner k removed stop =>
      simp only [List.filterMap_cons, Closing.report?, List.length_cons] at h
      omega
    | asked k removed deadline report =>
      simp only [List.filterMap_cons, Closing.report?, List.length_cons] at h
      omega

namespace Engine

def IsStopping (e : Engine) (k : LevelKey) : Prop :=
  ∃ l, e.level? k = some l ∧ l.phase = .stopping

/-- Nothing is active in a level that is being stopped. -/
def Emptied (e : Engine) : Prop :=
  ∀ k l, e.level? k = some l → l.phase = .stopping → l.active = []

variable {e e' : Engine}

theorem isStopping_of_still (h : e'.still = e.still) (k : LevelKey) :
    e'.IsStopping k ↔ e.IsStopping k := by
  simp only [IsStopping, level?_of_still h]

theorem emptied_of_still (h : e'.still = e.still) (he : e.Emptied) : e'.Emptied := by
  intro k l hl
  rw [level?_of_still h] at hl
  exact he k l hl

theorem Silent.isStopping (h : Silent e e') (k : LevelKey) : e'.IsStopping k ↔ e.IsStopping k :=
  isStopping_of_still h.still k

theorem finishStop_eq (e : Engine) (k : LevelKey) (full : Bool) (previous : Phase) (backward : Bool)
    (closings : List Closing) :
    (∃ turned, (closings.filterMap Closing.report?).length < closings.length ∧
      e.finishStop k full previous backward closings = (e, .running k full previous turned closings)) ∨
    (∃ report s, ¬(closings.filterMap Closing.report?).length < closings.length ∧
      s.still = ((e.refresh k).modifyLevel k fun l =>
        { l with phase := if full then .stopped else previous }).still ∧
      e.finishStop k full previous backward closings = (s, .finished report)) := by
  by_cases h : (closings.filterMap Closing.report?).length < closings.length
  · exact .inl ⟨_, h, if_pos h⟩
  · refine .inr ?_
    cases full with
    | true => exact ⟨_, _, h, (silent_publish _ _).still, if_neg h⟩
    | false => exact ⟨_, _, h, rfl, if_neg h⟩

/-! ## Beginning a stop -/

/-- The close of a node that is asked is no longer that of an instance. -/
theorem asked_pollAsked (e : Engine) (k : NodeKey) (removed : Bool) (deadline : Nat)
    (report : StopReport) : (e.pollAsked k removed deadline report).2.Restores ∧
      (e.pollAsked k removed deadline report).2.fullLevels = [] := by
  unfold pollAsked closeBySignal closeByDeadline
  repeat' split
  all_goals exact ⟨trivial, rfl⟩

theorem asked_askToClose (e : Engine) (call : CallKey) (k : NodeKey) (removed : Bool)
    (report : StopReport) : (e.askToClose call k removed report).2.Restores ∧
      (e.askToClose call k removed report).2.fullLevels = [] := by
  have hp (e : Engine) : (e.await call k removed report).2.Restores ∧
      (e.await call k removed report).2.fullLevels = [] := asked_pollAsked _ _ _ _ _
  unfold askToClose
  split
  · exact ⟨trivial, rfl⟩
  · split
    · dsimp only
      split
      · exact hp _
      · unfold closeBySignal
        repeat' split
        all_goals exact ⟨trivial, rfl⟩
      · exact hp _
      · exact hp _
      · split
        · exact hp _
        · exact hp _
    · exact hp _

theorem restores_askToClose (e : Engine) (call : CallKey) (k : NodeKey) (removed : Bool)
    (report : StopReport) : (e.askToClose call k removed report).2.Restores :=
  (asked_askToClose e call k removed report).1

/-- A level that changes in other respects than its phase, and loses active nodes at most. -/
theorem phases_modifyLevel (e : Engine) (k : LevelKey) (f : Level → Level)
    (hp : ∀ l, (f l).phase = l.phase) (ha : ∀ l, l.active = [] → (f l).active = []) :
    (e.Emptied → (e.modifyLevel k f).Emptied) ∧
      ∀ j, (e.modifyLevel k f).IsStopping j ↔ e.IsStopping j := by
  constructor
  · intro he j l hl hs
    rw [level?_modifyLevel] at hl
    split at hl
    · obtain ⟨l', hl', rfl⟩ := Option.map_eq_some_iff.mp hl
      exact ha l' (he j l' hl' ((hp l').symm.trans hs))
    · exact he j l hl hs
  · intro j
    unfold IsStopping
    rw [level?_modifyLevel]
    split
    · constructor
      · rintro ⟨l, hl, hs⟩
        obtain ⟨l', hl', rfl⟩ := Option.map_eq_some_iff.mp hl
        exact ⟨l', hl', (hp l').symm.trans hs⟩
      · rintro ⟨l, hl, hs⟩
        exact ⟨f l, by rw [hl]; rfl, (hp l).trans hs⟩
    · exact Iff.rfl

theorem phases_withdraw (e : Engine) (k : LevelKey) (targets : List NodeKey) :
    (e.Emptied → (e.withdraw k targets).Emptied) ∧
      ∀ j, (e.withdraw k targets).IsStopping j ↔ e.IsStopping j := by
  have h := phases_modifyLevel e k (fun l =>
    { l with active := l.active.filter fun entry => !targets.contains entry.2 }) (fun _ => rfl)
    fun l hl => by simp [hl]
  have hl (j : LevelKey) : (e.withdraw k targets).level? j = (e.modifyLevel k fun l =>
      { l with active := l.active.filter fun entry => !targets.contains entry.2 }).level? j := by
    rw [level?_withdraw, level?_modifyLevel]
  unfold Emptied IsStopping at *
  simp only [hl]
  exact h

/-- What the begin of a stop does to the phases. -/
structure Begun (e e' : Engine) (full : List LevelKey) : Prop where
  emptied : e'.Emptied
  stopping : ∀ k, e'.IsStopping k → e.IsStopping k ∨ k ∈ full

theorem begun_beginClosing {stopInner : Engine → StopRequest → Engine × Stopping}
    (hs : ∀ e request, e.Emptied → Begun e (stopInner e request).1 (stopInner e request).2.fullLevels ∧
      (stopInner e request).2.Restores) (call : CallKey) (e : Engine) (level : LevelKey) (k : NodeKey)
    (removed : Bool) (he : e.Emptied) :
    Begun e (beginClosing stopInner call e level k removed).1
        (beginClosing stopInner call e level k removed).2.fullLevels ∧
      (beginClosing stopInner call e level k removed).2.Restores := by
  have hask (e : Engine) (he : e.Emptied) (report : StopReport) (full : List LevelKey) :
      Begun e (e.askToClose call k removed report).1 full := by
    have hq := silent_askToClose e call k removed report
    exact ⟨emptied_of_still hq.still he, fun j hj => .inl ((hq.isStopping j).mp hj)⟩
  unfold beginClosing
  split
  · exact ⟨⟨he, fun _ h => .inl h⟩, trivial⟩
  · rename_i n hn
    split
    · exact ⟨hask e he .empty _, restores_askToClose _ _ _ _ _⟩
    · rename_i inst hi
      have hf := phases_modifyLevel e level (fun l => { l with instances := l.instances.erase n.id })
        (fun _ => rfl) (fun _ h => h)
      have hin := hs (e.modifyLevel level fun l => { l with instances := l.instances.erase n.id })
        ⟨inst, none, if removed then .all else .none⟩ (hf.1 he)
      dsimp only
      split
      · rename_i e' report hr
        rw [hr] at hin
        have ha := hask e' hin.1.emptied report []
        refine ⟨⟨ha.emptied, fun j hj => ?_⟩, restores_askToClose _ _ _ _ _⟩
        rcases ha.stopping j hj with hj | hj
        · rcases hin.1.stopping j hj with hj | hj
          · exact .inl ((hf.2 j).mp hj)
          · simp [Stopping.fullLevels] at hj
        · simp at hj
      · rename_i e' stop hr
        rw [hr] at hin
        refine ⟨⟨hin.1.emptied, fun j hj => ?_⟩, hin.2⟩
        exact (hin.1.stopping j hj).imp_left (hf.2 j).mp

theorem begun_beginAll {stopInner : Engine → StopRequest → Engine × Stopping}
    (hs : ∀ e request, e.Emptied → Begun e (stopInner e request).1 (stopInner e request).2.fullLevels ∧
      (stopInner e request).2.Restores) (call : CallKey) (request : StopRequest)
    (targets : List NodeKey) (s : Engine × List Closing)
    (hb : Begun e s.1 (Stopping.fullLevelsOf s.2)) (hr : Stopping.AllRestore s.2) :
    Begun e (beginAll stopInner call request s targets).1
        (Stopping.fullLevelsOf (beginAll stopInner call request s targets).2) ∧
      Stopping.AllRestore (beginAll stopInner call request s targets).2 := by
  induction targets generalizing s with
  | nil => exact ⟨hb, hr⟩
  | cons n ns ih =>
    have hc := begun_beginClosing hs call s.1 request.level n
      (request.removal.holds (((s.1.node? n).map (·.id)).getD "")) hb.emptied
    refine ih _ ⟨hc.1.emptied, fun j hj => ?_⟩ ?_
    · rw [Stopping.fullLevelsOf_append, List.mem_append]
      rcases hc.1.stopping j hj with hj | hj
      · exact (hb.stopping j hj).imp_right .inl
      · exact .inr (.inr (by simpa [Stopping.fullLevelsOf] using hj))
    · rw [Stopping.allRestore_append]
      exact ⟨hr, hc.2, trivial⟩

theorem level?_finished {k : LevelKey} {p : Phase} {s : Engine}
    (hs : s.still = ((e.refresh k).modifyLevel k fun l => { l with phase := p }).still) (j : LevelKey) :
    ∃ rs : Receivers, s.level? j = if k = j then (e.level? j).map fun l =>
      { l with receivers := rs, phase := p } else e.level? j := by
  obtain ⟨rs, hr⟩ := level?_refresh e j k
  refine ⟨rs, ?_⟩
  rw [level?_of_still hs, level?_modifyLevel, hr]
  split
  · rw [Option.map_map]
    rfl
  · rfl

/-- The end of a stop of a level, which leaves the phase it sets. -/
theorem begun_finished {e₃ : Engine} {k : LevelKey} {p : Phase} {s : Engine} {full : List LevelKey}
    (h : Begun e e₃ full) (hf : ∀ j ∈ full, j = k)
    (hs : s.still = ((e₃.refresh k).modifyLevel k fun l => { l with phase := p }).still)
    (hp : p = .stopping → e.IsStopping k ∧ e₃.IsStopping k) : Begun e s [] := by
  constructor
  · intro j l hl hst
    obtain ⟨rs, hj⟩ := level?_finished hs j
    rw [hj] at hl
    split at hl
    · rename_i hk
      subst hk
      obtain ⟨l', hl', rfl⟩ := Option.map_eq_some_iff.mp hl
      obtain ⟨l'', hl'', hp''⟩ := (hp hst).2
      rw [hl'] at hl''
      cases hl''
      exact h.emptied k l' hl' hp''
    · exact h.emptied j l hl hst
  · rintro j ⟨l, hl, hst⟩
    obtain ⟨rs, hj⟩ := level?_finished hs j
    rw [hj] at hl
    split at hl
    · rename_i hk
      subst hk
      obtain ⟨l', hl', rfl⟩ := Option.map_eq_some_iff.mp hl
      exact .inl (hp hst).1
    · rename_i hk
      rcases h.stopping j ⟨l, hl, hst⟩ with hj | hj
      · exact .inl hj
      · exact absurd (hf j hj).symm hk

theorem Begun.trans {e'' : Engine} {full full' : List LevelKey} (h : Begun e e' full)
    (h' : Begun e' e'' full') (hf : ∀ k ∈ full, e''.IsStopping k → k ∈ full') : Begun e e'' full' := by
  refine ⟨h'.emptied, fun k hk => ?_⟩
  rcases h'.stopping k hk with hj | hj
  · rcases h.stopping k hj with hj | hj
    · exact .inl hj
    · exact .inr (hf k hj hk)
  · exact .inr hj

theorem begun_vacated {l : Level} {request : StopRequest} (hl : e.level? request.level = some l)
    (he : e.Emptied) : Begun e (e.vacated l request)
      (if request.filter.isNone then [request.level] else []) := by
  unfold vacated
  cases hf : request.filter with
  | some ids =>
    have hw := phases_withdraw e request.level (e.stopTargets l (some ids))
    exact ⟨hw.1 he, fun j hj => .inl ((hw.2 j).mp hj)⟩
  | none =>
    have hlevel (j : LevelKey) : ((e.modifyLevel request.level fun l =>
        { l with phase := .stopping }).withdraw request.level (e.stopTargets l none)).level? j =
        if request.level = j then some { l with phase := .stopping, active := [] } else e.level? j := by
      rw [level?_withdraw]
      split
      · rename_i hk
        subst hk
        rw [level?_modifyLevel, if_pos rfl, hl]
        simp only [Option.map_some, Option.some.injEq, Level.mk.injEq, true_and, and_true]
        rw [List.filter_eq_nil_iff]
        rintro entry hm
        have : entry.2 ∈ e.stopTargets l none := by
          unfold stopTargets
          rw [List.mem_mergeSort]
          exact List.mem_map.mpr ⟨entry, hm, rfl⟩
        simpa using this
      · rename_i hk
        rw [level?_modifyLevel, if_neg hk]
    constructor
    · intro j l' hl' hs
      simp only [Option.isNone_none, if_true, hlevel] at hl'
      split at hl'
      · cases hl'
        rfl
      · exact he j l' hl' hs
    · rintro j ⟨l', hl', hs⟩
      simp only [Option.isNone_none, if_true, hlevel] at hl'
      split at hl'
      · rename_i hk
        exact .inr (by simp [hk])
      · exact .inl ⟨l', hl', hs⟩

/-- A stop that has begun leaves no level in its stopping phase that it does not itself stop as a whole. -/
theorem begun_beginStop (call : CallKey) (fuel : Nat) (e : Engine) (request : StopRequest)
    (he : e.Emptied) : Begun e (beginStop call fuel e request).1 (beginStop call fuel e request).2.fullLevels ∧
      (beginStop call fuel e request).2.Restores := by
  induction fuel generalizing e request with
  | zero => exact ⟨⟨he, fun _ h => .inl h⟩, trivial⟩
  | succ fuel ih =>
    cases hl : e.level? request.level with
    | none =>
      unfold beginStop
      rw [hl]
      exact ⟨⟨he, fun _ h => .inl h⟩, trivial⟩
    | some l =>
      have hv := begun_vacated hl he
      have ha := begun_beginAll ih call request (e.stopTargets l request.filter)
        (e.vacated l request, []) ⟨hv.emptied, fun _ h => .inl h⟩ trivial
      obtain ⟨e₃, closings, hg⟩ : ∃ e₃ closings, beginAll (beginStop call fuel) call request
          (e.vacated l request, []) (e.stopTargets l request.filter) = (e₃, closings) := ⟨_, _, rfl⟩
      have hb := beginStop_eq call fuel hl
      rw [hg] at hb
      rw [hg] at ha
      -- a level that is already stopping has nothing active, so nothing is waited for
      have hn (hp : l.phase = .stopping) : e.vacated l request = e₃ ∧ closings = [] := by
        have hact := he _ l hl hp
        have ht : e.stopTargets l request.filter = [] := by
          refine List.eq_nil_iff_forall_not_mem.mpr fun n hn => ?_
          have hm := mem_active_of_mem_stopTargets hn
          rw [hact] at hm
          simp [Dict.values] at hm
        rw [ht] at hg
        have := Prod.mk.inj hg
        exact ⟨this.1, this.2.symm⟩
      have h₃ : Begun e e₃ ((if request.filter.isNone then [request.level] else []) ++
          Stopping.fullLevelsOf closings) := by
        refine hv.trans ⟨ha.1.emptied, fun k hk => ?_⟩ fun k hk _ => List.mem_append_left _ hk
        exact (ha.1.stopping k hk).imp_right (List.mem_append_right _)
      rw [hb]
      rcases finishStop_eq e₃ request.level request.filter.isNone l.phase false closings with
        ⟨turned, hlt, hf⟩ | ⟨report, s, hlt, hs, hf⟩
      · rw [hf]
        refine ⟨h₃, fun hfull hp => ?_, ha.2⟩
        rw [(hn hp).2] at hlt
        simp at hlt
      · rw [hf]
        refine ⟨?_, trivial⟩
        rw [Stopping.fullLevelsOf_eq_nil hlt, List.append_nil] at h₃
        refine begun_finished h₃ (fun j hj => ?_) hs fun hp => ?_
        · split at hj
          · exact List.mem_singleton.mp hj
          · simp at hj
        · split at hp
          · simp at hp
          · rename_i hfull
            refine ⟨⟨l, hl, hp⟩, ?_⟩
            rw [← (hn hp).1, vacated, if_neg hfull]
            exact ((phases_withdraw _ _ _).2 _).mpr ⟨l, hl, hp⟩

/-! ## Going on with a stop -/

/-- What going on with stops does to the phases. -/
structure Continued (e e' : Engine) (full full' : List LevelKey) : Prop where
  emptied : e'.Emptied
  stopping : ∀ k, e'.IsStopping k → e.IsStopping k ∧ (k ∈ full → k ∈ full')

theorem Continued.of_silent {full : List LevelKey} (h : Silent e e') (he : e.Emptied) :
    Continued e e' full full :=
  ⟨emptied_of_still h.still he, fun k hk => ⟨(h.isStopping k).mp hk, id⟩⟩

theorem Continued.append {e'' : Engine} {f f' g g' : List LevelKey} (h : Continued e e' f f')
    (h' : Continued e' e'' g g') : Continued e e'' (f ++ g) (f' ++ g') := by
  refine ⟨h'.emptied, fun k hk => ?_⟩
  obtain ⟨hk', hg⟩ := h'.stopping k hk
  obtain ⟨hk'', hf⟩ := h.stopping k hk'
  refine ⟨hk'', fun hm => ?_⟩
  rw [List.mem_append] at *
  exact hm.imp hf hg

/-- The end of a stop that has been gone on with. -/
theorem continued_finishStop {e₃ : Engine} {k : LevelKey} {full : Bool} {previous : Phase}
    {backward : Bool} {closings closings' : List Closing}
    (h : Continued e e₃ (Stopping.fullLevelsOf closings) (Stopping.fullLevelsOf closings'))
    (hp : full = false → previous ≠ .stopping) (hr : Stopping.AllRestore closings') :
    Continued e (e₃.finishStop k full previous backward closings').1
        (Stopping.running k full previous backward closings).fullLevels
        (e₃.finishStop k full previous backward closings').2.fullLevels ∧
      (e₃.finishStop k full previous backward closings').2.Restores := by
  rcases finishStop_eq e₃ k full previous backward closings' with ⟨turned, -, hf⟩ | ⟨report, s, hlt, hs, hf⟩
  · rw [hf]
    refine ⟨⟨h.emptied, fun j hj => ?_⟩, hp, hr⟩
    obtain ⟨hj', hm⟩ := h.stopping j hj
    refine ⟨hj', fun hfull => ?_⟩
    simp only [Stopping.fullLevels, List.mem_append] at *
    exact hfull.imp_right hm
  · rw [hf]
    refine ⟨?_, trivial⟩
    have hne : (if full = true then Phase.stopped else previous) ≠ .stopping := by
      split
      · simp
      · rename_i hn
        exact hp (by simpa using hn)
    rw [Stopping.fullLevelsOf_eq_nil hlt] at h
    have hlevel (j : LevelKey) (l : Level) (hl : s.level? j = some l) (hst : l.phase = .stopping) :
        k ≠ j ∧ e₃.level? j = some l := by
      obtain ⟨rs, hj⟩ := level?_finished hs j
      rw [hj] at hl
      split at hl
      · obtain ⟨l', hl', rfl⟩ := Option.map_eq_some_iff.mp hl
        exact absurd hst hne
      · exact ⟨‹_›, hl⟩
    constructor
    · intro j l hl hst
      exact h.emptied j l (hlevel j l hl hst).2 hst
    · rintro j ⟨l, hl, hst⟩
      obtain ⟨hk, hl'⟩ := hlevel j l hl hst
      obtain ⟨hj, hm⟩ := h.stopping j ⟨l, hl', hst⟩
      refine ⟨hj, fun hfull => ?_⟩
      simp only [Stopping.fullLevels, List.mem_append] at hfull
      rcases hfull with hfull | hfull
      · split at hfull
        · exact absurd (List.mem_singleton.mp hfull).symm hk
        · simp at hfull
      · simp at hm hfull
        exact absurd hfull hm

mutual
theorem continued_pollClosing (call : CallKey) (e : Engine) (he : e.Emptied) :
    (c : Closing) → c.Restores → Continued e (pollClosing call e c).1 c.fullLevels
        (pollClosing call e c).2.fullLevels ∧ (pollClosing call e c).2.Restores
  | .done report, _ => ⟨.of_silent (.refl e) he, trivial⟩
  | .asked k removed deadline report, _ => by
    have h := asked_pollAsked e k removed deadline report
    have hc : Continued e (e.pollAsked k removed deadline report).1 [] [] :=
      .of_silent (silent_pollAsked e k removed deadline report) he
    unfold pollClosing
    rw [h.2]
    exact ⟨hc, h.1⟩
  | .inner k removed inner, hr => by
    have hi := continued_pollStop call e he inner hr
    unfold pollClosing
    split
    · rename_i e' report heq
      rw [heq] at hi
      have ha := asked_askToClose e' call k removed report
      have hs := silent_askToClose e' call k removed report
      rw [ha.2]
      refine ⟨⟨emptied_of_still hs.still hi.1.emptied, fun j hj => ?_⟩, ha.1⟩
      exact hi.1.stopping j ((hs.isStopping j).mp hj)
    · rename_i e' inner' heq
      rw [heq] at hi
      exact hi

/-- Going on with a stop leaves a level in its stopping phase only as long as the stop goes on. -/
theorem continued_pollStop (call : CallKey) (e : Engine) (he : e.Emptied) :
    (s : Stopping) → s.Restores → Continued e (pollStop call e s).1 s.fullLevels
        (pollStop call e s).2.fullLevels ∧ (pollStop call e s).2.Restores
  | .finished report, _ => ⟨.of_silent (.refl e) he, trivial⟩
  | .running k full previous backward closings, hr => by
    have hf := continued_pollClosings call e he closings hr.2
    have hb := continued_pollBackward call e he closings hr.2
    unfold pollStop
    cases backward with
    | true => exact continued_finishStop hb.1 hr.1 hb.2
    | false => exact continued_finishStop hf.1 hr.1 hf.2

theorem continued_pollClosings (call : CallKey) (e : Engine) (he : e.Emptied) :
    (cs : List Closing) → Stopping.AllRestore cs →
      Continued e (pollClosings call e cs).1 (Stopping.fullLevelsOf cs)
          (Stopping.fullLevelsOf (pollClosings call e cs).2) ∧
        Stopping.AllRestore (pollClosings call e cs).2
  | [], _ => ⟨.of_silent (.refl e) he, trivial⟩
  | c :: cs, hr => by
    have hc := continued_pollClosing call e he c hr.1
    have hcs := continued_pollClosings call (pollClosing call e c).1 hc.1.emptied cs hr.2
    exact ⟨hc.1.append hcs.1, hc.2, hcs.2⟩

theorem continued_pollBackward (call : CallKey) (e : Engine) (he : e.Emptied) :
    (cs : List Closing) → Stopping.AllRestore cs →
      Continued e (pollBackward call e cs).1 (Stopping.fullLevelsOf cs)
          (Stopping.fullLevelsOf (pollBackward call e cs).2) ∧
        Stopping.AllRestore (pollBackward call e cs).2
  | [], _ => ⟨.of_silent (.refl e) he, trivial⟩
  | c :: cs, hr => by
    have hcs := continued_pollBackward call e he cs hr.2
    have hc := continued_pollClosing call (pollBackward call e cs).1 hcs.1.emptied c hr.1
    refine ⟨⟨hc.1.emptied, fun j hj => ?_⟩, hc.2, hcs.2⟩
    obtain ⟨h', hm⟩ := (hcs.1.append hc.1).stopping j hj
    refine ⟨h', fun hin => ?_⟩
    have := hm (by simpa [Stopping.fullLevelsOf, or_comm] using hin)
    change j ∈ Stopping.fullLevelsOf ((pollClosing call (pollBackward call e cs).1 c).2 ::
      (pollBackward call e cs).2)
    simpa [Stopping.fullLevelsOf, or_comm] using this
end

end Engine
end Flowgraph
