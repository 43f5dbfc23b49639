import Flowgraph.Proofs.InFlight
/-! Stops of a level in which nothing is active. A stop that begins there is over at once, and one that had
begun before can do no more than set the phase. -/
namespace Flowgraph

mutual
/-- The stops under way of this level: whether of all its nodes, and the phase it was in before. -/
def Closing.heldAt (k : LevelKey) : Closing → List (Bool × Phase)
  | .inner _ _ stop => stop.heldAt k
  | .asked .. | .done _ => []
termination_by structural c => c

def Stopping.heldAt (k : LevelKey) : Stopping → List (Bool × Phase)
  | .running level full previous _ closings =>
    (if level = k then [(full, previous)] else []) ++ Stopping.heldAmong k closings
  | .finished _ => []
termination_by structural s => s

def Stopping.heldAmong (k : LevelKey) : List Closing → List (Bool × Phase)
  | [] => []
  | c :: cs => c.heldAt k ++ Stopping.heldAmong k cs
termination_by structural cs => cs
end

theorem Stopping.heldAmong_append (k : LevelKey) (cs ds : List Closing) :
    heldAmong k (cs ++ ds) = heldAmong k cs ++ heldAmong k ds := by
  induction cs with
  | nil => rfl
  | cons c cs ih => simp [heldAmong, ih]

/-- The phase that the end of a stop sets. -/
def phaseAfter (held : Bool × Phase) : Phase := if held.1 then .stopped else held.2

namespace Engine

variable {e e' e'' : Engine} {k : LevelKey} {p : Phase}

/-- Nothing is active in the level, which is in this phase. -/
def Vacant (e : Engine) (k : LevelKey) (p : Phase) : Prop :=
  ∃ l, e.level? k = some l ∧ l.active = [] ∧ l.phase = p

namespace Vacant

theorem of_level? (h : Vacant e k p) (hl : e'.level? k = e.level? k) : Vacant e' k p := by
  obtain ⟨l, he, ha, hp⟩ := h
  exact ⟨l, hl.trans he, ha, hp⟩

theorem still (h : Vacant e k p) (hs : e'.still = e.still) : Vacant e' k p := h.of_level? (level?_of_still hs k)

theorem modifyLevel (h : Vacant e k p) (j : LevelKey) {f : Level → Level}
    (ha : ∀ l, l.active = [] → (f l).active = []) (hp : ∀ l, j = k → (f l).phase = l.phase) :
    Vacant (e.modifyLevel j f) k p := by
  obtain ⟨l, he, hact, hph⟩ := h
  by_cases hj : j = k
  · exact ⟨f l, by simp [hj, he], ha l hact, (hp l hj).trans hph⟩
  · exact ⟨l, by simp [hj, he], hact, hph⟩

theorem withdraw (h : Vacant e k p) (j : LevelKey) (targets : List NodeKey) : Vacant (e.withdraw j targets) k p := by
  have hv : Vacant (e.modifyLevel j fun l =>
      { l with active := l.active.filter fun entry => !targets.contains entry.2 }) k p :=
    h.modifyLevel j (fun l hl => by simp [hl]) fun _ _ => rfl
  refine hv.of_level? ?_
  rw [level?_withdraw, level?_modifyLevel]

/-- The end of a stop, of this level or of another one. -/
theorem finished {s : Engine} {j : LevelKey} {q : Phase} (h : Vacant e k p)
    (hs : s.still = ((e.refresh j).modifyLevel j fun l => { l with phase := q }).still) :
    Vacant s k (if j = k then q else p) := by
  obtain ⟨l, hl, ha, hp⟩ := h
  obtain ⟨rs, hj⟩ := level?_finished hs k
  rw [hl] at hj
  split
  · rename_i hk
    rw [if_pos hk] at hj
    exact ⟨_, hj, ha, rfl⟩
  · rename_i hk
    rw [if_neg hk] at hj
    exact ⟨l, hj, ha, hp⟩

end Vacant

/-- A stop goes on in a level where nothing is active, until it sets the phase at its end. -/
theorem vacant_finishStop (h : Vacant e k p) (full : Bool) (previous : Phase) (backward : Bool)
    (closings : List Closing) :
    (∃ turned, Vacant (e.finishStop k full previous backward closings).1 k p ∧ closings ≠ [] ∧
      (e.finishStop k full previous backward closings).2 = .running k full previous turned closings) ∨
    (∃ report, Vacant (e.finishStop k full previous backward closings).1 k (phaseAfter (full, previous)) ∧
      (e.finishStop k full previous backward closings).2 = .finished report) := by
  rcases finishStop_eq e k full previous backward closings with ⟨turned, hlt, hf⟩ | ⟨report, s, -, hs, hf⟩
  · rw [hf]
    refine .inl ⟨turned, h, ?_, rfl⟩
    rintro rfl
    cases hlt
  · rw [hf]
    have := h.finished hs
    rw [if_pos rfl] at this
    exact .inr ⟨report, this, rfl⟩

theorem vacant_finishStop_other (h : Vacant e k p) {j : LevelKey} (hj : j ≠ k) (full : Bool) (previous : Phase)
    (backward : Bool) (closings : List Closing) :
    Vacant (e.finishStop j full previous backward closings).1 k p ∧
      ∀ held ∈ (e.finishStop j full previous backward closings).2.heldAt k,
        held ∈ Stopping.heldAmong k closings := by
  rcases finishStop_eq e j full previous backward closings with ⟨turned, -, hf⟩ | ⟨report, s, -, hs, hf⟩
  · rw [hf]
    refine ⟨h, fun held hm => ?_⟩
    simpa [Stopping.heldAt, hj] using hm
  · rw [hf]
    have := h.finished hs
    rw [if_neg hj] at this
    exact ⟨this, by simp [Stopping.heldAt]⟩

/-! ## Beginning a stop -/

theorem heldAt_pollAsked (e : Engine) (n : NodeKey) (removed : Bool) (deadline : Nat) (report : StopReport) :
    (e.pollAsked n removed deadline report).2.heldAt k = [] := by
  unfold pollAsked closeBySignal closeByDeadline
  repeat' split
  all_goals rfl

theorem heldAt_askToClose (e : Engine) (call : CallKey) (n : NodeKey) (removed : Bool) (report : StopReport) :
    (e.askToClose call n removed report).2.heldAt k = [] := by
  have hp (e : Engine) : (e.await call n removed report).2.heldAt k = [] := heldAt_pollAsked _ _ _ _ _
  unfold askToClose
  split
  · rfl
  · split
    · dsimp only
      split
      · exact hp _
      · unfold closeBySignal
        repeat' split
        all_goals rfl
      · exact hp _
      · exact hp _
      · split
        · exact hp _
        · exact hp _
    · exact hp _

/-- What the begin of a stop leaves of a vacant level. -/
structure Passes (k : LevelKey) (p : Phase) (e' : Engine) (held : List (Bool × Phase)) : Prop where
  vacant : ∃ p', Vacant e' k p' ∧ (p' = p ∨ p' = .stopped)
  held : held = []

theorem Passes.trans {q : Phase} {held held' : List (Bool × Phase)} (hq : q = p ∨ q = .stopped)
    (hh : held = []) (h : Passes k q e' held') : Passes k p e' (held ++ held') := by
  obtain ⟨p', hv, hp⟩ := h.vacant
  refine ⟨⟨p', hv, ?_⟩, by rw [hh, h.held]; rfl⟩
  rcases hp with rfl | rfl
  · exact hq
  · exact .inr rfl

theorem passes_beginClosing {stopInner : Engine → StopRequest → Engine × Stopping}
    (hs : ∀ e request p, Vacant e k p → Passes k p (stopInner e request).1 ((stopInner e request).2.heldAt k))
    (call : CallKey) (level : LevelKey) (n : NodeKey) (removed : Bool) (h : Vacant e k p) :
    Passes k p (beginClosing stopInner call e level n removed).1
      ((beginClosing stopInner call e level n removed).2.heldAt k) := by
  unfold beginClosing
  split
  · exact ⟨⟨p, h, .inl rfl⟩, rfl⟩
  · rename_i node _
    split
    · exact ⟨⟨p, h.still (silent_askToClose _ _ _ _ _).still, .inl rfl⟩, heldAt_askToClose _ _ _ _ _⟩
    · rename_i inst _
      have hin := hs (e.modifyLevel level fun l => { l with instances := l.instances.erase node.id })
        ⟨inst, none, if removed then .all else .none⟩ p (h.modifyLevel level (fun _ hl => hl) fun _ _ => rfl)
      dsimp only
      split
      · rename_i e' report hr
        rw [hr] at hin
        obtain ⟨p', hv, hp⟩ := hin.vacant
        exact ⟨⟨p', hv.still (silent_askToClose _ _ _ _ _).still, hp⟩, heldAt_askToClose _ _ _ _ _⟩
      · rename_i hr
        rw [hr] at hin
        exact hin

theorem passes_beginAll {stopInner : Engine → StopRequest → Engine × Stopping}
    (hs : ∀ e request p, Vacant e k p → Passes k p (stopInner e request).1 ((stopInner e request).2.heldAt k))
    (call : CallKey) (request : StopRequest) (targets : List NodeKey) (s : Engine × List Closing)
    (h : Passes k p s.1 (Stopping.heldAmong k s.2)) :
    Passes k p (beginAll stopInner call request s targets).1
      (Stopping.heldAmong k (beginAll stopInner call request s targets).2) := by
  induction targets generalizing s with
  | nil => exact h
  | cons n ns ih =>
    obtain ⟨q, hv, hq⟩ := h.vacant
    have hc := passes_beginClosing hs call request.level n
      (request.removal.holds (((s.1.node? n).map (·.id)).getD "")) hv
    refine ih _ ?_
    rw [Stopping.heldAmong_append]
    refine Passes.trans hq h.held ?_
    simpa [Stopping.heldAmong] using hc

theorem stopTargets_of_vacant {l : Level} (ha : l.active = []) (filter : Option (List NodeId)) :
    e.stopTargets l filter = [] := by
  refine List.eq_nil_iff_forall_not_mem.mpr fun n hn => ?_
  have hm := mem_active_of_mem_stopTargets hn
  rw [ha] at hm
  simp [Dict.values] at hm

theorem vacant_vacated_other {l : Level} {request : StopRequest} (h : Vacant e k p) (hk : request.level ≠ k) :
    Vacant (e.vacated l request) k p := by
  unfold vacated
  split
  · refine Vacant.withdraw (h.modifyLevel _ (f := fun l => { l with phase := .stopping }) (fun _ hl => hl) ?_) _ _
    exact fun _ hj => absurd hj hk
  · exact h.withdraw _ _

/-- All nodes have left a level that is stopped as a whole. -/
theorem vacant_vacated {l : Level} (hl : e.level? k = some l) (removal : Removal) :
    Vacant (e.vacated l ⟨k, none, removal⟩) k .stopping := by
  refine ⟨{ l with phase := .stopping, active := [] }, ?_, rfl, rfl⟩
  simp only [vacated, Option.isNone_none, if_true, level?_withdraw, level?_modifyLevel, hl, Option.map_some,
    Option.some.injEq, Level.mk.injEq, true_and, and_true]
  rw [List.filter_eq_nil_iff]
  intro entry hm
  have : entry.2 ∈ e.stopTargets l none := by
    unfold stopTargets
    rw [List.mem_mergeSort]
    exact List.mem_map.mpr ⟨entry, hm, rfl⟩
  simpa using this

/-- A stop that begins in a vacant level is over at once, and so is one of any other level as far as the vacant
one is concerned. -/
theorem passes_beginStop (call : CallKey) (fuel : Nat) (e : Engine) (request : StopRequest) (p : Phase)
    (h : Vacant e k p) :
    Passes k p (beginStop call fuel e request).1 ((beginStop call fuel e request).2.heldAt k) := by
  induction fuel generalizing e request p with
  | zero => exact ⟨⟨p, h, .inl rfl⟩, rfl⟩
  | succ fuel ih =>
    cases hl : e.level? request.level with
    | none =>
      unfold beginStop
      rw [hl]
      exact ⟨⟨p, h, .inl rfl⟩, rfl⟩
    | some l =>
      rw [beginStop_eq call fuel hl]
      by_cases hk : request.level = k
      · subst hk
        obtain ⟨l', hl', ha, rfl⟩ := h
        obtain rfl := Option.some.inj (hl.symm.trans hl')
        rw [stopTargets_of_vacant ha, beginAll, List.foldl_nil]
        have hv : ∃ q, Vacant (e.vacated l request) request.level q := by
          obtain ⟨level, filter, removal⟩ := request
          cases filter with
          | none => exact ⟨_, vacant_vacated hl removal⟩
          | some ids => exact ⟨_, Vacant.withdraw ⟨l, hl, ha, rfl⟩ _ _⟩
        obtain ⟨q, hv⟩ := hv
        rcases vacant_finishStop hv request.filter.isNone l.phase false [] with
          ⟨turned, -, hne, -⟩ | ⟨report, hv', hr⟩
        · exact absurd rfl hne
        · refine ⟨⟨_, hv', ?_⟩, by rw [hr]; rfl⟩
          unfold phaseAfter
          split
          · exact .inr rfl
          · exact .inl rfl
      · have hall := passes_beginAll ih call request (e.stopTargets l request.filter) (e.vacated l request, [])
          ⟨⟨p, vacant_vacated_other h hk, .inl rfl⟩, rfl⟩
        obtain ⟨q, hv, hq⟩ := hall.vacant
        obtain ⟨hv', hheld⟩ := vacant_finishStop_other hv hk request.filter.isNone l.phase false _
        refine ⟨⟨q, hv', hq⟩, List.eq_nil_iff_forall_not_mem.mpr fun held hm => ?_⟩
        have := hheld held hm
        rw [hall.held] at this
        cases this

/-- A stop of a whole level leaves nothing active in it. If it is over at once the level is stopped. -/
theorem vacant_beginFull (call : CallKey) (fuel : Nat) {l : Level} (hl : e.level? k = some l) (removal : Removal) :
    (∃ backward closings, (∃ q, Vacant (beginStop call (fuel + 1) e ⟨k, none, removal⟩).1 k q) ∧
      (beginStop call (fuel + 1) e ⟨k, none, removal⟩).2 = .running k true l.phase backward closings) ∨
    (∃ report, Vacant (beginStop call (fuel + 1) e ⟨k, none, removal⟩).1 k .stopped ∧
      (beginStop call (fuel + 1) e ⟨k, none, removal⟩).2 = .finished report) := by
  have hall := passes_beginAll (k := k) (passes_beginStop call fuel) call ⟨k, none, removal⟩
    (e.stopTargets l none) (e.vacated l ⟨k, none, removal⟩, [])
    ⟨⟨_, vacant_vacated hl removal, .inl rfl⟩, rfl⟩
  obtain ⟨q, hv, -⟩ := hall.vacant
  rw [beginStop_eq call fuel (show e.level? (StopRequest.mk k none removal).level = some l from hl)]
  rcases vacant_finishStop hv true l.phase false _ with ⟨turned, hv', -, hr⟩ | ⟨report, hv', hr⟩
  · exact .inl ⟨turned, _, ⟨q, hv'⟩, hr⟩
  · exact .inr ⟨report, hv', hr⟩

/-! ## Going on with a stop -/

/-- What going on with stops leaves of a vacant level: its phase is the same, or one of the stops has set it. -/
structure Lasts (k : LevelKey) (p : Phase) (held : List (Bool × Phase)) (e' : Engine)
    (held' : List (Bool × Phase)) : Prop where
  vacant : ∃ p', Vacant e' k p' ∧ (p' = p ∨ ∃ h ∈ held, p' = phaseAfter h)
  held : ∀ h ∈ held', h ∈ held

theorem Lasts.of_silent {held : List (Bool × Phase)} (h : Vacant e k p) (hs : Silent e e') : Lasts k p held e' held :=
  ⟨⟨p, h.still hs.still, .inl rfl⟩, fun _ hm => hm⟩

theorem Lasts.silent {held held' : List (Bool × Phase)} (h : Lasts k p held e' held') (hs : Silent e' e'') :
    Lasts k p held e'' [] := by
  obtain ⟨p', hv, hp⟩ := h.vacant
  exact ⟨⟨p', hv.still hs.still, hp⟩, fun _ hm => by cases hm⟩

/-- Stops that are gone on with one after the other. -/
theorem Lasts.append {f f' g g' all all' : List (Bool × Phase)} (h : Lasts k p f e' f')
    (h' : ∀ q, Vacant e' k q → Lasts k q g e'' g') (ha : ∀ x, x ∈ all ↔ x ∈ f ∨ x ∈ g)
    (ha' : ∀ x, x ∈ all' ↔ x ∈ f' ∨ x ∈ g') : Lasts k p all e'' all' := by
  obtain ⟨q, hv, hq⟩ := h.vacant
  obtain ⟨p', hv', hp⟩ := (h' q hv).vacant
  refine ⟨⟨p', hv', ?_⟩, fun x hx => (ha x).mpr (((ha' x).mp hx).imp (h.held x) ((h' q hv).held x))⟩
  rcases hp with rfl | ⟨x, hx, rfl⟩
  · exact hq.imp_right fun ⟨x, hx, hp⟩ => ⟨x, (ha x).mpr (.inl hx), hp⟩
  · exact .inr ⟨x, (ha x).mpr (.inr hx), rfl⟩

theorem Lasts.finishStop {j : LevelKey} {full : Bool} {previous : Phase} {backward : Bool}
    {closings closings' : List Closing}
    (h : Lasts k p (Stopping.heldAmong k closings) e' (Stopping.heldAmong k closings')) :
    Lasts k p ((Stopping.running j full previous backward closings).heldAt k)
      (e'.finishStop j full previous backward closings').1
      ((e'.finishStop j full previous backward closings').2.heldAt k) := by
  obtain ⟨q, hv, hq⟩ := h.vacant
  by_cases hj : j = k
  · subst hj
    have hmem (x : Bool × Phase) (hx : x ∈ Stopping.heldAmong j closings) :
        x ∈ (Stopping.running j full previous backward closings).heldAt j := by
      rw [Stopping.heldAt]
      exact List.mem_append_right _ hx
    rcases vacant_finishStop hv full previous backward closings' with ⟨turned, hv', -, hr⟩ | ⟨report, hv', hr⟩
    · rw [hr]
      refine ⟨⟨q, hv', hq.imp_right fun ⟨x, hx, hp⟩ => ⟨x, hmem x hx, hp⟩⟩, fun x hx => ?_⟩
      rw [Stopping.heldAt] at hx
      rcases List.mem_append.mp hx with hx | hx
      · rw [Stopping.heldAt]
        exact List.mem_append_left _ hx
      · exact hmem x (h.held x hx)
    · rw [hr]
      refine ⟨⟨_, hv', .inr ⟨(full, previous), ?_, rfl⟩⟩, fun x hx => by cases hx⟩
      simp [Stopping.heldAt]
  · have hsame : (Stopping.running j full previous backward closings).heldAt k = Stopping.heldAmong k closings := by
      simp [Stopping.heldAt, hj]
    rw [hsame]
    obtain ⟨hv', hheld⟩ := vacant_finishStop_other hv hj full previous backward closings'
    exact ⟨⟨q, hv', hq⟩, fun x hx => h.held x (hheld x hx)⟩

mutual
theorem lasts_pollClosing (call : CallKey) (e : Engine) {p : Phase} (h : Vacant e k p) :
    (c : Closing) → Lasts k p (c.heldAt k) (pollClosing call e c).1 ((pollClosing call e c).2.heldAt k)
  | .done report => .of_silent h (.refl e)
  | .asked n removed deadline report => by
    unfold pollClosing
    rw [heldAt_pollAsked]
    exact .of_silent h (silent_pollAsked e n removed deadline report)
  | .inner n removed inner => by
    have hi := lasts_pollStop call e h inner
    unfold pollClosing
    split
    · rename_i e' report hr
      rw [hr] at hi
      rw [heldAt_askToClose]
      exact hi.silent (silent_askToClose e' call n removed report)
    · rename_i hr
      rw [hr] at hi
      exact hi

theorem lasts_pollStop (call : CallKey) (e : Engine) {p : Phase} (h : Vacant e k p) :
    (s : Stopping) → Lasts k p (s.heldAt k) (pollStop call e s).1 ((pollStop call e s).2.heldAt k)
  | .finished report => .of_silent h (.refl e)
  | .running j full previous backward closings => by
    have hf := lasts_pollClosings call e h closings
    have hb := lasts_pollBackward call e h closings
    unfold pollStop
    cases backward with
    | true => exact hb.finishStop
    | false => exact hf.finishStop

theorem lasts_pollClosings (call : CallKey) (e : Engine) {p : Phase} (h : Vacant e k p) :
    (cs : List Closing) → Lasts k p (Stopping.heldAmong k cs) (pollClosings call e cs).1
      (Stopping.heldAmong k (pollClosings call e cs).2)
  | [] => .of_silent h (.refl e)
  | c :: cs => by
    have hc := lasts_pollClosing call e h c
    refine hc.append (fun q hq => lasts_pollClosings call _ hq cs) (fun x => ?_) fun x => ?_
    · rw [Stopping.heldAmong, List.mem_append]
    · rw [pollClosings, Stopping.heldAmong, List.mem_append]

theorem lasts_pollBackward (call : CallKey) (e : Engine) {p : Phase} (h : Vacant e k p) :
    (cs : List Closing) → Lasts k p (Stopping.heldAmong k cs) (pollBackward call e cs).1
      (Stopping.heldAmong k (pollBackward call e cs).2)
  | [] => .of_silent h (.refl e)
  | c :: cs => by
    have hcs := lasts_pollBackward call e h cs
    refine hcs.append (fun q hq => lasts_pollClosing call _ hq c) (fun x => ?_) fun x => ?_
    · rw [Stopping.heldAmong, List.mem_append, or_comm]
    · rw [pollBackward, Stopping.heldAmong, List.mem_append, or_comm]
end

/-- A stop of the whole level that is gone on with leaves it stopped when it is over. -/
theorem vacant_pollFull (call : CallKey) (h : Vacant e k p) (previous : Phase) (backward : Bool)
    (closings : List Closing) :
    (∃ turned closings', (∃ q, Vacant (pollStop call e (.running k true previous backward closings)).1 k q) ∧
      (pollStop call e (.running k true previous backward closings)).2 =
        .running k true previous turned closings') ∨
    (∃ report, Vacant (pollStop call e (.running k true previous backward closings)).1 k .stopped ∧
      (pollStop call e (.running k true previous backward closings)).2 = .finished report) := by
  have hends (e' : Engine) (closings' : List Closing) (hv : ∃ q, Vacant e' k q) :
      (∃ turned closings'', (∃ q, Vacant (e'.finishStop k true previous backward closings').1 k q) ∧
        (e'.finishStop k true previous backward closings').2 = .running k true previous turned closings'') ∨
      (∃ report, Vacant (e'.finishStop k true previous backward closings').1 k .stopped ∧
        (e'.finishStop k true previous backward closings').2 = .finished report) := by
    obtain ⟨q, hv⟩ := hv
    rcases vacant_finishStop hv true previous backward closings' with ⟨turned, hv', -, hr⟩ | ⟨report, hv', hr⟩
    · exact .inl ⟨turned, _, ⟨q, hv'⟩, hr⟩
    · exact .inr ⟨report, hv', hr⟩
  unfold pollStop
  cases backward with
  | true =>
    obtain ⟨q, hv, -⟩ := (lasts_pollBackward call e h closings).vacant
    exact hends _ _ ⟨q, hv⟩
  | false =>
    obtain ⟨q, hv, -⟩ := (lasts_pollClosings call e h closings).vacant
    exact hends _ _ ⟨q, hv⟩

end Engine
end Flowgraph
