import Flowgraph.Proofs.Accounting
/-! The receivers of a level and their table. The table is built anew at the end of an activation and at the end of a
stop; in between, receivers that come are not in it yet, and receivers that leave are in it still. -/
namespace Flowgraph

/-! ## What a table selects -/

namespace Receivers

variable {reporting : NodeId} {signal : Signal} {id : NodeId} {records : List Record}

theorem mem_takeErrors {rs : List Receiver} {taken : List NodeId} {resorted : Bool}
    (h : id ∈ takeErrors reporting taken resorted rs) : id ∈ taken ∨ id ∈ rs.map (·.id) := by
  induction rs generalizing taken resorted with
  | nil => exact .inl h
  | cons r rs ih =>
    have htook {resorted' : Bool} (h : id ∈ takeErrors reporting (taken ++ [r.id]) resorted' rs) :
        id ∈ taken ∨ id ∈ (r :: rs).map (·.id) := by
      rcases ih h with h | h
      · rcases List.mem_append.mp h with h | h
        · exact .inl h
        · exact .inr (by simp [List.mem_singleton.mp h])
      · exact .inr (List.mem_cons_of_mem _ h)
    have hpassed {resorted' : Bool} (h : id ∈ takeErrors reporting taken resorted' rs) :
        id ∈ taken ∨ id ∈ (r :: rs).map (·.id) := (ih h).imp_right (List.mem_cons_of_mem _)
    unfold takeErrors at h
    split at h
    · exact hpassed h
    · split at h
      · split at h
        · exact htook h
        · exact hpassed h
      · exact htook h

theorem mem_tiers {rs : List Receiver} {r : Receiver} (h : r ∈ tiers rs) : r ∈ rs := by
  simp only [tiers, List.mem_append, List.mem_filter] at h
  rcases h with (h | h) | h <;> exact h.1

/-- A table selects receivers that it was built of. -/
theorem mem_targets (h : id ∈ (ofRecords records).targets reporting signal) : id ∈ records.map (·.id) := by
  have hids {type : String} {r : Receiver} (hr : r ∈ (records.filter (·.type == type)).map Receiver.ofRecord) :
      r.id ∈ records.map (·.id) := by
    obtain ⟨r', hr', rfl⟩ := List.mem_map.mp hr
    exact List.mem_map.mpr ⟨r', (List.mem_filter.mp hr').1, rfl⟩
  cases signal with
  | error text about =>
    rcases mem_takeErrors h with h | h
    · cases h
    · obtain ⟨r, hr, rfl⟩ := List.mem_map.mp h
      exact hids (mem_tiers hr)
  | status status =>
    obtain ⟨r, hr, rfl⟩ := List.mem_map.mp h
    exact hids (List.mem_filter.mp hr).1
  | complete m =>
    obtain ⟨r, hr, rfl⟩ := List.mem_map.mp h
    exact hids (List.mem_filter.mp hr).1

end Receivers

namespace Engine

variable {e e' e'' : Engine} {i j k : LevelKey} {id : NodeId} {n : NodeKey} {key : CallKey}

/-! ## Tables and the receivers that are there -/

/-- The table of a level, and the records of the receivers that are active in it. -/
def hearing? (e : Engine) (j : LevelKey) : Option (Receivers × List Record) :=
  (e.level? j).map fun l => (l.receivers, e.receiverRecords l)

/-- The table of a level holds the receivers that are active in it. -/
def Attuned (e : Engine) (j : LevelKey) : Prop :=
  ∀ rs records, e.hearing? j = some (rs, records) → rs = .ofRecords records

/-- The table of a level selects nothing but receivers that are active in it. -/
def Sound (e : Engine) (j : LevelKey) : Prop :=
  ∀ rs records, e.hearing? j = some (rs, records) → ∀ reporting signal, ∀ id ∈ rs.targets reporting signal,
    id ∈ records.map (·.id)

/-- A stop of a level is under way. -/
def UnderStop (e : Engine) (j : LevelKey) : Prop :=
  ∃ i c, e.call? i = some c ∧ ∃ s ∈ c.waiting, j ∈ s.levels

theorem Attuned.sound (h : e.Attuned j) : e.Sound j := by
  intro rs records hj reporting signal id hid
  rw [h rs records hj] at hid
  exact Receivers.mem_targets hid

theorem attuned_of_hearing (h : e'.hearing? j = e.hearing? j) (ha : e.Attuned j) : e'.Attuned j := by
  intro rs records hj
  exact ha rs records (h ▸ hj)

theorem sound_of_hearing (h : e'.hearing? j = e.hearing? j) (hs : e.Sound j) : e'.Sound j := by
  intro rs records hj
  exact hs rs records (h ▸ hj)

/-- The records of receivers depend on who is active, and on the records of nodes. -/
theorem receiverRecords_congr {l l' : Level} (ha : l'.active = l.active)
    (hn : ∀ n ∈ l.active.values, (e'.node? n).map (·.record) = (e.node? n).map (·.record)) :
    e'.receiverRecords l' = e.receiverRecords l := by
  unfold receiverRecords
  rw [ha]
  refine List.filterMap_congr fun n hm => ?_
  rw [hn n (List.mem_mergeSort.mp hm)]

theorem hearing?_congr (hl : (e'.level? j).map (fun l => (l.receivers, l.active)) =
      (e.level? j).map fun l => (l.receivers, l.active))
    (hn : ∀ n, (e'.node? n).map (·.record) = (e.node? n).map (·.record)) : e'.hearing? j = e.hearing? j := by
  unfold hearing?
  cases h : e.level? j with
  | none =>
    rw [h] at hl
    cases h' : e'.level? j with
    | none => rfl
    | some l' => simp [h'] at hl
  | some l =>
    rw [h] at hl
    obtain ⟨l', hl', he⟩ := Option.map_eq_some_iff.mp hl
    obtain ⟨hr, ha⟩ := Prod.mk.inj he
    rw [hl', Option.map_some, Option.map_some, hr, receiverRecords_congr ha fun n _ => hn n]

theorem record_of_still (h : e'.still = e.still) (n : NodeKey) :
    (e'.node? n).map (·.record) = (e.node? n).map (·.record) := by
  have hn := congrArg (Option.map Node.record) (node?_of_still h n)
  rwa [Option.map_map, Option.map_map] at hn

theorem hearing?_of_still (h : e'.still = e.still) (j : LevelKey) : e'.hearing? j = e.hearing? j :=
  hearing?_congr (by rw [level?_of_still h]) (record_of_still h)

/-- A level that changes in other respects is heard of as before. -/
theorem hearing?_modifyLevel (e : Engine) (k : LevelKey) (f : Level → Level)
    (hf : ∀ l, (f l).receivers = l.receivers ∧ (f l).active = l.active) (j : LevelKey) :
    (e.modifyLevel k f).hearing? j = e.hearing? j := by
  refine hearing?_congr ?_ fun _ => rfl
  rw [level?_modifyLevel]
  split
  · rw [Option.map_map]
    congr 1
    funext l
    exact Prod.ext (hf l).1 (hf l).2
  · rfl

/-- The table that is built anew holds the receivers that are there. -/
theorem attuned_refresh (e : Engine) (k : LevelKey) : (e.refresh k).Attuned k := by
  intro rs records h
  unfold refresh at h
  cases hl : e.level? k with
  | none =>
    rw [hl] at h
    simp [hearing?, hl] at h
  | some l =>
    rw [hl] at h
    simp only [hearing?, level?_modifyLevel, if_pos, hl, Option.map_some, Option.some.injEq, Prod.mk.injEq] at h
    obtain ⟨rfl, rfl⟩ := h
    exact congrArg Receivers.ofRecords (receiverRecords_congr rfl fun _ _ => rfl).symm

/-- The tables of other levels stay. -/
theorem hearing?_refresh (e : Engine) {k : LevelKey} (hk : k ≠ j) : (e.refresh k).hearing? j = e.hearing? j := by
  obtain ⟨rs, hr⟩ := level?_refresh e j k
  refine hearing?_congr ?_ fun n => by rw [node?_refresh]
  rw [hr, if_neg hk]

theorem Attuned.refresh (h : e.Attuned j) (k : LevelKey) : (e.refresh k).Attuned j := by
  by_cases hk : k = j
  · exact hk ▸ attuned_refresh e k
  · exact attuned_of_hearing (hearing?_refresh e hk) h

/-! ## Nodes that have been told to stop -/

/-- No active node has been told to stop. -/
def Awake (e : Engine) : Prop := ∀ n node, e.IsActive n → e.node? n = some node → node.cancelled = false

theorem cancelled_of_still (h : e'.still = e.still) (n : NodeKey) :
    (e'.node? n).map (·.cancelled) = (e.node? n).map (·.cancelled) := by
  have hn := congrArg (Option.map Node.cancelled) (node?_of_still h n)
  rwa [Option.map_map, Option.map_map] at hn

theorem Awake.of_active (h : Awake e) (ha : ∀ n, e'.IsActive n → e.IsActive n)
    (hc : ∀ n, e'.IsActive n → (e'.node? n).map (·.cancelled) = (e.node? n).map (·.cancelled)) : Awake e' := by
  intro n node hn hnode
  have hcn := hc n hn
  rw [hnode] at hcn
  obtain ⟨node', hnode', he⟩ := Option.map_eq_some_iff.mp hcn.symm
  exact he.symm.trans (h n node' (ha n hn) hnode')

theorem isActive_of_levels (h : ∀ k, e'.level? k = e.level? k) (n : NodeKey) : e'.IsActive n ↔ e.IsActive n := by
  simp only [IsActive, activeKey?, h]

theorem Awake.still (h : Awake e) (hs : e'.still = e.still) : Awake e' :=
  h.of_active (fun n => (isActive_of_levels (level?_of_still hs) n).mp) fun n _ => cancelled_of_still hs n

theorem Awake.modifyLevel (h : Awake e) (k : LevelKey) (f : Level → Level) (hf : ∀ l, (f l).active = l.active) :
    Awake (e.modifyLevel k f) := by
  refine h.of_active (fun n => ?_) fun _ _ => rfl
  rintro ⟨j, id, hn⟩
  refine ⟨j, id, ?_⟩
  rw [activeKey?_modifyLevel] at hn
  split at hn
  · rw [activeKey?]
    simpa only [hf] using hn
  · exact hn

theorem Awake.refresh (h : Awake e) (k : LevelKey) : Awake (e.refresh k) := by
  unfold Engine.refresh
  split
  · exact h
  · exact h.modifyLevel _ _ fun _ => rfl

theorem node?_cancel (e : Engine) (m n : NodeKey) : (e.cancel m).node? n =
    if m = n then (e.node? n).map fun node => { node with cancelled := true } else e.node? n := by
  have hw (ps : List Pending) (e : Engine) :
      (ps.foldl (fun e p => e.wake (.task p.key)) e).node? n = e.node? n := by
    induction ps generalizing e with
    | nil => rfl
    | cons p ps ih =>
      rw [List.foldl_cons, ih]
      unfold wake
      split <;> rfl
  exact (hw _ _).trans (node?_modifyNode e n m _)

/-- Only those who leave are told to stop. -/
theorem node?_withdraw (e : Engine) (k : LevelKey) {targets : List NodeKey} (hn : n ∉ targets) :
    (e.withdraw k targets).node? n = e.node? n := by
  have h (ns : List NodeKey) (e : Engine) (hn : n ∉ ns) : (ns.foldl (fun e m => e.cancel m) e).node? n = e.node? n := by
    induction ns generalizing e with
    | nil => rfl
    | cons m ns ih =>
      rw [List.foldl_cons, ih _ fun hm => hn (List.mem_cons_of_mem _ hm), node?_cancel, if_neg]
      rintro rfl
      exact hn List.mem_cons_self
  exact h targets _ hn

theorem awake_vacated (hl : Laid e) {r : StopRequest} {l : Level} (hlevel : e.level? r.level = some l) (h : Awake e) :
    Awake (e.vacated l r) := by
  refine h.of_active (fun n hn => ((isActive_vacated hl hlevel).mp hn).1) fun n hn => ?_
  have hout := ((isActive_vacated hl hlevel).mp hn).2
  unfold vacated
  split
  · rw [node?_withdraw _ _ hout, node?_modifyLevel]
  · rw [node?_withdraw _ _ hout]

/-! ## Stops that begin -/

/-- What the begin of stops does: tables are right or as they were, but for those of levels that are still being
stopped, and only those who leave are told to stop. -/
structure Unseats (e e' : Engine) (levels : List LevelKey) : Prop where
  tables : ∀ j, e'.Attuned j ∨ j ∈ levels ∨ e'.hearing? j = e.hearing? j
  awake : Awake e → Awake e'
  laid : Laid e'

namespace Unseats

variable {levels levels' : List LevelKey}

theorem of_silent (h : Silent e e') (hl : Laid e) : Unseats e e' levels :=
  ⟨fun j => .inr (.inr (hearing?_of_still h.still j)), fun ha => ha.still h.still, hl.still h.still⟩

theorem trans (h : Unseats e e' levels) (h' : Unseats e' e'' levels') : Unseats e e'' (levels ++ levels') := by
  refine ⟨fun j => ?_, h'.awake ∘ h.awake, h'.laid⟩
  rcases h'.tables j with hj | hj | hj
  · exact .inl hj
  · exact .inr (.inl (List.mem_append_right _ hj))
  · rcases h.tables j with hj' | hj' | hj'
    · exact .inl (attuned_of_hearing hj hj')
    · exact .inr (.inl (List.mem_append_left _ hj'))
    · exact .inr (.inr (hj.trans hj'))

theorem mono (h : Unseats e e' levels) (hs : levels ⊆ levels') : Unseats e e' levels' :=
  ⟨fun j => (h.tables j).imp_right (Or.imp_left fun hj => hs hj), h.awake, h.laid⟩

end Unseats

theorem unseats_vacated (hl : Laid e) {r : StopRequest} {l : Level} (hlevel : e.level? r.level = some l) :
    Unseats e (e.vacated l r) [r.level] := by
  have hst : Stops e (e.vacated l r) := stops_vacated hlevel fun _ _ _ _ _ _ => trivial
  refine ⟨fun j => ?_, awake_vacated hl hlevel, hst.laid hl⟩
  by_cases hj : r.level = j
  · exact .inr (.inl (List.mem_singleton.mpr hj.symm))
  · refine .inr (.inr (hearing?_congr ?_ fun n => hst.record n))
    unfold vacated
    split <;> simp [level?_withdraw, hj]

theorem unseats_beginClosing {stopInner : Engine → StopRequest → Engine × Stopping}
    (hs : ∀ e r, Laid e → Unseats e (stopInner e r).1 (stopInner e r).2.levels) (call : CallKey) (e : Engine)
    (level : LevelKey) (k : NodeKey) (removed : Bool) (hl : Laid e) :
    Unseats e (beginClosing stopInner call e level k removed).1
      (beginClosing stopInner call e level k removed).2.levels := by
  unfold beginClosing
  split
  · exact .of_silent (.refl e) hl
  · rename_i n hn
    split
    · exact .of_silent (silent_askToClose _ _ _ _ _) hl
    · rename_i inst hi
      have hf : Unseats e (e.modifyLevel level fun l => { l with instances := l.instances.erase n.id }) [] :=
        ⟨fun j => .inr (.inr (hearing?_modifyLevel e level (fun l => { l with instances := l.instances.erase n.id })
            (fun _ => ⟨rfl, rfl⟩) j)), fun ha => ha.modifyLevel level _ fun _ => rfl,
          Stops.laid (StopsWithin.single (.forget level n.id trivial)) hl⟩
      have hin := hf.trans (hs (e.modifyLevel level fun l => { l with instances := l.instances.erase n.id })
        ⟨inst, none, if removed then .all else .none⟩ hf.laid)
      dsimp only
      split
      · rename_i e' report hr
        rw [hr] at hin
        have ha : Unseats e' (e'.askToClose call k removed report).1 [] :=
          .of_silent (silent_askToClose e' call k removed report) hin.laid
        exact (hin.trans ha).mono (by simp [Stopping.levels])
      · rename_i e' stop hr
        rw [hr] at hin
        exact hin

theorem Stopping.levelsOf_append (cs ds : List Closing) :
    Stopping.levelsOf (cs ++ ds) = Stopping.levelsOf cs ++ Stopping.levelsOf ds := by
  induction cs with
  | nil => rfl
  | cons c cs ih => simp [Stopping.levelsOf, ih]

theorem unseats_beginAll {stopInner : Engine → StopRequest → Engine × Stopping}
    (hs : ∀ e r, Laid e → Unseats e (stopInner e r).1 (stopInner e r).2.levels) (call : CallKey)
    (request : StopRequest) (targets : List NodeKey) (s : Engine × List Closing)
    (h : Unseats e s.1 (Stopping.levelsOf s.2)) :
    Unseats e (beginAll stopInner call request s targets).1
      (Stopping.levelsOf (beginAll stopInner call request s targets).2) := by
  induction targets generalizing s with
  | nil => exact h
  | cons n ns ih =>
    have hc := unseats_beginClosing hs call s.1 request.level n
      (request.removal.holds (((s.1.node? n).map (·.id)).getD "")) h.laid
    refine ih _ ?_
    rw [Stopping.levelsOf_append]
    refine (h.trans hc).mono ?_
    simp [Stopping.levelsOf]

theorem Stopping.levelsOf_eq_nil {closings : List Closing}
    (h : ¬(closings.filterMap Closing.report?).length < closings.length) : Stopping.levelsOf closings = [] := by
  induction closings with
  | nil => rfl
  | cons c cs ih =>
    have hle : (cs.filterMap Closing.report?).length ≤ cs.length := List.length_filterMap_le _ _
    cases c with
    | done report =>
      simp only [List.filterMap_cons, Closing.report?, List.length_cons] at h
      simp [Stopping.levelsOf, Closing.levels, ih (by omega)]
    | inner k removed stop =>
      simp only [List.filterMap_cons, Closing.report?, List.length_cons] at h
      omega
    | asked k removed deadline report =>
      simp only [List.filterMap_cons, Closing.report?, List.length_cons] at h
      omega

/-- The end of a stop builds the table of its level anew and leaves all others as they are. -/
theorem tables_finished {k : LevelKey} {p : Phase} {s : Engine}
    (hs : s.still = ((e.refresh k).modifyLevel k fun l => { l with phase := p }).still) (j : LevelKey) :
    s.Attuned j ∨ s.hearing? j = e.hearing? j ∧ j ≠ k := by
  have hj : s.hearing? j = (e.refresh k).hearing? j :=
    (hearing?_of_still hs j).trans
      (hearing?_modifyLevel (e.refresh k) k (fun l => { l with phase := p }) (fun _ => ⟨rfl, rfl⟩) j)
  by_cases hk : k = j
  · subst hk
    exact .inl (attuned_of_hearing hj (attuned_refresh e k))
  · exact .inr ⟨hj.trans (hearing?_refresh e hk), Ne.symm hk⟩

theorem awake_finished {k : LevelKey} {p : Phase} {s : Engine}
    (hs : s.still = ((e.refresh k).modifyLevel k fun l => { l with phase := p }).still) (h : Awake e) : Awake s :=
  ((h.refresh k).modifyLevel k (fun l => { l with phase := p }) fun _ => rfl).still hs

/-- A stop that has begun leaves no table wrong but those of levels that it is still stopping. -/
theorem unseats_beginStop (call : CallKey) (fuel : Nat) (e : Engine) (r : StopRequest) (hl : Laid e) :
    Unseats e (beginStop call fuel e r).1 (beginStop call fuel e r).2.levels := by
  have hlaid : Laid (beginStop call fuel e r).1 :=
    Stops.laid (stops_beginStop call fuel e r) hl
  induction fuel generalizing e r with
  | zero => exact .of_silent (.refl e) hl
  | succ fuel ih =>
    cases hlevel : e.level? r.level with
    | none =>
      unfold beginStop
      rw [hlevel]
      exact .of_silent (.refl e) hl
    | some l =>
      have hinner (e : Engine) (r : StopRequest) (hl : Laid e) :=
        ih e r hl (Stops.laid (stops_beginStop call fuel e r) hl)
      have hv := unseats_vacated hl hlevel
      have ha := unseats_beginAll hinner call r (e.stopTargets l r.filter) (e.vacated l r, [])
        (.of_silent (.refl _) hv.laid)
      obtain ⟨e₃, closings, hg⟩ : ∃ e₃ closings, beginAll (beginStop call fuel) call r (e.vacated l r, [])
          (e.stopTargets l r.filter) = (e₃, closings) := ⟨_, _, rfl⟩
      have hb := beginStop_eq call fuel hlevel
      rw [hg] at hb ha
      have h₃ : Unseats e e₃ (r.level :: Stopping.levelsOf closings) := hv.trans ha
      rw [hb] at hlaid ⊢
      rcases finishStop_eq e₃ r.level r.filter.isNone l.phase false closings with
        ⟨turned, -, hf⟩ | ⟨report, s, hlt, hs, hf⟩
      · rw [hf]
        exact h₃
      · rw [hf] at hlaid ⊢
        rw [Stopping.levelsOf_eq_nil hlt] at h₃
        refine ⟨fun j => ?_, fun hawake => awake_finished hs (h₃.awake hawake), hlaid⟩
        rcases tables_finished hs j with hj | ⟨hj, hne⟩
        · exact .inl hj
        · rcases h₃.tables j with hj' | hj' | hj'
          · exact .inl (attuned_of_hearing hj hj')
          · exact absurd (List.mem_singleton.mp hj') hne
          · exact .inr (.inr (hj.trans hj'))

/-! ## Stops that go on -/

/-- What going on with stops does: tables are right or as they were, and then levels that were being stopped still
are. -/
structure Resettles (e e' : Engine) (levels levels' : List LevelKey) : Prop where
  tables : ∀ j, e'.Attuned j ∨ e'.hearing? j = e.hearing? j ∧ (j ∈ levels → j ∈ levels')
  awake : Awake e → Awake e'

namespace Resettles

variable {f f' g g' : List LevelKey}

theorem of_silent (h : Silent e e') : Resettles e e' f f :=
  ⟨fun j => .inr ⟨hearing?_of_still h.still j, id⟩, fun ha => ha.still h.still⟩

theorem append (h : Resettles e e' f f') (h' : Resettles e' e'' g g') : Resettles e e'' (f ++ g) (f' ++ g') := by
  refine ⟨fun j => ?_, h'.awake ∘ h.awake⟩
  rcases h'.tables j with hj | ⟨hj, hg⟩
  · exact .inl hj
  · rcases h.tables j with hj' | ⟨hj', hf⟩
    · exact .inl (attuned_of_hearing hj hj')
    · refine .inr ⟨hj.trans hj', fun hm => ?_⟩
      rw [List.mem_append] at *
      exact hm.imp hf hg

theorem mono (h : Resettles e e' f f') (hf : g ⊆ f) (hg : f' ⊆ g') : Resettles e e' g g' :=
  ⟨fun j => (h.tables j).imp_right fun hj => ⟨hj.1, fun hm => hg (hj.2 (hf hm))⟩, h.awake⟩

end Resettles

theorem resettles_finishStop {e₃ : Engine} {k : LevelKey} {full : Bool} {previous : Phase} {backward : Bool}
    {closings closings' : List Closing}
    (h : Resettles e e₃ (Stopping.levelsOf closings) (Stopping.levelsOf closings')) :
    Resettles e (e₃.finishStop k full previous backward closings').1
      (Stopping.running k full previous backward closings).levels
      (e₃.finishStop k full previous backward closings').2.levels := by
  rcases finishStop_eq e₃ k full previous backward closings' with ⟨turned, -, hf⟩ | ⟨report, s, hlt, hs, hf⟩
  · rw [hf]
    have hk : Resettles e e [k] [k] := .of_silent (.refl e)
    exact hk.append h
  · rw [hf]
    rw [Stopping.levelsOf_eq_nil hlt] at h
    refine ⟨fun j => ?_, fun hawake => awake_finished hs (h.awake hawake)⟩
    rcases tables_finished hs j with hj | ⟨hj, hne⟩
    · exact .inl hj
    · rcases h.tables j with hj' | ⟨hj', hm⟩
      · exact .inl (attuned_of_hearing hj hj')
      · refine .inr ⟨hj.trans hj', fun hin => ?_⟩
        rcases List.mem_cons.mp hin with hin | hin
        · exact absurd hin hne
        · exact hm hin

mutual
theorem resettles_pollClosing (call : CallKey) (e : Engine) :
    (c : Closing) → Resettles e (pollClosing call e c).1 c.levels (pollClosing call e c).2.levels
  | .done report => .of_silent (.refl e)
  | .asked k removed deadline report =>
    (Resettles.of_silent (f := []) (silent_pollAsked e k removed deadline report)).mono (List.Subset.refl _)
      (List.nil_subset _)
  | .inner k removed inner => by
    have hi := resettles_pollStop call e inner
    unfold pollClosing
    split
    · rename_i e' report hr
      rw [hr] at hi
      have ha : Resettles e' (e'.askToClose call k removed report).1 [] [] :=
        .of_silent (silent_askToClose e' call k removed report)
      exact (hi.append ha).mono (by simp [Closing.levels]) (by simp [Stopping.levels])
    · rename_i e' inner' hr
      rw [hr] at hi
      exact hi

/-- Going on with a stop leaves no table wrong but those of levels that it goes on stopping. -/
theorem resettles_pollStop (call : CallKey) (e : Engine) :
    (s : Stopping) → Resettles e (pollStop call e s).1 s.levels (pollStop call e s).2.levels
  | .finished report => .of_silent (.refl e)
  | .running k full previous backward closings => by
    have hb := resettles_pollBackward call e closings
    have hf := resettles_pollClosings call e closings
    unfold pollStop
    cases backward with
    | true => exact resettles_finishStop hb
    | false => exact resettles_finishStop hf

theorem resettles_pollClosings (call : CallKey) (e : Engine) :
    (cs : List Closing) → Resettles e (pollClosings call e cs).1 (Stopping.levelsOf cs)
      (Stopping.levelsOf (pollClosings call e cs).2)
  | [] => .of_silent (.refl e)
  | c :: cs =>
    (resettles_pollClosing call e c).append (resettles_pollClosings call (pollClosing call e c).1 cs)

theorem resettles_pollBackward (call : CallKey) (e : Engine) :
    (cs : List Closing) → Resettles e (pollBackward call e cs).1 (Stopping.levelsOf cs)
      (Stopping.levelsOf (pollBackward call e cs).2)
  | [] => .of_silent (.refl e)
  | c :: cs => by
    have hcs := resettles_pollBackward call e cs
    have hc := resettles_pollClosing call (pollBackward call e cs).1 c
    refine (hcs.append hc).mono ?_ ?_
    · simp [Stopping.levelsOf]
    · change _ ⊆ Stopping.levelsOf ((pollClosing call (pollBackward call e cs).1 c).2 :: (pollBackward call e cs).2)
      simp [Stopping.levelsOf]
end

end Engine
end Flowgraph
