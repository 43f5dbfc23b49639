import Flowgraph.Proofs.Departures
/-! What a stop leaves behind when it has begun: the entries that it takes out are empty, and all others are as
before. So it gives exactly one order to each node at one of those entries. -/
namespace Flowgraph.Engine

variable {e e' e'' : Engine} {i i' j k : LevelKey} {id u u' : NodeId} {n : NodeKey} {r : StopRequest}

/-- An instance belongs to an active usage node. -/
def Housed (e : Engine) : Prop := ∀ k u i, e.instance? k u = some i → (e.activeKey? k u).isSome = true

/-- Nothing is active in a level, and it has no instances. -/
def Bare (e : Engine) (j : LevelKey) : Prop := ∀ id, e.activeKey? j id = none ∧ e.instance? j id = none

theorem Dwindles.bare (h : Dwindles e e') (hb : e.Bare j) : e'.Bare j := fun id =>
  ⟨h.none_of_none (hb id).1, h.instance?_of_none (hb id).2⟩

/-! ## Instances of one level have nothing in common -/

theorem Laid.lt_instance (h : Laid e) (hi : e.instance? k u = some i) : k < i := by
  obtain ⟨l, b, hl, hk, hp, -⟩ := h.isInstance hi
  obtain ⟨p, hp', hlt⟩ := ((h i l hl).enclosed b hk).parent
  obtain rfl := Option.some.inj (hp.symm.trans hp')
  exact hlt

theorem Laid.le_inside (h : Laid e) (hi : e.Inside i j) : i ≤ j := by
  induction hi with
  | here => exact Nat.le_refl i
  | deeper _ hi ih => exact Nat.le_trans ih (Nat.le_of_lt (h.lt_instance hi))

/-- No instance of a level has that level inside. -/
theorem Laid.not_inside (h : Laid e) (hi : e.instance? k u = some i) : ¬e.Inside i k := fun hin =>
  absurd (h.le_inside hin) (Nat.not_le_of_lt (h.lt_instance hi))

theorem Inside.first (h : e.Inside k j) : j = k ∨ ∃ u i, e.instance? k u = some i ∧ e.Inside i j := by
  induction h with
  | here => exact .inl rfl
  | @deeper j j' id _ hi ih =>
    rcases ih with rfl | ⟨u, i, hu, hin⟩
    · exact .inr ⟨id, j', hi, .here⟩
    · exact .inr ⟨u, i, hu, .deeper hin hi⟩

/-- Of two levels around a third one is inside the other. -/
theorem Laid.comparable (h : Laid e) (hi : e.Inside i j) (hi' : e.Inside i' j) : e.Inside i i' ∨ e.Inside i' i := by
  induction hi with
  | here => exact .inr hi'
  | deeper hin hj ih =>
    cases hi' with
    | here => exact .inl (.deeper hin hj)
    | deeper hin' hj' =>
      obtain ⟨rfl, -⟩ := (h.isInstance hj).unique (h.isInstance hj')
      exact ih hin'

theorem Laid.inside_unique (h : Laid e) (hi : e.instance? k u = some i) (hi' : e.instance? k u' = some i')
    (hj : e.Inside i j) (hj' : e.Inside i' j) : u = u' := by
  have hone {u u' : NodeId} {i i' : LevelKey} (hi : e.instance? k u = some i) (hi' : e.instance? k u' = some i')
      (hin : e.Inside i i') : u = u' := by
    cases hin with
    | here => exact ((h.isInstance hi).unique (h.isInstance hi')).2
    | deeper hin hi'' =>
      obtain ⟨rfl, -⟩ := (h.isInstance hi'').unique (h.isInstance hi')
      exact absurd hin (h.not_inside hi)
  rcases h.comparable hj hj' with hin | hin
  · exact hone hi hi' hin
  · exact (hone hi' hi hin).symm

/-- A stop tells a node one thing only. -/
theorem Laid.takes_unique (h : Laid e) {removed removed' : Bool} (ht : r.Takes e j id removed)
    (ht' : r.Takes e j id removed') : removed = removed' := by
  cases ht with
  | own hc =>
    cases ht' with
    | own => rfl
    | nested _ hi hin => exact absurd hin (h.not_inside hi)
  | nested _ hi hin =>
    cases ht' with
    | own => exact absurd hin (h.not_inside hi)
    | nested _ hi' hin' => rw [h.inside_unique hi hi' hin hin']

/-! ## The instance of a usage node is emptied when its close begins -/

theorem bare_beginClosing {stopInner : Engine → StopRequest → Engine × Stopping}
    (hs : ∀ s request, Stops s (stopInner s request).1) (hl : Laid e) (call : CallKey) {level : LevelKey} {node : Node}
    (hn : e.node? n = some node) (hi : e.instance? level node.id = some i)
    (hb : ∀ removal, Bare (stopInner (e.modifyLevel level fun l => { l with instances := l.instances.erase node.id })
      ⟨i, none, removal⟩).1 j) (removed : Bool) :
    Bare (beginClosing stopInner call e level n removed).1 j ∧
      (beginClosing stopInner call e level n removed).1.instance? level node.id = none := by
  have hforget : Stops e (e.modifyLevel level fun l => { l with instances := l.instances.erase node.id }) :=
    StopsWithin.single (.forget level node.id trivial)
  have hgone : (e.modifyLevel level fun l => { l with instances := l.instances.erase node.id }).instance? level
      node.id = none := by
    rw [instance?_modifyLevel, if_pos rfl]
    cases e.level? level with
    | none => rfl
    | some l => exact (Dict.get?_erase _ _ _).trans (if_pos rfl)
  have hin := hs (e.modifyLevel level fun l => { l with instances := l.instances.erase node.id })
    ⟨i, none, if removed then .all else .none⟩
  have hbare := hb (if removed then .all else .none)
  have hnone := (hin.dwindles (hforget.laid hl)).instance?_of_none hgone
  have hlaid := hin.laid (hforget.laid hl)
  unfold beginClosing
  rw [hn]
  dsimp only
  rw [hi]
  dsimp only
  split
  · rename_i m report hr
    rw [hr] at hbare hnone hlaid
    have hd : Dwindles m (m.askToClose call n removed report).1 :=
      Stops.dwindles (silent_askToClose m call n removed report).stops hlaid
    exact ⟨hd.bare hbare, hd.instance?_of_none hnone⟩
  · rename_i hr
    rw [hr] at hbare hnone
    exact ⟨hbare, hnone⟩

/-! ## The closes of a stop do not meet each other -/

/-- What the closes of other nodes of the level may take out. -/
def OtherThan (e : Engine) (level : LevelKey) (u : NodeId) (j : LevelKey) (id : NodeId) : Prop :=
  ∃ u', u' ≠ u ∧ ((j = level ∧ id = u') ∨ ∃ i', e.instance? level u' = some i' ∧ e.Inside i' j)

theorem closed_otherThan (hi : ∀ k u, e'.instance? k u = e.instance? k u) (level : LevelKey) (u : NodeId) :
    Closed (OtherThan e level u) e' := by
  intro k l id inst hlevel hinst ⟨u', hne, hk⟩ id'
  have hinst : e.instance? k id = some inst := by rw [← hi, instance?, hlevel, Option.bind_some, hinst]
  refine ⟨u', hne, .inr ?_⟩
  rcases hk with ⟨rfl, rfl⟩ | ⟨i', hi', hin⟩
  · exact ⟨inst, hinst, .here⟩
  · exact ⟨i', hi', .deeper hin hinst⟩

theorem Laid.not_otherThan_own (h : Laid e) (level : LevelKey) (u : NodeId) : ¬OtherThan e level u level u := by
  rintro ⟨u', hne, ⟨-, rfl⟩ | ⟨i', hi', hin⟩⟩
  · exact hne rfl
  · exact h.not_inside hi' hin

theorem Laid.not_otherThan_inside (h : Laid e) {level : LevelKey} (hi : e.instance? level u = some i)
    (hin : e.Inside i j) : ¬OtherThan e level u j id := by
  rintro ⟨u', hne, ⟨rfl, -⟩ | ⟨i', hi', hin'⟩⟩
  · exact h.not_inside hi hin
  · exact hne (h.inside_unique hi' hi hin' hin)

/-- The closes of other nodes leave a usage node's instance and everything in it alone. -/
theorem spares_beginAll (hl : Laid e) {l : Level} (hlevel : e.level? r.level = some l) (call : CallKey) (fuel : Nat)
    {targets : List NodeKey} (ht : ∀ n ∈ targets, ∀ node, e.node? n = some node → node.id ≠ u) :
    Spares (fun j id => ¬OtherThan e r.level u j id) (e.vacated l r)
      (beginAll (beginStop call fuel) call r (e.vacated l r, []) targets).1 := by
  have hv : Stops e (e.vacated l r) := stops_vacated hlevel fun _ _ _ _ _ _ => trivial
  have hs : StopsWithin (OtherThan e r.level u) (e.vacated l r)
      (beginAll (beginStop call fuel) call r (e.vacated l r, []) targets).1 := by
    refine stops_beginAll (fun s inst removal hc hall => ?_) call r targets (e.vacated l r, [])
      (closed_otherThan instance?_vacated _ _) (hv.permits fun n hn node hnode => ⟨node.id, ht n hn node hnode, .inl ⟨rfl, rfl⟩⟩)
    exact stopsWithin_beginStop call fuel s _ hc fun _ _ _ _ node _ => hall node.id
  exact (hs.mono fun _ _ h => not_not_intro h).spares (hv.laid hl).placed

/-- An instance with all that is inside is as it was. -/
def SameInside (e e' : Engine) (i : LevelKey) : Prop :=
  ∀ j, e.Inside i j → ∀ id, e'.activeKey? j id = e.activeKey? j id ∧ e'.instance? j id = e.instance? j id

theorem SameInside.inside (h : SameInside e e' i) (hin : e.Inside i j) : e'.Inside i j := by
  induction hin with
  | here => exact .here
  | deeper hin hi ih => exact .deeper ih ((h _ hin _).2.trans hi)

theorem beginAll_append (stopInner : Engine → StopRequest → Engine × Stopping) (call : CallKey) (r : StopRequest)
    (s : Engine × List Closing) (ns ms : List NodeKey) :
    beginAll stopInner call r s (ns ++ ms) = beginAll stopInner call r (beginAll stopInner call r s ns) ms :=
  List.foldl_append

/-- When all closes of a stop have begun, the instance of a usage node that it covers is gone, and nothing is left
in it. -/
theorem bare_beginAll (hl : Laid e) {l : Level} (hlevel : e.level? r.level = some l) (call : CallKey) (fuel : Nat)
    (hc : r.Covers u) (hn : e.activeKey? r.level u = some n) (hi : e.instance? r.level u = some i)
    (hb : ∀ s removal, Laid s → Stops e s → SameInside e s i →
      Bare (beginStop call fuel s ⟨i, none, removal⟩).1 j) :
    Bare (beginAll (beginStop call fuel) call r (e.vacated l r, []) (e.stopTargets l r.filter)).1 j ∧
      (beginAll (beginStop call fuel) call r (e.vacated l r, []) (e.stopTargets l r.filter)).1.instance? r.level u =
        none := by
  have hclosed (s : Engine) : Closed (fun _ _ => True) s := fun _ _ _ _ _ _ _ _ => trivial
  have hs (s : Engine) (request : StopRequest) : Stops s (beginStop call fuel s request).1 :=
    stopsWithin_beginStop call fuel s request (hclosed s) fun _ _ _ _ _ _ => trivial
  have hv : Stops e (e.vacated l r) := stops_vacated hlevel fun _ _ _ _ _ _ => trivial
  obtain ⟨before, after, hsplit⟩ := List.append_of_mem ((mem_stopTargets hl hlevel).mpr ⟨u, hn, hc⟩)
  have hnodup : (before ++ n :: after).Nodup := hsplit ▸ nodup_stopTargets (hl _ l hlevel) r.filter
  have hother : ∀ m ∈ before, ∀ node, e.node? m = some node → node.id ≠ u := by
    rintro m hm node hnode rfl
    have hmem : m ∈ e.stopTargets l r.filter := by
      rw [hsplit]
      exact List.mem_append_left _ hm
    obtain ⟨id, ha, -⟩ := (mem_stopTargets hl hlevel).mp hmem
    obtain ⟨node', hnode', -, rfl⟩ := (hl _ l hlevel).active id m (by rwa [activeKey?, hlevel] at ha)
    obtain rfl := Option.some.inj (hnode.symm.trans hnode')
    obtain rfl := Option.some.inj (ha.symm.trans hn)
    exact (List.nodup_append.mp hnodup).2.2 m hm m List.mem_cons_self rfl
  have hspares := spares_beginAll (u := u) hl hlevel call fuel hother
  have hbefore : Stops e (beginAll (beginStop call fuel) call r (e.vacated l r, []) before).1 :=
    hv.trans (stops_beginAll (fun s _ _ _ _ => hs s _) call r before (e.vacated l r, []) (hclosed _) fun _ _ _ _ => trivial)
  rw [hsplit, beginAll_append]
  generalize beginAll (beginStop call fuel) call r (e.vacated l r, []) before = m at hspares hbefore ⊢
  -- the usage node's own close finds the instance as it was
  obtain ⟨node, hnode, rfl⟩ : ∃ node, m.1.node? n = some node ∧ node.id = u := by
    obtain ⟨node, hnode, -, rfl⟩ := (hl _ l hlevel).active u n (by rwa [activeKey?, hlevel] at hn)
    obtain ⟨node', hnode', hkin⟩ := hbefore.grows.node n node hnode
    exact ⟨node', hnode', congrArg Record.id hkin.record⟩
  have hinst : m.1.instance? r.level node.id = some i :=
    (hspares.inst _ _ (hl.not_otherThan_own _ _)).trans ((instance?_vacated _ _).trans hi)
  have hsame : SameInside e m.1 i := by
    intro j' hin id
    have hne : r.level ≠ j' := by
      rintro rfl
      exact hl.not_inside hi hin
    have hkept : ¬OtherThan e r.level node.id j' id := hl.not_otherThan_inside hi hin
    refine ⟨(hspares.active _ _ hkept).trans ?_, (hspares.inst _ _ hkept).trans (instance?_vacated _ _)⟩
    rw [activeKey?_vacated hl, if_neg hne]
  have hforget : Stops m.1 (m.1.modifyLevel r.level fun l => { l with instances := l.instances.erase node.id }) :=
    StopsWithin.single (.forget r.level node.id trivial)
  have hclose := bare_beginClosing hs (hbefore.laid hl) call hnode hinst (j := j) (fun removal => by
    refine hb _ removal ((hbefore.trans hforget).laid hl) (hbefore.trans hforget) fun j' hin id => ?_
    have hne : r.level ≠ j' := by
      rintro rfl
      exact hl.not_inside hi hin
    rw [activeKey?_modifyLevel, instance?_modifyLevel, if_neg hne, if_neg hne]
    exact hsame j' hin id) (m.1.ordered r n).removed
  -- and nothing comes back while the other closes begin
  have hcs : Stops m.1 (beginClosing (beginStop call fuel) call m.1 r.level n (m.1.ordered r n).removed).1 :=
    stops_beginClosing (fun s _ _ _ _ => hs s _) call (hclosed _) (fun _ _ => trivial) _
  have hrest : Stops (beginClosing (beginStop call fuel) call m.1 r.level n (m.1.ordered r n).removed).1
      (beginAll (beginStop call fuel) call r
        ((beginClosing (beginStop call fuel) call m.1 r.level n (m.1.ordered r n).removed).1,
          m.2 ++ [(beginClosing (beginStop call fuel) call m.1 r.level n (m.1.ordered r n).removed).2]) after).1 :=
    stops_beginAll (fun s _ _ _ _ => hs s _) call r after (_, _) (hclosed _) fun _ _ _ _ => trivial
  have hd := Stops.dwindles hrest ((hbefore.trans hcs).laid hl)
  exact ⟨hd.bare hclose.1, hd.instance?_of_none hclose.2⟩

/-- The entries that a stop takes out are empty when it has begun. -/
theorem emptied_beginStop (call : CallKey) (fuel : Nat) (hl : Laid e)
    (hh : ∀ j u removed i, r.Takes e j u removed → e.instance? j u = some i → (e.activeKey? j u).isSome = true)
    (hf : ∀ j id removed, r.Takes e j id removed → j < r.level + fuel) {removed : Bool}
    (ht : r.Takes e j id removed) : (beginStop call fuel e r).1.activeKey? j id = none ∧
      (beginStop call fuel e r).1.instance? j id = none := by
  induction fuel generalizing e r j id removed with
  | zero =>
    have hlt := hf j id removed ht
    cases ht with
    | own => exact absurd hlt (Nat.lt_irrefl _)
    | nested _ hi hin => exact absurd (Nat.le_trans (hl.le_inside hin) (Nat.le_of_lt hlt)) (Nat.not_le_of_lt (hl.lt_instance hi))
  | succ fuel ih =>
    cases hlevel : e.level? r.level with
    | none =>
      have hnone (u : NodeId) : e.instance? r.level u = none := by rw [instance?, hlevel, Option.bind_none]
      cases ht with
      | own =>
        unfold beginStop
        rw [hlevel]
        exact ⟨by rw [activeKey?, hlevel, Option.bind_none], hnone _⟩
      | nested _ hi =>
        rw [hnone] at hi
        cases hi
    | some l =>
      -- all that is inside the instance of a usage node which the stop covers
      have hinner {u : NodeId} {i : LevelKey} (hc : r.Covers u) (hi : e.instance? r.level u = some i) {j : LevelKey}
          (hin : e.Inside i j) :
          Bare (beginAll (beginStop call fuel) call r (e.vacated l r, []) (e.stopTargets l r.filter)).1 j ∧
            (beginAll (beginStop call fuel) call r (e.vacated l r, [])
              (e.stopTargets l r.filter)).1.instance? r.level u = none := by
        obtain ⟨n, hn⟩ := Option.isSome_iff_exists.mp (hh _ u _ i (.own hc) hi)
        refine bare_beginAll hl hlevel call fuel hc hn hi fun s removal hls hes hsame id => ?_
        have hdw := hes.dwindles hl
        -- what the inner stop takes out is inside the instance
        have hback {j' : LevelKey} {id' : NodeId} {removed' : Bool}
            (ht : StopRequest.Takes ⟨i, none, removal⟩ s j' id' removed') : e.Inside i j' := by
          cases ht with
          | own => exact .here
          | nested _ hi' hin' => exact .of_instance (hdw.inst _ _ _ hi') (hdw.inside hin')
        have htakes : ∃ removed', StopRequest.Takes ⟨i, none, removal⟩ s j id removed' := by
          rcases (hsame.inside hin).first with rfl | ⟨u', i', hi', hin'⟩
          · exact ⟨_, .own fun _ h => by cases h⟩
          · exact ⟨_, .nested (fun _ h => by cases h) hi' hin'⟩
        obtain ⟨removed', htakes⟩ := htakes
        refine ih hls (fun j' u' removed' i' ht hi' => ?_) (fun j' id' removed' ht => ?_) htakes
        · have hin' := hback ht
          rw [(hsame j' hin' u').1]
          exact hh j' u' _ i' (.nested hc hi hin') (hdw.inst _ _ _ hi')
        · have hlt := hf j' id' _ (.nested hc hi (hback ht))
          have hik := hl.lt_instance hi
          refine Nat.lt_of_lt_of_le hlt ?_
          rw [Nat.add_comm fuel 1, ← Nat.add_assoc]
          exact Nat.add_le_add_right hik fuel
      have hv : Stops e (e.vacated l r) := stops_vacated hlevel fun _ _ _ _ _ _ => trivial
      have hall : Stops (e.vacated l r)
          (beginAll (beginStop call fuel) call r (e.vacated l r, []) (e.stopTargets l r.filter)).1 :=
        stops_beginAll (fun s _ _ _ _ => stops_beginStop call fuel s _) call r _ (e.vacated l r, [])
          (fun _ _ _ _ _ _ _ _ => trivial) fun _ _ _ _ => trivial
      have hlv := hv.laid hl
      have hdw := hall.dwindles hlv
      rw [beginStop_eq call fuel hlevel]
      have hfinish := (departs_finishStop (hall.laid hlv) r.level r.filter.isNone l.phase false (beginAll
        (beginStop call fuel) call r (e.vacated l r, []) (e.stopTargets l r.filter)).2).stops.dwindles (hall.laid hlv)
      cases ht with
      | own hc =>
        refine ⟨hfinish.none_of_none (hdw.none_of_none ?_), hfinish.instance?_of_none ?_⟩
        · rw [activeKey?_vacated hl, if_pos rfl]
          cases hn : e.activeKey? r.level id with
          | none => rfl
          | some n =>
            have hm := (mem_stopTargets hl hlevel).mpr ⟨id, hn, hc⟩
            simp [Option.filter, hm]
        · cases hi : e.instance? r.level id with
          | none => exact hdw.instance?_of_none ((instance?_vacated _ _).trans hi)
          | some i => exact (hinner hc hi .here).2
      | nested hc hi hin =>
        have hb := (hinner hc hi hin).1 id
        exact ⟨hfinish.none_of_none hb.1, hfinish.instance?_of_none hb.2⟩

/-! ## What a stop does when it begins -/

/-- A stop begins: these are its orders, and some of them are served at once. -/
structure Commences (e : Engine) (r : StopRequest) (e' : Engine) (s : Stopping) (orders served : List Order) : Prop where
  /-- Each active node at an entry that the stop takes out gets its order. -/
  given : ∀ o, o ∈ orders ↔ ∃ j id, e.activeKey? j id = some o.node ∧ r.Takes e j id o.removed
  once : (orders.map (·.node)).Nodup
  /-- What has not been served yet is still to be, and all will be reported. -/
  serving : Serving e e' orders s.orders (e.idsOfOrders orders) (s.docket e.idsOf) served
  emptied : ∀ j id removed, r.Takes e j id removed → e'.activeKey? j id = none ∧ e'.instance? j id = none
  spares : Spares (fun j id => ∀ removed, ¬r.Takes e j id removed) e e'

theorem closed_takes (e : Engine) (r : StopRequest) : Closed (fun j id => ∃ removed, r.Takes e j id removed) e := by
  rintro k l id inst hlevel hinst ⟨removed, ht⟩ id'
  have hi : e.instance? k id = some inst := by rw [instance?, hlevel, Option.bind_some, hinst]
  cases ht with
  | own hc => exact ⟨_, .nested hc hi .here⟩
  | nested hc hi' hin => exact ⟨_, .nested hc hi' (.deeper hin hi)⟩

theorem Laid.permits_takes (hl : Laid e) (r : StopRequest) :
    Permits (fun j id => ∃ removed, r.Takes e j id removed) e r := by
  intro l hlevel n hn node hnode
  obtain ⟨id, ha, hc⟩ := (mem_stopTargets hl hlevel).mp hn
  obtain ⟨node', hnode', -, rfl⟩ := (hl _ l hlevel).active id n (by rwa [activeKey?, hlevel] at ha)
  obtain rfl := Option.some.inj (hnode.symm.trans hnode')
  exact ⟨_, .own hc⟩

theorem Laid.lt_of_takes (hl : Laid e) {removed : Bool} (ht : r.Takes e j id removed) :
    j < r.level + (e.levelCount + 1) := by
  have hlt {i : LevelKey} {k : LevelKey} {u : NodeId} (hi : e.instance? k u = some i) : i < e.levels.size := by
    obtain ⟨l, b, hlevel, -⟩ := hl.isInstance hi
    exact level?_lt e i hlevel
  have hsize : j = r.level ∨ j < e.levels.size := by
    cases ht with
    | own => exact .inl rfl
    | nested _ hi hin =>
      cases hin with
      | here => exact .inr (hlt hi)
      | deeper _ hi' => exact .inr (hlt hi')
  unfold levelCount
  rcases hsize with rfl | hj
  · exact Nat.lt_add_of_pos_right (Nat.succ_pos _)
  · exact Nat.lt_of_lt_of_le hj (Nat.le_trans (Nat.le_succ _) (Nat.le_add_left _ _))

/-- Every stop begins that way. -/
theorem commences_stop (hl : Laid e) (hh : Housed e) (call : CallKey) (r : StopRequest) :
    ∃ orders served, Commences e r (e.stop call r).1 (e.stop call r).2 orders served := by
  obtain ⟨orders, served, hd, hserve, hall⟩ := begins_beginStop call (e.levelCount + 1) e hl r
  have hdw := hd.stops.dwindles hl
  have hempty (j : LevelKey) (id : NodeId) (removed : Bool) (ht : r.Takes e j id removed) :
      (e.stop call r).1.activeKey? j id = none ∧ (e.stop call r).1.instance? j id = none :=
    emptied_beginStop call _ hl (fun j u _ i _ hi => hh j u i hi) (fun _ _ _ ht => hl.lt_of_takes ht) ht
  refine ⟨orders, served, fun o => ⟨hall o, ?_⟩, hd.once, hserve, hempty, ?_⟩
  · rintro ⟨j, id, ha, ht⟩
    have hgone : ¬(e.stop call r).1.IsActive o.node := by
      rintro ⟨j', id', ha'⟩
      obtain ⟨rfl, rfl⟩ := hl.activeKey?_inj (hdw.active j' id' _ ha') ha
      rw [(hempty j' id' _ ht).1] at ha'
      cases ha'
    obtain ⟨o', ho', hnode⟩ := List.mem_map.mp ((hd.left o.node).mpr ⟨⟨j, id, ha⟩, hgone⟩)
    obtain ⟨j', id', ha', ht'⟩ := hall o' ho'
    rw [hnode] at ha'
    obtain ⟨rfl, rfl⟩ := hl.activeKey?_inj ha' ha
    have hremoved := hl.takes_unique ht' ht
    obtain ⟨node, removed⟩ := o
    obtain ⟨node', removed'⟩ := o'
    obtain rfl : node' = node := hnode
    obtain rfl : removed' = removed := hremoved
    exact ho'
  · have hw := stopsWithin_beginStop call (e.levelCount + 1) e r (closed_takes e r) (hl.permits_takes r)
    refine StopsWithin.spares (hw.mono fun j id ⟨removed, ht⟩ hk => hk removed ht) hl.placed

namespace Commences

variable {s : Stopping} {orders served : List Order}

theorem stops (h : Commences e r e' s orders served) : Stops e e' := h.serving.stops

/-- Whoever is no longer active has got an order, and nobody else. -/
theorem left (h : Commences e r e' s orders served) (hl : Laid e) :
    n ∈ orders.map (·.node) ↔ e.IsActive n ∧ ¬e'.IsActive n := by
  have hdw := h.stops.dwindles hl
  constructor
  · intro hn
    obtain ⟨o, ho, rfl⟩ := List.mem_map.mp hn
    obtain ⟨j, id, ha, ht⟩ := (h.given o).mp ho
    refine ⟨⟨j, id, ha⟩, fun ⟨j', id', ha'⟩ => ?_⟩
    obtain ⟨rfl, rfl⟩ := hl.activeKey?_inj (hdw.active j' id' _ ha') ha
    rw [(h.emptied j' id' _ ht).1] at ha'
    cases ha'
  · rintro ⟨⟨j, id, ha⟩, hgone⟩
    by_contra hn
    refine hgone ⟨j, id, (h.spares.active j id fun removed ht => hn ?_).trans ha⟩
    exact List.mem_map.mpr ⟨⟨n, removed⟩, (h.given _).mpr ⟨j, id, ha, ht⟩, rfl⟩

theorem housed (h : Commences e r e' s orders served) (hl : Laid e) (hh : Housed e) : Housed e' := by
  intro k u i hi
  have hnot (removed : Bool) : ¬r.Takes e k u removed := by
    intro ht
    rw [(h.emptied k u removed ht).2] at hi
    cases hi
  rw [h.spares.active k u hnot]
  exact hh k u i ((h.stops.dwindles hl).inst k u i hi)

end Commences

end Flowgraph.Engine
