import Mathlib.Data.List.Sort
import Flowgraph.Proofs.Clearance
import Flowgraph.Proofs.Outset
/-! The order in which the nodes of a stop are asked to close: ordinary nodes before config nodes, and each group as its
nodes have been made. What is asked is written down when it is asked, in a stop that is otherwise the same. -/
namespace Flowgraph
namespace Engine

/-! ## The order of the nodes of a level -/

/-- Config nodes close late. -/
def closesLate (e : Engine) (n : NodeKey) : Bool := ((e.node? n).map (·.record.isConfigNode)).getD false

theorem closesBefore_iff {e : Engine} {a c : NodeKey} : e.closesBefore a c = true ↔
    (e.closesLate a = false ∧ e.closesLate c = true) ∨ (e.closesLate a = e.closesLate c ∧ a ≤ c) := by
  unfold closesBefore closesLate
  dsimp only
  generalize ((e.node? a).map (·.record.isConfigNode)).getD false = late
  generalize ((e.node? c).map (·.record.isConfigNode)).getD false = late'
  cases late <;> cases late' <;> simp

theorem closesBefore_trans (e : Engine) (a b c : NodeKey) (h : e.closesBefore a b = true)
    (h' : e.closesBefore b c = true) : e.closesBefore a c = true := by
  rw [closesBefore_iff] at h h' ⊢
  grind

theorem closesBefore_total (e : Engine) (a b : NodeKey) : (e.closesBefore a b || e.closesBefore b a) = true := by
  rw [Bool.or_eq_true, closesBefore_iff, closesBefore_iff]
  cases e.closesLate a <;> cases e.closesLate b <;> simp [Nat.le_total]

theorem closesBefore_antisymm {e : Engine} {a b : NodeKey} (h : e.closesBefore a b = true)
    (h' : e.closesBefore b a = true) : a = b := by
  rw [closesBefore_iff] at h h'
  grind

theorem pairwise_stopTargets (e : Engine) (l : Level) (filter : Option (List NodeId)) :
    (e.stopTargets l filter).Pairwise fun a c => e.closesBefore a c = true :=
  List.pairwise_mergeSort e.closesBefore_trans e.closesBefore_total _

theorem closesLate_of_node? {e : Engine} {n : NodeKey} {node : Node} (hn : e.node? n = some node) :
    e.closesLate n = node.record.isConfigNode := by
  rw [closesLate, hn]
  rfl

/-- The nodes that a stop takes out of its level, sorted by insertion. -/
def closingOrder (e : Engine) (l : Level) (filter : Option (List NodeId)) : List NodeKey :=
  (match filter with
    | none => l.active.values
    | some ids => ids.eraseDups.filterMap l.active.get?).insertionSort fun a b => e.closesBefore a b = true

theorem stopTargets_eq (e : Engine) (l : Level) (filter : Option (List NodeId)) :
    e.stopTargets l filter = e.closingOrder l filter := by
  have : Std.Total fun a b => e.closesBefore a b = true := ⟨fun a b => by simpa using e.closesBefore_total a b⟩
  have : IsTrans NodeKey fun a b => e.closesBefore a b = true := ⟨e.closesBefore_trans⟩
  refine ((List.mergeSort_perm _ _).trans (List.perm_insertionSort _ _).symm).eq_of_pairwise
    (fun _ _ _ _ => closesBefore_antisymm) (pairwise_stopTargets e l filter) (List.pairwise_insertionSort _ _)

/-! ## Stops that write down whom they ask -/

/-- An engine with the orders to close that have been carried out, the first one first. -/
structure Logged where
  engine : Engine
  log : List Order

namespace Logged

variable {α : Type} {call : CallKey} {s : Logged} {level k : LevelKey} {n : NodeKey} {r : StopRequest}
  {stopInner : Logged → StopRequest → Logged × Stopping} {stopPlain : Engine → StopRequest → Engine × Stopping}

def askToClose (s : Logged) (call : CallKey) (n : NodeKey) (removed : Bool) (report : StopReport) : Logged × Closing :=
  let (e, closing) := s.engine.askToClose call n removed report
  (⟨e, s.log ++ [⟨n, removed⟩]⟩, closing)

def beginClosing (stopInner : Logged → StopRequest → Logged × Stopping) (call : CallKey) (s : Logged) (level : LevelKey)
    (n : NodeKey) (removed : Bool) : Logged × Closing :=
  match s.engine.node? n with
  | none => (s, .done .empty)
  | some node =>
    match s.engine.instance? level node.id with
    | none => s.askToClose call n removed .empty
    | some inst =>
      let e := s.engine.modifyLevel level fun l => { l with instances := l.instances.erase node.id }
      match stopInner ⟨e, s.log⟩ ⟨inst, none, if removed then .all else .none⟩ with
      | (s, .finished report) => s.askToClose call n removed report
      | (s, stop) => (s, .inner n removed stop)

def beginAll (stopInner : Logged → StopRequest → Logged × Stopping) (call : CallKey) (request : StopRequest)
    (s : Logged × List Closing) (targets : List NodeKey) : Logged × List Closing :=
  targets.foldl (fun (s, closings) n =>
    let removed := request.removal.holds (((s.engine.node? n).map (·.id)).getD "")
    let (s, closing) := s.beginClosing stopInner call request.level n removed
    (s, closings ++ [closing])) s

def beginStop (call : CallKey) : (fuel : Nat) → Logged → StopRequest → Logged × Stopping
  | 0, s, _ => (s, .finished .empty)
  | fuel + 1, s, request =>
    match s.engine.level? request.level with
    | none => (s, .finished .empty)
    | some l =>
      let targets := s.engine.closingOrder l request.filter
      let e := if request.filter.isNone then s.engine.modifyLevel request.level fun l => { l with phase := .stopping }
        else s.engine
      let (s, closings) := beginAll (beginStop call fuel) call request (⟨e.withdraw request.level targets, s.log⟩, []) targets
      let (e, stop) := s.engine.finishStop request.level request.filter.isNone l.phase false closings
      (⟨e, s.log⟩, stop)

/-! ## They are the same stops -/

/-- What comes of it, apart from what has been written down. -/
def forget (s : Logged × α) : Engine × α := (s.1.engine, s.2)

theorem forget_beginClosing (h : ∀ s r, forget (stopInner s r) = stopPlain s.engine r) (call : CallKey) (s : Logged)
    (level : LevelKey) (n : NodeKey) (removed : Bool) :
    forget (s.beginClosing stopInner call level n removed) =
      Engine.beginClosing stopPlain call s.engine level n removed := by
  unfold beginClosing Engine.beginClosing
  cases s.engine.node? n with
  | none => rfl
  | some node =>
    dsimp only
    cases s.engine.instance? level node.id with
    | none => rfl
    | some inst =>
      dsimp only
      have hin : forget (stopInner ⟨s.engine.modifyLevel level fun l => { l with
          instances := l.instances.erase node.id }, s.log⟩ ⟨inst, none, if removed then .all else .none⟩) =
        stopPlain (s.engine.modifyLevel level fun l => { l with instances := l.instances.erase node.id })
          ⟨inst, none, if removed then .all else .none⟩ := h _ _
      rw [← hin]
      generalize stopInner ⟨s.engine.modifyLevel level fun l => { l with
        instances := l.instances.erase node.id }, s.log⟩ ⟨inst, none, if removed then .all else .none⟩ = result
      obtain ⟨s', stop⟩ := result
      cases stop <;> rfl

theorem forget_beginAll (h : ∀ s r, forget (stopInner s r) = stopPlain s.engine r) (call : CallKey)
    (request : StopRequest) (s : Logged × List Closing) (targets : List NodeKey) :
    forget (beginAll stopInner call request s targets) = Engine.beginAll stopPlain call request (forget s) targets := by
  induction targets generalizing s with
  | nil => rfl
  | cons n ns ih =>
    refine (ih _).trans ?_
    have hone := forget_beginClosing h call s.1 request.level n
      (request.removal.holds (((s.1.engine.node? n).map (·.id)).getD ""))
    change Engine.beginAll stopPlain call request ((forget (s.1.beginClosing stopInner call request.level n _)).1,
      s.2 ++ [(forget (s.1.beginClosing stopInner call request.level n _)).2]) ns = _
    rw [hone]
    rfl

/-- A stop that writes down whom it asks is the same stop. -/
theorem forget_beginStop (call : CallKey) (fuel : Nat) (s : Logged) (request : StopRequest) :
    forget (s.beginStop call fuel request) = Engine.beginStop call fuel s.engine request := by
  induction fuel generalizing s request with
  | zero => rfl
  | succ fuel ih =>
    cases hl : s.engine.level? request.level with
    | none =>
      unfold beginStop Engine.beginStop
      rw [hl]
      rfl
    | some l =>
      have hall : _ = Engine.beginAll (Engine.beginStop call fuel) call request (s.engine.vacated l request, [])
          (s.engine.stopTargets l request.filter) :=
        forget_beginAll ih call request (⟨s.engine.vacated l request, s.log⟩, []) (s.engine.stopTargets l request.filter)
      rw [beginStop_eq call fuel hl, ← hall]
      unfold beginStop
      rw [hl]
      dsimp only
      rw [← stopTargets_eq]
      rfl

/-! ## Whom a stop asks -/

/-- The order goes to this node of a level, or into its instance. -/
def Belongs (e : Engine) (level : LevelKey) (n : NodeKey) (o : Order) : Prop := o.node = n ∨ e.NestedIn level n o

theorem Belongs.before {e e' : Engine} {o : Order} (h : Belongs e' level n o) (hs : Stops e e') (hl : Laid e) :
    Belongs e level n o := h.imp_right (·.before hs hl)

/-- What the closes of some nodes of a level ask when they begin: only these nodes and what is in their instances, and
surely those that have no instance. -/
structure Adds (e : Engine) (level : LevelKey) (targets : List NodeKey) (asked : List Order) : Prop where
  belongs : ∀ o ∈ asked, ∃ n ∈ targets, Belongs e level n o
  own : ∀ n ∈ targets, ∀ node, e.node? n = some node → e.instance? level node.id = none → n ∈ asked.map (·.node)

namespace Adds

variable {e e' : Engine} {ns ms : List NodeKey} {asked asked' : List Order}

theorem nil (e : Engine) (level : LevelKey) : Adds e level [] [] := ⟨by simp, by simp⟩

theorem append (h : Adds e level ns asked) (h' : Adds e level ms asked') :
    Adds e level (ns ++ ms) (asked ++ asked') := by
  refine ⟨fun o ho => ?_, fun n hn node hnode hi => ?_⟩
  · rcases List.mem_append.mp ho with ho | ho
    · obtain ⟨n, hn, hb⟩ := h.belongs o ho
      exact ⟨n, List.mem_append_left _ hn, hb⟩
    · obtain ⟨n, hn, hb⟩ := h'.belongs o ho
      exact ⟨n, List.mem_append_right _ hn, hb⟩
  · rw [List.map_append, List.mem_append]
    exact (List.mem_append.mp hn).imp (h.own n · node hnode hi) (h'.own n · node hnode hi)

theorem before (h : Adds e' level ns asked) (hs : Stops e e') (hl : Laid e) : Adds e level ns asked := by
  refine ⟨fun o ho => ?_, fun n hn node hnode hi => ?_⟩
  · obtain ⟨n, hn, hb⟩ := h.belongs o ho
    exact ⟨n, hn, hb.before hs hl⟩
  · have hrec := StopsWithin.record hs n
    rw [hnode] at hrec
    obtain ⟨node', hnode', hr⟩ := Option.map_eq_some_iff.mp hrec
    have hid : node'.id = node.id := congrArg Record.id hr
    exact h.own n hn node' hnode' (hid ▸ (hs.dwindles hl).instance?_of_none hi)

end Adds

/-- The stop of an instance asks nobody but those inside. -/
def AsksWithin (stopInner : Logged → StopRequest → Logged × Stopping) : Prop :=
  ∀ s inst removal, Laid s.engine → ∃ asked, (stopInner s ⟨inst, none, removal⟩).1.log = s.log ++ asked ∧
    ∀ o ∈ asked, ∃ j id, s.engine.activeKey? j id = some o.node ∧ s.engine.Inside inst j

theorem adds_beginClosing (hin : AsksWithin stopInner) (hl : Laid s.engine) (call : CallKey) (level : LevelKey)
    (n : NodeKey) (removed : Bool) : ∃ asked, (s.beginClosing stopInner call level n removed).1.log = s.log ++ asked ∧
      Adds s.engine level [n] asked := by
  unfold beginClosing
  cases hn : s.engine.node? n with
  | none => exact ⟨[], (List.append_nil _).symm, by simp, by simp [hn]⟩
  | some node =>
    dsimp only
    cases hi : s.engine.instance? level node.id with
    | none => exact ⟨[⟨n, removed⟩], rfl, by simp [Belongs], by simp⟩
    | some inst =>
      dsimp only
      have hforget : Stops s.engine (s.engine.modifyLevel level fun l => { l with
          instances := l.instances.erase node.id }) := StopsWithin.single (.forget level node.id trivial)
      have hdw := hforget.dwindles hl
      have hinner : ∃ asked, (stopInner ⟨s.engine.modifyLevel level fun l => { l with
          instances := l.instances.erase node.id }, s.log⟩ ⟨inst, none, if removed then .all else .none⟩).1.log =
          s.log ++ asked ∧ _ := hin _ inst (if removed then .all else .none) (hforget.laid hl)
      obtain ⟨asked, hlog, hwithin⟩ := hinner
      have hnested : ∀ o ∈ asked, ∃ m ∈ [n], Belongs s.engine level m o := fun o ho => by
        obtain ⟨j, id, ha, hins⟩ := hwithin o ho
        exact ⟨n, List.mem_singleton_self n, .inr ⟨node, inst, j, id, hn, hi, hdw.active j id _ ha, hdw.inside hins⟩⟩
      generalize stopInner ⟨s.engine.modifyLevel level fun l => { l with
        instances := l.instances.erase node.id }, s.log⟩ ⟨inst, none, if removed then .all else .none⟩ = result at hlog ⊢
      obtain ⟨s', stop⟩ := result
      cases stop with
      | finished report =>
        -- nothing is left inside to be waited for, and the usage node is asked itself
        refine ⟨asked ++ [⟨n, removed⟩], ?_, fun o ho => ?_, by simp⟩
        · change s'.log ++ _ = _
          rw [hlog, List.append_assoc]
        · rcases List.mem_append.mp ho with ho | ho
          · exact hnested o ho
          · exact ⟨n, List.mem_singleton_self n, .inl (by rw [List.mem_singleton.mp ho])⟩
      | running => exact ⟨asked, hlog, hnested, by simp [hn, hi]⟩

/-- The closes that have a part in a stop are themselves stops. -/
def StopsOnly (stopInner : Logged → StopRequest → Logged × Stopping) (call : CallKey) : Prop :=
  ∀ s level n removed, Stops s.engine (beginClosing stopInner call s level n removed).1.engine

theorem adds_beginAll (hin : AsksWithin stopInner) (hst : StopsOnly stopInner call) (r : StopRequest)
    (targets : List NodeKey) (s : Logged × List Closing) (hl : Laid s.1.engine) :
    Stops s.1.engine (beginAll stopInner call r s targets).1.engine ∧
    ∃ asked, (beginAll stopInner call r s targets).1.log = s.1.log ++ asked ∧
      Adds s.1.engine r.level targets asked := by
  induction targets generalizing s with
  | nil => exact ⟨StopsWithin.refl _, [], (List.append_nil _).symm, .nil _ _⟩
  | cons n ns ih =>
    have hone := hst s.1 r.level n (r.removal.holds (((s.1.engine.node? n).map (·.id)).getD ""))
    obtain ⟨asked, hlog, hadds⟩ := adds_beginClosing hin hl call r.level n
      (r.removal.holds (((s.1.engine.node? n).map (·.id)).getD ""))
    obtain ⟨hrest, asked', hlog', hadds'⟩ := ih (_, s.2 ++ [(s.1.beginClosing stopInner call r.level n _).2])
      (hone.laid hl)
    refine ⟨hone.trans hrest, asked ++ asked', hlog'.trans ?_, hadds.append (hadds'.before hone hl)⟩
    rw [← List.append_assoc]
    exact congrArg (· ++ asked') hlog

theorem stops_beginStop (call : CallKey) (fuel : Nat) (s : Logged) (r : StopRequest) :
    Stops s.engine (s.beginStop call fuel r).1.engine := by
  have hs := Engine.stops_beginStop call fuel s.engine r
  rwa [← forget_beginStop] at hs

theorem stopsOnly_beginStop (call : CallKey) (fuel : Nat) : StopsOnly (beginStop call fuel) call := by
  intro s level n removed
  have hs : Stops s.engine (Engine.beginClosing (Engine.beginStop call fuel) call s.engine level n removed).1 :=
    stops_beginClosing (fun e inst removal _ _ => Engine.stops_beginStop call fuel e _) call
      (fun _ _ _ _ _ _ _ _ => trivial) (fun _ _ => trivial) removed
  rwa [← forget_beginClosing (forget_beginStop call fuel)] at hs

theorem log_beginStop (call : CallKey) (fuel : Nat) {l : Level} (hlevel : s.engine.level? r.level = some l) :
    (s.beginStop call (fuel + 1) r).1.log = (beginAll (beginStop call fuel) call r (⟨s.engine.vacated l r, s.log⟩, [])
      (s.engine.stopTargets l r.filter)).1.log := by
  rw [beginStop, hlevel]
  dsimp only
  rw [← stopTargets_eq]
  rfl

theorem asksWithin_beginStop (call : CallKey) (fuel : Nat) : AsksWithin (beginStop call fuel) := by
  induction fuel with
  | zero => exact fun s inst removal _ => ⟨[], (List.append_nil _).symm, by simp⟩
  | succ fuel ih =>
    intro s inst removal hl
    cases hlevel : s.engine.level? inst with
    | none =>
      refine ⟨[], ?_, by simp⟩
      rw [beginStop, hlevel]
      exact (List.append_nil _).symm
    | some l =>
      have hv : Stops s.engine (s.engine.vacated l ⟨inst, none, removal⟩) :=
        stops_vacated hlevel fun _ _ _ _ _ _ => trivial
      obtain ⟨-, asked, hlog, hadds⟩ := adds_beginAll ih (stopsOnly_beginStop call fuel) ⟨inst, none, removal⟩
        (s.engine.stopTargets l none) (⟨s.engine.vacated l ⟨inst, none, removal⟩, s.log⟩, []) (hv.laid hl)
      refine ⟨asked, (log_beginStop (r := ⟨inst, none, removal⟩) call fuel hlevel).trans hlog, fun o ho => ?_⟩
      obtain ⟨n, hn, hb⟩ := (hadds.before hv hl).belongs o ho
      obtain ⟨id, hact, -⟩ := (mem_stopTargets (r := ⟨inst, none, removal⟩) hl hlevel).mp hn
      rcases hb with rfl | ⟨node, inner, j, id', -, hi, ha, hins⟩
      · exact ⟨inst, id, hact, .here⟩
      · exact ⟨j, id', ha, .of_instance hi hins⟩

/-! ## In which order -/

variable {e : Engine} {u u' : NodeId} {a c : NodeKey} {o : Order}

/-- No order belongs to two nodes of a level. -/
theorem Belongs.unique (hl : Laid e) (ha : e.activeKey? level u = some a) (hc : e.activeKey? level u' = some c)
    (h : Belongs e level a o) (h' : Belongs e level c o) : a = c := by
  -- a node of the level is not inside an instance of that level
  have hapart {u : NodeId} {n n' : NodeKey} (hn : e.activeKey? level u = some n) : ¬e.NestedIn level n' ⟨n, o.removed⟩ := by
    rintro ⟨node, inst, j, id, -, hi, hj, hin⟩
    obtain ⟨rfl, -⟩ := hl.activeKey?_inj hn hj
    exact hl.not_inside hi hin
  rcases h with rfl | h
  · exact h'.resolve_right (hapart ha)
  rcases h' with rfl | h'
  · exact absurd h (hapart hc)
  obtain ⟨node, inst, j, id, hnode, hi, hj, hin⟩ := h
  obtain ⟨node', inst', j', id', hnode', hi', hj', hin'⟩ := h'
  obtain ⟨rfl, -⟩ := hl.activeKey?_inj hj hj'
  have hid : node.id = node'.id := hl.inside_unique hi hi' hin hin'
  have hown {u : NodeId} {n : NodeKey} {node : Node} (hn : e.activeKey? level u = some n) (hnode : e.node? n = some node) :
      u = node.id := by
    obtain ⟨l, hlevel, hget⟩ := Option.bind_eq_some_iff.mp hn
    obtain ⟨node', hnode', -, rfl⟩ := (hl _ l hlevel).active u n hget
    rw [hnode'] at hnode
    cases hnode
    rfl
  rw [hown ha hnode, hid, ← hown hc hnode'] at ha
  exact Option.some.inj (ha.symm.trans hc)

variable {key : CallKey} {s : Logged} {level k : LevelKey} {r : StopRequest} {e m : Engine} {a c : NodeKey}
  {agenda : List Action} {stages : List Stage}

/-- In a log of orders all that belongs to one node comes before all that belongs to another. -/
structure GoesFirst (e : Engine) (level : LevelKey) (a c : NodeKey) (before after : List Order) : Prop where
  notYet : ∀ o ∈ before, ¬Belongs e level c o
  noMore : ∀ o ∈ after, ¬Belongs e level a o
  /-- Without an instance the first node itself is asked at once. -/
  own : ∀ node, e.node? a = some node → e.instance? level node.id = none → a ∈ before.map (·.node)

/-- The orders of a stop can be cut in two between a node and one that goes after it. -/
theorem goesFirst_beginStop (hl : Laid s.engine) (call : CallKey) (fuel : Nat) {l : Level}
    (hlevel : s.engine.level? r.level = some l) (ha : a ∈ s.engine.stopTargets l r.filter)
    (hc : c ∈ s.engine.stopTargets l r.filter) (hlate : ¬s.engine.closesBefore c a = true) : ∃ before after,
      (s.beginStop call (fuel + 1) r).1.log = s.log ++ before ++ after ∧ GoesFirst s.engine r.level a c before after := by
  obtain ⟨sooner, later, hsplit⟩ := List.append_of_mem ha
  have hnodup := hsplit ▸ nodup_stopTargets (hl _ l hlevel) r.filter
  have hsorted := hsplit ▸ pairwise_stopTargets s.engine l r.filter
  have hrefl : s.engine.closesBefore a a = true := closesBefore_iff.mpr (.inr ⟨rfl, Nat.le_refl a⟩)
  have hlater : c ∈ later := by
    rw [hsplit, List.mem_append, List.mem_cons] at hc
    rcases hc with hc | rfl | hc
    · exact absurd ((List.pairwise_append.mp hsorted).2.2 c hc a List.mem_cons_self) hlate
    · exact absurd hrefl hlate
    · exact hc
  have hactive {n : NodeKey} (hn : n ∈ sooner ++ a :: later) : ∃ id, s.engine.activeKey? r.level id = some n := by
    obtain ⟨id, hact, -⟩ := (mem_stopTargets hl hlevel).mp (hsplit ▸ hn)
    exact ⟨id, hact⟩
  have hv : Stops s.engine (s.engine.vacated l r) := stops_vacated hlevel fun _ _ _ _ _ _ => trivial
  obtain ⟨hs, before, hbefore, hadds⟩ := adds_beginAll (asksWithin_beginStop call fuel) (stopsOnly_beginStop call fuel) r
    (sooner ++ [a]) (⟨s.engine.vacated l r, s.log⟩, []) (hv.laid hl)
  obtain ⟨-, after, hafter, hadds'⟩ := adds_beginAll (asksWithin_beginStop call fuel) (stopsOnly_beginStop call fuel) r
    later (beginAll (beginStop call fuel) call r (⟨s.engine.vacated l r, s.log⟩, []) (sooner ++ [a]))
    ((hv.trans hs).laid hl)
  have hfirst := hadds.before hv hl
  have hrest := hadds'.before (hv.trans hs) hl
  rw [List.append_cons] at hsplit hnodup hactive
  obtain ⟨-, -, hdisj⟩ := List.nodup_append.mp hnodup
  refine ⟨before, after, ?_, fun o ho hb => ?_, fun o ho hb => ?_, fun node hn hi =>
    hfirst.own a (List.mem_append_right _ (List.mem_singleton_self a)) node hn hi⟩
  · rw [log_beginStop call fuel hlevel, hsplit]
    unfold beginAll at hafter hbefore ⊢
    rw [List.foldl_append, hafter, hbefore]
  · obtain ⟨n, hn, hb'⟩ := hfirst.belongs o ho
    obtain ⟨idn, hactn⟩ := hactive (List.mem_append_left _ hn)
    obtain ⟨idc, hactc⟩ := hactive (List.mem_append_right _ hlater)
    exact hdisj n hn c hlater (hb'.unique hl hactn hactc hb)
  · obtain ⟨n, hn, hb'⟩ := hrest.belongs o ho
    obtain ⟨idn, hactn⟩ := hactive (List.mem_append_right _ hn)
    have hma : a ∈ sooner ++ [a] := List.mem_append_right _ (List.mem_singleton_self a)
    obtain ⟨ida, hacta⟩ := hactive (List.mem_append_left _ hma)
    exact hdisj a hma n hn (hb.unique hl hacta hactn hb')

/-- Users are asked to close before the config nodes that they use. In every stop of a whole flow, that of an instance
inside another stop included, an ordinary node and all that is in its instance come before every config node of the flow,
whether it is named or not; an ordinary node without an instance is surely asked when the stop begins. Nodes of one class
come in the order in which they have been made, so among config nodes the one that is used comes first. -/
theorem users_asked_first (hr : Reachable e) (hs : Stops (e.taken key agenda stages) m) {u u' : NodeId} {na nc : Node}
    (ha : m.activeKey? k u = some a) (hc : m.activeKey? k u' = some c) (hna : m.node? a = some na)
    (hnc : m.node? c = some nc) (horder : (na.record.isConfigNode = false ∧ nc.record.isConfigNode = true) ∨
      (na.record.isConfigNode = nc.record.isConfigNode ∧ a < c)) (call : CallKey) (fuel : Nat) (removal : Removal) :
    forget (beginStop call (fuel + 1) ⟨m, []⟩ ⟨k, none, removal⟩) = Engine.beginStop call (fuel + 1) m ⟨k, none, removal⟩ ∧
    ∃ before after, (beginStop call (fuel + 1) ⟨m, []⟩ ⟨k, none, removal⟩).1.log = before ++ after ∧
      GoesFirst m k a c before after := by
  refine ⟨forget_beginStop call (fuel + 1) ⟨m, []⟩ _, ?_⟩
  have hl : Laid m := hs.laid (hr.layout.laid.taken key agenda stages)
  obtain ⟨l, hlevel, -⟩ := Option.bind_eq_some_iff.mp ha
  have htarget {u : NodeId} {n : NodeKey} (hn : m.activeKey? k u = some n) : n ∈ m.stopTargets l none :=
    (mem_stopTargets (r := ⟨k, none, removal⟩) hl hlevel).mpr ⟨u, hn, fun _ h => by cases h⟩
  have hlate : ¬m.closesBefore c a = true := by
    rw [closesBefore_iff, closesLate_of_node? hna, closesLate_of_node? hnc]
    rcases horder with ⟨ha, hc⟩ | ⟨heq, hlt⟩
    · simp [ha, hc]
    · simp [heq, hlt]
  obtain ⟨before, after, hlog, hfirst⟩ := goesFirst_beginStop (s := ⟨m, []⟩) (r := ⟨k, none, removal⟩) hl call fuel hlevel
    (htarget ha) (htarget hc) hlate
  exact ⟨before, after, hlog, hfirst⟩

end Logged
end Engine

namespace Session
open Engine

/-- A node names a config node, which names another one. -/
def chainRecords : List Json := [
  .obj [("id", .str "t"), ("type", .str "tab")],
  .obj [("id", .str "d"), ("type", .str "testConfig"), ("z", .str "t")],
  .obj [("id", .str "c"), ("server", .str "d"), ("type", .str "testConfig"), ("z", .str "t")],
  .obj [("id", .str "a"), ("server", .str "c"), ("type", .str "test"), ("wires", .arr []), ("z", .str "t")]]

/-- A usage node names a config node, and the node in its instance takes its time to close. -/
def lingeringRecords : List Json := [
  .obj [("id", .str "t"), ("type", .str "tab")],
  .obj [("id", .str "s"), ("type", .str "subflow")],
  .obj [("closeDelay", .int 50), ("id", .str "n"), ("type", .str "testAsync"), ("wires", .arr []), ("z", .str "s")],
  .obj [("id", .str "c"), ("type", .str "testConfig"), ("z", .str "t")],
  .obj [("id", .str "u"), ("server", .str "c"), ("type", .str "subflow:s"), ("wires", .arr []), ("z", .str "t")]]

def startedTab (records : List Json) : Session :=
  (start ⟨((Engine.make .instrumented .standalone [] [] 500).addLevel (.make .tab none (firstTab records))).1,
    some 0, .empty, []⟩ 0 none).2

theorem reachable_startedTab {records : List Json} (h : (Deployment.parse records).isOk = true) :
    Reachable (startedTab records).engine := by
  have hmade : Reachable ((Engine.make .instrumented .standalone [] [] 500).addLevel
      (.make .tab none (firstTab records))).1 :=
    (Reachable.make _ _ _ _ _).input rfl (.flow (.inl rfl) (parsed_firstTab h))
  exact reachable_start hmade rfl

/-- The turn in which a stop of the whole tab comes. -/
def leavingTurn (records : List Json) : Engine :=
  turnOf ((startedTab records).engine.begin [.stop [⟨0, none, .none⟩]]).1 (startedTab records).engine.nextCall

/-- The tab runs, and the call that stops it is about to have its turn. -/
def AboutToLeave (records : List Json) : Prop :=
  (startedTab records).engine.agenda = [] ∧
    ((startedTab records).engine.begin [.stop [⟨0, none, .none⟩]]).1.broken = false ∧
    ((startedTab records).engine.begin [.stop [⟨0, none, .none⟩]]).1.agenda = [] ∧
    Waiter.call (startedTab records).engine.nextCall ∈ ((startedTab records).engine.begin [.stop [⟨0, none, .none⟩]]).1.ready

instance (records : List Json) : Decidable (AboutToLeave records) := inferInstanceAs (Decidable (_ ∧ _))

theorem reachable_leavingTurn {records : List Json} (h : (Deployment.parse records).isOk = true)
    (ht : AboutToLeave records) : Reachable (leavingTurn records) :=
  ((reachable_startedTab h).input ht.1 (.call (.stop _))).tick (tick_turn ht.2.1 ht.2.2.1 ht.2.2.2)

/-- The stop of the running tab begins, and writes down whom it asks. -/
def leaving (records : List Json) : Logged × Stopping :=
  Logged.beginStop (startedTab records).engine.nextCall ((leavingTurn records).levelCount + 1)
    ⟨(leavingTurn records).taken (startedTab records).engine.nextCall [] [], []⟩ ⟨0, none, .none⟩

/-- A node of the running tab names another one, which is a config node. -/
def Names (records : List Json) (user used : NodeKey) : Prop :=
  ((leavingTurn records).level? 0).map (·.phase) = some .started ∧
    ∃ na ∈ (leavingTurn records).node? user, ∃ nc ∈ (leavingTurn records).node? used,
      (leavingTurn records).activeKey? 0 na.id = some user ∧ (leavingTurn records).activeKey? 0 nc.id = some used ∧
      na.record.refersTo nc.id = true ∧ nc.record.isConfigNode = true

instance (records : List Json) (user used : NodeKey) : Decidable (Names records user used) :=
  inferInstanceAs (Decidable (_ ∧ ∃ na ∈ (leavingTurn records).node? user, ∃ nc ∈ (leavingTurn records).node? used, _))

theorem reachable_tabs : Reachable (leavingTurn chainRecords) ∧ Reachable (leavingTurn lingeringRecords) :=
  ⟨reachable_leavingTurn (by decide +kernel) (by decide +kernel),
    reachable_leavingTurn (by decide +kernel) (by decide +kernel)⟩

theorem chain_names : Names chainRecords 2 1 ∧ ∀ na ∈ (leavingTurn chainRecords).node? 2,
    na.record.isConfigNode = false ∧ (leavingTurn chainRecords).instance? 0 na.id = none := by
  decide +kernel

/-- The node that names a config node is asked, and before the config node is. -/
theorem chain_user_asked_first : ∃ before after, (leaving chainRecords).1.log = before ++ after ∧
    2 ∈ before.map (·.node) ∧ ∀ o ∈ before, o.node ≠ 1 := by
  obtain ⟨⟨-, na, hna, nc, hnc, ha, hc, -, hconfig⟩, hordinary⟩ := chain_names
  obtain ⟨hclass, halone⟩ := hordinary na hna
  rw [Option.mem_def] at hna hnc
  unfold leaving
  have hnode (e : Engine) (key : CallKey) (n : NodeKey) : (e.taken key [] []).node? n = e.node? n := rfl
  have hst := stands_taken (leavingTurn chainRecords) (startedTab chainRecords).engine.nextCall [] []
  obtain ⟨-, before, after, hlog, hfirst⟩ := Logged.users_asked_first reachable_tabs.1
    (Stops.refl ((leavingTurn chainRecords).taken (startedTab chainRecords).engine.nextCall [] []))
    ((hst.active 0 na.id).trans ha) ((hst.active 0 nc.id).trans hc) ((hnode _ _ 2).trans hna) ((hnode _ _ 1).trans hnc)
    (.inl ⟨hclass, hconfig⟩) (startedTab chainRecords).engine.nextCall (leavingTurn chainRecords).levelCount .none
  exact ⟨before, after, hlog, hfirst.own na ((hnode _ _ 2).trans hna) ((hst.inst 0 na.id).trans halone),
    fun o ho hn => hfirst.notYet o ho (.inl hn)⟩

/-- Config nodes do not wait for the config nodes that use them, which are made later, nor for a usage node with a node
in its instance that takes its time. -/
theorem used_config_asked_first :
    (Reachable (leavingTurn chainRecords) ∧ Names chainRecords 1 0 ∧
      (leaving chainRecords).1.log.map (·.node) = [2, 0, 1]) ∧
    Reachable (leavingTurn lingeringRecords) ∧ Names lingeringRecords 3 0 ∧
      (leaving lingeringRecords).1.log.map (·.node) = [1, 2, 0] ∧
      (leaving lingeringRecords).2.orders.map (·.node) = [3] := by
  refine ⟨⟨reachable_tabs.1, ?_⟩, reachable_tabs.2, ?_⟩ <;> decide +kernel

end Session
end Flowgraph
