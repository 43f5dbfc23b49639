import Mathlib.Data.List.Perm.Basic
import Flowgraph.Proofs.Growth
/-! What a stop still has to do and what it will have reported in the end. Going on with a stop serves some of its
orders and forgets none, and the ids that it will have reported stay the same. -/
namespace Flowgraph

/-- An order to a node to close. The node is told whether it is being deleted. -/
structure Order where
  node : NodeKey
  removed : Bool
  deriving DecidableEq, Repr

/-- What a node is, whatever it has been doing. -/
def Node.face (n : Node) : Record × LevelKey × Part := (n.record, n.level, n.part)

namespace StopReport

theorem stopped_append (a b : StopReport) : (a ++ b).stopped.Perm (a.stopped ++ b.stopped) := by
  have h : (a ++ b).stopped = a.closed ++ b.closed ++ (a.timedOut ++ b.timedOut) ++
      (a.failed.map (·.1) ++ b.failed.map (·.1)) := by
    change _ ++ _ ++ List.map _ (a.failed ++ b.failed) = _
    rw [List.map_append]
    rfl
  rw [h, List.perm_iff_count]
  intro id
  simp only [stopped, List.count_append]
  omega

theorem stopped_foldl (reports : List StopReport) (report : StopReport) :
    (reports.foldl (· ++ ·) report).stopped.Perm (report.stopped ++ reports.flatMap stopped) := by
  induction reports generalizing report with
  | nil => simp
  | cons r reports ih =>
    rw [List.foldl_cons, List.flatMap_cons, ← List.append_assoc]
    exact (ih (report ++ r)).trans ((stopped_append report r).append_right _)

end StopReport

mutual
/-- The orders that have not reached their nodes. -/
def Closing.orders : Closing → List Order
  | .inner node removed stop => stop.orders ++ [⟨node, removed⟩]
  | .asked .. | .done _ => []
termination_by structural c => c

def Stopping.orders : Stopping → List Order
  | .running _ _ _ _ closings => Stopping.ordersOf closings
  | .finished _ => []
termination_by structural s => s

def Stopping.ordersOf : List Closing → List Order
  | [] => []
  | c :: cs => c.orders ++ Stopping.ordersOf cs
termination_by structural cs => cs
end

mutual
/-- The ids that will have been reported in the end, given those of the nodes. -/
def Closing.docket (ids : NodeKey → List NodeId) : Closing → List NodeId
  | .inner node _ stop => stop.docket ids ++ ids node
  | .asked node _ _ report => report.stopped ++ ids node
  | .done report => report.stopped
termination_by structural c => c

def Stopping.docket (ids : NodeKey → List NodeId) : Stopping → List NodeId
  | .running _ _ _ _ closings => Stopping.docketOf ids closings
  | .finished report => report.stopped
termination_by structural s => s

def Stopping.docketOf (ids : NodeKey → List NodeId) : List Closing → List NodeId
  | [] => []
  | c :: cs => c.docket ids ++ Stopping.docketOf ids cs
termination_by structural cs => cs
end

namespace Stopping

theorem nodesOf_append (cs cs' : List Closing) : nodesOf (cs ++ cs') = nodesOf cs ++ nodesOf cs' := by
  induction cs with
  | nil => rfl
  | cons c cs ih => rw [List.cons_append, nodesOf, nodesOf, ih, List.append_assoc]

end Stopping

namespace Engine

variable {may : LevelKey → NodeId → Prop} {e e' e'' : Engine}

/-- The id under which a node is reported. -/
def idsOf (e : Engine) (n : NodeKey) : List NodeId := ((e.node? n).map (·.id)).toList

/-- The ids under which the nodes of orders are reported. -/
def idsOfOrders (e : Engine) (orders : List Order) : List NodeId := orders.flatMap fun o => e.idsOf o.node

/-- What a node notes when it is asked to close. -/
def closeNotes (e : Engine) (order : Order) : List Note :=
  match (e.node? order.node).map (·.part) with
  | some (Part.ordinary b) => (b.onClose order.removed).1
  | _ => []

/-! ## Nodes stay what they are -/

theorem face_of_still (h : e'.still = e.still) (n : NodeKey) :
    (e'.node? n).map Node.face = (e.node? n).map Node.face := by
  have hn := congrArg (Option.map Node.face) (node?_of_still h n)
  rw [Option.map_map, Option.map_map] at hn
  exact hn

/-- Stops neither make nodes nor make them into others. -/
theorem StopsWithin.face (h : StopsWithin may e e') (n : NodeKey) :
    (e'.node? n).map Node.face = (e.node? n).map Node.face := by
  refine h.invariant (P := fun s => (s.node? n).map Node.face = (e.node? n).map Node.face)
    (fun s s' hs ht => ?_) rfl
  cases ht with
  | still h _ => exact (face_of_still h n).trans hs
  | cancel m =>
    rw [node?_modifyNode]
    split
    · rw [Option.map_map]
      exact hs
    · exact hs
  | _ => exact hs

theorem idsOf_of_face {n : NodeKey} (h : (e'.node? n).map Node.face = (e.node? n).map Node.face) :
    e'.idsOf n = e.idsOf n := by
  have hid := congrArg (Option.map fun f : Record × LevelKey × Part => f.1.id) h
  rw [Option.map_map, Option.map_map] at hid
  exact congrArg Option.toList hid

theorem closeNotes_of_face {o : Order} (h : (e'.node? o.node).map Node.face = (e.node? o.node).map Node.face) :
    e'.closeNotes o = e.closeNotes o := by
  have hp := congrArg (Option.map fun f : Record × LevelKey × Part => f.2.2) h
  rw [Option.map_map, Option.map_map] at hp
  unfold closeNotes
  rw [show (e'.node? o.node).map (·.part) = (e.node? o.node).map (·.part) from hp]

theorem StopsWithin.idsOf (h : StopsWithin may e e') : e'.idsOf = e.idsOf :=
  funext fun n => idsOf_of_face (h.face n)

theorem StopsWithin.idsOfOrders (h : StopsWithin may e e') : e'.idsOfOrders = e.idsOfOrders := by
  unfold Engine.idsOfOrders
  rw [h.idsOf]

theorem StopsWithin.closeNotes (h : StopsWithin may e e') : e'.closeNotes = e.closeNotes :=
  funext fun o => closeNotes_of_face (h.face o.node)

theorem lt_size_iff (e : Engine) (n : NodeKey) : n < e.nodes.size ↔ (e.node? n).isSome = true := by
  simp [node?]

theorem size_of_face (h : ∀ n, (e'.node? n).map Node.face = (e.node? n).map Node.face) :
    e'.nodes.size = e.nodes.size := by
  have hlt (n : NodeKey) : n < e'.nodes.size ↔ n < e.nodes.size := by
    have := congrArg Option.isSome (h n)
    rw [Option.isSome_map, Option.isSome_map] at this
    rw [lt_size_iff, lt_size_iff, this]
  exact Nat.le_antisymm (Nat.le_of_not_lt fun hn => Nat.lt_irrefl _ ((hlt _).mp hn))
    (Nat.le_of_not_lt fun hn => Nat.lt_irrefl _ ((hlt _).mpr hn))

mutual
/-- A docket depends on the ids of nodes whose close is under way. -/
theorem docket_congr_closing {ids ids' : NodeKey → List NodeId} : (c : Closing) → (∀ n ∈ c.nodes, ids' n = ids n) →
    c.docket ids' = c.docket ids
  | .inner node _ stop, h => by
    have hs := docket_congr stop fun n hn => h n (List.mem_cons_of_mem _ hn)
    rw [Closing.docket, Closing.docket, hs, h node List.mem_cons_self]
  | .asked node .., h => by
    rw [Closing.docket, Closing.docket, h node List.mem_cons_self]
  | .done _, _ => rfl

theorem docket_congr {ids ids' : NodeKey → List NodeId} : (s : Stopping) → (∀ n ∈ s.nodes, ids' n = ids n) →
    s.docket ids' = s.docket ids
  | .running _ _ _ _ closings, h => docketOf_congr closings h
  | .finished _, _ => rfl

theorem docketOf_congr {ids ids' : NodeKey → List NodeId} : (cs : List Closing) →
    (∀ n ∈ Stopping.nodesOf cs, ids' n = ids n) → Stopping.docketOf ids' cs = Stopping.docketOf ids cs
  | [], _ => rfl
  | c :: cs, h => by
    have hc := docket_congr_closing c fun n hn => h n (List.mem_append_left _ hn)
    have hcs := docketOf_congr cs fun n hn => h n (List.mem_append_right _ hn)
    rw [Stopping.docketOf, Stopping.docketOf, hc, hcs]
end

/-! ## Serving -/

/-- A step of stops that have these orders to serve and these ids to report, and what of it is left. -/
structure Serving (e e' : Engine) (orders orders' : List Order) (ids ids' : List NodeId) (served : List Order) :
    Prop where
  stops : Stops e e'
  orders : (served ++ orders').Perm orders
  ids : ids'.Perm ids
  notes : e'.notes = e.notes ++ served.flatMap e.closeNotes

namespace Serving

variable {os os' ps ps' served served' : List Order} {is is' js js' : List NodeId}

/-- Nothing is served. -/
theorem idle (hs : Stops e e') (hn : e'.notes = e.notes) (hi : is'.Perm is) : Serving e e' os os is is' [] :=
  ⟨hs, .refl os, hi, by simp [hn]⟩

/-- The stop goes on after that. -/
theorem trans (h : Serving e e' os os' is is' served) (h' : Serving e' e'' os' ps is' js served') :
    Serving e e'' os ps is js (served ++ served') := by
  refine ⟨h.stops.trans h'.stops, ?_, h'.ids.trans h.ids, ?_⟩
  · rw [List.append_assoc]
    exact (h'.orders.append_left served).trans h.orders
  · rw [h'.notes, h.notes, List.flatMap_append, List.append_assoc, StopsWithin.closeNotes h.stops]

/-- Another stop goes on after that. -/
theorem append (h : Serving e e' os os' is is' served) (h' : Serving e' e'' ps ps' js js' served') :
    Serving e e'' (os ++ ps) (os' ++ ps') (is ++ js) (is' ++ js') (served ++ served') := by
  refine ⟨h.stops.trans h'.stops, ?_, h.ids.append h'.ids, ?_⟩
  · refine List.Perm.trans ?_ (h.orders.append h'.orders)
    rw [List.append_assoc, List.append_assoc]
    refine List.Perm.append_left served ?_
    rw [← List.append_assoc, ← List.append_assoc]
    exact List.perm_append_comm.append_right ps'
  · rw [h'.notes, h.notes, List.flatMap_append, List.append_assoc, StopsWithin.closeNotes h.stops]

/-- The order of stops side by side does not matter. -/
theorem swap (h : Serving e e' (os ++ ps) (os' ++ ps') (is ++ js) (is' ++ js') served) :
    Serving e e' (ps ++ os) (ps' ++ os') (js ++ is) (js' ++ is') served :=
  ⟨h.stops, (List.perm_append_comm.append_left served).trans (h.orders.trans List.perm_append_comm),
    List.perm_append_comm.trans (h.ids.trans List.perm_append_comm), h.notes⟩

/-- It does not matter in which order the orders are listed. -/
theorem regroup {m : Engine} (h : Serving e e' os os' (m.idsOfOrders os) is' served) (hp : ps.Perm os) :
    Serving e e' ps os' (m.idsOfOrders ps) is' served :=
  ⟨h.stops, h.orders.trans hp.symm, h.ids.trans (hp.symm.flatMap_right _), h.notes⟩

end Serving

/-! ## Closing one node -/

@[simp] theorem notes_wake (e : Engine) (w : Waiter) : (e.wake w).notes = e.notes := by
  unfold wake
  split <;> rfl

@[simp] theorem notes_publish (e : Engine) (event : Event) : (e.publish event).notes = e.notes := by
  unfold publish
  dsimp only
  split
  · exact notes_wake _ _
  · rfl

@[simp] theorem notes_startTask (e : Engine) (owner : NodeKey) (task : Task) :
    (e.startTask owner task).notes = e.notes := notes_wake _ _

@[simp] theorem notes_refresh (e : Engine) (k : LevelKey) : (e.refresh k).notes = e.notes := by
  unfold refresh
  split <;> rfl

/-- The close of a node that has been asked ends or goes on, with the id of the node in its report. -/
structure Answers (e : Engine) (k : NodeKey) (report : StopReport) (s : Engine × Closing) : Prop where
  notes : s.1.notes = e.notes
  orders : s.2.orders = []
  ids : (s.2.docket e.idsOf).Perm (report.stopped ++ e.idsOf k)

variable {k : NodeKey} {report : StopReport}

theorem answers_closeBySignal (e : Engine) (k : NodeKey) (removed : Bool) (report : StopReport)
    (result : CloseResult) : Answers e k report (e.closeBySignal k removed report result) := by
  unfold closeBySignal
  cases hn : e.node? k with
  | none => exact ⟨rfl, rfl, by simp [Closing.docket, idsOf, hn]⟩
  | some n =>
    have hid : e.idsOf k = [n.id] := by simp [idsOf, hn]
    cases result with
    | ok _ =>
      refine ⟨notes_publish _ _, rfl, ?_⟩
      rw [hid]
      exact StopReport.stopped_append report (.ofClosed n.id)
    | error fault =>
      refine ⟨rfl, rfl, ?_⟩
      rw [hid]
      exact StopReport.stopped_append report (.ofFailed n.id fault)

theorem answers_closeByDeadline (e : Engine) (k : NodeKey) (report : StopReport) :
    Answers e k report (e.closeByDeadline k report) := by
  unfold closeByDeadline
  cases hn : e.node? k with
  | none => exact ⟨rfl, rfl, by simp [Closing.docket, idsOf, hn]⟩
  | some n =>
    have hid : e.idsOf k = [n.id] := by simp [idsOf, hn]
    refine ⟨notes_publish _ _, rfl, ?_⟩
    rw [hid]
    exact StopReport.stopped_append report (.ofTimedOut n.id)

theorem answers_pollAsked (e : Engine) (k : NodeKey) (removed : Bool) (deadline : Nat) (report : StopReport) :
    Answers e k report (e.pollAsked k removed deadline report) := by
  have hwait : Answers e k report (e, .asked k removed deadline report) := ⟨rfl, rfl, .refl _⟩
  unfold pollAsked
  split
  · exact hwait
  · rename_i room _
    split
    · rename_i result _
      have h := answers_closeBySignal { e with room } k removed report result
      exact ⟨h.notes, h.orders, h.ids⟩
    · split
      · have h := answers_closeByDeadline { e with room } k report
        exact ⟨h.notes, h.orders, h.ids⟩
      · exact hwait

theorem answers_await (e : Engine) (call : CallKey) (k : NodeKey) (removed : Bool) (report : StopReport) :
    Answers e k report (e.await call k removed report) := by
  have h := answers_pollAsked { e with timers := e.timers ++ [⟨e.now + e.closeTimeout, .deadline call k⟩] } k
    removed (e.now + e.closeTimeout) report
  exact ⟨h.notes, h.orders, h.ids⟩

/-- A node that is asked to close notes it once, and is reported in the end. -/
theorem serving_askToClose (e : Engine) (call : CallKey) (k : NodeKey) (removed : Bool) (report : StopReport) :
    Serving e (e.askToClose call k removed report).1 [⟨k, removed⟩] (e.askToClose call k removed report).2.orders
      (report.stopped ++ e.idsOf k) ((e.askToClose call k removed report).2.docket e.idsOf) [⟨k, removed⟩] := by
  have hstops : Stops e (e.askToClose call k removed report).1 := (silent_askToClose e call k removed report).stops
  -- whatever the node answers, it has made its notes and its close is waited for
  have hend {m : Engine} {s : Engine × Closing} (hm : Silent (e.note (e.closeNotes ⟨k, removed⟩)) m)
      (hn : m.notes = e.notes ++ e.closeNotes ⟨k, removed⟩) (h : Answers m k report s) :
      s.1.notes = e.notes ++ e.closeNotes ⟨k, removed⟩ ∧ s.2.orders = [] ∧
        (s.2.docket e.idsOf).Perm (report.stopped ++ e.idsOf k) := by
    have hstops : Stops (e.note (e.closeNotes ⟨k, removed⟩)) m := hm.stops
    have hids : m.idsOf = (e.note (e.closeNotes ⟨k, removed⟩)).idsOf := StopsWithin.idsOf hstops
    have hids : m.idsOf = e.idsOf := hids
    exact ⟨h.notes.trans hn, h.orders, hids ▸ h.ids⟩
  have hall : (e.askToClose call k removed report).1.notes = e.notes ++ e.closeNotes ⟨k, removed⟩ ∧
      (e.askToClose call k removed report).2.orders = [] ∧
      ((e.askToClose call k removed report).2.docket e.idsOf).Perm (report.stopped ++ e.idsOf k) := by
    cases hn : e.node? k with
    | none => simp [askToClose, closeNotes, hn, Closing.docket, Closing.orders, idsOf]
    | some n =>
      have hsignal (result : CloseResult) : Silent (e.note (e.closeNotes ⟨k, removed⟩))
          ((e.note (e.closeNotes ⟨k, removed⟩)).noteSignal k result) := silent_noteSignal _ _ _
      have htask (task : Task) : Silent (e.note (e.closeNotes ⟨k, removed⟩))
          ((e.note (e.closeNotes ⟨k, removed⟩)).startTask k task) := silent_startTask _ _ _
      unfold askToClose
      rw [hn]
      dsimp only
      split
      · rename_i b hb
        have hnotes : (b.onClose removed).1 = e.closeNotes ⟨k, removed⟩ := by simp [closeNotes, hn, hb]
        rw [hnotes]
        split
        · exact hend (hsignal _) rfl (answers_await _ _ _ _ _)
        · exact hend (.refl _) rfl (answers_closeBySignal _ _ _ _ _)
        · exact hend (.refl _) rfl (answers_await _ _ _ _ _)
        · exact hend (htask _) (notes_startTask _ _ _) (answers_await _ _ _ _ _)
        · split
          · exact hend (htask _) (notes_startTask _ _ _) (answers_await _ _ _ _ _)
          · exact hend (hsignal _) rfl (answers_await _ _ _ _ _)
      · rename_i hb
        have hnone : e.closeNotes ⟨k, removed⟩ = [] := by
          unfold closeNotes
          rw [hn]
          cases hp : n.part with
          | ordinary b => exact absurd hp (hb b)
          | _ => simp [hp]
        rw [hnone, List.append_nil]
        have h := answers_await (e.noteSignal k (.ok ())) call k removed report
        have hsig : Stops e (e.noteSignal k (.ok ())) := (silent_noteSignal e k (.ok ())).stops
        have hids : (e.noteSignal k (.ok ())).idsOf = e.idsOf := StopsWithin.idsOf hsig
        exact ⟨h.notes, h.orders, hids ▸ h.ids⟩
  exact ⟨hstops, by simp [hall.2.1], hall.2.2, by simpa using hall.1⟩

/-- A usage node is asked when everything in its instance has been reported. -/
theorem Serving.ask {os : List Order} {is : List NodeId} {served : List Order} {report : StopReport}
    (h : Serving e e' os [] is report.stopped served) (call : CallKey) (k : NodeKey) (removed : Bool) :
    ∃ served', Serving e (e'.askToClose call k removed report).1 (os ++ [⟨k, removed⟩])
      (e'.askToClose call k removed report).2.orders (is ++ e.idsOf k)
      ((e'.askToClose call k removed report).2.docket e.idsOf) served' := by
  have ha := serving_askToClose e' call k removed report
  rw [StopsWithin.idsOf h.stops] at ha
  exact ⟨_, (h.append (.idle (.refl e') rfl (.refl _))).trans ha⟩

/-! ## Going on -/

theorem notes_finishStop (e : Engine) (k : LevelKey) (full : Bool) (previous : Phase) (backward : Bool)
    (closings : List Closing) : (e.finishStop k full previous backward closings).1.notes = e.notes := by
  unfold finishStop
  dsimp only
  split
  · rfl
  · split
    · exact (notes_publish _ _).trans (notes_refresh e k)
    · exact notes_refresh e k

/-- The reports of the closes that are done. -/
def doneReports (closings : List Closing) : List StopReport :=
  closings.filterMap fun
    | .done report => some report
    | _ => none

theorem docketOf_done {closings : List Closing} (h : ¬(doneReports closings).length < closings.length)
    (ids : NodeKey → List NodeId) : Stopping.ordersOf closings = [] ∧
      Stopping.docketOf ids closings = (doneReports closings).flatMap StopReport.stopped := by
  induction closings with
  | nil => exact ⟨rfl, rfl⟩
  | cons c cs ih =>
    have hle : (doneReports cs).length ≤ cs.length := List.length_filterMap_le _ _
    cases c with
    | done report =>
      have hl : doneReports (.done report :: cs) = report :: doneReports cs := rfl
      rw [hl, List.length_cons, List.length_cons] at h
      obtain ⟨ho, hd⟩ := ih (by omega)
      exact ⟨ho, by rw [hl, List.flatMap_cons, ← hd]; rfl⟩
    | _ =>
      have hl : (doneReports cs).length < cs.length + 1 := by omega
      exact absurd hl h

/-- At the end of a stop all orders have been served, and its report is the one that was to be expected. -/
theorem serving_finishStop (e : Engine) (k : LevelKey) (full : Bool) (previous : Phase) (backward : Bool)
    (closings : List Closing) (ids : NodeKey → List NodeId) :
    Serving e (e.finishStop k full previous backward closings).1 (Stopping.ordersOf closings)
      (e.finishStop k full previous backward closings).2.orders (Stopping.docketOf ids closings)
      ((e.finishStop k full previous backward closings).2.docket ids) [] := by
  have hstops : Stops e (e.finishStop k full previous backward closings).1 := stops_finishStop _ _ _ _ _ _
  have hnotes := notes_finishStop e k full previous backward closings
  have hend : (e.finishStop k full previous backward closings).2.orders = Stopping.ordersOf closings ∧
      ((e.finishStop k full previous backward closings).2.docket ids).Perm (Stopping.docketOf ids closings) := by
    by_cases hlt : (doneReports closings).length < closings.length
    · have he : (e.finishStop k full previous backward closings).2 = .running k full previous
          (e.room == 0 && closings.length > manyClosings && !backward) closings := by
        unfold finishStop
        exact congrArg Prod.snd (if_pos hlt)
      rw [he]
      exact ⟨rfl, .refl _⟩
    · have he : (e.finishStop k full previous backward closings).2 =
          .finished ((doneReports closings).foldl (· ++ ·) .empty) := by
        unfold finishStop
        refine (congrArg Prod.snd (if_neg hlt)).trans ?_
        dsimp only
        split <;> rfl
      obtain ⟨ho, hd⟩ := docketOf_done hlt ids
      rw [he, ho, hd]
      exact ⟨rfl, StopReport.stopped_foldl _ _⟩
  rw [hend.1]
  exact .idle hstops hnotes hend.2

mutual
theorem serving_pollClosing (call : CallKey) (e : Engine) : (c : Closing) → ∃ served,
    Serving e (pollClosing call e c).1 c.orders (pollClosing call e c).2.orders (c.docket e.idsOf)
      ((pollClosing call e c).2.docket e.idsOf) served
  | .done report => ⟨[], .idle (.refl e) rfl (.refl _)⟩
  | .asked k removed deadline report => by
    have h := answers_pollAsked e k removed deadline report
    refine ⟨[], ?_⟩
    unfold pollClosing
    rw [h.orders]
    exact .idle (silent_pollAsked e k removed deadline report).stops h.notes h.ids
  | .inner k removed inner => by
    obtain ⟨served, hi⟩ := serving_pollStop call e inner
    unfold pollClosing
    split
    · rename_i hr
      rw [hr] at hi
      exact hi.ask call k removed
    · rename_i m s _ hr
      rw [hr] at hi
      exact ⟨_, hi.append (.idle (.refl m) rfl (.refl _))⟩

/-- Going on with a stop serves some of its orders and forgets none. -/
theorem serving_pollStop (call : CallKey) (e : Engine) : (s : Stopping) → ∃ served,
    Serving e (pollStop call e s).1 s.orders (pollStop call e s).2.orders (s.docket e.idsOf)
      ((pollStop call e s).2.docket e.idsOf) served
  | .finished report => ⟨[], .idle (.refl e) rfl (.refl _)⟩
  | .running k full previous backward closings => by
    obtain ⟨servedF, hf⟩ := serving_pollClosings call e closings
    obtain ⟨servedB, hb⟩ := serving_pollBackward call e closings
    unfold pollStop
    cases backward with
    | true => exact ⟨_, hb.trans (serving_finishStop _ _ _ _ _ _ _)⟩
    | false => exact ⟨_, hf.trans (serving_finishStop _ _ _ _ _ _ _)⟩

theorem serving_pollClosings (call : CallKey) (e : Engine) : (cs : List Closing) → ∃ served,
    Serving e (pollClosings call e cs).1 (Stopping.ordersOf cs) (Stopping.ordersOf (pollClosings call e cs).2)
      (Stopping.docketOf e.idsOf cs) (Stopping.docketOf e.idsOf (pollClosings call e cs).2) served
  | [] => ⟨[], .idle (.refl e) rfl (.refl _)⟩
  | c :: cs => by
    obtain ⟨served, hc⟩ := serving_pollClosing call e c
    obtain ⟨served', hcs⟩ := serving_pollClosings call (pollClosing call e c).1 cs
    rw [StopsWithin.idsOf hc.stops] at hcs
    exact ⟨_, hc.append hcs⟩

theorem serving_pollBackward (call : CallKey) (e : Engine) : (cs : List Closing) → ∃ served,
    Serving e (pollBackward call e cs).1 (Stopping.ordersOf cs) (Stopping.ordersOf (pollBackward call e cs).2)
      (Stopping.docketOf e.idsOf cs) (Stopping.docketOf e.idsOf (pollBackward call e cs).2) served
  | [] => ⟨[], .idle (.refl e) rfl (.refl _)⟩
  | c :: cs => by
    obtain ⟨served', hcs⟩ := serving_pollBackward call e cs
    obtain ⟨served, hc⟩ := serving_pollClosing call (pollBackward call e cs).1 c
    rw [StopsWithin.idsOf hcs.stops] at hc
    exact ⟨_, (hcs.append hc).swap⟩
end

/-! ## Nodes whose close is under way -/

theorem nodes_pollAsked (e : Engine) (k : NodeKey) (removed : Bool) (deadline : Nat) (report : StopReport) :
    (e.pollAsked k removed deadline report).2.nodes ⊆ [k] := by
  unfold pollAsked closeBySignal closeByDeadline
  repeat' split
  all_goals simp [Closing.nodes]

theorem nodes_askToClose (e : Engine) (call : CallKey) (k : NodeKey) (removed : Bool) (report : StopReport) :
    (e.askToClose call k removed report).2.nodes ⊆ [k] := by
  have hwait (m : Engine) : (m.await call k removed report).2.nodes ⊆ [k] := nodes_pollAsked _ _ _ _ _
  unfold askToClose
  split
  · simp [Closing.nodes]
  · split
    · dsimp only
      split
      · exact hwait _
      · unfold closeBySignal
        repeat' split
        all_goals simp [Closing.nodes]
      · exact hwait _
      · exact hwait _
      · split
        · exact hwait _
        · exact hwait _
    · exact hwait _

theorem nodes_finishStop (e : Engine) (k : LevelKey) (full : Bool) (previous : Phase) (backward : Bool)
    (closings : List Closing) :
    (e.finishStop k full previous backward closings).2.nodes ⊆ Stopping.nodesOf closings := by
  unfold finishStop
  dsimp only
  split
  · exact List.Subset.refl _
  · split <;> exact List.nil_subset _

mutual
theorem nodes_pollClosing (call : CallKey) (e : Engine) : (c : Closing) → (pollClosing call e c).2.nodes ⊆ c.nodes
  | .done _ => List.Subset.refl _
  | .asked k removed deadline report => nodes_pollAsked e k removed deadline report
  | .inner k removed inner => by
    have hi := nodes_pollStop call e inner
    unfold pollClosing
    split
    · exact fun n hn => List.mem_cons.mpr (.inl (List.mem_singleton.mp (nodes_askToClose _ _ _ _ _ hn)))
    · rename_i hr
      rw [hr] at hi
      exact List.cons_subset_cons k hi

/-- No close begins when a stop goes on. -/
theorem nodes_pollStop (call : CallKey) (e : Engine) : (s : Stopping) → (pollStop call e s).2.nodes ⊆ s.nodes
  | .finished _ => List.Subset.refl _
  | .running k full previous backward closings => by
    have hf := nodes_pollClosings call e closings
    have hb := nodes_pollBackward call e closings
    unfold pollStop
    cases backward with
    | true => exact List.Subset.trans (nodes_finishStop _ _ _ _ _ _) hb
    | false => exact List.Subset.trans (nodes_finishStop _ _ _ _ _ _) hf

theorem nodes_pollClosings (call : CallKey) (e : Engine) : (cs : List Closing) →
    Stopping.nodesOf (pollClosings call e cs).2 ⊆ Stopping.nodesOf cs
  | [] => List.Subset.refl _
  | c :: cs => List.append_subset.mpr
    ⟨List.Subset.trans (nodes_pollClosing call e c) (List.subset_append_left _ _),
      List.Subset.trans (nodes_pollClosings call _ cs) (List.subset_append_right _ _)⟩

theorem nodes_pollBackward (call : CallKey) (e : Engine) : (cs : List Closing) →
    Stopping.nodesOf (pollBackward call e cs).2 ⊆ Stopping.nodesOf cs
  | [] => List.Subset.refl _
  | c :: cs => List.append_subset.mpr
    ⟨List.Subset.trans (nodes_pollClosing call _ c) (List.subset_append_left _ _),
      List.Subset.trans (nodes_pollBackward call e cs) (List.subset_append_right _ _)⟩
end

/-- The nodes are there. -/
def Known (e : Engine) (ns : List NodeKey) : Prop := ∀ n ∈ ns, n < e.nodes.size

theorem known_beginClosing {stopInner : Engine → StopRequest → Engine × Stopping}
    (hs : ∀ s request, Known s (stopInner s request).2.nodes) (call : CallKey) (e : Engine) (level : LevelKey)
    (k : NodeKey) (removed : Bool) : Known e (beginClosing stopInner call e level k removed).2.nodes := by
  unfold beginClosing
  cases hk : e.node? k with
  | none => exact fun n hn => absurd hn List.not_mem_nil
  | some node =>
    have hask (m : Engine) (report : StopReport) : Known e (m.askToClose call k removed report).2.nodes := by
      intro n hn
      obtain rfl := List.mem_singleton.mp (nodes_askToClose _ _ _ _ _ hn)
      exact node?_lt e n hk
    dsimp only
    cases hi : e.instance? level node.id with
    | none => exact hask e .empty
    | some inst =>
      have hin := hs (e.modifyLevel level fun l => { l with instances := l.instances.erase node.id })
        ⟨inst, none, if removed then .all else .none⟩
      dsimp only
      split
      · exact hask _ _
      · rename_i hr
        rw [hr] at hin
        intro n hn
        rcases List.mem_cons.mp hn with rfl | hn
        · exact node?_lt e n hk
        · exact hin n hn

theorem known_beginAll {stopInner : Engine → StopRequest → Engine × Stopping}
    (hs : ∀ s request, Known s (stopInner s request).2.nodes) (hst : ∀ s request, Stops s (stopInner s request).1)
    (call : CallKey) (r : StopRequest) (targets : List NodeKey) (s : Engine × List Closing)
    (h : Known s.1 (Stopping.nodesOf s.2)) :
    Known s.1 (Stopping.nodesOf (beginAll stopInner call r s targets).2) := by
  induction targets generalizing s with
  | nil => exact h
  | cons n ns ih =>
    have hc := known_beginClosing hs call s.1 r.level n (r.removal.holds (((s.1.node? n).map (·.id)).getD ""))
    have hstep : Stops s.1 (beginClosing stopInner call s.1 r.level n
        (r.removal.holds (((s.1.node? n).map (·.id)).getD ""))).1 :=
      stops_beginClosing (fun s _ _ _ _ => hst s _) call (fun _ _ _ _ _ _ _ _ => trivial) (fun _ _ => trivial) _
    have hsize := size_of_face (StopsWithin.face hstep)
    have ih := ih (_, s.2 ++ [(beginClosing stopInner call s.1 r.level n
      (r.removal.holds (((s.1.node? n).map (·.id)).getD ""))).2]) fun m hm => by
        rw [hsize]
        rw [Stopping.nodesOf_append] at hm
        rcases List.mem_append.mp hm with hm | hm
        · exact h m hm
        · exact hc m (by simpa [Stopping.nodesOf] using hm)
    intro m hm
    rw [← hsize]
    exact ih m hm

/-- A stop waits for nodes that are there. -/
theorem known_beginStop (call : CallKey) (fuel : Nat) (e : Engine) (r : StopRequest) :
    Known e (beginStop call fuel e r).2.nodes := by
  induction fuel generalizing e r with
  | zero => exact fun n hn => absurd hn List.not_mem_nil
  | succ fuel ih =>
    cases hl : e.level? r.level with
    | none =>
      unfold beginStop
      rw [hl]
      exact fun n hn => absurd hn List.not_mem_nil
    | some l =>
      have hv : Stops e (e.vacated l r) := stops_vacated hl fun _ _ _ _ _ _ => trivial
      have hall := known_beginAll ih (fun s request => stopsWithin_beginStop call fuel s request
        (fun _ _ _ _ _ _ _ _ => trivial) fun _ _ _ _ _ _ => trivial) call r (e.stopTargets l r.filter)
        (e.vacated l r, []) fun n hn => absurd hn List.not_mem_nil
      rw [beginStop_eq call fuel hl]
      intro n hn
      rw [← size_of_face (StopsWithin.face hv)]
      exact hall n (nodes_finishStop _ _ _ _ _ _ hn)

end Engine
end Flowgraph
