import Mathlib.Algebra.BigOperators.Group.Multiset.Basic
import Mathlib.Algebra.Group.Prod
import Mathlib.Tactic.Abel
import Flowgraph.Proofs.Departures
/-! How closes end. A node that has been asked to close is judged by its own signal if that has come, and by the
deadline otherwise; what a stop reports is the sum of these verdicts. -/
namespace Flowgraph

/-- How the close of a node ends. -/
inductive Verdict
  | closed
  | timedOut
  | failed (fault : NodeFault)
  deriving DecidableEq

namespace Verdict

/-- What a signal means for the node that gives it. -/
def ofResult : CloseResult → Verdict
  | .ok _ => closed
  | .error fault => failed fault

/-- The verdict on a node whose close hook blows up. -/
def panicked : Verdict := failed (.close "close handler panicked")

/-- The report of a node that ends this way. -/
def report (id : NodeId) : Verdict → StopReport
  | closed => .ofClosed id
  | timedOut => .ofTimedOut id
  | failed fault => .ofFailed id fault

end Verdict

/-- The nodes of reports by how they ended, in no order. -/
abbrev Tally := Multiset NodeId × Multiset NodeId × Multiset (NodeId × NodeFault)

namespace StopReport

def tally (r : StopReport) : Tally := (r.closed, r.timedOut, r.failed)

theorem tally_append (a b : StopReport) : (a ++ b).tally = a.tally + b.tally := rfl

theorem tally_foldl (reports : List StopReport) (report : StopReport) :
    (reports.foldl (· ++ ·) report).tally = report.tally + (reports.map tally).sum := by
  induction reports generalizing report with
  | nil => exact (add_zero _).symm
  | cons r reports ih => rw [List.foldl_cons, ih, tally_append, List.map_cons, List.sum_cons, add_assoc]

end StopReport

/-! ## What is under way -/

mutual
/-- The orders of nodes whose close is under way. -/
def Closing.pending : Closing → List Order
  | .inner node removed stop => stop.pending ++ [⟨node, removed⟩]
  | .asked node removed _ _ => [⟨node, removed⟩]
  | .done _ => []
termination_by structural c => c

def Stopping.pending : Stopping → List Order
  | .running _ _ _ _ closings => Stopping.pendingOf closings
  | .finished _ => []
termination_by structural s => s

def Stopping.pendingOf : List Closing → List Order
  | [] => []
  | c :: cs => c.pending ++ Stopping.pendingOf cs
termination_by structural cs => cs
end

mutual
/-- The nodes that have been asked, each with its deadline. -/
def Closing.deadlines : Closing → List (NodeKey × Nat)
  | .inner _ _ stop => stop.deadlines
  | .asked node _ deadline _ => [(node, deadline)]
  | .done _ => []
termination_by structural c => c

def Stopping.deadlines : Stopping → List (NodeKey × Nat)
  | .running _ _ _ _ closings => Stopping.deadlinesOf closings
  | .finished _ => []
termination_by structural s => s

def Stopping.deadlinesOf : List Closing → List (NodeKey × Nat)
  | [] => []
  | c :: cs => c.deadlines ++ Stopping.deadlinesOf cs
termination_by structural cs => cs
end

mutual
/-- What has been reported so far. -/
def Closing.tally : Closing → Tally
  | .inner _ _ stop => stop.tally
  | .asked _ _ _ report => report.tally
  | .done report => report.tally
termination_by structural c => c

def Stopping.tally : Stopping → Tally
  | .running _ _ _ _ closings => Stopping.tallyOf closings
  | .finished report => report.tally
termination_by structural s => s

def Stopping.tallyOf : List Closing → Tally
  | [] => 0
  | c :: cs => c.tally + Stopping.tallyOf cs
termination_by structural cs => cs
end

/-- A close that is not done waits for a node that has been asked. -/
def Closing.Alive (c : Closing) : Prop := c.deadlines ≠ [] ∨ ∃ report, c = .done report

def Stopping.Alive (s : Stopping) : Prop := s.deadlines ≠ [] ∨ ∃ report, s = .finished report

namespace Engine

variable {e e' e'' m : Engine} {k n : NodeKey} {call : CallKey} {removed : Bool} {report : StopReport} {D : Nat}

/-! ## What the closing of nodes leaves alone -/

/-- The signal of a node, once it has been given. -/
def signal? (e : Engine) (n : NodeKey) : Option CloseResult := (e.node? n).bind (·.signal)

/-- Time stands still, nobody is put to sleep, and only these nodes give signals. -/
structure Tranquil (ns : List NodeKey) (e e' : Engine) : Prop where
  now : e'.now = e.now
  room : e'.room ≤ e.room
  timers : ∀ t ∈ e.timers, t ∈ e'.timers
  ready : ∀ w ∈ e.ready, w ∈ e'.ready
  putOff : ∀ w ∈ e.putOff, w ∈ e'.putOff
  kept : ∀ n r, e.signal? n = some r → e'.signal? n = some r
  frame : ∀ n, n ∉ ns → e'.signal? n = e.signal? n

namespace Tranquil

variable {ns ns' : List NodeKey}

/-- Nobody gives a signal. -/
theorem of_signals (hn : e'.now = e.now) (hr : e'.room ≤ e.room) (ht : ∀ t ∈ e.timers, t ∈ e'.timers)
    (hw : ∀ w ∈ e.ready, w ∈ e'.ready) (hp : ∀ w ∈ e.putOff, w ∈ e'.putOff) (hs : ∀ n, e'.signal? n = e.signal? n) :
    Tranquil ns e e' :=
  ⟨hn, hr, ht, hw, hp, fun n _ h => (hs n).trans h, fun n _ => hs n⟩

theorem refl (ns : List NodeKey) (e : Engine) : Tranquil ns e e :=
  .of_signals rfl (Nat.le_refl _) (fun _ h => h) (fun _ h => h) (fun _ h => h) fun _ => rfl

theorem trans (h : Tranquil ns e e') (h' : Tranquil ns e' e'') : Tranquil ns e e'' :=
  ⟨h'.now.trans h.now, Nat.le_trans h'.room h.room, fun t ht => h'.timers t (h.timers t ht),
    fun w hw => h'.ready w (h.ready w hw), fun w hw => h'.putOff w (h.putOff w hw),
    fun n r hr => h'.kept n r (h.kept n r hr),
    fun n hn => (h'.frame n hn).trans (h.frame n hn)⟩

theorem mono (h : Tranquil ns e e') (hs : ns ⊆ ns') : Tranquil ns' e e' :=
  { h with frame := fun n hn => h.frame n fun hm => hn (hs hm) }

theorem none_of_none (h : Tranquil ns e e') (hn : e'.signal? n = none) : e.signal? n = none := by
  cases hs : e.signal? n with
  | none => rfl
  | some r =>
    rw [h.kept n r hs] at hn
    cases hn

theorem isSome (h : Tranquil ns e e') (hn : (e.signal? n).isSome = true) : (e'.signal? n).isSome = true := by
  obtain ⟨r, hr⟩ := Option.isSome_iff_exists.mp hn
  rw [h.kept n r hr]
  rfl

theorem foldl {α : Type} (f : Engine → α → Engine) (h : ∀ e a, Tranquil ns e (f e a)) (xs : List α) (e : Engine) :
    Tranquil ns e (xs.foldl f e) :=
  List.foldlRecOn xs f (motive := fun s => Tranquil ns e s) (.refl ns e) fun s hs a _ => hs.trans (h s a)

end Tranquil

variable {ns : List NodeKey}

theorem tranquil_note (e : Engine) (notes : List Note) : Tranquil ns e (e.note notes) :=
  .of_signals rfl (Nat.le_refl _) (fun _ h => h) (fun _ h => h) (fun _ h => h) fun _ => rfl

theorem tranquil_modifyLevel (e : Engine) (k : LevelKey) (f : Level → Level) : Tranquil ns e (e.modifyLevel k f) :=
  .of_signals rfl (Nat.le_refl _) (fun _ h => h) (fun _ h => h) (fun _ h => h) fun _ => rfl

theorem tranquil_wake (e : Engine) (w : Waiter) : Tranquil ns e (e.wake w) := by
  unfold wake
  split
  · exact .refl ns e
  · exact .of_signals rfl (Nat.le_refl _) (fun _ h => h) (fun _ h => List.mem_append_left _ h) (fun _ h => h)
      fun _ => rfl

theorem tranquil_publish (e : Engine) (event : Event) : Tranquil ns e (e.publish event) := by
  have hevent : Tranquil ns e { e with events := e.events ++ [event] } :=
    .of_signals rfl (Nat.le_refl _) (fun _ h => h) (fun _ h => h) (fun _ h => h) fun _ => rfl
  unfold publish
  dsimp only
  split
  · exact hevent.trans (tranquil_wake _ _)
  · exact hevent

theorem signal?_modifyNode (e : Engine) (k n : NodeKey) (f : Node → Node) :
    (e.modifyNode k f).signal? n = if k = n then (e.node? n).bind fun node => (f node).signal else e.signal? n := by
  unfold signal?
  rw [node?_modifyNode]
  split
  · cases e.node? n <;> rfl
  · rfl

/-- A change to a node that leaves its signal as it is. -/
theorem tranquil_modifyNode {f : Node → Node} (hf : ∀ node, (f node).signal = node.signal) (e : Engine) (k : NodeKey) :
    Tranquil ns e (e.modifyNode k f) := by
  refine .of_signals rfl (Nat.le_refl _) (fun _ h => h) (fun _ h => h) (fun _ h => h) fun n => ?_
  rw [signal?_modifyNode]
  split
  · simp only [hf]
    rfl
  · rfl

theorem tranquil_noteSignal (e : Engine) (k : NodeKey) (result : CloseResult) :
    Tranquil [k] e (e.noteSignal k result) := by
  refine ⟨rfl, Nat.le_refl _, fun _ h => h, fun _ h => h, fun _ h => h, fun n r hr => ?_, fun n hn => ?_⟩
  · rw [noteSignal, signal?_modifyNode]
    split
    · obtain ⟨node, hnode, hsig⟩ := Option.bind_eq_some_iff.mp hr
      simp [hnode, hsig]
    · exact hr
  · have hne : k ≠ n := fun h => hn (List.mem_singleton.mpr h.symm)
    rw [noteSignal, signal?_modifyNode, if_neg hne]

theorem signal?_noteSignal {node : Node} (hn : e.node? k = some node) (result : CloseResult) :
    ((e.noteSignal k result).signal? k).isSome = true := by
  rw [noteSignal, signal?_modifyNode, if_pos rfl, hn]
  cases hs : node.signal <;> simp [hs]

theorem tranquil_startTask (e : Engine) (owner : NodeKey) (task : Task) : Tranquil ns e (e.startTask owner task) := by
  have htask : Tranquil ns e { e with
      nextTask := e.nextTask + 1, tasks := e.tasks ++ [⟨e.nextTask, owner, task, none⟩] } :=
    .of_signals rfl (Nat.le_refl _) (fun _ h => h) (fun _ h => h) (fun _ h => h) fun _ => rfl
  have howner := htask.trans
    (tranquil_modifyNode (f := fun node => { node with hasTasks := true }) (fun _ => rfl) _ owner)
  exact howner.trans (tranquil_wake _ _)

theorem tranquil_refresh (e : Engine) (k : LevelKey) : Tranquil ns e (e.refresh k) := by
  unfold refresh
  split
  · exact .refl ns e
  · exact tranquil_modifyLevel _ _ _

theorem tranquil_cancel (e : Engine) (n : NodeKey) : Tranquil ns e (e.cancel n) := by
  have h : Tranquil ns e (e.modifyNode n fun node => { node with cancelled := true }) :=
    tranquil_modifyNode (f := fun node => { node with cancelled := true }) (fun _ => rfl) e n
  exact h.trans (.foldl _ (fun e p => tranquil_wake e _) _ _)

theorem tranquil_vacated (e : Engine) (l : Level) (r : StopRequest) : Tranquil ns e (e.vacated l r) := by
  have hw (m : Engine) : Tranquil ns m (m.withdraw r.level (e.stopTargets l r.filter)) :=
    (tranquil_modifyLevel m r.level _).trans (.foldl _ (fun e n => tranquil_cancel e n) _ _)
  unfold vacated
  split
  · exact (tranquil_modifyLevel e r.level _).trans (hw _)
  · exact hw e

/-! ## Nodes and their verdicts -/

/-- A usage node, which stands for its instance and has no behaviour of its own. -/
def StandsIn (e : Engine) (n : NodeKey) : Prop :=
  ∃ node inst, e.node? n = some node ∧ node.part = .standIn inst

/-- The close hook of a node blows up when it is told that it is being deleted, or when it is not. -/
def BlowsUp (e : Engine) (o : Order) : Prop :=
  ∃ node b, e.node? o.node = some node ∧ node.part = .ordinary b ∧ (b.onClose o.removed).2 = .panicked

theorem StandsIn.calm {o : Order} (h : e.StandsIn o.node) : ¬e.BlowsUp o := by
  obtain ⟨node, inst, hn, hp⟩ := h
  rintro ⟨node', b, hn', hb, -⟩
  obtain rfl := Option.some.inj (hn.symm.trans hn')
  cases hp.symm.trans hb

theorem exists_part_of_face (h : (e'.node? n).map Node.face = (e.node? n).map Node.face) {node : Node}
    (hn : e.node? n = some node) : ∃ node', e'.node? n = some node' ∧ node'.part = node.part := by
  rw [hn] at h
  obtain ⟨node', hn', hface⟩ := Option.map_eq_some_iff.mp h
  exact ⟨node', hn', congrArg (·.2.2) hface⟩

theorem Stops.standsIn (h : Stops e e') (hb : e.StandsIn n) : e'.StandsIn n := by
  obtain ⟨node, inst, hn, hp⟩ := hb
  obtain ⟨node', hn', hpart⟩ := exists_part_of_face (StopsWithin.face h n) hn
  exact ⟨node', inst, hn', hpart.trans hp⟩

theorem Stops.blowsUp_iff (h : Stops e e') (o : Order) : e'.BlowsUp o ↔ e.BlowsUp o := by
  constructor
  · rintro ⟨node, b, hn, hb, hp⟩
    obtain ⟨node', hn', hpart⟩ := exists_part_of_face (StopsWithin.face h o.node).symm hn
    exact ⟨node', b, hn', hpart.trans hb, hp⟩
  · rintro ⟨node, b, hn, hb, hp⟩
    obtain ⟨node', hn', hpart⟩ := exists_part_of_face (StopsWithin.face h o.node) hn
    exact ⟨node', b, hn', hpart.trans hb, hp⟩

/-- The verdict on a node is right, given what its deadline is. -/
inductive Judges (D : Nat) (e e' : Engine) (o : Order) : Verdict → Prop
  | signalled {r : CloseResult} (hq : ¬e.BlowsUp o) (hs : e'.signal? o.node = some r) : Judges D e e' o (.ofResult r)
  | overdue (hq : ¬e.BlowsUp o) (hd : D ≤ e.now) (hs : e.signal? o.node = none) : Judges D e e' o .timedOut
  | blownUp (hb : e.BlowsUp o) : Judges D e e' o .panicked
  | nobody (hn : e.node? o.node = none) : Judges D e e' o .closed

namespace Judges

variable {o : Order} {v : Verdict}

theorem before (h : Judges D m e' o v) (hs : Stops e m) (hst : Tranquil ns e m) : Judges D e e' o v := by
  cases h with
  | signalled hq hsig => exact .signalled (fun hb => hq ((hs.blowsUp_iff o).mpr hb)) hsig
  | overdue hq hd hsig =>
    exact .overdue (fun hb => hq ((hs.blowsUp_iff o).mpr hb)) (hst.now ▸ hd) (hst.none_of_none hsig)
  | blownUp hb => exact .blownUp ((hs.blowsUp_iff o).mp hb)
  | nobody hn =>
    have hf := StopsWithin.face hs o.node
    rw [hn] at hf
    exact .nobody (Option.map_eq_none_iff.mp hf.symm)

theorem after (h : Judges D e m o v) (hst : Tranquil ns m e') : Judges D e e' o v := by
  cases h with
  | signalled hq hsig => exact .signalled hq (hst.kept _ _ hsig)
  | overdue hq hd hsig => exact .overdue hq hd hsig
  | blownUp hb => exact .blownUp hb
  | nobody hn => exact .nobody hn

end Judges

/-- What a report says of a node with this verdict. -/
def entry (e : Engine) (j : Order × Verdict) : Tally :=
  ((e.idsOf j.1.node).map fun id => (j.2.report id).tally).sum

def entries (e : Engine) (js : List (Order × Verdict)) : Tally := (js.map e.entry).sum

theorem entries_append (e : Engine) (js ks : List (Order × Verdict)) :
    e.entries (js ++ ks) = e.entries js + e.entries ks := by
  rw [entries, List.map_append, List.sum_append]
  rfl

theorem entries_single {node : Node} (hn : e.node? k = some node) (removed : Bool) (v : Verdict) :
    e.entries [(⟨k, removed⟩, v)] = (v.report node.id).tally := by
  simp [entries, entry, idsOf, hn]

theorem Stops.entries (h : Stops e e') : e'.entries = e.entries := by
  unfold Engine.entries
  have hentry : e'.entry = e.entry := by
    unfold entry
    rw [StopsWithin.idsOf h]
  rw [hentry]

/-! ## Deadlines -/

/-- A node has been asked in time, or has signalled; until its deadline a timer is set for it. -/
structure Heeded (D : Nat) (call : CallKey) (e : Engine) (a : NodeKey × Nat) : Prop where
  onTime : a.2 = D ∨ (e.signal? a.1).isSome = true
  timer : e.now < a.2 → ⟨a.2, .deadline call a.1⟩ ∈ e.timers

/-- There is nothing to be done about the node. -/
def Waits (e : Engine) (a : NodeKey × Nat) : Prop := e.signal? a.1 = none ∧ e.now < a.2

theorem Heeded.tranquil {a : NodeKey × Nat} (h : Heeded D call e a) (hs : Tranquil ns e e') : Heeded D call e' a :=
  ⟨h.onTime.imp id hs.isSome, fun hlt => hs.timers _ (h.timer (hs.now ▸ hlt))⟩

/-- A step of closes with these orders under way: some get their verdicts, and nothing can be done about the others,
unless the turn has no room left. -/
structure Judging (D : Nat) (call : CallKey) (e e' : Engine) (ps ps' : List Order) (as' : List (NodeKey × Nat))
    (js : List (Order × Verdict)) : Prop where
  stops : Stops e e'
  tranquil : Tranquil (ps.map (·.node)) e e'
  orders : (js.map (·.1) ++ ps').Perm ps
  calm : ∀ o ∈ ps', ¬e.BlowsUp o
  right : ∀ j ∈ js, Judges D e e' j.1 j.2
  within : ∀ a ∈ as', a.1 ∈ ps'.map (·.node)
  left : ∀ a ∈ as', Heeded D call e' a ∧ (e'.Waits a ∨ e'.room = 0)

namespace Judging

variable {ps ps' qs qs' : List Order} {as' bs' : List (NodeKey × Nat)} {js ks : List (Order × Verdict)} {o : Order}

/-- Nothing is under way any more. -/
theorem idle (hs : Stops e e') (hst : Tranquil [] e e') : Judging D call e e' [] [] [] [] :=
  ⟨hs, hst, .refl _, by simp, by simp, by simp, by simp⟩

/-- The verdict on one node. -/
theorem single {v : Verdict} (hs : Stops e e') (hst : Tranquil [o.node] e e') (hj : Judges D e e' o v) :
    Judging D call e e' [o] [] [] [(o, v)] :=
  ⟨hs, hst, .refl _, by simp, by simpa using hj, by simp, by simp⟩

theorem subset (h : Judging D call e e' ps ps' as' js) : ps' ⊆ ps := fun _ ho =>
  h.orders.subset (List.mem_append_right _ ho)

/-- Something has gone before that concerns these nodes only. -/
theorem before (h : Judging D call m e' ps ps' as' js) (hs : Stops e m) (hst : Tranquil (ps.map (·.node)) e m) :
    Judging D call e e' ps ps' as' js :=
  ⟨hs.trans h.stops, hst.trans h.tranquil, h.orders, fun o ho hb => h.calm o ho ((hs.blowsUp_iff o).mpr hb),
    fun j hj => (h.right j hj).before hs hst, h.within, h.left⟩

/-- Something follows that concerns none of the nodes. -/
theorem after (h : Judging D call e m ps ps' as' js) (hs : Stops m e') (hst : Tranquil [] m e') :
    Judging D call e e' ps ps' as' js := by
  refine ⟨h.stops.trans hs, h.tranquil.trans (hst.mono (List.nil_subset _)), h.orders, h.calm,
    fun j hj => (h.right j hj).after hst, h.within, fun a ha => ?_⟩
  obtain ⟨haw, hw⟩ := h.left a ha
  refine ⟨haw.tranquil hst, hw.imp (fun hw => ⟨(hst.frame _ List.not_mem_nil).trans hw.1, hst.now ▸ hw.2⟩) fun hr => ?_⟩
  exact Nat.eq_zero_of_le_zero (hr ▸ hst.room)

/-- Closes of other nodes go on after that. -/
theorem append (h : Judging D call e m ps ps' as' js) (h' : Judging D call m e' qs qs' bs' ks)
    (hd : ∀ n ∈ ps.map (·.node), n ∉ qs.map (·.node)) :
    Judging D call e e' (ps ++ qs) (ps' ++ qs') (as' ++ bs') (js ++ ks) := by
  have hst : Tranquil ((ps ++ qs).map (·.node)) e m := h.tranquil.mono (by simp)
  have hst' : Tranquil ((ps ++ qs).map (·.node)) m e' := h'.tranquil.mono (by simp)
  refine ⟨h.stops.trans h'.stops, hst.trans hst', ?_, fun o ho => ?_, fun j hj => ?_, fun a ha => ?_, fun a ha => ?_⟩
  · refine List.Perm.trans ?_ (h.orders.append h'.orders)
    rw [List.perm_iff_count]
    intro o
    simp only [List.map_append, List.count_append]
    omega
  · rcases List.mem_append.mp ho with ho | ho
    · exact h.calm o ho
    · exact fun hb => h'.calm o ho ((h.stops.blowsUp_iff o).mpr hb)
  · rcases List.mem_append.mp hj with hj | hj
    · exact (h.right j hj).after hst'
    · exact (h'.right j hj).before h.stops hst
  · rw [List.map_append, List.mem_append]
    exact (List.mem_append.mp ha).imp (h.within a) (h'.within a)
  · rcases List.mem_append.mp ha with ha | ha
    · obtain ⟨haw, hw⟩ := h.left a ha
      have hout : a.1 ∉ qs.map (·.node) := hd _ (List.map_subset _ h.subset (h.within a ha))
      refine ⟨haw.tranquil hst', hw.imp (fun hw => ⟨(h'.tranquil.frame _ hout).trans hw.1, h'.tranquil.now ▸ hw.2⟩)
        fun hr => ?_⟩
      exact Nat.eq_zero_of_le_zero (hr ▸ h'.tranquil.room)
    · exact h'.left a ha

/-- It does not matter in which order the nodes are listed. -/
theorem regroup (h : Judging D call e e' ps ps' as' js) (hp : qs.Perm ps) (hp' : qs'.Perm ps') (ha : bs'.Perm as')
    (hj : ks.Perm js) : Judging D call e e' qs qs' bs' ks :=
  ⟨h.stops, h.tranquil.mono ((hp.map _).symm.subset), ((hj.map _).append hp').trans (h.orders.trans hp.symm),
    fun o ho => h.calm o (hp'.subset ho), fun j hm => h.right j (hj.subset hm),
    fun a hm => (hp'.map _).symm.subset (h.within a (ha.subset hm)), fun a hm => h.left a (ha.subset hm)⟩

end Judging

/-! ## Closing one node -/

/-- What comes of the close of one node that has been asked, or is asked now. -/
def Ends (D : Nat) (call : CallKey) (e : Engine) (o : Order) (report : StopReport) (s : Engine × Closing) : Prop :=
  ∃ js, Judging D call e s.1 [o] s.2.pending s.2.deadlines js ∧ s.2.tally = report.tally + e.entries js

theorem Ends.before {o : Order} {s : Engine × Closing} (h : Ends D call m o report s) (hs : Stops e m)
    (hst : Tranquil [o.node] e m) : Ends D call e o report s := by
  obtain ⟨js, hj, ht⟩ := h
  exact ⟨js, hj.before hs hst, by rw [ht, hs.entries]⟩

theorem closeTimeout_of_still (h : e'.still = e.still) : e'.closeTimeout = e.closeTimeout := by
  have := congrArg Engine.closeTimeout h
  exact this

theorem exists_node?_of_signal? {r : CloseResult} (h : e.signal? n = some r) :
    ∃ node, e.node? n = some node ∧ node.signal = some r := Option.bind_eq_some_iff.mp h

theorem ends_closeBySignal {node : Node} (hn : e.node? k = some node) (result : CloseResult)
    (hj : ∀ e', Tranquil [k] e e' → Judges D e e' ⟨k, removed⟩ (.ofResult result)) :
    Ends D call e ⟨k, removed⟩ report (e.closeBySignal k removed report result) := by
  have hs : Stops e (e.closeBySignal k removed report result).1 := (silent_closeBySignal _ _ _ _ _).stops
  unfold closeBySignal at hs ⊢
  rw [hn] at hs ⊢
  cases result with
  | ok value =>
    have hst : Tranquil [k] e (e.publish (.nodeClosed (((e.level? node.level).map (·.id)).getD "") node.id removed)) :=
      tranquil_publish _ _
    refine ⟨[(⟨k, removed⟩, .closed)], .single hs hst (hj _ hst), ?_⟩
    rw [entries_single hn]
    rfl
  | error fault =>
    refine ⟨[(⟨k, removed⟩, .failed fault)], .single hs (.refl _ e) (hj _ (.refl _ e)), ?_⟩
    rw [entries_single hn]
    rfl

theorem ends_closeByDeadline (hq : ¬e.BlowsUp ⟨k, removed⟩) (hd : D ≤ e.now) (hs : e.signal? k = none) :
    Ends D call e ⟨k, removed⟩ report (e.closeByDeadline k report) := by
  have hstops : Stops e (e.closeByDeadline k report).1 := (silent_closeByDeadline _ _ _).stops
  unfold closeByDeadline at hstops ⊢
  cases hn : e.node? k with
  | none => exact ⟨[(⟨k, removed⟩, .closed)], .single (.refl e) (.refl _ e) (.nobody hn), by
      simp [entries, entry, idsOf, hn, Closing.tally]⟩
  | some node =>
    rw [hn] at hstops
    refine ⟨[(⟨k, removed⟩, .timedOut)], .single hstops (tranquil_publish _ _) (.overdue hq hd hs), ?_⟩
    rw [entries_single hn]
    rfl

/-- The node is judged, or nothing can be done about it in this turn. -/
theorem ends_pollAsked {d : Nat} (ha : Heeded D call e (k, d)) (hq : ¬e.BlowsUp ⟨k, removed⟩) (report : StopReport) :
    Ends D call e ⟨k, removed⟩ report (e.pollAsked k removed d report) := by
  have hwait (hw : e.Waits (k, d) ∨ e.room = 0) : Ends D call e ⟨k, removed⟩ report (e, .asked k removed d report) :=
    ⟨[], ⟨.refl e, .refl _ e, .refl _, by simpa [Closing.pending] using hq, by simp,
      by simp [Closing.deadlines, Closing.pending], by simpa [Closing.deadlines] using ⟨ha, hw⟩⟩,
      (add_zero _).symm⟩
  unfold pollAsked
  split
  · rename_i hroom
    exact hwait (.inr hroom)
  · rename_i room hroom
    have hs : Stops e { e with room } := .still rfl rfl
    have hst : Tranquil [k] e { e with room } :=
      .of_signals rfl (by simp [hroom]) (fun _ h => h) (fun _ h => h) (fun _ h => h) fun _ => rfl
    split
    · rename_i result hsig
      obtain ⟨node, hn, -⟩ := exists_node?_of_signal? hsig
      have hsig' : ({ e with room } : Engine).signal? k = some result := hsig
      exact Ends.before (ends_closeBySignal (e := { e with room }) hn result fun e' h =>
        .signalled hq (h.kept _ _ hsig')) hs hst
    · rename_i hsig
      have hnone : e.signal? k = none := hsig
      split
      · rename_i hd
        have hdue : d = D := ha.onTime.resolve_right (by simp [hnone])
        exact Ends.before (ends_closeByDeadline hq (hdue ▸ hd) hnone) hs hst
      · rename_i hd
        exact hwait (.inl ⟨hnone, Nat.lt_of_not_le hd⟩)

/-- The wait for a node begins in time, or the node has signalled. -/
theorem ends_await (ht : e.now + e.closeTimeout = D ∨ (e.signal? k).isSome = true) (hq : ¬e.BlowsUp ⟨k, removed⟩)
    (report : StopReport) : Ends D call e ⟨k, removed⟩ report (e.await call k removed report) := by
  have ha : Heeded D call { e with timers := e.timers ++ [⟨e.now + e.closeTimeout, .deadline call k⟩] }
      (k, e.now + e.closeTimeout) := ⟨ht, fun _ => List.mem_append_right _ List.mem_cons_self⟩
  exact (ends_pollAsked ha hq report).before (.still rfl rfl)
    (.of_signals rfl (Nat.le_refl _) (fun _ h => List.mem_append_left _ h) (fun _ h => h) (fun _ h => h) fun _ => rfl)

/-- A node is asked to close. Only those without a behaviour of their own may be asked later than at the beginning of
the stop. -/
theorem ends_askToClose (ht : e.now + e.closeTimeout = D ∨ e.StandsIn k) (report : StopReport) :
    Ends D call e ⟨k, removed⟩ report (e.askToClose call k removed report) := by
  cases hn : e.node? k with
  | none =>
    unfold askToClose
    rw [hn]
    exact ⟨[(⟨k, removed⟩, .closed)], .single (.refl e) (.refl _ e) (.nobody hn), by
      simp [entries, entry, idsOf, hn, Closing.tally]⟩
  | some node =>
    -- whatever is done about the node before the wait begins
    have hwait {m : Engine} (hs : Silent e m) (hst : Tranquil [k] e m) (hc : m.closeTimeout = e.closeTimeout)
        (hq : ¬e.BlowsUp ⟨k, removed⟩) (hlate : e.StandsIn k → (m.signal? k).isSome = true) :
        Ends D call e ⟨k, removed⟩ report (m.await call k removed report) := by
      have hstops : Stops e m := hs.stops
      refine Ends.before (ends_await ?_ (fun hb => hq ((hstops.blowsUp_iff _).mp hb)) report) hstops hst
      rw [hst.now, hc]
      exact ht.imp id hlate
    unfold askToClose
    rw [hn]
    dsimp only
    split
    · rename_i b hb
      have hnot : ¬e.StandsIn k := by
        rintro ⟨node', inst, hn', hp⟩
        obtain rfl := Option.some.inj (hn.symm.trans hn')
        cases hp.symm.trans hb
      have hnotes : Silent e (e.note (b.onClose removed).1) := ⟨rfl, rfl⟩
      have hcalm (ha : (b.onClose removed).2 ≠ .panicked) : ¬e.BlowsUp ⟨k, removed⟩ := by
        rintro ⟨node', b', hn', hb', hp⟩
        obtain rfl := Option.some.inj (hn.symm.trans hn')
        rw [hb] at hb'
        cases hb'
        exact ha hp
      have hsignal (result : CloseResult) (ha : (b.onClose removed).2 ≠ .panicked) :
          Ends D call e ⟨k, removed⟩ report
            (((e.note (b.onClose removed).1).noteSignal k result).await call k removed report) :=
        hwait (hnotes.trans (silent_noteSignal _ _ _)) ((tranquil_note e _).trans (tranquil_noteSignal _ _ _)) rfl
          (hcalm ha) fun h => absurd h hnot
      have htask (task : Task) (ha : (b.onClose removed).2 ≠ .panicked) : Ends D call e ⟨k, removed⟩ report
          (((e.note (b.onClose removed).1).startTask k task).await call k removed report) :=
        hwait (hnotes.trans (silent_startTask _ _ _)) ((tranquil_note e _).trans (tranquil_startTask _ _ _))
          (closeTimeout_of_still (silent_startTask _ _ _).still) (hcalm ha) fun h => absurd h hnot
      split
      · rename_i ha
        exact hsignal _ (by simp [ha])
      · rename_i ha
        refine Ends.before (ends_closeBySignal (e := e.note (b.onClose removed).1) hn _ fun e' _ => ?_) hnotes.stops
          (tranquil_note e _)
        exact .blownUp ⟨node, b, hn, hb, ha⟩
      · rename_i ha
        exact hwait hnotes (tranquil_note e _) rfl (hcalm (by simp [ha])) fun h => absurd h hnot
      · rename_i ha
        exact htask _ (by simp [ha])
      · rename_i ha
        split
        · exact htask _ (by simp [ha])
        · exact hsignal _ (by simp [ha])
    · rename_i hb
      have hcalm : ¬e.BlowsUp ⟨k, removed⟩ := by
        rintro ⟨node', b, hn', hb', -⟩
        obtain rfl := Option.some.inj (hn.symm.trans hn')
        exact hb b hb'
      exact hwait (silent_noteSignal _ _ _) (tranquil_noteSignal _ _ _) rfl hcalm fun _ => signal?_noteSignal hn _

/-! ## Going on -/

theorem tranquil_finishStop (e : Engine) (k : LevelKey) (full : Bool) (previous : Phase) (backward : Bool)
    (closings : List Closing) : Tranquil ns e (e.finishStop k full previous backward closings).1 := by
  unfold finishStop
  dsimp only
  split
  · exact .refl ns e
  · split
    · exact ((tranquil_refresh e k).trans (tranquil_modifyLevel _ _ _)).trans (tranquil_publish _ _)
    · exact (tranquil_refresh e k).trans (tranquil_modifyLevel _ _ _)

theorem files_done {closings : List Closing} (h : ¬(doneReports closings).length < closings.length) :
    Stopping.pendingOf closings = [] ∧ Stopping.deadlinesOf closings = [] ∧
      Stopping.tallyOf closings = ((doneReports closings).map StopReport.tally).sum := by
  induction closings with
  | nil => exact ⟨rfl, rfl, rfl⟩
  | cons c cs ih =>
    have hle : (doneReports cs).length ≤ cs.length := List.length_filterMap_le _ _
    cases c with
    | done report =>
      have hl : doneReports (.done report :: cs) = report :: doneReports cs := rfl
      rw [hl, List.length_cons, List.length_cons] at h
      obtain ⟨hp, hd, ht⟩ := ih (by omega)
      rw [hl, List.map_cons, List.sum_cons, ← ht]
      exact ⟨hp, hd, rfl⟩
    | _ =>
      have hl : (doneReports cs).length < cs.length + 1 := by omega
      exact absurd hl h

/-- The end of a stop changes nothing about what is under way and what has been reported. -/
theorem files_finishStop (e : Engine) (k : LevelKey) (full : Bool) (previous : Phase) (backward : Bool)
    (closings : List Closing) :
    (e.finishStop k full previous backward closings).2.pending = Stopping.pendingOf closings ∧
      (e.finishStop k full previous backward closings).2.deadlines = Stopping.deadlinesOf closings ∧
      (e.finishStop k full previous backward closings).2.tally = Stopping.tallyOf closings := by
  by_cases hlt : (doneReports closings).length < closings.length
  · have he : (e.finishStop k full previous backward closings).2 = .running k full previous
        (e.room == 0 && closings.length > manyClosings && !backward) closings := by
      unfold finishStop
      exact congrArg Prod.snd (if_pos hlt)
    rw [he]
    exact ⟨rfl, rfl, rfl⟩
  · have he : (e.finishStop k full previous backward closings).2 =
        .finished ((doneReports closings).foldl (· ++ ·) .empty) := by
      unfold finishStop
      refine (congrArg Prod.snd (if_neg hlt)).trans ?_
      dsimp only
      split <;> rfl
    obtain ⟨hp, hd, ht⟩ := files_done hlt
    rw [he, hp, hd, ht]
    exact ⟨rfl, rfl, (StopReport.tally_foldl _ _).trans (zero_add _)⟩

theorem tranquil_closeBySignal (e : Engine) (k : NodeKey) (removed : Bool) (report : StopReport)
    (result : CloseResult) :
    Tranquil ns e (e.closeBySignal k removed report result).1 := by
  unfold closeBySignal
  split
  · exact .refl ns e
  · split
    · exact tranquil_publish _ _
    · exact .refl ns e

theorem tranquil_pollAsked (e : Engine) (k : NodeKey) (removed : Bool) (d : Nat) (report : StopReport) :
    Tranquil ns e (e.pollAsked k removed d report).1 := by
  unfold pollAsked
  split
  · exact .refl ns e
  · rename_i room hroom
    have hst : Tranquil ns e { e with room } :=
      .of_signals rfl (by simp [hroom]) (fun _ h => h) (fun _ h => h) (fun _ h => h) fun _ => rfl
    split
    · exact hst.trans (tranquil_closeBySignal _ _ _ _ _)
    · split
      · refine hst.trans ?_
        unfold closeByDeadline
        split
        · exact .refl ns _
        · exact tranquil_publish _ _
      · exact .refl ns e

/-- Whoever is asked to close is the only one to give a signal. -/
theorem tranquil_askToClose (e : Engine) (call : CallKey) (k : NodeKey) (removed : Bool) (report : StopReport) :
    Tranquil [k] e (e.askToClose call k removed report).1 := by
  have hawait {m : Engine} (h : Tranquil [k] e m) : Tranquil [k] e (m.await call k removed report).1 := by
    have htimer : Tranquil [k] m { m with timers := m.timers ++ [⟨m.now + m.closeTimeout, .deadline call k⟩] } :=
      .of_signals rfl (Nat.le_refl _) (fun _ h => List.mem_append_left _ h) (fun _ h => h) (fun _ h => h) fun _ => rfl
    exact (h.trans htimer).trans (tranquil_pollAsked _ _ _ _ _)
  unfold askToClose
  split
  · exact .refl _ e
  · split
    · rename_i b _
      have hn : Tranquil [k] e (e.note (b.onClose removed).1) := tranquil_note _ _
      dsimp only
      split
      · exact hawait (hn.trans (tranquil_noteSignal _ _ _))
      · exact hn.trans (tranquil_closeBySignal _ _ _ _ _)
      · exact hawait hn
      · exact hawait (hn.trans (tranquil_startTask _ _ _))
      · split
        · exact hawait (hn.trans (tranquil_startTask _ _ _))
        · exact hawait (hn.trans (tranquil_noteSignal _ _ _))
    · exact hawait (tranquil_noteSignal _ _ _)

mutual
theorem tranquil_pollClosing (call : CallKey) (e : Engine) : (c : Closing) →
    Tranquil (c.orders.map (·.node)) e (pollClosing call e c).1
  | .done _ => .refl _ e
  | .asked k removed d report => tranquil_pollAsked e k removed d report
  | .inner k removed inner => by
    have hi : Tranquil ((inner.orders ++ [(⟨k, removed⟩ : Order)]).map (·.node)) e (pollStop call e inner).1 :=
      (tranquil_pollStop call e inner).mono (by simp)
    unfold pollClosing
    split
    · rename_i m report hr
      rw [hr] at hi
      exact hi.trans ((tranquil_askToClose m call k removed report).mono (by simp))
    · rename_i hr
      rw [hr] at hi
      exact hi

/-- When a stop goes on, only nodes that are asked then give signals. -/
theorem tranquil_pollStop (call : CallKey) (e : Engine) : (s : Stopping) →
    Tranquil (s.orders.map (·.node)) e (pollStop call e s).1
  | .finished _ => .refl _ e
  | .running k full previous backward closings => by
    have hf := tranquil_pollClosings call e closings
    have hb := tranquil_pollBackward call e closings
    unfold pollStop
    cases backward with
    | true => exact hb.trans (tranquil_finishStop _ _ _ _ _ _)
    | false => exact hf.trans (tranquil_finishStop _ _ _ _ _ _)

theorem tranquil_pollClosings (call : CallKey) (e : Engine) : (cs : List Closing) →
    Tranquil ((Stopping.ordersOf cs).map (·.node)) e (pollClosings call e cs).1
  | [] => .refl _ e
  | c :: cs => by
    have hc : Tranquil ((c.orders ++ Stopping.ordersOf cs).map (·.node)) e (pollClosing call e c).1 :=
      (tranquil_pollClosing call e c).mono (by simp)
    exact hc.trans ((tranquil_pollClosings call _ cs).mono (by simp))

theorem tranquil_pollBackward (call : CallKey) (e : Engine) : (cs : List Closing) →
    Tranquil ((Stopping.ordersOf cs).map (·.node)) e (pollBackward call e cs).1
  | [] => .refl _ e
  | c :: cs => by
    have hcs : Tranquil ((c.orders ++ Stopping.ordersOf cs).map (·.node)) e (pollBackward call e cs).1 :=
      (tranquil_pollBackward call e cs).mono (by simp)
    exact hcs.trans ((tranquil_pollClosing call _ c).mono (by simp))
end

/-- Closes that are under way, with the orders that have not been served and the deadlines of the others. -/
structure Pursued (D : Nat) (call : CallKey) (e : Engine) (ps os : List Order) (as : List (NodeKey × Nat)) : Prop where
  once : (ps.map (·.node)).Nodup
  calm : ∀ o ∈ ps, ¬e.BlowsUp o
  standsIn : ∀ o ∈ os, e.StandsIn o.node
  awaits : ∀ a ∈ as, Heeded D call e a

namespace Pursued

variable {ps ps' qs os os' : List Order} {as as' bs : List (NodeKey × Nat)} {js : List (Order × Verdict)}

theorem left (h : Pursued D call e (ps ++ qs) (os ++ os') (as ++ bs)) : Pursued D call e ps os as :=
  ⟨(List.nodup_append.mp (List.map_append ▸ h.once)).1, fun o ho => h.calm o (List.mem_append_left _ ho),
    fun o ho => h.standsIn o (List.mem_append_left _ ho), fun a ha => h.awaits a (List.mem_append_left _ ha)⟩

theorem right (h : Pursued D call e (ps ++ qs) (os ++ os') (as ++ bs)) : Pursued D call e qs os' bs :=
  ⟨(List.nodup_append.mp (List.map_append ▸ h.once)).2.1, fun o ho => h.calm o (List.mem_append_right _ ho),
    fun o ho => h.standsIn o (List.mem_append_right _ ho), fun a ha => h.awaits a (List.mem_append_right _ ha)⟩

/-- What is inside the instance of a usage node. -/
theorem innermost {o : Order} (h : Pursued D call e (ps ++ [o]) (os ++ [o]) as) : Pursued D call e ps os as := by
  rw [← List.append_nil as] at h
  exact h.left

theorem apart (h : Pursued D call e (ps ++ qs) os as) : ∀ n ∈ ps.map (·.node), n ∉ qs.map (·.node) := by
  intro n hn hn'
  exact (List.nodup_append.mp (List.map_append ▸ h.once)).2.2 n hn n hn' rfl

theorem later (h : Pursued D call e ps os as) (hs : Stops e e') (hst : Tranquil ns e e') : Pursued D call e' ps os as :=
  ⟨h.once, fun o ho hb => h.calm o ho ((hs.blowsUp_iff o).mp hb), fun o ho => hs.standsIn (h.standsIn o ho),
    fun a ha => (h.awaits a ha).tranquil hst⟩

/-- What is left is under way. -/
theorem judged (h : Pursued D call e ps os as) (hj : Judging D call e e' ps ps' as' js) (hos : os' ⊆ os) :
    Pursued D call e' ps' os' as' := by
  have hp : ((js.map (·.1) ++ ps').map (·.node)).Nodup := (hj.orders.map _).nodup_iff.mpr h.once
  rw [List.map_append] at hp
  exact ⟨(List.nodup_append.mp hp).2.1, fun o ho hb => hj.calm o ho ((hj.stops.blowsUp_iff o).mp hb),
    fun o ho => hj.stops.standsIn (h.standsIn o (hos ho)), fun a ha => (hj.left a ha).1⟩

end Pursued

/-- What comes of stops side by side when they go on. -/
def Goes (D : Nat) (call : CallKey) (e e' : Engine) (ps ps' : List Order) (as' : List (NodeKey × Nat)) (t t' : Tally) :
    Prop := ∃ js, Judging D call e e' ps ps' as' js ∧ t' = t + e.entries js

namespace Goes

variable {ps ps' qs qs' : List Order} {as' bs' : List (NodeKey × Nat)} {t t' u u' : Tally}

theorem append (h : Goes D call e m ps ps' as' t t') (h' : Goes D call m e' qs qs' bs' u u')
    (hd : ∀ n ∈ ps.map (·.node), n ∉ qs.map (·.node)) :
    Goes D call e e' (ps ++ qs) (ps' ++ qs') (as' ++ bs') (t + u) (t' + u') := by
  obtain ⟨js, hj, ht⟩ := h
  obtain ⟨ks, hk, hu⟩ := h'
  refine ⟨js ++ ks, hj.append hk hd, ?_⟩
  rw [ht, hu, hj.stops.entries, entries_append]
  abel

theorem swap (h : Goes D call e e' (ps ++ qs) (ps' ++ qs') (as' ++ bs') (t + u) (t' + u')) :
    Goes D call e e' (qs ++ ps) (qs' ++ ps') (bs' ++ as') (u + t) (u' + t') := by
  obtain ⟨js, hj, ht⟩ := h
  refine ⟨js, hj.regroup List.perm_append_comm List.perm_append_comm List.perm_append_comm (.refl js), ?_⟩
  rw [add_comm u' t', ht, add_comm t u]

/-- A usage node is left for later. -/
theorem keep {o : Order} (h : Goes D call e m ps ps' as' t t') (hb : e.StandsIn o.node)
    (hd : o.node ∉ ps.map (·.node)) :
    Goes D call e m (ps ++ [o]) (ps' ++ [o]) as' t t' := by
  obtain ⟨js, hj, ht⟩ := h
  have hself : Judging D call m m [o] [o] [] [] :=
    ⟨.refl m, .refl _ m, .refl _, by simpa using (hj.stops.standsIn hb).calm, by simp, by simp, by simp⟩
  have happ := hj.append hself fun n hn hn' => hd (by rwa [List.mem_singleton.mp hn'] at hn)
  rw [List.append_nil, List.append_nil] at happ
  exact ⟨js, happ, ht⟩

/-- A usage node is asked when its instance has stopped. -/
theorem ask {o : Order} {inner : StopReport} {s : Engine × Closing} (h : Goes D call e m ps [] [] t inner.tally)
    (h' : Ends D call m o inner s) (hd : o.node ∉ ps.map (·.node)) :
    Goes D call e s.1 (ps ++ [o]) s.2.pending s.2.deadlines t s.2.tally := by
  obtain ⟨js, hj, ht⟩ := h
  obtain ⟨ks, hk, hu⟩ := h'
  have happ := hj.append hk fun n hn hn' => hd (by rwa [List.mem_singleton.mp hn'] at hn)
  refine ⟨js ++ ks, happ, ?_⟩
  rw [hu, ht, hj.stops.entries, entries_append, add_assoc]

end Goes

theorem goes_finishStop {ps : List Order} {t : Tally} {closings : List Closing} (k : LevelKey) (full : Bool)
    (previous : Phase) (backward : Bool) (h : Goes D call e m ps (Stopping.pendingOf closings)
      (Stopping.deadlinesOf closings) t (Stopping.tallyOf closings)) :
    Goes D call e (m.finishStop k full previous backward closings).1 ps
      (m.finishStop k full previous backward closings).2.pending
      (m.finishStop k full previous backward closings).2.deadlines t
      (m.finishStop k full previous backward closings).2.tally := by
  obtain ⟨hp, hd, ht⟩ := files_finishStop m k full previous backward closings
  obtain ⟨js, hj, hu⟩ := h
  rw [hp, hd, ht]
  exact ⟨js, hj.after (stops_finishStop _ _ _ _ _ _) (tranquil_finishStop _ _ _ _ _ _), hu⟩

mutual
theorem goes_pollClosing (call : CallKey) (e : Engine) :
    (c : Closing) → Pursued D call e c.pending c.orders c.deadlines →
    Goes D call e (pollClosing call e c).1 c.pending (pollClosing call e c).2.pending (pollClosing call e c).2.deadlines
      c.tally (pollClosing call e c).2.tally
  | .done report, _ => ⟨[], .idle (.refl e) (.refl _ e), (add_zero _).symm⟩
  | .asked k removed d report, h =>
    ends_pollAsked (h.awaits (k, d) List.mem_cons_self) (h.calm ⟨k, removed⟩ List.mem_cons_self) report
  | .inner k removed inner, h => by
    have hk : e.StandsIn k := h.standsIn ⟨k, removed⟩ (List.mem_append_right _ List.mem_cons_self)
    have hin : Pursued D call e inner.pending inner.orders inner.deadlines := h.innermost
    have hi := goes_pollStop call e inner hin
    have hout : k ∉ inner.pending.map (·.node) := fun hm => Pursued.apart h k hm List.mem_cons_self
    unfold pollClosing
    split
    · rename_i m report hr
      rw [hr] at hi
      have hstops : Stops e m := hi.choose_spec.1.stops
      exact hi.ask (ends_askToClose (.inr (hstops.standsIn hk)) report) hout
    · rename_i m s _ hr
      rw [hr] at hi
      exact hi.keep (o := ⟨k, removed⟩) hk hout

/-- A stop that goes on judges some of its nodes, and nothing can be done about the others. -/
theorem goes_pollStop (call : CallKey) (e : Engine) :
    (s : Stopping) → Pursued D call e s.pending s.orders s.deadlines →
    Goes D call e (pollStop call e s).1 s.pending (pollStop call e s).2.pending (pollStop call e s).2.deadlines
      s.tally (pollStop call e s).2.tally
  | .finished report, _ => ⟨[], .idle (.refl e) (.refl _ e), (add_zero _).symm⟩
  | .running k full previous backward closings, h => by
    have hf := goes_pollClosings call e closings h
    have hb := goes_pollBackward call e closings h
    unfold pollStop
    cases backward with
    | true => exact goes_finishStop k full previous true hb
    | false => exact goes_finishStop k full previous false hf

theorem goes_pollClosings (call : CallKey) (e : Engine) : (cs : List Closing) →
    Pursued D call e (Stopping.pendingOf cs) (Stopping.ordersOf cs) (Stopping.deadlinesOf cs) →
    Goes D call e (pollClosings call e cs).1 (Stopping.pendingOf cs) (Stopping.pendingOf (pollClosings call e cs).2)
      (Stopping.deadlinesOf (pollClosings call e cs).2) (Stopping.tallyOf cs)
      (Stopping.tallyOf (pollClosings call e cs).2)
  | [], _ => ⟨[], .idle (.refl e) (.refl _ e), (add_zero _).symm⟩
  | c :: cs, h => by
    have hc := goes_pollClosing call e c (Pursued.left h)
    obtain ⟨js, hj, -⟩ := id hc
    exact hc.append (goes_pollClosings call _ cs ((Pursued.right h).later hj.stops hj.tranquil)) (Pursued.apart h)

theorem goes_pollBackward (call : CallKey) (e : Engine) : (cs : List Closing) →
    Pursued D call e (Stopping.pendingOf cs) (Stopping.ordersOf cs) (Stopping.deadlinesOf cs) →
    Goes D call e (pollBackward call e cs).1 (Stopping.pendingOf cs) (Stopping.pendingOf (pollBackward call e cs).2)
      (Stopping.deadlinesOf (pollBackward call e cs).2) (Stopping.tallyOf cs)
      (Stopping.tallyOf (pollBackward call e cs).2)
  | [], _ => ⟨[], .idle (.refl e) (.refl _ e), (add_zero _).symm⟩
  | c :: cs, h => by
    have hcs := goes_pollBackward call e cs (Pursued.right h)
    obtain ⟨js, hj, -⟩ := id hcs
    have hc := goes_pollClosing call (pollBackward call e cs).1 c ((Pursued.left h).later hj.stops hj.tranquil)
    exact (hcs.append hc fun n hn hn' => Pursued.apart h n hn' hn).swap
end

/-! ## A stop under way waits for nodes that have been asked -/

theorem alive_pollAsked (e : Engine) (k : NodeKey) (removed : Bool) (d : Nat) (report : StopReport) :
    (e.pollAsked k removed d report).2.Alive := by
  unfold pollAsked closeBySignal closeByDeadline
  repeat' split
  all_goals first | exact .inr ⟨_, rfl⟩ | exact .inl (List.cons_ne_nil _ _)

theorem alive_askToClose (e : Engine) (call : CallKey) (k : NodeKey) (removed : Bool) (report : StopReport) :
    (e.askToClose call k removed report).2.Alive := by
  have hwait (m : Engine) : (m.await call k removed report).2.Alive := alive_pollAsked _ _ _ _ _
  unfold askToClose
  split
  · exact .inr ⟨_, rfl⟩
  · split
    · dsimp only
      split
      · exact hwait _
      · unfold closeBySignal
        repeat' split
        all_goals exact .inr ⟨_, rfl⟩
      · exact hwait _
      · exact hwait _
      · split
        · exact hwait _
        · exact hwait _
    · exact hwait _

/-- A stop that is not finished waits for one of its closes. -/
theorem alive_finishStop (e : Engine) (k : LevelKey) (full : Bool) (previous : Phase) (backward : Bool)
    {closings : List Closing} (h : ∀ c ∈ closings, c.Alive) :
    (e.finishStop k full previous backward closings).2.Alive := by
  by_cases hlt : (doneReports closings).length < closings.length
  · refine .inl ?_
    rw [(files_finishStop e k full previous backward closings).2.1]
    intro hnil
    refine absurd hlt ?_
    clear hlt
    induction closings with
    | nil => simp
    | cons c cs ih =>
      obtain ⟨hc, hcs⟩ := List.append_eq_nil_iff.mp hnil
      obtain ⟨report, rfl⟩ := (h c List.mem_cons_self).resolve_left fun hne => hne hc
      have hl : doneReports (.done report :: cs) = report :: doneReports cs := rfl
      rw [hl, List.length_cons, List.length_cons]
      have := ih (fun c hm => h c (List.mem_cons_of_mem _ hm)) hcs
      omega
  · refine .inr ⟨(doneReports closings).foldl (· ++ ·) .empty, ?_⟩
    unfold finishStop
    refine (congrArg Prod.snd (if_neg hlt)).trans ?_
    dsimp only
    split <;> rfl

/-- The close of a usage node is alive as the stop of its instance is. -/
theorem alive_inner {s : Stopping} (h : s.Alive) (hr : ∀ report, s = .finished report → False) (k : NodeKey)
    (removed : Bool) : (Closing.inner k removed s).Alive :=
  .inl (h.resolve_right fun ⟨report, he⟩ => hr report he)

mutual
theorem alive_pollClosing (call : CallKey) (e : Engine) : (c : Closing) → (pollClosing call e c).2.Alive
  | .done report => .inr ⟨report, rfl⟩
  | .asked k removed d report => alive_pollAsked e k removed d report
  | .inner k removed inner => by
    have hi := alive_pollStop call e inner
    unfold pollClosing
    split
    · exact alive_askToClose _ _ _ _ _
    · rename_i hne hr
      rw [hr] at hi
      exact alive_inner hi hne k removed

theorem alive_pollStop (call : CallKey) (e : Engine) : (s : Stopping) → (pollStop call e s).2.Alive
  | .finished report => .inr ⟨report, rfl⟩
  | .running k full previous backward closings => by
    have hf := alive_pollClosings call e closings
    have hb := alive_pollBackward call e closings
    unfold pollStop
    cases backward with
    | true => exact alive_finishStop _ _ _ _ _ hb
    | false => exact alive_finishStop _ _ _ _ _ hf

theorem alive_pollClosings (call : CallKey) (e : Engine) : (cs : List Closing) →
    ∀ c ∈ (pollClosings call e cs).2, c.Alive
  | [] => fun _ hc => absurd hc List.not_mem_nil
  | c :: cs => List.forall_mem_cons.mpr ⟨alive_pollClosing call e c, alive_pollClosings call _ cs⟩

theorem alive_pollBackward (call : CallKey) (e : Engine) : (cs : List Closing) →
    ∀ c ∈ (pollBackward call e cs).2, c.Alive
  | [] => fun _ hc => absurd hc List.not_mem_nil
  | c :: cs => List.forall_mem_cons.mpr ⟨alive_pollClosing call _ c, alive_pollBackward call e cs⟩
end

end Engine
end Flowgraph
