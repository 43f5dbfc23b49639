import Flowgraph.Proofs.Hooks
import Flowgraph.Proofs.Outcomes
/-! The life of a node. Its start hook comes first, its close hook at most once and last; and from the moment when it is
taken out of its level, with all that is inside it, nothing but its close hook is called. -/
namespace Flowgraph

/-- The orders of this node have been served. -/
def Book.Serves (b : Book) (n : NodeKey) : Prop := ∃ key, n ∈ (b.served key).map (·.node)

namespace Engine

variable {e e' e'' m : Engine} {k : LevelKey} {n : NodeKey} {key : CallKey} {b b' : Book} {K L : List HookCall}
  {hs ks : List Hook}

/-! ## What a step does to one node -/

/-- What a step, and what it enters in the books, means for one node, and what is called on it. -/
inductive Affects (e e' : Engine) (b b' : Book) (n : NodeKey) : List Hook → Prop
  | handles {hs : List Hook} (hh : ∀ h ∈ hs, h = .input ∨ h = .rewire) (ha : hs ≠ [] → e.IsActive n)
      (hn : n < e'.nodes.size ↔ n < e.nodes.size) (hb : b'.Serves n ↔ b.Serves n) : Affects e e' b b' n hs
  | starts (hn : e.nodes.size ≤ n) (hn' : n < e'.nodes.size) (hb : ¬b'.Serves n) : Affects e e' b b' n [.start]
  | closes (hn : n < e.nodes.size) (hn' : n < e'.nodes.size) (hb : ¬b.Serves n) (hb' : b'.Serves n) :
      Affects e e' b b' n [.close]

theorem Ledger.given_of_served (h : Ledger e b) (hn : n ∈ (b.served key).map (·.node)) :
    n ∈ (b.given key).map (·.node) := by
  cases hc : e.call? key with
  | none =>
    rw [(h.unknown key hc).2] at hn
    cases hn
  | some c =>
    refine ((h.served key c hc).map _).subset ?_
    rw [List.map_append]
    exact List.mem_append_left _ hn

theorem Ledger.gone_of_serves (h : Ledger e b) (hn : b.Serves n) : n < e.nodes.size ∧ ¬e.IsActive n := by
  obtain ⟨key, hn⟩ := hn
  exact (h.left n).mp ⟨key, h.given_of_served hn⟩

/-- Nobody is served twice. -/
theorem Ledger.served_once {given served : List Order} (h : Ledger e b) (h' : Ledger e' (b.add key given served))
    (hc : ∃ c, e'.call? key = some c) :
    (served.map (·.node)).Nodup ∧ ∀ n ∈ served.map (·.node), ¬b.Serves n ∧ (b.add key given served).Serves n := by
  obtain ⟨c, hc⟩ := hc
  have hperm := (h'.served key c hc).map (·.node)
  rw [Book.served_add_self, List.map_append, List.map_append, List.append_assoc] at hperm
  have honce := hperm.nodup_iff.mpr (h'.once key)
  have hserved := (List.nodup_append.mp honce).2.1
  refine ⟨(List.nodup_append.mp hserved).1, fun n hn => ⟨?_, key, ?_⟩⟩
  · rintro ⟨j, hj⟩
    have hjkey : j = key := by
      by_contra hne
      refine hne (h'.apart j key n ?_ (h'.given_of_served ?_))
      · rw [Book.given_add_of_ne hne]
        exact h.given_of_served hj
      · rw [Book.served_add_self, List.map_append]
        exact List.mem_append_right _ hn
    subst hjkey
    exact (List.nodup_append.mp honce).2.2 n hj n (List.mem_append_left _ hn) rfl
  · rw [Book.served_add_self, List.map_append]
    exact List.mem_append_right _ hn

/-- Orders are served; nobody comes by that. -/
theorem affects_closeCalls {given served : List Order} (h : Ledger e b) (h' : Ledger e' (b.add key given served))
    (hc : ∃ c, e'.call? key = some c) (hsize : e'.nodes.size = e.nodes.size) (n : NodeKey) :
    Affects e e' b (b.add key given served) n (hooksOf n (closeCalls served)) := by
  obtain ⟨honce, hserved⟩ := h.served_once h' hc
  rw [hooksOf_closeCalls n honce]
  split
  · rename_i hn
    obtain ⟨hbefore, hafter⟩ := hserved n hn
    have hlt := (h'.gone_of_serves hafter).1
    exact .closes (hsize ▸ hlt) hlt hbefore hafter
  · rename_i hn
    refine .handles (by simp) (fun h => absurd rfl h) (by rw [hsize]) ⟨?_, ?_⟩
    · rintro ⟨j, hj⟩
      by_cases hjkey : j = key
      · subst hjkey
        rw [Book.served_add_self, List.map_append] at hj
        exact ⟨j, (List.mem_append.mp hj).resolve_right hn⟩
      · rw [Book.served_add_of_ne hjkey] at hj
        exact ⟨j, hj⟩
    · rintro ⟨j, hj⟩
      refine ⟨j, ?_⟩
      by_cases hjkey : j = key
      · subst hjkey
        rw [Book.served_add_self, List.map_append]
        exact List.mem_append_left _ hj
      · rwa [Book.served_add_of_ne hjkey]

/-- Nobody comes or goes, and whoever is called is active. -/
theorem Stands.affects (h : Stands e e') (hK : ∀ c ∈ K, (c.hook = .input ∨ c.hook = .rewire) ∧ e.IsActive c.node)
    (n : NodeKey) : Affects e e' b b n (hooksOf n K) := by
  refine .handles (fun hook hm => ?_) (fun hne => ?_) (by rw [size_of_face h.face]) Iff.rfl
  · obtain ⟨c, hc, rfl⟩ := List.mem_map.mp hm
    exact (hK c (List.mem_filter.mp hc).1).1
  · obtain ⟨hook, hm⟩ := List.exists_mem_of_ne_nil _ hne
    obtain ⟨c, hc, -⟩ := List.mem_map.mp hm
    obtain ⟨hc, hn⟩ := List.mem_filter.mp hc
    exact of_decide_eq_true hn ▸ (hK c hc).2

/-- Whatever is given a message takes it only as long as it is active. -/
theorem Hushed.handed (h : Hushed e) {a : Action} (hq : a.isQuiet = true) :
    ∀ c ∈ e.actionCalls a, (c.hook = .input ∨ c.hook = .rewire) ∧ e.IsActive c.node := by
  intro c hc
  have hsize : (e.act a).nodes.size = e.nodes.size := size_of_face (face_of_still (quiet_act e hq).still)
  cases a with
  | hand k message =>
    simp only [actionCalls] at hc
    split at hc
    · rename_i hcancelled
      obtain ⟨node, hnode, hcancelled⟩ := Option.map_eq_some_iff.mp hcancelled
      obtain rfl := List.mem_singleton.mp hc
      exact ⟨.inl rfl, h k node hnode hcancelled⟩
    · cases hc
  | _ =>
    simp only [actionCalls, hsize, Nat.sub_self, List.range'_zero, List.map_nil] at hc
    cases hc

/-- Nobody has come or gone before. -/
theorem Stands.affects_before (h : Stands e m) (ha : Affects m e' b b' n hs) : Affects e e' b b' n hs := by
  have hsize := size_of_face h.face
  have hactive (ha : m.IsActive n) : e.IsActive n :=
    let ⟨j, id, hn⟩ := ha
    ⟨j, id, (h.active j id).symm.trans hn⟩
  cases ha with
  | handles hh ha hn hb => exact .handles hh (fun hne => hactive (ha hne)) (hsize ▸ hn) hb
  | starts hn hn' hb => exact .starts (hsize ▸ hn) hn' hb
  | closes hn hn' hb hb' => exact .closes (hsize ▸ hn) hn' hb hb'

/-- Nodes are entered and started, and everybody else is left alone. -/
theorem Retains.affects (h : Retains e e') (hb : Ledger e b) (n : NodeKey) :
    Affects e e' b b n
      (hooksOf n ((List.range' e.nodes.size (e'.nodes.size - e.nodes.size)).map fun m => ⟨m, .start⟩)) := by
  have hmem : n ∈ List.range' e.nodes.size (e'.nodes.size - e.nodes.size) ↔ e.nodes.size ≤ n ∧ n < e'.nodes.size := by
    rw [List.mem_range'_1, Nat.add_sub_cancel' h.size]
  rw [hooksOf_map n .start List.nodup_range']
  split
  · rename_i hn
    obtain ⟨hle, hlt⟩ := hmem.mp hn
    exact .starts hle hlt fun hs => Nat.not_lt_of_le hle (hb.gone_of_serves hs).1
  · rename_i hn
    refine .handles (by simp) (fun hne => absurd rfl hne) ⟨fun hlt => ?_, fun hlt => Nat.lt_of_lt_of_le hlt h.size⟩ Iff.rfl
    exact Nat.lt_of_not_le fun hle => hn (hmem.mpr ⟨hle, hlt⟩)

/-- Stops begin or go on. -/
theorem Ledger.affects (h : Ledger e b) (hl : Laid e) {c : Call} (hc : e.call? key = some c)
    {given served : List Order} {stops : List Stopping} (hd : Departs e m given)
    (hs : Serving e m (c.waiting.flatMap Stopping.orders ++ given) (stops.flatMap Stopping.orders)
      (c.waiting.flatMap (Stopping.docket e.idsOf) ++ e.idsOfOrders given)
      (stops.flatMap (Stopping.docket e.idsOf)) served)
    (hk : ∀ s ∈ stops, Known e s.nodes) (hp : Proceeds m key stops e') :
    Ledger e' (b.add key given served) ∧
      ∀ n, Affects e e' b (b.add key given served) n (hooksOf n (closeCalls served)) := by
  have h' := h.proceeds hl hc hd hs hk (calls_of_shell hd.stops.shell) hp
  obtain ⟨c', hc', -⟩ := hp.call_account ((call?_of_shell hd.stops.shell key).trans hc)
  exact ⟨h', affects_closeCalls h h' ⟨c', hc'⟩ ((size_of_face hp.stands.2).trans (size_of_face hd.stops.face))⟩

/-- Every step is entered in the books, and does to each node one of three things. -/
theorem Calls.affects (hr : Reachable e) (h : Ledger e b) (ht : Tick e e') (hK : Calls e e' K) :
    ∃ b', Ledger e' b' ∧ (∀ key n, n ∈ (b.given key).map (·.node) → n ∈ (b'.given key).map (·.node)) ∧
      ∀ n, Affects e e' b b' n (hooksOf n K) := by
  have hstands {K : List HookCall} (hst : Stands e e')
      (hK : ∀ c ∈ K, (c.hook = .input ∨ c.hook = .rewire) ∧ e.IsActive c.node) :
      ∃ b', Ledger e' b' ∧ (∀ key n, n ∈ (b.given key).map (·.node) → n ∈ (b'.given key).map (·.node)) ∧
        ∀ n, Affects e e' b b' n (hooksOf n K) := ⟨b, h.retains hst.retains, fun _ _ hn => hn, hst.affects hK⟩
  have hgiven (key : CallKey) (given served : List Order) (j : CallKey) (n : NodeKey) :
      n ∈ (b.given j).map (·.node) → n ∈ ((b.add key given served).given j).map (·.node) :=
    fun hn => Book.mem_given_add.mpr (.inl hn)
  cases hK with
  | between ha =>
    refine hstands (.still ?_) (by simp)
    rcases ht.kinds with ⟨hs, -⟩ | ⟨_, -, hs, -⟩ | ⟨a, agenda, -, -, ha', -⟩
    · exact hs
    · exact hs
    · rw [ha] at ha'
      cases ha'
  | time moment he => exact hstands (.still (he ▸ (quiet_moveTo e moment).still)) (by simp)
  | @acts a agenda ha hne he =>
    subst he
    cases hq : a.isQuiet with
    | true =>
      have hh : Hushed { e with agenda } := hr.hushed.of_stands (stands_agenda e agenda) fun _ => rfl
      exact hstands ((stands_agenda e agenda).trans (.still (quiet_act _ hq).still)) (hh.handed hq)
    | false =>
      obtain ⟨hm, hret⟩ := hr.retains_act ha hq hne
      refine ⟨b, h.retains ((stands_agenda e agenda).retains.trans hret), fun _ _ hn => hn, fun n => ?_⟩
      have hcalls : ({ e with agenda } : Engine).actionCalls a = (List.range' e.nodes.size
          ((Engine.act { e with agenda } a).nodes.size - e.nodes.size)).map fun m => ⟨m, .start⟩ := by
        cases a with
        | hand k message => cases hm
        | _ => rfl
      rw [hcalls]
      exact (stands_agenda e agenda).affects_before (hret.affects (h.retains (stands_agenda e agenda).retains) n)
  | @rests key agenda ha hc he =>
    subst he
    have hresumes := resumes_resume { e with agenda } key
    change Resumes { e with agenda } key (Engine.act { e with agenda } (.resume key)) at hresumes
    generalize Engine.act { e with agenda } (.resume key) = e' at hresumes hstands ⊢
    refine hstands ?_ (by simp)
    cases hresumes with
    | unknown => exact stands_agenda e agenda
    | ends => exact (stands_agenda e agenda).trans (.modifyCall _ _ _ fun _ => ⟨rfl, rfl⟩)
    | stage hc' _ hs =>
      rw [(hc _ hc').2] at hs
      cases hs
    | waits hc' hw => exact absurd (hc _ hc').1 hw
  | @stage key agenda c stage stages ha hc hw hs hrq he =>
    have hplan := hr.accounted.orderly
    rw [plan_pop ha rfl] at hplan
    rw [act_resume hc hw hs] at he
    subst he
    refine hstands ((stands_taken e key agenda stages).trans
      (stands_runStage (e := e.taken key agenda stages) hplan key ((requests?_taken _ _ _ _).trans hrq)).1)
      fun call hm => ?_
    obtain ⟨hrewires, j, id, hn⟩ := stageCalls_active stage call hm
    exact ⟨.inr hrewires, j, id, hn⟩
  | @begins key agenda c stage stages requests given served ha hc hw hs hrq ho he =>
    have hst := stands_taken e key agenda stages
    have hlaid := hr.layout.laid.taken key agenda stages
    obtain ⟨stops, -, -, hstops, -, hk⟩ := opening_beginStops key requests (e.taken key agenda stages, []) hlaid
      (hst.housed hr.books.1.housed)
    rw [List.nil_append] at hstops
    rw [hstops] at ho
    have hp := proceeds_afterStops (beginStops key (e.taken key agenda stages, []) requests).1 key stops
    rw [← hstops, ← stopAll_eq, ← runStage_of_requests? ((requests?_taken key agenda stages stage).trans hrq),
      ← act_resume hc hw hs, ← he, hstops] at hp
    obtain ⟨hb, haffects⟩ := (h.retains hst.retains).affects hlaid (call?_taken hc agenda stages) (ho.departs hlaid)
      (by simpa only [hw, List.flatMap_nil, List.nil_append] using ho.serving) hk hp
    exact ⟨_, hb, hgiven _ _ _, fun n => hst.affects_before (haffects n)⟩
  | @goesOn key agenda c served ha hc hw hserving he =>
    have hst := stands_agenda e agenda
    have hlaid : Laid ({ e with agenda } : Engine) := hr.layout.laid.of_levels (.of_eq rfl rfl rfl rfl) fun _ => rfl
    obtain ⟨stops, -, hstops, -, hnodes⟩ := serving_pollStops key c.waiting ({ e with agenda }, [])
    rw [List.nil_append] at hstops
    rw [hstops] at hserving
    have hwithin : StopsWithin (fun _ _ => ¬True) ({ e with agenda } : Engine)
        (pollStops key ({ e with agenda }, []) c.waiting).1 :=
      stopsWithin_pollStops key ({ e with agenda }, []) c.waiting
    have hspares : Spares (fun _ _ => True) ({ e with agenda } : Engine)
        (pollStops key ({ e with agenda }, []) c.waiting).1 := hwithin.spares hlaid.placed
    have hp := proceeds_afterStops (pollStops key ({ e with agenda }, []) c.waiting).1 key stops
    rw [← hstops, ← pollAll_eq, ← act_pollAll agenda hc hw, ← he, hstops] at hp
    have hknown (stop : Stopping) (hm : stop ∈ stops) : Known { e with agenda } stop.nodes := fun n hn =>
      let ⟨before, hbefore, hsub⟩ := hnodes stop hm
      h.known key c hc before hbefore n (hsub hn)
    have hserving' : Serving ({ e with agenda } : Engine) (pollStops key ({ e with agenda }, []) c.waiting).1
        (c.waiting.flatMap Stopping.orders ++ []) (stops.flatMap Stopping.orders)
        (c.waiting.flatMap (Stopping.docket e.idsOf) ++ []) (stops.flatMap (Stopping.docket e.idsOf)) served := by
      rw [List.append_nil, List.append_nil]
      exact hserving
    obtain ⟨hb, haffects⟩ := (h.retains hst.retains).affects hlaid hc
      (.nobody hserving.stops fun j id => hspares.active j id trivial)
      hserving' hknown hp
    exact ⟨_, hb, hgiven _ _ _, fun n => hst.affects_before (haffects n)⟩

/-! ## What is inside leaves with its usage node -/

/-- A stop that takes a usage node out takes everything in its instance out. -/
theorem takes_inside {r : StopRequest} {u id : NodeId} {i j : LevelKey} {removed : Bool} (ht : r.Takes e k u removed)
    (hi : e.instance? k u = some i) (hin : e.Inside i j) : r.Takes e j id removed := by
  cases ht with
  | own hc => exact .nested hc hi hin
  | nested hc hi' hin' => exact .nested hc hi' (hin'.trans (.of_instance hi hin))

section Opening
variable {r : StopRequest} {requests : List StopRequest} {s : Stopping} {stops : List Stopping}
  {given served : List Order} {u id : NodeId} {i j : LevelKey}

/-- What is inside an instance still is when a stop has begun, or has been emptied. -/
theorem Commences.inside_or_emptied (h : Commences e r m s given served) (hin : e.Inside i j) :
    m.Inside i j ∨ ∀ j' id, e.Inside j j' → m.activeKey? j' id = none := by
  induction hin with
  | here => exact .inl .here
  | @deeper j j₁ u hin hi ih =>
    rcases ih with ih | ih
    · by_cases ht : ∃ removed, r.Takes e j u removed
      · obtain ⟨removed, ht⟩ := ht
        exact .inr fun j' id hin' => (h.emptied j' id removed (takes_inside ht hi hin')).1
      · exact .inl (.deeper ih ((h.spares.inst j u fun removed ht' => ht ⟨removed, ht'⟩).trans hi))
    · exact .inr fun j' id hin' => ih j' id (.of_instance hi hin')

/-- When a usage node has been taken out, nothing is active any more in its instance. -/
theorem Opening.emptied (h : Opening e requests e' stops given served) (hl : Laid e) (hn : e.activeKey? k u = some n)
    (hi : e.instance? k u = some i) (hgone : e'.activeKey? k u = none) (hin : e.Inside i j) :
    e'.activeKey? j id = none := by
  induction h with
  | nil =>
    rw [hn] at hgone
    cases hgone
  | @cons e m e' r rs s stops given given' served served' h hs ih =>
    have hlaid := h.stops.laid hl
    have hdw : Dwindles m e' := (hs.departs hlaid).stops.dwindles hlaid
    by_cases ht : ∃ removed, r.Takes e k u removed
    · obtain ⟨removed, ht⟩ := ht
      exact hdw.none_of_none (h.emptied j id removed (takes_inside ht hi hin)).1
    · have hkept : ∀ removed, ¬r.Takes e k u removed := fun removed ht' => ht ⟨removed, ht'⟩
      rcases h.inside_or_emptied hin with hin | hempty
      · exact ih hlaid ((h.spares.active k u hkept).trans hn) ((h.spares.inst k u hkept).trans hi) hgone hin
      · exact hdw.none_of_none (hempty j id .here)

end Opening

theorem activeKey?_of_not_isActive {id : NodeId} (hsub : ∀ n, e'.activeKey? k id = some n → e.activeKey? k id = some n)
    (hn : e.activeKey? k id = some n) (hgone : ¬e'.IsActive n) : e'.activeKey? k id = none := by
  cases hn' : e'.activeKey? k id with
  | none => rfl
  | some n' =>
    obtain rfl := Option.some.inj ((hsub n' hn').symm.trans hn)
    exact absurd ⟨k, id, hn'⟩ hgone

/-- A step in which a usage node leaves takes out everything in its instance. -/
theorem Reachable.nested_leave (hr : Reachable e) (ht : Tick e e') {u id : NodeId} {i j : LevelKey} {n' : NodeKey}
    (hn : e.activeKey? k u = some n) (hi : e.instance? k u = some i) (hgone : ¬e'.IsActive n) (hin : e.Inside i j)
    (hn' : e.activeKey? j id = some n') : ¬e'.IsActive n' := by
  obtain ⟨hreg, b, hb⟩ := hr.books
  obtain ⟨b', hentry, -⟩ := hb.tick hr hreg ht
  cases hentry with
  | nothing h => exact absurd ((h.active n (hr.layout.laid.activeKey?_lt hn)).mpr ⟨k, u, hn⟩) hgone
  | goesOn _ _ _ _ hspares hp =>
    exact absurd ⟨k, u, (hp.stands.1 k u).trans ((hspares.active k u trivial).trans hn)⟩ hgone
  | @begins key c agenda stage stages requests m stops given served _ _ _ _ _ ho hp =>
    have hst := stands_taken e key agenda stages
    have hlaid := hr.layout.laid.taken key agenda stages
    have hdw : Dwindles (e.taken key agenda stages) m := (ho.departs hlaid).stops.dwindles hlaid
    have hsub (j : LevelKey) (id : NodeId) (x : NodeKey) (h : e'.activeKey? j id = some x) :
        e.activeKey? j id = some x :=
      (hst.active j id).symm.trans (hdw.active j id x ((hp.stands.1 j id).symm.trans h))
    have hin' : (e.taken key agenda stages).Inside i j :=
      Dwindles.inside ⟨fun j id _ h => (hst.active j id).trans h, fun j id _ h => (hst.inst j id).trans h⟩ hin
    have hnone : e'.activeKey? j id = none := by
      rw [hp.stands.1]
      refine ho.emptied hlaid ((hst.active k u).trans hn) ((hst.inst k u).trans hi) ?_ hin'
      rw [← hp.stands.1]
      exact activeKey?_of_not_isActive (hsub k u) hn hgone
    rintro ⟨j', id', hact⟩
    obtain ⟨rfl, rfl⟩ := hr.layout.laid.activeKey?_inj (hsub j' id' n' hact) hn'
    rw [hact] at hnone
    cases hnone

/-! ## Whole runs -/

/-- What comes of an engine, whatever is asked of it meanwhile, and the hooks that are called, in their order. -/
inductive Traced (e : Engine) : List HookCall → Engine → Prop
  | refl : Traced e [] e
  | tick {s s' : Engine} {L K : List HookCall} (h : Traced e L s) (ht : Tick s s') (hK : Calls s s' K) :
      Traced e (L ++ K) s'
  | input {s s' : Engine} {L : List HookCall} (h : Traced e L s) (ha : s.agenda = []) (hi : Input s s') : Traced e L s'

theorem Traced.reachable (h : Traced e L e') (hr : Reachable e) : Reachable e' := by
  induction h with
  | refl => exact hr
  | tick _ ht _ ih => exact ih.tick ht
  | input _ ha hi ih => exact ih.input ha hi

/-- Everything that can come about comes about with a list of the hooks that have been called. -/
theorem Reachable.traced (h : Reachable e) : ∃ r o s v t L, Traced (Engine.make r o s v t) L e := by
  induction h with
  | make r o s v t => exact ⟨r, o, s, v, t, [], .refl⟩
  | tick hr ht ih =>
    obtain ⟨r, o, s, v, t, L, h⟩ := ih
    obtain ⟨K, hK⟩ := ht.calls hr
    exact ⟨r, o, s, v, t, _, h.tick ht hK⟩
  | input _ ha hi ih =>
    obtain ⟨r, o, s, v, t, L, h⟩ := ih
    exact ⟨r, o, s, v, t, L, h.input ha hi⟩

/-- A node that is active is handed messages and rewired, and nothing else. -/
def Handling (hs : List Hook) : Prop := ∀ h ∈ hs, h = .input ∨ h = .rewire

/-- The hooks of one node in the order in which they may be called, as the books have it. -/
inductive Lawful (e : Engine) (b : Book) (n : NodeKey) : List Hook → Prop
  | unborn (hn : e.nodes.size ≤ n) : Lawful e b n []
  | living {hs : List Hook} (hn : n < e.nodes.size) (hb : ¬b.Serves n) (hh : Handling hs) : Lawful e b n (.start :: hs)
  | closed {hs : List Hook} (hb : b.Serves n) (hh : Handling hs) : Lawful e b n (.start :: hs ++ [.close])

theorem Lawful.affects (h : Lawful e b n hs) (hl : Laid e) (hb : Ledger e b) (ha : Affects e e' b b' n ks) :
    Lawful e' b' n (hs ++ ks) := by
  have hidle (hne : ¬e.IsActive n) (ha : ks ≠ [] → e.IsActive n) : ks = [] := by
    by_contra hks
    exact hne (ha hks)
  cases h with
  | unborn hn =>
    cases ha with
    | handles _ ha hn' _ =>
      rw [hidle (fun ⟨_, _, h⟩ => Nat.not_lt_of_le hn (hl.activeKey?_lt h)) ha]
      exact .unborn (Nat.le_of_not_lt fun h => Nat.not_lt_of_le hn (hn'.mp h))
    | starts _ hn' hb' => exact .living hn' hb' (by simp [Handling])
    | closes hn' => exact absurd hn' (Nat.not_lt_of_le hn)
  | living hn hb hh =>
    cases ha with
    | handles hh' _ hn' hb' =>
      refine .living (hn'.mpr hn) (fun h => hb (hb'.mp h)) fun h hm => ?_
      exact (List.mem_append.mp hm).elim (hh h) (hh' h)
    | starts hn' => exact absurd hn (Nat.not_lt_of_le hn')
    | closes _ _ _ hb' => exact .closed hb' hh
  | closed hb₀ hh =>
    have hgone := hb.gone_of_serves hb₀
    cases ha with
    | handles _ ha _ hb' =>
      rw [hidle hgone.2 ha, List.append_nil]
      exact .closed (hb'.mpr hb₀) hh
    | starts hn' => exact absurd hgone.1 (Nat.not_lt_of_le hn')
    | closes _ _ hb' => exact absurd hb₀ hb'

/-- Nobody is made by what is asked between two turns. -/
theorem Input.size (hi : Input e e') : e'.nodes.size = e.nodes.size := by
  cases hi with
  | call => exact size_of_face fun n => by rw [node?_begin]
  | quiet hq => exact size_of_face (face_of_still hq.still)
  | _ => rfl

theorem Lawful.input (h : Lawful e b n hs) (hsize : e'.nodes.size = e.nodes.size) : Lawful e' b n hs := by
  cases h with
  | unborn hn => exact .unborn (hsize ▸ hn)
  | living hn hb hh => exact .living (hsize ▸ hn) hb hh
  | closed hb hh => exact .closed hb hh

theorem Traced.lawful {r : Registry} {o : Outside} {s : Dict Json} {v : Dict String} {t : Nat}
    (h : Traced (make r o s v t) L e) : ∃ b, Ledger e b ∧ ∀ n, Lawful e b n (hooksOf n L) := by
  induction h with
  | refl => exact ⟨.blank, ledger_make r o s v t, fun n => .unborn (Nat.zero_le n)⟩
  | tick h ht hK ih =>
    have hr := h.reachable (.make r o s v t)
    obtain ⟨b, hb, hlawful⟩ := ih
    obtain ⟨b', hb', -, haffects⟩ := hK.affects hr hb ht
    exact ⟨b', hb', fun n => hooksOf_append n _ _ ▸ (hlawful n).affects hr.layout.laid hb (haffects n)⟩
  | input h _ hi ih =>
    have hr := h.reachable (.make r o s v t)
    obtain ⟨b, hb, hlawful⟩ := ih
    exact ⟨b, hb.input hr.keysBelow hi, fun n => (hlawful n).input hi.size⟩

/-- The hooks of one node in the order in which they may be called. -/
inductive Follows (e : Engine) (n : NodeKey) : List Hook → Prop
  /-- There is no such node yet. -/
  | unborn (hn : e.nodes.size ≤ n) : Follows e n []
  | living {hs : List Hook} (hn : n < e.nodes.size) (hh : Handling hs) : Follows e n (.start :: hs)
  | closed {hs : List Hook} (hn : n < e.nodes.size) (ha : ¬e.IsActive n) (hh : Handling hs) :
      Follows e n (.start :: hs ++ [.close])

theorem Lawful.follows (h : Lawful e b n hs) (hb : Ledger e b) : Follows e n hs := by
  cases h with
  | unborn hn => exact .unborn hn
  | living hn _ hh => exact .living hn hh
  | closed hs hh => exact .closed (hb.gone_of_serves hs).1 (hb.gone_of_serves hs).2 hh

/-- Whoever has been taken out is asked to close, at most, and does not come back. -/
theorem Traced.gone (h : Traced e K e') (hr : Reachable e) (hn : n < e.nodes.size) (hgone : ¬e.IsActive n) :
    ¬e'.IsActive n ∧ ∀ hook ∈ hooksOf n K, hook = .close := by
  obtain ⟨-, b₀, hb₀⟩ := hr.books
  suffices h : ∃ b, Ledger e' b ∧ (∃ key, n ∈ (b.given key).map (·.node)) ∧ ∀ hook ∈ hooksOf n K, hook = .close by
    obtain ⟨b, hb, hgiven, hclose⟩ := h
    exact ⟨((hb.left n).mp hgiven).2, hclose⟩
  induction h with
  | refl => exact ⟨b₀, hb₀, (hb₀.left n).mpr ⟨hn, hgone⟩, by simp [hooksOf]⟩
  | @tick s s' L K h ht hK ih =>
    obtain ⟨b, hb, ⟨key, hgiven⟩, hclose⟩ := ih
    have hr' := h.reachable hr
    obtain ⟨b', hb', hmono, haffects⟩ := hK.affects hr' hb ht
    refine ⟨b', hb', ⟨key, hmono key n hgiven⟩, fun hook hm => ?_⟩
    obtain ⟨hlt, hgone'⟩ := (hb.left n).mp ⟨key, hgiven⟩
    rw [hooksOf_append] at hm
    rcases List.mem_append.mp hm with hm | hm
    · exact hclose hook hm
    · have haffects := haffects n
      generalize hooksOf n K = ks at haffects hm
      cases haffects with
      | handles _ ha => exact absurd (ha (List.ne_nil_of_mem hm)) hgone'
      | starts hn' => exact absurd hlt (Nat.not_lt_of_le hn')
      | closes => exact List.mem_singleton.mp hm
  | input h _ hi ih =>
    obtain ⟨b, hb, hgiven, hclose⟩ := ih
    exact ⟨b, hb.input (h.reachable hr).keysBelow hi, hgiven, hclose⟩

/-- The life of every node is in order, whatever is asked of an engine. Its start hook comes first and once; then it is
handed messages and rewired, as long as it is active; and its close hook comes once at most, when it is not active any
more. Whoever has been taken out never comes back, and nothing is called on it any more but its close hook. And the
step in which a usage node leaves takes out everything inside its instance. -/
theorem hooks_follow_protocol (h : Reachable e) :
    (∃ r o s v t L, Traced (make r o s v t) L e) ∧
    (∀ r o s v t L, Traced (make r o s v t) L e → ∀ n, Follows e n (hooksOf n L)) ∧
    (∀ n < e.nodes.size, ¬e.IsActive n → ∀ K e', Traced e K e' →
      ¬e'.IsActive n ∧ ∀ hook ∈ hooksOf n K, hook = .close) ∧
    ∀ e', Tick e e' → (∃ K, Calls e e' K) ∧ ∀ k u n inst, e.activeKey? k u = some n → e.instance? k u = some inst →
      ¬e'.IsActive n → ∀ j id n', e.Inside inst j → e.activeKey? j id = some n' → ¬e'.IsActive n' := by
  refine ⟨h.traced, fun r o s v t L hL n => ?_, fun n hn hgone K e' hK => hK.gone h hn hgone,
    fun e' ht => ⟨ht.calls h, fun k u n inst hn hi hgone j id n' hin hn' => h.nested_leave ht hn hi hgone hin hn'⟩⟩
  obtain ⟨b, hb, hlawful⟩ := hL.lawful
  exact (hlawful n).follows hb

end Engine

namespace Session
open Engine

/-- The deletion of the usage node has begun. -/
def usageGone : Engine := Engine.act { usageTurn with agenda := [] } (.resume usageFlow.engine.nextCall)

/-- Both nodes of the instance have left with their usage node, and whatever is asked from then on, nothing is called on
them but their close hooks. -/
theorem deleted_usage_node_silenced : (¬usageGone.IsActive 0 ∧ ¬usageGone.IsActive 1) ∧
    ∀ K e', Traced usageGone K e' → ∀ hook ∈ hooksOf 0 K ++ hooksOf 1 K, hook = .close := by
  obtain ⟨⟨ha, hb, ha', hw, hb'⟩, hu, hi, h₀, h₁⟩ := usageTurn_run
  have hr : Reachable usageTurn := by
    rw [usageTurn]
    exact (reachable_usageFlow.input ha (.call (.stop _))).tick (tick_turn hb ha' hw)
  have hagenda : usageTurn.agenda = [.resume usageFlow.engine.nextCall] := by
    rw [usageTurn, agenda_turnOf ha']
  have hc : usageTurn.call? usageFlow.engine.nextCall = some (.make [.stop usageStop] usageFlow.engine.now) := by
    rw [usageTurn, call?_turnOf, call?_begin reachable_usageFlow.keysBelow, if_pos rfl]
  have ht : Tick usageTurn usageGone := .act hb' hagenda
  have hgone : ¬usageGone.IsActive 2 := by
    obtain ⟨b, hbooks⟩ := hr.books.2
    obtain ⟨m, stops, given, served, -, -, ho, hp, -⟩ := closes_begin hr hbooks hc rfl rfl rfl []
    have hst := stands_taken usageTurn usageFlow.engine.nextCall [] []
    have hgiven : (⟨2, true⟩ : Order) ∈ given := by
      refine ho.mem_given ((hst.active 0 "u").trans hu) (.own fun ids hids => ?_)
      cases hids
      exact List.mem_cons_self
    have hleft := ((ho.departs (hr.layout.laid.taken _ _ _)).left 2).mp (List.mem_map_of_mem hgiven)
    rintro ⟨j, id, hn⟩
    exact hleft.2 ⟨j, id, (hp.stands.1 j id).symm.trans hn⟩
  have hinner {n : NodeKey} (hn : ((usageTurn.node? n).bind fun node => usageTurn.activeKey? 1 node.id) = some n) :
      n < usageGone.nodes.size ∧ ¬usageGone.IsActive n := by
    obtain ⟨node, hnode, hact⟩ := Option.bind_eq_some_iff.mp hn
    obtain ⟨node', hnode', -⟩ := ht.grows.node n node hnode
    exact ⟨node?_lt usageGone n hnode',
      ((hooks_follow_protocol hr).2.2.2 _ ht).2 0 "u" 2 1 hu hi hgone 1 node.id n .here hact⟩
  have hsilent {n : NodeKey} (hn : n < usageGone.nodes.size ∧ ¬usageGone.IsActive n) :
      ∀ K e', Traced usageGone K e' → ∀ hook ∈ hooksOf n K, hook = .close := fun K e' hK =>
    ((hooks_follow_protocol (hr.tick ht)).2.2.1 n hn.1 hn.2 K e' hK).2
  refine ⟨⟨(hinner h₀).2, (hinner h₁).2⟩, fun K e' hK hook hm => ?_⟩
  rcases List.mem_append.mp hm with hm | hm
  · exact hsilent (hinner h₀) K e' hK hook hm
  · exact hsilent (hinner h₁) K e' hK hook hm

end Session
end Flowgraph
