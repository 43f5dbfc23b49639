import Flowgraph.Proofs.Punctual
/-! What comes of each close. The outcome of a node depends on nothing but its own signal and the deadline of the stop,
however many nodes there are beside it and however deep it is inside. -/
namespace Flowgraph
namespace Engine

variable {e e' m : Engine} {key : CallKey} {c : Call} {b : Book} {agenda : List Action} {stage : Stage}
  {stages : List Stage} {requests : List StopRequest}

/-! ## The beginning of a stop stage -/

/-- Whom the first of several stops takes out has its order. -/
theorem Opening.mem_given {r : StopRequest} {stops : List Stopping} {given served : List Order} {o : Order}
    {j : LevelKey} {id : NodeId} (h : Opening e (r :: requests) e' stops given served)
    (ha : e.activeKey? j id = some o.node) (ht : r.Takes e j id o.removed) : o ∈ given := by
  cases h with
  | cons h _ => exact List.mem_append_left _ ((h.given o).mpr ⟨j, id, ha, ht⟩)

theorem call?_taken (hc : e.call? key = some c) (agenda : List Action) (stages : List Stage) :
    (e.taken key agenda stages).call? key = some { c with stages } := by
  rw [taken, call?_modifyCall, if_pos rfl]
  exact congrArg (Option.map _) hc

/-- When a stop stage begins, every node that it takes out is asked, and those that have nothing to wait for are judged
at once. -/
theorem closes_open (hl : Laid e) (hh : Housed e) (hm : Manned e) (hc : e.call? key = some c)
    (hw : c.waiting = []) (hs : c.stages = stage :: stages)
    (hrq : stage.requests? e = some requests) (agenda : List Action) :
    ∃ m stops given served c' js,
      Opening (e.taken key agenda stages) requests m stops given served ∧
      Proceeds m key stops (Engine.act { e with agenda } (.resume key)) ∧
      (∀ stop ∈ stops, Known (e.taken key agenda stages) stop.nodes) ∧
      (∀ o ∈ stops.flatMap Stopping.orders, e.StandsIn o.node) ∧
      (Engine.act { e with agenda } (.resume key)).now = e.now ∧
      Closes e.dueNow key e given c.report.tally (Engine.act { e with agenda } (.resume key)) c' js ∧
      c'.stages = stages ∧ ∀ j ∈ js, Judges e.dueNow e (Engine.act { e with agenda } (.resume key)) j.1 j.2 := by
  have hst := stands_taken e key agenda stages
  have hlaid := hl.taken key agenda stages
  obtain ⟨stops, given, served, hstops, ho, ⟨js, hj, ht⟩, hstop, hlate⟩ := asks_beginStops key requests
    (e.taken key agenda stages, []) hlaid (hst.housed hh) (hm.stands hst)
  rw [List.nil_append] at hstops
  have hd := ho.departs hlaid
  have hact : Engine.act { e with agenda } (.resume key) =
      (beginStops key (e.taken key agenda stages, []) requests).1.afterStops key stops := by
    rw [act_resume hc hw hs, runStage_of_requests? ((requests?_taken _ _ _ _).trans hrq), stopAll_eq, hstops]
  have hp := proceeds_afterStops (beginStops key (e.taken key agenda stages, []) requests).1 key stops
  have hcall' : (beginStops key (e.taken key agenda stages, []) requests).1.call? key = some { c with stages } :=
    (call?_of_shell hd.stops.shell key).trans (call?_taken hc agenda stages)
  have honce : ((stops.flatMap Stopping.pending).map (·.node)).Nodup := by
    have hperm := hj.orders.map (·.node)
    rw [List.map_append] at hperm
    exact (List.nodup_append.mp (hperm.nodup_iff.mpr hd.once)).2.1
  have hunderway : Pursued e.dueNow key (beginStops key (e.taken key agenda stages, []) requests).1
      (stops.flatMap Stopping.pending) (stops.flatMap Stopping.orders) (stops.flatMap Stopping.deadlines) :=
    ⟨honce, fun o hm hb => hj.calm o hm ((hd.stops.blowsUp_iff o).mp hb), fun o hm => hd.stops.standsIn (hlate o hm),
      fun a hm => (hj.left a hm).1⟩
  have htally : c.report.tally + (stops.map Stopping.tally).sum = c.report.tally + e.entries js := by
    rw [ht, zero_add]
    rfl
  have hnow : (beginStops key (e.taken key agenda stages, []) requests).1.now ≤ e.dueNow :=
    hj.tranquil.now.le.trans (Nat.le_add_right _ _)
  obtain ⟨c', hc', hstages⟩ := Closes.takeUp hcall' hj.orders htally hunderway hj.within (fun a hm => (hj.left a hm).2)
    (fun stop hm => (hstop stop hm).1) hnow
  have htranquil : Tranquil [] (beginStops key (e.taken key agenda stages, []) requests).1
      ((beginStops key (e.taken key agenda stages, []) requests).1.afterStops key stops) := tranquil_afterStops _ _ _
  rw [hact]
  exact ⟨_, stops, given, served, c', js, ho, hp, fun stop hm => (hstop stop hm).2, hlate,
    htranquil.now.trans hj.tranquil.now, hc', hstages,
    fun j hm => ((hj.right j hm).after htranquil).of_nodes rfl rfl⟩

/-- The beginning of a stop stage is entered in the books. -/
theorem closes_begin (hr : Reachable e) (hb : Ledger e b) (hc : e.call? key = some c)
    (hw : c.waiting = []) (hs : c.stages = stage :: stages)
    (hrq : stage.requests? e = some requests) (agenda : List Action) :
    ∃ m stops given served c' js,
      Opening (e.taken key agenda stages) requests m stops given served ∧
      Proceeds m key stops (Engine.act { e with agenda } (.resume key)) ∧
      (∀ o ∈ stops.flatMap Stopping.orders, e.StandsIn o.node) ∧
      Ledger (Engine.act { e with agenda } (.resume key)) (b.add key given served) ∧
      (Engine.act { e with agenda } (.resume key)).now = e.now ∧
      Closes e.dueNow key e given c.report.tally (Engine.act { e with agenda } (.resume key)) c' js ∧
      c'.stages = stages ∧ ∀ j ∈ js, Judges e.dueNow e (Engine.act { e with agenda } (.resume key)) j.1 j.2 := by
  obtain ⟨m, stops, given, served, c', js, ho, hp, hknown, hlate, hnow, hc', hstages, hjs⟩ :=
    closes_open hr.layout.laid hr.books.1.housed hr.manned hc hw hs hrq agenda
  have hlaid := hr.layout.laid.taken key agenda stages
  have hd := ho.departs hlaid
  have hledger : Ledger (Engine.act { e with agenda } (.resume key)) (b.add key given served) := by
    refine (hb.retains (stands_taken e key agenda stages).retains).proceeds hlaid (call?_taken hc agenda stages) hd ?_
      hknown (calls_of_shell hd.stops.shell) hp
    simp only [hw, List.flatMap_nil, List.nil_append]
    exact ho.serving
  exact ⟨m, stops, given, served, c', js, ho, hp, hlate, hledger, hnow, hc', hstages, hjs⟩

/-! ## Runs -/

/-- A run of so many steps, in which time does not run away and nothing breaks. -/
structure Runs (run : Nat → Engine) (n : Nat) : Prop where
  step : ∀ i < n, Prompt (run i) (run (i + 1))
  unbroken : ∀ i ≤ n, (run i).broken = false

namespace Runs

variable {run : Nat → Engine} {n i j : Nat}

theorem reachable (h : Runs run n) (hr : Reachable (run 0)) (hi : i ≤ n) : Reachable (run i) := by
  induction i with
  | zero => exact hr
  | succ i ih => exact (h.step i hi).reachable (ih (Nat.le_of_succ_le hi))

theorem now_le (h : Runs run n) (hij : i ≤ j) (hj : j ≤ n) : (run i).now ≤ (run j).now := by
  induction j, hij using Nat.le_induction with
  | base => exact Nat.le_refl _
  | succ j _ ih => exact (ih (Nat.le_of_succ_le hj)).trans (h.step j hj).now_le

/-- Signals stay. -/
theorem kept (h : Runs run n) (hr : Reachable (run 0)) {k : NodeKey} {r : CloseResult} (hij : i ≤ j) (hj : j ≤ n)
    (hs : (run i).signal? k = some r) : (run j).signal? k = some r := by
  induction j, hij using Nat.le_induction with
  | base => exact hs
  | succ j _ ih =>
    have hjn := Nat.le_of_succ_le hj
    exact (h.step j hj).kept (h.reachable hr hjn) (h.unbroken _ hj) (ih hjn)

end Runs

/-- The verdict on a node is what the node itself deserves: a close hook that blows up is a failure, a signal before the
deadline decides, and a node that has not signalled until the deadline runs out of time. -/
structure Deserves (D : Nat) (run : Nat → Engine) (n : Nat) (o : Order) (v : Verdict) : Prop where
  blownUp : (run 0).BlowsUp o → v = .panicked
  inTime : ¬(run 0).BlowsUp o → ∀ i ≤ n, ∀ r, (run i).now < D → (run i).signal? o.node = some r → v = .ofResult r
  late : ¬(run 0).BlowsUp o → (∀ i ≤ n, (run i).now ≤ D → (run i).signal? o.node = none) → v = .timedOut

/-- A node that is judged at some moment of a run gets what it deserves. -/
theorem Judges.deserves {run : Nat → Engine} {n i : Nat} {D : Nat} {o : Order} {v : Verdict}
    (h : Judges D m (run i) o v) (hrun : Runs run n) (hr : Reachable (run 0)) (hi : i ≤ n) (hD : (run i).now ≤ D)
    (hknown : (m.node? o.node).isSome = true) (hblows : (run 0).BlowsUp o ↔ m.BlowsUp o)
    (hover : D ≤ m.now → m.signal? o.node = none → ∀ j ≤ n, (run j).now < D → (run j).signal? o.node = none) :
    Deserves D run n o v := by
  cases h with
  | @signalled r hq hs =>
    refine ⟨fun hb => absurd (hblows.mp hb) hq, fun _ j hj r' _ hs' => ?_, fun _ hnone => ?_⟩
    · rcases Nat.le_total i j with hij | hji
      · rw [Option.some.inj ((hrun.kept hr hij hj hs).symm.trans hs')]
      · rw [Option.some.inj (hs.symm.trans (hrun.kept hr hji hi hs'))]
    · cases hs.symm.trans (hnone i hi hD)
  | overdue hq hd hs =>
    refine ⟨fun hb => absurd (hblows.mp hb) hq, fun _ j hj r hlt hs' => ?_, fun _ _ => rfl⟩
    cases hs'.symm.trans (hover hd hs j hj hlt)
  | blownUp hb => exact ⟨fun _ => rfl, fun hq => absurd (hblows.mpr hb) hq, fun hq => absurd (hblows.mpr hb) hq⟩
  | nobody hn =>
    rw [hn] at hknown
    cases hknown

/-- The call has been waiting for its stops all the time. -/
def KeepsWaiting (run : Nat → Engine) (key : CallKey) (n : Nat) : Prop :=
  ∀ i < n, ∃ c, (run i).call? key = some c ∧ c.waiting ≠ []

/-- A stop stage goes on, step by step. All verdicts are deserved, and time is not over before the stage is. -/
theorem Closes.run {run : Nat → Engine} {n i : Nat} {D : Nat} {s : Engine} {given : List Order} {base : Tally}
    {js : List (Order × Verdict)} (h : Closes D key s given base (run 0) c js) (hrun : Runs run n)
    (hr : Reachable (run 0)) (hb : Ledger (run 0) b) (hgiven : ∀ o ∈ given, o ∈ b.given key) (hg : Grows s (run 0))
    (hk : ∀ o ∈ given, o.node < s.nodes.size) (hjs : ∀ j ∈ js, Deserves D run n j.1 j.2) (hi : i ≤ n)
    (hw : KeepsWaiting run key i) : ∃ c' js' b', Closes D key s given base (run i) c' js' ∧ c'.stages = c.stages ∧
      (∀ j ∈ js', Deserves D run n j.1 j.2) ∧ Ledger (run i) b' ∧ (∀ o ∈ given, o ∈ b'.given key) ∧
      Grows (run 0) (run i) := by
  induction i with
  | zero => exact ⟨c, js, b, h, rfl, hjs, hb, hgiven, .refl _⟩
  | succ i ih =>
    have hin : i ≤ n := Nat.le_of_succ_le hi
    obtain ⟨c', js', b', h', hstages, hjs', hb', hgiven', hg'⟩ := ih hin fun j hj => hw j (Nat.lt_succ_of_lt hj)
    have hri := hrun.reachable hr hin
    obtain ⟨c₁, hc₁, hw₁⟩ := hw i (Nat.lt_succ_self i)
    obtain rfl := Option.some.inj (hc₁.symm.trans h'.call)
    obtain ⟨c'', ks, hc'', hstages', hks⟩ := h'.step hw₁ hri hb' hgiven' (hg.trans hg') hk (hrun.step i hi)
      (hrun.unbroken _ hi)
    obtain ⟨b'', hb'', hsub⟩ := (hrun.step i hi).ledger hri hb' key
    refine ⟨c'', js' ++ ks, b'', hc'', hstages'.trans hstages, fun j hj => ?_, hb'', fun o ho => hsub o (hgiven' o ho),
      hg'.trans (hrun.step i hi).grows⟩
    rcases List.mem_append.mp hj with hj | hj
    · exact hjs' j hj
    · have hknown : j.1.node < (run 0).nodes.size := hg.known (hk j.1 (hc''.orders.subset (List.mem_append_left _
        (List.mem_map_of_mem (List.mem_append_right _ hj)))))
      refine (hks j hj).deserves hrun hr hi hc''.onTime ((lt_size_iff _ _).mp (hg'.known hknown))
        (hg'.blowsUp_iff hknown).symm fun hd hnone k hk hlt => ?_
      -- a signal before the deadline would have been there
      have hki : k ≤ i := Nat.le_of_lt_succ (Nat.lt_of_not_le fun hle =>
        absurd (hd.trans (hrun.now_le (Nat.le_of_succ_le hle) hk)) (Nat.not_le_of_lt hlt))
      cases hsig : (run k).signal? j.1.node with
      | none => rfl
      | some r => cases hnone.symm.trans (hrun.kept hr hki hin hsig)

/-- A call that has nothing left to do reports nothing more. -/
theorem Tick.reported (ht : Tick e e') (hc : e.call? key = some c) (hw : c.waiting = []) (hs : c.stages = []) :
    ∃ c', e'.call? key = some c' ∧ c'.report = c.report ∧ c'.waiting = [] ∧ c'.stages = [] := by
  rcases ht.kinds with ⟨hst, -⟩ | ⟨_, -, hst, -⟩ | ⟨a, agenda, -, -, -, rfl⟩
  · exact ⟨c, (call?_of_still hst key).trans hc, rfl, hw, hs⟩
  · exact ⟨c, (call?_of_still hst key).trans hc, rfl, hw, hs⟩
  by_cases hr : ∃ j, a = .resume j
  · obtain ⟨j, rfl⟩ := hr
    have hres := resumes_resume { e with agenda } j
    by_cases hj : key = j
    · subst hj
      change Resumes { e with agenda } key (Engine.act { e with agenda } (.resume key)) at hres
      generalize Engine.act { e with agenda } (.resume key) = e' at hres ⊢
      cases hres with
      | unknown => exact ⟨c, hc, rfl, hw, hs⟩
      | ends =>
        refine ⟨{ c with ended := c.ended <|> some e.now, holds := [] }, ?_, rfl, hw, hs⟩
        rw [call?_modifyCall, if_pos rfl]
        exact congrArg (Option.map _) hc
      | stage hc' _ hs' =>
        obtain rfl := Option.some.inj (hc.symm.trans hc')
        rw [hs] at hs'
        cases hs'
      | waits hc' hw' =>
        obtain rfl := Option.some.inj (hc.symm.trans hc')
        exact absurd hw hw'
    · exact ⟨c, (call?_of_besides hres.besides hj).trans hc, rfl, hw, hs⟩
  · have hreg := register_act (e := { e with agenda }) fun j ha => hr ⟨j, ha⟩
    exact ⟨c, (call?_of_calls (calls_of_register hreg) key).trans hc, rfl, hw, hs⟩

theorem Runs.reported {run : Nat → Engine} {n i j : Nat} (h : Runs run n) (hr : Reachable (run 0)) (hij : i ≤ j)
    (hj : j ≤ n) (hc : (run i).call? key = some c) (hw : c.waiting = []) (hs : c.stages = []) :
    ∃ c', (run j).call? key = some c' ∧ c'.report = c.report ∧ c'.waiting = [] ∧ c'.stages = [] := by
  induction j, hij using Nat.le_induction with
  | base => exact ⟨c, hc, rfl, hw, hs⟩
  | succ j _ ih =>
    obtain ⟨c', hc', hrep, hw', hs'⟩ := ih (Nat.le_of_succ_le hj)
    cases h.step j hj with
    | runs ht =>
      obtain ⟨c'', hc'', hrep', hw'', hs''⟩ := ht.reported hc' hw' hs'
      exact ⟨c'', hc'', hrep'.trans hrep, hw'', hs''⟩
    | asked _ hi => exact ⟨c', call?_input hc' (h.reachable hr (Nat.le_of_succ_le hj)).keysBelow hi, hrep, hw', hs'⟩

/-! ## Each close on its own -/

/-- Close outcomes are independent. When a stop begins, all nodes that it takes out, however deep inside, are asked to
close at once, usage nodes aside. Whatever happens then, as long as time does not run away, the stop is not waiting any
more when the close timeout is over, and it reports for each node what that node deserves by its own signal and the one
deadline that all of them share. No signal changes anything but what is known of the node itself, and the report of a
stop that is over stays as it is. -/
theorem closes_are_independent (hr : Reachable e) (hbroken : e.broken = false) (ha : e.agenda = .resume key :: agenda)
    (hc : e.call? key = some c)
    (hw : c.waiting = []) (hs : c.stages = stage :: stages)
    (hrq : stage.requests? e = some requests) : ∃ m stops given served,
      Opening (e.taken key agenda stages) requests m stops given served ∧
      Proceeds m key stops (Engine.act { e with agenda } (.resume key)) ∧
      (∀ o ∈ given, o ∈ served ∨ e.StandsIn o.node) ∧
      ∀ (run : Nat → Engine) (n i : Nat), run 0 = Engine.act { e with agenda } (.resume key) → Runs run n → i ≤ n →
        KeepsWaiting run key i → (run i).now ≤ e.now + e.closeTimeout ∧ ∃ c' js, (run i).call? key = some c' ∧
          (js.map (·.1) ++ c'.waiting.flatMap Stopping.pending).Perm given ∧
          c'.report.tally + (c'.waiting.map Stopping.tally).sum = c.report.tally + e.entries js ∧
          (∀ j ∈ js, Deserves (e.now + e.closeTimeout) run n j.1 j.2) ∧
          (∀ k result, ((run i).act (.effect k (.closed result))).still = (run i).still) ∧
          (c'.waiting = [] → stages = [] → ∀ j, i ≤ j → j ≤ n →
            ∃ c'', (run j).call? key = some c'' ∧ c''.report = c'.report ∧ c''.waiting = []) := by
  obtain ⟨b, hb⟩ := hr.books.2
  obtain ⟨m, stops, given, served, c₀, js₀, ho, hp, hlate, hb₀, hnow, hcloses, hstages, hjs₀⟩ :=
    closes_begin hr hb hc hw hs hrq agenda
  have hlaid := hr.layout.laid.taken key agenda stages
  have hknown (o : Order) (hm : o ∈ given) : o.node < e.nodes.size := by
    obtain ⟨j, id, hact⟩ := (((ho.departs hlaid).left o.node).mp (List.mem_map_of_mem hm)).1
    exact hlaid.activeKey?_lt hact
  have hstep : Tick e (Engine.act { e with agenda } (.resume key)) := .act hbroken ha
  refine ⟨m, stops, given, served, ho, hp, fun o hm => ?_, fun run n i h0 hrun hi hwait => ?_⟩
  · have hm' := ho.serving.orders.symm.subset hm
    exact (List.mem_append.mp hm').imp id (hlate o)
  rw [← h0] at hstep hb₀ hnow hcloses hjs₀
  have hr₀ := hr.tick hstep
  have hdeserved (j : Order × Verdict) (hj : j ∈ js₀) : Deserves e.dueNow run n j.1 j.2 := by
    have hm := hknown j.1 (hcloses.orders.subset (List.mem_append_left _ (List.mem_map_of_mem hj)))
    refine (hjs₀ j hj).deserves hrun hr₀ (Nat.zero_le n) hcloses.onTime ((lt_size_iff _ _).mp hm)
      (hstep.grows.blowsUp_iff hm) fun hd _ k hk hlt => ?_
    exact absurd ((hd.trans hnow.ge).trans (hrun.now_le (Nat.zero_le k) hk)) (Nat.not_le_of_lt hlt)
  have hgiven (o : Order) (hm : o ∈ given) : o ∈ (b.add key given served).given key := by
    rw [Book.given_add_self]
    exact List.mem_append_right _ hm
  obtain ⟨c', js, -, h, hstages', hjs, -⟩ := hcloses.run hrun hr₀ hb₀ hgiven hstep.grows hknown hdeserved hi hwait
  refine ⟨h.onTime, c', js, h.call, h.orders, h.tally, hjs, fun k result => (quiet_act _ rfl).still,
    fun hw' hnil j hij hj => ?_⟩
  obtain ⟨c'', hc'', hrep, hw'', -⟩ := hrun.reported hr₀ hij hj h.call hw' (hstages'.trans (hstages.trans hnil))
  exact ⟨c'', hc'', hrep, hw''⟩

end Engine

namespace Session
open Engine

/-- A tab with two nodes. One of them never answers when it is asked to close. -/
def hangRecords : List Json := [
  .obj [("id", .str "t"), ("type", .str "tab")],
  .obj [("id", .str "a"), ("type", .str "test"), ("z", .str "t")],
  .obj [("id", .str "h"), ("mode", .str "hang"), ("type", .str "testClose"), ("z", .str "t")]]

def hangFlow : Session :=
  (start ⟨((Engine.make .instrumented .standalone [] [] 20).addLevel (.make .tab none (firstTab hangRecords))).1,
    some 0, .empty, []⟩ 0 none).2

/-- Both nodes are stopped, side by side. -/
def hangStop : List StopRequest := [⟨0, some ["h"], .none⟩, ⟨0, some ["a"], .none⟩]

/-- The turn in which the stop comes. -/
def hangTurn : Engine := turnOf (hangFlow.engine.begin [.stop hangStop]).1 hangFlow.engine.nextCall

def goesOn (e : Engine) : Engine := { e with agenda := [] }.act (.resume hangFlow.engine.nextCall)

/-- The stop begins, time passes until the timeout, and the stop has its turn. -/
def hangRun : Nat → Engine
  | 0 => goesOn hangTurn
  | 1 => (goesOn hangTurn).moveTo 20
  | 2 => turnOf ((goesOn hangTurn).moveTo 20) hangFlow.engine.nextCall
  | _ => goesOn (turnOf ((goesOn hangTurn).moveTo 20) hangFlow.engine.nextCall)

theorem hangRun_run : (hangFlow.engine.agenda = [] ∧ (hangFlow.engine.begin [.stop hangStop]).1.broken = false ∧
      (hangFlow.engine.begin [.stop hangStop]).1.agenda = [] ∧
      Waiter.call hangFlow.engine.nextCall ∈ (hangFlow.engine.begin [.stop hangStop]).1.ready ∧
      hangTurn.broken = false ∧ hangTurn.now = 0 ∧ hangTurn.closeTimeout = 20) ∧
    ((hangRun 0).broken = false ∧ (hangRun 0).agenda = [] ∧ (hangRun 0).ready = [] ∧ (hangRun 0).putOff = [] ∧
      (hangRun 0).now = 0 ∧ (hangRun 0).nextDue? = some 20) ∧
    ((hangRun 1).broken = false ∧ (hangRun 1).agenda = [] ∧ Waiter.call hangFlow.engine.nextCall ∈ (hangRun 1).ready ∧
      (hangRun 1).now = 20) ∧
    (hangRun 2).broken = false ∧ (hangRun 2).now = 20 ∧ (hangRun 3).broken = false ∧ (hangRun 3).now = 20 := by
  decide +kernel

theorem hangRun_waits : hangTurn.activeKey? 0 "h" = some 1 ∧
    (∀ i < 3, ((hangRun i).call? hangFlow.engine.nextCall).map (fun c => c.waiting.isEmpty) = some false) ∧
    ((hangRun 3).call? hangFlow.engine.nextCall).map (fun c => c.waiting.isEmpty) = some true ∧
    (∀ i ≤ 3, ((hangRun i).signal? 1).isSome = false) ∧
    ((hangRun 0).node? 1).map (fun node => match node.part with
      | .ordinary b => ((b.onClose false).2 matches .panicked)
      | _ => false) = some false := by
  decide +kernel

theorem reachable_hangFlow : Reachable hangFlow.engine := by
  have hmade : Reachable ((Engine.make .instrumented .standalone [] [] 20).addLevel
      (.make .tab none (firstTab hangRecords))).1 :=
    (Reachable.make _ _ _ _ _).input rfl (.flow (.inl rfl) (parsed_firstTab (by decide +kernel)))
  exact reachable_start hmade rfl

theorem runs_hangRun : Runs hangRun 3 := by
  obtain ⟨-, ⟨hb, ha, hready, hput, hnow, hdue⟩, ⟨hb₁, ha₁, hw, hnow₁⟩, hb₂, hnow₂, hb₃, hnow₃⟩ := hangRun_run
  have htime : (hangRun 0).OnTime (hangRun 1).now := by
    rw [hnow₁]
    refine onTime_of_nextDue? ⟨ha, hready, hput⟩ (by rw [hnow]; decide) fun due hd => ?_
    rw [hdue] at hd
    exact (Option.some.inj hd).le
  refine ⟨fun i hi => ?_, fun i hi => ?_⟩
  · match i, hi with
    | 0, _ => exact .runs (.time 20) (.inr htime)
    | 1, _ => exact .runs (tick_turn hb₁ ha₁ hw) (.inl (hnow₂.trans hnow₁.symm))
    | 2, _ => exact .runs (tick_turnOf ha₁ hb₂) (.inl (hnow₃.trans hnow₂.symm))
  · match i, hi with
    | 0, _ => exact hb
    | 1, _ => exact hb₁
    | 2, _ => exact hb₂
    | 3, _ => exact hb₃

theorem hangRun_calm : ¬(hangRun 0).BlowsUp ⟨1, false⟩ := by
  rintro ⟨node, b, hn, hp, hb⟩
  have h := hangRun_waits.2.2.2.2
  rw [show (hangRun 0).node? 1 = some node from hn, Option.map_some, hp] at h
  simp only [hb] at h
  cases h

theorem hangTurn_ready : Reachable hangTurn ∧ hangTurn.agenda = [.resume hangFlow.engine.nextCall] ∧
    hangTurn.call? hangFlow.engine.nextCall = some (.make [.stop hangStop] hangFlow.engine.now) := by
  obtain ⟨⟨ha, hb, ha', hw, -⟩, -⟩ := hangRun_run
  refine ⟨?_, ?_, ?_⟩
  · rw [hangTurn]
    exact (reachable_hangFlow.input ha (.call (.stop _))).tick (tick_turn hb ha' hw)
  · rw [hangTurn, agenda_turnOf ha']
  · rw [hangTurn, call?_turnOf, call?_begin reachable_hangFlow.keysBelow, if_pos rfl]

/-- The node that does not answer runs out of time, and nothing else is to be said of it. -/
theorem hanging_node_runs_out_of_time : ∃ c js, (hangRun 3).call? hangFlow.engine.nextCall = some c ∧
    c.waiting = [] ∧ c.report.tally = hangTurn.entries js ∧ (js.map (·.1.node)).Nodup ∧
    (⟨1, false⟩, .timedOut) ∈ js := by
  obtain ⟨hr, hagenda, hc⟩ := hangTurn_ready
  obtain ⟨hh, hwaits, hdone, hsilent, -⟩ := hangRun_waits
  have hbroken : hangTurn.broken = false := hangRun_run.1.2.2.2.2.1
  obtain ⟨m, stops, given, served, ho, -, -, hall⟩ := closes_are_independent hr hbroken hagenda hc rfl rfl rfl
  have hkeeps : KeepsWaiting hangRun hangFlow.engine.nextCall 3 := fun i hi => by
    obtain ⟨c, hc, hw⟩ := Option.map_eq_some_iff.mp (hwaits i hi)
    exact ⟨c, hc, by simpa using hw⟩
  have hstart : hangRun 0 = Engine.act { hangTurn with agenda := [] } (.resume hangFlow.engine.nextCall) := rfl
  obtain ⟨-, c, js, hc', horders, htally, hjs, -⟩ := hall hangRun 3 3 hstart runs_hangRun (Nat.le_refl 3) hkeeps
  have hwaiting : c.waiting = [] := by simpa [hc'] using hdone
  rw [hwaiting, List.flatMap_nil, List.append_nil] at horders
  rw [hwaiting, List.map_nil, List.sum_nil, add_zero] at htally
  have hst := stands_taken hangTurn hangFlow.engine.nextCall [] []
  have hlaid := hr.layout.laid.taken hangFlow.engine.nextCall [] []
  have honce : (js.map (·.1.node)).Nodup := by
    have hperm := (horders.map (·.node)).nodup_iff.mpr (ho.departs hlaid).once
    rwa [List.map_map] at hperm
  have hgiven : (⟨1, false⟩ : Order) ∈ given := by
    refine ho.mem_given ((hst.active 0 "h").trans hh) (.own fun ids hids => ?_)
    cases hids
    exact List.mem_cons_self
  obtain ⟨⟨o, v⟩, hj, rfl⟩ := List.mem_map.mp (horders.symm.subset hgiven)
  have hv : v = .timedOut := (hjs _ hj).late hangRun_calm fun i hi _ => by simpa using hsilent i hi
  exact ⟨c, js, hc', hwaiting, htally.trans (zero_add _), honce, hv ▸ hj⟩

end Session
end Flowgraph
