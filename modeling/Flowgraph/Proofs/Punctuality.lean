import Flowgraph.Proofs.Windup
/-! What a stop reports of a delay node. Its signal comes before any time passes, so the stop finds it closed long before
the close timeout, if there is any time at all. -/
namespace Flowgraph.Engine

variable {e e' : Engine} {k : NodeKey} {ms since D : Nat} {d : Deed} {key : CallKey} {c : Call} {agenda : List Action}
  {removed : Bool} {s : Engine} {given : List Order} {base : Tally} {js : List (Order × Verdict)} {b : Book}

/-! ## Who is waited for -/

mutual
/-- A node whose close is under way has been asked, or is still to be asked. -/
theorem asked_of_pending_closing : (c : Closing) → ∀ o ∈ c.pending, o.node ∈ c.deadlines.map (·.1) ∨ o ∈ c.orders
  | .done _, _, h => by cases h
  | .asked node removed deadline report, o, h => by
    obtain rfl := List.mem_singleton.mp h
    exact .inl List.mem_cons_self
  | .inner node removed stop, o, h => by
    rcases List.mem_append.mp h with h | h
    · exact (asked_of_pending stop o h).imp_right fun h => List.mem_append_left _ h
    · exact .inr (List.mem_append_right _ h)

theorem asked_of_pending : (s : Stopping) → ∀ o ∈ s.pending, o.node ∈ s.deadlines.map (·.1) ∨ o ∈ s.orders
  | .finished _, _, h => by cases h
  | .running _ _ _ _ closings, o, h => asked_of_pendingOf closings o h

theorem asked_of_pendingOf : (cs : List Closing) → ∀ o ∈ Stopping.pendingOf cs,
    o.node ∈ (Stopping.deadlinesOf cs).map (·.1) ∨ o ∈ Stopping.ordersOf cs
  | [], _, h => by cases h
  | c :: cs, o, h => by
    rw [Stopping.deadlinesOf, Stopping.ordersOf, List.map_append, List.mem_append, List.mem_append]
    rcases List.mem_append.mp h with h | h
    · exact (asked_of_pending_closing c o h).imp .inl .inl
    · exact (asked_of_pendingOf cs o h).imp .inr .inr
end

/-! ## Steps -/

/-- What is asked from outside leaves the clock to the engine, and signals to the nodes. -/
theorem Asked.tranquil (h : Asked e e') : Tranquil [] e e' := by
  have hsame {s : Engine} (hn : s.now = e.now) (hr : s.room = e.room) (ht : s.timers = e.timers) (hw : s.ready = e.ready)
      (hp : s.putOff = e.putOff) (hs : ∀ n, s.signal? n = e.signal? n) : Tranquil [] e s :=
    .of_signals hn (Nat.le_of_eq hr) (fun _ h => ht ▸ h) (fun _ h => hw ▸ h) (fun _ h => hp ▸ h) hs
  cases h with
  | call h =>
    have hcall {calls : List (CallKey × Call)} {next : Nat} : Tranquil [] e { e with nextCall := next, calls } :=
      .of_signals rfl (Nat.le_refl _) (fun _ h => h) (fun _ h => h) (fun _ h => h) fun _ => rfl
    exact hcall.trans (tranquil_wake _ _)
  | signal j origin signal => exact tranquil_raise e j origin signal
  | _ => exact hsame rfl rfl rfl rfl rfl fun _ => rfl

theorem Does.prompt (h : Does e d e') (hc : e'.now = e.now ∨ e.OnTime e'.now) : Prompt e e' := by
  cases h with
  | act hb ha => exact .runs (.act hb ha) hc
  | turn hb ha hw => exact .runs (.turn hb ha hw) hc
  | wake ha => exact .runs (.wake ha) hc
  | time moment => exact .runs (.time moment) hc
  | asked ha h => exact .asked ha h.input h.tranquil

/-- A delay node's close hook does not blow up. -/
theorem HoldsFor.calm (h : e.HoldsFor ms k) (removed : Bool) : ¬e.BlowsUp ⟨k, removed⟩ := by
  rintro ⟨node, b, hn, hp, hblown⟩
  obtain rfl : b = Delay.behaviour ms := Part.ordinary.inj (hp.symm.trans (h node hn))
  cases hblown

/-- The stop that takes a delay node out of its level is one that begins now. -/
theorem Dismisses.begins (hn : Numbered e) (h : Dismisses ms k { e with agenda } (Engine.act { e with agenda } (.resume key)))
    (hwait : ∀ c, e.call? key = some c → k ∉ (c.waiting.flatMap Stopping.orders).map (·.node)) :
    ∃ c stage stages requests, e.call? key = some c ∧ c.waiting = [] ∧ c.stages = stage :: stages ∧
      stage.requests? e = some requests := by
  have hpop : Numbered { e with agenda } := ⟨⟨hn.nodup, hn.below⟩, hn.ready, hn.timers⟩
  -- nothing else touches the node
  have hnot : ¬Bypasses k { e with agenda } (Engine.act { e with agenda } (.resume key)) := fun hb =>
    h.working.not_draining ((hb hpop).2 ▸ h.draining.state)
  have hres := resumes_resume { e with agenda } key
  change Resumes { e with agenda } key (Engine.act { e with agenda } (.resume key)) at hres
  generalize Engine.act { e with agenda } (.resume key) = e' at hres hnot
  cases hres with
  | unknown => exact absurd (.refl k _) hnot
  | ends => exact absurd (bypasses_modifyCall _ _) hnot
  | @stage c stage stages hc hw hs =>
    cases hrq : stage.requests? e with
    | none =>
      have hstage : stage.requests? (Engine.modifyCall { e with agenda } key fun c => { c with stages }) = none :=
        (requests?_taken key agenda stages stage).trans hrq
      exact absurd ((bypasses_modifyCall _ _).trans (bypasses_runStage _ key hstage)) hnot
    | some requests => exact ⟨c, stage, stages, requests, hc, hw, hs, hrq⟩
  | @waits c hc hw =>
    refine absurd ?_ hnot
    rw [pollAll_eq]
    exact (bypasses_pollStops key c.waiting ({ e with agenda }, []) (hwait c hc)).trans (bypasses_afterStops _ _ _)

/-- A stop waits for a delay node among others, and finds it closed before time passes. -/
structure FindsClosed (ms : Nat) (k : NodeKey) (removed : Bool) (since D : Nat) (key : CallKey) (s : Engine)
    (given : List Order) (base : Tally) (e : Engine) (c : Call) (js : List (Order × Verdict)) : Prop where
  closes : Closes D key s given base e c js
  /-- No other verdict is passed on the node, and none as long as it holds messages. -/
  verdict : ∀ v, (⟨k, removed⟩, v) ∈ js → v = .closed ∧ e.signal? k = some (.ok ())
  later : since < e.now → (⟨k, removed⟩, .closed) ∈ js

/-- The verdict on a delay node that has been taken out of its level. -/
theorem Winds.judged (hw' : Winds ms k since e') (hd : e.HoldsFor ms k) (hk : (e.node? k).isSome = true)
    (hover : e.signal? k = none → e.now < D) {v : Verdict} (hj : Judges D e e' ⟨k, removed⟩ v) :
    v = .closed ∧ e'.signal? k = some (.ok ()) := by
  have hsignal {r : CloseResult} (hs : e'.signal? k = some r) : r = .ok () ∧ e'.signal? k = some (.ok ()) := by
    rcases hw'.ending.now_or_signal 0 with ⟨-, hnone, -⟩ | ⟨hok, -⟩
    · cases hnone.symm.trans hs
    · exact ⟨Option.some.inj (hs.symm.trans hok), hok⟩
  cases hj with
  | signalled _ hs =>
    obtain ⟨rfl, hok⟩ := hsignal hs
    exact ⟨rfl, hok⟩
  | overdue _ hle hnone => exact absurd (hover hnone) (Nat.not_lt.mpr hle)
  | blownUp hb => exact absurd hb (hd.calm removed)
  | nobody hnone =>
    have hnone : e.node? k = none := hnone
    rw [hnone] at hk
    cases hk

/-- When time passes, the stop has found the node closed. -/
theorem FindsClosed.closed_of_onTime (h : FindsClosed ms k removed since D key s given base e c js)
    (hd : e.HoldsFor ms k) (hw : Winds ms k since e) (hmem : ⟨k, removed⟩ ∈ given) {moment : Nat} (hon : e.OnTime moment) :
    (⟨k, removed⟩, .closed) ∈ js := by
  rcases hw.ending.now_or_signal moment with ⟨-, -, hnot⟩ | ⟨hsignal, -⟩
  · exact absurd hon hnot
  rcases List.mem_append.mp (h.closes.orders.symm.subset hmem) with hm | hm
  · obtain ⟨⟨o, v⟩, hj, rfl⟩ := List.mem_map.mp hm
    obtain ⟨rfl, -⟩ := h.verdict v hj
    exact hj
  -- otherwise somebody would be looking after the node
  · exfalso
    obtain ⟨stop, hstop, hm⟩ := List.mem_flatMap.mp hm
    rcases asked_of_pending stop _ hm with ha | ho
    · obtain ⟨a, ha, hak⟩ := List.mem_map.mp ha
      rcases h.closes.idle a (List.mem_flatMap.mpr ⟨stop, hstop, ha⟩) with hr | hwait
      · rcases hr with hr | hr | hr
        · rw [hon.idle.2.1] at hr
          cases hr
        · rw [hon.idle.2.2] at hr
          cases hr
        · rw [hon.idle.1] at hr
          cases hr
      · have hnone := hwait.1
        rw [hak] at hnone
        cases hnone.symm.trans hsignal
    · exact hd.not_standsIn (h.closes.underway.standsIn _ (List.mem_flatMap.mpr ⟨stop, hstop, ho⟩))

theorem Ending.exists_node (h : Ending ms k since e) : (e.node? k).isSome = true := by
  obtain ⟨node, hn, -⟩ := h.told
  rw [hn]
  rfl

/-- Another step: the stop goes on. -/
theorem FindsClosed.step (h : FindsClosed ms k removed since D key s given base e c js) (hw : c.waiting ≠ [])
    (hp : Paced ms k e d e') (hu : e'.broken = false) (hwind : Winds ms k since e) (hwind' : Winds ms k since e')
    (hD : since < D) (hmem : ⟨k, removed⟩ ∈ given) (hb : Ledger e b) (hgiven : ∀ o ∈ given, o ∈ b.given key)
    (hg : Grows s e) (hk : ∀ o ∈ given, o.node < s.nodes.size) :
    ∃ c' js', FindsClosed ms k removed since D key s given base e' c' js' := by
  have hprompt := hp.does.prompt hp.onTime
  obtain ⟨c', ks, hc', -, hks⟩ := h.closes.step hw hp.reachable hb hgiven hg hk hprompt hu
  refine ⟨c', js ++ ks, hc', fun v hv => ?_, fun hlt => ?_⟩
  · rcases List.mem_append.mp hv with hv | hv
    · exact (h.verdict v hv).imp_right fun hs => hprompt.kept hp.reachable hu hs
    · refine hwind'.judged hp.holds hwind.ending.exists_node (fun hnone => ?_) (hks _ hv)
      rcases hwind.ending.now_or_signal 0 with ⟨hnow, -⟩ | ⟨hsignal, -⟩
      · exact hnow ▸ hD
      · cases hnone.symm.trans hsignal
  · refine List.mem_append_left _ ?_
    by_cases hbefore : since < e.now
    · exact h.later hbefore
    · rcases hp.onTime with hsame | hon
      · exact absurd (hsame ▸ hlt) hbefore
      · exact h.closed_of_onTime hp.holds hwind hmem hon

/-- The stop begins. -/
theorem Retires.findsClosed (h : Paced ms k e d e') (hn : Numbered e) (hr : Retires ms k e d e')
    (hput : (e.sight k).putOff = []) (hpos : 0 < e.closeTimeout) : ∃ key c₀ given removed, d = .act (.resume key) ∧
      e.call? key = some c₀ ∧ ⟨k, removed⟩ ∈ given ∧ (given.map (·.node)).Nodup ∧ (∀ o ∈ given, o.node < e.nodes.size) ∧
      (∃ b, Ledger e' b ∧ ∀ o ∈ given, o ∈ b.given key) ∧
      ∃ c js, FindsClosed ms k removed e.now e.dueNow key e given c₀.report.tally e' c js := by
  have hwind := hr.winds h hput
  obtain ⟨key, agenda, hagenda, rfl, rfl, hd⟩ := hr.by_call
  obtain ⟨c₀, stage, stages, requests, hc₀, hw₀, hs, hrq⟩ := hd.begins hn (h.holds.unasked h.reachable key)
  obtain ⟨b, hb⟩ := h.reachable.books.2
  obtain ⟨m, stops, given, served, c, js, ho, hp, -, hb', hnow, hcloses, -, hjs⟩ :=
    closes_begin h.reachable hb hc₀ hw₀ hs hrq agenda
  have hlaid := h.reachable.layout.laid.taken key agenda stages
  have hdeparts := ho.departs hlaid
  have hknown (o : Order) (hm : o ∈ given) : o.node < e.nodes.size := by
    obtain ⟨j, id, hact⟩ := ((hdeparts.left o.node).mp (List.mem_map_of_mem hm)).1
    exact hlaid.activeKey?_lt hact
  -- the node was active, and is so no more
  have hactive : (e.taken key agenda stages).IsActive k := hd.active
  have hgone : ¬m.IsActive k := fun hact => hd.gone (by
    obtain ⟨j, id, ha⟩ := hact
    exact ⟨j, id, (hp.stands.1 j id).trans ha⟩)
  obtain ⟨o, hmem, rfl⟩ := List.mem_map.mp ((hdeparts.left k).mpr ⟨hactive, hgone⟩)
  have hk : (e.node? o.node).isSome = true := (lt_size_iff e o.node).mp (hknown o hmem)
  refine ⟨key, c₀, given, o.removed, rfl, hc₀, hmem, hdeparts.once, hknown, ⟨_, hb', fun o' ho' => ?_⟩, c, js, hcloses,
    fun v hv => hwind.judged h.holds hk (fun _ => Nat.lt_add_of_pos_right hpos) (hjs _ hv), fun hlt => ?_⟩
  · rw [Book.given_add_self]
    exact List.mem_append_right _ ho'
  · rw [hnow] at hlt
    exact absurd hlt (Nat.lt_irrefl _)

end Flowgraph.Engine
