import Flowgraph.Proofs.Pacing
import Flowgraph.Proofs.Punctuality
import Flowgraph.Proofs.Settlement
/-! Delay nodes keep order, time and messages. In every run in which tasks have their turns in the order in which they have
been woken and time moves from timer to timer, a delay node forwards each message when its time has come, in the order of
arrival, and completes it before it forwards the next. A stop drops what is still held; and it finds the node closed when
all of it has been dropped, before any time passes. -/
namespace Flowgraph
namespace Engine

variable {state : Nat → Engine} {deed : Nat → Deed} {n i j s t : Nat} {k : NodeKey} {ms now : Nat} {e : Engine}
  {arrived gone rest : List (Nat × Message)} {passed : List (Nat × Passage)}

/-! ## Along a history -/

namespace History

variable (h : History state deed n)
include h

theorem holdsFor (hd : (state n).HoldsFor ms k) (hi : i ≤ n) : (state i).HoldsFor ms k := fun node hn => by
  obtain ⟨node', hn', hpart⟩ := (h.grows hi (Nat.le_refl n)).part hn
  exact hpart.symm.trans (hd node' hn')

variable (hw : WellPaced state deed n k)
include hw

theorem paced (hd : (state n).HoldsFor ms k) (hi : i < n) : Paced ms k (state i) (deed i) (state (i + 1)) where
  reachable := h.reachable_at (Nat.le_of_lt hi)
  stocked := h.stocked (Nat.le_of_lt hi)
  idle := h.registry_at (Nat.le_of_lt hi) ▸ Registry.idle_standard
  unmixed := h.unmixed (Nat.le_of_lt hi)
  holds := h.holdsFor hd (Nat.le_of_lt hi)
  does := h.does i hi
  inTurn := hw.inTurn i hi
  onTime := hw.onTime i hi
  own := hw.own i hi

theorem now_le (hij : i ≤ j) (hj : j ≤ n) : (state i).now ≤ (state j).now := by
  induction j, hij using Nat.le_induction with
  | base => exact Nat.le_refl _
  | succ j _ ih =>
    exact (ih (Nat.le_of_succ_le hj)).trans ((h.does j hj).prompt (hw.onTime j hj)).now_le

end History

/-! ## What arrives -/

theorem arrives_now {x : Nat × Message} {d : Deed} (hx : x ∈ e.arrives k d) : x.1 = e.now := by
  unfold arrives at hx
  split at hx
  · obtain ⟨m, -, rfl⟩ := Option.map_eq_some_iff.mp hx
    rfl
  · cases hx

namespace History

variable (h : History state deed n) (hw : WellPaced state deed n k)
include h hw

/-- Messages that arrive later are entered behind those that have arrived. -/
theorem arrivals_later (hij : i ≤ j) (hj : j ≤ n) : ∃ later, arrivals state deed k j = arrivals state deed k i ++ later ∧
    (∀ x ∈ later, (state i).now ≤ x.1 ∧ x.1 ≤ (state j).now) ∧ later.Pairwise fun x y => x.1 ≤ y.1 := by
  induction j, hij using Nat.le_induction with
  | base => exact ⟨[], (List.append_nil _).symm, nofun, .nil⟩
  | succ j hij ih =>
    have hjn := Nat.le_of_succ_le hj
    obtain ⟨later, harr, hlater, hsorted⟩ := ih hjn
    have hnow := h.now_le hw (Nat.le_succ j) hj
    have hnew : ∀ x ∈ ((state j).arrives k (deed j)).toList, x.1 = (state j).now := fun x hx =>
      arrives_now (Option.mem_toList.mp hx)
    refine ⟨later ++ ((state j).arrives k (deed j)).toList, ?_, fun x hx => ?_, ?_⟩
    · rw [arrivals_succ, harr, List.append_assoc]
    · rcases List.mem_append.mp hx with hx | hx
      · exact (hlater x hx).imp_right fun hle => hle.trans hnow
      · rw [hnew x hx]
        exact ⟨h.now_le hw hij hjn, hnow⟩
    · refine List.pairwise_append.mpr ⟨hsorted, ?_, fun x hx y hy => hnew y hy ▸ (hlater x hx).2⟩
      cases (state j).arrives k (deed j) with
      | none => exact .nil
      | some x => exact List.pairwise_singleton _ _

theorem arrivals_sorted (hi : i ≤ n) : (arrivals state deed k i).Pairwise fun x y => x.1 ≤ y.1 := by
  obtain ⟨later, harr, -, hsorted⟩ := h.arrivals_later hw (Nat.zero_le i) hi
  rw [harr]
  exact hsorted

end History

/-! ## What has left a node that is at work -/

/-- Of what has gone, that whose time is over has gone before that whose time is now. -/
theorem delivered_gone (hsorted : (gone ++ rest).Pairwise fun x y => x.1 ≤ y.1) (hgone : ∀ x ∈ gone, x.1 + ms ≤ now)
    (hrest : ∀ x ∈ rest, now ≤ x.1 + ms) : delivered ms gone =
      delivered ms ((gone ++ rest).filter (·.1 + ms < now)) ++ delivered ms (gone.filter (·.1 + ms = now)) := by
  have hnone : rest.filter (·.1 + ms < now) = [] := List.filter_eq_nil_iff.mpr fun x hx => by
    have := hrest x hx
    simpa using this
  have hnow : gone.filter (·.1 + ms = now) = gone.filter fun x => !decide (x.1 + ms < now) := by
    refine List.filter_congr fun x hx => ?_
    have := hgone x hx
    rw [← decide_not, decide_eq_decide]
    omega
  rw [List.filter_append, hnone, List.append_nil, hnow, ← delivered_append]
  refine congrArg _ (Queued.filter_append_filter_not ?_).symm
  refine (hsorted.sublist (List.sublist_append_left _ _)).imp fun hxy hy => decide_eq_true ?_
  have := of_decide_eq_true hy
  omega

/-- What is held is not due before now. -/
theorem Queued.now_le {leaving : List Pending} {q : Lane} {v : Sight} (h : Queued ms k leaving q v) :
    ∀ x ∈ q.all.map Detained.arrival, v.now ≤ x.1 + ms := by
  intro x hx
  obtain ⟨y, hy, rfl⟩ := List.mem_map.mp hx
  change v.now ≤ y.since + ms
  simp only [Lane.all, List.mem_append] at hy
  rcases hy with (hy | hy) | hy
  · exact Nat.le_of_eq (h.ripe y hy).symm
  · exact Nat.le_of_lt (h.timed y hy)
  · exact Nat.le_trans (Nat.le_of_eq (h.fresh y hy).symm) (Nat.le_add_right _ _)

namespace Lined

theorem numbered (h : Lined ms k e arrived passed) : Numbered e := by
  cases h <;> assumption

theorem putOff (h : Lined ms k e arrived passed) : (e.sight k).putOff = [] := by
  cases h with
  | unmade _ _ _ hput => exact hput
  | holds _ hq => exact hq.putOff
  | releases _ hq => exact hq.putOff

theorem not_told (h : Lined ms k e arrived passed) : ¬Told e k := by
  rintro ⟨node, hn, hc⟩
  have hawake {begun : Bool} (hm : (e.sight k).marks = some (false, none, begun)) : False := by
    obtain ⟨node', hn', he⟩ := Option.map_eq_some_iff.mp hm
    obtain rfl := Option.some.inj (hn.symm.trans hn')
    cases hc.symm.trans (congrArg Prod.fst he)
  cases h with
  | unmade _ hnone => cases hn.symm.trans hnone
  | holds _ hq =>
    obtain ⟨begun, hm, -⟩ := hq.marks
    exact hawake hm
  | releases _ hq =>
    obtain ⟨begun, hm, -⟩ := hq.marks
    exact hawake hm

/-- All that is over has left the node, and of what is due now a part. -/
theorem forwards (h : Lined ms k e arrived passed) (hsorted : arrived.Pairwise fun x y => x.1 ≤ y.1) :
    ∃ part, passed = delivered ms (arrived.filter (·.1 + ms < e.now)) ++ part ∧
      part <+: delivered ms (arrived.filter (·.1 + ms = e.now)) := by
  cases h with
  | unmade _ _ _ _ ha hp =>
    rw [ha, hp]
    exact ⟨[], rfl, List.nil_prefix⟩
  | @holds gone q _ hq ha hgone hp =>
    subst ha hp
    refine ⟨_, delivered_gone hsorted hgone (hq.now_le), ?_⟩
    rw [List.filter_append, delivered_append]
    exact List.prefix_append _ _
  | @releases gone q p since m done left _ _ hq ha hgone hdue hsplit hp =>
    subst ha hp
    have hrest : ∀ x ∈ (since, m) :: q.all.map Detained.arrival, e.now ≤ x.1 + ms :=
      List.forall_mem_cons.mpr ⟨Nat.le_of_eq hdue.symm, hq.now_le⟩
    refine ⟨_, by rw [delivered_gone hsorted hgone hrest, List.append_assoc], ?_⟩
    have hpart : done.map (fun x => (e.now, x)) <+: delivered ms [(since, m)] := by
      have hall : delivered ms [(since, m)] = [Passage.sent 0 m, .completed m].map fun x => (e.now, x) := by
        rw [← hdue]
        rfl
      rw [hall, ← hsplit, List.map_append]
      exact List.prefix_append _ _
    rw [List.filter_append, List.filter_cons_of_pos (by simpa using hdue), delivered_append,
      List.prefix_append_right_inj]
    exact hpart.trans (List.prefix_append (delivered ms [(since, m)]) _)

end Lined

namespace History

variable (h : History state deed n) (hw : WellPaced state deed n k)
include h hw

/-- A history begins without messages that are held. -/
theorem lined_start (ht : ¬Told (state 0) k) : Lined ms k (state 0) [] [] := by
  have hnone {ws : List Waiter} (hws : ∀ key, .task key ∉ ws) : ws.filterMap Waiter.taskKey? = [] :=
    List.filterMap_eq_nil_iff.mpr fun w hm => by
      cases w with
      | task key => exact absurd hm (hws key)
      | _ => rfl
  have htasks : (state 0).tasksOf k = [] := by
    rw [tasksOf, h.free]
    rfl
  have hput : ((state 0).sight k).putOff = [] := hnone fun key => (hw.rested key).2.1
  have hn : Numbered (state 0) := by
    refine ⟨h.keyed (Nat.zero_le n), fun key hm => ?_, fun timer hm key hkey => ?_⟩
    · rw [hnone fun key => (hw.rested key).1] at hm
      cases hm
    · obtain ⟨due, alarm⟩ := timer
      cases alarm with
      | task key => exact absurd (List.mem_filter.mp hm).1 ((hw.rested key).2.2 due)
      | deadline => cases hkey
  have hf : ∀ a ∈ (state 0).agenda, Foreign (state 0) k a := by
    rw [h.idle]
    exact List.forall_mem_nil _
  cases hnode : (state 0).node? k with
  | none => exact .unmade hn hnode htasks hput rfl rfl hf
  | some node =>
    refine .holds (g := []) (q := ⟨[], [], []⟩) hn ?_ rfl (List.forall_mem_nil _) rfl hf
    have hc : node.cancelled = false := Bool.eq_false_iff.mpr fun hc => ht ⟨node, hnode, hc⟩
    have hs : node.signal = none := by
      have := hw.silent
      rwa [signal?, hnode] at this
    have hm : ((state 0).sight k).marks = some (false, none, node.marks.2.2) := by
      rw [sight, hnode, ← hc, ← hs]
      rfl
    exact ⟨htasks, woken_eq_nil htasks, clocks_eq_nil htasks, List.forall_mem_nil _, List.forall_mem_nil _,
      List.forall_mem_nil _, .nil, List.forall_mem_nil _, List.forall_mem_nil _, hput, _, hm, fun hne => absurd htasks hne⟩

/-- As long as it has not been told to stop, the node forwards what it holds. -/
theorem lined (hd : (state n).HoldsFor ms k) (hi : i ≤ n) (ht : ¬Told (state i) k) :
    Lined ms k (state i) (arrivals state deed k i) (passages state deed k i) := by
  induction i with
  | zero => exact h.lined_start hw ht
  | succ i ih =>
    have hin := Nat.le_of_succ_le hi
    have hl := ih hin fun ht' => ht ((h.does i hi).told ht')
    rw [arrivals_succ, passages_succ]
    refine (hl.step (h.paced hw hd hi)).resolve_right fun hr => ?_
    exact ht (hr.winds (h.paced hw hd hi) hl.putOff).ending.told

/-- The step in which the node is told to stop is one of a stop. -/
theorem retires (hd : (state n).HoldsFor ms k) (hs : s < n) (ht : ¬Told (state s) k) (ht' : Told (state (s + 1)) k) :
    Retires ms k (state s) (deed s) (state (s + 1)) :=
  ((h.lined hw hd (Nat.le_of_lt hs) ht).step (h.paced hw hd hs)).resolve_left fun hl => hl.not_told ht'

/-- From then on nothing leaves the node any more. -/
theorem winds (hd : (state n).HoldsFor ms k) (ht : ¬Told (state s) k) (ht' : Told (state (s + 1)) k) (hsi : s < i)
    (hi : i ≤ n) : Winds ms k (state s).now (state i) ∧ passages state deed k i = passages state deed k s := by
  induction i, hsi using Nat.le_induction with
  | base =>
    have hr := h.retires hw hd hi ht ht'
    refine ⟨hr.winds (h.paced hw hd hi) (h.lined hw hd (Nat.le_of_lt hi) ht).putOff, ?_⟩
    obtain ⟨call, -, -, hdeed, -⟩ := hr.by_call
    rw [passages_succ, hdeed]
    exact List.append_nil _
  | succ i hsi ih =>
    obtain ⟨hwind, hsame⟩ := ih (Nat.le_of_succ_le hi)
    obtain ⟨hwind', hnone⟩ := hwind.step (h.paced hw hd hi)
    refine ⟨hwind', ?_⟩
    rw [passages_succ, hnone, hsame]
    exact List.append_nil _

end History

/-! ## The report of the stop -/

/-- The call has been waiting since s, and nothing has broken. -/
structure WaitsSince (state : Nat → Engine) (key : CallKey) (s i : Nat) : Prop where
  waiting : ∀ l, s < l → l < i → ∃ c, (state l).call? key = some c ∧ c.waiting ≠ []
  unbroken : ∀ l, s < l → l ≤ i → (state l).broken = false

/-- How far a stop has come that has given these orders, as to one delay node. It is reported closed, if anything, and not
before all that it has held has wound down. When nothing is left to do and time may pass, it has been reported, and so it
has when time has passed and when the stop is over. -/
structure ReportsClosed (ms : Nat) (k : NodeKey) (removed : Bool) (key : CallKey) (before : Engine) (given : List Order)
    (base : Tally) (e : Engine) (c : Call) (js : List (Order × Verdict)) : Prop where
  call : e.call? key = some c
  orders : (js.map (·.1) ++ c.waiting.flatMap Stopping.pending).Perm given
  tally : c.report.tally + (c.waiting.map Stopping.tally).sum = base + before.entries js
  verdict : ∀ v, (⟨k, removed⟩, v) ∈ js → v = .closed ∧ ∀ p ∈ e.tasksOf k, ¬Holds ms p
  inTime : (∃ moment, e.OnTime moment) ∨ before.now < e.now ∨ c.waiting = [] → (⟨k, removed⟩, .closed) ∈ js

theorem FindsClosed.reports {removed : Bool} {D : Nat} {key : CallKey} {before : Engine} {given : List Order}
    {base : Tally} {c : Call} {js : List (Order × Verdict)}
    (hf : FindsClosed ms k removed before.now D key before given base e c js) (hd : e.HoldsFor ms k)
    (hw : Winds ms k before.now e) (hmem : ⟨k, removed⟩ ∈ given) :
    ReportsClosed ms k removed key before given base e c js where
  call := hf.closes.call
  orders := hf.closes.orders
  tally := hf.closes.tally
  verdict v hv := (hf.verdict v hv).imp_right fun hs => by
    rcases hw.ending.now_or_signal 0 with ⟨-, hnone, -⟩ | ⟨-, hheld⟩
    · cases hnone.symm.trans hs
    · exact hheld
  inTime := by
    rintro (⟨moment, hon⟩ | hlt | hdone)
    · exact hf.closed_of_onTime hd hw hmem hon
    · exact hf.later hlt
    · have horders := hf.closes.orders
      rw [hdone, List.flatMap_nil, List.append_nil] at horders
      obtain ⟨⟨o, v⟩, hj, rfl⟩ := List.mem_map.mp (horders.symm.subset hmem)
      obtain ⟨rfl, -⟩ := hf.verdict v hj
      exact hj

namespace History

variable (h : History state deed n) (hw : WellPaced state deed n k)
include h hw

/-- The stop goes on, and finds the node closed. -/
theorem findsClosed {removed : Bool} {D : Nat} {key : CallKey} {given : List Order} {base : Tally} {c : Call}
    {js : List (Order × Verdict)} {b : Book} (hd : (state n).HoldsFor ms k) (ht : ¬Told (state s) k)
    (ht' : Told (state (s + 1)) k)
    (hf : FindsClosed ms k removed (state s).now D key (state s) given base (state (s + 1)) c js)
    (hb : Ledger (state (s + 1)) b) (hgiven : ∀ o ∈ given, o ∈ b.given key) (hmem : ⟨k, removed⟩ ∈ given)
    (hk : ∀ o ∈ given, o.node < (state s).nodes.size) (hD : (state s).now < D) (hsi : s < i) (hi : i ≤ n)
    (hwait : WaitsSince state key s i) : ∃ c js b, FindsClosed ms k removed (state s).now D key (state s) given base
      (state i) c js ∧ Ledger (state i) b ∧ ∀ o ∈ given, o ∈ b.given key := by
  induction i, hsi using Nat.le_induction with
  | base => exact ⟨c, js, b, hf, hb, hgiven⟩
  | succ i hsi ih =>
    have hin := Nat.le_of_succ_le hi
    obtain ⟨c, js, b, hf, hb, hgiven⟩ := ih hin ⟨fun l hl hli => hwait.waiting l hl (Nat.lt_succ_of_lt hli),
      fun l hl hli => hwait.unbroken l hl (Nat.le_succ_of_le hli)⟩
    obtain ⟨c', hc', hne⟩ := hwait.waiting i hsi (Nat.lt_succ_self i)
    obtain rfl := Option.some.inj (hc'.symm.trans hf.closes.call)
    have hp := h.paced hw hd hi
    have hu := hwait.unbroken (i + 1) (Nat.lt_succ_of_lt hsi) (Nat.le_refl _)
    obtain ⟨c, js, hf'⟩ := hf.step hne hp hu (h.winds hw hd ht ht' hsi hin).1
      (h.winds hw hd ht ht' (Nat.lt_succ_of_lt hsi) hi).1 hD hmem hb hgiven (h.grows (Nat.le_of_lt hsi) hin) hk
    obtain ⟨b', hb', hsub⟩ := (hp.does.prompt hp.onTime).ledger hp.reachable hb key
    exact ⟨c, js, b', hf', hb', fun o ho => hsub o (hgiven o ho)⟩

end History

/-! ## Delay nodes keep order, time and messages -/

/-- What a delay node makes of the messages of a history. -/
structure KeepsOrder (ms : Nat) (k : NodeKey) (state : Nat → Engine) (deed : Nat → Deed) (n : Nat) : Prop where
  /-- As long as it has not been told to stop, each message whose time is over has been sent and completed at its moment,
  in the order of arrival; and so has been a part, from the first, of those whose time is now. Nothing else has left the
  node. -/
  forwards : ∀ i ≤ n, ¬Told (state i) k → ∃ part, passages state deed k i =
    delivered ms ((arrivals state deed k i).filter (·.1 + ms < (state i).now)) ++ part ∧
      part <+: delivered ms ((arrivals state deed k i).filter (·.1 + ms = (state i).now))
  /-- Once it has been told to stop, nothing leaves it any more. If no message was due at that very moment, then those
  that were due before have been forwarded, and no others are. -/
  stops : ∀ s i, s < i → i ≤ n → ¬Told (state s) k → Told (state (s + 1)) k →
    passages state deed k i = passages state deed k s ∧
      ((∀ x ∈ arrivals state deed k s, x.1 + ms ≠ (state s).now) → passages state deed k i =
        delivered ms ((arrivals state deed k i).filter (·.1 + ms < (state s).now)))
  /-- It is told by a stop. If that has any time at all, it reports the node closed, without waiting for a moment. -/
  closes : ∀ s < n, ¬Told (state s) k → Told (state (s + 1)) k → 0 < (state s).closeTimeout →
    ∃ key c₀ given removed, deed s = .act (.resume key) ∧ (state s).call? key = some c₀ ∧ ⟨k, removed⟩ ∈ given ∧
      (given.map (·.node)).Nodup ∧ ∀ i, s < i → i ≤ n → WaitsSince state key s i →
        ∃ c js, ReportsClosed ms k removed key (state s) given c₀.report.tally (state i) c js

namespace History

variable (h : History state deed n) (hw : WellPaced state deed n k)
include h hw

theorem stopped_passages (hd : (state n).HoldsFor ms k) (hsi : s < i) (hi : i ≤ n) (ht : ¬Told (state s) k)
    (ht' : Told (state (s + 1)) k) (hdue : ∀ x ∈ arrivals state deed k s, x.1 + ms ≠ (state s).now) :
    passages state deed k i = delivered ms ((arrivals state deed k i).filter (·.1 + ms < (state s).now)) := by
  have hsn := Nat.le_of_lt (Nat.lt_of_lt_of_le hsi hi)
  obtain ⟨part, hpassed, hpart⟩ := (h.lined hw hd hsn ht).forwards (h.arrivals_sorted hw hsn)
  obtain ⟨later, harr, hlater, -⟩ := h.arrivals_later hw (Nat.le_of_lt hsi) hi
  have hnow : (arrivals state deed k s).filter (·.1 + ms = (state s).now) = [] :=
    List.filter_eq_nil_iff.mpr fun x hx => by simpa using hdue x hx
  have hnone : later.filter (·.1 + ms < (state s).now) = [] := List.filter_eq_nil_iff.mpr fun x hx => by
    have := (hlater x hx).1
    simp only [decide_eq_true_eq]
    omega
  rw [hnow] at hpart
  rw [(h.winds hw hd ht ht' hsi hi).2, hpassed, List.prefix_nil.mp hpart, harr, List.filter_append, hnone]
  simp only [List.append_nil]

end History

/-- Delay nodes keep order, time and messages, and close in time. -/
theorem delay_keeps_order (h : History state deed n) (hw : WellPaced state deed n k) {node : Node} {b : Behaviour}
    (hn : (state n).node? k = some node) (hp : node.part = .ordinary b) (ht : node.record.type = "delay") :
    ∃ ms, Delay.holdTime node.record = .ok ms ∧ KeepsOrder ms k state deed n := by
  cases h.stocked (Nat.le_refl n) k node b hn hp with
  | direct hdirect =>
    rw [ht] at hdirect
    exact absurd hdirect (by decide)
  | @holds ms _ hms =>
    have hd : (state n).HoldsFor ms k := fun node' hn' => by
      obtain rfl := Option.some.inj (hn.symm.trans hn')
      exact hp
    refine ⟨ms, hms, ?_, fun s i hsi hi ht ht' => ?_, fun s hs ht ht' hpos => ?_⟩
    · exact fun i hi ht => (h.lined hw hd hi ht).forwards (h.arrivals_sorted hw hi)
    · exact ⟨(h.winds hw hd ht ht' hsi hi).2, h.stopped_passages hw hd hsi hi ht ht'⟩
    · have hpaced := h.paced hw hd hs
      have hl := h.lined hw hd (Nat.le_of_lt hs) ht
      obtain ⟨key, c₀, given, removed, hdeed, hc₀, hmem, honce, hk, ⟨b, hb, hgiven⟩, c, js, hf⟩ :=
        (h.retires hw hd hs ht ht').findsClosed hpaced hl.numbered hl.putOff hpos
      refine ⟨key, c₀, given, removed, hdeed, hc₀, hmem, honce, fun i hsi hi hwait => ?_⟩
      obtain ⟨c, js, -, hf', -⟩ := h.findsClosed hw hd ht ht' hf hb hgiven hmem hk (Nat.lt_add_of_pos_right hpos) hsi hi
        hwait
      exact ⟨c, js, hf'.reports (h.holdsFor hd hi) (h.winds hw hd ht ht' hsi hi).1 hmem⟩

end Engine

/-- What an ordinary node does. -/
def Part.behaviour? : Part → Option Behaviour
  | .ordinary b => some b
  | _ => none

/-- The call that is gone on with. -/
def Action.resumed? : Action → Option CallKey
  | .resume key => some key
  | _ => none

namespace Session
open Engine

/-- A tab with a delay node. -/
def delayRecords : List Json := [
  .obj [("id", .str "t"), ("type", .str "tab")],
  .obj [("delay_ms", .nat 100), ("id", .str "n"), ("type", .str "delay"), ("z", .str "t")]]

def delayTab (closeTimeout : Nat) : Engine :=
  (start ⟨((Engine.make .standard .standalone [] [] closeTimeout).addLevel (.make .tab none (firstTab delayRecords))).1,
    some 0, .empty, []⟩ 0 none).2.engine

def laterMessage : Message := .ofJson "l" (.obj [("payload", .nat 2)])

/-- The node is handed a message, and some time after it has been forwarded another. Then the tab is stopped. -/
def delayStep (e : Engine) (i : Nat) : Deed × Engine :=
  if i = 0 then (.asked, e.push [.hand 0 soloMessage])
  else if i = 10 then (.rest, e.moveTo 150)
  else if i = 11 then (.asked, e.push [.hand 0 laterMessage])
  else if i = 16 then (.asked, (e.begin (stopStages 0 none none)).1)
  else (e.nextDeed, e.goOn)

def delayRun (closeTimeout : Nat) : Nat → Engine
  | 0 => delayTab closeTimeout
  | i + 1 => (delayStep (delayRun closeTimeout i) i).2

def delayDeed (closeTimeout i : Nat) : Deed := (delayStep (delayRun closeTimeout i) i).1

theorem delayStep_own {i : Nat} (hi : i ∉ [0, 10, 11, 16]) (e : Engine) : delayStep e i = (e.nextDeed, e.goOn) := by
  simp only [List.mem_cons, List.not_mem_nil, or_false, not_or] at hi
  simp only [delayStep, hi, if_false]

theorem paces_delayStep {e : Engine} {i : Nat} (hasked : i ∈ [0, 11, 16] → e.agenda = [])
    (hlapses : i = 10 → e.OnTime 150)
    (hgoes : e.broken = false ∧ (e.agenda = [] ∧ e.ready = [] ∧ e.putOff = [] ∨ (delayStep e i).2.now = e.now)) :
    Paces e (delayStep e i).1 (delayStep e i).2 := by
  by_cases h0 : i = 0
  · subst h0
    exact .handed (hasked (by decide)) 0 soloMessage
  by_cases h10 : i = 10
  · subst h10
    exact .lapses 150 (hlapses rfl)
  by_cases h11 : i = 11
  · subst h11
    exact .handed (hasked (by decide)) 0 laterMessage
  by_cases h16 : i = 16
  · subst h16
    exact .called (hasked (by decide)) (.stop _)
  have hstep := delayStep_own (i := i) (by simp [h0, h10, h11, h16]) e
  rw [hstep] at hgoes ⊢
  exact .goesOn hgoes.1 hgoes.2

theorem delayRun_run : (Deployment.parse delayRecords).isOk = true ∧ ∀ t ∈ [500, 0],
    ((delayRun t 0).tasks.isEmpty = true ∧ (delayRun t 0).timers.isEmpty = true ∧
      ((delayRun t 0).signal? 0).isNone = true) ∧
    (∀ i ∈ [0, 11, 16], (delayRun t i).agenda.isEmpty = true) ∧
    (∀ i ∈ [0, 5, 10], (delayRun t i).agenda.isEmpty = true ∧ (delayRun t i).ready.isEmpty = true ∧
      (delayRun t i).putOff.isEmpty = true) ∧
    ((delayRun t 10).now = 100 ∧ (delayRun t 10).nextDue? = none) ∧
    (∀ i ≤ 25, (delayRun t i).broken = false) ∧
    ∀ i < 25, i ∈ [5, 10] ∨ (delayRun t (i + 1)).now = (delayRun t i).now := by
  decide +kernel

theorem delayRun_node : ∀ t ∈ [500, 0], (∀ i ∈ [19, 25],
    ((delayRun t i).node? 0).map (fun node =>
      (node.record.type, (Delay.holdTime node.record).toOption, node.part.behaviour?.isSome)) =
        some ("delay", some 100, true)) ∧
    ((delayRun t 18).node? 0).map (·.cancelled) = some false ∧ ((delayRun t 19).node? 0).map (·.cancelled) = some true ∧
    ∀ i ∈ [18, 25], arrivals (delayRun t) (delayDeed t) 0 i = [(0, soloMessage), (150, laterMessage)] := by
  decide +kernel

theorem delayRun_stop :
    (∀ t ∈ [500, 0], (delayRun t 18).now = 150 ∧ (delayRun t 25).now = 150 ∧ (delayRun t 18).closeTimeout = t) ∧
    (∀ t ∈ [500, 0], (delayRun t 18).agenda.head?.bind Action.resumed? = some 1) ∧
    (∀ l ≤ 25, 18 < l → ((delayRun 500 l).call? 1).map (·.waiting.isEmpty) = some (l == 25)) ∧
    ((delayRun 0 19).call? 1).map (fun c => (c.waiting.isEmpty, c.report.closed, c.report.timedOut)) =
      some (true, [], ["n"]) := by
  decide +kernel

section

variable {t i : Nat} (ht : t ∈ [500, 0])
include ht

theorem paces_delayRun (hi : i < 25) : Paces (delayRun t i) (delayDeed t i) (delayRun t (i + 1)) := by
  obtain ⟨-, hagenda, hidle, ⟨hnow, hdue⟩, hbroken, hkeep⟩ := delayRun_run.2 t ht
  have hrest (j : Nat) (hj : j ∈ [0, 5, 10]) :
      (delayRun t j).agenda = [] ∧ (delayRun t j).ready = [] ∧ (delayRun t j).putOff = [] := by
    obtain ⟨ha, hr, hp⟩ := hidle j hj
    exact ⟨List.isEmpty_iff.mp ha, List.isEmpty_iff.mp hr, List.isEmpty_iff.mp hp⟩
  refine paces_delayStep (fun hm => ?_) (fun h10 => ?_) ⟨hbroken i (Nat.le_of_lt hi), ?_⟩
  · exact List.isEmpty_iff.mp (hagenda i hm)
  · rw [h10]
    refine onTime_of_nextDue? (hrest 10 (by decide)) (by rw [hnow]; decide) fun due hd => ?_
    cases hdue.symm.trans hd
  · exact (hkeep i hi).imp_left fun hm => hrest i (List.mem_cons_of_mem 0 hm)

theorem history_delayRun {n : Nat} (hn : n ≤ 25) : History (delayRun t) (delayDeed t) n ∧
    WellPaced (delayRun t) (delayDeed t) n 0 := by
  obtain ⟨⟨htasks, htimers, hsignal⟩, -, hidle, -⟩ := delayRun_run.2 t ht
  obtain ⟨ha, hr, hp⟩ := hidle 0 (by decide)
  have hmade : Reachable ((Engine.make .standard .standalone [] [] t).addLevel
      (.make .tab none (firstTab delayRecords))).1 :=
    (Reachable.make _ _ _ _ _).input rfl (.flow (.inl rfl) (parsed_firstTab delayRun_run.1))
  have hpaces (i : Nat) (hi : i < n) := paces_delayRun ht (Nat.lt_of_lt_of_le hi hn)
  refine ⟨⟨reachable_start hmade rfl, ?_, List.isEmpty_iff.mp ha, List.isEmpty_iff.mp htasks,
    fun i hi => (hpaces i hi).does⟩, wellPaced (fun key => ?_) (Option.isNone_iff_eq_none.mp hsignal) hpaces⟩
  · exact registry_of_grows ((Input.call (.start 0 none)).grows.trans (reach_complete _ _).grows)
  · rw [List.isEmpty_iff.mp hr, List.isEmpty_iff.mp hp, List.isEmpty_iff.mp htimers]
    exact ⟨nofun, nofun, nofun⟩

theorem node_delayRun (hi : i ∈ [19, 25]) : ∃ node b, (delayRun t i).node? 0 = some node ∧ node.part = .ordinary b ∧
    node.record.type = "delay" ∧ Delay.holdTime node.record = .ok 100 := by
  obtain ⟨node, hn, he⟩ := Option.map_eq_some_iff.mp ((delayRun_node t ht).1 i hi)
  obtain ⟨htype, htime, hpart⟩ := by simpa only [Prod.mk.injEq] using he
  have hms : Delay.holdTime node.record = .ok 100 := by
    cases h : Delay.holdTime node.record with
    | error => rw [h] at htime; cases htime
    | ok ms => rw [h] at htime; exact congrArg _ (Option.some.inj htime)
  cases hp : node.part with
  | ordinary b => exact ⟨node, b, hn, hp, htype, hms⟩
  | _ =>
    rw [hp] at hpart
    cases hpart

/-- The stop tells the node. -/
theorem told_delayRun : ¬Told (delayRun t 18) 0 ∧ Told (delayRun t 19) 0 := by
  obtain ⟨-, hbefore, hafter, -⟩ := delayRun_node t ht
  refine ⟨?_, Option.map_eq_some_iff.mp hafter⟩
  rintro ⟨node, hn, hc⟩
  rw [hn, Option.map_some, hc] at hbefore
  cases hbefore

/-- The stop is a call with this key. -/
theorem deed_delayRun : delayDeed t 18 = .act (.resume 1) := by
  obtain ⟨a, ha, hkey⟩ := Option.bind_eq_some_iff.mp (delayRun_stop.2.1 t ht)
  obtain ⟨agenda, hagenda⟩ := List.head?_eq_some_iff.mp ha
  rw [delayDeed, delayStep_own (by decide), nextDeed, hagenda]
  cases a with
  | resume key => exact congrArg (Deed.act ∘ Action.resume) (Option.some.inj hkey)
  | _ => cases hkey

end

/-- The first message is forwarded when its time has come. The second is dropped; and the node is reported closed at the
moment of the stop. -/
theorem delay_forwards_and_drops : ∃ state deed n node b, History state deed n ∧ WellPaced state deed n 0 ∧
    (state n).node? 0 = some node ∧ node.part = .ordinary b ∧ node.record.type = "delay" ∧
    arrivals state deed 0 n = [(0, soloMessage), (150, laterMessage)] ∧
    passages state deed 0 n = [(100, .sent 0 soloMessage), (100, .completed soloMessage)] ∧
    ∃ s key given removed base c js, s < n ∧ ReportsClosed 100 0 removed key (state s) given base (state n) c js ∧
      (⟨0, removed⟩, .closed) ∈ js ∧ (state n).now = (state s).now := by
  obtain ⟨hh, hw⟩ := history_delayRun (t := 500) (n := 25) (by decide) (by decide)
  obtain ⟨node, b, hn, hp, htype, hms⟩ := node_delayRun (t := 500) (i := 25) (by decide) (by decide)
  obtain ⟨htold, htold'⟩ := told_delayRun (t := 500) (by decide)
  obtain ⟨hnow, -, hwaiting, -⟩ := delayRun_stop
  obtain ⟨hnow, hnow', htimeout⟩ := hnow 500 (by decide)
  have harrivals := (delayRun_node 500 (by decide)).2.2.2
  obtain ⟨ms, hms', hk⟩ := delay_keeps_order hh hw hn hp htype
  obtain rfl : ms = 100 := Except.ok.inj (hms'.symm.trans hms)
  have hpassages : passages (delayRun 500) (delayDeed 500) 0 25 =
      delivered 100 ((arrivals (delayRun 500) (delayDeed 500) 0 25).filter (·.1 + 100 < (delayRun 500 18).now)) := by
    refine (hk.stops 18 25 (by decide) (by decide) htold htold').2 ?_
    rw [harrivals 18 (by decide), hnow]
    decide
  obtain ⟨key, c₀, given, removed, hdeed, -, -, -, hreports⟩ := hk.closes 18 (by decide) htold htold'
    (by rw [htimeout]; decide)
  obtain rfl : key = 1 := by
    rw [deed_delayRun (by decide)] at hdeed
    cases hdeed
    rfl
  have hwaits : WaitsSince (delayRun 500) 1 18 25 := by
    refine ⟨fun l hl hli => ?_, fun l _ hli => (delayRun_run.2 500 (by decide)).2.2.2.2.1 l hli⟩
    obtain ⟨c, hc, hw⟩ := Option.map_eq_some_iff.mp (hwaiting l (Nat.le_of_lt hli) hl)
    refine ⟨c, hc, fun hnone => ?_⟩
    rw [hnone, beq_eq_false_iff_ne.mpr (Nat.ne_of_lt hli)] at hw
    cases hw
  obtain ⟨c, js, hreport⟩ := hreports 25 (by decide) (by decide) hwaits
  have hdone : c.waiting = [] := by
    have hempty := hwaiting 25 (by decide) (by decide)
    rw [hreport.call] at hempty
    exact List.isEmpty_iff.mp (Option.some.inj hempty)
  refine ⟨_, _, 25, node, b, hh, hw, hn, hp, htype, harrivals 25 (by decide), ?_, 18, 1, given, removed, _, c, js,
    by decide, hreport, hreport.inTime (.inr (.inr hdone)), hnow'.trans hnow.symm⟩
  rw [hpassages, harrivals 25 (by decide), hnow]
  rfl

/-- A stop that has no time at all does not wait until what the node holds has been dropped. -/
theorem no_time_to_close : ∃ state deed s node b, History state deed (s + 1) ∧ WellPaced state deed (s + 1) 0 ∧
    (state (s + 1)).node? 0 = some node ∧ node.part = .ordinary b ∧ node.record.type = "delay" ∧
    Delay.holdTime node.record = .ok 100 ∧ ¬Told (state s) 0 ∧ Told (state (s + 1)) 0 ∧
    (∀ x ∈ arrivals state deed 0 s, x.1 + 100 ≠ (state s).now) ∧
    ∃ key c, deed s = .act (.resume key) ∧ (state (s + 1)).call? key = some c ∧ c.waiting = [] ∧
      c.report.closed = [] ∧ c.report.timedOut = ["n"] := by
  obtain ⟨hh, hw⟩ := history_delayRun (t := 0) (n := 19) (by decide) (by decide)
  obtain ⟨node, b, hn, hp, htype, hms⟩ := node_delayRun (t := 0) (i := 19) (by decide) (by decide)
  obtain ⟨htold, htold'⟩ := told_delayRun (t := 0) (by decide)
  obtain ⟨hnow, -, -, hreport⟩ := delayRun_stop
  obtain ⟨c, hc, he⟩ := Option.map_eq_some_iff.mp hreport
  obtain ⟨hwaiting, hclosed, htimedOut⟩ := by simpa only [Prod.mk.injEq] using he
  refine ⟨_, _, 18, node, b, hh, hw, hn, hp, htype, hms, htold, htold', ?_, 1, c, deed_delayRun (by decide), hc,
    List.isEmpty_iff.mp hwaiting, hclosed, htimedOut⟩
  rw [(delayRun_node 0 (by decide)).2.2.2 18 (by decide), (hnow 0 (by decide)).1]
  decide

end Session
end Flowgraph
