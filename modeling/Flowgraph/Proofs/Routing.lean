import Flowgraph.Proofs.Crafting
/-! The way of a signal: from level to level outward, over those that neither take it nor stop it. Whoever it is given
to hears of it, unless a stop of that level is under way. -/
namespace Flowgraph

/-- A signal ends at an instance whose template has a port of its own for it. Errors have none. -/
inductive Binding.Stops (b : Binding) : Signal → Prop
  | status {status : Status} (h : b.template.status.isSome = true) : Stops b (.status status)
  | complete {m : Message} (h : b.template.complete.isSome = true) : Stops b (.complete m)

theorem LevelKind.intercepts_iff {kind : LevelKind} {signal : Signal} :
    kind.intercepts signal = true ↔ ∃ b, kind = .expansion b ∧ b.Stops signal := by
  constructor
  · intro h
    cases kind with
    | expansion b =>
      cases signal with
      | error text about => cases h
      | status status => exact ⟨b, rfl, .status h⟩
      | complete m => exact ⟨b, rfl, .complete h⟩
    | _ => cases h
  · rintro ⟨b, rfl, ⟨h⟩ | ⟨h⟩⟩ <;> exact h

namespace Engine

variable {e e' e'' : Engine} {f i j k p : LevelKey} {id : NodeId} {n : NodeKey} {key : CallKey} {c : Call}

/-! ## Receivers pass on what they are handed -/

/-- What is built in for a type stands behind the nodes of the type, and no usage node is of such a type. -/
structure Parted (e : Engine) : Prop where
  nodes : ∀ n node part, e.node? n = some node → builtIn? node.record.type = some part → node.part = part
  installs : ∀ k r i, .install k r i ∈ e.plan → builtIn? r.type = none

theorem builtIn?_receiver {r : Record} (h : isReceiverType r.type = true) : builtIn? r.type = some .relay := by
  simp [builtIn?, h]

theorem Reachable.parted (h : Reachable e) : Parted e := by
  refine ⟨fun n node part hn htype => ?_, fun k r i hm => ?_⟩
  · exact (h.crafted.nodes n node hn).part_eq htype
  · obtain ⟨id, hu⟩ := h.crafted.installs k r i hm
    exact builtIn?_usage hu

/-! ## Who hears a signal -/

/-- An active receiver that has not been told to stop, and passes on what it is handed. -/
def Listens (e : Engine) (j : LevelKey) (id : NodeId) : Prop :=
  ∃ n node, e.activeKey? j id = some n ∧ e.node? n = some node ∧ node.part = .relay ∧ node.cancelled = false

/-- Work with messages makes nobody deaf. -/
theorem Listens.still (h : e.Listens j id) (hs : e'.still = e.still) : e'.Listens j id := by
  obtain ⟨n, node, hn, hnode, hpart, hc⟩ := h
  obtain ⟨node', hnode', he⟩ := exists_node?_of_still hs hnode
  refine ⟨n, node', ?_, hnode', ?_, ?_⟩
  · rw [activeKey?, level?_of_still hs]
    exact hn
  · exact (congrArg Node.part he).trans hpart
  · exact (congrArg Node.cancelled he).trans hc

/-- What is handed to a receiver that listens is sent on. -/
theorem Listens.handed (h : e.Listens j id) : ∃ n, ∀ m, e.handAt j id m = e.push [.hand n m] ∧
    (e.push [.hand n m]).hand n m = (e.push [.hand n m]).push [.effect n (.send 0 m)] := by
  obtain ⟨n, node, hn, hnode, hpart, hc⟩ := h
  refine ⟨n, fun m => ⟨?_, ?_⟩⟩
  · rw [handAt, hn]
  · rw [hand, node?_push, hnode]
    simp [hc, hpart]

/-- Whoever the table of a level selects listens, unless a stop of the level is under way. -/
theorem Reachable.listens (h : Reachable e) {l : Level} (hl : e.level? j = some l) {reporting : NodeId}
    {signal : Signal} (hid : id ∈ l.receivers.targets reporting signal) : e.Listens j id ∨ e.UnderStop j := by
  refine (h.informed.sound j).imp_left fun hs => ?_
  obtain ⟨r, hr, rfl⟩ := List.mem_map.mp (hs _ _ (by rw [hearing?, hl]; rfl) reporting signal id hid)
  obtain ⟨n, hm, hrec, htype⟩ := mem_receiverRecords.mp hr
  have hlaid := h.layout.laid j l hl
  obtain ⟨key, hkey⟩ := Dict.exists_key_of_mem_values hlaid.sortedActive hm
  obtain ⟨node, hnode, -, hid'⟩ := hlaid.active key n hkey
  rw [hnode] at hrec
  cases hrec
  have hact : e.activeKey? j key = some n := by rw [activeKey?, hl]; exact hkey
  refine ⟨n, node, ?_, hnode, h.parted.nodes n node _ hnode (builtIn?_receiver htype), h.informed.awake n node ⟨j, key, hact⟩ hnode⟩
  rw [show node.record.id = key from hid']
  exact hact

/-! ## The way outward -/

/-- A signal raised at a level, under an id, comes to another level, under the id by which it is reported there: all
levels before have no receiver for it and no port that stops it, and each reports under the id of its usage node. -/
inductive Comes (e : Engine) (signal : Signal) (k : LevelKey) (id : NodeId) : LevelKey → NodeId → Prop
  | here : Comes e signal k id k id
  | outward {j p : LevelKey} {reporting : NodeId} {l : Level} (h : Comes e signal k id j reporting)
      (hl : e.level? j = some l) (hn : l.receivers.targets reporting signal = [])
      (hs : ∀ b, l.kind = .expansion b → ¬b.Stops signal) (hp : l.parent = some p) (hx : e.hasLevel p = true) :
      Comes e signal k id p (l.kind.reportsAs reporting)

/-- How the way of a signal ends at a level. -/
inductive EndsAt (e : Engine) (signal : Signal) (j : LevelKey) (l : Level) (reporting : NodeId) : Route → Prop
  | taken (h : l.receivers.targets reporting signal ≠ []) :
      EndsAt e signal j l reporting (.taken j (l.receivers.targets reporting signal))
  | intercepted {b : Binding} (h : l.receivers.targets reporting signal = []) (hk : l.kind = .expansion b)
      (hb : b.Stops signal) : EndsAt e signal j l reporting .intercepted
  | outside (h : l.receivers.targets reporting signal = []) (hs : ∀ b, l.kind = .expansion b → ¬b.Stops signal)
      (hp : l.parent = none) : EndsAt e signal j l reporting .outside
  | lost {p : LevelKey} (h : l.receivers.targets reporting signal = [])
      (hs : ∀ b, l.kind = .expansion b → ¬b.Stops signal) (hp : l.parent = some p) (hx : e.hasLevel p = false) :
      EndsAt e signal j l reporting .lost

theorem Laid.parent_lt (h : Laid e) {l : Level} (hl : e.level? k = some l) (hp : l.parent = some p) : p < k := by
  cases hk : l.kind with
  | expansion b =>
    obtain ⟨p', hp', hlt⟩ := ((h k l hl).enclosed b hk).parent
    rw [hp] at hp'
    cases hp'
    exact hlt
  | _ =>
    have hnone := (h k l hl).outermost (by rw [hk]; rfl)
    rw [hp] at hnone
    cases hnone

theorem level?_of_hasLevel (h : e.hasLevel k = true) : ∃ l, e.level? k = some l := by
  unfold hasLevel at h
  cases hf : e.levelCount with
  | zero =>
    rw [hf] at h
    cases h
  | succ fuel =>
    rw [hf, existsWithin] at h
    cases hl : e.level? k with
    | none =>
      rw [hl] at h
      cases h
    | some l => exact ⟨l, rfl⟩

/-- With fuel enough for all levels around, the way of a signal is followed to its end. -/
theorem routeFrom_ends (hl : Laid e) {signal : Signal} {k₀ : LevelKey} {id₀ : NodeId} (fuel : Nat)
    {reporting : NodeId} (hlt : k < fuel) {l : Level} (hlevel : e.level? k = some l)
    (hc : e.Comes signal k₀ id₀ k reporting) : ∃ j reporting' l', e.Comes signal k₀ id₀ j reporting' ∧
      e.level? j = some l' ∧ e.EndsAt signal j l' reporting' (e.routeFrom signal fuel k reporting) := by
  induction fuel generalizing k reporting l with
  | zero => cases hlt
  | succ fuel ih =>
    rw [routeFrom, hlevel]
    dsimp only
    split
    · rename_i ht
      split
      · rename_i hi
        obtain ⟨b, hb, hs⟩ := LevelKind.intercepts_iff.mp hi
        exact ⟨k, reporting, l, hc, hlevel, .intercepted ht hb hs⟩
      · rename_i hi
        have hs (b : Binding) (hb : l.kind = .expansion b) : ¬b.Stops signal := fun h =>
          hi (LevelKind.intercepts_iff.mpr ⟨b, hb, h⟩)
        split
        · rename_i hp
          exact ⟨k, reporting, l, hc, hlevel, .outside ht hs hp⟩
        · rename_i p hp
          split
          · rename_i hx
            obtain ⟨lp, hlp⟩ := level?_of_hasLevel hx
            exact ih (Nat.lt_of_lt_of_le (hl.parent_lt hlevel hp) (Nat.le_of_lt_succ hlt)) hlp
              (hc.outward hlevel ht hs hp hx)
          · rename_i hx
            exact ⟨k, reporting, l, hc, hlevel, .lost ht hs hp (by simpa using hx)⟩
    · rename_i hne
      exact ⟨k, reporting, l, hc, hlevel, .taken hne⟩

/-- The way of a signal goes on from wherever it comes. -/
theorem Comes.route_eq (hl : Laid e) {signal : Signal} {origin : Origin} {reporting : NodeId} {l : Level}
    (hk : e.level? k = some l) (hc : e.Comes signal k origin.id j reporting) :
    ∃ fuel, j < fuel + 1 ∧ e.route k origin signal = e.routeFrom signal (fuel + 1) j reporting := by
  induction hc with
  | here =>
    have hlt := level?_lt e k hk
    refine ⟨e.levels.size - 1, ?_⟩
    have hsize : e.levels.size - 1 + 1 = e.levelCount := Nat.sub_add_cancel (Nat.zero_lt_of_lt hlt)
    rw [hsize]
    exact ⟨hlt, rfl⟩
  | @outward j p reporting l _ hj hn hs hp hx ih =>
    obtain ⟨fuel, hlt, hroute⟩ := ih
    have hpj := hl.parent_lt hj hp
    have hi : l.kind.intercepts signal = false := Bool.eq_false_iff.mpr fun h => by
      obtain ⟨b, hb, hstops⟩ := LevelKind.intercepts_iff.mp h
      exact hs b hb hstops
    rw [routeFrom, hj] at hroute
    dsimp only at hroute
    rw [hn, hi, hp, if_neg (by decide)] at hroute
    dsimp only at hroute
    rw [if_pos hx] at hroute
    cases fuel with
    | zero => exact absurd (Nat.lt_of_lt_of_le hpj (Nat.le_of_lt_succ hlt)) (Nat.not_lt_zero _)
    | succ fuel => exact ⟨fuel, Nat.lt_of_lt_of_le hpj (Nat.le_of_lt_succ hlt), hroute⟩

/-- A signal is taken by the level to which it comes if that has receivers for it. -/
theorem Comes.route_taken (hl : Laid e) {signal : Signal} {origin : Origin} {reporting : NodeId} {l l' : Level}
    (hk : e.level? k = some l) (hc : e.Comes signal k origin.id j reporting) (hj : e.level? j = some l')
    (ht : l'.receivers.targets reporting signal ≠ []) :
    e.route k origin signal = .taken j (l'.receivers.targets reporting signal) := by
  obtain ⟨fuel, -, hroute⟩ := hc.route_eq hl hk
  rw [hroute, routeFrom, hj]
  dsimp only
  split
  · rename_i h
    exact absurd h ht
  · rfl

/-! ## What raising a signal comes to -/

/-- The engine after a signal has been given to receivers of a level, each with a message of its own. -/
def handedOver (e : Engine) (j : LevelKey) (origin : Origin) (signal : Signal) (receivers : List NodeId) : Engine :=
  ({ e with nextMessage := e.nextMessage + receivers.length } : Engine).push
    (e.signalMessages j origin signal receivers)

theorem raise_of_taken {origin : Origin} {signal : Signal} {receivers : List NodeId} (hg : loops origin signal = false)
    (hr : e.route k origin signal = .taken j receivers) :
    e.raise k origin signal = (e.handedOver j origin signal receivers, true) := by
  rw [raise, hg, if_neg (by decide), hr]
  rfl

/-- What raising a signal at a level comes to. -/
inductive Raises (e : Engine) (k : LevelKey) (origin : Origin) (signal : Signal) : Engine × Bool → Prop
  | dropped (h : loops origin signal = true) : Raises e k origin signal (e, false)
  | nowhere (h : e.level? k = none) : Raises e k origin signal (e, false)
  | taken {j : LevelKey} {reporting : NodeId} {l : Level} (hc : e.Comes signal k origin.id j reporting)
      (hl : e.level? j = some l) (h : l.receivers.targets reporting signal ≠ []) :
      Raises e k origin signal (e.handedOver j origin signal (l.receivers.targets reporting signal), true)
  | intercepted {j : LevelKey} {reporting : NodeId} {l : Level} {b : Binding}
      (hc : e.Comes signal k origin.id j reporting) (hl : e.level? j = some l)
      (h : l.receivers.targets reporting signal = []) (hk : l.kind = .expansion b) (hb : b.Stops signal) :
      Raises e k origin signal (e, false)
  | leaves {j : LevelKey} {reporting : NodeId} {l : Level} (hc : e.Comes signal k origin.id j reporting)
      (hl : e.level? j = some l) (h : l.receivers.targets reporting signal = [])
      (hs : ∀ b, l.kind = .expansion b → ¬b.Stops signal) (hp : l.parent = none) :
      Raises e k origin signal (e.leave origin signal, false)
  | lost {j p : LevelKey} {reporting : NodeId} {l : Level} (hc : e.Comes signal k origin.id j reporting)
      (hl : e.level? j = some l) (h : l.receivers.targets reporting signal = [])
      (hs : ∀ b, l.kind = .expansion b → ¬b.Stops signal) (hp : l.parent = some p) (hx : e.hasLevel p = false) :
      Raises e k origin signal (e, false)

theorem raises_raise (hl : Laid e) (k : LevelKey) (origin : Origin) (signal : Signal) :
    Raises e k origin signal (e.raise k origin signal) := by
  unfold raise
  split
  · rename_i h
    exact .dropped h
  · cases hk : e.level? k with
    | none =>
      have hroute : e.route k origin signal = .lost := by
        unfold route
        cases e.levelCount with
        | zero => rfl
        | succ fuel => rw [routeFrom, hk]
      rw [hroute]
      exact .nowhere hk
    | some l =>
      have hhere : e.Comes signal k origin.id k origin.id := .here
      obtain ⟨j, reporting, l', hc, hj, he⟩ := routeFrom_ends hl e.levelCount (level?_lt e k hk) hk hhere
      change e.EndsAt signal j l' reporting (e.route k origin signal) at he
      generalize e.route k origin signal = way at he
      cases he with
      | taken h => exact .taken hc hj h
      | intercepted h hk hb => exact .intercepted hc hj h hk hb
      | outside h hs hp => exact .leaves hc hj h hs hp
      | lost h hs hp hx => exact .lost hc hj h hs hp hx

/-! ## What leaves all levels -/

/-- What a runtime publishes of a signal that leaves it. -/
def unhandled (origin : Origin) : Signal → List Event
  | .error text _ => [.unhandledError origin.id text]
  | .status _ | .complete _ => []

/-- What is noted of a signal that leaves a flow of its own. -/
def farewell (origin : Origin) : Signal → Note
  | .error text about => .errorLeft origin text about
  | .status status => .statusLeft origin status
  | .complete m => .completeLeft origin m

theorem leave_shared (ho : e.outside = .shared) (origin : Origin) (signal : Signal) :
    (e.leave origin signal).events = e.events ++ unhandled origin signal ∧
      (e.leave origin signal).notes = e.notes := by
  have hp (event : Event) : (e.publish event).events = e.events ++ [event] ∧ (e.publish event).notes = e.notes := by
    unfold publish wake
    dsimp only
    split
    · split <;> exact ⟨rfl, rfl⟩
    · exact ⟨rfl, rfl⟩
  unfold leave
  rw [ho]
  cases signal with
  | error text about => exact hp _
  | status status => exact ⟨(List.append_nil _).symm, rfl⟩
  | complete m => exact ⟨(List.append_nil _).symm, rfl⟩

theorem leave_standalone (ho : e.outside = .standalone) (origin : Origin) (signal : Signal) :
    (e.leave origin signal).notes = e.notes ++ [farewell origin signal] ∧
      (e.leave origin signal).events = e.events := by
  unfold leave
  rw [ho]
  cases signal <;> exact ⟨rfl, rfl⟩

/-! ## Levels inside a level that exists -/

/-- Fuel enough for all levels around a level is as good as any other. -/
theorem existsWithin_eq (hl : Laid e) (fuel fuel' : Nat) (h : k < fuel) (h' : k < fuel') :
    e.existsWithin fuel k = e.existsWithin fuel' k := by
  induction fuel generalizing k fuel' with
  | zero => cases h
  | succ fuel ih =>
    cases fuel' with
    | zero => cases h'
    | succ fuel' =>
      rw [existsWithin, existsWithin]
      cases hk : e.level? k with
      | none => rfl
      | some l =>
        dsimp only
        cases hp : l.parent with
        | none => rfl
        | some p =>
          have hlt := hl.parent_lt hk hp
          dsimp only
          rw [ih fuel' (Nat.lt_of_lt_of_le hlt (Nat.le_of_lt_succ h)) (Nat.lt_of_lt_of_le hlt (Nat.le_of_lt_succ h'))]

/-- A level that the one around it keeps exists as long as that. -/
theorem hasLevel_kept (hl : Laid e) (hx : e.hasLevel j = true) {around l : Level} (haround : e.level? j = some around)
    (hlevel : e.level? i = some l) (hp : l.parent = some j)
    (hkept : (around.instances.values.contains i || (e.standIns i).any around.active.values.contains) = true) :
    e.hasLevel i = true := by
  have hlt := level?_lt e i hlevel
  have hji := hl.parent_lt hlevel hp
  unfold hasLevel levelCount at *
  obtain ⟨fuel, hfuel⟩ : ∃ fuel, e.levels.size = fuel + 1 := ⟨e.levels.size - 1, by omega⟩
  rw [hfuel] at hlt
  have hjf : j < fuel := Nat.lt_of_lt_of_le hji (Nat.le_of_lt_succ hlt)
  have hj : e.existsWithin fuel j = true :=
    (existsWithin_eq hl fuel e.levels.size hjf (hfuel ▸ Nat.lt_succ_of_lt hjf)).trans hx
  rw [hfuel, existsWithin, hlevel]
  dsimp only
  rw [hp]
  dsimp only
  rw [hj, haround]
  dsimp only
  rw [hkept]
  simp

/-- The instance of a usage node exists as long as the level around it. -/
theorem hasLevel_instance (hl : Laid e) (hx : e.hasLevel j = true) (hi : e.instance? j id = some i) :
    e.hasLevel i = true := by
  obtain ⟨l, b, hlevel, -, hp, -⟩ := hl.isInstance hi
  obtain ⟨around, haround, hinst⟩ := Option.bind_eq_some_iff.mp hi
  refine hasLevel_kept hl hx haround hlevel hp ?_
  rw [Bool.or_eq_true, List.contains_iff_mem]
  exact .inl (Dict.mem_values hinst)

/-- A level exists as long as the one around it while an active node stands for it. -/
theorem hasLevel_standIn (hl : Laid e) (hx : e.hasLevel j = true) {n : NodeKey} {node : Node} {l : Level}
    (hn : e.activeKey? j id = some n) (hnode : e.node? n = some node) (hpart : node.part = .standIn i)
    (hlevel : e.level? i = some l) (hp : l.parent = some j) : e.hasLevel i = true := by
  obtain ⟨around, haround, hactive⟩ := Option.bind_eq_some_iff.mp hn
  refine hasLevel_kept hl hx haround hlevel hp ?_
  rw [Bool.or_eq_true, List.any_eq_true]
  refine .inr ⟨n, ?_, List.contains_iff_mem.mpr (Dict.mem_values hactive)⟩
  have hstands : isStandIn node i = true := by
    rw [isStandIn, hpart]
    exact beq_self_eq_true i
  have hlt : n < e.nodes.toList.length := by
    rw [Array.length_toList]
    exact node?_lt e n hnode
  refine List.mem_map.mpr ⟨(node, n), List.mem_filter.mpr ⟨?_, hstands⟩, rfl⟩
  rw [List.mem_zipIdx_iff_getElem?]
  change e.nodes.toList[n]? = some node
  rw [Array.getElem?_toList]
  exact hnode

theorem hasLevel_inside (hl : Laid e) (hx : e.hasLevel f = true) (hin : e.Inside f k) : e.hasLevel k = true := by
  induction hin with
  | here => exact hx
  | deeper _ hi ih => exact hasLevel_instance hl ih hi

/-- What lies around a level inside a flow lies inside the flow, too. -/
theorem Inside.parent (hl : Laid e) (hin : e.Inside f k) {l : Level} (hk : e.level? k = some l) (hp : l.parent = some p)
    (ho : ∀ l, e.level? f = some l → l.parent = none) : e.Inside f p := by
  cases hin with
  | here =>
    rw [ho l hk] at hp
    cases hp
  | deeper h hi =>
    obtain ⟨l', b, hl', -, hp', -⟩ := hl.isInstance hi
    obtain rfl := Option.some.inj (hk.symm.trans hl')
    obtain rfl := Option.some.inj (hp.symm.trans hp')
    exact h

theorem Comes.inside (hl : Laid e) {signal : Signal} {reporting : NodeId} (hc : e.Comes signal k id j reporting)
    (hin : e.Inside f k) (ho : ∀ l, e.level? f = some l → l.parent = none) : e.Inside f j := by
  induction hc with
  | here => exact hin
  | outward _ hlevel _ _ hp _ ih => exact ih.parent hl hlevel hp ho

end Engine
end Flowgraph
