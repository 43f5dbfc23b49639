import Flowgraph.Proofs.Places
/-! Where the names in a flow that runs lead. A name of a copy is found in the copy and nowhere else, however far inside
it is looked up, and a name that nobody has there is not found at all; no level takes a signal. -/
namespace Flowgraph

/-- A node that sends on each message it handles, from its first output and once. It may do other things besides. -/
def Behaviour.Forwards (b : Behaviour) : Prop := ∀ situation m, (b.onInput situation m).tasks = [] ∧
  ∃ before after : List Effect, (b.onInput situation m).effects = before ++ .send 0 m :: after ∧
    ∀ x ∈ before ++ after, ∀ port m', x ≠ .send port m'

namespace Engine

variable {e s : Engine} {c : FlowConfig} {i j k p : LevelKey} {n : NodeKey} {node : Node} {path : List NodeId}
  {u id x : NodeId} {q : Place} {l : Level} {b : Binding}

/-! ## Looking up further out -/

theorem findOutward_eq (hl : Laid e) (fuel fuel' : Nat) (h : k < fuel) (h' : k < fuel') (id : NodeId) :
    e.findOutward fuel k id = e.findOutward fuel' k id := by
  induction fuel generalizing k fuel' with
  | zero => cases h
  | succ fuel ih =>
    cases fuel' with
    | zero => cases h'
    | succ fuel' =>
      rw [findOutward, findOutward]
      cases hk : e.level? k with
      | none => rfl
      | some l =>
        dsimp only
        cases hp : l.parent with
        | none => rfl
        | some p =>
          have hlt := hl.parent_lt hk hp
          dsimp only
          rw [ih fuel' (Nat.lt_of_lt_of_le hlt (Nat.le_of_lt_succ h)) (Nat.lt_of_lt_of_le hlt (Nat.le_of_lt_succ h'))]

theorem outward?_eq (hlevel : e.level? k = some l) (id : NodeId) : e.outward? k id =
    match l.active.get? id with
    | some n => some n
    | none =>
      match l.parent with
      | some p => if e.hasLevel p then e.findOutward (e.levelCount - 1) p id else none
      | none =>
        match e.outside with
        | .standalone => none
        | .shared => e.anywhere? id := by
  have hcount : e.levelCount = e.levelCount - 1 + 1 := by
    have := level?_lt e k hlevel
    change e.levels.size = e.levels.size - 1 + 1
    omega
  rw [outward?, hcount, findOutward, hlevel]
  rfl

/-- What is not on a level is looked up around it. -/
theorem outward?_parent (hl : Laid e) (hlevel : e.level? k = some l) (hp : l.parent = some p) (hx : e.hasLevel p = true)
    (hn : e.activeKey? k id = none) : e.outward? k id = e.outward? p id := by
  have hactive : l.active.get? id = none := by rwa [activeKey?, hlevel, Option.bind_some] at hn
  have hlt := hl.parent_lt hlevel hp
  have hsize := level?_lt e k hlevel
  rw [outward?_eq hlevel, hactive, hp]
  dsimp only
  rw [if_pos hx, outward?]
  exact findOutward_eq hl _ _ (Nat.lt_of_lt_of_le hlt (Nat.le_sub_one_of_lt hsize)) (Nat.lt_trans hlt hsize) id

theorem findInside_none (h : ∀ i, e.activeKey? i id = none) (fuel : Nat) (k : LevelKey) : e.findInside fuel k id = none := by
  induction fuel generalizing k with
  | zero => rfl
  | succ fuel ih =>
    rw [findInside]
    cases hl : e.level? k with
    | none => rfl
    | some l =>
      have hactive : l.active.get? id = none := by
        have := h k
        rwa [activeKey?, hl, Option.bind_some] at this
      dsimp only
      rw [hactive]
      exact List.findSome?_eq_none_iff.mpr fun i _ => ih i

/-- What is active nowhere is found nowhere. -/
theorem anywhere?_none (h : ∀ i, e.activeKey? i id = none) : e.anywhere? id = none := by
  have hglobal : (e.global.bind fun g => e.inside? g id) = none := by
    cases e.global with
    | none => rfl
    | some g => exact findInside_none h _ g
  rw [anywhere?, hglobal]
  exact List.findSome?_eq_none_iff.mpr fun f _ => findInside_none h _ f

theorem level_cases (e : Engine) (i : LevelKey) : e.level? i = none ∨ e.IsFlow i ∨ ∃ b, e.binding? i = some b := by
  cases hl : e.level? i with
  | none => exact .inl rfl
  | some l =>
    cases hk : l.kind with
    | expansion b => exact .inr (.inr ⟨b, binding?_of_kind hl hk⟩)
    | _ => exact .inr (.inl (isFlow_iff.mpr ⟨l, hl, by rw [hk]; rfl⟩))

/-! ## Flows that run -/

/-- Nothing else in an engine where flows can reach each other has a name that is used in a flow. -/
def Alone (e : Engine) (c : FlowConfig) (k : LevelKey) : Prop := e.outside = .shared → ∀ j, j ≠ k → e.IsFlow j →
  ∀ id, (∃ q, c.Wired q ∧ q.node = id) ∨ (∃ n, id = privateId n) → e.activeKey? j id = none

/-- A flow without receivers that has started and runs, with nothing else under way; its ordinary nodes forward. -/
structure Flowing (e : Engine) (c : FlowConfig) (k : LevelKey) : Prop where
  reachable : Reachable e
  composed : Composed e
  kept : e.Kept k
  erected : e.Erected c k
  parsed : c.Parsed
  plain : c.Plain
  discreet : c.Discreet
  alone : e.Alone c k
  forwards : ∀ p n node b, e.LivesAt c k p n → e.node? n = some node → node.part = .ordinary b → b.Forwards

namespace Flowing

theorem laid (h : e.Flowing c k) : Laid e := h.reachable.layout.laid

/-- The copies are there, whatever is done with messages. -/
theorem hasLevel (h : e.Flowing c k) (hj : e.CopyAt c k path j) (hs : s.still = e.still) : s.hasLevel j = true := by
  induction hj with
  | flow =>
    obtain ⟨l, hl, -⟩ := h.erected.config
    exact (h.kept.still hs).hasLevel ((level?_of_still hs k).trans hl)
  | @copy path j i u r n node hj hr hn hnode hpart ih =>
    have hcopy : e.CopyAt c k (u :: path) i := .copy hj hr hn hnode hpart
    obtain ⟨l, hl, hcorr⟩ := hj.corresponds h.erected h.reachable h.parsed
    obtain ⟨b, nodes, hi⟩ := h.erected.inner h.reachable hj hl hcorr hr hn hnode hpart
    obtain ⟨li, hli, -, hp, -⟩ := hi.level
    obtain ⟨node', hnode', he⟩ := exists_node?_of_still hs hnode
    have hactive : s.activeKey? j (e.nameAt j u) = some n := by rwa [activeKey?, level?_of_still hs]
    exact hasLevel_standIn (h.laid.still hs) ih hactive hnode' ((congrArg Node.part he :).trans hpart)
      ((level?_of_still hs i).trans hli) hp

/-! ## Signals -/

/-- No copy has receivers. -/
theorem receivers (h : e.Flowing c k) (hj : e.CopyAt c k path j) (hl : e.level? j = some l) : l.receivers = .none := by
  have hnone : e.receiverRecords l = [] := by
    refine List.eq_nil_iff_forall_not_mem.mpr fun r hr => ?_
    obtain ⟨n, hn, hrecord, htype⟩ := mem_receiverRecords.mp hr
    obtain ⟨id, hid⟩ := Dict.exists_key_of_mem_values (h.laid j l hl).sortedActive hn
    obtain ⟨node, hnode, he⟩ := h.erected.enacted path j id n hj (by rw [activeKey?, hl]; exact hid)
    obtain ⟨l', r', hl', hmem, hd, hbecomes⟩ := he.lists
    obtain rfl := Option.some.inj (hl.symm.trans hl')
    rw [hnode] at hrecord
    obtain rfl := Option.some.inj hrecord
    rw [hbecomes.type] at htype
    obtain ⟨l', hl', hcorr⟩ := hj.corresponds h.erected h.reachable h.parsed
    obtain rfl := Option.some.inj (hl.symm.trans hl')
    rcases hcorr.back r' hmem with hi | ⟨r, hr, -, htype', hd'⟩
    · unfold isInternalType at hi
      simp only [Bool.or_eq_true, beq_iff_eq] at hi
      rcases hi with (hi | hi) | hi <;>
        (rw [hi] at htype
         exact absurd htype (by decide))
    · have hsome : c.nodeAt? ⟨path, r.id⟩ = some r :=
        FlowConfig.enabled?_of_mem (h.parsed.nodup_nodesAt path) hr (hd'.symm.trans hd)
      rw [htype', h.plain.receivers _ r hsome] at htype
      cases htype
  rw [h.reachable.table_eq h.composed hl, hnone]
  rfl

/-- No level takes a signal. -/
theorem routeFrom_ne_taken (h : e.Flowing c k) (hs : s.still = e.still) (signal : Signal) (fuel : Nat)
    (hj : e.CopyAt c k path j) (reporting : NodeId) (i : LevelKey) (ids : List NodeId) :
    s.routeFrom signal fuel j reporting ≠ .taken i ids := by
  induction fuel generalizing path j reporting with
  | zero => exact Route.noConfusion
  | succ fuel ih =>
    rw [routeFrom, level?_of_still hs]
    cases hl : e.level? j with
    | none => exact Route.noConfusion
    | some l =>
      have htargets : l.receivers.targets reporting signal = [] := by
        rw [h.receivers hj hl]
        cases signal <;> rfl
      dsimp only
      rw [htargets]
      dsimp only
      split
      · exact Route.noConfusion
      · cases hp : l.parent with
        | none => exact Route.noConfusion
        | some p =>
          dsimp only
          split
          · cases path with
            | nil =>
              cases hj
              obtain ⟨l', hl', -, hk⟩ := h.erected.config
              obtain rfl := Option.some.inj (hl.symm.trans hl')
              rw [(h.laid k l hl).outermost hk] at hp
              cases hp
            | cons u path =>
              obtain ⟨p', b, node, nodes, hi⟩ := hj.inner h.erected h.reachable h.parsed
              obtain ⟨l', hl', -, hp', -⟩ := hi.level
              obtain rfl := Option.some.inj (hl.symm.trans hl')
              obtain rfl := Option.some.inj (hp.symm.trans hp')
              exact ih hi.around _
          · exact Route.noConfusion

/-- A signal leads to no work. -/
theorem agenda_raise (h : e.Flowing c k) (hs : s.still = e.still) (hj : e.CopyAt c k path j) (o : Origin)
    (signal : Signal) : (s.raise j o signal).1.agenda = s.agenda := by
  unfold raise
  split
  · rfl
  · cases hroute : s.route j o signal with
    | taken i ids => exact absurd hroute (h.routeFrom_ne_taken hs signal _ hj o.id i ids)
    | outside =>
      dsimp only
      unfold leave
      split <;> first | rfl | exact agenda_publish _ _
    | intercepted => rfl
    | lost => rfl

/-! ## Names -/

/-- A name is that of a node of the copy, or is no private id. -/
theorem name_cases (h : e.Flowing c k) (hj : e.CopyAt c k q.path j) (hw : c.Wired q) :
    (∃ b, e.binding? j = some b ∧ e.nameAt j q.node ∈ b.members.map (·.id) ∧
      q.node ∈ (c.nodesAt q.path).map (·.id)) ∨
    e.nameAt j q.node = q.node ∧ ((∃ u path, q.path = u :: path) → q.node ∉ (c.nodesAt q.path).map (·.id)) := by
  obtain ⟨path, x⟩ := q
  cases path with
  | nil =>
    cases hj
    obtain ⟨l, hl, -, hk⟩ := h.erected.config
    exact .inr ⟨nameAt_of_none (binding?_of_outermost hl hk) x, nofun⟩
  | cons u path =>
    obtain ⟨p, b, node, nodes, hi⟩ := hj.inner h.erected h.reachable h.parsed
    obtain ⟨next, -, hmade⟩ := hi.made
    have hnodes := FlowConfig.nodesAt_of_templateAt? hi.template
    dsimp only
    rw [hnodes, nameAt_of_binding? hi.binding?]
    rcases Binding.rename_cases b.template b.usage next x with ⟨hsame, hno⟩ | ⟨pos, r, hr, rfl, -⟩
    · refine .inr ⟨hmade ▸ hsame, fun _ hmem => ?_⟩
      obtain ⟨r, hr, hid⟩ := List.mem_map.mp hmem
      exact hno r hr hid
    · have hmem := List.mem_of_getElem? hr
      refine .inl ⟨b, hi.binding?, List.mem_map.mpr ⟨b.copy r, ?_, rfl⟩, List.mem_map_of_mem hmem⟩
      exact List.mem_append_left _ (List.mem_map_of_mem hmem)

/-- An instance has only nodes with names of its own. -/
theorem mem_members (h : e.Flowing c k) (hb : e.binding? i = some b) (hn : e.activeKey? i x = some n) :
    x ∈ b.members.map (·.id) := by
  obtain ⟨l, hl, hk⟩ := level?_of_binding? hb
  rw [activeKey?, hl, Option.bind_some] at hn
  exact ((h.laid i l hl).enclosed b hk).active x n hn

/-- A private id is active only in its instance. -/
theorem inactive_of_member (h : e.Flowing c k) (hb : e.binding? j = some b) (hx : x ∈ b.members.map (·.id)) (hij : i ≠ j)
    (hflow : e.IsFlow i → i = k ∨ e.outside = .shared) : e.activeKey? i x = none := by
  refine Option.eq_none_iff_forall_ne_some.mpr fun n hn => ?_
  obtain ⟨m, -, -, hprivate⟩ := (h.reachable.tailored.given j b hb).private hx
  rcases e.level_cases i with hnone | hf | ⟨b', hb'⟩
  · rw [activeKey?, hnone] at hn
    cases hn
  · by_cases hi : i = k
    · subst hi
      have hout : x ∉ c.nodes.map (·.id) := by
        intro hmem
        obtain ⟨r, hr, hid⟩ := List.mem_map.mp hmem
        exact h.discreet.ids r hr m (hid.trans hprivate)
      rw [h.erected.inactive h.reachable hout] at hn
      cases hn
    · rw [h.alone ((hflow hf).resolve_left hi) i hi hf x (.inr ⟨m, hprivate⟩)] at hn
      cases hn
  · exact h.reachable.tailored.apart j i b b' (Ne.symm hij) hb hb' x hx (h.mem_members hb' hn)

/-- A name that is no private id is not active in any instance. -/
theorem inactive_of_public (h : e.Flowing c k) (hb : e.binding? i = some b) (hx : ∀ n, x ≠ privateId n) :
    e.activeKey? i x = none := by
  refine Option.eq_none_iff_forall_ne_some.mpr fun n hn => ?_
  obtain ⟨m, -, -, hprivate⟩ := (h.reachable.tailored.given i b hb).private (h.mem_members hb hn)
  exact hx m hprivate

/-- A name of a copy is active there only. -/
theorem inactive_elsewhere (h : e.Flowing c k) (hj : e.CopyAt c k q.path j) (hw : c.Wired q) (hi : e.binding? i = some b)
    (hij : i ≠ j) : e.activeKey? i (e.nameAt j q.node) = none := by
  rcases h.name_cases hj hw with ⟨b', hb', hx, -⟩ | ⟨hsame, -⟩
  · refine h.inactive_of_member hb' hx hij fun hf => ?_
    obtain ⟨l, hl, hk⟩ := isFlow_iff.mp hf
    rw [binding?_of_outermost hl hk] at hi
    cases hi
  · rw [hsame]
    exact h.inactive_of_public hi (h.discreet.wires q hw)

/-- The name of nobody is active nowhere. -/
theorem inactive_everywhere (h : e.Flowing c k) (hj : e.CopyAt c k q.path j) (hw : c.Wired q) (hq : c.nodeAt? q = none)
    (i : LevelKey) (hflow : e.IsFlow i → i = k ∨ e.outside = .shared) : e.activeKey? i (e.nameAt j q.node) = none := by
  have hhere (hmem : q.node ∈ (c.nodesAt q.path).map (·.id)) : e.activeKey? j (e.nameAt j q.node) = none :=
    hj.inactive_of_mem h.erected h.reachable h.parsed hmem hq
  rcases h.name_cases hj hw with ⟨b, hb, hx, hmem⟩ | ⟨hsame, hout⟩
  · by_cases hij : i = j
    · subst hij
      exact hhere hmem
    · exact h.inactive_of_member hb hx hij hflow
  · rcases e.level_cases i with hnone | hf | ⟨b, hb⟩
    · rw [activeKey?, hnone]
      rfl
    · by_cases hi : i = k
      · subst hi
        rcases h.plain.wires q hw with hmem | hmem
        · obtain ⟨path, x⟩ := q
          cases path with
          | nil =>
            cases hj
            exact hhere hmem
          | cons u path => exact absurd hmem (hout ⟨u, path, rfl⟩)
        · rw [hsame]
          exact h.erected.inactive h.reachable hmem
      · rw [hsame]
        exact h.alone ((hflow hf).resolve_left hi) i hi hf _ (.inl ⟨q, hw, rfl⟩)
    · rw [hsame]
      exact h.inactive_of_public hb (h.discreet.wires q hw)

/-- What is active on no level around is not found. -/
theorem outward?_none (h : e.Flowing c k) (hs : s.still = e.still) (hj : e.CopyAt c k path j)
    (hx : ∀ i, (e.IsFlow i → i = k ∨ e.outside = .shared) → e.activeKey? i x = none) : s.outward? j x = none := by
  have hinactive (i : LevelKey) : s.activeKey? i x = e.activeKey? i x := by
    rw [activeKey?, level?_of_still hs, activeKey?]
  induction path generalizing j with
  | nil =>
    cases hj
    obtain ⟨l, hl, -, hk⟩ := h.erected.config
    have hactive : l.active.get? x = none := by
      have := hx k fun _ => .inl rfl
      rwa [activeKey?, hl, Option.bind_some] at this
    have hout : s.outside = e.outside := (congrArg Engine.outside hs :)
    rw [outward?_eq ((level?_of_still hs k).trans hl), hactive, (h.laid k l hl).outermost hk, hout]
    dsimp only
    cases ho : e.outside with
    | standalone => rfl
    | shared => exact anywhere?_none fun i => (hinactive i).trans (hx i fun _ => .inr ho)
  | cons u path ih =>
    obtain ⟨p, b, node, nodes, hi⟩ := hj.inner h.erected h.reachable h.parsed
    obtain ⟨l, hl, hk, hp, -⟩ := hi.level
    have hinst : e.activeKey? j x = none := hx j fun hf => by
      obtain ⟨l', hl', hk'⟩ := isFlow_iff.mp hf
      obtain rfl := Option.some.inj (hl.symm.trans hl')
      rw [hk] at hk'
      cases hk'
    rw [outward?_parent (h.laid.still hs) ((level?_of_still hs j).trans hl) hp (h.hasLevel hi.around hs)
      ((hinactive j).trans hinst)]
    exact ih hi.around

end Flowing
end Engine
end Flowgraph
