import Flowgraph.Proofs.FlatGraph
import Flowgraph.Proofs.Renaming
/-! How an expansion is wired. A copy keeps the wires of its original, under the private names, and behind them stand
those that join its outputs to what lies outside, in the order of the output ports; the input node leads to the copies
behind the first input port, and straight on where the template joins its input to its outputs. -/
namespace Flowgraph

/-- The nodes to which an output of the node with this id is wired. -/
def wiring (nodes : List Record) (id : NodeId) (port : Nat) : List NodeId :=
  ((nodes.find? (·.id == id)).map (·.behind port)).getD []

/-- No wire of a template names a private id that has not been given away. -/
structure Template.Avoids (t : Template) (next : Nat) : Prop where
  wires : ∀ r ∈ t.nodes, ∀ port, ∀ id ∈ r.behind port, ∀ n, next ≤ n → id ≠ privateId n
  inputs : ∀ w ∈ t.entries, ∀ n, next ≤ n → w.node ≠ privateId n
  outputs : ∀ port ∈ t.outputs, ∀ w ∈ port.wires, ∀ n, next ≤ n → w.node ≠ privateId n

theorem wiring_of_mem {nodes : List Record} {r : Record} (hn : (nodes.map (·.id)).Nodup) (hr : r ∈ nodes) (port : Nat) :
    wiring nodes r.id port = r.behind port := by
  rw [wiring, find?_of_nodup (f := (·.id)) hn hr]
  rfl

/-- A node behind all others does not take the place of any. -/
theorem wiring_concat {nodes : List Record} {id : NodeId} (h : id ∈ nodes.map (·.id)) (r : Record) (port : Nat) :
    wiring (nodes ++ [r]) id port = wiring nodes id port := by
  obtain ⟨r', hr', hid⟩ := List.mem_map.mp h
  unfold wiring
  rw [List.find?_append]
  cases hf : nodes.find? (·.id == id) with
  | none =>
    have := List.find?_eq_none.mp hf r' hr'
    simp [hid] at this
  | some _ => rfl

/-- What each step of a fold appends is there at the end, in the order of the steps. -/
theorem foldlM_appends {α β γ : Type} {f : β → α → Option β} {P : β → Prop} {k : β → List γ} {d : α → List γ}
    {xs : List α} (step : ∀ b, ∀ a ∈ xs, ∀ b', P b → f b a = some b' → P b' ∧ k b' = k b ++ d a) {b b' : β}
    (h : xs.foldlM f b = some b') (hb : P b) : P b' ∧ k b' = k b ++ xs.flatMap d := by
  induction xs generalizing b with
  | nil =>
    cases h
    exact ⟨hb, by rw [List.flatMap_nil, List.append_nil]⟩
  | cons x xs ih =>
    rw [List.foldlM_cons] at h
    obtain ⟨m, hm, h⟩ := Option.bind_eq_some_iff.mp h
    obtain ⟨hp, hk⟩ := step b x List.mem_cons_self m hb hm
    obtain ⟨hp', hk'⟩ := ih (fun b a ha => step b a (List.mem_cons_of_mem _ ha)) h hp
    exact ⟨hp', by rw [hk', hk, List.flatMap_cons, List.append_assoc]⟩

namespace Binding

variable {b : Binding} {t : Template} {usage r : Record} {next port q : Nat} {outer wires wires' : Wires}
  {nodes nodes' : List Record} {id x : NodeId} {targets : List NodeId}

/-! ## One wire -/

theorem getD_extendPort? (h : extendPort? wires port targets = some wires') (q : Nat) :
    wires'[q]?.getD [] = wires[q]?.getD [] ++ if q = port then targets else [] := by
  unfold extendPort? at h
  split at h
  · cases h
    rw [List.getElem?_modify, List.getElem?_append]
    by_cases hq : q < wires.length
    · by_cases he : port = q
      · subst he
        simp [hq]
      · simp [hq, he, Ne.symm he]
    · have hnone : wires[q]? = none := List.getElem?_eq_none (Nat.le_of_not_lt hq)
      rw [if_neg hq, hnone, List.getElem?_replicate]
      by_cases he : port = q
      · subst he
        have : port - wires.length < port + 1 - wires.length := by omega
        simp [this]
      · by_cases hlt : q - wires.length < port + 1 - wires.length <;> simp [he, Ne.symm he, hlt]
  · cases h

theorem find?_set {i : Nat} {r' : Record} (hi : nodes[i]? = some r) (hid : r'.id = r.id) (x : NodeId) :
    (nodes.set i r').find? (·.id == x) =
      if nodes.findIdx? (·.id == x) = some i then some r' else nodes.find? (·.id == x) := by
  induction nodes generalizing i with
  | nil => cases hi
  | cons head nodes ih =>
    cases i with
    | zero =>
      cases hi
      rw [List.set_cons_zero, List.find?_cons, List.find?_cons, List.findIdx?_cons, hid]
      cases hr : r.id == x <;> simp
    | succ i =>
      have := ih (i := i) hi
      rw [List.set_cons_succ, List.find?_cons, List.find?_cons, List.findIdx?_cons, this]
      cases head.id == x <;> simp

/-- A node gets the targets behind its port if it is the one that is asked for. -/
theorem wiring_connect? (h : connect? nodes id port targets = some nodes') (hx : x ∈ nodes.map (·.id)) (q : Nat) :
    wiring nodes' x q = wiring nodes x q ++ if x = id ∧ q = port then targets else [] := by
  unfold connect? at h
  split at h
  · rename_i hnone
    cases h
    have hne : x ≠ id := by
      rintro rfl
      obtain ⟨r, hr, hid⟩ := List.mem_map.mp hx
      have := List.findIdx?_eq_none_iff.mp hnone r hr
      simp [hid] at this
    rw [if_neg fun h => hne h.1, List.append_nil]
  · rename_i i hi
    obtain ⟨r, hr, h⟩ := Option.bind_eq_some_iff.mp h
    obtain ⟨wires, hw, h⟩ := Option.bind_eq_some_iff.mp h
    cases h
    have hrid : r.id = id := by
      obtain ⟨hlt, hid, -⟩ := List.findIdx?_eq_some_iff_getElem.mp hi
      rw [List.getElem?_eq_getElem hlt] at hr
      cases hr
      simpa using hid
    have hset := find?_set hr (show ({ r with wires := some wires } : Record).id = r.id from rfl) x
    unfold wiring
    rw [hset]
    by_cases he : x = id
    · subst he
      have hfind : nodes.find? (·.id == x) = some r := by
        rw [List.find?_eq_bind_findIdx?_getElem?, hi]
        exact hr
      rw [if_pos hi, hfind]
      have := getD_extendPort? hw q
      simpa [Record.behind, Record.outputs] using this
    · have hother : nodes.findIdx? (·.id == x) ≠ some i := by
        intro hi'
        obtain ⟨hlt, hid', -⟩ := List.findIdx?_eq_some_iff_getElem.mp hi'
        rw [List.getElem?_eq_getElem hlt] at hr
        cases hr
        exact he ((by simpa using hid' : nodes[i].id = x).symm.trans hrid)
      rw [if_neg hother, if_neg fun h => he h.1, List.append_nil]

theorem ids_connect? (h : connect? nodes id port targets = some nodes') : nodes'.map (·.id) = nodes.map (·.id) :=
  ids_of_bare (connect?_bare h)

/-! ## Output ports -/

/-- A text that is no private id still to be given away gets the name of a template node only if it is its id. -/
theorem rename_eq_iff (hr : r ∈ t.nodes) {s : String} (hs : ∀ n, next ≤ n → s ≠ privateId n) :
    (Binding.make t usage next).rename r.id = (Binding.make t usage next).rename s ↔ s = r.id := by
  refine ⟨fun h => ?_, fun h => by rw [h]⟩
  rcases rename_cases t usage next r.id with hd | ⟨i, d, hd, hde, hdi⟩
  · exact absurd rfl (hd.2 r hr)
  · rcases rename_cases t usage next s with hs' | ⟨j, d', hd', hde', hj⟩
    · exact absurd (hs'.1.symm.trans (h.symm.trans hdi)) (hs (next + i) (Nat.le_add_right _ _))
    · have hij : j = i := by
        have := privateId_injective (hj.symm.trans (h.symm.trans hdi))
        omega
      subst hij
      rw [← hde', ← hde, Option.some.inj (hd'.symm.trans hd)]

theorem wiring_connectOutput? {p : Port} {passed : List NodeId}
    (h : (Binding.make t usage next).connectOutput? nodes p targets = some (nodes', passed))
    (hx : (Binding.make t usage next).rename r.id ∈ nodes.map (·.id)) (hr : r ∈ t.nodes) (hself : r.id ≠ t.id)
    (havoid : ∀ w ∈ p.wires, ∀ n, next ≤ n → w.node ≠ privateId n) (q : Nat) :
    nodes'.map (·.id) = nodes.map (·.id) ∧
      wiring nodes' ((Binding.make t usage next).rename r.id) q =
        wiring nodes ((Binding.make t usage next).rename r.id) q ++
          p.wires.flatMap fun w => if w.node == r.id && w.port == q then targets else [] := by
  refine foldlM_appends (P := fun s : List Record × List NodeId => s.1.map (·.id) = nodes.map (·.id))
    (k := fun s => wiring s.1 ((Binding.make t usage next).rename r.id) q) (fun s w hw s' hs hstep => ?_) h rfl
  dsimp only at hstep
  split at hstep
  · rename_i hout
    have hout : w.node = t.id := hout
    cases hstep
    have hne : (w.node == r.id) = false := beq_eq_false_iff_ne.mpr fun he => hself (he.symm.trans hout)
    simp [hs, hne]
  · obtain ⟨ms, hms, rfl⟩ := Option.map_eq_some_iff.mp hstep
    refine ⟨(ids_connect? hms).trans hs, ?_⟩
    rw [wiring_connect? hms (hs ▸ hx) q]
    congr 1
    refine if_congr ?_ rfl rfl
    rw [rename_eq_iff hr (havoid w hw), Bool.and_eq_true, beq_iff_eq, beq_iff_eq, eq_comm (a := q)]

theorem passed_connectOutput? {p : Port} {passed : List NodeId} (h : b.connectOutput? nodes p targets = some (nodes', passed)) :
    passed = p.wires.flatMap fun w => if w.node == b.template.id then targets else [] := by
  refine (foldlM_appends (P := fun _ => True) (k := fun s : List Record × List NodeId => s.2)
    (fun s w _ s' _ hstep => ⟨trivial, ?_⟩) h trivial).2
  dsimp only at hstep
  split at hstep
  · rename_i hout
    cases hstep
    simp [hout]
  · rename_i hout
    obtain ⟨ms, -, rfl⟩ := Option.map_eq_some_iff.mp hstep
    simp [hout]

/-- The outputs of a copy are joined in the order of the output ports of the template. -/
theorem wiring_connectOutputs? {passed : List NodeId}
    (h : (Binding.make t usage next).connectOutputs? outer nodes = some (nodes', passed))
    (hx : (Binding.make t usage next).rename r.id ∈ nodes.map (·.id)) (hr : r ∈ t.nodes) (hself : r.id ≠ t.id)
    (havoid : t.Avoids next) (q : Nat) :
    nodes'.map (·.id) = nodes.map (·.id) ∧
      wiring nodes' ((Binding.make t usage next).rename r.id) q =
        wiring nodes ((Binding.make t usage next).rename r.id) q ++
          t.joined (fun w => w.node == r.id && w.port == q) fun i => outer[i]?.getD [] := by
  refine foldlM_appends (P := fun s : List Record × List NodeId => s.1.map (·.id) = nodes.map (·.id))
    (k := fun s => wiring s.1 ((Binding.make t usage next).rename r.id) q)
    (d := fun p : Port × Nat => p.1.wires.flatMap fun w =>
      if w.node == r.id && w.port == q then outer[p.2]?.getD [] else []) (fun s p hp s' hs hstep => ?_) h rfl
  obtain ⟨⟨ms, more⟩, hms, hstep⟩ := Option.bind_eq_some_iff.mp hstep
  cases hstep
  obtain ⟨hids, hwiring⟩ := wiring_connectOutput? hms (hs ▸ hx) hr hself
    (havoid.outputs p.1 (List.fst_mem_of_mem_zipIdx hp)) q
  exact ⟨hids.trans hs, hwiring⟩

theorem passed_connectOutputs? {passed : List NodeId} (h : b.connectOutputs? outer nodes = some (nodes', passed)) :
    passed = b.template.joined (·.node == b.template.id) fun i => outer[i]?.getD [] := by
  refine (foldlM_appends (P := fun _ => True) (k := fun s : List Record × List NodeId => s.2)
    (fun s p _ s' _ hstep => ⟨trivial, ?_⟩) h trivial).2
  obtain ⟨⟨ms, more⟩, hms, hstep⟩ := Option.bind_eq_some_iff.mp hstep
  cases hstep
  rw [passed_connectOutput? hms]

/-! ## Sinks -/

/-- The sink behind an output of a node, once for each wire of the port that leads there. -/
def sunk (b : Binding) (p : Option Port) (sink : Option NodeId) (x : NodeId) (q : Nat) : List NodeId :=
  ((p.map (·.wires)).getD []).flatMap fun w => if x = b.rename w.node ∧ q = w.port then sink.toList else []

theorem eq_of_mem_sunk {p : Option Port} {sink : Option NodeId} {s : NodeId} (h : s ∈ b.sunk p sink x q) :
    sink = some s := by
  obtain ⟨w, -, hs⟩ := List.mem_flatMap.mp h
  split at hs
  · exact Option.mem_toList.mp hs
  · cases hs

/-- A sink comes behind everything else. -/
theorem wiring_addSink? {p : Option Port} {sink : Option NodeId} {type : String}
    (h : b.addSink? nodes p sink type = some nodes') (hx : x ∈ nodes.map (·.id)) (q : Nat) :
    x ∈ nodes'.map (·.id) ∧ wiring nodes' x q = wiring nodes x q ++ b.sunk p sink x q := by
  unfold addSink? at h
  split at h
  · rename_i port s
    obtain ⟨ms, hms, h⟩ := Option.bind_eq_some_iff.mp h
    cases h
    obtain ⟨hids, hw⟩ := foldlM_appends (P := fun ms : List Record => ms.map (·.id) = nodes.map (·.id))
      (k := fun ms => wiring ms x q) (d := fun w : PortWire => if x = b.rename w.node ∧ q = w.port then [s] else [])
      (fun ms w _ ms' hids hstep => ⟨(ids_connect? hstep).trans hids, wiring_connect? hstep (hids ▸ hx) q⟩) hms rfl
    refine ⟨?_, ?_⟩
    · rw [List.map_append, hids]
      exact List.mem_append_left _ hx
    · rw [wiring_concat (hids ▸ hx), hw]
      rfl
  · rename_i hnone
    cases h
    refine ⟨hx, ?_⟩
    cases p with
    | none => exact (List.append_nil _).symm
    | some port =>
      cases sink with
      | none => simp [sunk]
      | some s => exact absurd rfl (hnone port s rfl)

/-! ## The whole expansion -/

theorem copies_nodup (htidy : (t.nodes.map (·.id)).Nodup) :
    ((t.nodes.map (Binding.make t usage next).copy).map (·.id)).Nodup := by
  have hm : ((Binding.make t usage next).members.map (·.id)).Nodup := members_nodup htidy
  unfold members at hm
  rw [List.map_append] at hm
  exact hm.of_append_left

/-- The sinks of a template come behind all other wires of a copy. -/
theorem wiring_sinks (h : b.expand? outer = some nodes) (hx : x ∈ (b.template.nodes.map b.copy).map (·.id)) (q : Nat) :
    ∃ joined passed, b.connectOutputs? outer (b.template.nodes.map b.copy) = some (joined, passed) ∧
      wiring nodes x q = wiring joined x q ++ (b.sunk b.template.status b.statusSink x q ++
        b.sunk b.template.complete b.completeSink x q) := by
  unfold expand? at h
  obtain ⟨⟨joined, passed⟩, h₁, h⟩ := Option.bind_eq_some_iff.mp h
  obtain ⟨n₂, h₂, h⟩ := Option.bind_eq_some_iff.mp h
  obtain ⟨n₃, h₃, h⟩ := Option.bind_eq_some_iff.mp h
  cases h
  have hids : joined.map (·.id) = (b.template.nodes.map b.copy).map (·.id) := ids_of_bare (connectOutputs?_bare h₁)
  obtain ⟨hx₂, hstatus⟩ := wiring_addSink? h₂ (hids ▸ hx) q
  obtain ⟨hx₃, hcomplete⟩ := wiring_addSink? h₃ hx₂ q
  refine ⟨joined, passed, h₁, ?_⟩
  rw [wiring_concat hx₃, hcomplete, hstatus, List.append_assoc]

/-- The outputs of a copy: the wires of the original, then those that join the template to what lies outside, then its
sinks. -/
theorem wiring_expand? (h : (Binding.make t usage next).expand? outer = some nodes) (htidy : (t.nodes.map (·.id)).Nodup)
    (hr : r ∈ t.nodes) (hself : r.id ≠ t.id) (havoid : t.Avoids next) (q : Nat) :
    ∃ sinks, wiring nodes ((Binding.make t usage next).rename r.id) q =
      (r.behind q).map (Binding.make t usage next).rename ++
        t.joined (fun w => w.node == r.id && w.port == q) (fun i => outer[i]?.getD []) ++ sinks ∧
      ∀ s ∈ sinks, (Binding.make t usage next).statusSink = some s ∨ (Binding.make t usage next).completeSink = some s := by
  have hcopy : (Binding.make t usage next).copy r ∈ t.nodes.map (Binding.make t usage next).copy := List.mem_map_of_mem hr
  have hx : (Binding.make t usage next).rename r.id ∈ (t.nodes.map (Binding.make t usage next).copy).map (·.id) :=
    List.mem_map_of_mem (f := (·.id)) hcopy
  have hbehind : wiring (t.nodes.map (Binding.make t usage next).copy) ((Binding.make t usage next).rename r.id) q =
      (r.behind q).map (Binding.make t usage next).rename := by
    refine (wiring_of_mem (copies_nodup htidy) hcopy q).trans ?_
    cases hw : r.wires with
    | none => simp [Record.behind, Record.outputs, copy, hw]
    | some wires =>
      cases hq : wires[q]? <;> simp [Record.behind, Record.outputs, copy, hw, hq]
  obtain ⟨joined, passed, h₁, hsinks⟩ := wiring_sinks h hx q
  obtain ⟨-, hjoined⟩ := wiring_connectOutputs? h₁ hx hr hself havoid q
  have hown : wiring joined ((Binding.make t usage next).rename r.id) q = (r.behind q).map (Binding.make t usage next).rename ++
      t.joined (fun w => w.node == r.id && w.port == q) (fun i => outer[i]?.getD []) := hbehind ▸ hjoined
  refine ⟨_, hsinks.trans (by rw [hown]), fun s hs => ?_⟩
  exact (List.mem_append.mp hs).imp eq_of_mem_sunk eq_of_mem_sunk

/-- The input node of an expansion. -/
theorem input_mem_expand? (h : (Binding.make t usage next).expand? outer = some nodes) :
    (Binding.make t usage next).internal (Binding.make t usage next).input inputType
      [t.entries.map (fun w => (Binding.make t usage next).rename w.node) ++
        t.joined (·.node == t.id) fun i => outer[i]?.getD []] ∈ nodes := by
  unfold expand? at h
  obtain ⟨⟨n₁, passed⟩, h₁, h⟩ := Option.bind_eq_some_iff.mp h
  obtain ⟨n₂, h₂, h⟩ := Option.bind_eq_some_iff.mp h
  obtain ⟨n₃, h₃, h⟩ := Option.bind_eq_some_iff.mp h
  cases h
  rw [passed_connectOutputs? h₁]
  exact List.mem_append_right _ (List.mem_singleton.mpr rfl)

end Binding
end Flowgraph
