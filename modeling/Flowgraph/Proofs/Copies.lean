import Flowgraph.Proofs.Joining
/-! An expansion to the letter: the copies of the template's nodes, which private id stands for what, which wires each
output has got and in which order, and the nodes that come behind the copies. Taking the private ids back gives the nodes
of the template. -/
namespace Flowgraph

/-- Every text of a template that may stand for a node. -/
def Template.mentions (t : Template) : List String :=
  t.nodes.flatMap (fun r => r.id :: (r.outputs.flatten ++ r.references)) ++
    (t.inputs ++ t.outputs ++ t.status.toList ++ t.complete.toList).flatMap fun port => port.wires.map (·.node)

namespace Binding

variable {b : Binding} {r r' : Record} {id x s secret : NodeId} {port q : Nat} {targets : List NodeId}
  {rs nodes nodes' tail : List Record} {wires wires' outer : Wires} {js : List (Nat × List NodeId)}

/-! ## Private names -/

/-- All private ids of an instance. -/
def secrets (b : Binding) : List NodeId :=
  b.names.map (·.2) ++ b.input :: (b.statusSink.toList ++ b.completeSink.toList)

/-- Every node of the template has a private id, all private ids are different, and the template knows none. -/
structure Secret (b : Binding) : Prop where
  ids : (b.template.nodes.map (·.id)).Nodup
  named : b.names.map (·.1) = b.template.nodes.map (·.id)
  fitting : b.Fitting
  distinct : b.secrets.Nodup
  fresh : ∀ s ∈ b.template.mentions, s ∉ b.secrets

/-- The binding that takes private ids for the ids of the template. -/
def inverse (b : Binding) : Binding := { b with names := b.names.map Prod.swap }

theorem rename_inverse (b : Binding) (id : NodeId) : b.inverse.rename id = (b.aliasOf? id).getD id := by
  simp [rename, privateOf?, aliasOf?, inverse, List.find?_map, Function.comp_def]

namespace Secret

theorem privateOf?_of_mem (hb : b.Secret) (h : (id, secret) ∈ b.names) : b.privateOf? id = some secret := by
  rw [privateOf?, find?_of_nodup (f := (·.1)) (hb.named ▸ hb.ids) h]
  rfl

theorem aliasOf?_of_mem (hb : b.Secret) (h : (id, secret) ∈ b.names) : b.aliasOf? secret = some id := by
  rw [aliasOf?, find?_of_nodup (f := (·.2)) hb.distinct.of_append_left h]
  rfl

theorem exists_private (hb : b.Secret) (hr : r ∈ b.template.nodes) : ∃ secret, (r.id, secret) ∈ b.names := by
  have hid : r.id ∈ b.names.map (·.1) := hb.named ▸ List.mem_map_of_mem hr
  obtain ⟨⟨id, secret⟩, hm, rfl⟩ := List.mem_map.mp hid
  exact ⟨secret, hm⟩

theorem privateOf?_eq_none (hb : b.Secret) (h : ∀ r ∈ b.template.nodes, r.id ≠ s) : b.privateOf? s = none := by
  have hnone : b.names.find? (·.1 == s) = none := by
    refine List.find?_eq_none.mpr fun p hp he => ?_
    have hid : p.1 ∈ b.template.nodes.map (·.id) := hb.named ▸ List.mem_map_of_mem hp
    obtain ⟨r, hr, hrp⟩ := List.mem_map.mp hid
    exact h r hr (hrp.trans (by simpa using he))
  rw [privateOf?, hnone]
  rfl

theorem mem_secrets (h : (id, secret) ∈ b.names) : secret ∈ b.secrets :=
  List.mem_append_left _ (List.mem_map_of_mem (f := Prod.snd) h)

/-- A text is the id of a template node and becomes private, or it stays as it is. -/
theorem renames (hb : b.Secret) (s : String) :
    (∃ secret, (s, secret) ∈ b.names ∧ b.rename s = secret) ∨
      ((∀ r ∈ b.template.nodes, r.id ≠ s) ∧ b.rename s = s) := by
  by_cases hs : ∃ r ∈ b.template.nodes, r.id = s
  · obtain ⟨r, hr, rfl⟩ := hs
    obtain ⟨secret, hm⟩ := hb.exists_private hr
    exact .inl ⟨secret, hm, by rw [rename, hb.privateOf?_of_mem hm]; rfl⟩
  · have hnone : ∀ r ∈ b.template.nodes, r.id ≠ s := fun r hr he => hs ⟨r, hr, he⟩
    exact .inr ⟨hnone, by rw [rename, hb.privateOf?_eq_none hnone]; rfl⟩

/-- What the template mentions is found again behind its private name. -/
theorem rename_rename (hb : b.Secret) (hs : s ∈ b.template.mentions) : b.inverse.rename (b.rename s) = s := by
  rw [rename_inverse]
  rcases hb.renames s with ⟨secret, hm, hr⟩ | ⟨-, hr⟩
  · rw [hr, hb.aliasOf?_of_mem hm]
    rfl
  · -- a text that no node has as its id is not the private id of any
    have hnone : b.names.find? (·.2 == s) = none := by
      refine List.find?_eq_none.mpr fun p hp he => hb.fresh s hs ?_
      rw [← (by simpa using he : p.2 = s)]
      exact mem_secrets hp
    rw [hr, aliasOf?, hnone]
    rfl

theorem rename_eq_iff (hb : b.Secret) (hr : r ∈ b.template.nodes) (hs : s ∈ b.template.mentions) :
    b.rename r.id = b.rename s ↔ s = r.id := by
  refine ⟨fun h => ?_, fun h => by rw [h]⟩
  have hid : r.id ∈ b.template.mentions :=
    List.mem_append_left _ (List.mem_flatMap.mpr ⟨r, hr, List.mem_cons_self⟩)
  rw [← hb.rename_rename hs, ← h, hb.rename_rename hid]

/-- The sinks and the input node share their ids with no node that the template mentions. -/
theorem rename_ne (hb : b.Secret) (hs : s ∈ b.template.mentions)
    (hx : x ∈ b.input :: (b.statusSink.toList ++ b.completeSink.toList)) : x ≠ b.rename s := by
  rintro rfl
  rcases hb.renames s with ⟨secret, hm, hr⟩ | ⟨-, hr⟩
  · have hd := (List.nodup_append.mp hb.distinct).2.2 secret (List.mem_map_of_mem (f := Prod.snd) hm) _ hx
    exact hd hr.symm
  · exact hb.fresh s hs (List.mem_append_right _ (hr ▸ hx))

end Secret

/-! ## Values -/

mutual
/-- One value is another with all ids of template nodes made private, at any depth, and all else as it is. -/
inductive Relabels (b : Binding) : Json → Json → Prop
  | null : Relabels b .null .null
  | bool (v : Bool) : Relabels b (.bool v) (.bool v)
  | num (n : Number) : Relabels b (.num n) (.num n)
  | secret {s secret : String} (h : b.privateOf? s = some secret) : Relabels b (.str s) (.str secret)
  | text {s : String} (h : ∀ r ∈ b.template.nodes, r.id ≠ s) : Relabels b (.str s) (.str s)
  | arr {xs ys : List Json} (h : RelabelsItems b xs ys) : Relabels b (.arr xs) (.arr ys)
  | obj {xs ys : List (String × Json)} (h : RelabelsFields b xs ys) : Relabels b (.obj xs) (.obj ys)

inductive RelabelsItems (b : Binding) : List Json → List Json → Prop
  | nil : RelabelsItems b [] []
  | cons {x y : Json} {xs ys : List Json} (head : Relabels b x y) (rest : RelabelsItems b xs ys) :
    RelabelsItems b (x :: xs) (y :: ys)

inductive RelabelsFields (b : Binding) : List (String × Json) → List (String × Json) → Prop
  | nil : RelabelsFields b [] []
  | cons (key : String) {x y : Json} {xs ys : List (String × Json)} (head : Relabels b x y)
    (rest : RelabelsFields b xs ys) : RelabelsFields b ((key, x) :: xs) ((key, y) :: ys)
end

mutual
theorem relabels_renameValue (hb : b.Secret) : (v : Json) → Relabels b v (b.renameValue v)
  | .null => .null
  | .bool v => .bool v
  | .num n => .num n
  | .str s => by
    rcases hb.renames s with ⟨secret, hm, hr⟩ | ⟨hnone, hr⟩
    · rw [renameValue, hr]
      exact .secret (hb.privateOf?_of_mem hm)
    · rw [renameValue, hr]
      exact .text hnone
  | .arr xs => .arr (relabels_renameItems hb xs)
  | .obj xs => .obj (relabels_renameFields hb xs)

theorem relabels_renameItems (hb : b.Secret) : (xs : List Json) → RelabelsItems b xs (b.renameItems xs)
  | [] => .nil
  | x :: xs => .cons (relabels_renameValue hb x) (relabels_renameItems hb xs)

theorem relabels_renameFields (hb : b.Secret) :
    (xs : List (String × Json)) → RelabelsFields b xs (b.renameFields xs)
  | [] => .nil
  | (key, x) :: xs => .cons key (relabels_renameValue hb x) (relabels_renameFields hb xs)
end

mutual
theorem renameValue_renameValue (hb : b.Secret) : (v : Json) → (∀ s ∈ v.texts, s ∈ b.template.mentions) →
    b.inverse.renameValue (b.renameValue v) = v
  | .null, _ | .bool _, _ | .num _, _ => rfl
  | .str s, h => congrArg Json.str (hb.rename_rename (h s (List.mem_singleton.mpr rfl)))
  | .arr xs, h => congrArg Json.arr (renameItems_renameItems hb xs h)
  | .obj xs, h => congrArg Json.obj (renameFields_renameFields hb xs h)

theorem renameItems_renameItems (hb : b.Secret) : (xs : List Json) →
    (∀ s ∈ Json.textsOfItems xs, s ∈ b.template.mentions) → b.inverse.renameItems (b.renameItems xs) = xs
  | [], _ => rfl
  | x :: xs, h => by
    rw [renameItems, renameItems, renameValue_renameValue hb x fun s hs => h s (List.mem_append_left _ hs),
      renameItems_renameItems hb xs fun s hs => h s (List.mem_append_right _ hs)]

theorem renameFields_renameFields (hb : b.Secret) : (xs : List (String × Json)) →
    (∀ s ∈ Json.textsOfFields xs, s ∈ b.template.mentions) → b.inverse.renameFields (b.renameFields xs) = xs
  | [], _ => rfl
  | (key, x) :: xs, h => by
    rw [renameFields, renameFields, renameValue_renameValue hb x fun s hs => h s (List.mem_append_left _ hs),
      renameFields_renameFields hb xs fun s hs => h s (List.mem_append_right _ hs)]
end

/-! ## What is joined to one node -/

/-- A record with targets joined to its outputs, one after the other, each behind its port. -/
structure Joined (r : Record) (js : List (Nat × List NodeId)) (r' : Record) : Prop where
  bare : r'.bare = r.bare
  behind : ∀ q, r'.behind q = r.behind q ++ (js.filter (·.1 == q)).flatMap (·.2)
  ports : r'.outputs.length = js.foldl (fun count j => max count (j.1 + 1)) r.outputs.length
  unwired : r'.wires = none ↔ r.wires = none ∧ js = []

theorem Joined.refl (r : Record) : Joined r [] r :=
  ⟨rfl, fun q => by simp, rfl, by simp⟩

theorem length_extendPort? (h : extendPort? wires port targets = some wires') :
    wires'.length = max wires.length (port + 1) := by
  unfold extendPort? at h
  split at h
  · cases h
    simp only [List.length_modify, List.length_append, List.length_replicate]
    omega
  · cases h

theorem Joined.extend (h : Joined r js r') (hw : extendPort? r'.outputs port targets = some wires) :
    Joined r (js ++ [(port, targets)]) { r' with wires := some wires } where
  bare := h.bare
  behind q := by
    have hq : ({ r' with wires := some wires } : Record).behind q = wires[q]?.getD [] := rfl
    have hr' : r'.outputs[q]?.getD [] = r'.behind q := rfl
    rw [hq, getD_extendPort? hw, hr', h.behind, List.filter_append, List.flatMap_append, List.append_assoc]
    by_cases he : q = port
    · simp [he]
    · simp [he, Ne.symm he]
  ports := by
    have hl : ({ r' with wires := some wires } : Record).outputs.length = wires.length := rfl
    rw [hl, length_extendPort? hw, h.ports, List.foldl_append]
    rfl
  unwired := by simp

theorem Joined.renamed (h : Joined (b.copy r) js r') : r'.id = b.rename r.id :=
  eq_of_bare (·.id) (fun _ => rfl) h.bare

/-! ## What is joined to all copies -/

theorem connect?_cons (r : Record) (nodes : List Record) (id : NodeId) (port : Nat) (targets : List NodeId) :
    connect? (r :: nodes) id port targets =
      if r.id = id then (extendPort? r.outputs port targets).map fun wires => { r with wires := some wires } :: nodes
      else (connect? nodes id port targets).map (r :: ·) := by
  unfold connect?
  rw [List.findIdx?_cons]
  by_cases he : r.id = id
  · simp only [he, beq_self_eq_true, if_true]
    cases h : extendPort? r.outputs port targets <;> simp [h, he]
  · simp only [beq_eq_false_iff_ne.mpr he, he, if_false]
    cases hi : nodes.findIdx? (·.id == id) with
    | none => simp
    | some i =>
      cases hr : nodes[i]? with
      | none => simp [hr]
      | some r' => cases h : extendPort? r'.outputs port targets <;> simp [hr, h]

/-- Nothing is joined where nobody has the id. -/
theorem connect?_absent (h : ∀ r ∈ nodes, r.id ≠ id) : connect? nodes id port targets = some nodes := by
  have hnone : nodes.findIdx? (·.id == id) = none := by simpa [List.findIdx?_eq_none_iff] using h
  rw [connect?, hnone]

/-- The copies with what has been joined to each, and behind them other nodes. -/
def Copying (b : Binding) (given : NodeId → List (Nat × List NodeId)) (tail nodes : List Record) : Prop :=
  ∃ copies, nodes = copies ++ tail ∧
    List.Forall₂ (fun r r' => Joined (b.copy r) (given r.id) r') b.template.nodes copies

theorem copying_copies (b : Binding) : b.Copying (fun _ => []) [] (b.template.nodes.map b.copy) := by
  refine ⟨b.template.nodes.map b.copy, (List.append_nil _).symm, ?_⟩
  rw [List.forall₂_map_right_iff]
  exact List.forall₂_same.mpr fun r _ => .refl (b.copy r)

variable {given : NodeId → List (Nat × List NodeId)}

/-- One wire joins its targets to the copy of the node that it names, and leaves all others alone. -/
theorem joined_connect? {copies : List Record}
    (hc : List.Forall₂ (fun r r' => Joined (b.copy r) (given r.id) r') rs copies) (hids : (rs.map (·.id)).Nodup)
    (hx : ∀ r ∈ rs, b.rename r.id = b.rename x ↔ x = r.id) (htail : ∀ r ∈ tail, r.id ≠ b.rename x)
    (h : connect? (copies ++ tail) (b.rename x) port targets = some nodes') :
    ∃ copies', nodes' = copies' ++ tail ∧ List.Forall₂
      (fun r r' => Joined (b.copy r) (given r.id ++ if x = r.id then [(port, targets)] else []) r') rs copies' := by
  induction hc generalizing nodes' with
  | nil =>
    rw [List.nil_append, connect?_absent htail] at h
    cases h
    exact ⟨[], rfl, .nil⟩
  | @cons r r' rs copies head rest ih =>
    obtain ⟨hne, hids⟩ := List.nodup_cons.mp hids
    rw [List.cons_append, connect?_cons] at h
    by_cases he : x = r.id
    · rw [if_pos (head.renamed.trans ((hx r List.mem_cons_self).mpr he))] at h
      obtain ⟨wires, hw, rfl⟩ := Option.map_eq_some_iff.mp h
      -- no other node has this id
      have hothers : ∀ s ∈ rs, (if x = s.id then [(port, targets)] else []) = [] := fun s hs =>
        if_neg fun hs' => hne (List.mem_map.mpr ⟨s, hs, hs'.symm.trans he⟩)
      refine ⟨{ r' with wires := some wires } :: copies, rfl, .cons ?_ ?_⟩
      · rw [if_pos he]
        exact head.extend hw
      · refine List.forall₂_iff_get.mpr ⟨rest.length_eq, fun i hi hi' => ?_⟩
        have := (List.forall₂_iff_get.mp rest).2 i hi hi'
        rwa [hothers _ (List.get_mem rs ⟨i, hi⟩), List.append_nil]
    · rw [if_neg fun hr => he ((hx r List.mem_cons_self).mp (head.renamed.symm.trans hr))] at h
      obtain ⟨nodes'', hn, rfl⟩ := Option.map_eq_some_iff.mp h
      obtain ⟨copies', rfl, hc'⟩ := ih hids (fun s hs => hx s (List.mem_cons_of_mem _ hs)) hn
      refine ⟨r' :: copies', rfl, .cons ?_ hc'⟩
      rwa [if_neg he, List.append_nil]

theorem Copying.connect? (hb : b.Secret) (hx : x ∈ b.template.mentions) (htail : ∀ r ∈ tail, r.id ≠ b.rename x)
    (hc : b.Copying given tail nodes) (h : connect? nodes (b.rename x) port targets = some nodes') :
    b.Copying (fun id => given id ++ if x = id then [(port, targets)] else []) tail nodes' := by
  obtain ⟨copies, rfl, hc⟩ := hc
  exact joined_connect? hc hb.ids (fun r hr => hb.rename_eq_iff hr hx) htail h

/-- A fold that joins something with each step has joined it all in the end, in the order of the steps. -/
theorem Copying.foldlM {σ α : Type} {f : σ → α → Option σ} {g : σ → List Record}
    {d : α → NodeId → List (Nat × List NodeId)} {xs : List α}
    (step : ∀ s, ∀ a ∈ xs, ∀ s' given, b.Copying given tail (g s) → f s a = some s' →
      b.Copying (fun id => given id ++ d a id) tail (g s')) {s s' : σ}
    (hc : b.Copying given tail (g s)) (h : xs.foldlM f s = some s') :
    b.Copying (fun id => given id ++ xs.flatMap fun a => d a id) tail (g s') := by
  induction xs generalizing s given with
  | nil =>
    cases h
    simpa using hc
  | cons a xs ih =>
    rw [List.foldlM_cons] at h
    obtain ⟨m, hm, h⟩ := Option.bind_eq_some_iff.mp h
    have hc' := ih (fun s a' ha => step s a' (List.mem_cons_of_mem _ ha))
      (step s a List.mem_cons_self m given hc hm) h
    simpa [List.append_assoc] using hc'

/-- What the outputs of a template join to a node, wire by wire: the outer targets of the output, unless the wire
names the template itself. -/
def outputJoins (b : Binding) (outer : Wires) (id : NodeId) : List (Nat × List NodeId) :=
  b.template.outputs.zipIdx.flatMap fun (port, i) => port.wires.flatMap fun w =>
    if w.node = id ∧ w.node ≠ b.template.id then [(w.port, outer[i]?.getD [])] else []

/-- What a status or complete port joins to a node, wire by wire. -/
def sinkJoins (port : Option Port) (sink : Option NodeId) (id : NodeId) : List (Nat × List NodeId) :=
  (port.toList.flatMap (·.wires)).flatMap fun w => if w.node = id then [(w.port, sink.toList)] else []

/-- All that is joined to a node: first the outer targets in the order of the outputs, then the sinks. -/
def joins (b : Binding) (outer : Wires) (id : NodeId) : List (Nat × List NodeId) :=
  b.outputJoins outer id ++ sinkJoins b.template.status b.statusSink id ++
    sinkJoins b.template.complete b.completeSink id

theorem mentions_of_port {p : Port} {w : PortWire} {t : Template}
    (hp : p ∈ t.inputs ++ t.outputs ++ t.status.toList ++ t.complete.toList) (hw : w ∈ p.wires) :
    w.node ∈ t.mentions :=
  List.mem_append_right _ (List.mem_flatMap.mpr ⟨p, hp, List.mem_map_of_mem hw⟩)

theorem copying_connectOutput? (hb : b.Secret) {p : Port} (hp : p ∈ b.template.outputs) {passed : List NodeId}
    (hc : b.Copying given [] nodes) (h : b.connectOutput? nodes p targets = some (nodes', passed)) :
    b.Copying (fun id => given id ++ p.wires.flatMap fun w =>
      if w.node = id ∧ w.node ≠ b.template.id then [(w.port, targets)] else []) [] nodes' := by
  refine Copying.foldlM (g := fun s : List Record × List NodeId => s.1)
    (fun s w hw s' given hc hstep => ?_) hc h
  dsimp only at hstep
  split at hstep
  · rename_i hself
    cases hstep
    simpa [hself] using hc
  · rename_i hself
    obtain ⟨ms, hms, rfl⟩ := Option.map_eq_some_iff.mp hstep
    have hw := mentions_of_port (by simp [hp] : p ∈ b.template.inputs ++ b.template.outputs ++
      b.template.status.toList ++ b.template.complete.toList) hw
    simpa [hself] using hc.connect? hb hw (fun r hr => absurd hr List.not_mem_nil) hms

theorem copying_connectOutputs? (hb : b.Secret) {passed : List NodeId}
    (h : b.connectOutputs? outer (b.template.nodes.map b.copy) = some (nodes, passed)) :
    b.Copying (b.outputJoins outer) [] nodes := by
  refine (Copying.foldlM (g := fun s : List Record × List NodeId => s.1)
    (fun s p hp s' given hc hstep => ?_) b.copying_copies h)
  obtain ⟨⟨ms, more⟩, hms, hstep⟩ := Option.bind_eq_some_iff.mp hstep
  cases hstep
  exact copying_connectOutput? hb (List.fst_mem_of_mem_zipIdx hp) hc hms

theorem copying_addSink? (hb : b.Secret) {p : Option Port} {sink : Option NodeId} {type : String}
    (hp : ∀ port ∈ p, port ∈ b.template.inputs ++ b.template.outputs ++ b.template.status.toList ++
      b.template.complete.toList)
    (hsink : p.isSome = sink.isSome) (htail : ∀ r ∈ tail, r.id ∈ b.statusSink.toList ++ b.completeSink.toList)
    (hc : b.Copying given tail nodes) (h : b.addSink? nodes p sink type = some nodes') :
    b.Copying (fun id => given id ++ sinkJoins p sink id)
      (tail ++ sink.toList.map fun id => b.internal id type []) nodes' := by
  cases p with
  | none =>
    obtain rfl : sink = none := by simpa using hsink.symm
    cases h
    simpa [sinkJoins] using hc
  | some port =>
    obtain ⟨s, rfl⟩ := Option.isSome_iff_exists.mp hsink.symm
    obtain ⟨ms, hms, h⟩ := Option.bind_eq_some_iff.mp h
    cases h
    obtain ⟨copies, rfl, hcopies⟩ := Copying.foldlM (g := fun ms : List Record => ms)
      (d := fun w id => if w.node = id then [(w.port, [s])] else []) (fun ms w hw ms' given hc hstep => by
        have hw := mentions_of_port (hp port rfl) hw
        exact hc.connect? hb hw (fun r hr => hb.rename_ne hw (List.mem_cons_of_mem _ (htail r hr))) hstep) hc hms
    exact ⟨copies, by simp, by simpa [sinkJoins] using hcopies⟩

/-! ## The expansion -/

/-- The record of a template node that a record of an instance stands for: private ids give way to the ids of the
template. -/
def original (b : Binding) (r : Record) : Record := b.inverse.copy r

/-- A node of an instance against the template node of which it is the copy. -/
structure Copied (b : Binding) (outer : Wires) (r r' : Record) : Prop where
  id : b.privateOf? r.id = some r'.id
  type : r'.type = r.type
  disabled : r'.disabled = r.disabled
  container : r'.container = some b.usage.id
  /-- The same keys in the same order. All values are relabelled, environment definitions aside. -/
  properties : List.Forall₂ (fun p p' : String × Json => p'.1 = p.1 ∧
    if p.1 = "env" then p'.2 = p.2 else Relabels b p.2 p'.2) r.properties r'.properties
  /-- Behind the wires of the original stands what is joined to the port. -/
  wires : ∀ q, r'.behind q =
    (r.behind q).map b.rename ++ ((b.joins outer r.id).filter (·.1 == q)).flatMap (·.2)
  /-- There are as many ports as the original has, or as it takes to join what is joined. -/
  ports : r'.outputs.length = (b.joins outer r.id).foldl (fun count j => max count (j.1 + 1)) r.outputs.length
  /-- A node is without wiring only if its original is and nothing is joined to it. -/
  unwired : r'.wires = none ↔ r.wires = none ∧ b.joins outer r.id = []
  /-- Taking the private ids back gives the original, but for its container and for what has been joined. -/
  restored : (b.original r').bare = { r.bare with container := some b.usage.id }
  prefixed : ∀ q, r.behind q <+: (b.original r').behind q

/-- The nodes of an instance that are no copies: a sink for each status and complete port, and the input node, wired to
what the first input port leads to and to the outer targets of each output that leads straight to the input. -/
def internals (b : Binding) (outer : Wires) : List Record :=
  (b.statusSink.toList.map fun id => b.internal id statusSinkType []) ++
    (b.completeSink.toList.map fun id => b.internal id completeSinkType []) ++
    [b.internal b.input inputType [b.template.entries.map (fun w => b.rename w.node) ++
      b.template.joined (·.node == b.template.id) fun i => outer[i]?.getD []]]

theorem behind_copy (b : Binding) (r : Record) (q : Nat) : (b.copy r).behind q = (r.behind q).map b.rename := by
  cases hw : r.wires with
  | none => simp [Record.behind, Record.outputs, copy, hw]
  | some wires => cases hq : wires[q]? <;> simp [Record.behind, Record.outputs, copy, hw, hq]

theorem length_outputs_copy (b : Binding) (r : Record) : (b.copy r).outputs.length = r.outputs.length := by
  cases hw : r.wires <;> simp [Record.outputs, copy, hw]

theorem forall₂_properties (hb : b.Secret) (fields : Dict Json) :
    List.Forall₂ (fun p p' : String × Json => p'.1 = p.1 ∧ if p.1 = "env" then p'.2 = p.2 else Relabels b p.2 p'.2)
      fields (fields.map fun (k, v) => (k, if k = "env" then v else b.renameValue v)) := by
  rw [List.forall₂_map_right_iff]
  refine List.forall₂_same.mpr fun p _ => ⟨rfl, ?_⟩
  by_cases he : p.1 = "env"
  · simp [he]
  · simpa [he] using relabels_renameValue hb p.2

theorem restore_properties (hb : b.Secret) (fields : Dict Json)
    (hf : ∀ s ∈ Json.textsOfFields fields, s ∈ b.template.mentions) :
    ((fields.map fun (k, v) => (k, if k = "env" then v else b.renameValue v)).map
      fun (k, v) => (k, if k = "env" then v else b.inverse.renameValue v)) = fields := by
  induction fields with
  | nil => rfl
  | cons field fields ih =>
    obtain ⟨k, v⟩ := field
    have hv := renameValue_renameValue hb v fun s hs => hf s (List.mem_append_left _ hs)
    have hrest := ih fun s hs => hf s (List.mem_append_right _ hs)
    rw [List.map_cons, List.map_cons, hrest]
    by_cases he : k = "env" <;> simp [he, hv]

/-- What is mentioned by one node of a template. -/
theorem mentions_of_node {t : Template} (hr : r ∈ t.nodes) (hs : s ∈ r.id :: (r.outputs.flatten ++ r.references)) :
    s ∈ t.mentions := List.mem_append_left _ (List.mem_flatMap.mpr ⟨r, hr, hs⟩)

theorem mem_flatten_of_behind (hs : s ∈ r.behind q) : s ∈ r.outputs.flatten := by
  unfold Record.behind at hs
  cases hq : r.outputs[q]? with
  | none => simp [hq] at hs
  | some targets =>
    rw [hq] at hs
    exact List.mem_flatten.mpr ⟨targets, List.mem_of_getElem? hq, hs⟩

theorem Joined.copied (hb : b.Secret) (hr : r ∈ b.template.nodes) (h : Joined (b.copy r) (b.joins outer r.id) r') :
    Copied b outer r r' := by
  have field {α : Type} (f : Record → α) (hf : ∀ r, f r.bare = f r) : f r' = f (b.copy r) := eq_of_bare f hf h.bare
  have hid : b.inverse.rename (b.rename r.id) = r.id := hb.rename_rename (mentions_of_node hr List.mem_cons_self)
  refine ⟨?_, field (·.type) fun _ => rfl, field (·.disabled) fun _ => rfl, field (·.container) fun _ => rfl, ?_,
    fun q => by rw [h.behind, behind_copy], by rw [h.ports, length_outputs_copy], ?_, ?_, fun q => ?_⟩
  · obtain ⟨secret, hm⟩ := hb.exists_private hr
    rw [hb.privateOf?_of_mem hm, h.renamed, rename, hb.privateOf?_of_mem hm]
    rfl
  · rw [field (·.properties) fun _ => rfl]
    exact forall₂_properties hb r.properties
  · rw [h.unwired]
    simp [copy]
  · have hback : (b.original r').bare = (b.original (b.copy r)).bare := by
      have hbare := congrArg (fun r => (b.original r).bare) h.bare
      exact hbare
    have hprops := restore_properties hb r.properties fun s hs =>
      mentions_of_node hr (List.mem_cons_of_mem _ (List.mem_append_right _ hs))
    rw [hback]
    simp only [original, Record.bare, copy, hid, hprops]
    rfl
  · have hown : ((r.behind q).map b.rename).map b.inverse.rename = r.behind q := by
      rw [List.map_map]
      refine (List.map_congr_left fun s hs => ?_).trans (List.map_id _)
      exact hb.rename_rename (mentions_of_node hr
        (List.mem_cons_of_mem _ (List.mem_append_left _ (mem_flatten_of_behind hs))))
    rw [original, behind_copy, h.behind, behind_copy, List.map_append, hown]
    exact List.prefix_append _ _

/-- An expansion is the template with private ids, joined to what lies outside: the copies of its nodes in their order,
and the nodes behind its ports. -/
theorem expand?_exact (hb : b.Secret) (hcount : b.template.Countable) (outer : Wires) :
    ∃ copies, b.expand? outer = some (copies ++ b.internals outer) ∧
      List.Forall₂ (Copied b outer) b.template.nodes copies := by
  obtain ⟨nodes, h⟩ := expand?_isSome hcount outer
  have hexpand := h
  unfold expand? at h
  obtain ⟨⟨n₁, passed⟩, h₁, h⟩ := Option.bind_eq_some_iff.mp h
  obtain ⟨n₂, h₂, h⟩ := Option.bind_eq_some_iff.mp h
  obtain ⟨n₃, h₃, h⟩ := Option.bind_eq_some_iff.mp h
  cases h
  have hstatus := copying_addSink? hb (fun port hp => by simp [Option.mem_def.mp hp]) hb.fitting.status
    (fun r hr => absurd hr List.not_mem_nil) (copying_connectOutputs? hb h₁) h₂
  have hcomplete := copying_addSink? hb (fun port hp => by simp [Option.mem_def.mp hp]) hb.fitting.complete
    (fun r hr => by
      obtain ⟨s, hs, rfl⟩ := List.mem_map.mp hr
      exact List.mem_append_left _ hs) hstatus h₃
  obtain ⟨copies, rfl, hcopies⟩ := hcomplete
  refine ⟨copies, ?_, ?_⟩
  · rw [hexpand, passed_connectOutputs? h₁]
    simp [internals, inputTargets, Template.entries]
  · refine List.forall₂_iff_get.mpr ⟨hcopies.length_eq, fun i hi hi' => ?_⟩
    exact ((List.forall₂_iff_get.mp hcopies).2 i hi hi').copied hb (List.get_mem _ ⟨i, hi⟩)

/-! ## Bindings as the engine makes them -/

theorem names_make (t : Template) (usage : Record) (next : Nat) :
    (make t usage next).names.map (·.1) = t.nodes.map (·.id) := by
  refine List.ext_getElem? fun i => ?_
  simp [make, Function.comp_def]

theorem secrets_make (t : Template) (usage : Record) (next : Nat) :
    ((make t usage next).secrets).Perm ((places t).map fun i => privateId (next + i)) := by
  have hnames : (make t usage next).names.map (·.2) = (List.range t.nodes.length).map fun i => privateId (next + i) := by
    refine List.ext_getElem? fun i => ?_
    by_cases hi : i < t.nodes.length <;> simp [make, hi]
  have hinner : (make t usage next).statusSink.toList ++ (make t usage next).completeSink.toList =
      ((t.status.toList.map fun _ => t.nodes.length + 1) ++
        t.complete.toList.map fun _ => t.nodes.length + 1 + t.status.toList.length).map
          fun i => privateId (next + i) := by
    cases hs : t.status <;> cases hc : t.complete <;> simp [make, hs, hc, Nat.add_assoc]
  have hplaces : (places t).map (fun i => privateId (next + i)) =
      (List.range t.nodes.length).map (fun i => privateId (next + i)) ++
        (((t.status.toList.map fun _ => t.nodes.length + 1) ++
          t.complete.toList.map fun _ => t.nodes.length + 1 + t.status.toList.length).map
            (fun i => privateId (next + i)) ++ [(make t usage next).input]) := by
    simp [places, make]
  rw [secrets, hnames, hinner, hplaces]
  exact (List.Perm.refl _).append (List.perm_append_singleton _ _).symm

/-- The private ids that the engine gives away are secret, if the template names none of those to come. -/
theorem secret_make {t : Template} {next : Nat} (usage : Record) (ht : (t.nodes.map (·.id)).Nodup)
    (hf : ∀ s ∈ t.mentions, ∀ n, next ≤ n → s ≠ privateId n) : (make t usage next).Secret where
  ids := ht
  named := names_make t usage next
  fitting := fitting_make t usage next
  distinct := by
    rw [(secrets_make t usage next).nodup_iff]
    refine (places_nodup t).map_on fun i _ j _ h => ?_
    have := privateId_injective h
    omega
  fresh s hs hsecret := by
    obtain ⟨i, -, rfl⟩ := List.mem_map.mp ((secrets_make t usage next).mem_iff.mp hsecret)
    exact hf _ hs _ (Nat.le_add_right _ _) rfl

/-- A template with a gap before an output, an output behind its input, and a status port. -/
def gapped : Template where
  id := "s"
  name := none
  inputs := [⟨[⟨"a", 0⟩]⟩]
  outputs := [⟨[⟨"b", 2⟩, ⟨"s", 0⟩]⟩, ⟨[⟨"a", 0⟩, ⟨"x", 0⟩]⟩]
  status := some ⟨[⟨"a", 0⟩]⟩
  complete := none
  env := []
  nodes := [
    ⟨"a", "pass", some "s", some [["b"]], false, [("env", .str "b"), ("server", .arr [.obj [("b", .str "b")], .str "x"])]⟩,
    ⟨"b", "pass", some "s", none, true, []⟩]

def gappedUsage : Record := ⟨"u", "subflow:s", some "t", some [["x"], ["y"]], false, []⟩

theorem secret_gapped : (make gapped gappedUsage 0).Secret := by
  have hshort : ∀ s ∈ gapped.mentions, s.toList.length < 20 := by decide
  refine secret_make gappedUsage (by decide) fun s hs n _ he => ?_
  have := hshort s hs
  rw [he] at this
  exact absurd (twenty_le_length_privateId n) (Nat.not_le_of_lt this)

theorem countable_gapped : gapped.Countable := by
  constructor <;> unfold Port.Countable <;> decide

theorem expand?_exact_gapped : (make gapped gappedUsage 0).Secret ∧ (make gapped gappedUsage 0).template.Countable ∧
    ∃ copies, (make gapped gappedUsage 0).expand? gappedUsage.outputs =
        some (copies ++ (make gapped gappedUsage 0).internals gappedUsage.outputs) ∧
      List.Forall₂ (Copied (make gapped gappedUsage 0) gappedUsage.outputs) gapped.nodes copies :=
  ⟨secret_gapped, countable_gapped, expand?_exact secret_gapped countable_gapped gappedUsage.outputs⟩

end Binding
end Flowgraph
