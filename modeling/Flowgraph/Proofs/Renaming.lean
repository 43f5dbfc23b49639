import Mathlib.Data.List.Induction
import Flowgraph.Proofs.Acyclicity
import Flowgraph.Proofs.Expanding
/-! The private copy of a template depends on itself as the template does. Its nodes get new ids and more wires,
and new nodes join them, but no node needs another that its original does not need; so an expansion can be
ordered whenever its template can. -/
namespace Flowgraph

/-! ## Positions by name -/

namespace StartOrder

variable {nodes nodes' : List Record} {id : NodeId} {pos p : Nat}

/-- An enabled node with this id stands at a position. -/
def Named (nodes : List Record) (id : NodeId) (pos : Nat) : Prop :=
  ∃ r, nodes[pos]? = some r ∧ r.disabled = false ∧ r.id = id

theorem positionOf?_concat (nodes : List Record) (r : Record) (id : NodeId) :
    positionOf? (nodes ++ [r]) id =
      if r.disabled = false ∧ r.id = id then some nodes.length else positionOf? nodes id := by
  have hz : (nodes ++ [r]).zipIdx = nodes.zipIdx ++ [(r, nodes.length)] := by
    simp [List.zipIdx_append]
  unfold positionOf?
  rw [hz, List.filter_append]
  by_cases hr : r.disabled = false ∧ r.id = id
  · simp [hr.1, hr.2]
  · rw [if_neg hr]
    have : [(r, nodes.length)].filter (fun x => !x.1.disabled && x.1.id == id) = [] := by
      simpa using hr
    rw [this, List.append_nil]

theorem named_concat (nodes : List Record) (r : Record) (id : NodeId) (pos : Nat) :
    Named (nodes ++ [r]) id pos ↔ Named nodes id pos ∨ (pos = nodes.length ∧ r.disabled = false ∧ r.id = id) := by
  unfold Named
  rw [List.getElem?_append]
  by_cases hp : pos < nodes.length
  · simp [hp, Nat.ne_of_lt hp]
  · have hout : nodes[pos]? = none := List.getElem?_eq_none (Nat.le_of_not_lt hp)
    simp only [hp, if_false, hout, reduceCtorEq, false_and, exists_false, false_or]
    by_cases he : pos = nodes.length
    · simp [he]
    · have : pos - nodes.length ≠ 0 := by omega
      obtain ⟨n, hn⟩ := Nat.exists_eq_succ_of_ne_zero this
      simp [he, hn]

theorem Named.lt (h : Named nodes id pos) : pos < nodes.length := by
  obtain ⟨r, hr, -⟩ := h
  exact (List.getElem?_eq_some_iff.mp hr).1

/-- An id stands for the last enabled node that has it. -/
theorem positionOf?_eq_some : positionOf? nodes id = some pos ↔
    Named nodes id pos ∧ ∀ p, Named nodes id p → p ≤ pos := by
  induction nodes using List.reverseRecOn generalizing pos with
  | nil => simp [positionOf?, Named]
  | append_singleton nodes r ih =>
    rw [positionOf?_concat]
    simp only [named_concat]
    by_cases hr : r.disabled = false ∧ r.id = id
    · rw [if_pos hr]
      constructor
      · rintro h
        cases h
        exact ⟨.inr ⟨rfl, hr⟩, fun p hp => hp.elim (fun hp => Nat.le_of_lt hp.lt) fun hp => Nat.le_of_eq hp.1⟩
      · rintro ⟨hp | hp, hmax⟩
        · exact absurd (hmax nodes.length (.inr ⟨rfl, hr⟩)) (Nat.not_le_of_lt hp.lt)
        · rw [hp.1]
    · simp only [hr, and_false, or_false]
      exact ih

theorem mem_needs : p ∈ needs nodes pos ↔ ∃ r dep, nodes[pos]? = some r ∧ nodes[p]? = some dep ∧
    dep.disabled = false ∧ dep.isConfigNode = true ∧ r.refersTo dep.id = true ∧ positionOf? nodes dep.id = some p := by
  unfold needs
  cases nodes[pos]? with
  | none => simp
  | some r =>
    simp only [List.mem_map, List.mem_filter, Prod.exists, List.mem_zipIdx_iff_getElem?, Bool.and_eq_true,
      Bool.not_eq_eq_eq_not, Bool.not_true, beq_iff_eq, Option.some.injEq, and_assoc]
    constructor
    · rintro ⟨dep, i, hi, hd, hc, hr, hp, rfl⟩
      exact ⟨r, dep, rfl, hi, hd, hc, hr, hp⟩
    · rintro ⟨_, dep, rfl, hi, hd, hc, hr, hp⟩
      exact ⟨dep, p, hi, hd, hc, hr, hp, rfl⟩

end StartOrder

/-! ## What a copy names -/

/-- No template node names a private id that has not been given away. -/
def Template.Fresh (t : Template) (next : Nat) : Prop :=
  ∀ r ∈ t.nodes, ∀ s ∈ r.references, ∀ n, next ≤ n → s ≠ privateId n

theorem Template.Fresh.mono {t : Template} {next next' : Nat} (h : t.Fresh next) (hn : next ≤ next') : t.Fresh next' :=
  fun r hr s hs n hle => h r hr s hs n (Nat.le_trans hn hle)

namespace Binding

variable {b : Binding} {t : Template} {usage r dep : Record} {next pos : Nat} {outer : Wires}
  {nodes nodes' : List Record}

mutual
theorem texts_renameValue (b : Binding) : (v : Json) → (b.renameValue v).texts = v.texts.map b.rename
  | .null | .bool _ | .num _ | .str _ => rfl
  | .arr xs => texts_renameItems b xs
  | .obj xs => texts_renameFields b xs

theorem texts_renameItems (b : Binding) :
    (xs : List Json) → Json.textsOfItems (b.renameItems xs) = (Json.textsOfItems xs).map b.rename
  | [] => rfl
  | x :: xs => by
    rw [renameItems, Json.textsOfItems, Json.textsOfItems, List.map_append, texts_renameValue b x,
      texts_renameItems b xs]

theorem texts_renameFields (b : Binding) :
    (xs : List (String × Json)) → Json.textsOfFields (b.renameFields xs) = (Json.textsOfFields xs).map b.rename
  | [] => rfl
  | (k, x) :: xs => by
    rw [renameFields, Json.textsOfFields, Json.textsOfFields, List.map_append, texts_renameValue b x,
      texts_renameFields b xs]
end

/-- A copy names what its original names, under the same or the private name. -/
theorem mem_references_copy {s : String} (h : s ∈ (b.copy r).references) :
    s ∈ r.references ∨ ∃ s' ∈ r.references, s = b.rename s' := by
  have general (fields : Dict Json)
      (h : s ∈ Json.textsOfFields (fields.map fun field =>
        (field.1, if field.1 = "env" then field.2 else b.renameValue field.2))) :
      s ∈ Json.textsOfFields fields ∨ ∃ s' ∈ Json.textsOfFields fields, s = b.rename s' := by
    induction fields with
    | nil => cases h
    | cons field fields ih =>
      obtain ⟨k, v⟩ := field
      simp only [List.map_cons, Json.textsOfFields, List.mem_append] at h ⊢
      rcases h with h | h
      · split at h
        · exact .inl (.inl h)
        · rw [texts_renameValue] at h
          obtain ⟨s', hs', rfl⟩ := List.mem_map.mp h
          exact .inr ⟨s', .inl hs', rfl⟩
      · rcases ih h with h | ⟨s', hs', he⟩
        · exact .inl (.inr h)
        · exact .inr ⟨s', .inr hs', he⟩
  exact general r.properties h

theorem isConfigNode_copy (b : Binding) (r : Record) : (b.copy r).isConfigNode = r.isConfigNode := by
  have hkeys (key : String) : Dict.contains (b.copy r).properties key = Dict.contains r.properties key := by
    simp [Dict.contains, copy, Function.comp_def]
  unfold Record.isConfigNode
  rw [hkeys, hkeys]
  cases hw : r.wires <;> simp [copy, hw]

/-! ## Private names -/

theorem mem_names {id secret : NodeId} (h : (id, secret) ∈ (Binding.make t usage next).names) :
    ∃ i r, t.nodes[i]? = some r ∧ r.id = id ∧ secret = privateId (next + i) := by
  obtain ⟨⟨r, i⟩, hm, he⟩ := List.mem_map.mp h
  cases he
  exact ⟨i, r, List.mem_zipIdx_iff_getElem?.mp hm, rfl, rfl⟩

/-- A text either stays as it is, or is the id of a template node and becomes a private id. -/
theorem rename_cases (t : Template) (usage : Record) (next : Nat) (s : String) :
    ((Binding.make t usage next).rename s = s ∧ ∀ r ∈ t.nodes, r.id ≠ s) ∨
    ∃ i r, t.nodes[i]? = some r ∧ r.id = s ∧ (Binding.make t usage next).rename s = privateId (next + i) := by
  unfold rename privateOf?
  cases hf : (Binding.make t usage next).names.find? (·.1 == s) with
  | none =>
    refine .inl ⟨rfl, fun r hr he => ?_⟩
    obtain ⟨i, hi⟩ := List.mem_iff_getElem?.mp hr
    have hm : (r.id, privateId (next + i)) ∈ (Binding.make t usage next).names :=
      List.mem_map.mpr ⟨(r, i), List.mem_zipIdx_iff_getElem?.mpr hi, rfl⟩
    have := List.find?_eq_none.mp hf _ hm
    simp [he] at this
  | some entry =>
    obtain ⟨id, secret⟩ := entry
    have hid : id = s := by simpa using List.find?_some hf
    obtain ⟨i, r, hr, rfl, rfl⟩ := mem_names (List.mem_of_find?_eq_some hf)
    exact .inr ⟨i, r, hr, hid, rfl⟩

/-- The name of a template node is private. -/
theorem rename_id (usage : Record) (next : Nat) (hr : r ∈ t.nodes) :
    ∃ i < t.nodes.length, (Binding.make t usage next).rename r.id = privateId (next + i) := by
  rcases rename_cases t usage next r.id with h | ⟨i, r', hr', -, h⟩
  · exact absurd rfl (h.2 r hr)
  · exact ⟨i, (List.getElem?_eq_some_iff.mp hr').1, h⟩

/-- Only the id of a node becomes its private name, as far as the texts of a template go. -/
theorem eq_of_rename_eq (hf : t.Fresh next) (hdep : dep ∈ t.nodes) {s : String}
    (hs : (∃ r ∈ t.nodes, s ∈ r.references) ∨ ∃ r ∈ t.nodes, r.id = s)
    (h : (Binding.make t usage next).rename s = (Binding.make t usage next).rename dep.id) : s = dep.id := by
  rcases rename_cases t usage next dep.id with hd | ⟨i, d, hd, hde, hdi⟩
  · exact absurd rfl (hd.2 dep hdep)
  · rcases rename_cases t usage next s with hs' | ⟨j, r, hr, hre, hj⟩
    · rcases hs with ⟨r, hr, hs⟩ | ⟨r, hr, hs⟩
      · exact absurd (hs'.1.symm.trans (h.trans hdi)) (hf r hr s hs (next + i) (Nat.le_add_right _ _))
      · exact absurd hs (hs'.2 r hr)
    · have hij : j = i := by
        have := privateId_injective (hj.symm.trans (h.trans hdi))
        omega
      subst hij
      rw [← hre, ← hde, Option.some.inj (hr.symm.trans hd)]

/-! ## The places of an expansion -/

/-- What does not depend on the wiring is the same for records that differ in their wiring alone. -/
theorem eq_of_bare {α : Type} {r₁ r₂ : Record} (f : Record → α) (hf : ∀ r, f r.bare = f r) (h : r₁.bare = r₂.bare) :
    f r₁ = f r₂ := by
  rw [← hf r₁, ← hf r₂, h]

/-- A record without wiring stands at a position. -/
def Unwired (nodes : List Record) (pos : Nat) : Prop := ∃ r, nodes[pos]? = some r ∧ r.wires = none

theorem unwired_connect? {id : NodeId} {port : Nat} {targets : List NodeId}
    (h : connect? nodes id port targets = some nodes') (hu : Unwired nodes' pos) : Unwired nodes pos := by
  unfold connect? at h
  split at h
  · cases h
    exact hu
  · rename_i i _
    obtain ⟨r, -, h⟩ := Option.bind_eq_some_iff.mp h
    obtain ⟨wires, -, h⟩ := Option.bind_eq_some_iff.mp h
    cases h
    obtain ⟨r', hr', hw⟩ := hu
    rw [List.getElem?_set] at hr'
    split at hr'
    · split at hr'
      · cases hr'
        cases hw
      · cases hr'
    · exact ⟨r', hr', hw⟩

theorem unwired_connectOutput? {port : Port} {targets passed : List NodeId}
    (h : b.connectOutput? nodes port targets = some (nodes', passed)) (hu : Unwired nodes' pos) : Unwired nodes pos := by
  refine foldlM_invariant (P := fun s : List Record × List NodeId => Unwired s.1 pos → Unwired nodes pos)
    (fun s w s' hs hstep => ?_) h id hu
  dsimp only at hstep
  split at hstep
  · cases hstep
    exact hs
  · obtain ⟨ms, hms, rfl⟩ := Option.map_eq_some_iff.mp hstep
    exact fun hu => hs (unwired_connect? hms hu)

theorem unwired_connectOutputs? {passed : List NodeId}
    (h : b.connectOutputs? outer nodes = some (nodes', passed)) (hu : Unwired nodes' pos) : Unwired nodes pos := by
  refine foldlM_invariant (P := fun s : List Record × List NodeId => Unwired s.1 pos → Unwired nodes pos)
    (fun s port s' hs hstep => ?_) h id hu
  obtain ⟨⟨ns, more⟩, hns, hstep⟩ := Option.bind_eq_some_iff.mp hstep
  cases hstep
  exact fun hu => hs (unwired_connectOutput? hns hu)

theorem unwired_concat {internal : Record} (hw : internal.wires.isSome = true) (hu : Unwired (nodes ++ [internal]) pos) :
    Unwired nodes pos := by
  obtain ⟨r, hr, hn⟩ := hu
  rw [List.getElem?_append] at hr
  split at hr
  · exact ⟨r, hr, hn⟩
  · obtain rfl := List.mem_singleton.mp (List.mem_of_getElem? hr)
    rw [hn] at hw
    cases hw

theorem unwired_addSink? {port : Option Port} {sink : Option NodeId} {type : String}
    (h : b.addSink? nodes port sink type = some nodes') (hu : Unwired nodes' pos) : Unwired nodes pos := by
  unfold addSink? at h
  split at h
  · obtain ⟨ns, hns, h⟩ := Option.bind_eq_some_iff.mp h
    cases h
    exact foldlM_invariant (P := fun ns => Unwired ns pos → Unwired nodes pos)
      (fun _ _ _ hb hs hu => hb (unwired_connect? hs hu)) hns id (unwired_concat rfl hu)
  · cases h
    exact hu

/-- Only copies of nodes without wiring have none. -/
theorem unwired_expand? (h : b.expand? outer = some nodes) (hu : Unwired nodes pos) :
    Unwired (b.template.nodes.map b.copy) pos := by
  unfold expand? at h
  obtain ⟨⟨n₁, passed⟩, h₁, h⟩ := Option.bind_eq_some_iff.mp h
  obtain ⟨n₂, h₂, h⟩ := Option.bind_eq_some_iff.mp h
  obtain ⟨n₃, h₃, h⟩ := Option.bind_eq_some_iff.mp h
  cases h
  exact unwired_connectOutputs? h₁ (unwired_addSink? h₂ (unwired_addSink? h₃ (unwired_concat rfl hu)))

/-- What stands at one place of an expansion: the copy of the template's node at this place, which may have got
wires, or behind all copies a node of the engine, which has no properties. -/
inductive Stands (t : Template) (usage : Record) (next pos : Nat) (r' : Record) : Prop
  | copied {r : Record} (hr : t.nodes[pos]? = some r) (bare : r'.bare = ((Binding.make t usage next).copy r).bare)
      (unwired : r'.wires = none → r.wires = none) : Stands t usage next pos r'
  | internal {n : Nat} (behind : t.nodes.length ≤ pos) (beyond : t.nodes.length ≤ n) (id : r'.id = privateId (next + n))
      (type : isInternalType r'.type = true) (enabled : r'.disabled = false) (empty : r'.properties = [])
      (wired : r'.wires ≠ none) : Stands t usage next pos r'

/-- The nodes of the engine in an instance. -/
theorem internal_of_mem {m : Record} (hm : m ∈
    ((Binding.make t usage next).statusSink.toList.map fun id => (Binding.make t usage next).internal id statusSinkType []) ++
    (((Binding.make t usage next).completeSink.toList.map fun id =>
      (Binding.make t usage next).internal id completeSinkType []) ++
    [(Binding.make t usage next).internal (Binding.make t usage next).input inputType []])) :
    (∃ n, t.nodes.length ≤ n ∧ m.id = privateId (next + n)) ∧ isInternalType m.type = true ∧ m.disabled = false ∧
      m.properties = [] := by
  simp only [List.mem_append, List.mem_map, Option.mem_toList, List.mem_singleton] at hm
  rcases hm with ⟨id, hid, rfl⟩ | ⟨id, hid, rfl⟩ | rfl
  · obtain ⟨p, -, rfl⟩ := Option.map_eq_some_iff.mp hid
    exact ⟨⟨t.nodes.length + 1, by omega, by rw [← Nat.add_assoc]; rfl⟩, rfl, rfl, rfl⟩
  · obtain ⟨p, -, rfl⟩ := Option.map_eq_some_iff.mp hid
    exact ⟨⟨t.nodes.length + 1 + t.status.toList.length, by omega, by rw [← Nat.add_assoc, ← Nat.add_assoc]; rfl⟩,
      rfl, rfl, rfl⟩
  · exact ⟨⟨t.nodes.length, Nat.le_refl _, rfl⟩, rfl, rfl, rfl⟩

theorem stands_expand? (h : (Binding.make t usage next).expand? outer = some nodes) {r' : Record}
    (hr' : nodes[pos]? = some r') : Stands t usage next pos r' := by
  have hbare := expand?_bare (fitting_make t usage next) h
  have hat : (((Binding.make t usage next).members)[pos]?).map Record.bare = some r'.bare := by
    rw [← List.getElem?_map, ← hbare, List.getElem?_map, hr']
    rfl
  obtain ⟨m, hm, hmb⟩ := Option.map_eq_some_iff.mp hat
  have hunwired (hw : r'.wires = none) : Unwired (t.nodes.map (Binding.make t usage next).copy) pos :=
    unwired_expand? h ⟨r', hr', hw⟩
  unfold members at hm
  rw [List.getElem?_append] at hm
  split at hm
  · rw [List.getElem?_map] at hm
    obtain ⟨r, hr, rfl⟩ := Option.map_eq_some_iff.mp hm
    refine .copied hr hmb.symm fun hw => ?_
    obtain ⟨c, hc, hcw⟩ := hunwired hw
    rw [List.getElem?_map] at hc
    obtain ⟨r₂, hr₂, rfl⟩ := Option.map_eq_some_iff.mp hc
    obtain rfl := Option.some.inj (hr.symm.trans hr₂)
    exact Option.map_eq_none_iff.mp hcw
  · rename_i hout
    rw [List.length_map] at hout
    obtain ⟨⟨n, hn, hid⟩, ht, hd, hp⟩ := internal_of_mem (List.mem_of_getElem? hm)
    refine .internal (Nat.le_of_not_lt hout) hn ((eq_of_bare (·.id) (fun _ => rfl) hmb.symm).trans hid)
      ((eq_of_bare (fun r => isInternalType r.type) (fun _ => rfl) hmb.symm).trans ht)
      ((eq_of_bare (·.disabled) (fun _ => rfl) hmb.symm).trans hd)
      ((eq_of_bare (·.properties) (fun _ => rfl) hmb.symm).trans hp) fun hw => ?_
    obtain ⟨c, hc, -⟩ := hunwired hw
    have := (List.getElem?_eq_some_iff.mp hc).1
    rw [List.length_map] at this
    exact hout this

/-- Every template node has its copy at the same place. -/
theorem exists_copy (h : (Binding.make t usage next).expand? outer = some nodes) (hr : t.nodes[pos]? = some r) :
    ∃ r', nodes[pos]? = some r' ∧ r'.bare = ((Binding.make t usage next).copy r).bare := by
  have hbare := congrArg (·[pos]?) (expand?_bare (fitting_make t usage next) h)
  have hm : (Binding.make t usage next).members[pos]? = some ((Binding.make t usage next).copy r) := by
    unfold members
    have hlt := (List.getElem?_eq_some_iff.mp hr).1
    rw [List.getElem?_append_left (by rw [List.length_map]; exact hlt), List.getElem?_map]
    exact congrArg (Option.map _) hr
  rw [List.getElem?_map, List.getElem?_map, hm] at hbare
  exact Option.map_eq_some_iff.mp hbare

/-! ## What a copy needs -/

theorem eq_of_unwired {r₁ r₂ : Record} (h : r₁.bare = r₂.bare) (h₁ : r₁.wires = none) (h₂ : r₂.wires = none) :
    r₁ = r₂ := by
  obtain ⟨id, type, container, wires, disabled, properties⟩ := r₁
  cases h₁
  rw [show r₂.bare = r₂ by rw [Record.bare, ← h₂]] at h
  exact h

theorem id_of_bare {r' : Record} (h : r'.bare = (b.copy r).bare) : r'.id = b.rename r.id :=
  eq_of_bare (·.id) (fun _ => rfl) h

theorem disabled_of_bare {r' : Record} (h : r'.bare = (b.copy r).bare) : r'.disabled = r.disabled := by
  have := eq_of_bare (·.disabled) (fun _ => rfl) h
  exact this

/-- The private name of a template node belongs to its copies alone. -/
theorem named_expand? (h : (Binding.make t usage next).expand? outer = some nodes) (hf : t.Fresh next)
    (hdep : dep ∈ t.nodes) (pos : Nat) :
    StartOrder.Named nodes ((Binding.make t usage next).rename dep.id) pos ↔ StartOrder.Named t.nodes dep.id pos := by
  constructor
  · rintro ⟨r', hr', hd, hid⟩
    cases stands_expand? h hr' with
    | @copied r hr bare _ =>
      refine ⟨r, hr, (disabled_of_bare bare).symm.trans hd, ?_⟩
      exact eq_of_rename_eq hf hdep (.inr ⟨r, List.mem_of_getElem? hr, rfl⟩) ((id_of_bare bare).symm.trans hid)
    | @internal n _ beyond id =>
      obtain ⟨i, hi, he⟩ := rename_id usage next hdep
      have := privateId_injective (id.symm.trans (hid.trans he))
      omega
  · rintro ⟨r, hr, hd, hid⟩
    obtain ⟨r', hr', bare⟩ := exists_copy h hr
    exact ⟨r', hr', (disabled_of_bare bare).trans hd, (id_of_bare bare).trans (by rw [hid])⟩

/-- In an expansion no node needs another whose original the template's node does not need. -/
theorem needs_expand? (h : (Binding.make t usage next).expand? outer = some nodes) (hf : t.Fresh next) {p : Nat}
    (hp : p ∈ StartOrder.needs nodes pos) : p ∈ StartOrder.needs t.nodes pos := by
  obtain ⟨r', dep', hr', hdep', hd, hc, href, hpos⟩ := StartOrder.mem_needs.mp hp
  obtain ⟨hne, hin⟩ := Bool.and_eq_true_iff.mp href
  have hin : dep'.id ∈ r'.references := List.contains_iff_mem.mp hin
  cases stands_expand? h hdep' with
  | internal _ _ _ _ _ _ wired =>
    simp [Record.isConfigNode, wired] at hc
  | @copied dep hdep depBare unwired =>
    cases stands_expand? h hr' with
    | internal _ _ _ _ _ empty =>
      rw [Record.references, empty] at hin
      cases hin
    | @copied r hr bare _ =>
      have hdepMem : dep ∈ t.nodes := List.mem_of_getElem? hdep
      have hrMem : r ∈ t.nodes := List.mem_of_getElem? hr
      rw [id_of_bare depBare] at hin hpos hne
      rw [id_of_bare bare] at hne
      refine StartOrder.mem_needs.mpr ⟨r, dep, hr, hdep, (disabled_of_bare depBare).symm.trans hd, ?_, ?_, ?_⟩
      · have hw : dep'.wires = none := by
          simp only [Record.isConfigNode, Bool.and_eq_true, Option.isNone_iff_eq_none] at hc
          exact hc.1.1
        have hcopy : dep' = (Binding.make t usage next).copy dep :=
          eq_of_unwired depBare hw (by rw [copy, unwired hw]; rfl)
        rwa [hcopy, isConfigNode_copy] at hc
      · refine Bool.and_eq_true_iff.mpr ⟨?_, List.contains_iff_mem.mpr ?_⟩
        · rw [bne_iff_ne] at hne ⊢
          exact fun he => hne (by rw [he])
        · rw [eq_of_bare Record.references (fun _ => rfl) bare] at hin
          rcases mem_references_copy hin with hin | ⟨s, hs, he⟩
          · obtain ⟨i, -, hi⟩ := rename_id usage next hdepMem
            exact absurd hi (hf r hrMem _ hin _ (Nat.le_add_right _ _))
          · rwa [← eq_of_rename_eq hf hdepMem (.inl ⟨r, hrMem, hs⟩) he.symm]
      · rw [StartOrder.positionOf?_eq_some] at hpos ⊢
        simpa only [named_expand? h hf hdepMem] using hpos

/-- An expansion can be ordered whenever its template can. -/
theorem resolve_expand? (h : (Binding.make t usage next).expand? outer = some nodes) (hf : t.Fresh next)
    (ho : ∃ order, StartOrder.resolve t.nodes = .ok order) : ∃ order, StartOrder.resolve nodes = .ok order := by
  obtain ⟨rank, hr⟩ := StartOrder.resolve_iff_ranks.mp ho
  exact StartOrder.resolve_iff_ranks.mpr ⟨rank, fun pos p hp => hr pos p (needs_expand? h hf hp)⟩

end Binding
end Flowgraph
